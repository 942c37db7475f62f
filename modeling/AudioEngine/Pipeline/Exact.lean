import AudioEngine.Infra.Barrier
import AudioEngine.Pipeline.Status

/-!
# AudioEngine.Pipeline.Exact

The counter of a seeded job equals the number of its `PENDING` tasks, in every run in which no
task that the dead-letter path has `FAILED` is completed.

`Begun` jobs are those for which `begin_parse` has won. Their rows are laid out and are never added
to, so the only moves that touch the counter are claims, and each is exact by `Claimed.exact_iff`.
-/

namespace AudioEngine
namespace Pipeline

open Relational Interleave

/-- `begin_parse` has returned `True` for the job. -/
def Begun (sh : Shared) (j : String) : Prop := ∃ n, .beginParse j n true ∈ sh.trace

/-- Every seeded job is laid out, and its counter is exact. -/
def Counted (cfg : Settings) (sh : Shared) : Prop :=
  ∀ j, Begun sh j → Laid cfg sh j ∧ Past sh j 1 ∧ sh.db.Exact j

/-- A job that has left `PENDING` other than into `FAILED` has been seeded. -/
def EnteredBegun (sh : Shared) : Prop :=
  ∀ j job, sh.db.jobs.get j = some job → job.status ≠ .pending → job.status ≠ .failed → Begun sh j

section Move

variable {cfg : Settings} {F : Licence} {sh sh' : Shared} {j : String}

theorem Begun.mono (h : Begun sh j) (he : Evolves cfg sh sh') : Begun sh' j := by
  obtain ⟨n, hn⟩ := h
  obtain ⟨os, ht⟩ := he.trace
  exact ⟨n, by rw [ht]; exact List.mem_append_right os hn⟩

/-- The seeding transaction that wins is the only move after which a further job is seeded. -/
theorem Effect.begun_cases (h : Effect cfg F sh sh') (hb : Begun sh' j) :
    Begun sh j ∨ ∃ text job db, sh.db.jobs.get j = some job ∧ sh.getText (rawKey j) = some text ∧
      seedTasks sh.db j (blocksOf cfg text) = .ok (db, true) ∧ sh'.db = db := by
  obtain ⟨n, hn⟩ := hb
  cases h with
  | stores h =>
    obtain ⟨os, ht, hos⟩ := h.trace
    rw [ht, List.mem_append] at hn
    rcases hn with hn | hn
    · rcases hos _ hn with hnote | ⟨_, _, he, _⟩
      · cases hnote
      · cases he
    · exact .inl ⟨n, hn⟩
  | insertJob hp hi => exact .inl ⟨n, hn⟩
  | seed hjob ht hseed _ =>
    rcases List.mem_cons.mp hn with he | hn
    · cases he
      exact .inr ⟨_, _, _, hjob, ht, hseed, rfl⟩
    · exact .inl ⟨n, hn⟩
  | advance hst h =>
    rcases List.mem_cons.mp hn with he | hn
    · cases he
    · exact .inl ⟨n, hn⟩
  | finalize h _ =>
    rcases List.mem_cons.mp hn with he | hn
    · cases he
    · exact .inl ⟨n, hn⟩
  | complete _ _ _ _ _ =>
    rcases List.mem_cons.mp hn with he | hn
    · cases he
    · exact .inl ⟨n, hn⟩
  | fail _ _ _ _ =>
    rcases List.mem_cons.mp hn with he | hn
    · cases he
    · exact .inl ⟨n, hn⟩

theorem exact_of_same (db db' : Db) (hjob : (db'.jobs.get j).map Job.pendingCount =
    (db.jobs.get j).map Job.pendingCount) (hrows : db'.tasksOf j = db.tasksOf j)
    (h : db.Exact j) : db'.Exact j := by
  rw [Db.Exact, hjob, outstanding_eq, hrows, ← outstanding_eq]
  exact h

/-- Right after the seeding transaction has won, all rows are `PENDING`. -/
theorem Sound.seed_exact {text : String} {job : Job} {db : Db} (hs : Sound cfg sh)
    (hjob : sh.db.jobs.get j = some job) (ht : sh.getText (rawKey j) = some text)
    (hseed : seedTasks sh.db j (blocksOf cfg text) = .ok (db, true)) : db.Exact j := by
  rcases hs.seed_cases hjob ht hseed with ⟨hnil, hrows, ⟨_, _, hget⟩ | ⟨hf, _⟩⟩ | ⟨hf, _⟩
  · have hall : ∀ t ∈ taskRows j (blocksOf cfg text), decide (t.status = .pending) = true := by
      intro t htm
      obtain ⟨i, block, _, rfl⟩ := mem_taskRows.mp htm
      rfl
    rw [Db.Exact, hget, if_pos rfl, outstanding_eq, tasksOf_appended hrows, hnil, if_pos rfl,
      List.nil_append, List.countP_eq_length.mpr hall, length_taskRows]
    rfl
  · cases hf
  · cases hf

/-- The seeding transaction of a redelivery, or of another job, leaves an exact counter alone. -/
theorem Sound.seed_keeps_exact {k text text' : String} {job : Job} {db : Db} {won : Bool}
    (hs : Sound cfg sh) (hl : LaidOut cfg sh j text) (hp : Past sh j 1)
    (hjob : sh.db.jobs.get k = some job) (ht : sh.getText (rawKey k) = some text')
    (hseed : seedTasks sh.db k (blocksOf cfg text') = .ok (db, won)) (he : sh.db.Exact j) :
    db.Exact j := by
  obtain ⟨job₀, hg₀, hrank⟩ := hp
  rcases hs.seed_cases hjob ht hseed with
    ⟨hnil, hrows, ⟨_, hpend, hget⟩ | ⟨_, _, hjobs⟩⟩ | ⟨_, rfl, _, _⟩
  · -- the compare-and-set out of `PENDING` was won, so it is another job's
    by_cases hk : j = k
    · subst hk
      obtain rfl := Option.some.inj (hjob.symm.trans hg₀)
      rw [hpend] at hrank
      cases hrank
    · refine exact_of_same sh.db db ?_ (hs.seed_tasksOf hjob ht hseed hk) he
      rw [hget, if_neg hk]
  · refine exact_of_same sh.db db (by rw [hjobs]) ?_ he
    by_cases hk : j = k
    · -- a seeded job without rows has no blocks
      subst hk
      obtain rfl : text' = text := Option.some.inj (ht.symm.trans hl.stored)
      have hlen := hl.length
      rw [hnil, List.length_nil] at hlen
      rw [tasksOf_appended hrows, List.eq_nil_of_length_eq_zero hlen.symm]
      simp [taskRows]
    · exact hs.seed_tasksOf hjob ht hseed hk
  · exact he

theorem cas_exact {k : String} {expected : List JobStatus} {set : Job → Job}
    {hset : ∀ r, (set r).jobId = r.jobId} {db' : Db} {won : Bool}
    (h : casJob sh.db k expected set hset = (db', won))
    (hset' : ∀ r, (set r).pendingCount = r.pendingCount) (he : sh.db.Exact j) : db'.Exact j := by
  rcases casJob_cases h with ⟨_, rfl, _⟩ | ⟨_, htasks, job, hg, _, hget⟩
  · exact he
  · refine exact_of_same sh.db db' ?_ (by rw [Db.tasksOf, htasks]; rfl) he
    rw [hget]
    split
    · rename_i hk
      rw [hk, hg, Option.map_some, Option.map_some, hset']
    · rfl

theorem claimed_exact {k t : String} {task task' : Task} {job : Job} {db' : Db}
    (hc : Claimed sh.db db' k t task task' job) (hk : task.jobId = k)
    (hp : task.status = .pending) (he : sh.db.Exact j) : db'.Exact j := by
  by_cases hkj : k = j
  · subst hkj
    exact (hc.exact_iff hk he).mpr hp
  · have ho := hc.outstanding j
    rw [hk] at ho
    simp only [hkj, decide_false, Bool.false_and, Bool.toNat_false, Nat.add_zero] at ho
    rw [Db.Exact, hc.jobs, if_neg (Ne.symm hkj), ho]
    exact he

theorem Effect.counted (h : Effect cfg F sh sh') (hs : Sound cfg sh) (hF : ¬ F.recount)
    (hc : Counted cfg sh) : Counted cfg sh' := by
  intro j hb
  have hev := h.evolves hs
  rcases h.begun_cases hb with hb | ⟨text, job, db, hjob, ht, hseed, hdb⟩
  · obtain ⟨⟨text, hl⟩, hp, he⟩ := hc j hb
    refine ⟨⟨text, hev.laid j text hl⟩, hp.mono hev, ?_⟩
    cases h with
    | stores h => rw [h.db]; exact he
    | insertJob hpost hi =>
      obtain ⟨job, hg, _⟩ := hp
      refine exact_of_same sh.db _ ?_ rfl he
      show Option.map _ (Table.get _ j) = _
      rw [Table.get_insert? hi, if_neg]
      intro hj
      rw [← hj, (Table.insert?_eq_some hi).2] at hg
      cases hg
    | seed hjob ht hseed _ => exact hs.seed_keeps_exact hl hp hjob ht hseed he
    | advance hst h => exact cas_exact h (fun _ => rfl) he
    | finalize h _ => exact cas_exact h (fun _ => rfl) he
    | @complete k t task db r ht howner _ hcl hrec =>
      rcases completeTask_cases hcl with ⟨_, rfl, _⟩ | ⟨task', job, hne, _, hcl⟩
      · exact he
      · obtain rfl := Option.some.inj (ht.symm.trans hcl.task_get)
        refine claimed_exact hcl howner ?_ he
        cases hst : task.status with
        | pending => rfl
        | done => exact absurd hst hne
        | failed => exact absurd (hrec hst) hF
    | fail ht howner hcl _ =>
      rcases failTask_cases hcl with ⟨_, rfl, _⟩ | ⟨task', job, hp', _, hcl⟩
      · exact he
      · obtain rfl := Option.some.inj (ht.symm.trans hcl.task_get)
        exact claimed_exact hcl howner hp' he
  · have hl := hs.seed_laidOut hjob ht hseed
    have hp := hs.seed_past hjob ht hseed
    have hstored : sh'.getText (rawKey j) = some text := getText_mono hev ht
    rw [Laid, Past, hdb]
    refine ⟨⟨text, hstored, by rw [hdb]; exact hl.rows⟩, hp, hs.seed_exact hjob ht hseed⟩

/-- A row after a compare-and-set is an old one, or one it has set. -/
theorem casJob_set {k : String} {expected : List JobStatus} {set : Job → Job}
    {hset : ∀ r, (set r).jobId = r.jobId} {db' : Db} {won : Bool} {job' : Job}
    (h : casJob sh.db k expected set hset = (db', won)) (hg : db'.jobs.get j = some job') :
    sh.db.jobs.get j = some job' ∨ ∃ job, job' = set job := by
  rcases casJob_cases h with ⟨_, rfl, _⟩ | ⟨_, _, job, _, _, hget⟩
  · exact .inl hg
  · rw [hget] at hg
    split at hg
    · cases hg
      exact .inr ⟨job, rfl⟩
    · exact .inl hg

/-- Only the seeding transaction moves a job from `PENDING` to `PARSING`. -/
theorem Effect.parsing_begun (h : Effect cfg F sh sh') (hs : Sound cfg sh) {job job' : Job}
    (hg : sh.db.jobs.get j = some job) (hp : job.status = .pending)
    (hg' : sh'.db.jobs.get j = some job') (hp' : job'.status = .parsing) :
    Begun sh' j ∧ F.seeds j := by
  have unchanged : sh.db.jobs.get j ≠ some job' := by
    intro he
    obtain rfl := Option.some.inj (hg.symm.trans he)
    rw [hp] at hp'
    cases hp'
  have cas : ∀ {k : String} {st : JobStatus} {set : Job → Job}
      {hset : ∀ r, (set r).jobId = r.jobId} {db : Db} {won : Bool},
      casJob sh.db k st.expectedFor set hset = (db, won) → (∀ r, (set r).status = st) →
      st ≠ .parsing → db.jobs.get j ≠ some job' := by
    intro k st set hset db won hcas hst hne he
    rcases casJob_set hcas he with he | ⟨job₀, rfl⟩
    · exact unchanged he
    · exact hne ((hst job₀).symm.trans hp')
  have claimed : ∀ {k t : String} {task task' : Task} {job₀ : Job} {db : Db},
      Claimed sh.db db k t task task' job₀ → db.jobs.get j ≠ some job' := by
    intro k t task task' job₀ db hc he
    obtain ⟨x, hx, _, hst, _⟩ := claimed_job hc he
    obtain rfl := Option.some.inj (hg.symm.trans hx)
    rw [hst, hp] at hp'
    cases hp'
  cases h with
  | stores h => exact absurd (h.db ▸ hg') unchanged
  | insertJob hpost hi =>
    replace hg' := (Table.get_insert? hi j).symm.trans hg'
    split at hg'
    · rename_i hk
      rw [← hk, (Table.insert?_eq_some hi).2] at hg
      cases hg
    · exact absurd hg' unchanged
  | @seed k text job₀ db won hjob ht hseed _ hseeds =>
    replace hg' : db.jobs.get j = some job' := hg'
    rcases hs.seed_cases hjob ht hseed with ⟨_, _, ⟨rfl, _, hget⟩ | ⟨_, _, hjobs⟩⟩ | ⟨_, rfl, _, _⟩
    · rw [hget] at hg'
      split at hg'
      · rename_i hk
        subst hk
        exact ⟨⟨_, List.mem_cons_self⟩, hseeds⟩
      · exact absurd hg' unchanged
    · rw [hjobs] at hg'
      exact absurd hg' unchanged
    · exact absurd hg' unchanged
  | advance hst h =>
    refine absurd hg' (cas h (fun _ => rfl) ?_)
    rcases hst with rfl | rfl | ⟨rfl, _⟩ <;> simp
  | finalize h _ => exact absurd hg' (cas h (fun _ => rfl) (by simp))
  | complete _ _ _ hcl _ =>
    rcases completeTask_cases hcl with ⟨_, rfl, _⟩ | ⟨_, _, _, _, hcl⟩
    · exact absurd hg' unchanged
    · exact absurd hg' (claimed hcl)
  | fail _ _ hcl _ =>
    rcases failTask_cases hcl with ⟨_, rfl, _⟩ | ⟨_, _, _, _, hcl⟩
    · exact absurd hg' unchanged
    · exact absurd hg' (claimed hcl)

theorem Effect.enteredBegun (h : Effect cfg F sh sh') (hs : Sound cfg sh) (he : EnteredBegun sh) :
    EnteredBegun sh' := by
  intro j job' hg' hnp hnf
  rcases (h.row hs hg').status with ⟨_, hp⟩ | ⟨job, hg, hst⟩
  · exact absurd hp hnp
  · by_cases hpend : job.status = .pending
    · rcases hst with hst | hst
      · exact absurd (hst.trans hpend) hnp
      · rw [hpend] at hst
        refine (h.parsing_begun hs hg hpend hg' ?_).1
        revert hst hnf
        cases job'.status <;> simp [JobStatus.canTransition, JobStatus.legal]
    · refine (he j job hg hpend ?_).mono (h.evolves hs)
      intro hf
      rcases hst with hst | hst
      · exact hnf (hst.trans hf)
      · rw [hf, JobStatus.terminal_iff.mp rfl] at hst
        cases hst

end Move

/-! ## Exact counters -/

/-- The counters are exact. -/
structure Tallied (cfg : Settings) (sh : Shared) : Prop where
  counted : Counted cfg sh
  entered : EnteredBegun sh

/-- Between `PENDING` and the end, the counter is the number of `PENDING` tasks. -/
theorem Tallied.count {cfg : Settings} {sh : Shared} {j : String} (h : Tallied cfg sh) {job : Job}
    (hg : sh.db.jobs.get j = some job) (hp : job.status ≠ .pending) (hf : job.status ≠ .failed) :
    job.pendingCount = (sh.db.outstanding j : Int) := by
  have he := (h.counted j (h.entered j job hg hp hf)).2.2
  rw [Db.Exact, hg] at he
  simpa using he

theorem Effect.tallied {cfg : Settings} {F : Licence} {sh sh' : Shared} (h : Effect cfg F sh sh')
    (hs : Sound cfg sh) (hF : ¬ F.recount) (ht : Tallied cfg sh) : Tallied cfg sh' :=
  ⟨h.counted hs hF ht.counted, h.enteredBegun hs ht.entered⟩

section Run

variable {cfg : Settings} {C : Shared → Agent → Choice → Prop} {s : State} {j : String}

theorem reach_counted (hC : ∀ sh a i, C sh a i → ¬ Recounts sh a i)
    (h : Reach (system cfg) C s) : Counted cfg s.shared := by
  refine reach_effects (K := fun F => ¬ F.recount) hC id ?_ ?_ h
  · rintro j ⟨n, hn⟩
    cases hn
  · intro F s sh' hr hF he hc
    exact he.counted (reach_data hr).1 hF hc

theorem reach_enteredBegun (h : Reach (system cfg) C s) : EnteredBegun s.shared := by
  refine reach_effects (K := fun _ => True) (fun _ _ _ _ => trivial) trivial ?_ ?_ h
  · intro j job hj
    cases hj
  · intro F s sh' hr _ he hb
    exact he.enteredBegun (reach_data hr).1 hb

theorem reach_tallied (hC : ∀ sh a i, C sh a i → ¬ Recounts sh a i)
    (h : Reach (system cfg) C s) : Tallied cfg s.shared :=
  ⟨reach_counted hC h, reach_enteredBegun h⟩

end Run

end Pipeline
end AudioEngine
