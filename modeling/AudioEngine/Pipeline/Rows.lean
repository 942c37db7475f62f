import AudioEngine.Pipeline.Writes

/-!
# AudioEngine.Pipeline.Rows

The inserts keep the invariant of the stores: the seeding transaction of `handle_parse`, which
inserts the task rows and begins the parse in one commit, and the insert of the gateway.

The task ids are deterministic, so on a second parse every row conflicts and the transaction comes
down to its compare-and-set (`Sound.seed_cases`).
-/

namespace AudioEngine
namespace Pipeline

open Relational

section Seed

variable {cfg : Settings} {sh : Shared} {db' : Db} {j text : String} {job : Job} {won : Bool}

theorem Sound.named (hs : Sound cfg sh) {t : Task} (ht : t ∈ sh.db.tasks.rows) :
    t.taskId = taskIdOf t.jobId t.blockIndex := by
  have hg := Table.get_of_mem ht
  obtain ⟨job, hj⟩ := Option.isSome_iff_exists.mp (hs.owner _ t hg)
  have hm : t ∈ sh.db.tasksOf t.jobId := mem_tasksOf.mpr ⟨hg, rfl⟩
  rcases hs.laid _ job hj with ⟨hnil, _⟩ | ⟨⟨text, hl⟩, _⟩
  · rw [hnil] at hm; cases hm
  · exact (hl.block hm).1

/-- A job with a row has them all. -/
theorem Sound.laid_of_row (hs : Sound cfg sh) {t : Task} (ht : t ∈ sh.db.tasksOf j) :
    Laid cfg sh j ∧ ∃ job, sh.db.jobs.get j = some job ∧ job.status ≠ .pending := by
  obtain ⟨hg, rfl⟩ := mem_tasksOf.mp ht
  obtain ⟨job, hj⟩ := Option.isSome_iff_exists.mp (hs.owner _ t hg)
  rcases hs.laid _ job hj with ⟨hnil, _⟩ | ⟨hl, hne⟩
  · rw [hnil] at ht; cases ht
  · exact ⟨hl, job, hj, hne⟩

/-- The three ways the transaction goes: it seeds a `PENDING` job, it inserts rows for a job that
is `FAILED`, or it changes nothing. -/
theorem Sound.seed_cases (hs : Sound cfg sh) (hjob : sh.db.jobs.get j = some job)
    (htext : sh.getText (rawKey j) = some text)
    (h : seedTasks sh.db j (blocksOf cfg text) = .ok (db', won)) :
    (sh.db.tasksOf j = [] ∧ db'.tasks.rows = sh.db.tasks.rows ++ taskRows j (blocksOf cfg text) ∧
      ((won = true ∧ job.status = .pending ∧ ∀ k, db'.jobs.get k =
          if k = j then some { job with status := .parsing, pendingCount := (blocksOf cfg text).length }
          else sh.db.jobs.get k) ∨
        (won = false ∧ job.status = .failed ∧ db'.jobs = sh.db.jobs))) ∨
    (won = false ∧ db' = sh.db ∧ job.status ≠ .pending ∧ LaidOut cfg sh j text) := by
  rcases hs.laid j job hjob with ⟨hnil, hpf⟩ | ⟨⟨text', hl⟩, hne⟩
  · obtain ⟨tasks, hrows, heq⟩ := seedTasks_fresh (blocksOf cfg text) hjob hnil
      (fun t ht => hs.named ht)
    rw [heq, Except.ok.injEq] at h
    refine .inl ⟨hnil, ?_⟩
    rcases casJob_cases h with ⟨hw, rfl, hno⟩ | ⟨hw, ht, job', hg, hm, hget⟩
    · refine ⟨hrows, .inr ⟨hw, ?_, rfl⟩⟩
      rcases hpf with hp | hp
      · exact absurd (by simp [hp]) (hno job hjob)
      · exact hp
    · rw [ht]
      have : job' = job := by
        have := hg.symm.trans hjob
        exact Option.some.inj this
      subst this
      exact ⟨hrows, .inl ⟨hw, by simpa using hm, hget⟩⟩
  · have : text' = text := Option.some.inj (hl.stored.symm.trans htext)
    subst this
    rw [seedTasks_again hjob fun i hi => by
      obtain ⟨t, ht, hidx, _⟩ := hl.row hi
      exact ⟨t, ht, hidx⟩, Except.ok.injEq] at h
    rcases casJob_cases h with ⟨hw, rfl, _⟩ | ⟨_, _, job', hg, hm, _⟩
    · exact .inr ⟨hw, rfl, hne, hl⟩
    · have := Option.some.inj (hg.symm.trans hjob)
      subst this
      exact absurd (by simpa using hm) hne

theorem get_appended {db db' : Db} {rows : List Task}
    (h : db'.tasks.rows = db.tasks.rows ++ rows) {t : String} {x : Task} :
    db'.tasks.get t = some x ↔ db.tasks.get t = some x ∨ (x ∈ rows ∧ x.taskId = t) := by
  simp only [Table.get_eq_some, h, List.mem_append]
  tauto

theorem tasksOf_appended {db db' : Db} {blocks : List String}
    (h : db'.tasks.rows = db.tasks.rows ++ taskRows j blocks) (k : String) :
    db'.tasksOf k = db.tasksOf k ++ if k = j then taskRows j blocks else [] := by
  rw [Db.tasksOf, h, List.filter_append]
  congr 1
  split
  · rename_i he
    rw [List.filter_eq_self]
    intro t ht
    obtain ⟨i, block, _, rfl⟩ := mem_taskRows.mp ht
    simp [he]
  · rename_i hne
    rw [List.filter_eq_nil_iff]
    intro t ht
    obtain ⟨i, block, _, rfl⟩ := mem_taskRows.mp ht
    simpa using Ne.symm hne

/-- After the transaction the job is laid out, in every case. -/
theorem Sound.seed_laidOut (hs : Sound cfg sh) (hjob : sh.db.jobs.get j = some job)
    (htext : sh.getText (rawKey j) = some text)
    (h : seedTasks sh.db j (blocksOf cfg text) = .ok (db', won)) :
    LaidOut cfg { sh with db := db' } j text := by
  rcases hs.seed_cases hjob htext h with ⟨hnil, hrows, _⟩ | ⟨_, rfl, _, hl⟩
  · refine ⟨htext, ?_⟩
    show (db'.tasksOf j).map _ = _
    rw [tasksOf_appended hrows, hnil, if_pos rfl, List.nil_append]
  · exact ⟨hl.stored, hl.rows⟩

/-- The job's row and the rows of the other jobs under the transaction. -/
theorem Sound.seed_jobs (hs : Sound cfg sh) (hjob : sh.db.jobs.get j = some job)
    (htext : sh.getText (rawKey j) = some text)
    (h : seedTasks sh.db j (blocksOf cfg text) = .ok (db', won)) {k : String} {x' : Job}
    (hx : db'.jobs.get k = some x') :
    ∃ x, sh.db.jobs.get k = some x ∧ x'.manuscriptKey = x.manuscriptKey ∧
      ((x' = x ∧ (k = j → x.status ≠ .pending)) ∨
        (k = j ∧ x.status = .pending ∧ x'.status = .parsing)) := by
  rcases hs.seed_cases hjob htext h with ⟨_, _, ⟨_, hp, hget⟩ | ⟨_, hf, hjobs⟩⟩ | ⟨_, rfl, hne, _⟩
  · rw [hget] at hx
    split at hx
    · rename_i he
      cases hx
      exact ⟨job, he ▸ hjob, rfl, .inr ⟨he, hp, rfl⟩⟩
    · rename_i he
      exact ⟨x', hx, rfl, .inl ⟨rfl, fun h => absurd h he⟩⟩
  · rw [hjobs] at hx
    refine ⟨x', hx, rfl, .inl ⟨rfl, ?_⟩⟩
    rintro rfl
    rw [hjob] at hx
    cases hx
    rw [hf]; simp
  · refine ⟨x', hx, rfl, .inl ⟨rfl, ?_⟩⟩
    rintro rfl
    rw [hjob] at hx
    cases hx
    exact hne

theorem Sound.seed_jobs_forward (hs : Sound cfg sh) (hjob : sh.db.jobs.get j = some job)
    (htext : sh.getText (rawKey j) = some text)
    (h : seedTasks sh.db j (blocksOf cfg text) = .ok (db', won)) {k : String} {x : Job}
    (hx : sh.db.jobs.get k = some x) :
    ∃ x', db'.jobs.get k = some x' ∧
      (x'.status = x.status ∨ x.status.canTransition x'.status = true) := by
  rcases hs.seed_cases hjob htext h with ⟨_, _, ⟨_, hp, hget⟩ | ⟨_, _, hjobs⟩⟩ | ⟨_, rfl, _, _⟩
  · rw [hget]
    split
    · rename_i he
      rw [he, hjob] at hx
      cases hx
      exact ⟨_, rfl, .inr (by rw [hp]; rfl)⟩
    · exact ⟨x, hx, .inl rfl⟩
  · rw [hjobs]; exact ⟨x, hx, .inl rfl⟩
  · exact ⟨x, hx, .inl rfl⟩

theorem Sound.seed_tasks (hs : Sound cfg sh) (hjob : sh.db.jobs.get j = some job)
    (htext : sh.getText (rawKey j) = some text)
    (h : seedTasks sh.db j (blocksOf cfg text) = .ok (db', won)) {t : String} {x : Task} :
    db'.tasks.get t = some x ↔ sh.db.tasks.get t = some x ∨
      (sh.db.tasksOf j = [] ∧ x ∈ taskRows j (blocksOf cfg text) ∧ x.taskId = t) := by
  rcases hs.seed_cases hjob htext h with ⟨hnil, hrows, _⟩ | ⟨_, rfl, _, hl⟩
  · rw [get_appended hrows]
    simp [hnil]
  · constructor
    · exact .inl
    · rintro (h | ⟨hnil, hm, _⟩)
      · exact h
      · have := hl.length
        rw [hnil, List.length_nil] at this
        rw [List.eq_nil_of_length_eq_zero this.symm] at hm
        simp [taskRows] at hm

theorem Sound.seed_tasksOf (hs : Sound cfg sh) (hjob : sh.db.jobs.get j = some job)
    (htext : sh.getText (rawKey j) = some text)
    (h : seedTasks sh.db j (blocksOf cfg text) = .ok (db', won)) {k : String} (hk : k ≠ j) :
    db'.tasksOf k = sh.db.tasksOf k := by
  rcases hs.seed_cases hjob htext h with ⟨_, hrows, _⟩ | ⟨_, rfl, _, _⟩
  · rw [tasksOf_appended hrows, if_neg hk, List.append_nil]
  · rfl

theorem seed_evolves (hs : Sound cfg sh) (hjob : sh.db.jobs.get j = some job)
    (htext : sh.getText (rawKey j) = some text)
    (h : seedTasks sh.db j (blocksOf cfg text) = .ok (db', won)) :
    Evolves cfg sh { sh with db := db' } where
  job := fun _ _ hx => hs.seed_jobs_forward hjob htext h hx
  task := fun t x hx =>
    ⟨x, (hs.seed_tasks hjob htext h).mpr (.inl hx), rfl, fun _ => rfl, fun hp => hp⟩
  laid := by
    intro k text' hl
    by_cases he : k = j
    · subst he
      obtain rfl : text' = text := Option.some.inj (hl.stored.symm.trans htext)
      exact hs.seed_laidOut hjob htext h
    · refine ⟨hl.stored, ?_⟩
      rw [← hl.rows]
      exact congrArg _ (hs.seed_tasksOf hjob htext h he)
  raw := fun _ _ hb => hb
  audio := fun _ _ hb => hb
  trace := ⟨[], rfl⟩

theorem seed_sound (hs : Sound cfg sh) (hjob : sh.db.jobs.get j = some job)
    (htext : sh.getText (rawKey j) = some text)
    (h : seedTasks sh.db j (blocksOf cfg text) = .ok (db', won)) :
    Sound cfg { sh with db := db' } where
  posted := hs.posted
  job := by
    intro k x' hx
    obtain ⟨x, hg, hkey, _⟩ := hs.seed_jobs hjob htext h hx
    obtain ⟨hraw, m, hm⟩ := hs.job k x hg
    exact ⟨hkey.trans hraw, m, hm⟩
  owner := by
    intro t x hx
    have hold : ∃ x₀, sh.db.jobs.get x.jobId = some x₀ := by
      rcases (hs.seed_tasks hjob htext h).mp hx with hx | ⟨_, hm, _⟩
      · exact Option.isSome_iff_exists.mp (hs.owner t x hx)
      · obtain ⟨i, block, _, rfl⟩ := mem_taskRows.mp hm
        exact ⟨job, hjob⟩
    obtain ⟨x₀, hg⟩ := hold
    obtain ⟨x', hg', _⟩ := hs.seed_jobs_forward hjob htext h hg
    exact Option.isSome_iff_exists.mpr ⟨x', hg'⟩
  laid := by
    intro k x' hx
    obtain ⟨x, hg, _, hcase⟩ := hs.seed_jobs hjob htext h hx
    by_cases he : k = j
    · subst he
      refine .inr ⟨⟨text, hs.seed_laidOut hjob htext h⟩, ?_⟩
      rcases hcase with ⟨rfl, hne⟩ | ⟨_, _, hp⟩
      · exact hne rfl
      · rw [hp]; simp
    · rcases hcase with ⟨rfl, _⟩ | ⟨hkj, _⟩
      · have hrows := hs.seed_tasksOf hjob htext h he
        rcases hs.laid k x' hg with ⟨hnil, hpf⟩ | ⟨⟨text', hl⟩, hne⟩
        · exact .inl ⟨hrows.trans hnil, hpf⟩
        · exact .inr ⟨⟨text', (seed_evolves hs hjob htext h).laid k text' hl⟩, hne⟩
      · exact absurd hkj he
  done := by
    intro t x hx hd
    rcases (hs.seed_tasks hjob htext h).mp hx with hx | ⟨_, hm, _⟩
    · exact hs.done t x hx hd
    · obtain ⟨i, block, _, rfl⟩ := mem_taskRows.mp hm
      cases hd
  cached := hs.cached
  audio := hs.audio

end Seed

/-! ## The insert of the gateway -/

section Insert

variable {cfg : Settings} {sh : Shared} {j manuscript : String} {cb : Option String}
  {jobs : Table Job.jobId}

/-- The new job has no rows: a row's job exists. -/
theorem insertJob_sound (hs : Sound cfg sh) (hp : .posted j manuscript ∈ sh.trace)
    (h : sh.db.jobs.insert? { jobId := j, manuscriptKey := rawKey j, callbackUrl := cb } = some jobs) :
    Sound cfg { sh with db := { sh.db with jobs := jobs } } where
  posted := hs.posted
  job := by
    intro k x hx
    replace hx : jobs.get k = some x := hx
    rw [Table.get_insert? h] at hx
    split at hx
    · rename_i he
      cases hx; cases he
      exact ⟨rfl, manuscript, hp⟩
    · exact hs.job k x hx
  owner := by
    intro t x hx
    show (jobs.get x.jobId).isSome = true
    rw [Table.get_insert? h]
    split
    · rfl
    · exact hs.owner t x hx
  laid := by
    intro k x hx
    replace hx : jobs.get k = some x := hx
    rw [Table.get_insert? h] at hx
    split at hx
    · rename_i he
      cases hx
      refine .inl ⟨?_, .inl rfl⟩
      rw [List.eq_nil_iff_forall_not_mem]
      intro t ht
      obtain ⟨hg, hj⟩ := mem_tasksOf.mp ht
      have := hs.owner _ t hg
      rw [hj, ← he, (Table.insert?_eq_some h).2] at this
      cases this
    · rcases hs.laid k x hx with h0 | ⟨⟨text, hl⟩, hne⟩
      · exact .inl h0
      · exact .inr ⟨⟨text, hl.stored, hl.rows⟩, hne⟩
  done := hs.done
  cached := hs.cached
  audio := hs.audio

theorem insertJob_evolves
    (h : sh.db.jobs.insert? { jobId := j, manuscriptKey := rawKey j, callbackUrl := cb } = some jobs) :
    Evolves cfg sh { sh with db := { sh.db with jobs := jobs } } where
  job := by
    intro k x hx
    refine ⟨x, ?_, .inl rfl⟩
    show jobs.get k = some x
    rw [Table.get_insert? h]
    split
    · rename_i he
      rw [← he, (Table.insert?_eq_some h).2] at hx
      cases hx
    · exact hx
  task := fun t x hx => ⟨x, hx, rfl, fun _ => rfl, fun hp => hp⟩
  laid := fun _ _ hl => ⟨hl.stored, hl.rows⟩
  raw := fun _ _ hb => hb
  audio := fun _ _ hb => hb
  trace := ⟨[], rfl⟩

end Insert

end Pipeline
end AudioEngine
