import AudioEngine.Pipeline.Data

/-!
# AudioEngine.Pipeline.Wins

What one move does to the row of a job, and who won it.

`Effect.row` says what any move can do to the status columns of a job row. Every change of status is
the win of one compare-and-set, and the table has no way back, so each status is won at most once.
-/

namespace AudioEngine
namespace Pipeline

open Relational Interleave

inductive RowMove (F : Licence) (j : String) : Option Job → Job → Prop where
  | fresh {job' : Job} : job'.status = .pending → job'.finalKey = none → RowMove F j none job'
  | stays {job job' : Job} : job'.status = job.status → job'.finalKey = job.finalKey →
      RowMove F j (some job) job'
  | climbs {job job' : Job} : job.status.canTransition job'.status = true →
      job'.status ≠ .completed → job'.finalKey = job.finalKey →
      (job'.status = .failed → F.deadLetter) → RowMove F j (some job) job'
  | completes {job job' : Job} : F.finalizes j → job.status.canTransition .completed = true →
      job'.status = .completed → job'.finalKey = some (outKey j) → RowMove F j (some job) job'

section Row

variable {cfg : Settings} {F : Licence} {sh sh' : Shared} {j : String} {job' : Job}

theorem cas_row {k : String} {st : JobStatus} {set : Job → Job}
    {hset : ∀ r, (set r).jobId = r.jobId} {db' : Db} {won : Bool}
    (h : casJob sh.db k st.expectedFor set hset = (db', won)) (hj : db'.jobs.get j = some job')
    (hrow : ∀ job, job.status.canTransition st = true → k = j → RowMove F j (some job) (set job)) :
    RowMove F j (sh.db.jobs.get j) job' := by
  rcases casJob_cases h with ⟨_, rfl, _⟩ | ⟨_, _, job, hg, hm, hget⟩
  · rw [hj]; exact .stays rfl rfl
  · rw [hget] at hj
    split at hj
    · rename_i he
      subst he
      cases hj
      rw [hg]
      exact hrow job (JobStatus.mem_expectedFor.mp hm) rfl
    · rw [hj]; exact .stays rfl rfl

theorem claimed_row {k t : String} {task task' : Task} {job : Job} {db' : Db}
    (hc : Claimed sh.db db' k t task task' job) (hj : db'.jobs.get j = some job') :
    RowMove F j (sh.db.jobs.get j) job' := by
  obtain ⟨x, hg, _, hst, hkey⟩ := claimed_job hc hj
  rw [hg]
  exact .stays hst hkey

theorem Effect.row (h : Effect cfg F sh sh') (hs : Sound cfg sh)
    (hj : sh'.db.jobs.get j = some job') : RowMove F j (sh.db.jobs.get j) job' := by
  cases h with
  | stores h =>
    rw [h.db] at hj
    rw [hj]; exact .stays rfl rfl
  | insertJob hp hi =>
    replace hj := (Table.get_insert? hi j).symm.trans hj
    split at hj
    · rename_i he
      subst he
      cases hj
      rw [(Table.insert?_eq_some hi).2]
      exact .fresh rfl rfl
    · rw [hj]; exact .stays rfl rfl
  | @seed k text job db won hjob ht hseed _ =>
    replace hj : db.jobs.get j = some job' := hj
    rcases hs.seed_cases hjob ht hseed with ⟨_, _, ⟨_, hp, hget⟩ | ⟨_, _, hjobs⟩⟩ | ⟨_, rfl, _, _⟩
    · rw [hget] at hj
      split at hj
      · rename_i he
        cases hj
        rw [he, hjob]
        exact .climbs (by rw [hp]; rfl) (by simp) rfl (by simp)
      · rw [hj]; exact .stays rfl rfl
    · rw [hjobs] at hj
      rw [hj]; exact .stays rfl rfl
    · rw [hj]; exact .stays rfl rfl
  | @advance k st db won hst h =>
    refine cas_row h hj ?_
    intro job hct _
    refine .climbs hct ?_ rfl ?_
    · rcases hst with rfl | rfl | ⟨rfl, _⟩ <;> simp
    · rcases hst with rfl | rfl | ⟨rfl, hd⟩
      · simp
      · simp
      · exact fun _ => hd
  | finalize h hfin =>
    refine cas_row h hj ?_
    rintro job hct rfl
    exact .completes hfin hct rfl rfl
  | complete ht howner hb hc _ =>
    rcases completeTask_cases hc with ⟨_, rfl, _⟩ | ⟨_, _, _, _, hcl⟩
    · replace hj : sh.db.jobs.get j = some job' := hj
      rw [hj]; exact .stays rfl rfl
    · exact claimed_row hcl hj
  | fail ht howner hc _ =>
    rcases failTask_cases hc with ⟨_, rfl, _⟩ | ⟨_, _, _, _, hcl⟩
    · replace hj : sh.db.jobs.get j = some job' := hj
      rw [hj]; exact .stays rfl rfl
    · exact claimed_row hcl hj

/-- The final key is set exactly by completion. -/
def FinalKeys (sh : Shared) : Prop :=
  ∀ j job, sh.db.jobs.get j = some job →
    job.finalKey = if job.status = .completed then some (outKey j) else none

theorem RowMove.finalKey {old : Option Job} (h : RowMove F j old job')
    (hold : ∀ job, old = some job →
      job.finalKey = if job.status = .completed then some (outKey j) else none) :
    job'.finalKey = if job'.status = .completed then some (outKey j) else none := by
  cases h with
  | fresh hst hk => rw [hk, hst]; rfl
  | stays hst hk => rw [hk, hst]; exact hold _ rfl
  | climbs hct hne hk _ =>
    rw [hk, if_neg hne, hold _ rfl, if_neg]
    intro hc
    rw [hc, JobStatus.terminal_iff.mp rfl] at hct
    cases hct
  | completes _ _ hst hk => rw [hk, if_pos hst]

theorem RowMove.status {old : Option Job} (h : RowMove F j old job') :
    (old = none ∧ job'.status = .pending) ∨
      ∃ job, old = some job ∧
        (job'.status = job.status ∨ job.status.canTransition job'.status = true) := by
  cases h with
  | fresh hst _ => exact .inl ⟨rfl, hst⟩
  | @stays job _ hst _ => exact .inr ⟨job, rfl, .inl hst⟩
  | @climbs job _ hct _ _ _ => exact .inr ⟨job, rfl, .inr hct⟩
  | @completes job _ _ hct hst _ => exact .inr ⟨job, rfl, .inr (by rw [hst]; exact hct)⟩

/-- A job is completed at the `finalize_job` of the job and nowhere else. -/
theorem RowMove.completed {old : Option Job} (h : RowMove F j old job')
    (hc : job'.status = .completed) :
    F.finalizes j ∨ ∃ job, old = some job ∧ job.status = .completed := by
  cases h with
  | fresh hst _ => rw [hc] at hst; cases hst
  | @stays job _ hst _ => exact .inr ⟨job, rfl, hst.symm.trans hc⟩
  | climbs _ hne _ _ => exact absurd hc hne
  | completes hf _ _ _ => exact .inl hf

end Row

/-! ## Winning compare-and-sets -/

/-- The call moved the job into `st` and returned `True`. -/
def wins (j : String) (st : JobStatus) : Obs → Bool
  | .beginParse k _ won => decide (k = j) && decide (st = .parsing) && won
  | .advanceStatus k st' won => decide (k = j) && decide (st = st') && won
  | .finalizeJob k won => decide (k = j) && decide (st = .completed) && won
  | _ => false

section Wins

variable {cfg : Settings} {F : Licence} {sh sh' : Shared} {j : String} {st : JobStatus}

theorem wins_note {o : Obs} (h : o.isNote = true) : wins j st o = false := by
  cases o <;> first | rfl | cases h

/-- The move from `sh` to `sh'` is the transition of `j` into `st`. -/
def Enters (sh sh' : Shared) (j : String) (st : JobStatus) : Prop :=
  ∃ job job', sh.db.jobs.get j = some job ∧ sh'.db.jobs.get j = some job' ∧
    job.status.canTransition st = true ∧ job'.status = st

theorem logged_wins {db' : Db} {o : Obs}
    (h : Pipeline.wins j st o = true → Enters sh ({ sh with db := db' }.log o) j st) :
    ({ sh with db := db' }.log o).trace.countP (Pipeline.wins j st) =
        sh.trace.countP (Pipeline.wins j st) ∨
      (({ sh with db := db' }.log o).trace.countP (Pipeline.wins j st) =
          sh.trace.countP (Pipeline.wins j st) + 1 ∧ Enters sh ({ sh with db := db' }.log o) j st) := by
  cases hw : Pipeline.wins j st o with
  | false => exact .inl (List.countP_cons_of_neg (by simp [hw]))
  | true => exact .inr ⟨List.countP_cons_of_pos hw, h hw⟩

theorem cas_enters {k : String} {set : Job → Job} {hset : ∀ r, (set r).jobId = r.jobId} {db' : Db}
    {won : Bool} {o : Obs} (h : casJob sh.db k st.expectedFor set hset = (db', won))
    (hst : ∀ r, (set r).status = st) (hw : won = true) :
    Enters sh ({ sh with db := db' }.log o) k st := by
  subst hw
  rcases casJob_cases h with ⟨hf, _⟩ | ⟨_, _, job, hg, hm, hget⟩
  · cases hf
  · refine ⟨job, set job, hg, ?_, JobStatus.mem_expectedFor.mp hm, hst job⟩
    show db'.jobs.get k = some (set job)
    rw [hget, if_pos rfl]

/-- A move wins nothing for `j` and `st`, or it is the transition of `j` into `st`. -/
theorem Effect.wins (h : Effect cfg F sh sh') (hs : Sound cfg sh) (j : String) (st : JobStatus) :
    sh'.trace.countP (wins j st) = sh.trace.countP (wins j st) ∨
    (sh'.trace.countP (Pipeline.wins j st) = sh.trace.countP (Pipeline.wins j st) + 1 ∧
      Enters sh sh' j st) := by
  cases h with
  | stores h => exact .inl (h.countP (fun _ => wins_note) fun _ _ => rfl)
  | insertJob hp hi => exact .inl rfl
  | @seed k text job db won hjob ht hseed _ =>
    refine logged_wins ?_
    intro hw
    simp only [Pipeline.wins, Bool.and_eq_true, decide_eq_true_eq] at hw
    obtain ⟨⟨rfl, rfl⟩, rfl⟩ := hw
    rcases hs.seed_cases hjob ht hseed with ⟨_, _, ⟨_, hp, hget⟩ | ⟨hf, _⟩⟩ | ⟨hf, _⟩
    · exact ⟨job, _, hjob, (hget k).trans (if_pos rfl), by rw [hp]; rfl, rfl⟩
    · cases hf
    · cases hf
  | advance hst h =>
    refine logged_wins ?_
    intro hw
    simp only [Pipeline.wins, Bool.and_eq_true, decide_eq_true_eq] at hw
    obtain ⟨⟨rfl, rfl⟩, hw⟩ := hw
    exact cas_enters h (fun _ => rfl) hw
  | finalize h _ =>
    refine logged_wins ?_
    intro hw
    simp only [Pipeline.wins, Bool.and_eq_true, decide_eq_true_eq] at hw
    obtain ⟨⟨rfl, rfl⟩, hw⟩ := hw
    exact cas_enters h (fun _ => rfl) hw
  | complete ht howner hb hc _ => exact .inl (List.countP_cons_of_neg (by simp [Pipeline.wins]))
  | fail ht howner hc _ => exact .inl (List.countP_cons_of_neg (by simp [Pipeline.wins]))

/-- A status is won at most once, and then the job has reached its rank. -/
def WonOnce (sh : Shared) : Prop :=
  ∀ j st, sh.trace.countP (wins j st) = 0 ∨
    (sh.trace.countP (Pipeline.wins j st) = 1 ∧ Past sh j st.rank)

theorem Effect.wonOnce (h : Effect cfg F sh sh') (hs : Sound cfg sh) (hw : WonOnce sh) :
    WonOnce sh' := by
  intro j st
  rcases h.wins hs j st with he | ⟨he, job, job', hg, hg', hct, hst⟩
  · rw [he]
    rcases hw j st with h0 | ⟨h1, hp⟩
    · exact .inl h0
    · exact .inr ⟨h1, hp.mono (h.evolves hs)⟩
  · -- the job was below `st`, so nobody had won `st` before
    rcases hw j st with h0 | ⟨_, job₀, hg₀, hp⟩
    · exact .inr ⟨by rw [he, h0], job', hg', by rw [hst]⟩
    · rw [hg] at hg₀
      cases hg₀
      have := JobStatus.rank_lt hct
      omega

end Wins

end Pipeline
end AudioEngine
