import AudioEngine.Pipeline.Effects

/-!
# AudioEngine.Pipeline.Writes

Two writes of the worker keep the invariant of the stores: a status write by compare-and-set, and
the claim on a task with the decrement of its job's counter.
-/

namespace AudioEngine
namespace Pipeline

open Relational

/-! ## Status writes -/

section Cas

variable {cfg : Settings} {sh : Shared} {db' : Db} {j : String} {st : JobStatus} {set : Job → Job}
  {hset : ∀ r, (set r).jobId = r.jobId} {won : Bool}

/-- A compare-and-set along the table: from a status `c` with a legal transition into `st`. -/
theorem cas_status (h : casJob sh.db j st.expectedFor set hset = (db', won))
    (hst : ∀ r, (set r).status = st ∧ (set r).manuscriptKey = r.manuscriptKey)
    {k : String} {job' : Job} (hk : db'.jobs.get k = some job') :
    ∃ job, sh.db.jobs.get k = some job ∧ job'.manuscriptKey = job.manuscriptKey ∧
      (job' = job ∨ (k = j ∧ job'.status = st ∧ job.status.canTransition st = true)) := by
  rcases casJob_cases h with ⟨_, rfl, _⟩ | ⟨_, _, job, hg, hm, hget⟩
  · exact ⟨job', hk, rfl, .inl rfl⟩
  · rw [hget] at hk
    split at hk
    · rename_i he
      cases hk
      exact ⟨job, he ▸ hg, (hst job).2,
        .inr ⟨he, (hst job).1, JobStatus.mem_expectedFor.mp hm⟩⟩
    · exact ⟨job', hk, rfl, .inl rfl⟩

theorem cas_forward (h : casJob sh.db j st.expectedFor set hset = (db', won))
    (hst : ∀ r, (set r).status = st ∧ (set r).manuscriptKey = r.manuscriptKey)
    {k : String} {job : Job} (hk : sh.db.jobs.get k = some job) :
    ∃ job', db'.jobs.get k = some job' ∧
      (job'.status = job.status ∨ job.status.canTransition job'.status = true) := by
  rcases casJob_cases h with ⟨_, rfl, _⟩ | ⟨_, _, job₀, hg, hm, hget⟩
  · exact ⟨job, hk, .inl rfl⟩
  · rw [hget]
    split
    · rename_i he
      rw [he, hg] at hk
      cases hk
      refine ⟨_, rfl, .inr ?_⟩
      rw [(hst job).1]
      exact JobStatus.mem_expectedFor.mp hm
    · exact ⟨job, hk, .inl rfl⟩

theorem cas_tasks (h : casJob sh.db j st.expectedFor set hset = (db', won)) :
    db'.tasks = sh.db.tasks := by
  rcases casJob_cases h with ⟨_, rfl, _⟩ | ⟨_, ht, _⟩
  · rfl
  · exact ht

theorem cas_tasksOf (h : casJob sh.db j st.expectedFor set hset = (db', won)) (k : String) :
    db'.tasksOf k = sh.db.tasksOf k := by
  rw [Db.tasksOf, cas_tasks h]
  rfl

theorem cas_laidOut (h : casJob sh.db j st.expectedFor set hset = (db', won)) {k text : String}
    (hl : LaidOut cfg sh k text) : LaidOut cfg { sh with db := db' } k text := by
  refine ⟨hl.stored, ?_⟩
  rw [← hl.rows]
  exact congrArg _ (cas_tasksOf h k)

theorem cas_evolves (h : casJob sh.db j st.expectedFor set hset = (db', won))
    (hst : ∀ r, (set r).status = st ∧ (set r).manuscriptKey = r.manuscriptKey) :
    Evolves cfg sh { sh with db := db' } where
  job := fun _ _ hk => cas_forward h hst hk
  task := by
    intro t task ht
    refine ⟨task, ?_, rfl, fun _ => rfl, fun hp => hp⟩
    show db'.tasks.get t = some task
    rw [cas_tasks h]; exact ht
  laid := fun _ _ hl => cas_laidOut h hl
  raw := fun _ _ hb => hb
  audio := fun _ _ hb => hb
  trace := ⟨[], rfl⟩

/-- Leaving `PENDING` without seeding is only done towards `FAILED`. -/
theorem cas_sound (h : casJob sh.db j st.expectedFor set hset = (db', won))
    (hst : ∀ r, (set r).status = st ∧ (set r).manuscriptKey = r.manuscriptKey)
    (hleave : JobStatus.pending.canTransition st = true → st = .failed)
    (hs : Sound cfg sh) :
    Sound cfg { sh with db := db' } where
  posted := hs.posted
  job := by
    intro k job' hk
    obtain ⟨job, hg, hkey, _⟩ := cas_status h hst hk
    obtain ⟨hraw, m, hm⟩ := hs.job k job hg
    exact ⟨hkey.trans hraw, m, hm⟩
  owner := by
    intro t task ht
    have ht' : sh.db.tasks.get t = some task := by
      rw [← cas_tasks h]; exact ht
    obtain ⟨job, hg⟩ := Option.isSome_iff_exists.mp (hs.owner t task ht')
    obtain ⟨job', hg', _⟩ := cas_forward h hst hg
    exact Option.isSome_iff_exists.mpr ⟨job', hg'⟩
  laid := by
    intro k job' hk
    obtain ⟨job, hg, _, hcase⟩ := cas_status h hst hk
    show (db'.tasksOf k = [] ∧ _) ∨ _
    rw [cas_tasksOf h]
    rcases hs.laid k job hg with ⟨hnil, hpf⟩ | ⟨⟨text, hl⟩, hne⟩
    · refine .inl ⟨hnil, ?_⟩
      rcases hcase with rfl | ⟨_, hst', hct⟩
      · exact hpf
      · rcases hpf with hp | hp
        · rw [hp] at hct
          exact .inr (hst'.trans (hleave hct))
        · rw [hp] at hct
          cases st <;> cases hct
    · refine .inr ⟨⟨text, cas_laidOut h hl⟩, ?_⟩
      rcases hcase with rfl | ⟨_, hst', hct⟩
      · exact hne
      · rw [hst']
        rintro rfl
        rw [JobStatus.canTransition_pending] at hct
        cases hct
  done := by
    intro t task ht
    refine hs.done t task ?_
    rw [← cas_tasks h]; exact ht
  cached := hs.cached
  audio := hs.audio

end Cas

/-! ## Claims -/

section Claims

variable {cfg : Settings} {sh : Shared} {db' : Db} {j t : String} {task task' : Task} {job : Job}

theorem claimed_rows (hc : Claimed sh.db db' j t task task' job) (ho : task'.origin = task.origin)
    (k : String) : (db'.tasksOf k).map Task.origin = (sh.db.tasksOf k).map Task.origin := by
  rw [hc.tasksOf, List.map_map]
  apply List.map_congr_left
  intro x hx
  simp only [Function.comp]
  split
  · rename_i he
    obtain ⟨hg, _⟩ := mem_tasksOf.mp hx
    rw [he, hc.task_get] at hg
    cases hg
    exact ho
  · rfl

theorem claimed_laidOut (hc : Claimed sh.db db' j t task task' job)
    (ho : task'.origin = task.origin) {k text : String} (hl : LaidOut cfg sh k text) :
    LaidOut cfg { sh with db := db' } k text :=
  ⟨hl.stored, (claimed_rows hc ho k).trans hl.rows⟩

theorem claimed_evolves (hc : Claimed sh.db db' j t task task' job)
    (ho : task'.origin = task.origin) (hd : task.status ≠ .done) (hp : task'.status ≠ .pending) :
    Evolves cfg sh { sh with db := db' } where
  job := by
    intro k x hx
    show ∃ job', db'.jobs.get k = some job' ∧ _
    rw [hc.jobs]
    split
    · rename_i he
      rw [he, hc.job_get] at hx
      cases hx
      exact ⟨_, rfl, .inl rfl⟩
    · exact ⟨x, hx, .inl rfl⟩
  task := by
    intro k x hx
    show ∃ task', db'.tasks.get k = some task' ∧ _
    rw [hc.tasks]
    split
    · rename_i he
      rw [he, hc.task_get] at hx
      cases hx
      exact ⟨task', rfl, ho, fun h => absurd h hd, fun _ => hp⟩
    · exact ⟨x, hx, rfl, fun _ => rfl, fun h => h⟩
  laid := fun _ _ hl => claimed_laidOut hc ho hl
  raw := fun _ _ hb => hb
  audio := fun _ _ hb => hb
  trace := ⟨[], rfl⟩

/-- A claim leaves every job row as it is, up to the counter. -/
theorem claimed_job (hc : Claimed sh.db db' j t task task' job) {k : String} {x : Job}
    (hx : db'.jobs.get k = some x) : ∃ x₀, sh.db.jobs.get k = some x₀ ∧
      x.manuscriptKey = x₀.manuscriptKey ∧ x.status = x₀.status ∧ x.finalKey = x₀.finalKey := by
  rw [hc.jobs] at hx
  split at hx
  · rename_i he
    cases hx
    exact ⟨job, he ▸ hc.job_get, rfl, rfl, rfl⟩
  · exact ⟨x, hx, rfl, rfl, rfl⟩

theorem claimed_sound (hc : Claimed sh.db db' j t task task' job)
    (ho : task'.origin = task.origin)
    (hd : task'.status = .done → task'.audioKey = some (ttsKey task'.blockHash) ∧
      sh.objects (ttsKey task'.blockHash) = some (audioOf task'.blockHash))
    (hs : Sound cfg sh) :
    Sound cfg { sh with db := db' } where
  posted := hs.posted
  job := by
    intro k x hx
    obtain ⟨x₀, hg, hkey, _⟩ := claimed_job hc hx
    obtain ⟨hraw, m, hm⟩ := hs.job k x₀ hg
    exact ⟨hkey.trans hraw, m, hm⟩
  owner := by
    intro k x hx
    have hold : ∃ x₀, sh.db.tasks.get k = some x₀ ∧ x.jobId = x₀.jobId := by
      replace hx : db'.tasks.get k = some x := hx
      rw [hc.tasks] at hx
      split at hx
      · rename_i he
        cases hx
        simp only [Task.origin, Prod.mk.injEq] at ho
        exact ⟨task, he ▸ hc.task_get, ho.2.1⟩
      · exact ⟨x, hx, rfl⟩
    obtain ⟨x₀, hg, hj⟩ := hold
    have := hs.owner k x₀ hg
    rw [← hj] at this
    show (db'.jobs.get x.jobId).isSome = true
    rw [hc.jobs]
    split
    · rfl
    · exact this
  laid := by
    intro k x hx
    obtain ⟨x₀, hg, _, hst, _⟩ := claimed_job hc hx
    rw [hst]
    rcases hs.laid k x₀ hg with ⟨hnil, hpf⟩ | ⟨⟨text, hl⟩, hne⟩
    · refine .inl ⟨?_, hpf⟩
      show db'.tasksOf k = []
      rw [hc.tasksOf, hnil]; rfl
    · exact .inr ⟨⟨text, claimed_laidOut hc ho hl⟩, hne⟩
  done := by
    intro k x hx hdone
    replace hx : db'.tasks.get k = some x := hx
    rw [hc.tasks] at hx
    split at hx
    · cases hx; exact hd hdone
    · exact hs.done k x hx hdone
  cached := hs.cached
  audio := hs.audio

end Claims

end Pipeline
end AudioEngine
