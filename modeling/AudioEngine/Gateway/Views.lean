import AudioEngine.Lib.Leads
import AudioEngine.Pipeline.Counter
import AudioEngine.Pipeline.Status
import Mathlib.Algebra.BigOperators.Group.List.Basic

/-!
# AudioEngine.Gateway.Views

What a client of the gateway sees: `GET /status/{job_id}` and `GET /stats`.

Both read one table in one statement, so an answer is a function of the database at that moment. A
client asks again and again while the pipeline runs; `client_view` relates two answers with any
number of steps in between. The statistics count jobs, and jobs only move forward: for a set of
statuses that no transition leaves, the counts add up to more and more.

The detail of the 404 quotes the id; it is left out.
-/

namespace AudioEngine

open Relational Interleave

/-- `JobStatus.value`. -/
def JobStatus.value : JobStatus → String
  | pending => "PENDING"
  | parsing => "PARSING"
  | generating => "GENERATING"
  | stitching => "STITCHING"
  | completed => "COMPLETED"
  | failed => "FAILED"

theorem JobStatus.value_inj {c c' : JobStatus} : c.value = c'.value ↔ c = c' := by
  cases c <;> cases c' <;> decide

structure JobStatusResponse where
  jobId : String
  status : String
  pendingCount : Option Int := none
  manuscriptKey : Option String := none
  finalKey : Option String := none
deriving DecidableEq, Repr

/-- `get_status(job_id)`; `none` is the 404. -/
def getStatus (db : Db) (jobId : String) : Option JobStatusResponse :=
  match db.jobs.get jobId with
  | none => none
  | some job =>
    some
      { jobId := job.jobId
        status := job.status.value
        pendingCount := some job.pendingCount
        manuscriptKey := some job.manuscriptKey
        finalKey := job.finalKey }

/-- `job_counts_by_status(session)`, as a function of the keys: a status without jobs has no group. -/
def jobCountsByStatus (db : Db) (value : String) : Option Nat :=
  let count := db.jobs.rowcount fun r => decide (r.status.value = value)
  if count = 0 then none else some count

/-- `stats()`. -/
def stats (db : Db) : List (String × Nat) :=
  JobStatus.all.map fun status => (status.value, (jobCountsByStatus db status.value).getD 0)

/-- The jobs that an answer of `/stats` counts under the statuses `U`. -/
def countIn (U : String → Bool) (jobs : List (String × Nat)) : Nat :=
  (jobs.map fun e => if U e.1 then e.2 else 0).sum

/-! ## The answers and the rows -/

section Answers

variable {db : Db} {j : String} {v : JobStatusResponse}

theorem stats_eq (db : Db) :
    stats db = JobStatus.all.map fun st =>
      (st.value, db.jobs.rows.countP fun r => decide (r.status = st)) := by
  refine List.map_congr_left fun st _ => ?_
  have hcount : (db.jobs.rowcount fun r => decide (r.status.value = st.value)) =
      db.jobs.rows.countP fun r => decide (r.status = st) := by
    simp only [Table.rowcount, JobStatus.value_inj]
  rw [jobCountsByStatus, hcount]
  split
  · rename_i h0
    rw [h0]
    rfl
  · rfl

/-- A row is in one of the six groups. -/
theorem group_sum (U : String → Bool) (st : JobStatus) :
    (JobStatus.all.map fun c => if U c.value then (if st = c then 1 else 0) else 0).sum =
      if U st.value then 1 else 0 := by
  cases st <;> simp [JobStatus.all]

/-- An answer accounts for every job once. -/
theorem countIn_stats (U : String → Bool) (db : Db) :
    countIn U (stats db) = db.jobs.rows.countP fun r => U r.status.value := by
  rw [stats_eq, countIn, List.map_map]
  induction db.jobs.rows with
  | nil =>
    refine List.sum_eq_zero fun x hx => ?_
    obtain ⟨c, _, rfl⟩ := List.mem_map.mp hx
    simp
  | cons r rows ih =>
    have hsplit : ((fun e : String × Nat => if U e.1 then e.2 else 0) ∘ fun st : JobStatus =>
          (st.value, (r :: rows).countP fun r => decide (r.status = st))) =
        fun st => ((fun e : String × Nat => if U e.1 then e.2 else 0) ∘ fun st : JobStatus =>
          (st.value, rows.countP fun r => decide (r.status = st))) st +
            if U st.value then (if r.status = st then 1 else 0) else 0 := by
      funext st
      by_cases hU : U st.value <;> simp [hU, List.countP_cons]
    rw [hsplit, List.sum_map_add, ih, group_sum, List.countP_cons]

theorem getStatus_eq_some (h : getStatus db j = some v) :
    ∃ job, db.jobs.get j = some job ∧ v.jobId = j ∧ v.status = job.status.value ∧
      v.pendingCount = some job.pendingCount ∧ v.manuscriptKey = some job.manuscriptKey ∧
      v.finalKey = job.finalKey := by
  unfold getStatus at h
  split at h
  · cases h
  · rename_i job hjob
    cases h
    exact ⟨job, hjob, (Table.get_eq_some.mp hjob).2, rfl, rfl, rfl, rfl⟩

theorem getStatus_isSome {job : Job} (h : db.jobs.get j = some job) :
    (getStatus db j).isSome = true := by
  rw [getStatus, h]
  rfl

end Answers

/-! ## Two answers -/

/-- One status after another, by legal transitions. -/
def JobStatus.Path : JobStatus → JobStatus → Prop :=
  Relation.ReflTransGen fun c next => c.canTransition next = true

theorem JobStatus.Path.rank_le {c c' : JobStatus} (h : Path c c') : c.rank ≤ c'.rank := by
  induction h with
  | refl => exact Nat.le_refl _
  | tail _ ht ih => exact Nat.le_trans ih (Nat.le_of_lt (rank_lt ht))

theorem JobStatus.Path.of_terminal {c c' : JobStatus} (h : Path c c') (hc : c.terminal = true) :
    c' = c := by
  induction h with
  | refl => rfl
  | tail _ ht ih =>
    subst ih
    rw [terminal_iff.mp hc] at ht
    cases ht

theorem JobStatus.Path.ne_pending {c c' : JobStatus} (h : Path c c') (hc : c ≠ pending) :
    c' ≠ pending := by
  have hle := h.rank_le
  rintro rfl
  cases c <;> first | exact hc rfl | simp [rank] at hle

/-- No transition leaves the set. -/
def JobStatus.Closed (U : String → Bool) : Prop :=
  ∀ c next : JobStatus, c.canTransition next = true → U c.value = true → U next.value = true

theorem JobStatus.Path.closed {U : String → Bool} {c c' : JobStatus} (h : Path c c')
    (hU : Closed U) (hc : U c.value = true) : U c'.value = true := by
  induction h with
  | refl => exact hc
  | tail _ ht ih => exact hU _ _ ht ih

namespace Pipeline

/-- What becomes of a row. -/
structure MovesOn (job job' : Job) : Prop where
  path : JobStatus.Path job.status job'.status
  count : job.status ≠ .pending → job'.pendingCount ≤ job.pendingCount

theorem MovesOn.trans {job job₁ job' : Job} (h : MovesOn job job₁) (h' : MovesOn job₁ job') :
    MovesOn job job' :=
  ⟨h.path.trans h'.path, fun hne =>
    Int.le_trans (h'.count (h.path.ne_pending hne)) (h.count hne)⟩

section Run

variable {cfg : Settings} {C : Shared → Agent → Choice → Prop} {s s' : State} {j : String} {job : Job}

theorem Effect.movesOn {F : Licence} {sh sh' : Shared} (h : Effect cfg F sh sh') (hs : Sound cfg sh)
    (hj : sh.db.jobs.get j = some job) :
    ∃ job', sh'.db.jobs.get j = some job' ∧ MovesOn job job' := by
  obtain ⟨job', hj', hst⟩ := (h.evolves hs).job j job hj
  refine ⟨job', hj', ?_, fun hne => ?_⟩
  · rcases hst with hst | hst
    · rw [hst]
      exact .refl
    · exact .single hst
  · cases h.count hs j with
    | keeps _ hkeep =>
      obtain ⟨x, hx, hcount⟩ := hkeep job hj hne
      obtain rfl := Option.some.inj (hj'.symm.trans hx)
      exact Int.le_of_eq hcount
    | counts hg _ hg' hcount _ =>
      obtain rfl := Option.some.inj (hj.symm.trans hg)
      obtain rfl := Option.some.inj (hj'.symm.trans hg')
      omega

theorem leads_movesOn (h : Reach (system cfg) C s) (hl : Leads (system cfg) C s s')
    (hj : s.shared.db.jobs.get j = some job) :
    ∃ job', s'.shared.db.jobs.get j = some job' ∧ MovesOn job job' := by
  induction hl with
  | refl => exact ⟨job, hj, .refl, fun _ => Int.le_refl _⟩
  | tail hl hs ih =>
    obtain ⟨job₁, hj₁, ha₁⟩ := ih
    obtain ⟨F, he⟩ := step_effect (h.leads hl) hs
    obtain ⟨job', hj', ha⟩ := he.movesOn (reach_data (h.leads hl)).1 hj₁
    exact ⟨job', hj', ha₁.trans ha⟩

/-- The jobs under a closed set of statuses stay under it. -/
theorem leads_countP {U : String → Bool} (h : Reach (system cfg) C s)
    (hl : Leads (system cfg) C s s') (hU : JobStatus.Closed U) :
    (s.shared.db.jobs.rows.countP fun r => U r.status.value) ≤
      s'.shared.db.jobs.rows.countP fun r => U r.status.value := by
  have hkeys : ∀ db : Db, ((db.jobs.rows.filter fun r => U r.status.value).map Job.jobId).Nodup :=
    fun db => db.jobs.nodup.sublist (List.filter_sublist.map _)
  have hsub : ((s.shared.db.jobs.rows.filter fun r => U r.status.value).map Job.jobId) ⊆
      (s'.shared.db.jobs.rows.filter fun r => U r.status.value).map Job.jobId := by
    intro j hj
    obtain ⟨job, hjob, rfl⟩ := List.mem_map.mp hj
    obtain ⟨hrow, hin⟩ := List.mem_filter.mp hjob
    obtain ⟨job', hj', ha⟩ := leads_movesOn h hl (Table.get_of_mem hrow)
    obtain ⟨hrow', hid⟩ := Table.get_eq_some.mp hj'
    exact List.mem_map.mpr ⟨job', List.mem_filter.mpr ⟨hrow', ha.path.closed hU hin⟩, hid⟩
  have hle := (List.subperm_of_subset (hkeys _) hsub).length_le
  rwa [List.length_map, List.length_map, ← List.countP_eq_length_filter,
    ← List.countP_eq_length_filter] at hle

end Run
end Pipeline

/-- The later answer about a job. -/
structure JobStatusResponse.Follows (v v' : JobStatusResponse) : Prop where
  jobId : v'.jobId = v.jobId
  manuscriptKey : v'.manuscriptKey = v.manuscriptKey
  status : ∃ c c' : JobStatus, v.status = c.value ∧ v'.status = c'.value ∧ c.Path c'
  pendingCount : v.status ≠ "PENDING" → ∃ n n', v.pendingCount = some n ∧
    v'.pendingCount = some n' ∧ n' ≤ n
  /-- the key comes with `COMPLETED`, and both stay -/
  finalKey : v'.finalKey = if v'.status = "COMPLETED" then some (outKey v.jobId) else none
  terminal : v.status = "COMPLETED" ∨ v.status = "FAILED" →
    v'.status = v.status ∧ v'.finalKey = v.finalKey

open Pipeline in
/-- In every run, with any faults and any number of steps between two requests of a client: a job
that was found once is found again, with the same manuscript, a status later on a legal path, a
counter that has only gone down since `PENDING`, the final key exactly when it is `COMPLETED`, and the
same status and final key after `COMPLETED` or `FAILED`; a job that `create_job` has committed is
found; the statistics account for every job once, and under statuses that no transition leaves they
never shrink. -/
theorem client_view {cfg : Settings} {C : Pipeline.Shared → Agent → Choice → Prop} {s s' : State}
    (h : Reach (system cfg) C s) (hl : Leads (system cfg) C s s') :
    (∀ j v, getStatus s.shared.db j = some v →
      ∃ v', getStatus s'.shared.db j = some v' ∧ v.Follows v') ∧
    (∀ j cb, .create j cb .publish ∈ s.agents → (getStatus s'.shared.db j).isSome = true) ∧
    (∀ U, JobStatus.Closed U →
      countIn U (stats s.shared.db) ≤ countIn U (stats s'.shared.db)) ∧
    countIn (fun _ => true) (stats s'.shared.db) = s'.shared.db.jobs.rows.length := by
  have h' := h.leads hl
  have hkeys := reach_finalKeys h
  have hkeys' := reach_finalKeys h'
  refine ⟨fun j v hv => ?_, fun j cb hc => ?_, fun U hU => ?_, ?_⟩
  · obtain ⟨job, hj, hid, hst, hcount, hman, hfin⟩ := getStatus_eq_some hv
    obtain ⟨job', hj', ha⟩ := leads_movesOn h hl hj
    obtain ⟨v', hv'⟩ := Option.isSome_iff_exists.mp (getStatus_isSome hj')
    obtain ⟨x, hx, hid', hst', hcount', hman', hfin'⟩ := getStatus_eq_some hv'
    obtain rfl := Option.some.inj (hj'.symm.trans hx)
    have hcompleted : ∀ c : JobStatus, c.value = "COMPLETED" ↔ c = .completed := by
      intro c
      rw [← JobStatus.value_inj]
      rfl
    have hterminal : ∀ c : JobStatus, c.value = "COMPLETED" ∨ c.value = "FAILED" →
        c.terminal = true := by
      intro c hc
      cases c <;> first | rfl | (exfalso; revert hc; decide)
    refine ⟨v', hv', ?_⟩
    constructor
    · rw [hid, hid']
    · rw [hman, hman', ((reach_data h).1.job j job hj).1, ((reach_data h').1.job j job' hj').1]
    · exact ⟨job.status, job'.status, hst, hst', ha.path⟩
    · intro hne
      refine ⟨_, _, hcount, hcount', ha.count ?_⟩
      rintro hp
      rw [hst, hp] at hne
      exact hne rfl
    · rw [hfin', hst', hid, hkeys' j job' hj']
      simp only [hcompleted]
    · intro hc
      have hsame : job'.status = job.status := ha.path.of_terminal (hterminal _ (hst ▸ hc))
      rw [hst', hst, hfin', hfin, hkeys' j job' hj', hkeys j job hj, hsame]
      exact ⟨rfl, rfl⟩
  · obtain ⟨job, hj, _⟩ := (reach_data h).2 _ hc
    obtain ⟨job', hj', _⟩ := leads_movesOn h hl hj
    exact getStatus_isSome hj'
  · rw [countIn_stats, countIn_stats]
    exact leads_countP h hl hU
  · rw [countIn_stats]
    simp

open Pipeline in
/-- A client asks before the parser starts and after the stitcher has finished. -/
theorem client_view_completed :
    ∃ s s' : State, Reach (system {}) (fun _ _ _ => True) s ∧
      Leads (system {}) (fun _ _ _ => True) s s' ∧
      (∃ v v', getStatus s.shared.db "j" = some v ∧ getStatus s'.shared.db "j" = some v' ∧
        v.status = "PENDING" ∧ v'.status = "COMPLETED" ∧ v.Follows v') ∧
      countIn (fun _ => true) (stats s'.shared.db) = 1 := by
  obtain ⟨s, s', h, hl, hst, hst', hone⟩ :
      ∃ s s', Reach (system {}) (fun _ _ _ => True) s ∧ Leads (system {}) (fun _ _ _ => True) s s' ∧
        (getStatus s.shared.db "j").map JobStatusResponse.status = some "PENDING" ∧
        (getStatus s'.shared.db "j").map JobStatusResponse.status = some "COMPLETED" ∧
        s'.shared.db.jobs.rows.length = 1 :=
    System.exists_leads [.env (.post "j" "" none), .act 0 .go]
      (List.replicate 20 (.act 0 .go)) (by decide +kernel)
  obtain ⟨v, hv, hvst⟩ := Option.map_eq_some_iff.mp hst
  obtain ⟨hview, _, _, htotal⟩ := client_view h hl
  obtain ⟨v', hv', hf⟩ := hview "j" v hv
  rw [hv'] at hst'
  exact ⟨s, s', h, hl, ⟨v, v', hv, hv', hvst, Option.some.inj hst', hf⟩, htotal.trans hone⟩

end AudioEngine
