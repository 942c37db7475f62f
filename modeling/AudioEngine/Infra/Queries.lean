import AudioEngine.Infra.Db

/-!
# AudioEngine.Infra.Queries

The transactions of `core/infra/queries.py` and the task insert of `handle_parse`, each a function
from the database to the database and the value the caller sees. The insert is one statement with a
parameter for each column of each row, and the driver refuses more than `maxQueryArguments` of them
(`executeSeed`).

`complete_task_and_decrement` and `fail_task_and_decrement` have one shape, `claimAndDecrement`,
and differ in the guard of the claim and in what it writes: the first claims any task that is not
`DONE`, the second any task that is neither `DONE` nor `FAILED`. The status writers `begin_parse`,
`advance_status` and `finalize_job` are one compare-and-set, `casJob`.

The lemmas give each transaction's effect on a lookup, and they are what the rest of the
development uses.
-/

namespace AudioEngine

open Relational

/-- A database error: the transaction is rolled back and the exception reaches the handler. -/
inductive SqlError where
  | uniqueViolation
  | foreignKeyViolation
  | noResultFound
deriving DecidableEq, Repr

/-! ## The fan-in barrier -/

/-- Claim the task when `guard` allows it, then decrement the job's counter and return it. -/
def claimAndDecrement (guard : TaskStatus → Bool) (set : Task → Task)
    (hset : ∀ t, (set t).taskId = t.taskId) (db : Db) (jobId taskId : String) :
    Except SqlError (Db × Option Int) :=
  let claim : Task → Bool := fun t => decide (t.taskId = taskId) && guard t.status
  if db.tasks.rowcount claim = 0 then .ok (db, none)
  else
    let tasks := db.tasks.update claim set hset
    let jobs := db.jobs.update (fun r => decide (r.jobId = jobId) && true)
      (fun r => { r with pendingCount := r.pendingCount - 1 }) (fun _ => rfl)
    match jobs.get jobId with
    | none => .error .noResultFound
    | some job => .ok (⟨jobs, tasks⟩, some job.pendingCount)

def completeTaskAndDecrement (db : Db) (jobId taskId audioKey : String) :
    Except SqlError (Db × Option Int) :=
  claimAndDecrement (fun st => decide (st ≠ .done))
    (fun t => { t with status := .done, audioKey := some audioKey }) (fun _ => rfl) db jobId taskId

def failTaskAndDecrement (db : Db) (jobId taskId : String) : Except SqlError (Db × Option Int) :=
  claimAndDecrement (fun st => decide (st ≠ .done) && decide (st ≠ .failed))
    (fun t => { t with status := .failed }) (fun _ => rfl) db jobId taskId

/-! ## Status compare-and-set -/

/-- `UPDATE jobs SET … WHERE job_id = … AND status IN (expected)`, with `rowcount == 1`. -/
def casJob (db : Db) (jobId : String) (expected : List JobStatus) (set : Job → Job)
    (hset : ∀ r, (set r).jobId = r.jobId) : Db × Bool :=
  let where_ : Job → Bool := fun r => decide (r.jobId = jobId) && decide (r.status ∈ expected)
  ({ db with jobs := db.jobs.update where_ set hset }, decide (db.jobs.rowcount where_ = 1))

def beginParse (db : Db) (jobId : String) (nBlocks : Nat) : Db × Bool :=
  casJob db jobId [.pending] (fun r => { r with status := .parsing, pendingCount := nBlocks })
    (fun _ => rfl)

def advanceStatus (db : Db) (jobId : String) (toStatus : JobStatus) : Db × Bool :=
  casJob db jobId toStatus.expectedFor (fun r => { r with status := toStatus }) (fun _ => rfl)

def finalizeJob (db : Db) (jobId finalKey : String) : Db × Bool :=
  casJob db jobId JobStatus.completed.expectedFor
    (fun r => { r with status := .completed, finalKey := some finalKey }) (fun _ => rfl)

/-! ## The insert transaction of `handle_parse` -/

/-- The rows of the multi-row insert. -/
def taskRows (jobId : String) (blocks : List String) : List Task :=
  blocks.zipIdx.map fun (block, i) =>
    { taskId := taskIdOf jobId i, jobId := jobId, blockIndex := i, blockHash := contentHash block }

/-- Task rows and counter in one transaction. The insert runs when there is a block, skips rows
whose slot is taken, and is committed by `begin_parse` whether or not its compare-and-set wins. -/
def seedTasks (db : Db) (jobId : String) (blocks : List String) : Except SqlError (Db × Bool) :=
  if blocks.isEmpty then .ok (beginParse db jobId 0)
  else if (db.jobs.get jobId).isNone then .error .foreignKeyViolation
  else
    match db.tasks.insertIgnore Task.slot (taskRows jobId blocks) with
    | none => .error .uniqueViolation
    | some tasks => .ok (beginParse { db with tasks := tasks } jobId blocks.length)

/-- A value bound to a parameter. -/
inductive Bind where
  | text (s : String)
  | int (n : Nat)
deriving DecidableEq, Repr

def TaskStatus.text : TaskStatus → String
  | .pending => "PENDING"
  | .done => "DONE"
  | .failed => "FAILED"

/-- The dict of one row, in the order of its keys. -/
def Task.columns (t : Task) : List Bind :=
  [.text t.taskId, .text t.jobId, .int t.blockIndex, .text t.blockHash, .text t.status.text]

/-- The parameters of the insert; without a block no statement is executed. -/
def insertTasks (jobId : String) (blocks : List String) : List Bind :=
  (taskRows jobId blocks).flatMap Task.columns

/-- How many arguments asyncpg takes in one query. -/
def maxQueryArguments : Nat := 32767

inductive InsertError where
  | tooManyArguments
  | sql (e : SqlError)
deriving DecidableEq, Repr

/-- The insert transaction through the driver, which looks at the arguments first. -/
def executeSeed (db : Db) (jobId : String) (blocks : List String) :
    Except InsertError (Db × Bool) :=
  if maxQueryArguments < (insertTasks jobId blocks).length then .error .tooManyArguments
  else
    match seedTasks db jobId blocks with
    | .error e => .error (.sql e)
    | .ok r => .ok r

/-- What commits has been within the limit. -/
theorem executeSeed_eq_ok {db : Db} {jobId : String} {blocks : List String} {r : Db × Bool} :
    executeSeed db jobId blocks = .ok r ↔
      (insertTasks jobId blocks).length ≤ maxQueryArguments ∧ seedTasks db jobId blocks = .ok r := by
  unfold executeSeed
  split
  · rename_i hover
    constructor
    · intro h
      cases h
    · rintro ⟨hfits, _⟩
      exact absurd hover (Nat.not_lt.mpr hfits)
  · rename_i hover
    have hfits := Nat.not_lt.mp hover
    cases hseed : seedTasks db jobId blocks with
    | error e => simp
    | ok r' => simp [hfits]

/-! ## What a claim does -/

/-- The effect of a claim that touched the row `task` of `t`, leaving `task'`, and decremented the
counter of `job`, the row of `j`. -/
structure Claimed (db db' : Db) (j t : String) (task task' : Task) (job : Job) : Prop where
  task_get : db.tasks.get t = some task
  job_get : db.jobs.get j = some job
  tasks : ∀ k, db'.tasks.get k = if k = t then some task' else db.tasks.get k
  jobs : ∀ k, db'.jobs.get k =
    if k = j then some { job with pendingCount := job.pendingCount - 1 } else db.jobs.get k
  tasksOf : ∀ k, db'.tasksOf k = (db.tasksOf k).map fun x => if x.taskId = t then task' else x
  outstanding : ∀ k, db'.outstanding k +
    (decide (task.jobId = k) && decide (task.status = .pending)).toNat = db.outstanding k

section Claim

variable {guard : TaskStatus → Bool} {set : Task → Task} {hset : ∀ t, (set t).taskId = t.taskId}
  {db db' : Db} {j t : String} {r : Option Int}

theorem claim_get (hset : ∀ t, (set t).taskId = t.taskId) {task : Task}
    (hg : db.tasks.get t = some task) (hq : guard task.status = true) (k : String) :
    (db.tasks.update (fun x => decide (x.taskId = t) && guard x.status) set hset).get k =
      if k = t then some (set task) else db.tasks.get k := by
  rw [Table.get_update]
  have htask : task.taskId = t := (Table.get_eq_some.mp hg).2
  by_cases hk : k = t
  · subst hk
    rw [hg, if_pos rfl, Option.map_some]
    simp [htask, hq]
  · rw [if_neg hk]
    cases hg' : db.tasks.get k with
    | none => rfl
    | some x =>
      have hx : x.taskId = k := (Table.get_eq_some.mp hg').2
      simp [hx, hk]

theorem claim_tasksOf (hset : ∀ t, (set t).taskId = t.taskId) {task : Task}
    (hj : ∀ x, (set x).jobId = x.jobId) (hg : db.tasks.get t = some task)
    (hq : guard task.status = true) (k : String) :
    (db.tasks.update (fun x => decide (x.taskId = t) && guard x.status) set hset).rows.filter
        (fun x => x.jobId = k) =
      (db.tasksOf k).map fun x => if x.taskId = t then set task else x := by
  simp only [Db.tasksOf, Table.update, List.filter_map]
  have hcomp : ((fun x => decide (x.jobId = k)) ∘
      fun x => if (decide (x.taskId = t) && guard x.status) = true then set x else x) =
      fun x => decide (x.jobId = k) := by
    funext x
    simp only [Function.comp]
    split
    · rw [hj]
    · rfl
  rw [hcomp]
  apply List.map_congr_left
  intro x hx
  by_cases hk : x.taskId = t
  · have : x = task := by
      have := Table.get_of_mem (List.mem_of_mem_filter hx)
      rw [hk, hg] at this
      exact (Option.some.inj this).symm
    subst this
    simp [hk, hq]
  · simp [hk]

/-- The two outcomes of a claim that commits: it touched no row and returned `None`, or it wrote
the claimed task and decremented the job's counter, which it returned. -/
theorem claimAndDecrement_cases (h : claimAndDecrement guard set hset db j t = .ok (db', r))
    (hj : ∀ x, (set x).jobId = x.jobId) (hs : ∀ x, (set x).status ≠ .pending) :
    (r = none ∧ db' = db ∧ ∀ task, db.tasks.get t = some task → guard task.status = false) ∨
    (∃ task job, guard task.status = true ∧ r = some (job.pendingCount - 1) ∧
      Claimed db db' j t task (set task) job) := by
  simp only [claimAndDecrement] at h
  split at h
  · rename_i h0
    cases h
    refine .inl ⟨rfl, rfl, ?_⟩
    intro task hg
    by_contra hq
    exact Table.rowcount_key_ne_zero.mpr ⟨task, hg, by simpa using hq⟩ h0
  · rename_i h0
    obtain ⟨task, hg, hq⟩ := Table.rowcount_key_ne_zero.mp h0
    split at h
    · cases h
    · rename_i job' hj'
      cases h
      rw [Table.get_update] at hj'
      cases hjob : db.jobs.get j with
      | none => rw [hjob] at hj'; cases hj'
      | some job =>
        have hid : job.jobId = j := (Table.get_eq_some.mp hjob).2
        rw [hjob] at hj'
        simp only [Option.map_some, hid, decide_true, Bool.and_self, if_true,
          Option.some.injEq] at hj'
        subst hj'
        refine .inr ⟨task, job, hq, rfl, hg, hjob, claim_get hset hg hq, ?_,
          claim_tasksOf hset hj hg hq, ?_⟩
        · intro k
          rw [Table.get_update]
          by_cases hk : k = j
          · subst hk
            rw [hjob, if_pos rfl]
            simp [hid]
          · rw [if_neg hk]
            cases hg' : db.jobs.get k with
            | none => rfl
            | some x =>
              have hx : x.jobId = k := (Table.get_eq_some.mp hg').2
              simp [hx, hk]
        · intro k
          have := Table.countP_update_key db.tasks t (fun x => guard x.status) set hset
            (fun x => decide (x.jobId = k) && decide (x.status = .pending)) hg hq
          simp only [hj, hs, decide_false, Bool.and_false, Bool.toNat_false, Nat.add_zero] at this
          exact this

theorem completeTask_cases {audioKey : String}
    (h : completeTaskAndDecrement db j t audioKey = .ok (db', r)) :
    (r = none ∧ db' = db ∧ ∀ task, db.tasks.get t = some task → task.status = .done) ∨
    (∃ task job, task.status ≠ .done ∧ r = some (job.pendingCount - 1) ∧
      Claimed db db' j t task { task with status := .done, audioKey := some audioKey } job) := by
  have := claimAndDecrement_cases h (fun _ => rfl) (fun _ => by simp)
  simpa using this

/-- The task is `DONE` afterwards, whoever has completed it. -/
theorem completeTask_done {audioKey : String} {task : Task}
    (h : completeTaskAndDecrement db j t audioKey = .ok (db', r))
    (htask : db.tasks.get t = some task) : ∃ x, db'.tasks.get t = some x ∧ x.status = .done := by
  rcases completeTask_cases h with ⟨_, rfl, hdone⟩ | ⟨x, _, _, _, hclaim⟩
  · exact ⟨task, htask, hdone task htask⟩
  · exact ⟨_, by rw [hclaim.tasks, if_pos rfl], rfl⟩

theorem failTask_cases (h : failTaskAndDecrement db j t = .ok (db', r)) :
    (r = none ∧ db' = db ∧ ∀ task, db.tasks.get t = some task → task.status ≠ .pending) ∨
    (∃ task job, task.status = .pending ∧ r = some (job.pendingCount - 1) ∧
      Claimed db db' j t task { task with status := .failed } job) := by
  rcases claimAndDecrement_cases h (fun _ => rfl) (fun _ => by simp) with
    ⟨hr, hdb, hno⟩ | ⟨task, job, hq, hr, hc⟩
  · refine .inl ⟨hr, hdb, fun task hg hp => ?_⟩
    have := hno task hg
    rw [hp] at this
    cases this
  · refine .inr ⟨task, job, ?_, hr, hc⟩
    cases hst : task.status with
    | pending => rfl
    | done => rw [hst] at hq; cases hq
    | failed => rw [hst] at hq; cases hq

end Claim

/-! ## What a compare-and-set does -/

theorem casJob_won (db : Db) (j : String) (expected : List JobStatus) (set : Job → Job)
    (hset : ∀ r, (set r).jobId = r.jobId) :
    (casJob db j expected set hset).2 = true ↔
      ∃ job, db.jobs.get j = some job ∧ job.status ∈ expected := by
  simp only [casJob, decide_eq_true_eq]
  rw [Table.rowcount_key db.jobs j (fun r => decide (r.status ∈ expected))]
  cases db.jobs.get j with
  | none => simp
  | some job => by_cases h : job.status ∈ expected <;> simp [h]

/-- A compare-and-set wins and rewrites the one row, or loses and changes nothing. -/
theorem casJob_cases {db db' : Db} {j : String} {expected : List JobStatus} {set : Job → Job}
    {hset : ∀ r, (set r).jobId = r.jobId} {won : Bool}
    (h : casJob db j expected set hset = (db', won)) :
    (won = false ∧ db' = db ∧ ∀ job, db.jobs.get j = some job → job.status ∉ expected) ∨
    (won = true ∧ db'.tasks = db.tasks ∧ ∃ job, db.jobs.get j = some job ∧ job.status ∈ expected ∧
      ∀ k, db'.jobs.get k = if k = j then some (set job) else db.jobs.get k) := by
  have h1 : (casJob db j expected set hset).1 = db' := by rw [h]
  have h2 : (casJob db j expected set hset).2 = won := by rw [h]
  cases won with
  | false =>
    have hlost : ∀ job, db.jobs.get j = some job → job.status ∉ expected := by
      intro job hg hm
      have := (casJob_won db j expected set hset).mpr ⟨job, hg, hm⟩
      rw [h2] at this; cases this
    have hany : (db.jobs.get j).any (fun r => decide (r.status ∈ expected)) = false := by
      cases hg : db.jobs.get j with
      | none => rfl
      | some job => simpa using hlost job hg
    refine .inl ⟨rfl, ?_, hlost⟩
    rw [← h1, casJob, Table.update_key_none hany]
  | true =>
    obtain ⟨job, hg, hm⟩ := (casJob_won db j expected set hset).mp h2
    refine .inr ⟨rfl, by rw [← h1]; rfl, job, hg, hm, ?_⟩
    intro k
    have hid : job.jobId = j := (Table.get_eq_some.mp hg).2
    rw [← h1, casJob, Table.get_update]
    by_cases hk : k = j
    · subst hk
      rw [hg, if_pos rfl]
      simp [hid, hm]
    · rw [if_neg hk]
      cases hg' : db.jobs.get k with
      | none => rfl
      | some x =>
        have hx : x.jobId = k := (Table.get_eq_some.mp hg').2
        simp [hx, hk]

theorem advanceStatus_lost {db : Db} {j : String} {st : JobStatus} {job : Job}
    (hg : db.jobs.get j = some job) (h : job.status.canTransition st = false) :
    (advanceStatus db j st).1 = db := by
  rcases casJob_cases (show advanceStatus db j st = (_, _) from rfl) with
    ⟨_, he, _⟩ | ⟨_, _, job', hg', hm, _⟩
  · exact he
  · obtain rfl := Option.some.inj (hg.symm.trans hg')
    rw [JobStatus.mem_expectedFor, h] at hm
    cases hm

theorem advanceStatus_won {db : Db} {j : String} {st : JobStatus} {job : Job}
    (hg : db.jobs.get j = some job) (h : job.status.canTransition st = true) :
    (advanceStatus db j st).1.status j = some st := by
  have hcas : advanceStatus db j st = ((advanceStatus db j st).1, (advanceStatus db j st).2) := rfl
  generalize (advanceStatus db j st).1 = db' at hcas ⊢
  rcases casJob_cases hcas with ⟨_, _, hno⟩ | ⟨_, _, job', _, _, hget⟩
  · exact absurd (JobStatus.mem_expectedFor.mpr h) (hno job hg)
  · rw [Db.status, hget, if_pos rfl]; rfl

theorem finalizeJob_lost {db : Db} {j key : String} (h : (finalizeJob db j key).2 ≠ true) :
    (finalizeJob db j key).1 = db ∧
      ∀ job, db.jobs.get j = some job → job.status.canTransition .completed ≠ true := by
  have hcas : finalizeJob db j key = ((finalizeJob db j key).1, (finalizeJob db j key).2) := rfl
  generalize (finalizeJob db j key).1 = db' at hcas ⊢
  generalize (finalizeJob db j key).2 = won at hcas h
  rcases casJob_cases hcas with ⟨_, he, hno⟩ | ⟨hwon, _⟩
  · refine ⟨he, ?_⟩
    intro job hg hct
    exact hno job hg (JobStatus.mem_expectedFor.mpr hct)
  · exact absurd hwon h

/-! ## What the seeding transaction does -/

/-- The columns no statement updates. -/
def Task.origin (t : Task) : String × String × Nat × String :=
  (t.taskId, t.jobId, t.blockIndex, t.blockHash)

theorem taskRows_map {α : Type} (f : Task → α) (j : String) (blocks : List String) :
    (taskRows j blocks).map f = blocks.zipIdx.map fun p => f
      { taskId := taskIdOf j p.2, jobId := j, blockIndex := p.2, blockHash := contentHash p.1 } := by
  simp [taskRows, List.map_map, Function.comp_def]

theorem taskRows_slots (j : String) (blocks : List String) :
    (taskRows j blocks).map Task.slot = (List.range blocks.length).map fun i => (j, i) := by
  rw [taskRows_map, List.range_eq_range', ← List.zipIdx_map_snd, List.map_map]
  rfl

theorem taskRows_ids (j : String) (blocks : List String) :
    (taskRows j blocks).map Task.taskId = (List.range blocks.length).map (taskIdOf j) := by
  rw [taskRows_map, List.range_eq_range', ← List.zipIdx_map_snd, List.map_map]
  rfl

@[simp] theorem length_taskRows (j : String) (blocks : List String) :
    (taskRows j blocks).length = blocks.length := by
  simp [taskRows]

theorem mem_taskRows {j : String} {blocks : List String} {t : Task} :
    t ∈ taskRows j blocks ↔ ∃ i block, blocks[i]? = some block ∧ t =
      { taskId := taskIdOf j i, jobId := j, blockIndex := i, blockHash := contentHash block } := by
  simp only [taskRows, List.mem_map, Prod.exists, List.mem_zipIdx_iff_getElem?]
  constructor
  · rintro ⟨block, i, h, rfl⟩; exact ⟨i, block, h, rfl⟩
  · rintro ⟨i, block, h, rfl⟩; exact ⟨block, i, h, rfl⟩

/-- On a job without rows the transaction appends one `PENDING` row per block. -/
theorem seedTasks_fresh {db : Db} {j : String} {job : Job} (blocks : List String)
    (hjob : db.jobs.get j = some job) (hno : db.tasksOf j = [])
    (hname : ∀ t ∈ db.tasks.rows, t.taskId = taskIdOf t.jobId t.blockIndex) :
    ∃ tasks : Table Task.taskId, tasks.rows = db.tasks.rows ++ taskRows j blocks ∧
      seedTasks db j blocks = .ok (beginParse { db with tasks := tasks } j blocks.length) := by
  have hother : ∀ t ∈ db.tasks.rows, t.jobId ≠ j := by
    intro t ht he
    have : t ∈ db.tasksOf j := List.mem_filter.mpr ⟨ht, by simpa using he⟩
    rw [hno] at this
    cases this
  by_cases hb : blocks = []
  · subst hb
    exact ⟨db.tasks, by simp [taskRows], by simp [seedTasks]⟩
  · have hu : ((taskRows j blocks).map Task.slot).Nodup := by
      rw [taskRows_slots]
      exact List.nodup_range.map fun a b h => by simpa using h
    have hk : ((taskRows j blocks).map Task.taskId).Nodup := by
      rw [taskRows_ids]
      exact List.nodup_range.map fun a b h => (taskIdOf_inj.mp h).2
    obtain ⟨tasks, hins, hrows⟩ := Table.insertIgnore_all_new (taskRows j blocks) db.tasks hu hk
      (by
        intro t ht hm
        obtain ⟨i, block, _, rfl⟩ := mem_taskRows.mp ht
        obtain ⟨t', ht', he⟩ := List.mem_map.mp hm
        exact hother t' ht' (congrArg Prod.fst he))
      (by
        intro t ht
        obtain ⟨i, block, _, rfl⟩ := mem_taskRows.mp ht
        rw [Table.get_eq_none]
        intro t' ht' he
        rw [hname t' ht'] at he
        exact hother t' ht' (taskIdOf_inj.mp he).1)
    refine ⟨tasks, hrows, ?_⟩
    simp [seedTasks, hb, hjob, hins]

/-- Where every block has its row already, only the compare-and-set is left. -/
theorem seedTasks_again {db : Db} {j : String} {job : Job} {blocks : List String}
    (hjob : db.jobs.get j = some job)
    (hrows : ∀ i < blocks.length, ∃ t ∈ db.tasksOf j, t.blockIndex = i) :
    seedTasks db j blocks = .ok (beginParse db j blocks.length) := by
  by_cases hb : blocks = []
  · subst hb; simp [seedTasks]
  · have hins : db.tasks.insertIgnore Task.slot (taskRows j blocks) = some db.tasks := by
      apply Table.insertIgnore_all_taken
      intro t ht
      obtain ⟨i, block, hi, rfl⟩ := mem_taskRows.mp ht
      obtain ⟨t', ht', he⟩ := hrows i (List.getElem?_eq_some_iff.mp hi).1
      obtain ⟨hm, hj⟩ := List.mem_filter.mp ht'
      exact List.mem_map.mpr ⟨t', hm, Prod.ext (of_decide_eq_true hj) he⟩
    simp [seedTasks, hb, hjob, hins]

theorem beginParse_lost {db : Db} {j : String} {job : Job} (n : Nat)
    (hjob : db.jobs.get j = some job) (h : job.status ≠ .pending) :
    beginParse db j n = (db, false) := by
  cases hr : beginParse db j n with
  | mk db' won =>
    rcases casJob_cases hr with ⟨rfl, rfl, _⟩ | ⟨_, _, job', hjob', hmem, _⟩
    · rfl
    · obtain rfl := Option.some.inj (hjob.symm.trans hjob')
      exact absurd (List.mem_singleton.mp hmem) h

/-- Where every block has its row and the job has been started, the transaction does nothing. -/
theorem seedTasks_idle {db : Db} {j : String} {job : Job} {blocks : List String}
    (hjob : db.jobs.get j = some job) (h : job.status ≠ .pending)
    (hrows : ∀ i < blocks.length, ∃ t ∈ db.tasksOf j, t.blockIndex = i) :
    seedTasks db j blocks = .ok (db, false) := by
  rw [seedTasks_again hjob hrows, beginParse_lost _ hjob h]

/-- What a transaction that commits has done: every block has its row, and the job is the one that
`begin_parse` leaves. -/
theorem seedTasks_ok {db db' : Db} {j : String} {blocks : List String} {won : Bool}
    (h : seedTasks db j blocks = .ok (db', won)) :
    (∀ i < blocks.length, ∃ t ∈ db'.tasksOf j, t.blockIndex = i) ∧
      ∃ tasks, beginParse ⟨db.jobs, tasks⟩ j blocks.length = (db', won) := by
  unfold seedTasks at h
  split at h
  · rename_i hemp
    rw [List.isEmpty_iff.mp hemp]
    exact ⟨fun i hi => absurd hi (by simp), db.tasks, Except.ok.inj h⟩
  split at h
  · cases h
  split at h
  · cases h
  · rename_i tasks hins
    have hcas := Except.ok.inj h
    refine ⟨fun i hi => ?_, tasks, hcas⟩
    have htasks : db'.tasks = tasks := (congrArg (fun r => r.1.tasks) hcas).symm
    have hslot : (j, i) ∈ (taskRows j blocks).map Task.slot := by
      rw [taskRows_slots]
      exact List.mem_map.mpr ⟨i, by simpa using hi, rfl⟩
    obtain ⟨r, hr, hslot⟩ := List.mem_map.mp hslot
    obtain ⟨t, ht, he⟩ := List.mem_map.mp ((Table.insertIgnore_taken hins).1 r hr)
    rw [hslot] at he
    refine ⟨t, ?_, congrArg Prod.snd he⟩
    rw [Db.tasksOf, htasks, List.mem_filter]
    exact ⟨ht, decide_eq_true (congrArg Prod.fst he)⟩

/-- On tables whose task ids are made from job and block index the transaction commits. -/
theorem seedTasks_named {db : Db} {j : String} {job : Job} (blocks : List String)
    (hjob : db.jobs.get j = some job)
    (hname : ∀ t ∈ db.tasks.rows, t.taskId = taskIdOf t.jobId t.blockIndex) :
    ∃ db' won, seedTasks db j blocks = .ok (db', won) := by
  by_cases hb : blocks = []
  · subst hb
    exact ⟨_, _, rfl⟩
  · have hinj : Function.Injective fun s : String × Nat => taskIdOf s.1 s.2 := by
      intro a b he
      obtain ⟨h1, h2⟩ := taskIdOf_inj.mp he
      exact Prod.ext h1 h2
    have hrows : ∀ t ∈ taskRows j blocks, t.taskId = taskIdOf t.slot.1 t.slot.2 := by
      intro t ht
      obtain ⟨i, block, _, rfl⟩ := mem_taskRows.mp ht
      rfl
    obtain ⟨tasks, hins⟩ : ∃ tasks, db.tasks.insertIgnore Task.slot (taskRows j blocks) = some tasks :=
      Table.insertIgnore_named hinj hname hrows
    have hemp : blocks.isEmpty = false := by simpa using hb
    rw [seedTasks, hemp, hjob]
    simp only [Bool.false_eq_true, if_false, Option.isNone_some, hins]
    exact ⟨_, _, rfl⟩

end AudioEngine
