import AudioEngine.Lib.Table
import AudioEngine.Domain.State
import AudioEngine.Domain.Vendor

/-!
# AudioEngine.Infra.Db

The tables `jobs` and `tasks` of `core/infra/db.py` and the names that tie the stores together: task
ids `<job_id>-<i>` and the object keys `raw/<job_id>.txt`, `tts/<hash>.wav`, `out/<job_id>.mp3`.

The timestamps of the rows are left out: the sweeper's cutoff is a free choice in the model. The
`processed_events` inbox, which no handler reads, stands apart in `Infra.Inbox`.

The names are injective and the three kinds of object keys never meet. Task ids are injective in
job and index for arbitrary job ids, because a decimal index contains no dash.
-/

namespace AudioEngine

open Relational

inductive TaskStatus where
  | pending
  | done
  | failed
deriving DecidableEq, Repr

structure Job where
  jobId : String
  status : JobStatus := .pending
  pendingCount : Int := 0
  manuscriptKey : String
  finalKey : Option String := none
  callbackUrl : Option String := none
deriving DecidableEq, Repr

structure Task where
  taskId : String
  jobId : String
  blockIndex : Nat
  blockHash : String
  status : TaskStatus := .pending
  audioKey : Option String := none
deriving DecidableEq, Repr

/-- The unique index `ix_tasks_job_id_block_index`. -/
def Task.slot (t : Task) : String × Nat := (t.jobId, t.blockIndex)

structure Db where
  jobs : Table Job.jobId
  tasks : Table Task.taskId

def Db.empty : Db := ⟨.empty, .empty⟩

def Db.tasksOf (db : Db) (j : String) : List Task := db.tasks.rows.filter fun t => t.jobId = j

def Db.status (db : Db) (j : String) : Option JobStatus := (db.jobs.get j).map Job.status

/-- Tasks of the job that the barrier still waits for. -/
def Db.outstanding (db : Db) (j : String) : Nat :=
  db.tasks.rows.countP fun t => decide (t.jobId = j) && decide (t.status = .pending)

/-! ## Names -/

def taskIdOf (j : String) (i : Nat) : String := j ++ "-" ++ toString i

def rawKey (j : String) : String := "raw/" ++ j ++ ".txt"

def ttsKey (h : String) : String := "tts/" ++ h ++ ".wav"

def outKey (j : String) : String := "out/" ++ j ++ ".mp3"

theorem append_cons_inj {α : Type} {x : α} {a b u v : List α} (hu : x ∉ u) (hv : x ∉ v)
    (h : a ++ x :: u = b ++ x :: v) : a = b ∧ u = v := by
  rcases List.append_eq_append_iff.mp h with ⟨m, rfl, hm⟩ | ⟨m, rfl, hm⟩
  · cases m with
    | nil => simpa using hm
    | cons y m =>
      rw [List.cons_append, List.cons.injEq] at hm
      exact absurd (by rw [hm.2]; simp) hu
  · cases m with
    | nil => simpa [eq_comm] using hm
    | cons y m =>
      rw [List.cons_append, List.cons.injEq] at hm
      exact absurd (by rw [hm.2]; simp) hv

theorem taskIdOf_inj {j j' : String} {i i' : Nat} : taskIdOf j i = taskIdOf j' i' ↔ j = j' ∧ i = i' := by
  constructor
  · intro h
    have hl := congrArg String.toList h
    simp only [taskIdOf, String.toList_append] at hl
    have := append_cons_inj (x := '-') (PyStr.dash_not_mem_toString i)
      (PyStr.dash_not_mem_toString i')
      (by simpa using hl)
    exact ⟨String.toList_inj.mp this.1, PyStr.toString_nat_inj.mp (String.toList_inj.mp this.2)⟩
  · rintro ⟨rfl, rfl⟩; rfl

@[simp] theorem rawKey_inj {j j' : String} : rawKey j = rawKey j' ↔ j = j' := by
  simp [rawKey]

@[simp] theorem ttsKey_inj {h h' : String} : ttsKey h = ttsKey h' ↔ h = h' := by
  simp [ttsKey]

@[simp] theorem outKey_inj {j j' : String} : outKey j = outKey j' ↔ j = j' := by
  simp [outKey]

theorem head?_of_key_eq {a b : String} (h : a = b) : a.toList.head? = b.toList.head? := by rw [h]

@[simp] theorem rawKey_ne_ttsKey (j h : String) : rawKey j ≠ ttsKey h := by
  intro e
  have := head?_of_key_eq e
  simp [rawKey, ttsKey] at this

@[simp] theorem rawKey_ne_outKey (j j' : String) : rawKey j ≠ outKey j' := by
  intro e
  have := head?_of_key_eq e
  simp [rawKey, outKey] at this

@[simp] theorem ttsKey_ne_outKey (h j : String) : ttsKey h ≠ outKey j := by
  intro e
  have := head?_of_key_eq e
  simp [ttsKey, outKey] at this

end AudioEngine
