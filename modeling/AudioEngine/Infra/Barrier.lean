import AudioEngine.Infra.Queries

/-!
# AudioEngine.Infra.Barrier

The fan-in counter under arbitrary sequences of `complete_task_and_decrement` and
`fail_task_and_decrement`.

The two claims have asymmetric guards: `complete` claims a task that is `FAILED`. A task that was
resolved by the dead-letter path and completes later is therefore counted a second time.
`barrier_exact_iff` says that this is the only way: over every sequence of calls on the tasks of a
freshly seeded job, each task is counted at most once and the counter equals the number of
`PENDING` tasks after every call, if and only if no `complete` runs on a task that is `FAILED`.
-/

namespace AudioEngine

open Relational

inductive BarrierCall where
  | complete (taskId audioKey : String)
  | fail (taskId : String)
deriving DecidableEq, Repr

namespace BarrierCall

def taskId : BarrierCall → String
  | complete t _ => t
  | fail t => t

def run (db : Db) (j : String) : BarrierCall → Except SqlError (Db × Option Int)
  | complete t k => completeTaskAndDecrement db j t k
  | fail t => failTaskAndDecrement db j t

/-- The call claims a task that the dead-letter path already counted. -/
def recounts (db : Db) : BarrierCall → Bool
  | complete t _ => (db.tasks.get t).any fun x => decide (x.status = .failed)
  | fail _ => false

end BarrierCall

/-- A committed call with the databases around it and the value it returned. -/
structure Committed where
  call : BarrierCall
  before : Db
  after : Db
  remaining : Option Int

/-- The calls of a sequence that commit, in order. A call that raises is rolled back. -/
def barrierHistory (j : String) : Db → List BarrierCall → List Committed
  | _, [] => []
  | db, c :: cs =>
    match c.run db j with
    | .error _ => barrierHistory j db cs
    | .ok (db', r) => ⟨c, db, db', r⟩ :: barrierHistory j db' cs

/-- Calls that counted the task `t`. -/
def countedOn (t : String) (h : List Committed) : Nat :=
  h.countP fun c => decide (c.call.taskId = t) && c.remaining.isSome

theorem countedOn_cons (t : String) (c : Committed) (h : List Committed) :
    countedOn t (c :: h) =
      countedOn t h + (decide (c.call.taskId = t) && c.remaining.isSome).toNat := by
  rw [countedOn, List.countP_cons, countedOn]
  cases decide (c.call.taskId = t) && c.remaining.isSome <;> rfl

/-- The counter of `j` equals the number of its `PENDING` tasks. -/
def Db.Exact (db : Db) (j : String) : Prop :=
  (db.jobs.get j).map Job.pendingCount = some (db.outstanding j : Int)

instance (db : Db) (j : String) : Decidable (db.Exact j) :=
  inferInstanceAs (Decidable (_ = _))

/-- `begin_parse` won and the job has `n` tasks, all `PENDING`. -/
structure Db.Seeded (db : Db) (j : String) (n : Nat) : Prop where
  won : ∃ db₀, beginParse db₀ j n = (db, true)
  length : (db.tasksOf j).length = n
  pending : ∀ t ∈ db.tasksOf j, t.status = .pending

theorem outstanding_eq (db : Db) (j : String) :
    db.outstanding j = (db.tasksOf j).countP fun t => decide (t.status = .pending) := by
  rw [Db.outstanding, Db.tasksOf, List.countP_filter]
  apply List.countP_congr
  intro t _
  rw [Bool.and_comm]

theorem Db.Seeded.exact {db : Db} {j : String} {n : Nat} (h : db.Seeded j n) : db.Exact j := by
  obtain ⟨db₀, hw⟩ := h.won
  have hcount : db.outstanding j = n := by
    rw [outstanding_eq, List.countP_eq_length.mpr (by simpa using h.pending), h.length]
  rcases casJob_cases hw with ⟨hf, _⟩ | ⟨_, _, job, _, _, hget⟩
  · cases hf
  · rw [Db.Exact, hget, if_pos rfl, hcount]; rfl

section Calls

variable {db db' : Db} {j t : String} {c : BarrierCall} {r : Option Int}

/-- What a committed call on a task of `j` does: nothing, or one decrement for a task that was not
`DONE`, which leaves that task settled. -/
theorem BarrierCall.run_cases (h : c.run db j = .ok (db', r)) :
    (r = none ∧ db' = db) ∨
    (∃ task task' job, r.isSome = true ∧ Claimed db db' j c.taskId task task' job ∧
      task'.status ≠ .pending ∧ task'.jobId = task.jobId ∧
      (task.status = .pending ∨ (task.status = .failed ∧ c.recounts db = true))) := by
  cases c with
  | complete t k =>
    rcases completeTask_cases h with ⟨hr, hdb, _⟩ | ⟨task, job, hne, hr, hc⟩
    · exact .inl ⟨hr, hdb⟩
    · refine .inr ⟨task, _, job, by rw [hr]; rfl, hc, by simp, rfl, ?_⟩
      cases hst : task.status with
      | pending => exact .inl rfl
      | done => exact absurd hst hne
      | failed => exact .inr ⟨rfl, by simp [BarrierCall.recounts, hc.task_get, hst]⟩
  | fail t =>
    rcases failTask_cases h with ⟨hr, hdb, _⟩ | ⟨task, job, hp, hr, hc⟩
    · exact .inl ⟨hr, hdb⟩
    · exact .inr ⟨task, _, job, by rw [hr]; rfl, hc, by simp, rfl, .inl hp⟩

/-- One decrement keeps the counter exact precisely when the claimed task was `PENDING`. -/
theorem Claimed.exact_iff {task task' : Task} {job : Job} (hc : Claimed db db' j t task task' job)
    (hj : task.jobId = j) (he : db.Exact j) : db'.Exact j ↔ task.status = .pending := by
  have ho := hc.outstanding j
  have hcount : job.pendingCount = (db.outstanding j : Int) := by
    have := he
    rw [Db.Exact, hc.job_get] at this
    simpa using this
  rw [Db.Exact, hc.jobs, if_pos rfl]
  simp only [Option.map_some, Option.some.injEq, hj, decide_true, Bool.true_and] at ho ⊢
  by_cases hp : task.status = .pending
  · simp only [hp, decide_true, Bool.toNat_true] at ho
    simp only [hp, iff_true]
    omega
  · simp only [hp, decide_false, Bool.toNat_false, Nat.add_zero] at ho
    simp only [hp, iff_false]
    omega

/-- The call is about one of the job's tasks. -/
def BarrierCall.OnTask (db : Db) (j : String) (c : BarrierCall) : Prop :=
  (db.tasks.get c.taskId).map Task.jobId = some j

theorem Claimed.onTask {task task' : Task} {job : Job} (hc : Claimed db db' j t task task' job)
    (hj : task'.jobId = task.jobId) {d : BarrierCall} (hd : d.OnTask db j) : d.OnTask db' j := by
  rw [BarrierCall.OnTask, hc.tasks]
  split
  · rename_i he
    rw [BarrierCall.OnTask, he, hc.task_get] at hd
    simpa [hj] using hd
  · exact hd

theorem BarrierCall.onTask_run (h : c.run db j = .ok (db', r)) {d : BarrierCall}
    (hd : d.OnTask db j) : d.OnTask db' j := by
  rcases BarrierCall.run_cases h with ⟨_, rfl⟩ | ⟨task, task', job, _, hc, _, hj, _⟩
  · exact hd
  · exact hc.onTask hj hd

/-- A settled task stays settled, whatever is called. -/
def Settled (db : Db) (t : String) : Prop :=
  ∃ task, db.tasks.get t = some task ∧ task.status ≠ .pending

theorem settled_run (h : c.run db j = .ok (db', r)) (hs : Settled db t) : Settled db' t := by
  obtain ⟨x, hx, hne⟩ := hs
  rcases BarrierCall.run_cases h with ⟨_, rfl⟩ | ⟨task, task', job, _, hc, hp, _, _⟩
  · exact ⟨x, hx, hne⟩
  · by_cases he : t = c.taskId
    · exact ⟨task', by rw [hc.tasks, if_pos he], hp⟩
    · exact ⟨x, by rw [hc.tasks, if_neg he]; exact hx, hne⟩

/-- Without recounting, a call on a settled task returns `None`. -/
theorem run_settled_none (h : c.run db j = .ok (db', r)) (hs : Settled db c.taskId)
    (hn : c.recounts db = false) : r = none := by
  obtain ⟨x, hx, hne⟩ := hs
  rcases BarrierCall.run_cases h with ⟨hr, _⟩ | ⟨task, task', job, _, hc, _, _, hp⟩
  · exact hr
  · rw [hc.task_get] at hx
    cases hx
    rcases hp with hp | ⟨_, hrec⟩
    · exact absurd hp hne
    · rw [hn] at hrec; cases hrec

/-- A call that returned a value has settled its task. -/
theorem run_some_settled (h : c.run db j = .ok (db', r)) (hr : r.isSome = true) :
    Settled db' c.taskId := by
  rcases BarrierCall.run_cases h with ⟨rfl, _⟩ | ⟨task, task', job, _, hc, hp, _, _⟩
  · cases hr
  · exact ⟨task', by rw [hc.tasks, if_pos rfl], hp⟩

end Calls

/-! ## Whole sequences -/

section History

variable {j t : String} {cs : List BarrierCall}

theorem countedOn_settled :
    ∀ {cs : List BarrierCall} {db : Db},
      (∀ c ∈ barrierHistory j db cs, c.call.recounts c.before = false) → Settled db t →
      countedOn t (barrierHistory j db cs) = 0
  | [], db, _, _ => rfl
  | c :: cs, db, hn, hs => by
    simp only [barrierHistory] at hn ⊢
    split at hn
    · exact countedOn_settled hn hs
    · rename_i db' r hrun
      have hrest : countedOn t (barrierHistory j db' cs) = 0 :=
        countedOn_settled (fun c' hc' => hn c' (List.mem_cons_of_mem _ hc')) (settled_run hrun hs)
      rw [countedOn_cons, hrest]
      by_cases hc : c.taskId = t
      · have hnone := run_settled_none hrun (hc ▸ hs) (hn _ List.mem_cons_self)
        simp [hnone]
      · simp [hc]

theorem countedOn_le_one :
    ∀ {cs : List BarrierCall} {db : Db},
      (∀ c ∈ barrierHistory j db cs, c.call.recounts c.before = false) →
      countedOn t (barrierHistory j db cs) ≤ 1
  | [], db, _ => by simp [barrierHistory, countedOn]
  | c :: cs, db, hn => by
    simp only [barrierHistory] at hn ⊢
    split at hn
    · exact countedOn_le_one hn
    · rename_i db' r hrun
      have hn' : ∀ c ∈ barrierHistory j db' cs, c.call.recounts c.before = false :=
        fun c' hc' => hn c' (List.mem_cons_of_mem _ hc')
      rw [countedOn_cons]
      by_cases hcount : c.taskId = t ∧ r.isSome = true
      · have := countedOn_settled hn' (hcount.1 ▸ run_some_settled hrun hcount.2)
        rw [this, Nat.zero_add]
        exact Bool.toNat_le _
      · have hzero : (decide (c.taskId = t) && r.isSome) = false := by
          rw [Bool.eq_false_iff]
          simpa using hcount
        simp only [hzero, Bool.toNat_false, Nat.add_zero]
        exact countedOn_le_one hn'

/-- From an exact counter, the counter stays exact along the calls if and only if none of them
recounts a task. -/
theorem exact_iff_no_recount :
    ∀ (cs : List BarrierCall) (db : Db), db.Exact j → (∀ c ∈ cs, c.OnTask db j) →
      ((∀ c ∈ barrierHistory j db cs, c.after.Exact j) ↔
        ∀ c ∈ barrierHistory j db cs, c.call.recounts c.before = false)
  | [], db, _, _ => by simp [barrierHistory]
  | c :: cs, db, he, ho => by
    simp only [barrierHistory]
    split
    · exact exact_iff_no_recount cs db he fun c' hc' => ho c' (by simp [hc'])
    · rename_i db' r hrun
      have hone : db'.Exact j ↔ c.recounts db = false := by
        have hon := ho c (by simp)
        rcases BarrierCall.run_cases hrun with ⟨rfl, hdb⟩ | ⟨task, task', job, _, hc, _, _, hp⟩
        · -- nothing was claimed, so in particular no `FAILED` task was
          refine iff_of_true (hdb ▸ he) ?_
          cases c with
          | fail t => rfl
          | complete t k =>
            rcases completeTask_cases hrun with ⟨_, _, hdone⟩ | ⟨_, _, _, hr, _⟩
            · cases hg : db.tasks.get t with
              | none => simp [BarrierCall.recounts, hg]
              | some x => simp [BarrierCall.recounts, hg, hdone x hg]
            · cases hr
        · have hj : task.jobId = j := by
            rw [BarrierCall.OnTask, hc.task_get] at hon
            simpa using hon
          rw [hc.exact_iff hj he]
          rcases hp with hp | ⟨hf, hrec⟩
          · refine iff_of_true hp ?_
            cases c with
            | fail t => rfl
            | complete t k =>
              have hg := hc.task_get
              simp only [BarrierCall.taskId] at hg
              simp [BarrierCall.recounts, hg, hp]
          · rw [hf, hrec]; simp
      by_cases hrec : c.recounts db = false
      · have ih := exact_iff_no_recount cs db' (hone.mpr hrec)
          fun c' hc' => BarrierCall.onTask_run hrun (ho c' (by simp [hc']))
        simp only [List.mem_cons, forall_eq_or_imp, hone.mpr hrec, hrec, true_and, ih]
      · refine iff_of_false ?_ ?_
        · intro h
          exact hrec (hone.mp (h _ List.mem_cons_self))
        · intro h
          exact hrec (h _ List.mem_cons_self)

end History

/-- Over every sequence of calls on the tasks of a freshly seeded job: each task is counted at most
once and the counter equals the number of `PENDING` tasks after every call, exactly when no
`complete` runs on a `FAILED` task. -/
theorem barrier_exact_iff {db : Db} {j : String} {n : Nat} (hs : db.Seeded j n)
    {cs : List BarrierCall} (ho : ∀ c ∈ cs, c.OnTask db j) :
    ((∀ t, countedOn t (barrierHistory j db cs) ≤ 1) ∧
      ∀ c ∈ barrierHistory j db cs, c.after.Exact j) ↔
    ∀ c ∈ barrierHistory j db cs, c.call.recounts c.before = false := by
  rw [exact_iff_no_recount cs db hs.exact ho]
  exact ⟨fun h => h.2, fun h => ⟨fun t => countedOn_le_one h, h⟩⟩

/-- A job of two blocks right after its seeding transaction. -/
def twoBlocks : Db :=
  (beginParse ⟨⟨[{ jobId := "j", manuscriptKey := "raw/j.txt" }], by decide⟩,
    ⟨taskRows "j" ["A", "B"], by decide⟩⟩ "j" 2).1

theorem twoBlocks_seeded : twoBlocks.Seeded "j" 2 where
  won := ⟨_, Prod.ext rfl (by decide)⟩
  length := by decide
  pending := by decide

theorem barrier_exact_two_blocks :
    (∀ t, countedOn t (barrierHistory "j" twoBlocks
      [.complete "j-0" "tts/a.wav", .fail "j-1", .complete "j-0" "tts/a.wav"]) ≤ 1) ∧
    ∀ c ∈ barrierHistory "j" twoBlocks
      [.complete "j-0" "tts/a.wav", .fail "j-1", .complete "j-0" "tts/a.wav"], c.after.Exact "j" :=
  (barrier_exact_iff twoBlocks_seeded (by unfold BarrierCall.OnTask; decide)).mpr (by decide)

/-- The block `j-0` is dead-lettered and a second copy of its message completes afterwards: it is
counted twice, and the counter goes 1, 0, -1 with the block `j-1` still `PENDING` at 0. -/
theorem barrier_recount :
    twoBlocks.Seeded "j" 2 ∧
    (∀ c ∈ [BarrierCall.fail "j-0", .complete "j-0" "tts/a.wav", .complete "j-1" "tts/b.wav"],
      c.OnTask twoBlocks "j") ∧
    (barrierHistory "j" twoBlocks
      [.fail "j-0", .complete "j-0" "tts/a.wav", .complete "j-1" "tts/b.wav"]).map
        (fun c => (c.remaining, c.after.outstanding "j")) =
      [(some 1, 1), (some 0, 1), (some (-1), 0)] ∧
    countedOn "j-0" (barrierHistory "j" twoBlocks
      [.fail "j-0", .complete "j-0" "tts/a.wav", .complete "j-1" "tts/b.wav"]) = 2 :=
  ⟨twoBlocks_seeded, by unfold BarrierCall.OnTask; decide, by decide, by decide⟩

end AudioEngine
