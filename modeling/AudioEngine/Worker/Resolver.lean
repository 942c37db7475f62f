import AudioEngine.Infra.Queries
import AudioEngine.Lib.PyJson
import AudioEngine.Pipeline.Handlers
import AudioEngine.Worker.Climb

/-!
# AudioEngine.Worker.Resolver

The dead-letter consumer (`worker/handlers/dlq.py`) on raw bodies.

A body on the dead-letter queue is whatever someone published: `handle_dlq` decodes it with
`json.loads` and hands the fields it finds to SQL. It logs and drops a message without `job_id`,
but every other body it cannot use makes it raise, and `make_dlq_handler` requeues on any
exception. `Resolvable` says when it returns, and `deliveries_bounded_iff` that a message leaves
the system exactly when it is never dead-lettered or some delivery finds it resolvable.
-/

namespace AudioEngine

open PyJson

/-! ## `handle_dlq` -/

/-- What the database driver and the model make of a field's value. -/
structure Drivers where
  /-- a `VARCHAR` parameter; `none` when the statement raises -/
  bind : Json → Option String
  /-- `StitchReady(job_id=…)`; `none` when it does not validate -/
  stitchReady : Json → Option String

/-- How a call of `handle_dlq` ends; a return comes with the job it published `StitchReady` for. -/
inductive DlqOutcome where
  | raised
  | returned (ready : Option String)
deriving DecidableEq, Repr

/-- `data.get("job_id")`, with `none` for `None`. -/
def jobIdOf (data : List (List Nat × Json)) : Option Json :=
  match get data "job_id" with
  | some .null => none
  | jobId => jobId

/-- `fail_task_and_decrement(session, job_id, task_id)` on the values of a body. A comparison with
`None` is `IS NULL`, which no key is; `job_id` is a parameter of the second statement alone. -/
def failTaskOf (dr : Drivers) (db : Db) (jobId taskId : Json) : Option (Db × Option Int) :=
  match taskId with
  | .null => some (db, none)
  | taskId =>
    match dr.bind taskId with
    | none => none
    | some t =>
      if db.tasks.rowcount (fun x => decide (x.taskId = t) &&
          (decide (x.status ≠ .done) && decide (x.status ≠ .failed))) = 0 then some (db, none)
      else
        match dr.bind jobId with
        | none => none
        | some j => (failTaskAndDecrement db j t).toOption

/-- `handle_dlq(ctx, message)`. -/
def handleDlq (depth : Nat) (dr : Drivers) (db : Db) (body : List UInt8) : Db × DlqOutcome :=
  match loads depth body with
  | some (.obj data) =>
    match jobIdOf data with
    | none => (db, .returned none)
    | some jobId =>
      match get data "task_id" with
      | some taskId =>
        match failTaskOf dr db jobId taskId with
        | none => (db, .raised)
        | some (db', remaining) =>
          if remaining = some 0 then
            match dr.stitchReady jobId with
            -- the session has committed
            | none => (db', .raised)
            | some j => (db', .returned (some j))
          else (db', .returned none)
      | none =>
        match dr.bind jobId with
        | none => (db, .raised)
        | some j => ((advanceStatus db j .failed).1, .returned none)
  -- no JSON, or a value without `get`
  | _ => (db, .raised)

def DlqOutcome.returns : DlqOutcome → Bool
  | raised => false
  | returned _ => true

/-- The values name a task the resolver can fail: nothing to claim, or a pending row of a job it can
decrement and, at zero, announce. -/
def TaskResolvable (dr : Drivers) (db : Db) (jobId taskId : Json) : Prop :=
  taskId = .null ∨
    ∃ t, dr.bind taskId = some t ∧ ∀ task, db.tasks.get t = some task → task.status = .pending →
      ∃ j job, dr.bind jobId = some j ∧ db.jobs.get j = some job ∧
        (job.pendingCount = 1 → (dr.stitchReady jobId).isSome)

/-- The body is a JSON object without `job_id`, or with a `job_id` and a task it can fail, or with a
`job_id` that is a text and no task. -/
def Resolvable (depth : Nat) (dr : Drivers) (db : Db) (body : List UInt8) : Prop :=
  ∃ data, loads depth body = some (.obj data) ∧ ∀ jobId, jobIdOf data = some jobId →
    (∀ taskId, get data "task_id" = some taskId → TaskResolvable dr db jobId taskId) ∧
    (get data "task_id" = none → (dr.bind jobId).isSome)

section

variable {db : Db} {j t : String} {task : Task}

theorem failTask_claimed (hg : db.tasks.get t = some task) (hp : task.status = .pending) :
    (db.jobs.get j = none → failTaskAndDecrement db j t = .error .noResultFound) ∧
    ∀ job, db.jobs.get j = some job →
      ∃ db', failTaskAndDecrement db j t = .ok (db', some (job.pendingCount - 1)) := by
  have hclaim : ¬ db.tasks.rowcount (fun x => decide (x.taskId = t) &&
      (decide (x.status ≠ .done) && decide (x.status ≠ .failed))) = 0 :=
    Relational.Table.rowcount_key_ne_zero.mpr ⟨task, hg, by simp [hp]⟩
  simp only [failTaskAndDecrement, claimAndDecrement, if_neg hclaim, Relational.Table.get_update]
  constructor
  · intro hj
    rw [hj]
    rfl
  · intro job hj
    have hid : job.jobId = j := (Relational.Table.get_eq_some.mp hj).2
    rw [hj]
    simp [hid]

/-- The transaction commits, and at zero the announcement validates, exactly for resolvable
values. -/
theorem failTaskOf_iff (dr : Drivers) (db : Db) (jobId taskId : Json) :
    (∃ db' remaining, failTaskOf dr db jobId taskId = some (db', remaining) ∧
      (remaining = some 0 → (dr.stitchReady jobId).isSome)) ↔
      TaskResolvable dr db jobId taskId := by
  by_cases hnull : taskId = .null
  · subst hnull
    exact iff_of_true ⟨db, none, rfl, by simp⟩ (.inl rfl)
  have hdef : failTaskOf dr db jobId taskId =
      match dr.bind taskId with
      | none => none
      | some t =>
        if db.tasks.rowcount (fun x => decide (x.taskId = t) &&
            (decide (x.status ≠ .done) && decide (x.status ≠ .failed))) = 0 then some (db, none)
        else
          match dr.bind jobId with
          | none => none
          | some j => (failTaskAndDecrement db j t).toOption := by
    cases taskId <;> first | rfl | exact absurd rfl hnull
  rw [hdef, TaskResolvable, or_iff_right hnull]
  cases ht : dr.bind taskId with
  | none => simp
  | some t =>
    simp only [Option.some.injEq, exists_eq_left']
    by_cases hclaim : db.tasks.rowcount (fun x => decide (x.taskId = t) &&
        (decide (x.status ≠ .done) && decide (x.status ≠ .failed))) = 0
    · rw [if_pos hclaim]
      refine iff_of_true ⟨db, none, rfl, by simp⟩ fun task hg hp => ?_
      exact absurd hclaim (Relational.Table.rowcount_key_ne_zero.mpr ⟨task, hg, by simp [hp]⟩)
    · rw [if_neg hclaim]
      -- there is one row to claim, and the second statement decides
      obtain ⟨task, hg, hst⟩ := Relational.Table.rowcount_key_ne_zero.mp hclaim
      have hp : task.status = .pending := by
        cases h : task.status <;> simp [h] at hst
        rfl
      have hrow : (∀ x, db.tasks.get t = some x → x.status = .pending →
          ∃ j job, dr.bind jobId = some j ∧ db.jobs.get j = some job ∧
            (job.pendingCount = 1 → (dr.stitchReady jobId).isSome)) ↔
          ∃ j job, dr.bind jobId = some j ∧ db.jobs.get j = some job ∧
            (job.pendingCount = 1 → (dr.stitchReady jobId).isSome) :=
        ⟨fun h => h task hg hp, fun h _ _ _ => h⟩
      rw [hrow]
      cases hj : dr.bind jobId with
      | none => simp
      | some j =>
        obtain ⟨hnone, hsome⟩ := failTask_claimed (j := j) hg hp
        cases hjob : db.jobs.get j with
        | none => simp [hnone hjob, hjob, Except.toOption]
        | some job =>
          obtain ⟨db', hok⟩ := hsome job hjob
          have hzero : job.pendingCount - 1 = 0 ↔ job.pendingCount = 1 := by omega
          simp [hok, hjob, Except.toOption, hzero]

theorem handleDlq_returns_iff (depth : Nat) (dr : Drivers) (db : Db) (body : List UInt8) :
    (handleDlq depth dr db body).2.returns = true ↔ Resolvable depth dr db body := by
  unfold handleDlq Resolvable
  cases hl : loads depth body with
  | none => simp [DlqOutcome.returns]
  | some v =>
    cases v with
    | obj data =>
      simp only [Option.some.injEq, Json.obj.injEq, exists_eq_left']
      cases hj : jobIdOf data with
      | none => simp [DlqOutcome.returns]
      | some jobId =>
        simp only [Option.some.injEq, forall_eq']
        cases ht : get data "task_id" with
        | none =>
          cases hb : dr.bind jobId with
          | none => simp [DlqOutcome.returns]
          | some j => simp [DlqOutcome.returns]
        | some taskId =>
          simp only [Option.some.injEq, forall_eq', reduceCtorEq, false_implies, and_true]
          rw [← failTaskOf_iff]
          cases hf : failTaskOf dr db jobId taskId with
          | none => simp [DlqOutcome.returns]
          | some r =>
            obtain ⟨db', remaining⟩ := r
            by_cases hz : remaining = some 0
            · cases hs : dr.stitchReady jobId with
              | none => simp [hz, DlqOutcome.returns]
              | some j => simp [hz, DlqOutcome.returns]
            · simp [hz, DlqOutcome.returns]
    | null => simp [DlqOutcome.returns]
    | bool b => simp [DlqOutcome.returns]
    | int z => simp [DlqOutcome.returns]
    | float literal => simp [DlqOutcome.returns]
    | str s => simp [DlqOutcome.returns]
    | arr items => simp [DlqOutcome.returns]

end

/-! ## Decoded events -/

/-- The body decodes to the fields of the event. -/
structure Carries (depth : Nat) (dr : Drivers) (body : List UInt8) (e : Event) : Prop where
  fields : ∃ data jobId, loads depth body = some (.obj data) ∧ jobIdOf data = some jobId ∧
    dr.bind jobId = some e.jobId ∧ dr.stitchReady jobId = some e.jobId ∧
    match e.body.taskId with
    | none => get data "task_id" = none
    | some t => ∃ taskId, get data "task_id" = some taskId ∧ taskId ≠ .null ∧
        dr.bind taskId = some t

/-- The resolver of the pipeline, run without interruption for at most `n` steps. -/
def dlqFrom (e : Event) : Nat → Pipeline.Shared → Pipeline.DlqPc → Db × DlqOutcome
  | 0, sh, _ => (sh.db, .raised)
  | n + 1, sh, pc =>
    match Pipeline.dlqStep sh e pc with
    | .raise => (sh.db, .raised)
    | .goto sh' pc' _ => dlqFrom e n sh' pc'
    | .done sh' pub => (sh'.db, .returned (pub.map fun p => p.2.jobId))

theorem failTaskOf_bound {dr : Drivers} {db : Db} {jobId taskId : Json} {j t : String}
    (hj : dr.bind jobId = some j) (hn : taskId ≠ .null) (ht : dr.bind taskId = some t) :
    failTaskOf dr db jobId taskId = (failTaskAndDecrement db j t).toOption := by
  have hnone : db.tasks.rowcount (fun x => decide (x.taskId = t) &&
      (decide (x.status ≠ .done) && decide (x.status ≠ .failed))) = 0 →
      failTaskAndDecrement db j t = .ok (db, none) := fun h => if_pos h
  unfold failTaskOf
  split
  · exact absurd rfl hn
  · rw [ht, hj]
    dsimp only
    split
    · rename_i h
      rw [hnone h]
      rfl
    · rfl

/-- On the body of an event, `handle_dlq` is the resolver of the pipeline. -/
theorem handleDlq_carries {depth : Nat} {dr : Drivers} {body : List UInt8} {e : Event}
    (h : Carries depth dr body e) (sh : Pipeline.Shared) :
    handleDlq depth dr sh.db body = dlqFrom e 3 sh .resolve := by
  obtain ⟨data, jobId, hl, hj, hbind, hready, htask⟩ := h.fields
  simp only [handleDlq, hl, hj]
  cases ht : e.body.taskId with
  | none =>
    rw [ht] at htask
    simp only [htask, hbind, dlqFrom, Pipeline.dlqStep, ht]
    rfl
  | some t =>
    rw [ht] at htask
    obtain ⟨taskId, hget, hn, hbt⟩ := htask
    have het : e.taskId = t := by rw [Event.taskId, ht, Option.getD_some]
    rw [hget]
    dsimp only
    rw [failTaskOf_bound hbind hn hbt]
    simp only [dlqFrom, Pipeline.dlqStep, ht, het]
    cases hf : failTaskAndDecrement sh.db e.jobId t with
    | error err => rfl
    | ok r =>
      obtain ⟨db', remaining⟩ := r
      by_cases hz : remaining = some 0
      · simp [hz, hready, Except.toOption, Pipeline.Shared.log]
      · simp [hz, Except.toOption, Pipeline.Shared.log]

/-! ## Deliveries -/

namespace Ladder

open Interleave

/-- Every way a copy leaves a queue: to a consumer, or by expiring. -/
def Rung.isDelivery {β : Type} : Rung β → Bool
  | published _ _ => false
  | _ => true

def deliveries {β : Type} (log : List (Rung β)) : Nat := log.countP Rung.isDelivery

/-- A worker whose dead-letter consumer finds the database `world n` at its attempt `n`. -/
def dlqSetup (cfg : Settings) (l : Live) (work : Nat → WorkOutcome) (depth : Nat) (dr : Drivers)
    (world : Nat → Db) (body : List UInt8) : Setup where
  cfg := cfg
  live := l
  work := work
  resolves n := (handleDlq depth dr (world n) body).2.returns

/-- The deliveries of the message are bounded, over every run without a crash. -/
def Bounded {β : Type} (su : Setup) (m : Message β) : Prop :=
  ∃ B, ∀ h s, Story (system su m) Steady (system su m).init h s → deliveries s.shared ≤ B

/-- Some delivery of the message leads to the dead-letter queue. -/
def DeadLettered (su : Setup) : Prop := ∃ k, Falls su su.cfg.maxRetries.toNat k

section Bounds

variable {β : Type} {su : Setup} {m : Message β} {M : Nat} {log : List (Rung β)}
  {cs : List (Copy β)}

theorem deliveries_le (log : List (Rung β)) : deliveries log ≤ log.length := List.countP_le_length

theorem attempts_le (log : List (Rung β)) : log.countP Rung.isAttempted ≤ deliveries log := by
  refine List.countP_mono_left fun r _ hr => ?_
  cases r <;> first | rfl | cases hr

/-- Before the fall there are only rungs, after it only attempts, which go on as long as they
fail. -/
theorem Phase.shape (h : Phase su m M log cs) :
    (log.countP Rung.isDelivered ≤ M + 1 ∧ log.countP Rung.isAttempted = 0 ∧
      log.length ≤ 3 * M + 2) ∨
    ∃ k n, Falls su M k ∧ (∀ i, i + 1 < n → su.resolves i = false) ∧
      log = climb su m k ++ fall m k ++ List.replicate n (.attempted (stamped m (k + 1))) := by
  cases h with
  | arrived hk =>
    left
    simp
    omega
  | retrying hc =>
    have := hc.lt
    left
    simp [Rung.isDelivered, Rung.isAttempted]
    omega
  | delayed hc =>
    have := hc.lt
    left
    simp [Rung.isDelivered, Rung.isAttempted, List.countP_cons]
    omega
  | finished hk =>
    left
    simp [Rung.isDelivered, Rung.isAttempted]
    omega
  | falling hf =>
    have := hf.le
    left
    simp [Rung.isDelivered, Rung.isAttempted]
    omega
  | dead hf hn => exact .inr ⟨_, _, hf, fun i hi => hn i (by omega), rfl⟩
  | resolving hf hn => exact .inr ⟨_, _, hf, fun i hi => hn i (by omega), rfl⟩
  | resolved hf hn => exact .inr ⟨_, _, hf, fun i hi => hn i (by omega), rfl⟩

theorem Phase.delivered_le (h : Phase su m M log cs) : log.countP Rung.isDelivered ≤ M + 1 := by
  rcases h.shape with ⟨hd, _⟩ | ⟨k, n, hf, _, rfl⟩
  · exact hd
  · have := hf.le
    simp [fall, Rung.isDelivered, List.countP_cons, List.countP_replicate]
    omega

/-- Beyond the ladder there are only attempts. -/
theorem Phase.length_le (h : Phase su m M log cs) :
    log.length ≤ 3 * M + 2 + log.countP Rung.isAttempted := by
  rcases h.shape with ⟨_, _, hl⟩ | ⟨k, n, hf, _, rfl⟩
  · omega
  · have := hf.le
    simp [fall, Rung.isAttempted, List.countP_replicate]
    omega

theorem Phase.attempts (h : Phase su m M log cs) :
    log.countP Rung.isAttempted = 0 ∨
      (∃ k, Falls su M k) ∧ ∀ i, i + 1 < log.countP Rung.isAttempted → su.resolves i = false := by
  rcases h.shape with ⟨_, h0, _⟩ | ⟨k, n, hf, hn, rfl⟩
  · exact .inl h0
  · refine .inr ⟨⟨k, hf⟩, ?_⟩
    simpa [fall, List.countP_replicate, Rung.isAttempted] using hn

theorem Falls.not_retries {k : Nat} (h : Falls su M k) : ¬ Retries su.cfg M k (su.work k) := by
  rintro ⟨hw, hlt, _⟩
  rcases h.falls.1 with h | h
  · rw [hw] at h
    cases h
  · omega

/-- A message that falls and is never resolved stays under way. -/
theorem Phase.busy_of_falls {k : Nat} (h : Phase su m M log cs) (hf : Falls su M k)
    (hno : ∀ n, su.resolves n = false) : ∃ c, cs = [c] := by
  cases h with
  | @finished k' hk hc hr hd =>
    exfalso
    rcases Nat.lt_trichotomy k' k with hlt | rfl | hgt
    · exact hr (hf.climbs k' hlt)
    · exact hd hf.falls
    · exact hf.not_retries (hc k hgt)
  | resolved _ _ hr =>
    rw [hno] at hr
    cases hr
  | arrived => exact ⟨_, rfl⟩
  | retrying => exact ⟨_, rfl⟩
  | delayed => exact ⟨_, rfl⟩
  | falling => exact ⟨_, rfl⟩
  | dead => exact ⟨_, rfl⟩
  | resolving => exact ⟨_, rfl⟩

/-- **Without end**: dead-lettered and never resolved, it is delivered any number of times. -/
theorem unbounded_of_falls {k : Nat} (hm : m.headers.lookup headerRetryCount = none)
    (hf : Falls su su.cfg.maxRetries.toNat k) (hno : ∀ n, su.resolves n = false) :
    ¬ Bounded su m := by
  rintro ⟨B, hB⟩
  obtain ⟨h, s, ht, hlen⟩ : ∃ h s, Story (system su m) Steady (system su m).init h s ∧
      h.length = 4 * su.cfg.maxRetries.toNat + 3 + 2 * (B + 1) := by
    refine Story.endless (fun {h s} ht => ?_) _
    have hph := steady_phase hm rfl ht
    obtain ⟨c, hc⟩ := hph.busy_of_falls hf hno
    obtain ⟨hmem, hgo⟩ := steady_enabled hph hc
    obtain ⟨⟨log', outs⟩, hact⟩ := Option.isSome_iff_exists.mp hgo
    exact ⟨c, hmem, .go, log', outs, hact, fun _ h => by cases h⟩
  -- so many steps close or open so many deliveries, and the ladder accounts for few of them
  have hph := steady_phase hm rfl ht
  have hw := steady_weight ht
  have h1 := hph.delivered_le
  have h2 := hph.length_le
  have h3 := attempts_le s.shared
  have h4 := hB h s ht
  unfold weight at hw
  omega

theorem bounded_of_attempts {A : Nat} (hm : m.headers.lookup headerRetryCount = none)
    (hA : ∀ h s, Story (system su m) Steady (system su m).init h s →
      s.shared.countP Rung.isAttempted ≤ A) : Bounded su m := by
  refine ⟨3 * su.cfg.maxRetries.toNat + 2 + A, fun h s ht => ?_⟩
  have h1 := deliveries_le s.shared
  have h2 := (steady_phase hm rfl ht).length_le
  have h3 := hA h s ht
  omega

theorem bounded_iff (hm : m.headers.lookup headerRetryCount = none) :
    Bounded su m ↔ ¬ DeadLettered su ∨ ∃ n, su.resolves n = true := by
  constructor
  · intro hb
    by_contra hcon
    obtain ⟨⟨k, hf⟩, hno⟩ : DeadLettered su ∧ ∀ n, su.resolves n = false := by
      simpa [not_or] using hcon
    exact unbounded_of_falls hm hf hno hb
  · rintro (hno | ⟨n, hn⟩)
    · refine bounded_of_attempts (A := 0) hm fun h s ht => ?_
      rcases (steady_phase hm rfl ht).attempts with h0 | ⟨hf, _⟩
      · exact h0.le
      · exact absurd hf hno
    · refine bounded_of_attempts (A := n + 1) hm fun h s ht => ?_
      rcases (steady_phase hm rfl ht).attempts with h0 | ⟨_, hfail⟩
      · omega
      · by_contra hlt
        have := hfail n (by omega)
        rw [hn] at this
        cases this

end Bounds

/-- A body published to a live queue is delivered there at most `MAX_RETRIES + 1` times. Its
deliveries on all queues are bounded exactly when it is never dead-lettered, or some attempt of the
dead-letter consumer finds the body resolvable in the database as it then is. -/
theorem deliveries_bounded_iff (cfg : Settings) (l : Live) (work : Nat → WorkOutcome) (depth : Nat)
    (dr : Drivers) (world : Nat → Db) (body : List UInt8) :
    (∀ h s, Story (system (dlqSetup cfg l work depth dr world body) (publishMessage body)) Steady
        (system (dlqSetup cfg l work depth dr world body) (publishMessage body)).init h s →
      s.shared.countP Rung.isDelivered ≤ cfg.maxRetries.toNat + 1) ∧
    (Bounded (dlqSetup cfg l work depth dr world body) (publishMessage body) ↔
      ¬ DeadLettered (dlqSetup cfg l work depth dr world body) ∨
        ∃ n, Resolvable depth dr (world n) body) := by
  refine ⟨fun h s ht => (steady_phase rfl rfl ht).delivered_le, ?_⟩
  rw [bounded_iff rfl]
  simp only [dlqSetup, handleDlq_returns_iff]

/-- Texts go through as they are, anything else raises. -/
def textOnly : Drivers where
  bind
    | .str s => some (String.ofList (s.map Char.ofNat))
    | _ => none
  stitchReady
    | .str s => some (String.ofList (s.map Char.ofNat))
    | _ => none

/-- The body `x` is no JSON: `do_work` raises at its validation every time, which is no poison, and
`handle_dlq` raises at every attempt. -/
theorem noJson_unbounded :
    ¬ Bounded (dlqSetup {} .tts (fun _ => .raised false) 1000 textOnly (fun _ => Db.empty) [0x78])
      (publishMessage [0x78]) := by
  refine unbounded_of_falls (k := 3) rfl ⟨by decide, ?_, .inr ⟨rfl, rfl⟩, by decide⟩ ?_
  · intro j hj
    exact ⟨rfl, hj, 1, [4, 16], by decide⟩
  · intro n
    have hload : loads 1000 [0x78] = none := by
      have : (loads 1000 [0x78]).isNone = true := by decide
      exact Option.isNone_iff_eq_none.mp this
    simp [dlqSetup, handleDlq, hload, DlqOutcome.returns]

end Ladder
end AudioEngine
