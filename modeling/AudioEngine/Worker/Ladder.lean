import AudioEngine.Lib.Story
import AudioEngine.Worker.AckLast

/-!
# AudioEngine.Worker.Ladder

The way of one message through live queue, delay queues and dead-letter queue.

The broker holds copies of the message; a copy waits on a queue, or was delivered and is not yet
acked. Queues are strings here, as in the source: what a routing key leads to, how long a message
stays and where it goes when it expires is read off the topology that `declare_full` declared
(`boundTo`), not off the constructor that `route_retry_or_dlq` named the queue by. An expiring
message keeps its headers.

How `do_work` and the dead-letter consumer end is given for every delivery; the scheduler chooses
whose turn it is and when a worker crashes. `ops_cases` gives the three ways of one delivery.
-/

namespace AudioEngine
namespace Ladder

open Interleave

/-! ## The system -/

/-- What the broker sees of a message, oldest first. -/
inductive Rung (β : Type) where
  /-- from the live queue to `ack_last` -/
  | delivered (m : Message β)
  | published (key : String) (m : Message β)
  /-- from the delay queue `key` to where it dead-letters -/
  | expired (key : String) (m : Message β)
  /-- from the dead-letter queue to its consumer -/
  | attempted (m : Message β)
deriving DecidableEq, Repr

variable {β : Type}

def Rung.isDelivered : Rung β → Bool
  | delivered _ => true
  | _ => false

def Rung.isAttempted : Rung β → Bool
  | attempted _ => true
  | _ => false

/-- The configuration of the worker, and how its handlers end at each delivery: `do_work` by the
number of deliveries before, `handle_dlq` (whether it returns) by the number of attempts before. -/
structure Setup where
  cfg : Settings
  live : Live
  work : Nat → WorkOutcome
  resolves : Nat → Bool

/-- The delays that `bootstrap` gives to `declare_full`. -/
def Setup.declared (su : Setup) : List Int := su.cfg.retryDelays.getD []

inductive Stage (β : Type) where
  | waiting
  /-- delivered to `ack_last`, with these operations to come -/
  | closing (ops : List (BrokerOp β))
  /-- delivered to the dead-letter consumer -/
  | resolving (returns : Bool)
deriving DecidableEq, Repr

structure Copy (β : Type) where
  queue : String
  msg : Message β
  stage : Stage β := .waiting
deriving DecidableEq, Repr

inductive Choice where
  | go
  | crash
deriving DecidableEq, Repr

/-- A direct exchange puts a message on the queue bound under its routing key. -/
def enqueue (su : Setup) (key : String) (m : Message β) : List (Copy β) :=
  match boundTo su.declared key with
  | none => []
  | some q => [{ queue := q.queue.name, msg := m }]

/-- A copy on a queue: the live queue and the dead-letter queue have a consumer, and a queue with a
time to live dead-letters what nobody consumes. -/
def Copy.leave (su : Setup) (log : List (Rung β)) (c : Copy β) :
    Option (List (Rung β) × List (Copy β)) :=
  if c.queue = su.live.name then
    let w := su.work (log.countP Rung.isDelivered)
    some (log ++ [.delivered c.msg],
      [{ c with stage := .closing (ackLastOps su.cfg su.live c.msg { work := w }) }])
  else if c.queue = QueueName.dlq.name then
    let returns := su.resolves (log.countP Rung.isAttempted)
    some (log ++ [.attempted c.msg], [{ c with stage := .resolving returns }])
  else
    match boundTo su.declared c.queue with
    | some ⟨_, some _, some _, some key⟩ =>
      some (log ++ [.expired c.queue c.msg], enqueue su key.name c.msg)
    | _ => none

/-- One step of a copy. A reject drops it, because `declareFull` gives a live queue no dead-letter
exchange; a crash puts what is not acked back on its queue. -/
def Copy.act (su : Setup) (log : List (Rung β)) (c : Copy β) (i : Choice) :
    Option (List (Rung β) × List (Copy β)) :=
  match c.stage, i with
  | .waiting, .go => c.leave su log
  | .closing (.publish q m :: ops), .go =>
    some (log ++ [.published q.name m],
      enqueue su q.name m ++ [{ c with stage := .closing ops }])
  | .closing (.ack :: _), .go => some (log, [])
  | .closing (.reject :: _), .go => some (log, [])
  | .closing [], .go => none
  -- `message.ack()`, or `message.nack(requeue=True)`
  | .resolving true, .go => some (log, [])
  | .resolving false, .go => some (log, [{ c with stage := .waiting }])
  | .waiting, .crash => none
  | _, .crash => some (log, [{ c with stage := .waiting }])

/-- The message `m` is published to the live queue; there is no other environment. -/
def system (su : Setup) (m : Message β) : System (List (Rung β)) (Copy β) Choice Empty where
  init := ⟨[], enqueue su su.live.name m⟩
  act := Copy.act su
  env _ e := nomatch e

/-- No worker crashes. -/
def Steady (_ : Pool (List (Rung β)) (Copy β)) (mv : Move (Copy β) Choice Empty)
    (_ : List (Rung β)) : Prop := ∀ c, mv ≠ .act c .crash

/-! ## The ladder -/

/-- The copy of `m` that carries the count `k`. -/
def stamped (m : Message β) : Nat → Message β
  | 0 => m
  | k + 1 =>
    { body := m.body
      contentType := some ((m.contentType.filter (· ≠ "")).getD "application/json")
      headers := [(headerRetryCount, .int (k + 1))] }

/-- The delay after failure `k + 1`. -/
def delayAfter (ds : List Int) (k : Nat) : Int := (ds[min k (ds.length - 1)]?).getD 0

/-- The delay queue after failure `k + 1`. -/
def Setup.delayKey (su : Setup) (k : Nat) : String :=
  (QueueName.retry su.live (delayAfter su.declared k)).name

/-- The first `k` failures: delivered, published to the delay queue, back on the live queue. -/
def climb (su : Setup) (m : Message β) (k : Nat) : List (Rung β) :=
  (List.range k).flatMap fun j =>
    [.delivered (stamped m j), .published (su.delayKey j) (stamped m (j + 1)),
      .expired (su.delayKey j) (stamped m (j + 1))]

/-- The failure that leads to the dead-letter queue, after `k` others. -/
def fall (m : Message β) (k : Nat) : List (Rung β) :=
  [.delivered (stamped m k), .published QueueName.dlq.name (stamped m (k + 1))]

/-- The failure of a delivery that carries the count `k` leads to a delay queue. -/
def Retries (cfg : Settings) (maxRetries k : Nat) (w : WorkOutcome) : Prop :=
  w = .raised false ∧ k < maxRetries ∧ ∃ d ds, cfg.retryDelays = some (d :: ds)

/-- It leads to the dead-letter queue. -/
def DeadLetters (cfg : Settings) (maxRetries k : Nat) (w : WorkOutcome) : Prop :=
  (w = .raised true ∨ w = .raised false ∧ k = maxRetries) ∧ cfg.retryDelays ≠ none

/-! ## One delivery -/

section Delivery

variable {su : Setup} {m : Message β} {M k : Nat} {w : WorkOutcome}

@[simp] theorem stamped_body (m : Message β) (k : Nat) : (stamped m k).body = m.body := by
  cases k <;> rfl

theorem getRetryCount_stamped (hm : m.headers.lookup headerRetryCount = none) (k : Nat) :
    getRetryCount (stamped m k) = .ok k := by
  cases k with
  | zero => simp [getRetryCount, stamped, hm]
  | succ k => simp [getRetryCount, stamped]

/-- A content type that was filled in stays as it is. -/
theorem contentType_stamped (m : Message β) (k : Nat) :
    some (((stamped m k).contentType.filter (· ≠ "")).getD "application/json") =
      (stamped m (k + 1)).contentType := by
  cases k with
  | zero => rfl
  | succ k =>
    simp only [stamped]
    cases hc : m.contentType.filter (· ≠ "") with
    | none => rfl
    | some x =>
      have hx := (Option.filter_eq_some_iff.mp hc).2
      simp [Option.filter, of_decide_eq_true hx]

theorem subscript_delay {ds : List Int} (hds : ds ≠ []) (k : Nat) :
    subscript ds (min ((k : Int) + 1 - 1) (ds.length - 1)) = some (delayAfter ds k) := by
  have hlen : 0 < ds.length := List.length_pos_iff.mpr hds
  have hi : min ((k : Int) + 1 - 1) (ds.length - 1) = ((min k (ds.length - 1) : Nat) : Int) := by
    omega
  rw [hi, subscript, if_pos (by omega), Int.toNat_natCast, delayAfter,
    List.getElem?_eq_getElem (by omega), Option.getD_some]

/-- `route_retry_or_dlq` on the copy with the count `k`. -/
theorem route_stamped (hm : m.headers.lookup headerRetryCount = none) (l : Live) (maxRetries : Int)
    (ds : List Int) (k : Nat) :
    routeRetryOrDlq (stamped m k) l maxRetries ds =
      if maxRetries < k + 1 then .ok (.dlq, stamped m (k + 1))
      else if ds = [] then .error .indexError
      else .ok (.retry l (delayAfter ds k), stamped m (k + 1)) := by
  have hcopy : (⟨(stamped m k).body,
      some (((stamped m k).contentType.filter (· ≠ "")).getD "application/json"),
      [(headerRetryCount, .int ((k : Int) + 1))]⟩ : Message β) = stamped m (k + 1) := by
    rw [contentType_stamped, stamped_body]
    rfl
  simp only [routeRetryOrDlq, getRetryCount_stamped hm, hcopy, gt_iff_lt]
  by_cases hlt : maxRetries < k + 1
  · rw [if_pos hlt, if_pos hlt]
  rw [if_neg hlt, if_neg hlt]
  by_cases hds : ds = []
  · subst hds
    rw [if_pos rfl]
    have : subscript ([] : List Int) (min ((k : Int) + 1 - 1) (([] : List Int).length - 1)) = none := by
      rw [← Option.not_isSome_iff_eq_none, subscript_min_isSome]
      simp
    rw [this]
  · rw [if_neg hds, subscript_delay hds]

/-- The three ways of a delivery that nothing interrupts. -/
theorem ops_cases (hm : m.headers.lookup headerRetryCount = none)
    (hM : su.cfg.maxRetries.toNat = M) (hk : k ≤ M) (w : WorkOutcome) :
    (Retries su.cfg M k w ∧
      ackLastOps su.cfg su.live (stamped m k) { work := w } =
        [.publish (.retry su.live (delayAfter su.declared k)) (stamped m (k + 1)), .ack]) ∨
    (DeadLetters su.cfg M k w ∧
      ackLastOps su.cfg su.live (stamped m k) { work := w } =
        [.publish .dlq (stamped m (k + 1)), .ack]) ∨
    (¬ Retries su.cfg M k w ∧ ¬ DeadLetters su.cfg M k w ∧
      (ackLastOps su.cfg su.live (stamped m k) { work := w } = [.ack] ∨
        ackLastOps su.cfg su.live (stamped m k) { work := w } = [.reject])) := by
  cases w with
  | returned => exact .inr (.inr ⟨by simp [Retries], by simp [DeadLetters], .inl rfl⟩)
  | cancelled => exact .inr (.inr ⟨by simp [Retries], by simp [DeadLetters], .inr rfl⟩)
  | raised p =>
    cases hds : su.cfg.retryDelays with
    | none =>
      exact .inr (.inr ⟨by simp [Retries, hds], by simp [DeadLetters, hds],
        .inr (by simp [ackLastOps, hds, leaveByException])⟩)
    | some ds =>
      have hdecl : su.declared = ds := by rw [Setup.declared, hds, Option.getD_some]
      have hroute := route_stamped hm su.live (effectiveMaxRetries su.cfg p) ds k
      simp only [ackLastOps, hds, hdecl]
      by_cases hdl : effectiveMaxRetries su.cfg p < k + 1
      · rw [if_pos hdl] at hroute
        refine .inr (.inl ⟨⟨?_, by simp [hds]⟩, by rw [hroute]; rfl⟩)
        cases p with
        | true => exact .inl rfl
        | false =>
          rw [effectiveMaxRetries, if_neg (by simp)] at hdl
          exact .inr ⟨rfl, by omega⟩
      rw [if_neg hdl] at hroute
      -- not due for the dead-letter queue: the error is no poison and the count is below the limit
      cases p with
      | true => exact absurd (by rw [effectiveMaxRetries, if_pos rfl]; omega) hdl
      | false =>
        rw [effectiveMaxRetries, if_neg (by simp)] at hdl
        have hlt : k < M := by omega
        cases ds with
        | nil =>
          refine .inr (.inr ⟨by simp [Retries, hds], ?_, .inr (by rw [hroute]; rfl)⟩)
          rintro ⟨h | h, _⟩
          · cases h
          · omega
        | cons d ds => exact .inl ⟨⟨rfl, hlt, d, ds, hds⟩, by rw [hroute]; rfl⟩

/-! ## What the queue names lead to -/

@[simp] theorem enqueue_live (su : Setup) (m : Message β) :
    enqueue su su.live.name m = [{ queue := su.live.name, msg := m }] := by
  have h : boundTo su.declared su.live.name = some { queue := .live su.live } :=
    boundTo_name (declareFull_liveQueue su.declared su.live)
  rw [enqueue, h]
  rfl

@[simp] theorem enqueue_dlq (su : Setup) (m : Message β) :
    enqueue su QueueName.dlq.name m = [{ queue := QueueName.dlq.name, msg := m }] := by
  have h : boundTo su.declared QueueName.dlq.name = some { queue := .dlq } :=
    boundTo_name (declareFull_dlq su.declared)
  rw [enqueue, h]

theorem delayAfter_mem {ds : List Int} (hds : ds ≠ []) (k : Nat) : delayAfter ds k ∈ ds := by
  have hlen : 0 < ds.length := List.length_pos_iff.mpr hds
  rw [delayAfter, List.getElem?_eq_getElem (by omega), Option.getD_some]
  exact List.getElem_mem _

theorem boundTo_delayKey (hds : su.declared ≠ []) (k : Nat) :
    boundTo su.declared (su.delayKey k) =
      some (delayQueue su.live (delayAfter su.declared k)) :=
  boundTo_name (declareFull_delayQueue su.live (delayAfter_mem hds k))

theorem enqueue_delayKey (hds : su.declared ≠ []) (k : Nat) (m : Message β) :
    enqueue su (su.delayKey k) m = [{ queue := su.delayKey k, msg := m }] := by
  rw [enqueue, boundTo_delayKey hds]
  rfl

theorem dlq_ne_live (l : Live) : QueueName.dlq.name ≠ l.name :=
  fun h => nomatch QueueName.name_inj.mp (show QueueName.dlq.name = (QueueName.live l).name from h)

theorem delayKey_ne_live (su : Setup) (k : Nat) : su.delayKey k ≠ su.live.name :=
  fun h => nomatch QueueName.name_inj.mp (show _ = (QueueName.live su.live).name from h)

theorem delayKey_ne_dlq (su : Setup) (k : Nat) : su.delayKey k ≠ QueueName.dlq.name :=
  fun h => nomatch QueueName.name_inj.mp h

/-! ## One step, by where the copy is -/

theorem act_live (su : Setup) (log : List (Rung β)) (m : Message β) :
    Copy.act su log ⟨su.live.name, m, .waiting⟩ .go =
      some (log ++ [.delivered m], [⟨su.live.name, m, .closing (ackLastOps su.cfg su.live m
        { work := su.work (log.countP Rung.isDelivered) })⟩]) :=
  if_pos rfl

theorem act_dlq (su : Setup) (log : List (Rung β)) (m : Message β) :
    Copy.act su log ⟨QueueName.dlq.name, m, .waiting⟩ .go =
      some (log ++ [.attempted m], [⟨QueueName.dlq.name, m,
        .resolving (su.resolves (log.countP Rung.isAttempted))⟩]) :=
  (if_neg (dlq_ne_live su.live)).trans (if_pos rfl)

theorem act_delayKey (hds : su.declared ≠ []) (log : List (Rung β)) (m : Message β) (k : Nat) :
    Copy.act su log ⟨su.delayKey k, m, .waiting⟩ .go =
      some (log ++ [.expired (su.delayKey k) m], [⟨su.live.name, m, .waiting⟩]) := by
  show Copy.leave su log _ = _
  rw [Copy.leave, if_neg (delayKey_ne_live su k), if_neg (delayKey_ne_dlq su k),
    boundTo_delayKey hds]
  simp only [delayQueue, QueueName.name, enqueue_live]

theorem act_publish (su : Setup) (log : List (Rung β)) (key : String) (m m' : Message β)
    (q : QueueName) (ops : List (BrokerOp β)) :
    Copy.act su log ⟨key, m, .closing (.publish q m' :: ops)⟩ .go =
      some (log ++ [.published q.name m'], enqueue su q.name m' ++ [⟨key, m, .closing ops⟩]) :=
  rfl

theorem act_resolving (su : Setup) (log : List (Rung β)) (key : String) (m : Message β)
    (returns : Bool) :
    Copy.act su log ⟨key, m, .resolving returns⟩ .go =
      some (log, if returns then [] else [⟨key, m, .waiting⟩]) := by
  cases returns <;> rfl

theorem act_crash {c : Copy β} {log log' : List (Rung β)} {outs : List (Copy β)}
    (h : c.act su log .crash = some (log', outs)) : outs = [{ c with stage := .waiting }] := by
  obtain ⟨key, m, st⟩ := c
  cases st with
  | waiting => cases h
  | closing ops =>
    rcases ops with _ | ⟨_ | _ | _, _⟩ <;> cases h <;> rfl
  | resolving returns => cases returns <;> cases h <;> rfl

end Delivery

end Ladder
end AudioEngine
