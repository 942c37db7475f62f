import AudioEngine.Infra.Broker

/-!
# AudioEngine.Worker.AckLast

One delivery through `ack_last` (`worker/handlers/_base.py`).

The wrapper runs inside `message.process(ignore_processed=True)`: leaving that block by an
exception while the message is not acked rejects it without requeue, and a live queue has no
dead-letter exchange, so the broker discards it. `ackLast` lists what reaches the broker, in
order, for every way a delivery can go; a crash of the worker keeps a first part of that list, and
a message that is neither acked nor rejected goes back to its queue.

`ack_last_keeps_iff` says when the original is dropped only after its work was done or a copy of it
was published. The `except Exception` branch covers the exceptions of `do_work`, but nothing covers
the branch itself, and a cancellation is no `Exception`: an undecodable retry header, an empty
tuple of delays, a failing publish and a cancellation each lose the message.
-/

namespace AudioEngine

variable {β : Type}

/-- How `do_work` ends. -/
inductive WorkOutcome where
  | returned
  | raised (isPoison : Bool)
  | cancelled
deriving DecidableEq, Repr

/-- How the publish of the copy ends. Confirms are on, so a publish that returns has reached the
broker; one that raises (or is cancelled) may have. -/
inductive PublishOutcome where
  | confirmed
  | raised (reached : Bool)
deriving DecidableEq, Repr

/-- Everything the environment decides about one delivery. An ack may fail; the reject of the
leaving context manager reaches the broker unless the channel is gone; the worker may crash after
any number of broker operations. -/
structure Delivery where
  work : WorkOutcome
  publish : PublishOutcome := .confirmed
  ackRaises : Bool := false
  rejectReaches : Bool := true
  crashAfter : Option Nat := none
deriving DecidableEq, Repr

inductive BrokerOp (β : Type) where
  | publish (q : QueueName) (m : Message β)
  | ack
  | reject
deriving DecidableEq, Repr

/-- Leaving `message.process` by an exception: `reject(requeue=False)`. -/
def leaveByException (d : Delivery) : List (BrokerOp β) := if d.rejectReaches then [.reject] else []

/-- `await message.ack()`, then the end of the block. -/
def ackAndLeave (d : Delivery) : List (BrokerOp β) :=
  if d.ackRaises then leaveByException d else [.ack]

/-- `max_retries = 0 if is_poison(exc) else MAX_RETRIES`. -/
def effectiveMaxRetries (cfg : Settings) (isPoison : Bool) : Int :=
  if isPoison then 0 else cfg.maxRetries

/-- The broker operations of a delivery that is not cut by a crash. -/
def ackLastOps (cfg : Settings) (l : Live) (m : Message β) (d : Delivery) : List (BrokerOp β) :=
  match d.work with
  | .returned => ackAndLeave d
  | .cancelled => leaveByException d
  | .raised isPoison =>
    match cfg.retryDelays with
    | none => leaveByException d
    | some ds =>
      match routeRetryOrDlq m l (effectiveMaxRetries cfg isPoison) ds with
      | .error _ => leaveByException d
      | .ok (q, copy) =>
        match d.publish with
        | .confirmed => .publish q copy :: ackAndLeave d
        | .raised true => .publish q copy :: leaveByException d
        | .raised false => leaveByException d

def ackLast (cfg : Settings) (l : Live) (m : Message β) (d : Delivery) : List (BrokerOp β) :=
  match d.crashAfter with
  | none => ackLastOps cfg l m d
  | some k => (ackLastOps cfg l m d).take k

/-- The broker no longer holds the original: it was acked, or rejected from a queue without
dead-letter exchange. -/
def Dropped (ops : List (BrokerOp β)) : Prop := .ack ∈ ops ∨ .reject ∈ ops

/-- A copy with the same body is on a delay queue or on the dead-letter queue. -/
def CopyPublished (m : Message β) (ops : List (BrokerOp β)) : Prop :=
  ∃ q copy, .publish q copy ∈ ops ∧ copy.body = m.body ∧ q.isLive = false

/-- The message is dropped only with its work done or a copy published. -/
def Kept (m : Message β) (d : Delivery) (ops : List (BrokerOp β)) : Prop :=
  Dropped ops → d.work = .returned ∨ CopyPublished m ops

/-- The routing of a failed delivery gets to its publish: the delays parse, the retry header
decodes, and the message is due for the dead-letter queue or there is a delay to subscript. -/
def Routable (cfg : Settings) (m : Message β) (isPoison : Bool) : Prop :=
  ∃ ds c, cfg.retryDelays = some ds ∧ getRetryCount m = .ok c ∧
    (effectiveMaxRetries cfg isPoison ≤ c ∨ (ds ≠ [] ∧ -(ds.length : Int) ≤ c))

/-- The reject of a delivery that goes wrong never reaches the broker. -/
def RejectLost (d : Delivery) : Prop := d.rejectReaches = false ∨ d.crashAfter = some 0

section

variable {cfg : Settings} {l : Live} {m : Message β} {d : Delivery}

theorem not_kept_reject (hw : d.work ≠ .returned) : ¬ Kept m d [.reject] := by
  intro h
  rcases h (.inr (by simp)) with h | ⟨q, copy, h, _⟩
  · exact hw h
  · simp at h

theorem mem_leaveByException {op : BrokerOp β} :
    op ∈ leaveByException d ↔ d.rejectReaches = true ∧ op = .reject := by
  unfold leaveByException
  split
  · rename_i h; simp [h]
  · rename_i h; simp [h]

/-- When the routing gets to a publish that reaches the broker, that copy comes first. -/
theorem ackLastOps_copy (l : Live) {p : Bool} (hw : d.work = .raised p) (hr : Routable cfg m p)
    (hp : d.publish ≠ .raised false) :
    ∃ q copy rest, ackLastOps cfg l m d = .publish q copy :: rest ∧ copy.body = m.body ∧
      q.isLive = false := by
  obtain ⟨ds, c, hds, hc, hdue⟩ := hr
  obtain ⟨q, copy, hroute⟩ :=
    (routeRetryOrDlq_defined_iff m l (effectiveMaxRetries cfg p) ds).mpr ⟨c, hc, hdue⟩
  obtain ⟨hbody, hq⟩ := routeRetryOrDlq_copy hroute
  have hlive : q.isLive = false := by
    rcases hq with rfl | ⟨d, rfl⟩ <;> rfl
  simp only [ackLastOps, hw, hds, hroute]
  cases hpub : d.publish with
  | confirmed => exact ⟨q, copy, _, rfl, hbody, hlive⟩
  | raised reached =>
    cases reached with
    | true => exact ⟨q, copy, _, rfl, hbody, hlive⟩
    | false => exact absurd hpub hp

/-- Otherwise a delivery whose work did not return only leaves the context manager. -/
theorem ackLastOps_leave (cfg : Settings) (l : Live) (m : Message β) (hw : d.work ≠ .returned)
    (hno : ∀ p, d.work = .raised p → Routable cfg m p → d.publish = .raised false) :
    ackLastOps cfg l m d = leaveByException d := by
  unfold ackLastOps
  split
  · rename_i h; exact absurd h hw
  · rfl
  · rename_i p h
    split
    · rfl
    · rename_i ds hds
      split
      · rfl
      · rename_i q copy hroute
        obtain ⟨c, hc, hdue⟩ := (routeRetryOrDlq_defined_iff m l _ ds).mp ⟨q, copy, hroute⟩
        rw [hno p h ⟨ds, c, hds, hc, hdue⟩]

theorem mem_ackLast_head {op : BrokerOp β} {rest : List (BrokerOp β)}
    (h : ackLastOps cfg l m d = op :: rest) (hd : ackLast cfg l m d ≠ []) :
    op ∈ ackLast cfg l m d := by
  unfold ackLast at hd ⊢
  split
  · rw [h]; simp
  · rename_i k hk
    rw [hk] at hd
    cases k with
    | zero => simp at hd
    | succ k => rw [h]; simp

/-- `ack_last` keeps a delivery exactly when the work returned, or it failed with a message that
can be routed and whose copy reached the broker, or the reject never reached the broker. -/
theorem ack_last_keeps_iff (cfg : Settings) (l : Live) (m : Message β) (d : Delivery) :
    Kept m d (ackLast cfg l m d) ↔
      d.work = .returned ∨
      (∃ p, d.work = .raised p ∧ Routable cfg m p ∧ d.publish ≠ .raised false) ∨
      RejectLost d := by
  by_cases hw : d.work = .returned
  · exact iff_of_true (fun _ => .inl hw) (.inl hw)
  by_cases hcopy : ∃ p, d.work = .raised p ∧ Routable cfg m p ∧ d.publish ≠ .raised false
  · refine iff_of_true ?_ (.inr (.inl hcopy))
    obtain ⟨p, hp, hr, hpub⟩ := hcopy
    obtain ⟨q, copy, rest, hops, hbody, hq⟩ := ackLastOps_copy l hp hr hpub
    intro hdrop
    refine .inr ⟨q, copy, mem_ackLast_head hops ?_, hbody, hq⟩
    rintro hnil
    rw [hnil] at hdrop
    rcases hdrop with h | h <;> cases h
  · have hops := ackLastOps_leave cfg l m hw (by
      intro p hp hr
      by_contra hne
      exact hcopy ⟨p, hp, hr, hne⟩)
    have hmem : ∀ op : BrokerOp β, op ∈ ackLast cfg l m d → op = .reject := by
      intro op hop
      unfold ackLast at hop
      split at hop
      · rw [hops] at hop; exact (mem_leaveByException.mp hop).2
      · rw [hops] at hop; exact (mem_leaveByException.mp (List.mem_of_mem_take hop)).2
    have hdrop : Dropped (ackLast cfg l m d) ↔ ¬ RejectLost d := by
      have : Dropped (ackLast cfg l m d) ↔ (.reject : BrokerOp β) ∈ ackLast cfg l m d := by
        refine ⟨?_, .inr⟩
        rintro (h | h)
        · cases hmem _ h
        · exact h
      rw [this]
      unfold ackLast RejectLost
      cases hk : d.crashAfter with
      | none => simp [hops, mem_leaveByException]
      | some k =>
        cases k with
        | zero => simp
        | succ k =>
          rw [hops]
          unfold leaveByException
          cases d.rejectReaches <;> simp
    constructor
    · intro hk
      refine .inr (.inr ?_)
      by_contra hrl
      rcases hk (hdrop.mpr hrl) with h | ⟨q, copy, hpub, _⟩
      · exact hw h
      · cases hmem _ hpub
    · rintro (h | h | h)
      · exact absurd h hw
      · exact absurd h hcopy
      · exact fun hd => absurd h (hdrop.mp hd)

end

/-- Two ways to lose a fresh message on `q.tts`. Under `RETRY_DELAYS=""`, `do_work` raises and the
subscript into the empty tuple raises inside the handler; under the default settings, `do_work` is
cancelled. Both leave the context manager by an exception. -/
theorem ack_last_loses :
    ¬ Kept (publishMessage "body") { work := .raised false }
      (ackLast { retryDelaysRaw := "" } .tts (publishMessage "body") { work := .raised false }) ∧
    ¬ Kept (publishMessage "body") { work := .cancelled }
      (ackLast {} .tts (publishMessage "body") { work := .cancelled }) := by
  have hops : ackLast { retryDelaysRaw := "" } .tts (publishMessage "body")
      { work := .raised false } = [.reject] := by decide
  refine ⟨?_, not_kept_reject (by simp)⟩
  rw [hops]
  exact not_kept_reject (by simp)

end AudioEngine
