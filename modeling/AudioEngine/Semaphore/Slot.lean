import AudioEngine.Semaphore.Model

/-!
# AudioEngine.Semaphore.Slot

Leaving `async with sem.slot(owner)`, with the heartbeat task that `acquire` has started.

The heartbeat is an asyncio task of its own. It sleeps and renews until the first `SET` that
raises; that exception ends the task and stays in it. `release` pops the task, cancels it and awaits
it. For a sleeping task the await raises `CancelledError`, which is suppressed. For a task that has
ended the cancel does nothing and the await raises the exception that ended it, before the two
commands that give the token back.

So the token comes back exactly when no renewal has raised (`slot_returns_token_iff`), however the
body ends. In the terms of the semaphore's model a client with a failed heartbeat leaves like one
that crashes (`exitSlot_client`).
-/

namespace AudioEngine
namespace Semaphore

open Interleave

/-- What a Redis command may raise. -/
inductive RedisError where
  | connection
  | timeout
  | response (message : String)
deriving DecidableEq, Repr

/-- The heartbeat task of a token. -/
inductive Heartbeat where
  | sleeping
  /-- ended by an exception -/
  | failed (e : RedisError)
deriving DecidableEq, Repr

/-- The reply to the `SET … XX` of a renewal, whether or not there was a lease to renew. -/
inductive Reply where
  | ok
  | raised (e : RedisError)
deriving DecidableEq, Repr

/-- What happens while the body of the `async with` runs. -/
inductive Event where
  | renewal (reply : Reply)
  /-- someone else leaves Redis in the state `r` -/
  | elsewhere (r : Redis)

/-- Redis, and the dictionary `_heartbeats` of this process. -/
structure Process where
  redis : Redis
  heartbeats : String → Option Heartbeat

/-- How the body of the `async with`, or the statement itself, ends. -/
inductive Outcome where
  | returned
  | raised (exception : String)
  | cancelled
  /-- a Redis command of `release`, or the heartbeat, raised -/
  | redis (e : RedisError)
deriving DecidableEq, Repr

inductive Command where
  | delLease (token : String)
  | rpush (token : String)
deriving DecidableEq, Repr

/-- The end of `acquire`: the task is created. -/
def Process.beat (p : Process) (token : String) : Process :=
  { p with heartbeats := Function.update p.heartbeats token (some .sleeping) }

/-- One round of `_heartbeat(token, owner)`, or a change by someone else. A task that has ended
renews no more. -/
def Process.event (token owner : String) (p : Process) : Event → Process
  | .elsewhere r => { p with redis := r }
  | .renewal reply =>
    match p.heartbeats token with
    | some .sleeping =>
      match reply with
      | .ok => { p with redis := setXx p.redis token owner }
      | .raised e => { p with heartbeats := Function.update p.heartbeats token (some (.failed e)) }
    | _ => p

/-- The process when the body is left. -/
def Process.held (p : Process) (token owner : String) (events : List Event) : Process :=
  events.foldl (Process.event token owner) (p.beat token)

/-- `cancel()` and the `await` with `CancelledError` suppressed. -/
def Heartbeat.stop : Heartbeat → Option RedisError
  | .sleeping => none
  | .failed e => some e

/-- `release(token)` while Redis answers, with the commands it sent and what it raised. -/
def Process.release (p : Process) (token : String) : Process × List Command × Option RedisError :=
  let popped := { p with heartbeats := Function.update p.heartbeats token none }
  match (p.heartbeats token).bind Heartbeat.stop with
  | some e => (popped, [], some e)
  | none =>
    let cleared := delLease p.redis token
    ({ popped with redis := { cleared with slots := cleared.slots ++ [token] } },
      [.delLease token, .rpush token], none)

/-- The `finally` of `slot`. An exception of `release` replaces the outcome of the body. -/
def Process.exitSlot (p : Process) (token : Option String) (body : Outcome) :
    Process × List Command × Outcome :=
  match token with
  | none => (p, [], body)
  | some token =>
    match p.release token with
    | (p', sent, none) => (p', sent, body)
    | (p', sent, some e) => (p', sent, .redis e)

section Exit

variable {p : Process} {token owner : String} {events : List Event}

/-- A renewal among the events raised. -/
def Raised (events : List Event) : Prop := ∃ e, .renewal (.raised e) ∈ events

/-- A task that has ended stays so. -/
theorem heartbeat_ended {q : Process} {e : RedisError} (hq : q.heartbeats token = some (.failed e)) :
    (events.foldl (Process.event token owner) q).heartbeats token = some (.failed e) := by
  induction events generalizing q with
  | nil => exact hq
  | cons ev rest ih =>
    refine ih ?_
    cases ev with
    | elsewhere r => exact hq
    | renewal reply => simp [Process.event, hq]

/-- A sleeping task sleeps on until a renewal raises. -/
theorem heartbeat_fold {q : Process} (hq : q.heartbeats token = some .sleeping) :
    (¬ Raised events ∧
      (events.foldl (Process.event token owner) q).heartbeats token = some .sleeping) ∨
    (Raised events ∧ ∃ e,
      (events.foldl (Process.event token owner) q).heartbeats token = some (.failed e)) := by
  induction events generalizing q with
  | nil => exact .inl ⟨by simp [Raised], hq⟩
  | cons ev rest ih =>
    rw [List.foldl_cons]
    cases ev with
    | elsewhere r =>
      rcases ih (q := q.event token owner (.elsewhere r)) hq with ⟨hr, hh⟩ | ⟨⟨e, hr⟩, hh⟩
      · exact .inl ⟨by simpa [Raised] using hr, hh⟩
      · exact .inr ⟨⟨e, by simp [hr]⟩, hh⟩
    | renewal reply =>
      cases reply with
      | ok =>
        have hnext : (q.event token owner (.renewal .ok)).heartbeats token = some .sleeping := by
          simp [Process.event, hq]
        rcases ih hnext with ⟨hr, hh⟩ | ⟨⟨e, hr⟩, hh⟩
        · exact .inl ⟨by simpa [Raised] using hr, hh⟩
        · exact .inr ⟨⟨e, by simp [hr]⟩, hh⟩
      | raised e =>
        have hnext : (q.event token owner (.renewal (.raised e))).heartbeats token =
            some (.failed e) := by
          simp [Process.event, hq]
        exact .inr ⟨⟨e, by simp⟩, e, heartbeat_ended hnext⟩

theorem held_heartbeat (p : Process) (token owner : String) (events : List Event) :
    (¬ Raised events ∧ (p.held token owner events).heartbeats token = some .sleeping) ∨
    (Raised events ∧ ∃ e, (p.held token owner events).heartbeats token = some (.failed e)) :=
  heartbeat_fold (by simp [Process.beat])

theorem exitSlot_sleeping {body : Outcome} (h : p.heartbeats token = some .sleeping) :
    p.exitSlot (some token) body =
      ({ redis := { delLease p.redis token with slots := p.redis.slots ++ [token] },
         heartbeats := Function.update p.heartbeats token none },
        [.delLease token, .rpush token], body) := by
  simp [Process.exitSlot, Process.release, h, Heartbeat.stop, delLease]

theorem exitSlot_failed {body : Outcome} {e : RedisError}
    (h : p.heartbeats token = some (.failed e)) :
    p.exitSlot (some token) body =
      ({ p with heartbeats := Function.update p.heartbeats token none }, [], .redis e) := by
  simp [Process.exitSlot, Process.release, h, Heartbeat.stop]

end Exit

/-- Leaving the `async with` is, for the client of the model, its two commands, or a crash. -/
theorem exitSlot_client (p : Process) (token owner : String) (events : List Event)
    (body : Outcome) :
    (¬ Raised events ∧ ∃ cleared,
      (Client.clearing token).act (p.held token owner events).redis .go =
        some (cleared, [.client (.pushing token)]) ∧
      (Client.pushing token).act cleared .go =
        some (((p.held token owner events).exitSlot (some token) body).1.redis, [])) ∨
    (Raised events ∧
      (Client.holding owner token).act (p.held token owner events).redis .crash =
        some (((p.held token owner events).exitSlot (some token) body).1.redis, [])) := by
  rcases held_heartbeat p token owner events with ⟨hr, hh⟩ | ⟨hr, e, hh⟩
  · rw [exitSlot_sleeping hh]
    exact .inl ⟨hr, _, rfl, rfl⟩
  · rw [exitSlot_failed hh]
    exact .inr ⟨hr, rfl⟩

/-- However the body ends, leaving it deletes the lease and appends the token exactly once, if and
only if no renewal of the heartbeat has raised. -/
theorem slot_returns_token_iff (p : Process) (token owner : String) (events : List Event)
    (body : Outcome) :
    (((p.held token owner events).exitSlot (some token) body).2.1 =
        [.delLease token, .rpush token] ∧
      ((p.held token owner events).exitSlot (some token) body).1.redis.lease token = none ∧
      ((p.held token owner events).exitSlot (some token) body).1.redis.slots =
        (p.held token owner events).redis.slots ++ [token]) ↔
    ∀ e, .renewal (.raised e) ∉ events := by
  have hnot : (∀ e, .renewal (.raised e) ∉ events) ↔ ¬ Raised events := by simp [Raised]
  rw [hnot]
  rcases held_heartbeat p token owner events with ⟨hr, hh⟩ | ⟨hr, e, hh⟩
  · rw [exitSlot_sleeping hh]
    simp [hr, delLease]
  · rw [exitSlot_failed hh]
    simp [hr]

/-- Redis does not answer one renewal and is back when the body returns. -/
theorem slot_keeps_token :
    ∃ (p : Process) (events : List Event),
      (p.held "0" "w" events).redis.lease "0" = some "w" ∧
      (p.held "0" "w" events).redis.slots = ["1", "2"] ∧
      ((p.held "0" "w" events).exitSlot (some "0") .returned).2 = ([], .redis .connection) ∧
      ((p.held "0" "w" events).exitSlot (some "0") .returned).1.redis.slots = ["1", "2"] ∧
      ((p.held "0" "w" events).exitSlot (some "0") .returned).1.redis.lease "0" = some "w" := by
  refine ⟨⟨{ slots := ["1", "2"], lease := fun t => if t = "0" then some "w" else none },
    fun _ => none⟩, [.renewal .ok, .renewal (.raised .connection)], ?_⟩
  decide

end Semaphore
end AudioEngine
