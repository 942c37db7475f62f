import AudioEngine.Lib.PyStr
import AudioEngine.Lib.Story
import Mathlib.Data.List.Nodup
import Mathlib.Data.List.Perm.Basic

/-!
# AudioEngine.Semaphore.Model

The leased semaphore of `core/infra/redis.py`, one Redis command or script at a time.

The pool is the list `tts:slots` with one token per slot. `acquire` is a `BLPOP` and then a `SET NX`
of the lease, `release` a `DEL` of the lease and then an `RPUSH`. Between the two commands of either
the token is only in the memory of a worker. A token has a lease from the `SET NX` to the `DEL`, or
until it expires. The heartbeat renews leases with `SET XX`, which never brings one back.

Workers boot with `ensure_slots` and then start passes of the re-seeder and of the reaper at any
time. A pass of the reaper runs `_RECLAIM_LUA` once per token. A crash (or an exception of a Redis
call) ends an agent where it is, with the token it has. Redis may drop a lease that expires, or all
keys.

Lease times are left out: a lease may expire at any moment, and the results say when it must not.
-/

namespace AudioEngine
namespace Semaphore

open Interleave

/-- `tts:slots`, `tts:lease:<token>` and the marker `tts:slots:init`. -/
structure Redis where
  slots : List String := []
  lease : String → Option String := fun _ => none
  init : Bool := false

/-- The tokens `"0"`, …, `"n-1"`. -/
def tokens (n : Nat) : List String := (List.range n).map toString

/-- `_ENSURE_SLOTS_LUA`. -/
def ensureSlots (n : Nat) (r : Redis) : Redis :=
  if r.init then r else { r with slots := tokens n, init := true }

/-- `_RECLAIM_LUA`, with its result. -/
def reclaim (r : Redis) (token : String) : Redis × Nat :=
  if (r.lease token).isSome then (r, 0)
  else if token ∈ r.slots then (r, 0)
  else ({ r with slots := r.slots ++ [token] }, 1)

/-- `SET tts:lease:<token> <owner> NX`. -/
def setNx (r : Redis) (token owner : String) : Redis :=
  if (r.lease token).isSome then r
  else { r with lease := Function.update r.lease token (some owner) }

/-- `SET tts:lease:<token> <owner> XX`. -/
def setXx (r : Redis) (token owner : String) : Redis :=
  if (r.lease token).isSome then { r with lease := Function.update r.lease token (some owner) }
  else r

/-- `DEL tts:lease:<token>`, or its expiry. -/
def delLease (r : Redis) (token : String) : Redis :=
  { r with lease := Function.update r.lease token none }

/-! ## The agents -/

/-- A use of `slot(owner)`. -/
inductive Client where
  /-- before the `BLPOP` -/
  | waiting (owner : String)
  /-- between the `BLPOP` and the `SET NX` -/
  | popped (owner token : String)
  /-- in the body of the `async with`, with its heartbeat -/
  | holding (owner token : String)
  /-- the heartbeat is cancelled, before the `DEL` -/
  | clearing (token : String)
  /-- between the `DEL` and the `RPUSH` -/
  | pushing (token : String)
deriving DecidableEq, Repr

inductive Agent where
  /-- a worker in its bootstrap, before `ensure_slots` -/
  | boot
  | worker
  /-- a pass of `run_reseeder` -/
  | reseeder
  /-- a pass of `run_reaper`, before the script for the token `i` -/
  | reaper (i reclaimed : Nat)
  | client (c : Client)
deriving DecidableEq, Repr

inductive Choice where
  | go
  | renew
  | timeout
  | crash
  | startSlot (owner : String)
  | startReseed
  | startReap
deriving DecidableEq, Repr

def Client.act (r : Redis) : Client → Choice → Option (Redis × List Agent)
  | .waiting owner, .go =>
    match r.slots with
    | [] => none
    | token :: rest => some ({ r with slots := rest }, [.client (.popped owner token)])
  | .waiting _, .timeout => some (r, [])
  | .popped owner token, .go => some (setNx r token owner, [.client (.holding owner token)])
  | .holding owner token, .renew => some (setXx r token owner, [.client (.holding owner token)])
  | .holding _ token, .go => some (r, [.client (.clearing token)])
  | .clearing token, .go => some (delLease r token, [.client (.pushing token)])
  | .pushing token, .go => some ({ r with slots := r.slots ++ [token] }, [])
  | _, .crash => some (r, [])
  | _, _ => none

def act (n : Nat) (r : Redis) : Agent → Choice → Option (Redis × List Agent)
  | .client c, i => c.act r i
  | .boot, .go => some (ensureSlots n r, [.worker])
  | .worker, .startSlot owner => some (r, [.worker, .client (.waiting owner)])
  | .worker, .startReseed => some (r, [.worker, .reseeder])
  | .worker, .startReap => some (r, [.worker, .reaper 0 0])
  | .reseeder, .go => some (ensureSlots n r, [])
  | .reaper i reclaimed, .go =>
    if i < n then
      let r' := reclaim r (toString i)
      some (r'.1, [.reaper (i + 1) (reclaimed + r'.2)])
    else some (r, [])
  | _, .crash => some (r, [])
  | _, _ => none

inductive Env where
  | boot
  /-- a use of the semaphore by someone who has not seeded it -/
  | slot (owner : String)
  | expire (token : String)
  | wipe
deriving DecidableEq, Repr

def env (r : Redis) : Env → Option (Redis × List Agent)
  | .boot => some (r, [.boot])
  | .slot owner => some (r, [.client (.waiting owner)])
  | .expire token => some (delLease r token, [])
  | .wipe => some ({}, [])

abbrev State := Pool Redis Agent

abbrev Moving := Move Agent Choice Env

/-- Redis is empty and nobody is there. `n` is the size of the pool. -/
def system (n : Nat) : System Redis Agent Choice Env where
  init := ⟨{}, []⟩
  act := act n
  env := env

/-! ## Tokens -/

def Client.token : Client → Option String
  | .waiting _ => none
  | .popped _ token => some token
  | .holding _ token => some token
  | .clearing token => some token
  | .pushing token => some token

/-- The token the agent has in memory. -/
def Agent.token : Agent → Option String
  | .client c => c.token
  | _ => none

/-- The token is held, not in the middle of `acquire` or `release`. -/
def Agent.holds : Agent → Bool
  | .client (.holding _ _) => true
  | _ => false

/-- The tokens in the memory of live workers. -/
def live (agents : List Agent) : List String := agents.filterMap Agent.token

/-- The step is a call of `ensure_slots`. -/
def Agent.ensures : Agent → Choice → Bool
  | .boot, .go => true
  | .reseeder, .go => true
  | _, _ => false

/-- The token that goes down with the agent in this step. -/
def Agent.loses (a : Agent) : Choice → Option String
  | .crash => a.token
  | _ => none

/-- The token that the reaper returns to the pool in this step. -/
def Agent.reclaims (n : Nat) (r : Redis) (a : Agent) (i : Choice) : Option String :=
  match a, i with
  | .reaper k _, .go =>
    if k < n ∧ r.lease (toString k) = none ∧ toString k ∉ r.slots then some (toString k) else none
  | _, _ => none

section Tokens

variable {n : Nat} {agents outs rest : List Agent} {a : Agent} {t : String}

theorem mem_tokens : t ∈ tokens n ↔ ∃ i < n, toString i = t := by simp [tokens]

theorem nodup_tokens (n : Nat) : (tokens n).Nodup := by
  refine List.nodup_range.map ?_
  intro i j h
  exact PyStr.toString_nat_inj.mp h

theorem length_tokens (n : Nat) : (tokens n).length = n := by simp [tokens]

theorem live_append : live (outs ++ rest) = live outs ++ live rest := List.filterMap_append

theorem live_perm (hp : agents.Perm (a :: rest)) :
    (live agents).Perm (a.token.toList ++ live rest) := by
  have h := hp.filterMap Agent.token
  rw [List.filterMap_cons] at h
  cases ha : a.token with
  | none => rw [ha] at h; exact h
  | some t => rw [ha] at h; exact h

theorem mem_live : t ∈ live agents ↔ ∃ a ∈ agents, a.token = some t := by simp [live]

/-- Holders have tokens. -/
theorem holders_le_live (agents : List Agent) :
    agents.countP Agent.holds ≤ (live agents).length := by
  rw [live, List.length_filterMap_eq_countP]
  refine List.countP_mono_left fun a _ ha => ?_
  unfold Agent.holds at ha
  split at ha
  · rfl
  · cases ha

end Tokens

end Semaphore
end AudioEngine
