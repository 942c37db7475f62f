import AudioEngine.Engine.Limit
import AudioEngine.Semaphore.Clock

/-!
# AudioEngine.Engine.Clock

The whole engine with the clock of the leases.

A handler inside the slot renews its lease every `beat` while it is in the body, and has its `DEL` to
send when the body has ended, by its end or by an exception. `vendor_limit`: what the engine has to
keep for its limit on synthesis are deadlines of its own, not leases in Redis.
-/

namespace AudioEngine
namespace Engine

open Interleave

/-- The token whose lease the agent has recorded and not yet deleted. -/
def Agent.recorded (a : Agent) : Option String := a.sem.bind Semaphore.Agent.recorded

/-- The token the agent has without a lease. -/
def Agent.inTransit (a : Agent) : Option String := a.sem.bind Semaphore.Agent.inTransit

/-- The step as one of the semaphore. -/
def Choice.sem : Choice → Semaphore.Choice
  | .step .go => .go
  | .step _ => .crash
  | .renew => .renew
  | .startReseed => .startReseed
  | .startReap => .startReap

/-- `put_bytes` leaves the sleep of the heartbeat alone. -/
def Agent.timer (i : Choice) : Agent → Timer
  | .slot _ _ (.leaving _) => if i = .renew then .sleep else .keep
  | a => a.sem.elim .keep Semaphore.Agent.timer

def Env.expires : Env → Option String
  | .expire token => some token
  | _ => none

def leasing : Leasing Shared Agent Choice Env String where
  sets sh a i := a.sem.bind fun x => x.sets sh.sem i.sem
  expires := Env.expires
  awaits i := decide (i = .renew)
  timer _ i := Agent.timer i
  relies := Agent.recorded
  closing a := a.sem.elim false Semaphore.Agent.closing

/-- The engine with `n` tokens and leases of `3 * beat`. -/
def clocked (cfg : Settings) (n beat : Nat) :
    System (Clock Shared String) (Stamped Agent) Choice (Tick Env) :=
  (system cfg n).clocked leasing beat

/-- `Kept`, and nobody inside the slot is `late` behind. -/
abbrev OnTime (n late : Nat) := Timed leasing (fun s m _ => Kept n s m) late

abbrev ClockState := Pool (Clock Shared String) (Stamped Agent)

/-- A recorded lease is there, and a token in transit has none. -/
structure Leases (s : State) : Prop where
  recorded : ∀ a ∈ s.agents, ∀ t, a.recorded = some t → s.shared.sem.lease t ≠ none
  fresh : ∀ a ∈ s.agents, ∀ t, a.inTransit = some t → s.shared.sem.lease t = none

section Discipline

variable {cfg : Settings} {n : Nat} {s : State} {sh sh' : Shared} {a b : Agent} {i : Choice}
  {outs : List Agent} {t : String}

theorem story_leases {hist : List (Taken Shared Agent Choice)}
    (ht : Story (system cfg n) (fun s m _ => Kept n s m) (system cfg n).init hist s) : Leases s := by
  obtain ⟨_, u, hu, hs⟩ := story_sem ht
  have hshared : u.shared = s.shared.sem := hs.shared
  constructor
  · intro a ha t hrec
    obtain ⟨x, hx, hxrec⟩ := Option.bind_eq_some_iff.mp hrec
    rw [← hshared]
    exact (Semaphore.leased_exclusive hu).2 x (hs.mem ha hx) t hxrec
  · intro a ha t htr
    obtain ⟨x, hx, hxtr⟩ := Option.bind_eq_some_iff.mp htr
    by_contra hne
    rw [← hshared] at hne
    exact ((Semaphore.leased_fresh hu).free t hne).2 x (hs.mem ha hx) hxtr

/-- Inside the slot. -/
theorem slot_recorded {c : Pipeline.Copy} {text : String} {pc : SlotPc}
    (h : slotAct sh c text pc i = some (sh', outs)) (hb : b ∈ outs) (hrec : b.recorded = some t)
    (hnone : (Agent.slot c text pc).inTransit = some t → sh.sem.lease t = none)
    (hsome : (Agent.slot c text pc).recorded = some t → sh.sem.lease t ≠ none) :
    (leasing.sets sh (.slot c text pc) i = some t ∧ b.timer i = .sleep) ∨
      (Agent.slot c text pc).recorded = some t ∧
        (b.timer i = .keep ∧ leasing.closing b = leasing.closing (.slot c text pc) ∨
          b.timer i = .atOnce ∧ leasing.closing (.slot c text pc) = false ∧
            leasing.closing b = true) := by
  have hplain : ∀ exc, outs = [exitSlot c text exc] → False := by
    rintro exc rfl
    obtain rfl := List.mem_singleton.mp hb
    obtain ⟨x, hx⟩ := exitSlot_plain c text exc
    rw [hx] at hrec
    cases hrec
  cases i with
  | step i =>
    cases i with
    | go =>
      cases pc with
      | waiting =>
        simp only [slotAct] at h
        split at h
        · cases h
        · cases h
          obtain rfl := List.mem_singleton.mp hb
          cases hrec
      | popped token =>
        cases h
        obtain rfl := List.mem_singleton.mp hb
        obtain rfl : token = t := Option.some.inj hrec
        exact .inl ⟨by simp [leasing, Agent.sem, SlotPc.client, Choice.sem, Semaphore.Agent.sets,
          hnone rfl], rfl⟩
      | body token =>
        cases h
        obtain rfl := List.mem_singleton.mp hb
        exact .inr ⟨hrec, .inl ⟨rfl, rfl⟩⟩
      | leaving token =>
        cases h
        obtain rfl := List.mem_singleton.mp hb
        exact .inr ⟨hrec, .inr ⟨rfl, rfl, rfl⟩⟩
      | clearing token exc =>
        cases h
        obtain rfl := List.mem_singleton.mp hb
        cases hrec
      | pushing token exc => cases h; exact (hplain _ rfl).elim
    | fail isPoison =>
      cases pc with
      | body token =>
        cases h
        obtain rfl := List.mem_singleton.mp hb
        exact .inr ⟨hrec, .inr ⟨rfl, rfl, rfl⟩⟩
      | _ => cases h; exact (hplain _ rfl).elim
    | cancel =>
      cases pc with
      | body token =>
        cases h
        obtain rfl := List.mem_singleton.mp hb
        exact .inr ⟨hrec, .inr ⟨rfl, rfl, rfl⟩⟩
      | _ => cases h; exact (hplain _ rfl).elim
    | crash =>
      have houts : outs = [.plain (.copy { c with stage := .ready })] := by
        cases pc <;> · cases h; rfl
      rw [houts, List.mem_singleton] at hb
      subst hb
      cases hrec
    | duplicate => cases pc <;> cases h
  | renew =>
    cases pc with
    | body token =>
      cases h
      obtain rfl := List.mem_singleton.mp hb
      have hlease := hsome hrec
      obtain rfl : token = t := Option.some.inj hrec
      exact .inl ⟨by simp [leasing, Agent.sem, SlotPc.client, Choice.sem, Semaphore.Agent.sets,
        Option.isSome_iff_ne_none, hlease], rfl⟩
    | leaving token =>
      cases h
      obtain rfl := List.mem_singleton.mp hb
      have hlease := hsome hrec
      obtain rfl : token = t := Option.some.inj hrec
      exact .inl ⟨by simp [leasing, Agent.sem, SlotPc.client, Choice.sem, Semaphore.Agent.sets,
        Option.isSome_iff_ne_none, hlease], rfl⟩
    | _ => cases h
  | startReseed => cases pc <;> cases h
  | startReap => cases pc <;> cases h

theorem maintain_sem {k : Semaphore.Choice} (h : i.maintain = some k) : i.sem = k := by
  cases i with
  | step i =>
    cases i with
    | go => exact Option.some.inj h
    | crash => exact Option.some.inj h
    | _ => cases h
  | renew => cases h
  | _ => exact Option.some.inj h

theorem disciplined (cfg : Settings) (n : Nat) : Disciplined (system cfg n) leasing Leases := by
  constructor
  · simp [system]
  · intro s a i sh outs b t hleases ha hact hb hrec
    have hact : act cfg n s.shared a i = some (sh, outs) := hact
    cases a with
    | plain a =>
      cases i with
      | step i =>
        rcases plainAct_cases hact with ⟨c, text, _, _, _, rfl⟩ | ⟨_, d, l, _, _, rfl⟩
        · obtain rfl := List.mem_singleton.mp hb
          cases hrec
        · obtain ⟨x, _, rfl⟩ := List.mem_map.mp hb
          cases hrec
      | _ => cases hact
    | slot c text pc =>
      exact slot_recorded hact hb hrec (hleases.fresh _ ha t) (hleases.recorded _ ha t)
    | maintenance a =>
      obtain ⟨k, r, l, hk, hstep, rfl, rfl⟩ := maintenance_cases hact
      obtain ⟨y, hy, rfl⟩ := List.mem_map.mp hb
      have hcases := Semaphore.recorded_out hstep hy hrec (hleases.fresh _ ha t)
        (hleases.recorded _ ha t)
      rw [← maintain_sem hk] at hcases
      refine hcases.imp_right ?_
      rintro ⟨hrel, hclose⟩
      exact ⟨hrel, .inr hclose⟩
  · intro sh e sh' outs henv b hb
    cases e with
    | data e =>
      obtain ⟨⟨d, l⟩, _, hr⟩ := Option.map_eq_some_iff.mp henv
      cases hr
      obtain ⟨x, _, rfl⟩ := List.mem_map.mp hb
      rfl
    | boot => cases henv; obtain rfl := List.mem_singleton.mp hb; rfl
    | expire t => cases henv; cases hb

theorem kept_expire {e : Env} (he : e.expires = some t) (h : ∀ b ∈ s.agents, b.recorded ≠ some t) :
    Kept n s (.env e) := by
  cases e with
  | expire t' =>
    obtain rfl := Option.some.inj he
    intro x hx hrec
    obtain ⟨b, hb, hbx⟩ := List.mem_filterMap.mp hx
    exact h b hb (Option.bind_eq_some_iff.mpr ⟨x, hbx, hrec⟩)
  | _ => cases he

end Discipline

/-- At most `n` deliveries are at their vendor call at any time, whatever the messages, jobs and
workers, while nobody inside the slot is a third of the lease behind with its renewal or its `DEL`,
the reaper returns no token in transit and Redis is not wiped. Such a run is one in which no lease of
a live holder expires. -/
theorem vendor_limit {cfg : Settings} {n beat late : Nat} (hlate : late < beat)
    {hist : List (Taken (Clock Shared String) (Stamped Agent) Choice)} {s : ClockState}
    (ht : Story (clocked cfg n beat) (OnTime n late) (clocked cfg n beat).init hist s) :
    (∃ hist', Story (system cfg n) (fun s m _ => Kept n s m) (system cfg n).init hist'
      (timeless s)) ∧
    (∀ a ∈ s.agents, ∀ t, a.agent.recorded = some t →
      s.shared.state.sem.lease t ≠ none ∧ s.shared.now < s.shared.expiry t) ∧
    s.agents.countP (fun a => a.agent.synthesises) ≤ n := by
  obtain ⟨⟨hist', hstory⟩, _, harmed⟩ := Story.unclock hlate (disciplined cfg n) story_leases
    (fun he h => kept_expire he h) ht
  refine ⟨⟨hist', hstory⟩, fun a ha t hrec => ⟨?_, (harmed a ha).unexpired hlate hrec⟩, ?_⟩
  · exact (story_leases hstory).recorded a.agent (List.mem_map_of_mem ha) t hrec
  · have hle := kept_limit hstory
    rwa [timeless, List.countP_map] at hle

/-- Whether nothing expires, Redis is not wiped and the reaper is patient. -/
def kept (n : Nat) (s : State) : Moving → Bool
  | .act (.maintenance a) i => i.maintain.all fun k => Semaphore.patient n (semOf s) (.act a k)
  | .env (.expire _) => false
  | .env (.data .wipeRedis) => false
  | _ => true

theorem kept_sound {n : Nat} {s : State} {m : Moving} (h : kept n s m = true) : Kept n s m := by
  unfold kept at h
  split at h
  · intro k hk
    rw [hk] at h
    exact Semaphore.patient_sound h
  · cases h
  · cases h
  · rename_i hact hexpire hwipe
    unfold Kept
    split
    · exact absurd rfl (hact _ _)
    · exact absurd rfl (hexpire _)
    · exact absurd rfl hwipe
    · trivial

/-- The condition of a run on time, as a check. -/
def onTime (n late : Nat) (s : ClockState) : Move (Stamped Agent) Choice (Tick Env) → Bool
  | .act a i => kept n (timeless s) (.act a.agent i)
  | .env .tick => s.agents.all fun a =>
      a.agent.recorded.isNone || decide (s.shared.now < a.wake + late)
  | .env (.env e) => kept n (timeless s) (.env e)

theorem onTime_sound {n late : Nat} {s : ClockState} {m : Move (Stamped Agent) Choice (Tick Env)}
    {c : Clock Shared String} (h : onTime n late s m = true) : OnTime n late s m c := by
  cases m with
  | act a i => exact kept_sound h
  | env e =>
    cases e with
    | tick =>
      intro a ha hrec
      have hall := List.all_eq_true.mp h a ha
      have hrec : a.agent.recorded ≠ none := hrec
      simpa [hrec] using hall
    | env e => exact fun _ => kept_sound h

/-- The engine's own steps, under the clock. -/
def timed : Action Choice Env → Action Choice (Tick Env)
  | .act k i => .act k i
  | .env e => .env (.env e)

set_option maxRecDepth 4000 in
/-- One token and leases of 30 seconds: the first block is at its vendor call for 25 seconds and
renews its lease twice, the second waits. -/
theorem vendor_limit_one :
    ∃ hist s, Story (clocked {} 1 10) (OnTime 1 5) (clocked {} 1 10).init hist s ∧
      s.shared.now = 25 ∧ s.agents.countP (fun a => a.agent.synthesises) = 1 ∧
      s.agents.countP (fun a => a.agent.sem.isSome) = 3 ∧
      s.agents.countP (fun a => a.agent.synthesises) ≤ 1 := by
  obtain ⟨hist, s, ht, hnow, hone, husers⟩ :
      ∃ hist s, Story (clocked {} 1 10) (OnTime 1 5) (clocked {} 1 10).init hist s ∧
        s.shared.now = 25 ∧ s.agents.countP (fun a => a.agent.synthesises) = 1 ∧
        s.agents.countP (fun a => a.agent.sem.isSome) = 3 :=
    System.exists_story (d := fun s m _ => onTime 1 5 s m) (fun _ _ _ h => onTime_sound h)
      (List.flatten [(twoBlocks (List.replicate 22 (0, .go))).map timed, ticks 10, [.act 0 .renew],
        .act 1 (.step .go) :: List.replicate 7 (.act 0 (.step .go)), ticks 10, [.act 1 .renew],
        ticks 5]) (by decide +kernel)
  have hlate : 5 < 10 := by omega
  exact ⟨hist, s, ht, hnow, hone, husers, (vendor_limit hlate ht).2.2⟩

end Engine
end AudioEngine
