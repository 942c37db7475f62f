import AudioEngine.Lib.Lease
import AudioEngine.Semaphore.Healing

/-!
# AudioEngine.Semaphore.Clock

The leased semaphore with a clock.

`SET … EX lease_ttl` lets a lease run out `3 * beat` after the command, and the heartbeat sleeps
`beat`, a third of it, before every renewal. With the end of the body the `DEL` is due. A lease does
not expire before its time, and nobody renews the lease of a crashed holder.

`heartbeat_keeps_limit`: while no live holder is a whole `beat` behind with its renewal or its
`DEL`, a run is one of the model without a clock in which no lease of a live holder expires
(`Leased`), so what holds along those holds here. A third of the lease is too late
(`late_heartbeat_two_holders`).
-/

namespace AudioEngine
namespace Semaphore

open Interleave

/-- The token whose lease the step sets. -/
def Agent.sets (r : Redis) : Agent → Choice → Option String
  | .client (.popped _ token), .go => if (r.lease token).isSome then none else some token
  | .client (.holding _ token), .renew => if (r.lease token).isSome then some token else none
  | _, _ => none

/-- The heartbeat begins to sleep after the `SET NX` and after every renewal. -/
def Agent.timer : Agent → Timer
  | .client (.holding _ _) => .sleep
  | .client (.clearing _) => .atOnce
  | _ => .keep

def Agent.closing : Agent → Bool
  | .client (.clearing _) => true
  | _ => false

def Env.expires : Env → Option String
  | .expire token => some token
  | _ => none

def leasing : Leasing Redis Agent Choice Env String where
  sets r a i := a.sets r i
  expires := Env.expires
  awaits i := decide (i = .renew)
  timer _ _ := Agent.timer
  relies := Agent.recorded
  closing := Agent.closing

/-- A pool of `n` tokens with leases of `3 * beat`. -/
def clocked (n beat : Nat) : System (Clock Redis String) (Stamped Agent) Choice (Tick Env) :=
  (system n).clocked leasing beat

/-- Leases of live holders are kept, and the reaper returns no token in transit. -/
def Kept (n : Nat) (s : State) (m : Moving) : Prop := Leased s m ∧ Patient n s m

/-- `Kept`, and nobody who holds a token is `late` behind. -/
abbrev OnTime (n late : Nat) := Timed leasing (fun s m _ => Kept n s m) late

abbrev ClockState := Pool (Clock Redis String) (Stamped Agent)

/-! ## Leases of tokens nobody holds -/

/-- A lease is set under a token that has none. -/
structure Fresh (s : State) : Prop where
  unseeded : s.shared.init = false → ∀ t, s.shared.lease t = none
  free : ∀ t, s.shared.lease t ≠ none → t ∉ s.shared.slots ∧ ∀ b ∈ s.agents, b.inTransit ≠ some t

section Fresh

variable {n : Nat} {r r' : Redis} {a : Agent} {i : Choice} {outs rest : List Agent} {s : State}
  {t : String}

theorem inTransit_token (h : a.inTransit = some t) : a.token = some t := by
  cases a with
  | client c =>
    cases c with
    | popped o t => exact h
    | pushing t => exact h
    | _ => cases h
  | _ => cases h

theorem inTransit_recorded (h : a.inTransit = some t) : a.recorded = none := by
  cases a with
  | client c =>
    cases c with
    | popped o t => rfl
    | pushing t => rfl
    | _ => cases h
  | _ => cases h

/-- Only the `SET NX` brings a lease about. -/
theorem step_lease (h : act n r a i = some (r', outs)) (ht : r'.lease t ≠ none) :
    (∃ b ∈ outs, b.recorded = some t) ∨
      r.lease t ≠ none ∧ (a.recorded = some t → i = .crash ∧ outs = []) := by
  have hworks : Works r a i → (∃ b ∈ outs, b.recorded = some t) ∨
      r.lease t ≠ none ∧ (a.recorded = some t → i = .crash ∧ outs = []) :=
    fun hw => (works_lease hw h ht).imp_right fun hold => ⟨hold.1, fun hrec => absurd hrec hold.2⟩
  cases i with
  | go => exact hworks (.inl rfl)
  | renew => exact hworks (.inr rfl)
  | crash =>
    refine .inr ?_
    cases a with
    | client c => cases c <;> · cases h; exact ⟨ht, fun _ => ⟨rfl, rfl⟩⟩
    | _ => cases h; exact ⟨ht, fun _ => ⟨rfl, rfl⟩⟩
  | timeout =>
    refine .inr ?_
    cases a with
    | client c =>
      cases c with
      | waiting o => cases h; exact ⟨ht, by simp [Agent.recorded]⟩
      | _ => cases h
    | _ => cases h
  | _ =>
    refine .inr ?_
    cases a with
    | worker => cases h; exact ⟨ht, by simp [Agent.recorded]⟩
    | client c => cases c <;> cases h
    | _ => cases h

/-- A token that gets into the pool or into transit was there, or a worker had its lease, or it had
none. -/
theorem Shift.freed (h : Shift n r a i r' outs) (hinit : r.init = true) (hlease : r.lease t ≠ none)
    (hrec : a.recorded = some t → i = .crash ∧ outs = [])
    (ht : t ∈ r'.slots ∨ ∃ b ∈ outs, b.inTransit = some t) :
    t ∈ r.slots ∨ a.inTransit = some t := by
  have hlive : (∃ b ∈ outs, b.inTransit = some t) → t ∈ live outs := by
    rintro ⟨b, hb, htr⟩
    exact mem_live.mpr ⟨b, hb, inTransit_token htr⟩
  cases h with
  | stays hslots _ hout _ _ =>
    rw [hslots] at ht
    refine ht.imp_right fun hb => ?_
    have htok : a.token = some t := by
      have := hlive hb
      rwa [hout, Option.mem_toList] at this
    refine (token_cases htok).resolve_left fun hr => ?_
    obtain ⟨b, hb, _⟩ := hb
    rw [(hrec hr).2] at hb
    cases hb
  | seeds _ hseed => rw [hinit] at hseed; cases hseed
  | @takes t' hslots _ _ hout _ _ =>
    rw [hslots]
    rcases ht with ht | hb
    · exact .inl (List.mem_cons_of_mem _ ht)
    · have := hlive hb
      rw [hout, List.mem_singleton] at this
      exact .inl (by simp [this])
  | @gives t' hslots _ htok hout hloses _ =>
    rcases ht with ht | hb
    · rw [hslots, List.mem_append, List.mem_singleton] at ht
      refine ht.imp_right ?_
      rintro rfl
      refine (token_cases htok).resolve_left fun hr => ?_
      rw [(hrec hr).1] at hloses
      cases htok.symm.trans hloses
    · have := hlive hb
      rw [hout] at this
      cases this
  | loses hslots _ _ hout _ _ =>
    rw [hslots] at ht
    refine ht.imp_right fun hb => ?_
    have := hlive hb
    rw [hout] at this
    cases this
  | @reclaims t' hnone _ _ hslots _ _ hout _ _ =>
    rcases ht with ht | hb
    · rw [hslots, List.mem_append, List.mem_singleton] at ht
      refine .inl (ht.resolve_right ?_)
      rintro rfl
      exact hlease hnone
    · have := hlive hb
      rw [hout] at this
      cases this

theorem Exclusive.unique {slots : List String} {agents : List Agent} {b : Agent}
    (h : Exclusive n slots (live agents)) (ha : a ∈ agents) (hb : b ∈ agents)
    (hat : a.token = some t) (hbt : b.token = some t) : a = b := by
  obtain ⟨l₁, l₂, rfl⟩ := List.append_of_mem ha
  have hp : (l₁ ++ a :: l₂).Perm (a :: (l₁ ++ l₂)) := List.perm_middle
  have hnodup := (live_perm hp).nodup_iff.mp (List.nodup_append.mp h.nodup).2.1
  rw [hat, Option.toList_some, List.singleton_append, List.nodup_cons] at hnodup
  refine ((List.mem_cons.mp (hp.mem_iff.mp hb)).resolve_right fun hb => hnodup.1 ?_).symm
  exact mem_live.mpr ⟨b, hb, hbt⟩

theorem Fresh.step (hf : Fresh s) (hp : s.agents.Perm (a :: rest))
    (ha : act n s.shared a i = some (r', outs)) (hu : Unseeded ⟨r', outs ++ rest⟩)
    (hx : Exclusive n r'.slots (live (outs ++ rest))) : Fresh ⟨r', outs ++ rest⟩ := by
  have hmem : a ∈ s.agents := hp.mem_iff.mpr (by simp)
  have hunseeded : r'.init = false → s.shared.init = false := by
    intro hinit
    cases hb : s.shared.init with
    | false => rfl
    | true => rw [(act_shift ha).init hb] at hinit; cases hinit
  constructor
  · intro hinit t
    by_contra hne
    rcases step_lease ha hne with ⟨b, hb, hrec⟩ | ⟨hold, _⟩
    · have hnone := token_early ((hu hinit).2 b (List.mem_append_left _ hb))
      rw [recorded_token hrec] at hnone
      cases hnone
    · exact hold (hf.unseeded (hunseeded hinit) t)
  · intro t ht
    rcases step_lease ha ht with ⟨b, hb, hrec⟩ | ⟨hold, hrec⟩
    · have hb := List.mem_append_left rest hb
      refine ⟨fun hs => ?_, fun c hc htr => ?_⟩
      · exact List.disjoint_of_nodup_append hx.nodup hs (mem_live.mpr ⟨b, hb, recorded_token hrec⟩)
      · obtain rfl := hx.unique hb hc (recorded_token hrec) (inTransit_token htr)
        rw [inTransit_recorded htr] at hrec
        cases hrec
    · obtain ⟨hslots, htransit⟩ := hf.free t hold
      have hinit : s.shared.init = true := by
        by_contra hne
        exact hold (hf.unseeded (by simpa using hne) t)
      have hfreed : ¬ (t ∈ r'.slots ∨ ∃ b ∈ outs, b.inTransit = some t) := fun h =>
        ((act_shift ha).freed hinit hold hrec h).elim hslots (htransit a hmem)
      refine ⟨fun h => hfreed (.inl h), fun b hb htr => ?_⟩
      rcases List.mem_append.mp hb with hb | hb
      · exact hfreed (.inr ⟨b, hb, htr⟩)
      · exact htransit b (hp.mem_iff.mpr (by simp [hb])) htr

theorem Fresh.env {x : Env} (hf : Fresh s) (henv : env s.shared x = some (r', outs)) :
    Fresh ⟨r', outs ++ s.agents⟩ := by
  cases x with
  | boot =>
    cases henv
    refine ⟨hf.unseeded, fun t ht => ⟨(hf.free t ht).1, fun b hb => ?_⟩⟩
    rcases List.mem_cons.mp hb with rfl | hb
    · simp [Agent.inTransit]
    · exact (hf.free t ht).2 b hb
  | slot o =>
    cases henv
    refine ⟨hf.unseeded, fun t ht => ⟨(hf.free t ht).1, fun b hb => ?_⟩⟩
    rcases List.mem_cons.mp hb with rfl | hb
    · simp [Agent.inTransit]
    · exact (hf.free t ht).2 b hb
  | expire k =>
    cases henv
    have hback : ∀ t, (delLease s.shared k).lease t ≠ none → s.shared.lease t ≠ none := by
      intro t ht hnone
      refine ht ?_
      by_cases hk : t = k
      · simp [delLease, hk]
      · simpa [delLease, hk] using hnone
    refine ⟨fun hinit t => ?_, fun t ht => hf.free t (hback t ht)⟩
    by_contra hne
    exact hback t hne (hf.unseeded hinit t)
  | wipe =>
    cases henv
    exact ⟨fun _ _ => rfl, fun t ht => absurd rfl ht⟩

theorem leased_fresh {hist : List (Taken Redis Agent Choice)}
    (ht : Story (system n) (fun s m _ => Leased s m ∧ Patient n s m) (system n).init hist s) :
    Fresh s := by
  induction ht with
  | start => exact ⟨fun _ _ => rfl, fun t h => absurd rfl h⟩
  | act ht hp ha hd ih =>
    have hnext := Story.act ht hp ha hd
    exact ih.step hp ha (story_unseeded (fun _ _ _ h => h.1.kept) hnext) (leased_exclusive hnext).1
  | env _ henv _ ih => exact ih.env henv

end Fresh

/-! ## With a clock -/

section Discipline

variable {n : Nat} {r : Redis} {i : Choice} {t : String}

/-- Who has a lease after the step has set it now, or ends its heartbeat now. -/
theorem recorded_out {r' : Redis} {x y : Agent} {bs : List Agent}
    (h : act n r x i = some (r', bs)) (hy : y ∈ bs) (hrec : y.recorded = some t)
    (hnone : x.inTransit = some t → r.lease t = none)
    (hsome : x.recorded = some t → r.lease t ≠ none) :
    (x.sets r i = some t ∧ y.timer = .sleep) ∨
      (x.recorded = some t ∧ y.timer = .atOnce ∧ x.closing = false ∧ y.closing = true) := by
  have hother : ∀ z : Agent, bs = [z] → z.recorded = none → False := by
    rintro z rfl hz
    obtain rfl := List.mem_singleton.mp hy
    rw [hz] at hrec
    cases hrec
  have hempty : bs = [] → False := by
    rintro rfl
    cases hy
  cases x with
  | client x =>
    cases x with
    | waiting o =>
      cases i with
      | go =>
        simp only [act, Client.act] at h
        split at h
        · cases h
        · cases h
          exact (hother _ rfl rfl).elim
      | timeout => cases h; exact (hempty rfl).elim
      | crash => cases h; exact (hempty rfl).elim
      | _ => cases h
    | popped o k =>
      cases i with
      | go =>
        cases h
        obtain rfl := List.mem_singleton.mp hy
        obtain rfl := Option.some.inj hrec
        exact .inl ⟨by simp [Agent.sets, hnone rfl], rfl⟩
      | crash => cases h; exact (hempty rfl).elim
      | _ => cases h
    | holding o k =>
      cases i with
      | go =>
        cases h
        obtain rfl := List.mem_singleton.mp hy
        exact .inr ⟨hrec, rfl, rfl, rfl⟩
      | renew =>
        cases h
        obtain rfl := List.mem_singleton.mp hy
        have hlease := hsome hrec
        obtain rfl := Option.some.inj hrec
        exact .inl ⟨by simp [Agent.sets, Option.isSome_iff_ne_none, hlease], rfl⟩
      | crash => cases h; exact (hempty rfl).elim
      | _ => cases h
    | clearing k =>
      cases i with
      | go => cases h; exact (hother _ rfl rfl).elim
      | crash => cases h; exact (hempty rfl).elim
      | _ => cases h
    | pushing k =>
      cases i with
      | go => cases h; exact (hempty rfl).elim
      | crash => cases h; exact (hempty rfl).elim
      | _ => cases h
  | boot =>
    cases i with
    | go => cases h; exact (hother _ rfl rfl).elim
    | crash => cases h; exact (hempty rfl).elim
    | _ => cases h
  | reseeder =>
    cases i with
    | go => cases h; exact (hempty rfl).elim
    | crash => cases h; exact (hempty rfl).elim
    | _ => cases h
  | reaper k k' =>
    cases i with
    | go =>
      simp only [act] at h
      split at h
      · cases h; exact (hother _ rfl rfl).elim
      · cases h; exact (hempty rfl).elim
    | crash => cases h; exact (hempty rfl).elim
    | _ => cases h
  | worker =>
    have hnot : ∀ z ∈ bs, z.recorded = none := by
      cases i with
      | startSlot o => cases h; simp [Agent.recorded]
      | startReseed => cases h; simp [Agent.recorded]
      | startReap => cases h; simp [Agent.recorded]
      | crash => cases h; simp
      | _ => cases h
    rw [hnot y hy] at hrec
    cases hrec

theorem disciplined (n : Nat) :
    Disciplined (system n) leasing fun s => Recorded s ∧ Fresh s := by
  constructor
  · simp [system]
  · rintro s a i sh outs b k ⟨hrecorded, hfresh⟩ ha hact hb hrec
    have hnone : a.inTransit = some k → s.shared.lease k = none := by
      intro htr
      by_contra hne
      exact (hfresh.free k hne).2 a ha htr
    refine (recorded_out hact hb hrec hnone (hrecorded a ha k)).imp_right ?_
    rintro ⟨hrel, hclose⟩
    exact ⟨hrel, .inr hclose⟩
  · intro sh e sh' outs henv b hb
    cases e with
    | boot => cases henv; obtain rfl := List.mem_singleton.mp hb; rfl
    | slot o => cases henv; obtain rfl := List.mem_singleton.mp hb; rfl
    | _ => cases henv; cases hb

theorem kept_expire {u : State} {e : Env} {k : String} (he : e.expires = some k)
    (h : ∀ b ∈ u.agents, b.recorded ≠ some k) : Kept n u (.env e) := by
  cases e with
  | expire t =>
    obtain rfl := Option.some.inj he
    exact ⟨h, trivial⟩
  | _ => cases he

end Discipline

/-- Leases of `3 * beat`, renewed after `beat`: while no live holder is a whole `beat` behind, Redis
is not wiped and the reaper returns no token in transit, every run with its times is one without
them in which no lease of a live holder expires; so every live holder has a lease that is not over,
no two have the same token, and at most `n` hold one. -/
theorem heartbeat_keeps_limit {n beat late : Nat} (hlate : late < beat)
    {hist : List (Taken (Clock Redis String) (Stamped Agent) Choice)} {s : ClockState}
    (ht : Story (clocked n beat) (OnTime n late) (clocked n beat).init hist s) :
    (∃ hist', Story (system n) (fun s m _ => Kept n s m) (system n).init hist' (timeless s)) ∧
    (∀ a ∈ s.agents, ∀ t, a.agent.recorded = some t →
      s.shared.state.lease t ≠ none ∧ s.shared.now < s.shared.expiry t) ∧
    (live (s.agents.map Stamped.agent)).Nodup ∧
    s.agents.countP (fun a => a.agent.holds) ≤ n := by
  obtain ⟨⟨hist', hstory⟩, _, harmed⟩ := Story.unclock hlate (disciplined n)
    (fun h => ⟨(leased_exclusive h).2, leased_fresh h⟩) (fun he h => kept_expire he h) ht
  obtain ⟨hx, hrecorded⟩ := leased_exclusive hstory
  refine ⟨⟨hist', hstory⟩, fun a ha t hrec => ⟨?_, (harmed a ha).unexpired hlate hrec⟩, ?_, ?_⟩
  · exact hrecorded a.agent (List.mem_map_of_mem ha) t hrec
  · exact (List.nodup_append.mp hx.nodup).2.1
  · have hle := hx.holders_le
    rwa [timeless, List.countP_map] at hle

/-- The condition of a run on time, as a check. -/
def onTime (n late : Nat) (s : ClockState) : Move (Stamped Agent) Choice (Tick Env) → Bool
  | .act a i => patient n (timeless s) (.act a.agent i)
  | .env .tick => s.agents.all fun a =>
      a.agent.recorded.isNone || decide (s.shared.now < a.wake + late)
  | .env (.env .wipe) => false
  | .env (.env _) => true

theorem onTime_sound {n late : Nat} {s : ClockState} {m : Move (Stamped Agent) Choice (Tick Env)}
    {c : Clock Redis String} (h : onTime n late s m = true) :
    OnTime n late s m c := by
  cases m with
  | act a i => exact ⟨trivial, patient_sound h⟩
  | env e =>
    cases e with
    | tick =>
      intro a ha hrec
      have := List.all_eq_true.mp h a ha
      have hrec : a.agent.recorded ≠ none := hrec
      simpa [hrec] using this
    | env e =>
      intro he
      cases e with
      | expire t => cases he
      | wipe => cases h
      | _ => exact ⟨trivial, trivial⟩

/-- Leases of 30 seconds: one worker crashes with a token and one renews its lease every 10 seconds;
after 30 seconds the reaper returns the token of the first. -/
theorem heartbeat_keeps_limit_three :
    ∃ hist s, Story (clocked 3 10) (OnTime 3 5) (clocked 3 10).init hist s ∧
      s.shared.now = 30 ∧ s.shared.state.slots = ["2", "0"] ∧
      s.agents.countP (fun a => a.agent.holds) = 1 ∧
      s.agents.countP (fun a => a.agent.holds) ≤ 3 := by
  obtain ⟨hist, s, ht, hnow, hslots, hone⟩ :
      ∃ hist s, Story (clocked 3 10) (OnTime 3 5) (clocked 3 10).init hist s ∧
        s.shared.now = 30 ∧ s.shared.state.slots = ["2", "0"] ∧
        s.agents.countP (fun a => a.agent.holds) = 1 :=
    System.exists_story (d := fun s m _ => onTime 3 5 s m) (fun _ _ _ h => onTime_sound h)
      (List.flatten [
        [.env (.env .boot), .act 0 .go, .act 0 (.startSlot "a"), .act 0 (.startSlot "b"), .act 1 .go,
          .act 0 .go, .act 0 .crash, .act 1 .go, .act 0 .go],
        ticks 10, [.act 0 .renew], ticks 10, [.act 0 .renew], ticks 10,
        [.act 0 .renew, .env (.env (.expire "0")), .act 1 .startReap, .act 1 .go, .act 0 .go,
          .act 0 .go, .act 0 .go]]) (by decide +kernel)
  have hlate : 5 < 10 := by omega
  exact ⟨hist, s, ht, hnow, hslots, hone, (heartbeat_keeps_limit hlate ht).2.2.2⟩

/-- Ten seconds late is too late: a renewal and then the `DEL` are, the lease runs out in between,
and two workers hold the only token. -/
theorem late_heartbeat_two_holders :
    ∃ hist s, Story (clocked 1 10) (OnTime 1 10) (clocked 1 10).init hist s ∧
      s.shared.now = 30 ∧ s.agents.countP (fun a => a.agent.holds) = 2 :=
  System.exists_story (d := fun s m _ => onTime 1 10 s m) (fun _ _ _ h => onTime_sound h)
    (List.flatten [
      [.env (.env .boot), .act 0 .go, .act 0 (.startSlot "a"), .act 0 (.startSlot "b"),
        .act 0 (.startSlot "c"), .act 3 .go, .act 0 .go],
      ticks 20, [.act 0 .go], ticks 10,
      [.env (.env (.expire "0")), .act 1 .startReap, .act 1 .go, .act 4 .go, .act 0 .go,
        .act 3 .go, .act 0 .go, .act 3 .go, .act 0 .go]]) (by decide +kernel)

end Semaphore
end AudioEngine
