import AudioEngine.Lib.Story

/-!
# AudioEngine.Lib.Lease

Leases with a heartbeat, over any interleaved system.

`System.clocked` gives a system a clock that goes on by one unit at a time. A lease runs out
`3 * beat` after it was set; who counts on it sleeps `beat` between two renewals, until its last
command ends it. A `Leasing` says which steps set a lease, which moves of the environment let one
run out, and who counts on which; it is `Disciplined` if whoever counts on a lease after a step has
set it there, goes on as before, or has its last command to send.

`Timed late`: time does not pass an agent that counts on a lease and is `late` behind with what is
due. With `late < beat` a lease never runs out under one that counts on it, so the run without its
clock meets conditions that only allow other leases to expire (`Story.unclock`).
-/

namespace Interleave

/-- When the next command of an agent is due: after a sleep, at once, or when it was before. -/
inductive Timer where
  | sleep
  | atOnce
  | keep

structure Leasing (σ α ι ε κ : Type) where
  /-- the lease that a step sets -/
  sets : σ → α → ι → Option κ
  /-- the lease that a move of the environment lets run out -/
  expires : ε → Option κ
  /-- the step ends a sleep -/
  awaits : ι → Bool
  /-- for the agent, its step and an agent it leaves -/
  timer : α → ι → α → Timer
  /-- the lease the agent counts on -/
  relies : α → Option κ
  /-- its last command is due, which ends the lease -/
  closing : α → Bool

structure Clock (σ κ : Type) where
  state : σ
  now : Nat := 0
  /-- when the lease runs out, where there is one -/
  expiry : κ → Nat := fun _ => 0

structure Stamped (α : Type) where
  agent : α
  /-- when its next command is due -/
  wake : Nat := 0
deriving DecidableEq

inductive Tick (ε : Type) where
  | tick
  | env (e : ε)

def Timer.wake (beat now before : Nat) : Timer → Nat
  | sleep => now + beat
  | atOnce => now
  | keep => before

variable {σ α ι ε κ : Type} [DecidableEq κ]

def Clock.set (c : Clock σ κ) (beat : Nat) : Option κ → κ → Nat
  | none => c.expiry
  | some k => Function.update c.expiry k (c.now + 3 * beat)

/-- The system with a clock. -/
def System.clocked (S : System σ α ι ε) (L : Leasing σ α ι ε κ) (beat : Nat) :
    System (Clock σ κ) (Stamped α) ι (Tick ε) where
  init := ⟨{ state := S.init.shared }, S.init.agents.map fun a => { agent := a }⟩
  act c a i :=
    if L.awaits i = true ∧ c.now < a.wake then none
    else
      match S.act c.state a.agent i with
      | none => none
      | some (sh, outs) =>
        some ({ c with state := sh, expiry := c.set beat (L.sets c.state a.agent i) },
          outs.map fun b => ⟨b, (L.timer a.agent i b).wake beat c.now a.wake⟩)
  env c
    | .tick => some ({ c with now := c.now + 1 }, [])
    | .env e =>
      if (L.expires e).all fun k => decide (c.expiry k ≤ c.now) then
        match S.env c.state e with
        | none => none
        | some (sh, outs) => some ({ c with state := sh }, outs.map fun b => ⟨b, c.now⟩)
      else none

/-- The state without its times. -/
def timeless (s : Pool (Clock σ κ) (Stamped α)) : Pool σ α :=
  ⟨s.shared.state, s.agents.map Stamped.agent⟩

omit [DecidableEq κ] in
theorem timeless_append (c : Clock σ κ) {w : α → Nat} (bs : List α) (rest : List (Stamped α)) :
    timeless ⟨c, bs.map (fun b => ⟨b, w b⟩) ++ rest⟩ =
      ⟨c.state, bs ++ rest.map Stamped.agent⟩ := by
  simp [timeless, Function.comp_def]

/-- The condition `D` on all but the leases that run out, and nobody `late` behind. -/
def Timed (L : Leasing σ α ι ε κ) (D : Pool σ α → Move α ι ε → σ → Prop) (late : Nat)
    (s : Pool (Clock σ κ) (Stamped α)) (m : Move (Stamped α) ι (Tick ε)) (c : Clock σ κ) : Prop :=
  match m with
  | .act a i => D (timeless s) (.act a.agent i) c.state
  | .env .tick => ∀ a ∈ s.agents, L.relies a.agent ≠ none → s.shared.now < a.wake + late
  | .env (.env e) => L.expires e = none → D (timeless s) (.env e) c.state

/-- How the agents of `S` go about their leases, in states with the invariant `I`. -/
structure Disciplined (S : System σ α ι ε) (L : Leasing σ α ι ε κ) (I : Pool σ α → Prop) :
    Prop where
  init : ∀ a ∈ S.init.agents, L.relies a = none
  act : ∀ {s a i sh outs b k}, I s → a ∈ s.agents → S.act s.shared a i = some (sh, outs) →
    b ∈ outs → L.relies b = some k →
      (L.sets s.shared a i = some k ∧ L.timer a i b = .sleep) ∨
      L.relies a = some k ∧
        (L.timer a i b = .keep ∧ L.closing b = L.closing a ∨
          L.timer a i b = .atOnce ∧ L.closing a = false ∧ L.closing b = true)
  env : ∀ {sh e sh' outs}, S.env sh e = some (sh', outs) → ∀ b ∈ outs, L.relies b = none

/-- Whoever counts on a lease is on time, and the lease lasts. -/
structure Armed (L : Leasing σ α ι ε κ) (beat late : Nat) (c : Clock σ κ) (a : Stamped α) :
    Prop where
  punctual : ∀ k, L.relies a.agent = some k → c.now ≤ a.wake + late
  lasts : ∀ k, L.relies a.agent = some k →
    a.wake + 2 * beat ≤ c.expiry k + if L.closing a.agent then late else 0

section Armed

variable {S : System σ α ι ε} {L : Leasing σ α ι ε κ} {I : Pool σ α → Prop} {beat late : Nat}
  {c c' : Clock σ κ} {a b : Stamped α} {i : ι} {outs : List (Stamped α)} {k : κ}

omit [DecidableEq κ] in
theorem Armed.unexpired (h : Armed L beat late c a) (hlate : late < beat)
    (hk : L.relies a.agent = some k) : c.now < c.expiry k := by
  have hnow := h.punctual k hk
  have hlast := h.lasts k hk
  split at hlast <;> omega

omit [DecidableEq κ] in
theorem Armed.mono (h : Armed L beat late c b) (hnow : c'.now = c.now)
    (hexp : ∀ k, c.expiry k ≤ c'.expiry k) : Armed L beat late c' b := by
  refine ⟨fun k hk => ?_, fun k hk => ?_⟩
  · rw [hnow]
    exact h.punctual k hk
  · exact Nat.le_trans (h.lasts k hk) (Nat.add_le_add_right (hexp k) _)

/-- A lease that is set lasts longer than it did. -/
theorem set_grows (hb : ∀ k, c.expiry k ≤ c.now + 3 * beat) (o : Option κ) (k : κ) :
    c.expiry k ≤ c.set beat o k ∧ c.set beat o k ≤ c.now + 3 * beat := by
  cases o with
  | none => exact ⟨Nat.le_refl _, hb k⟩
  | some k' =>
    by_cases hk : k = k'
    · subst hk
      simpa [Clock.set] using hb k
    · simpa [Clock.set, hk] using hb k

theorem clocked_act (h : (S.clocked L beat).act c a i = some (c', outs)) :
    ∃ sh bs, S.act c.state a.agent i = some (sh, bs) ∧
      c' = { c with state := sh, expiry := c.set beat (L.sets c.state a.agent i) } ∧
      outs = bs.map fun b => ⟨b, (L.timer a.agent i b).wake beat c.now a.wake⟩ := by
  simp only [System.clocked] at h
  split at h
  · cases h
  · split at h
    · cases h
    · rename_i sh bs hact
      cases h
      exact ⟨sh, bs, hact, rfl, rfl⟩

theorem clocked_env {e : ε} (h : (S.clocked L beat).env c (.env e) = some (c', outs)) :
    (∀ k, L.expires e = some k → c.expiry k ≤ c.now) ∧ ∃ sh bs, S.env c.state e = some (sh, bs) ∧
      c' = { c with state := sh } ∧ outs = bs.map fun b => ⟨b, c.now⟩ := by
  simp only [System.clocked] at h
  split at h
  · rename_i hripe
    split at h
    · cases h
    · rename_i sh bs henv
      cases h
      refine ⟨fun k hk => ?_, sh, bs, henv, rfl, rfl⟩
      rw [hk] at hripe
      exact of_decide_eq_true hripe
  · cases h

/-- What a step leaves is armed. -/
theorem Disciplined.armed {s : Pool (Clock σ κ) (Stamped α)} (hd : Disciplined S L I)
    (hI : I (timeless s)) (ha : a ∈ s.agents) (harmed : Armed L beat late s.shared a)
    (hbound : ∀ k, s.shared.expiry k ≤ s.shared.now + 3 * beat)
    (h : (S.clocked L beat).act s.shared a i = some (c', outs)) :
    ∀ b ∈ outs, Armed L beat late c' b := by
  obtain ⟨sh, bs, hact, rfl, rfl⟩ := clocked_act h
  intro x hx
  obtain ⟨b, hb, rfl⟩ := List.mem_map.mp hx
  have hcases := fun k => hd.act (k := k) hI (List.mem_map_of_mem ha) hact hb
  refine ⟨fun k hk => ?_, fun k hk => ?_⟩
  · rcases hcases k hk with ⟨_, htimer⟩ | ⟨hrel, ⟨htimer, _⟩ | ⟨htimer, _⟩⟩
    · simp only [htimer, Timer.wake]
      omega
    · simpa only [htimer, Timer.wake] using harmed.punctual k hrel
    · simp only [htimer, Timer.wake]
      omega
  · have hgrows := (set_grows hbound (L.sets s.shared.state a.agent i) k).1
    rcases hcases k hk with ⟨hset, htimer⟩ | ⟨hrel, hkeep⟩
    · have hset : L.sets s.shared.state a.agent i = some k := hset
      simp only [htimer, Timer.wake, hset, Clock.set, Function.update_self]
      omega
    · have hnow := harmed.punctual k hrel
      have hlast := harmed.lasts k hrel
      rcases hkeep with ⟨htimer, hclosing⟩ | ⟨htimer, hopen, hclosing⟩
      · simp only [htimer, Timer.wake, hclosing]
        omega
      · simp only [htimer, Timer.wake, hclosing, if_true]
        rw [hopen] at hlast
        simp only [Bool.false_eq_true, if_false] at hlast
        omega

end Armed

/-- **The rule of leases.** In a run with a clock in which nobody who counts on a lease is a whole
`beat` behind, no such lease runs out: without its clock it is a run under `D`, if `D` lets other
leases run out. -/
theorem Story.unclock {S : System σ α ι ε} {L : Leasing σ α ι ε κ}
    {D : Pool σ α → Move α ι ε → σ → Prop} {I : Pool σ α → Prop} {beat late : Nat}
    (hlate : late < beat) (hd : Disciplined S L I)
    (hI : ∀ {hist u}, Story S D S.init hist u → I u)
    (hexp : ∀ {u e sh k}, L.expires e = some k → (∀ b ∈ u.agents, L.relies b ≠ some k) →
      D u (.env e) sh)
    {hist : List (Taken (Clock σ κ) (Stamped α) ι)} {s : Pool (Clock σ κ) (Stamped α)}
    (h : Story (S.clocked L beat) (Timed L D late) (S.clocked L beat).init hist s) :
    (∃ hist', Story S D S.init hist' (timeless s)) ∧
      (∀ k, s.shared.expiry k ≤ s.shared.now + 3 * beat) ∧
      ∀ a ∈ s.agents, Armed L beat late s.shared a := by
  induction h with
  | start =>
    have hinit : timeless (S.clocked L beat).init = S.init := by
      simp [timeless, System.clocked, Function.comp_def]
    refine ⟨⟨[], hinit ▸ .start⟩, fun _ => Nat.zero_le _, fun a ha => ?_⟩
    obtain ⟨b, hb, rfl⟩ := List.mem_map.mp ha
    constructor <;> · intro k hk; cases (hd.init b hb).symm.trans hk
  | @act hist s rest a i c' outs _ hp ha hD ih =>
    obtain ⟨⟨hist', hstory⟩, hbound, harmed⟩ := ih
    have hmem : a ∈ s.agents := hp.mem_iff.mpr (by simp)
    have houts := hd.armed (hI hstory) hmem (harmed a hmem) hbound ha
    obtain ⟨sh, bs, hact, rfl, rfl⟩ := clocked_act ha
    have hgrows := set_grows hbound (L.sets s.shared.state a.agent i)
    refine ⟨?_, fun k => (hgrows k).2, fun x hx => ?_⟩
    · rw [timeless_append]
      exact ⟨_, .act hstory (hp.map Stamped.agent) hact hD⟩
    · rcases List.mem_append.mp hx with hx | hx
      · exact houts x hx
      · exact (harmed x (hp.mem_iff.mpr (by simp [hx]))).mono rfl fun k => (hgrows k).1
  | @env hist s e c' outs _ he hD ih =>
    obtain ⟨⟨hist', hstory⟩, hbound, harmed⟩ := ih
    cases e with
    | tick =>
      cases he
      refine ⟨⟨hist', hstory⟩, fun k => ?_, fun a ha => ⟨fun k hk => ?_, ?_⟩⟩
      · have := hbound k
        dsimp only
        omega
      · exact hD a ha (by simp [hk])
      · exact (harmed a ha).lasts
    | env e =>
      obtain ⟨hripe, sh, bs, henv, rfl, rfl⟩ := clocked_env he
      have hDe : D (timeless s) (.env e) sh := by
        cases hk : L.expires e with
        | none => exact hD hk
        | some k =>
          refine hexp hk fun b hb hrel => ?_
          obtain ⟨a, ha, rfl⟩ := List.mem_map.mp hb
          have := (harmed a ha).unexpired hlate hrel
          have := hripe k hk
          omega
      refine ⟨?_, hbound, fun x hx => ?_⟩
      · rw [timeless_append]
        exact ⟨_, .env hstory henv hDe⟩
      · rcases List.mem_append.mp hx with hx | hx
        · obtain ⟨b, hb, rfl⟩ := List.mem_map.mp hx
          constructor <;> · intro k hk; cases (hd.env henv b hb).symm.trans hk
        · exact (harmed x hx).mono rfl fun _ => Nat.le_refl _

/-- A stretch of a schedule in which only time goes on. -/
def ticks (k : Nat) : List (Action ι (Tick ε)) := List.replicate k (.env .tick)

end Interleave
