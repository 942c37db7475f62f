import Mathlib.Algebra.Ring.Nat
import Mathlib.Data.List.Perm.Basic

/-!
# AudioEngine.Lib.Interleave

Interleaved execution of a pool of agents over a shared state.

An agent takes one atomic step at a time: it reads and changes the shared state and is replaced
by a list of agents (itself at its next point, agents it started, or nothing when it ends). The
environment may change the shared state and add agents. A scheduler picks agent and step, so every
order of steps is a run.

`Reach S C` are the states reached by steps that meet the condition `C` (on the shared state, the
acting agent and its step). Three rules carry the induction over runs:

* `Reach.rely`: an assertion per agent and an invariant of the shared state, when every step keeps
  them and changes the shared state only in a way the assertions of the others tolerate.
* `Reach.owed`: whenever the shared state is in some condition, an agent exists that still has to
  deal with it, when whoever brings the condition about owes that and nobody drops it.
* `Reach.tokens`: something is done at most as often as something else, when agents carry the
  difference.
-/

namespace Interleave

structure Pool (σ α : Type) where
  shared : σ
  agents : List α

/-- A system: agents of type `α` with step choices `ι`, environment moves `ε`. -/
structure System (σ α ι ε : Type) where
  init : Pool σ α
  act : σ → α → ι → Option (σ × List α)
  env : σ → ε → Option (σ × List α)

inductive Action (ι ε : Type) where
  | act (k : Nat) (i : ι)
  | env (e : ε)

variable {σ α ι ε : Type} {S : System σ α ι ε}

/-- One step of the scheduler. The replacement of the acting agent comes first in the pool. -/
def System.step (S : System σ α ι ε) (s : Pool σ α) : Action ι ε → Option (Pool σ α)
  | .act k i =>
    match s.agents[k]? with
    | none => none
    | some a =>
      match S.act s.shared a i with
      | none => none
      | some (sh, outs) => some ⟨sh, outs ++ s.agents.eraseIdx k⟩
  | .env e =>
    match S.env s.shared e with
    | none => none
    | some (sh, outs) => some ⟨sh, outs ++ s.agents⟩

/-- The step relation that `System.step` computes, with the condition `C` on agents' steps. -/
inductive Step (S : System σ α ι ε) (C : σ → α → ι → Prop) : Pool σ α → Pool σ α → Prop where
  | act {s : Pool σ α} {rest : List α} {a : α} {i : ι} {sh : σ} {outs : List α} :
      s.agents.Perm (a :: rest) → C s.shared a i → S.act s.shared a i = some (sh, outs) →
      Step S C s ⟨sh, outs ++ rest⟩
  | env {s : Pool σ α} {e : ε} {sh : σ} {outs : List α} :
      S.env s.shared e = some (sh, outs) → Step S C s ⟨sh, outs ++ s.agents⟩

/-- States reached from the initial one by steps that meet `C`. -/
inductive Reach (S : System σ α ι ε) (C : σ → α → ι → Prop) : Pool σ α → Prop where
  | init : Reach S C S.init
  | step {s s' : Pool σ α} : Reach S C s → Step S C s s' → Reach S C s'

/-- A finite run, newest state first. -/
inductive Run (S : System σ α ι ε) (C : σ → α → ι → Prop) : List (Pool σ α) → Prop where
  | init : Run S C [S.init]
  | step {s s' : Pool σ α} {past : List (Pool σ α)} :
      Run S C (s :: past) → Step S C s s' → Run S C (s' :: s :: past)

/-- A step that an agent took. -/
structure Taken (σ α ι : Type) where
  before : σ
  agent : α
  choice : ι
  after : σ

/-- The agents' steps of a run that ends in the given state, newest first. -/
inductive Trail (S : System σ α ι ε) : List (Taken σ α ι) → Pool σ α → Prop where
  | init : Trail S [] S.init
  | act {h : List (Taken σ α ι)} {s : Pool σ α} {rest : List α} {a : α} {i : ι} {sh : σ}
      {outs : List α} : Trail S h s → s.agents.Perm (a :: rest) →
      S.act s.shared a i = some (sh, outs) → Trail S (⟨s.shared, a, i, sh⟩ :: h) ⟨sh, outs ++ rest⟩
  | env {h : List (Taken σ α ι)} {s : Pool σ α} {e : ε} {sh : σ} {outs : List α} :
      Trail S h s → S.env s.shared e = some (sh, outs) → Trail S h ⟨sh, outs ++ s.agents⟩

section Reach

variable {C D : σ → α → ι → Prop} {s s' : Pool σ α}

theorem Step.mono (h : ∀ sh a i, C sh a i → D sh a i) (hs : Step S C s s') : Step S D s s' := by
  cases hs with
  | act hp hc ha => exact .act hp (h _ _ _ hc) ha
  | env he => exact .env he

theorem Reach.mono (h : ∀ sh a i, C sh a i → D sh a i) (hr : Reach S C s) : Reach S D s := by
  induction hr with
  | init => exact .init
  | step _ hs ih => exact .step ih (hs.mono h)

theorem Run.reach {r : List (Pool σ α)} (h : Run S C r) : ∀ s ∈ r, Reach S C s := by
  induction h with
  | init =>
    intro s hs
    rw [List.mem_singleton] at hs
    subst hs; exact .init
  | step _ hs ih =>
    intro x hx
    rcases List.mem_cons.mp hx with rfl | hx
    · exact .step (ih _ (by simp)) hs
    · exact ih x hx

theorem Reach.run (h : Reach S C s) : ∃ past, Run S C (s :: past) := by
  induction h with
  | init => exact ⟨[], .init⟩
  | step _ hs ih =>
    obtain ⟨past, hr⟩ := ih
    exact ⟨_, .step hr hs⟩

theorem Trail.reach {h : List (Taken σ α ι)} (ht : Trail S h s) :
    Reach S (fun _ _ _ => True) s := by
  induction ht with
  | init => exact .init
  | act _ hp ha ih => exact .step ih (.act hp trivial ha)
  | env _ he ih => exact .step ih (.env he)

/-- Every step of a run is taken by an agent of a reachable state. -/
theorem Trail.taken {h : List (Taken σ α ι)} (ht : Trail S h s) {t : Taken σ α ι} (hm : t ∈ h) :
    ∃ s₀ outs, Reach S (fun _ _ _ => True) s₀ ∧ s₀.shared = t.before ∧ t.agent ∈ s₀.agents ∧
      S.act t.before t.agent t.choice = some (t.after, outs) := by
  induction ht with
  | init => cases hm
  | @act h s rest a i sh outs ht hp ha ih =>
    rcases List.mem_cons.mp hm with rfl | hm
    · exact ⟨s, outs, ht.reach, rfl, hp.mem_iff.mpr (by simp), ha⟩
    · exact ih hm
  | env _ _ ih => exact ih hm

/-- A condition that reachability under `C` gives anyway. -/
theorem Reach.strengthen (h : ∀ s a i, Reach S C s → a ∈ s.agents → C s.shared a i → D s.shared a i)
    (hr : Reach S C s) : Reach S D s := by
  induction hr with
  | init => exact .init
  | step hr hs ih =>
    cases hs with
    | act hp hc ha => exact .step ih (.act hp (h _ _ _ hr (hp.mem_iff.mpr (by simp)) hc) ha)
    | env he => exact .step ih (.env he)

/-- Two states of a run are related the way single steps are, for a transitive relation. -/
theorem Run.pairwise {T : σ → σ → Prop} (htrans : ∀ {x y z}, T x y → T y z → T x z)
    (hstep : ∀ {s s'}, Reach S C s → Step S C s s' → T s.shared s'.shared)
    {r : List (Pool σ α)} (h : Run S C r) :
    r.Pairwise fun later earlier => T earlier.shared later.shared := by
  induction h with
  | init => exact List.pairwise_singleton _ _
  | @step s s' past hr hs ih =>
    have hlast : T s.shared s'.shared := hstep (hr.reach s (by simp)) hs
    refine List.pairwise_cons.mpr ⟨?_, ih⟩
    intro x hx
    rcases List.mem_cons.mp hx with rfl | hx
    · exact hlast
    · exact htrans ((List.pairwise_cons.mp ih).1 x hx) hlast

/-- **Rely/guarantee.** `G` is the invariant of the shared state, `A` the assertion an agent makes
about it, `R` what a step may do to it as far as the other agents are concerned. -/
theorem Reach.rely {G : σ → Prop} {A : σ → α → Prop} {R : σ → σ → Prop}
    (hG : G S.init.shared) (hA : ∀ a ∈ S.init.agents, A S.init.shared a)
    (hact : ∀ {s a i sh outs}, Reach S C s → a ∈ s.agents → C s.shared a i → G s.shared →
      A s.shared a → S.act s.shared a i = some (sh, outs) →
      G sh ∧ R s.shared sh ∧ ∀ b ∈ outs, A sh b)
    (henv : ∀ {s e sh outs}, Reach S C s → G s.shared → S.env s.shared e = some (sh, outs) →
      G sh ∧ R s.shared sh ∧ ∀ b ∈ outs, A sh b)
    (hst : ∀ {sh sh' b}, G sh → R sh sh' → A sh b → A sh' b) (h : Reach S C s) :
    G s.shared ∧ ∀ a ∈ s.agents, A s.shared a := by
  induction h with
  | init => exact ⟨hG, hA⟩
  | step hr hs ih =>
    obtain ⟨ihG, ihA⟩ := ih
    cases hs with
    | act hp hc ha =>
      obtain ⟨g, r, outs⟩ := hact hr (hp.mem_iff.mpr (by simp)) hc ihG
        (ihA _ (hp.mem_iff.mpr (by simp))) ha
      refine ⟨g, fun b hb => ?_⟩
      rcases List.mem_append.mp hb with hb | hb
      · exact outs b hb
      · exact hst ihG r (ihA b (hp.mem_iff.mpr (by simp [hb])))
    | env he =>
      obtain ⟨g, r, outs⟩ := henv hr ihG he
      refine ⟨g, fun b hb => ?_⟩
      rcases List.mem_append.mp hb with hb | hb
      · exact outs b hb
      · exact hst ihG r (ihA b hb)

/-- An invariant of the shared state alone. -/
theorem Reach.shared {G : σ → Prop} (hG : G S.init.shared)
    (hact : ∀ {s a i sh outs}, Reach S C s → a ∈ s.agents → C s.shared a i → G s.shared →
      S.act s.shared a i = some (sh, outs) → G sh)
    (henv : ∀ {s e sh outs}, Reach S C s → G s.shared → S.env s.shared e = some (sh, outs) → G sh)
    (h : Reach S C s) : G s.shared := by
  refine (Reach.rely (A := fun _ _ => True) (R := fun _ _ => True) hG (fun _ _ => trivial)
    (fun hr hm hc hg _ ha => ⟨hact hr hm hc hg ha, trivial, fun _ _ => trivial⟩)
    (fun hr hg he => ⟨henv hr hg he, trivial, fun _ _ => trivial⟩)
    (fun _ _ _ => trivial) h).1

/-- An invariant of the agents alone. -/
theorem Reach.each {A : α → Prop} (hA : ∀ a ∈ S.init.agents, A a)
    (hact : ∀ {sh a i sh' outs}, C sh a i → A a → S.act sh a i = some (sh', outs) → ∀ b ∈ outs, A b)
    (henv : ∀ {sh e sh' outs}, S.env sh e = some (sh', outs) → ∀ b ∈ outs, A b)
    (h : Reach S C s) : ∀ a ∈ s.agents, A a := by
  refine (Reach.rely (G := fun _ => True) (A := fun _ => A) (R := fun _ _ => True) trivial hA ?_ ?_
    (fun _ _ hb => hb) h).2
  · intro s a i sh outs _ _ hc _ ha hs
    exact ⟨trivial, trivial, hact hc ha hs⟩
  · intro s e sh outs _ _ hs
    exact ⟨trivial, trivial, henv hs⟩

/-- **Duties.** While the shared state satisfies `P`, some agent owes (`O`) what ends it: whoever
brings `P` about owes, and whoever owes passes it on as long as `P` lasts. -/
theorem Reach.owed {P : σ → Prop} {O : α → Prop} (h0 : ¬ P S.init.shared)
    (hstart : ∀ {s a i sh outs}, Reach S C s → a ∈ s.agents → C s.shared a i →
      S.act s.shared a i = some (sh, outs) → P sh → P s.shared ∨ O a)
    (hpass : ∀ {s a i sh outs}, Reach S C s → a ∈ s.agents → C s.shared a i →
      S.act s.shared a i = some (sh, outs) → P sh → O a → ∃ b ∈ outs, O b)
    (henv : ∀ {s e sh outs}, Reach S C s → S.env s.shared e = some (sh, outs) → P sh → P s.shared)
    (h : Reach S C s) : P s.shared → ∃ a ∈ s.agents, O a := by
  induction h with
  | init => exact fun hp => absurd hp h0
  | step hr hs ih =>
    intro hP
    cases hs with
    | @act rest a i sh outs hp hc ha =>
      have hmem := hp.mem_iff.mpr (List.mem_cons_self (a := a))
      by_cases ho : O a
      · obtain ⟨b, hb, hob⟩ := hpass hr hmem hc ha hP ho
        exact ⟨b, by simp [hb], hob⟩
      · obtain ⟨b, hb, hob⟩ := ih ((hstart hr hmem hc ha hP).resolve_right ho)
        rcases List.mem_cons.mp (hp.mem_iff.mp hb) with rfl | hb
        · exact absurd hob ho
        · exact ⟨b, by simp [hb], hob⟩
    | env he =>
      obtain ⟨b, hb, hob⟩ := ih (henv hr he hP)
      exact ⟨b, by simp [hb], hob⟩

/-- **Tokens.** Every agent carries `w` tokens; a step spends tokens (`f` counts what was spent)
and gets new ones only as far as `g` grows. -/
theorem Reach.tokens {w : α → Nat} {f g : σ → Nat}
    (h0 : (S.init.agents.map w).sum + f S.init.shared ≤ g S.init.shared)
    (hact : ∀ {s a i sh outs}, Reach S C s → a ∈ s.agents → S.act s.shared a i = some (sh, outs) →
      (outs.map w).sum + f sh + g s.shared ≤ w a + f s.shared + g sh)
    (henv : ∀ {s e sh outs}, Reach S C s → S.env s.shared e = some (sh, outs) →
      (outs.map w).sum + f sh + g s.shared ≤ f s.shared + g sh)
    (h : Reach S C s) : (s.agents.map w).sum + f s.shared ≤ g s.shared := by
  induction h with
  | init => exact h0
  | step hr hs ih =>
    cases hs with
    | act hp hc ha =>
      have hstep := hact hr (hp.mem_iff.mpr (by simp)) ha
      have hsum := (hp.map w).sum_nat
      simp only [List.map_cons, List.sum_cons] at hsum
      simp only [List.map_append, List.sum_append]
      omega
    | env he =>
      have hstep := henv hr he
      simp only [List.map_append, List.sum_append]
      omega

end Reach

/-! ## Evaluating a schedule -/

/-- Run a schedule, checking the condition of every agent step on the way. -/
def System.runs (S : System σ α ι ε) (C : σ → α → ι → Bool) :
    Pool σ α → List (Action ι ε) → Option (Pool σ α)
  | s, [] => some s
  | s, .act k i :: rest =>
    match s.agents[k]? with
    | none => none
    | some a =>
      if C s.shared a i then
        match S.step s (.act k i) with
        | none => none
        | some s' => S.runs C s' rest
      else none
  | s, .env e :: rest =>
    match S.step s (.env e) with
    | none => none
    | some s' => S.runs C s' rest

theorem System.step_act {s s' : Pool σ α} {k : Nat} {i : ι} {a : α} {C : σ → α → ι → Prop}
    (hk : s.agents[k]? = some a) (hc : C s.shared a i) (h : S.step s (.act k i) = some s') :
    Step S C s s' := by
  simp only [System.step, hk] at h
  split at h
  · cases h
  · rename_i sh outs ha
    cases h
    obtain ⟨hlt, rfl⟩ := List.getElem?_eq_some_iff.mp hk
    exact .act (List.getElem_cons_eraseIdx_perm hlt).symm hc ha

theorem System.step_env {s s' : Pool σ α} {e : ε} {C : σ → α → ι → Prop}
    (h : S.step s (.env e) = some s') : Step S C s s' := by
  simp only [System.step] at h
  split at h
  · cases h
  · rename_i sh outs he
    cases h
    exact .env he

/-- A schedule that evaluates is a run. -/
theorem System.runs_reach {C : σ → α → ι → Bool} :
    ∀ {l : List (Action ι ε)} {s s' : Pool σ α}, Reach S (fun sh a i => C sh a i = true) s →
      S.runs C s l = some s' → Reach S (fun sh a i => C sh a i = true) s'
  | [], s, s', hr, h => by
    simp only [System.runs] at h
    cases h; exact hr
  | .act k i :: rest, s, s', hr, h => by
    simp only [System.runs] at h
    split at h
    · cases h
    · rename_i a hk
      split at h
      · rename_i hc
        split at h
        · cases h
        · rename_i s₁ hs
          exact runs_reach (.step hr (System.step_act hk hc hs)) h
      · cases h
  | .env e :: rest, s, s', hr, h => by
    simp only [System.runs] at h
    split at h
    · cases h
    · rename_i s₁ hs
      exact runs_reach (.step hr (System.step_env hs)) h

/-- A schedule that ends in a state satisfying `p` exhibits a reachable state satisfying `p`. -/
theorem System.exists_reach {C : σ → α → ι → Bool} {D : σ → α → ι → Prop}
    (hD : ∀ sh a i, C sh a i = true → D sh a i) (l : List (Action ι ε)) {p : Pool σ α → Prop}
    [DecidablePred p] (h : (S.runs C S.init l).any (fun s => decide (p s)) = true) :
    ∃ s, Reach S D s ∧ p s := by
  cases hr : S.runs C S.init l with
  | none => rw [hr] at h; cases h
  | some s =>
    rw [hr] at h
    exact ⟨s, (System.runs_reach .init hr).mono hD, of_decide_eq_true h⟩

/-- Run a schedule and collect the agents' steps. -/
def System.trail (S : System σ α ι ε) :
    Pool σ α → List (Taken σ α ι) → List (Action ι ε) → Option (List (Taken σ α ι) × Pool σ α)
  | s, h, [] => some (h, s)
  | s, h, .act k i :: rest =>
    match s.agents[k]? with
    | none => none
    | some a =>
      match S.act s.shared a i with
      | none => none
      | some (sh, outs) =>
        S.trail ⟨sh, outs ++ s.agents.eraseIdx k⟩ (⟨s.shared, a, i, sh⟩ :: h) rest
  | s, h, .env e :: rest =>
    match S.env s.shared e with
    | none => none
    | some (sh, outs) => S.trail ⟨sh, outs ++ s.agents⟩ h rest

theorem System.trail_trail :
    ∀ {l : List (Action ι ε)} {s s' : Pool σ α} {h h' : List (Taken σ α ι)}, Trail S h s →
      S.trail s h l = some (h', s') → Trail S h' s'
  | [], s, s', h, h', ht, he => by
    cases he; exact ht
  | .act k i :: rest, s, s', h, h', ht, he => by
    simp only [System.trail] at he
    split at he
    · cases he
    · rename_i a hk
      split at he
      · cases he
      · rename_i sh outs ha
        obtain ⟨hlt, rfl⟩ := List.getElem?_eq_some_iff.mp hk
        exact trail_trail (.act ht (List.getElem_cons_eraseIdx_perm hlt).symm ha) he
  | .env e :: rest, s, s', h, h', ht, he => by
    simp only [System.trail] at he
    split at he
    · cases he
    · rename_i sh outs henv
      exact trail_trail (.env ht henv) he

theorem System.exists_trail (l : List (Action ι ε)) {p : List (Taken σ α ι) → Prop}
    [DecidablePred p] (h : (S.trail S.init [] l).any (fun r => decide (p r.1)) = true) :
    ∃ h s, Trail S h s ∧ p h := by
  cases hr : S.trail S.init [] l with
  | none => rw [hr] at h; cases h
  | some r =>
    rw [hr] at h
    exact ⟨r.1, r.2, System.trail_trail .init hr, of_decide_eq_true h⟩

end Interleave
