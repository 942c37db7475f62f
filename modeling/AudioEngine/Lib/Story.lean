import AudioEngine.Lib.Interleave

/-!
# AudioEngine.Lib.Story

Runs of a pool from any state, under a condition on whole moves.

`Reach` conditions the steps of the agents on the shared state alone and leaves the environment
free. `Story S D s₀ h s` is a run from `s₀` to `s` whose every move, also of the environment, meets
`D`: a condition on the whole pool before the move, the move, and the shared state after it. `h`
lists the steps the agents took, newest first.

`Story.induct` is the rule for an invariant of history and pool; `Story.reach` hands a story that
begins in the initial state to the rules of `Reach`. `Story.endless` gives runs of every length when
no run gets stuck.
-/

namespace Interleave

variable {σ α ι ε : Type}

/-- A move of the scheduler. -/
inductive Move (α ι ε : Type) where
  | act (a : α) (i : ι)
  | env (e : ε)

inductive Story (S : System σ α ι ε) (D : Pool σ α → Move α ι ε → σ → Prop) (s₀ : Pool σ α) :
    List (Taken σ α ι) → Pool σ α → Prop where
  | start : Story S D s₀ [] s₀
  | act {h : List (Taken σ α ι)} {s : Pool σ α} {rest : List α} {a : α} {i : ι} {sh : σ}
      {outs : List α} : Story S D s₀ h s → s.agents.Perm (a :: rest) →
      S.act s.shared a i = some (sh, outs) → D s (.act a i) sh →
      Story S D s₀ (⟨s.shared, a, i, sh⟩ :: h) ⟨sh, outs ++ rest⟩
  | env {h : List (Taken σ α ι)} {s : Pool σ α} {e : ε} {sh : σ} {outs : List α} :
      Story S D s₀ h s → S.env s.shared e = some (sh, outs) → D s (.env e) sh →
      Story S D s₀ h ⟨sh, outs ++ s.agents⟩

variable {S : System σ α ι ε} {D : Pool σ α → Move α ι ε → σ → Prop} {s₀ s : Pool σ α}
  {h : List (Taken σ α ι)}

theorem Story.reach (ht : Story S D S.init h s) : Reach S (fun _ _ _ => True) s := by
  induction ht with
  | start => exact .init
  | act _ hp ha _ ih => exact .step ih (.act hp trivial ha)
  | env _ he _ ih => exact .step ih (.env he)

/-- An invariant of history and pool: it holds at the start and every move keeps it. -/
theorem Story.induct {I : List (Taken σ α ι) → Pool σ α → Prop} (h0 : I [] s₀)
    (hact : ∀ {h s rest a i sh outs}, Story S D s₀ h s → I h s → s.agents.Perm (a :: rest) →
      S.act s.shared a i = some (sh, outs) → D s (.act a i) sh →
      I (⟨s.shared, a, i, sh⟩ :: h) ⟨sh, outs ++ rest⟩)
    (henv : ∀ {h s e sh outs}, Story S D s₀ h s → I h s → S.env s.shared e = some (sh, outs) →
      D s (.env e) sh → I h ⟨sh, outs ++ s.agents⟩)
    (ht : Story S D s₀ h s) : I h s := by
  induction ht with
  | start => exact h0
  | act ht hp ha hd ih => exact hact ht ih hp ha hd
  | env ht he hd ih => exact henv ht ih he hd

/-- **Rely/guarantee** with a history: `G` is the invariant of history and shared state, `A` the
assertion an agent makes, `R` what a move may do as far as the other agents are concerned. -/
theorem Story.rely {G : List (Taken σ α ι) → σ → Prop} {A : σ → α → Prop} {R : σ → σ → Prop}
    (hG : G [] s₀.shared) (hA : ∀ a ∈ s₀.agents, A s₀.shared a)
    (hact : ∀ {h s a i sh outs}, G h s.shared → A s.shared a →
      S.act s.shared a i = some (sh, outs) → D s (.act a i) sh →
      G (⟨s.shared, a, i, sh⟩ :: h) sh ∧ R s.shared sh ∧ ∀ b ∈ outs, A sh b)
    (henv : ∀ {h s e sh outs}, G h s.shared → S.env s.shared e = some (sh, outs) →
      D s (.env e) sh → G h sh ∧ R s.shared sh ∧ ∀ b ∈ outs, A sh b)
    (hst : ∀ {sh sh' b}, R sh sh' → A sh b → A sh' b) (ht : Story S D s₀ h s) :
    G h s.shared ∧ ∀ a ∈ s.agents, A s.shared a := by
  refine Story.induct (I := fun h s => G h s.shared ∧ ∀ a ∈ s.agents, A s.shared a)
    ⟨hG, hA⟩ ?_ ?_ ht
  · intro h s rest a i sh outs _ ih hp ha hd
    obtain ⟨g, r, houts⟩ := hact ih.1 (ih.2 a (hp.mem_iff.mpr (by simp))) ha hd
    refine ⟨g, fun b hb => ?_⟩
    rcases List.mem_append.mp hb with hb | hb
    · exact houts b hb
    · exact hst r (ih.2 b (hp.mem_iff.mpr (by simp [hb])))
  · intro h s e sh outs _ ih he hd
    obtain ⟨g, r, houts⟩ := henv ih.1 he hd
    refine ⟨g, fun b hb => ?_⟩
    rcases List.mem_append.mp hb with hb | hb
    · exact houts b hb
    · exact hst r (ih.2 b hb)

/-- A system that is never stuck has runs of every length. -/
theorem Story.endless (hgo : ∀ {h s}, Story S D s₀ h s → ∃ a ∈ s.agents, ∃ i sh outs,
      S.act s.shared a i = some (sh, outs) ∧ D s (.act a i) sh) (n : Nat) :
    ∃ h s, Story S D s₀ h s ∧ h.length = n := by
  induction n with
  | zero => exact ⟨[], s₀, .start, rfl⟩
  | succ n ih =>
    obtain ⟨h, s, ht, hn⟩ := ih
    obtain ⟨a, hmem, i, sh, outs, ha, hd⟩ := hgo ht
    obtain ⟨l₁, l₂, hl⟩ := List.append_of_mem hmem
    refine ⟨_, _, .act ht (hl ▸ List.perm_middle) ha hd, ?_⟩
    rw [List.length_cons, hn]

/-! ## Evaluating a schedule -/

/-- Run a schedule, checking the condition of every move and collecting the agents' steps. -/
def System.tells (S : System σ α ι ε) (d : Pool σ α → Move α ι ε → σ → Bool) :
    Pool σ α → List (Taken σ α ι) → List (Action ι ε) → Option (List (Taken σ α ι) × Pool σ α)
  | s, h, [] => some (h, s)
  | s, h, .act k i :: rest =>
    match s.agents[k]? with
    | none => none
    | some a =>
      match S.act s.shared a i with
      | none => none
      | some (sh, outs) =>
        if d s (.act a i) sh then
          S.tells d ⟨sh, outs ++ s.agents.eraseIdx k⟩ (⟨s.shared, a, i, sh⟩ :: h) rest
        else none
  | s, h, .env e :: rest =>
    match S.env s.shared e with
    | none => none
    | some (sh, outs) =>
      if d s (.env e) sh then S.tells d ⟨sh, outs ++ s.agents⟩ h rest else none

theorem System.tells_story {d : Pool σ α → Move α ι ε → σ → Bool}
    (hd : ∀ s m sh, d s m sh = true → D s m sh) :
    ∀ {l : List (Action ι ε)} {s s' : Pool σ α} {h h' : List (Taken σ α ι)}, Story S D s₀ h s →
      S.tells d s h l = some (h', s') → Story S D s₀ h' s'
  | [], s, s', h, h', ht, he => by
    cases he; exact ht
  | .act k i :: rest, s, s', h, h', ht, he => by
    simp only [System.tells] at he
    split at he
    · cases he
    · rename_i a hk
      split at he
      · cases he
      · rename_i sh outs ha
        split at he
        · rename_i hc
          obtain ⟨hlt, rfl⟩ := List.getElem?_eq_some_iff.mp hk
          have hp := (List.getElem_cons_eraseIdx_perm hlt).symm
          exact tells_story hd (.act ht hp ha (hd _ _ _ hc)) he
        · cases he
  | .env e :: rest, s, s', h, h', ht, he => by
    simp only [System.tells] at he
    split at he
    · cases he
    · rename_i sh outs henv
      split at he
      · rename_i hc
        exact tells_story hd (.env ht henv (hd _ _ _ hc)) he
      · cases he

/-- A schedule whose history and end satisfy `p` exhibits a story that does. -/
theorem System.exists_story {d : Pool σ α → Move α ι ε → σ → Bool}
    (hd : ∀ s m sh, d s m sh = true → D s m sh) (l : List (Action ι ε))
    {p : List (Taken σ α ι) → Pool σ α → Prop} [∀ h s, Decidable (p h s)]
    (hp : (S.tells d s₀ [] l).any (fun r => decide (p r.1 r.2)) = true) :
    ∃ h s, Story S D s₀ h s ∧ p h s := by
  cases hr : S.tells d s₀ [] l with
  | none => rw [hr] at hp; cases hp
  | some r =>
    rw [hr] at hp
    exact ⟨r.1, r.2, System.tells_story hd .start hr, of_decide_eq_true hp⟩

end Interleave
