import AudioEngine.Lib.Story

/-!
# AudioEngine.Lib.Project

One component of a composed pool.

A `View` picks the part of the shared state that belongs to a component and, of every agent, the
agent of the component that it is, if any. `Sees v t s` says that `t` is the component of `s`; pools
are taken up to the order of their agents. If every move of the composed system is a move of the
component, a move of its environment, or no move of it at all, then every story of the composed
system tells a story of the component (`Story.project`), so what holds along all stories of the
component holds of it inside the composition.
-/

namespace Interleave

structure View (σ α τ β : Type) where
  shared : σ → τ
  agent : α → Option β

variable {σ α ι ε τ β κ η : Type} {S : System σ α ι ε} {T : System τ β κ η} {v : View σ α τ β}
  {C : Pool σ α → Move α ι ε → σ → Prop} {D : Pool τ β → Move β κ η → τ → Prop}

/-- At most one move. -/
inductive Moves (T : System τ β κ η) (D : Pool τ β → Move β κ η → τ → Prop) (t : Pool τ β) :
    Pool τ β → Prop where
  | stay : Moves T D t t
  | act {rest outs : List β} {b : β} {k : κ} {sh : τ} : t.agents.Perm (b :: rest) →
      T.act t.shared b k = some (sh, outs) → D t (.act b k) sh → Moves T D t ⟨sh, outs ++ rest⟩
  | env {outs : List β} {e : η} {sh : τ} : T.env t.shared e = some (sh, outs) → D t (.env e) sh →
      Moves T D t ⟨sh, outs ++ t.agents⟩

/-- A run of `Reach` is a story. -/
theorem Reach.story {C : σ → α → ι → Prop} {D : Pool σ α → Move α ι ε → σ → Prop} {s : Pool σ α}
    (hr : Reach S C s) (hact : ∀ s a i sh, C s.shared a i → D s (.act a i) sh)
    (henv : ∀ s e sh, D s (.env e) sh) : ∃ hist, Story S D S.init hist s := by
  induction hr with
  | init => exact ⟨[], .start⟩
  | step _ hs ih =>
    obtain ⟨hist, ht⟩ := ih
    cases hs with
    | act hp hc ha => exact ⟨_, .act ht hp ha (hact _ _ _ _ hc)⟩
    | env he => exact ⟨hist, .env ht he (henv _ _ _)⟩

theorem Story.moves {hist : List (Taken τ β κ)} {t₀ t t' : Pool τ β} (ht : Story T D t₀ hist t)
    (h : Moves T D t t') : ∃ hist', Story T D t₀ hist' t' := by
  cases h with
  | stay => exact ⟨_, ht⟩
  | act hp ha hd => exact ⟨_, .act ht hp ha hd⟩
  | env he hd => exact ⟨_, .env ht he hd⟩

structure Sees (v : View σ α τ β) (t : Pool τ β) (s : Pool σ α) : Prop where
  shared : t.shared = v.shared s.shared
  agents : t.agents.Perm (s.agents.filterMap v.agent)

theorem Sees.mem {t : Pool τ β} {s : Pool σ α} {a : α} {b : β} (h : Sees v t s) (ha : a ∈ s.agents)
    (hb : v.agent a = some b) : b ∈ t.agents :=
  h.agents.mem_iff.mpr (List.mem_filterMap.mpr ⟨a, ha, hb⟩)

/-- What a step of the agent `a` is for the component: nothing, a step of the agent's part, or a
move of the component's environment. -/
inductive Follows (T : System τ β κ η) (D : Pool τ β → Move β κ η → τ → Prop) (v : View σ α τ β)
    (t : Pool τ β) (a : α) (sh : σ) (outs : List α) : Prop where
  | idle : v.shared sh = t.shared → outs.filterMap v.agent = (v.agent a).toList →
      Follows T D v t a sh outs
  | acts {b : β} {k : κ} : v.agent a = some b →
      T.act t.shared b k = some (v.shared sh, outs.filterMap v.agent) →
      D t (.act b k) (v.shared sh) → Follows T D v t a sh outs
  | joins {e : η} : v.agent a = none →
      T.env t.shared e = some (v.shared sh, outs.filterMap v.agent) →
      D t (.env e) (v.shared sh) → Follows T D v t a sh outs

/-- What a move of the environment is for the component. -/
inductive Echoes (T : System τ β κ η) (D : Pool τ β → Move β κ η → τ → Prop) (v : View σ α τ β)
    (t : Pool τ β) (sh : σ) (outs : List α) : Prop where
  | idle : v.shared sh = t.shared → outs.filterMap v.agent = [] → Echoes T D v t sh outs
  | env {e : η} : T.env t.shared e = some (v.shared sh, outs.filterMap v.agent) →
      D t (.env e) (v.shared sh) → Echoes T D v t sh outs

section

variable {s : Pool σ α} {t : Pool τ β} {a : α} {sh : σ} {outs rest : List α}

theorem perm_filterMap_cons (f : α → Option β) (hp : s.agents.Perm (a :: rest)) :
    (s.agents.filterMap f).Perm ((f a).toList ++ rest.filterMap f) := by
  have h := hp.filterMap f
  rw [List.filterMap_cons] at h
  cases ha : f a with
  | none => rwa [ha] at h
  | some b => rwa [ha] at h

/-- **The step lemma.** -/
theorem Follows.moves (h : Follows T D v t a sh outs) (hp : s.agents.Perm (a :: rest))
    (hs : Sees v t s) : ∃ t', Moves T D t t' ∧ Sees v t' ⟨sh, outs ++ rest⟩ := by
  have hag := hs.agents.trans (perm_filterMap_cons v.agent hp)
  cases h with
  | idle hsh hout =>
    refine ⟨t, .stay, hsh.symm, ?_⟩
    rw [List.filterMap_append, hout]
    exact hag
  | @acts b k hb hact hd =>
    rw [hb] at hag
    refine ⟨_, .act hag hact hd, rfl, ?_⟩
    rw [List.filterMap_append]
    exact List.Perm.refl _
  | @joins e hnone henv hd =>
    rw [hnone] at hag
    refine ⟨_, .env henv hd, rfl, ?_⟩
    rw [List.filterMap_append]
    exact hag.append_left _

theorem Echoes.moves (h : Echoes T D v t sh outs) (hs : Sees v t s) :
    ∃ t', Moves T D t t' ∧ Sees v t' ⟨sh, outs ++ s.agents⟩ := by
  cases h with
  | idle hsh hout =>
    refine ⟨t, .stay, hsh.symm, ?_⟩
    rw [List.filterMap_append, hout]
    exact hs.agents
  | @env e henv hd =>
    refine ⟨_, .env henv hd, rfl, ?_⟩
    rw [List.filterMap_append]
    exact hs.agents.append_left _

/-- **The rule of projection.** -/
theorem Story.project {s₀ : Pool σ α} {t₀ : Pool τ β} {hist : List (Taken σ α ι)}
    (h0 : Sees v t₀ s₀)
    (hact : ∀ {hist s t a i sh outs}, Story S C s₀ hist s → a ∈ s.agents → Sees v t s →
      S.act s.shared a i = some (sh, outs) → C s (.act a i) sh → Follows T D v t a sh outs)
    (henv : ∀ {hist s t e sh outs}, Story S C s₀ hist s → Sees v t s →
      S.env s.shared e = some (sh, outs) → C s (.env e) sh → Echoes T D v t sh outs)
    (h : Story S C s₀ hist s) : ∃ hist' t, Story T D t₀ hist' t ∧ Sees v t s := by
  induction h with
  | start => exact ⟨[], t₀, .start, h0⟩
  | act hstory hp ha hc ih =>
    obtain ⟨_, t, ht, hs⟩ := ih
    obtain ⟨t', hm, hs'⟩ := (hact hstory (hp.mem_iff.mpr (by simp)) hs ha hc).moves hp hs
    obtain ⟨hist', ht'⟩ := ht.moves hm
    exact ⟨hist', t', ht', hs'⟩
  | env hstory he hc ih =>
    obtain ⟨_, t, ht, hs⟩ := ih
    obtain ⟨t', hm, hs'⟩ := (henv hstory hs he hc).moves hs
    obtain ⟨hist', ht'⟩ := ht.moves hm
    exact ⟨hist', t', ht', hs'⟩

end
end Interleave
