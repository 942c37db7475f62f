import AudioEngine.Lib.Leads
import Mathlib.Logic.Hydra

/-!
# AudioEngine.Lib.Settle

When a pool of agents comes to rest.

`Acts S C s s'` is a step of an agent, the environment left out. If an agent that acts only leaves
agents below itself in a well-founded order, the multiset of agents goes down at every step: no
schedule goes on forever, whatever it picks, and one that cannot go on has reached a pool in which
nobody can act.
-/

namespace Interleave

variable {σ α ι ε : Type} {S : System σ α ι ε} {C D : σ → α → ι → Prop} {s s₁ s' : Pool σ α}

inductive Acts (S : System σ α ι ε) (C : σ → α → ι → Prop) : Pool σ α → Pool σ α → Prop where
  | act {s : Pool σ α} {rest : List α} {a : α} {i : ι} {sh : σ} {outs : List α} :
      s.agents.Perm (a :: rest) → C s.shared a i → S.act s.shared a i = some (sh, outs) →
      Acts S C s ⟨sh, outs ++ rest⟩

theorem Acts.step (h : Acts S C s s') : Step S C s s' := by
  cases h with
  | act hp hc ha => exact .act hp hc ha

theorem Acts.mono (h : ∀ sh a i, C sh a i → D sh a i) (ha : Acts S C s s') : Acts S D s s' := by
  cases ha with
  | act hp hc hact => exact .act hp (h _ _ _ hc) hact

/-- A schedule without the environment. -/
def Schedule (S : System σ α ι ε) (C : σ → α → ι → Prop) : Pool σ α → Pool σ α → Prop :=
  Relation.ReflTransGen (Acts S C)

theorem Schedule.leads (h : Schedule S C s s') : Leads S C s s' :=
  Relation.ReflTransGen.mono (fun _ _ ha => ha.step) _ _ h

section Descent

variable {r : α → α → Prop}

/-- The agents after a step, as a multiset, are those before it with one of them replaced by
smaller ones. -/
theorem cutExpand_of_act {rest outs : List α} {a : α} {sh : σ} (hp : s.agents.Perm (a :: rest))
    (hr : ∀ b ∈ outs, r b a) :
    Relation.CutExpand r (⟨sh, outs ++ rest⟩ : Pool σ α).agents s.agents := by
  refine ⟨outs, a, hr, ?_⟩
  rw [Multiset.coe_eq_coe.mpr hp, ← Multiset.coe_add, ← Multiset.cons_coe, ← Multiset.singleton_add]
  ac_rfl

/-- **The rule of descent**, from a state with an invariant of the schedule. -/
theorem acc_of_descends {I : Pool σ α → Prop} (hwf : WellFounded r)
    (hkeep : ∀ {s s'}, I s → Acts S C s s' → I s')
    (hdesc : ∀ {s a i sh outs}, I s → a ∈ s.agents → C s.shared a i →
      S.act s.shared a i = some (sh, outs) → ∀ b ∈ outs, r b a)
    (h : I s) : Acc (fun s' s => Acts S C s s') s := by
  have hacc : Acc (Relation.CutExpand r) (s.agents : Multiset α) := hwf.cutExpand.apply _
  generalize hm : (s.agents : Multiset α) = m at hacc
  induction hacc generalizing s with
  | intro m _ ih =>
    refine Acc.intro s fun s' hs => ?_
    have hI := hkeep h hs
    cases hs with
    | act hp hc ha =>
      subst hm
      exact ih _ (cutExpand_of_act hp (hdesc h (hp.mem_iff.mpr (by simp)) hc ha)) hI rfl

theorem Reach.descends (hwf : WellFounded r) (hCD : ∀ sh a i, C sh a i → D sh a i)
    (hdesc : ∀ {s a i sh outs}, Reach S D s → a ∈ s.agents → C s.shared a i →
      S.act s.shared a i = some (sh, outs) → ∀ b ∈ outs, r b a)
    (h : Reach S D s) : Acc (fun s' s => Acts S C s s') s :=
  acc_of_descends hwf (fun h hs => .step h (hs.mono hCD).step) hdesc h

/-- No schedule goes on forever. -/
theorem no_endless_of_acc (h : Acc (fun s' s => Acts S C s s') s) :
    ¬ ∃ f : Nat → Pool σ α, f 0 = s ∧ ∀ n, Acts S C (f n) (f (n + 1)) := by
  induction h with
  | intro s _ ih =>
    rintro ⟨f, rfl, hf⟩
    exact ih (f 1) (hf 0) ⟨fun n => f (n + 1), rfl, fun n => hf (n + 1)⟩

end Descent

theorem Schedule.keeps {I : Pool σ α → Prop} (hkeep : ∀ {s s'}, I s → Acts S C s s' → I s')
    (h : I s) (hs : Schedule S C s s') : I s' := by
  induction hs with
  | refl => exact h
  | tail _ ha ih => exact hkeep ih ha

/-- **Duties over a schedule.** While `P` lasts, whoever owes passes it on. -/
theorem Schedule.owed {P : σ → Prop} {O : α → Prop} (hCD : ∀ sh a i, C sh a i → D sh a i)
    (hback : ∀ {s s'}, Reach S D s → Acts S C s s' → P s'.shared → P s.shared)
    (hpass : ∀ {s a i sh outs}, Reach S D s → a ∈ s.agents → C s.shared a i →
      S.act s.shared a i = some (sh, outs) → P sh → O a → ∃ b ∈ outs, O b)
    (h : Reach S D s) (hs : Schedule S C s s') (ho : ∃ a ∈ s.agents, O a) :
    P s'.shared → ∃ a ∈ s'.agents, O a := by
  induction hs with
  | refl => exact fun _ => ho
  | @tail s₁ s' hs hact ih =>
    intro hP
    have h₁ : Reach S D s₁ := h.leads ((Schedule.leads hs).mono hCD)
    obtain ⟨b, hb, hob⟩ := ih (hback h₁ hact hP)
    cases hact with
    | @act rest a i sh outs hp hc ha =>
      rcases List.mem_cons.mp (hp.mem_iff.mp hb) with rfl | hb
      · obtain ⟨d, hd, hod⟩ := hpass h₁ (hp.mem_iff.mpr (by simp)) hc ha hP hob
        exact ⟨d, by simp [hd], hod⟩
      · exact ⟨b, by simp [hb], hob⟩

/-! ## Evaluating a schedule -/

/-- A list of agents' steps that evaluates is a schedule. -/
theorem System.runs_schedule {B : σ → α → ι → Bool} :
    ∀ {l : List (Nat × ι)} {s s' : Pool σ α},
      S.runs B s (l.map fun x => .act x.1 x.2) = some s' →
      Schedule S (fun sh a i => B sh a i = true) s s'
  | [], s, s', h => by
    cases h
    exact Relation.ReflTransGen.refl
  | (k, i) :: l, s, s', h => by
    simp only [List.map_cons, System.runs] at h
    split at h
    · cases h
    · rename_i a hk
      split at h
      · rename_i hc
        split at h
        · cases h
        · rename_i s₁ hs
          refine Relation.ReflTransGen.head ?_ (runs_schedule h)
          simp only [System.step, hk] at hs
          split at hs
          · cases hs
          · rename_i sh outs ha
            cases hs
            obtain ⟨hlt, rfl⟩ := List.getElem?_eq_some_iff.mp hk
            exact .act (List.getElem_cons_eraseIdx_perm hlt).symm hc ha
      · cases h

end Interleave
