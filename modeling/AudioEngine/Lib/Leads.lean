import AudioEngine.Lib.Interleave
import Mathlib.Logic.Relation

/-!
# AudioEngine.Lib.Leads

Where a scheduler can lead a pool of agents.

`Leads S C s s'` says that some order of steps that meet `C` leads from `s` to `s'`. A result of the
form "from every reachable state the system can be led to a good one" is the counterpart of an
invariant: no run, however unlucky, has made the good state impossible.

`Leads.act` and `Leads.env` put one step in front, `Reach.leads` hands the end to the rules of
`Reach`, and `Leads.keeps` carries an invariant of the shared state along.
-/

namespace Interleave

variable {σ α ι ε : Type} {S : System σ α ι ε} {C D : σ → α → ι → Prop} {s s₁ s' : Pool σ α}

def Leads (S : System σ α ι ε) (C : σ → α → ι → Prop) : Pool σ α → Pool σ α → Prop :=
  Relation.ReflTransGen (Step S C)

theorem Leads.refl (s : Pool σ α) : Leads S C s s := Relation.ReflTransGen.refl

theorem Leads.trans (h : Leads S C s s₁) (h' : Leads S C s₁ s') : Leads S C s s' :=
  Relation.ReflTransGen.trans h h'

theorem Leads.mono (h : ∀ sh a i, C sh a i → D sh a i) (hl : Leads S C s s') : Leads S D s s' :=
  Relation.ReflTransGen.mono (fun _ _ hs => Step.mono h hs) _ _ hl

/-- One step of an agent, then the rest of the way. -/
theorem Leads.act {rest : List α} {a : α} {i : ι} {sh : σ} {outs : List α}
    (hp : s.agents.Perm (a :: rest)) (hc : C s.shared a i)
    (ha : S.act s.shared a i = some (sh, outs)) (hl : Leads S C ⟨sh, outs ++ rest⟩ s') :
    Leads S C s s' :=
  Relation.ReflTransGen.head (.act hp hc ha) hl

/-- One move of the environment, then the rest of the way. -/
theorem Leads.env {e : ε} {sh : σ} {outs : List α} (he : S.env s.shared e = some (sh, outs))
    (hl : Leads S C ⟨sh, outs ++ s.agents⟩ s') : Leads S C s s' :=
  Relation.ReflTransGen.head (.env he) hl

theorem Reach.leads (h : Reach S C s) (hl : Leads S C s s') : Reach S C s' := by
  induction hl with
  | refl => exact h
  | tail _ hs ih => exact .step ih hs

/-- What every step from a reachable state keeps, the whole way keeps. -/
theorem Leads.keeps {P : σ → Prop}
    (hstep : ∀ {s s'}, Reach S C s → Step S C s s' → P s.shared → P s'.shared)
    (h : Reach S C s) (hl : Leads S C s s') (hp : P s.shared) : P s'.shared := by
  induction hl with
  | refl => exact hp
  | tail hl hs ih => exact hstep (h.leads hl) hs ih

/-! ## Evaluating a schedule -/

/-- A schedule that evaluates leads to where it ends. -/
theorem System.runs_leads {B : σ → α → ι → Bool} :
    ∀ {l : List (Action ι ε)} {s s' : Pool σ α}, S.runs B s l = some s' →
      Leads S (fun sh a i => B sh a i = true) s s'
  | [], s, s', h => by
    simp only [System.runs] at h
    cases h; exact .refl s
  | .act k i :: rest, s, s', h => by
    simp only [System.runs] at h
    split at h
    · cases h
    · rename_i a hk
      split at h
      · rename_i hc
        split at h
        · cases h
        · rename_i s₁ hs
          exact Relation.ReflTransGen.head (System.step_act hk hc hs) (runs_leads h)
      · cases h
  | .env e :: rest, s, s', h => by
    simp only [System.runs] at h
    split at h
    · cases h
    · rename_i s₁ hs
      exact Relation.ReflTransGen.head (System.step_env hs) (runs_leads h)

/-- Two schedules, one after the other, whose ends satisfy `p` together. -/
theorem System.exists_leads (l l' : List (Action ι ε)) {p : Pool σ α → Pool σ α → Prop}
    [∀ s s', Decidable (p s s')]
    (h : (S.runs (fun _ _ _ => true) S.init l).any (fun s =>
      (S.runs (fun _ _ _ => true) s l').any fun s' => decide (p s s')) = true) :
    ∃ s s', Reach S (fun _ _ _ => True) s ∧ Leads S (fun _ _ _ => True) s s' ∧ p s s' := by
  obtain ⟨s, hs, h⟩ := (Option.any_eq_true _ _).mp h
  obtain ⟨s', hs', h⟩ := (Option.any_eq_true _ _).mp h
  exact ⟨s, s', (System.runs_reach .init hs).mono fun _ _ _ _ => trivial,
    (System.runs_leads hs').mono fun _ _ _ _ => trivial, of_decide_eq_true h⟩

end Interleave
