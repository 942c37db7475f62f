import AudioEngine.Semaphore.Model

/-!
# AudioEngine.Semaphore.Ledger

The book of the tokens.

`Shift` is everything one step can do with a token: leave it, take it out of the pool, give it back,
lose it in a crash, seed the pool or return a token by the reaper. From it follows the law of
conservation (`story_ledger`): as long as Redis is not wiped, what is in the pool, in the memory of
live workers and lost is what was seeded once and what the reaper returned.
-/

namespace AudioEngine
namespace Semaphore

open Interleave

/-! ## One step -/

inductive Shift (n : Nat) (r : Redis) (a : Agent) (i : Choice) (r' : Redis) (outs : List Agent) :
    Prop where
  | stays : r'.slots = r.slots → r'.init = r.init → live outs = a.token.toList →
      a.loses i = none → a.reclaims n r i = none → Shift n r a i r' outs
  | seeds : a.ensures i = true → r.init = false → r'.slots = tokens n → r'.init = true →
      a.token = none → live outs = [] → a.loses i = none → a.reclaims n r i = none →
      Shift n r a i r' outs
  | takes {t : String} : r.slots = t :: r'.slots → r'.init = r.init → a.token = none →
      live outs = [t] → a.loses i = none → a.reclaims n r i = none → Shift n r a i r' outs
  | gives {t : String} : r'.slots = r.slots ++ [t] → r'.init = r.init → a.token = some t →
      live outs = [] → a.loses i = none → a.reclaims n r i = none → Shift n r a i r' outs
  | loses {t : String} : r'.slots = r.slots → r'.init = r.init → a.token = some t →
      live outs = [] → a.loses i = some t → a.reclaims n r i = none → Shift n r a i r' outs
  | reclaims {t : String} : r.lease t = none → t ∉ r.slots → t ∈ tokens n →
      r'.slots = r.slots ++ [t] → r'.init = r.init → a.token = none → live outs = [] →
      a.loses i = none → a.reclaims n r i = some t → Shift n r a i r' outs

section Step

variable {n : Nat} {r r' : Redis} {a : Agent} {c : Client} {i : Choice} {outs : List Agent}

theorem setNx_slots (r : Redis) (t o : String) :
    (setNx r t o).slots = r.slots ∧ (setNx r t o).init = r.init := by
  unfold setNx
  split <;> exact ⟨rfl, rfl⟩

theorem setXx_slots (r : Redis) (t o : String) :
    (setXx r t o).slots = r.slots ∧ (setXx r t o).init = r.init := by
  unfold setXx
  split <;> exact ⟨rfl, rfl⟩

/-- `ensure_slots`, by an agent without a token. -/
theorem ensureSlots_shift (he : a.ensures i = true) (ha : a.token = none) (ho : live outs = [])
    (hl : a.loses i = none) (hr : a.reclaims n r i = none) :
    Shift n r a i (ensureSlots n r) outs := by
  unfold ensureSlots
  cases hinit : r.init with
  | true => exact .stays rfl rfl (by rw [ha, ho]; rfl) hl hr
  | false => exact .seeds he hinit rfl rfl ha ho hl hr

theorem client_shift (h : c.act r i = some (r', outs)) : Shift n r (.client c) i r' outs := by
  cases i with
  | crash =>
    have hr : r' = r ∧ outs = [] := by
      cases c <;> · cases h; exact ⟨rfl, rfl⟩
    obtain ⟨rfl, rfl⟩ := hr
    cases ht : c.token with
    | none => exact .stays rfl rfl (by rw [Agent.token, ht]; rfl) ht rfl
    | some t => exact .loses rfl rfl ht rfl ht rfl
  | go =>
    cases c with
    | waiting o =>
      simp only [Client.act] at h
      split at h
      · cases h
      · rename_i t rest hs
        cases h
        exact .takes hs rfl rfl rfl rfl rfl
    | popped o t =>
      cases h
      obtain ⟨hs, hi⟩ := setNx_slots r t o
      exact .stays hs hi rfl rfl rfl
    | holding o t => cases h; exact .stays rfl rfl rfl rfl rfl
    | clearing t => cases h; exact .stays rfl rfl rfl rfl rfl
    | pushing t => cases h; exact .gives rfl rfl rfl rfl rfl rfl
  | renew =>
    cases c with
    | holding o t =>
      cases h
      obtain ⟨hs, hi⟩ := setXx_slots r t o
      exact .stays hs hi rfl rfl rfl
    | _ => cases h
  | timeout =>
    cases c with
    | waiting o => cases h; exact .stays rfl rfl rfl rfl rfl
    | _ => cases h
  | startSlot o => cases c <;> cases h
  | startReseed => cases c <;> cases h
  | startReap => cases c <;> cases h

theorem reaper_shift {k x : Nat} (hk : k < n) :
    Shift n r (.reaper k x) .go (reclaim r (toString k)).1
      [.reaper (k + 1) (x + (reclaim r (toString k)).2)] := by
  unfold reclaim
  split
  · rename_i hl
    refine .stays rfl rfl rfl rfl (if_neg ?_)
    rintro ⟨_, hnone, _⟩
    rw [hnone] at hl
    cases hl
  · rename_i hl
    have hnone : r.lease (toString k) = none := Option.not_isSome_iff_eq_none.mp hl
    split
    · rename_i hmem
      exact .stays rfl rfl rfl rfl (if_neg fun h => h.2.2 hmem)
    · rename_i hmem
      exact .reclaims hnone hmem (mem_tokens.mpr ⟨k, hk, rfl⟩) rfl rfl rfl rfl rfl
        (if_pos ⟨hk, hnone, hmem⟩)

/-- **The step lemma.** -/
theorem act_shift (h : act n r a i = some (r', outs)) : Shift n r a i r' outs := by
  cases a with
  | client c => exact client_shift h
  | boot =>
    cases i with
    | go => cases h; exact ensureSlots_shift rfl rfl rfl rfl rfl
    | crash => cases h; exact .stays rfl rfl rfl rfl rfl
    | _ => cases h
  | worker =>
    cases i with
    | startSlot o => cases h; exact .stays rfl rfl rfl rfl rfl
    | startReseed => cases h; exact .stays rfl rfl rfl rfl rfl
    | startReap => cases h; exact .stays rfl rfl rfl rfl rfl
    | crash => cases h; exact .stays rfl rfl rfl rfl rfl
    | _ => cases h
  | reseeder =>
    cases i with
    | go => cases h; exact ensureSlots_shift rfl rfl rfl rfl rfl
    | crash => cases h; exact .stays rfl rfl rfl rfl rfl
    | _ => cases h
  | reaper k x =>
    cases i with
    | go =>
      simp only [act] at h
      split at h
      · rename_i hk
        cases h
        exact reaper_shift hk
      · rename_i hk
        cases h
        exact .stays rfl rfl rfl rfl (if_neg fun h => hk h.1)
    | crash => cases h; exact .stays rfl rfl rfl rfl rfl
    | _ => cases h

/-- No step takes the marker away. -/
theorem Shift.init (h : Shift n r a i r' outs) (hi : r.init = true) : r'.init = true := by
  cases h with
  | stays _ h _ _ _ => rw [h]; exact hi
  | seeds _ h _ _ _ _ _ _ => rw [h] at hi; cases hi
  | takes _ h _ _ _ _ => rw [h]; exact hi
  | gives _ h _ _ _ _ => rw [h]; exact hi
  | loses _ h _ _ _ _ => rw [h]; exact hi
  | reclaims _ _ _ _ h _ _ _ _ => rw [h]; exact hi

theorem Shift.unleased {t : String} (h : Shift n r a i r' outs) (ht : a.reclaims n r i = some t) :
    r.lease t = none := by
  cases h with
  | reclaims hnone _ _ _ _ _ _ _ hrc =>
    obtain rfl := Option.some.inj (hrc.symm.trans ht)
    exact hnone
  | stays _ _ _ _ hrc => rw [hrc] at ht; cases ht
  | seeds _ _ _ _ _ _ _ hrc => rw [hrc] at ht; cases ht
  | takes _ _ _ _ _ hrc => rw [hrc] at ht; cases ht
  | gives _ _ _ _ _ hrc => rw [hrc] at ht; cases ht
  | loses _ _ _ _ _ hrc => rw [hrc] at ht; cases ht

theorem env_live {x : Env} (h : env r x = some (r', outs)) : live outs = [] := by
  cases x <;> cases h <;> rfl

end Step

/-! ## Before the pool is seeded -/

/-- The agent may be there before any worker has seeded the pool. -/
def Agent.early : Agent → Bool
  | .boot => true
  | .client (.waiting _) => true
  | _ => false

/-- Before the pool is seeded it is empty, and nobody has a token or reaps. -/
def Unseeded (s : State) : Prop :=
  s.shared.init = false → s.shared.slots = [] ∧ ∀ a ∈ s.agents, a.early = true

section Unseeded

variable {n : Nat} {r r' : Redis} {a : Agent} {i : Choice} {agents outs : List Agent}

theorem token_early (h : a.early = true) : a.token = none := by
  unfold Agent.early at h
  split at h
  · rfl
  · rfl
  · cases h

theorem live_early (h : ∀ a ∈ agents, a.early = true) : live agents = [] := by
  rw [live, List.filterMap_eq_nil_iff]
  exact fun a ha => token_early (h a ha)

/-- Such an agent waits, goes away or seeds the pool. -/
theorem early_act (ha : a.early = true) (hs : r.slots = []) (h : act n r a i = some (r', outs))
    (hinit : r'.init = false) : r' = r ∧ ∀ b ∈ outs, b.early = true := by
  unfold Agent.early at ha
  split at ha
  · cases i with
    | go =>
      cases h
      unfold ensureSlots at hinit
      split at hinit
      · rename_i hr
        rw [hr] at hinit
        cases hinit
      · cases hinit
    | crash => cases h; exact ⟨rfl, by simp⟩
    | _ => cases h
  · cases i with
    | go =>
      simp only [act, Client.act, hs] at h
      cases h
    | timeout => cases h; exact ⟨rfl, by simp⟩
    | crash => cases h; exact ⟨rfl, by simp⟩
    | _ => cases h
  · cases ha

end Unseeded

/-! ## The law of conservation -/

/-- Redis keeps its keys, but for leases that expire. -/
def kept : Moving → Bool
  | .env .wipe => false
  | _ => true

/-- The tokens of the first `ensure_slots`. -/
def seeded (n : Nat) (r : Redis) : List String := if r.init then tokens n else []

/-- The tokens lost in crashes, with repetitions. -/
def lost (hist : List (Taken Redis Agent Choice)) : List String :=
  hist.filterMap fun x => x.agent.loses x.choice

/-- The tokens returned by the reaper, with repetitions. -/
def reclaimed (n : Nat) (hist : List (Taken Redis Agent Choice)) : List String :=
  hist.filterMap fun x => x.agent.reclaims n x.before x.choice

/-- What is there and what is lost is what was seeded or returned. -/
def Balanced (n : Nat) (hist : List (Taken Redis Agent Choice)) (s : State) : Prop :=
  (s.shared.slots ++ live s.agents ++ lost hist).Perm (seeded n s.shared ++ reclaimed n hist)

section Ledger

variable {n : Nat} {r r' : Redis} {a : Agent} {i : Choice} {outs rest : List Agent}
  {hist : List (Taken Redis Agent Choice)} {s : State}

theorem lost_cons : lost (⟨r, a, i, r'⟩ :: hist) = (a.loses i).toList ++ lost hist := by
  rw [lost, List.filterMap_cons]
  cases a.loses i <;> simp [lost]

theorem reclaimed_cons :
    reclaimed n (⟨r, a, i, r'⟩ :: hist) = (a.reclaims n r i).toList ++ reclaimed n hist := by
  rw [reclaimed, List.filterMap_cons]
  cases a.reclaims n r i <;> simp [reclaimed]

/-- One step, entered in the book. -/
theorem Shift.balanced (h : Shift n r a i r' outs) (hp : s.agents.Perm (a :: rest))
    (hr : s.shared = r) (hu : Unseeded s) (hb : Balanced n hist s) :
    Balanced n (⟨r, a, i, r'⟩ :: hist) ⟨r', outs ++ rest⟩ := by
  have hlive := live_perm hp
  rw [Balanced, List.perm_iff_count] at hb ⊢
  intro t
  have hb := hb t
  have hlive := hlive.count_eq t
  simp only [hr] at hb
  rw [lost_cons, reclaimed_cons, live_append]
  simp only [List.count_append] at hb hlive ⊢
  cases h with
  | stays hslots hinit hout hl hrc =>
    rw [hslots, hout, hl, hrc]
    simp only [seeded, hinit] at hb ⊢
    simp only [Option.toList_none, List.count_nil] at *
    omega
  | seeds _ hinit hslots hinit' ha hout hl hrc =>
    obtain ⟨hnil, hearly⟩ := hu (by rw [hr]; exact hinit)
    rw [hr] at hnil
    rw [live_early hearly] at hb hlive
    rw [hslots, hout, hl, hrc]
    simp only [seeded, hinit, hinit', hnil, ha, Bool.false_eq_true, if_false, if_true] at hb hlive ⊢
    simp only [Option.toList_none, List.count_nil] at *
    omega
  | takes hslots hinit ha hout hl hrc =>
    rw [hslots] at hb
    rw [hout, hl, hrc]
    simp only [seeded, hinit, ha] at hb hlive ⊢
    simp only [Option.toList_none, List.count_nil, List.count_cons] at *
    omega
  | gives hslots hinit ha hout hl hrc =>
    rw [hslots, hout, hl, hrc]
    simp only [seeded, hinit, ha] at hb hlive ⊢
    simp only [Option.toList_none, Option.toList_some, List.count_append, List.count_nil] at *
    omega
  | loses hslots hinit ha hout hl hrc =>
    rw [hslots, hout, hl, hrc]
    simp only [seeded, hinit, ha] at hb hlive ⊢
    simp only [Option.toList_none, List.count_nil] at *
    omega
  | reclaims _ _ _ hslots hinit ha hout hl hrc =>
    rw [hslots, hout, hl, hrc]
    simp only [seeded, hinit, ha] at hb hlive ⊢
    simp only [Option.toList_none, Option.toList_some, List.count_append, List.count_nil] at *
    omega

theorem env_kept {x : Env} (h : env r x = some (r', outs)) (hk : kept (.env x) = true) :
    r'.slots = r.slots ∧ r'.init = r.init ∧ ∀ b ∈ outs, b.early = true := by
  cases x with
  | boot =>
    cases h
    refine ⟨rfl, rfl, ?_⟩
    rw [List.forall_mem_singleton]
    rfl
  | slot o =>
    cases h
    refine ⟨rfl, rfl, ?_⟩
    rw [List.forall_mem_singleton]
    rfl
  | expire t => cases h; exact ⟨rfl, rfl, by simp⟩
  | wipe => cases hk

variable {D : State → Moving → Redis → Prop}

theorem story_unseeded (hD : ∀ s m r, D s m r → kept m = true)
    (ht : Story (system n) D (system n).init hist s) : Unseeded s := by
  induction ht with
  | start => exact fun _ => ⟨rfl, by simp [system]⟩
  | @act hist s rest a i r' outs _ hp ha _ ih =>
    intro hinit
    have hbefore : s.shared.init = false := by
      cases hb : s.shared.init with
      | false => rfl
      | true => rw [(act_shift ha).init hb] at hinit; cases hinit
    obtain ⟨hnil, hearly⟩ := ih hbefore
    obtain ⟨rfl, houts⟩ := early_act (hearly a (hp.mem_iff.mpr (by simp))) hnil ha hinit
    refine ⟨hnil, fun b hb => ?_⟩
    rcases List.mem_append.mp hb with hb | hb
    · exact houts b hb
    · exact hearly b (hp.mem_iff.mpr (by simp [hb]))
  | @env hist s e r' outs _ he hd ih =>
    intro hinit
    obtain ⟨hs, hi, houts⟩ := env_kept he (hD _ _ _ hd)
    obtain ⟨hnil, hearly⟩ := ih (by rw [← hi]; exact hinit)
    refine ⟨hs.trans hnil, fun b hb => ?_⟩
    rcases List.mem_append.mp hb with hb | hb
    · exact houts b hb
    · exact hearly b hb

/-- **Conservation.** -/
theorem story_ledger (hD : ∀ s m r, D s m r → kept m = true)
    (ht : Story (system n) D (system n).init hist s) : Balanced n hist s := by
  induction ht with
  | start => exact List.Perm.refl _
  | act ht hp ha _ ih => exact (act_shift ha).balanced hp rfl (story_unseeded hD ht) ih
  | @env hist s e r' outs ht he hd ih =>
    obtain ⟨hs, hi, _⟩ := env_kept he (hD _ _ _ hd)
    have hseeded : seeded n r' = seeded n s.shared := by rw [seeded, hi, seeded]
    have hlive : live (outs ++ s.agents) = live s.agents := by
      rw [live_append, env_live he, List.nil_append]
    rw [Balanced, hs, hseeded, hlive]
    exact ih

end Ledger

end Semaphore
end AudioEngine
