import AudioEngine.Engine.Limit
import AudioEngine.Pipeline.Settling

/-!
# AudioEngine.Engine.Settling

The whole engine comes to rest.

A handler that synthesises holds the in-flight lock of its block while it waits for a token, and the
handlers that lost the race for the lock wait for the cache. Nobody waits in a circle: whoever holds
a token waits for nothing, and whoever waits for the cache has no token and a bounded budget. With
the rank of the pipeline before the steps of the slot every step goes down, and a pool that heals
leaves no `BLPOP` waiting.
-/

namespace AudioEngine
namespace Engine

open Interleave
open Pipeline (Copy Raised)

/-- The agent goes on. -/
abbrev goes (_ : Shared) (_ : Agent) (i : Choice) : Prop := i = .step .go

/-- The agent goes on, or its heartbeat renews a lease. -/
abbrev works (_ : Shared) (_ : Agent) (i : Choice) : Prop := i = .step .go ∨ i = .renew

/-! ## The rank of an agent -/

/-- How many steps the slot takes from here, at most. -/
def SlotPc.ahead : SlotPc → Nat
  | .waiting => 6
  | .popped _ => 5
  | .body _ => 4
  | .leaving _ => 3
  | .clearing _ _ => 2
  | .pushing _ _ => 1

def Agent.rank (cfg : Settings) (n : Nat) : Agent → (Nat × Nat × Nat × Nat) × Nat
  | .plain a => (a.rank cfg, 7)
  | .slot c text pc =>
    ((Pipeline.Agent.copy { c with stage := .work (.tts (pc.work text)) }).rank cfg, pc.ahead)
  | .maintenance a => ((0, 0, 0, 0), a.ahead n)

/-- Lexicographically below: first in the pipeline, then in the slot. -/
def Below (cfg : Settings) (n : Nat) (b a : Agent) : Prop :=
  Prod.Lex (Prod.Lex (· < ·) (Prod.Lex (· < ·) Pipeline.Before)) (· < ·) (b.rank cfg n)
    (a.rank cfg n)

theorem below_wf (cfg : Settings) (n : Nat) : WellFounded (Below cfg n) :=
  InvImage.wf _ (WellFounded.prod_lex (Nat.lt_wfRel.wf.prod_lex
    (Nat.lt_wfRel.wf.prod_lex (Nat.lt_wfRel.wf.prod_lex Nat.lt_wfRel.wf))) Nat.lt_wfRel.wf)

section Descent

variable {cfg : Settings} {n : Nat} {sh sh' : Shared} {c : Copy} {text : String} {pc pc' : SlotPc}
  {outs : List Agent}

/-- A step inside the slot that the pipeline does not see. -/
theorem below_slot (hpc : pc'.work text = pc.work text) (h : pc'.ahead < pc.ahead) :
    Below cfg n (.slot c text pc') (.slot c text pc) := by
  rw [Below, Agent.rank, Agent.rank, hpc]
  exact .right _ h

theorem slot_descends
    (hh : (Pipeline.Agent.copy { c with stage := .work (.tts (pc.work text)) }).Holds cfg sh.data)
    (h : slotAct sh c text pc (.step .go) = some (sh', outs)) :
    ∀ b ∈ outs, Below cfg n b (.slot c text pc) := by
  cases pc with
  | waiting =>
    simp only [slotAct] at h
    split at h
    · cases h
    · cases h
      rw [List.forall_mem_singleton]
      exact below_slot rfl (by simp [SlotPc.ahead])
  | popped token =>
    cases h
    rw [List.forall_mem_singleton]
    exact .left _ _ (Pipeline.act_descends hh rfl _ (List.mem_singleton_self _))
  | body token =>
    cases h
    rw [List.forall_mem_singleton]
    exact .left _ _ (Pipeline.act_descends hh rfl _ (List.mem_singleton_self _))
  | leaving token =>
    cases h
    rw [List.forall_mem_singleton]
    exact below_slot rfl (by simp [SlotPc.ahead])
  | clearing token exc =>
    cases h
    rw [List.forall_mem_singleton]
    exact below_slot (by cases exc <;> rfl) (by simp [SlotPc.ahead])
  | pushing token exc =>
    cases h
    rw [List.forall_mem_singleton]
    cases exc with
    | none => exact .left _ _ (Pipeline.act_descends hh rfl _ (List.mem_singleton_self _))
    | some exc =>
      -- the exception of the body goes on to the `finally` of `_synthesize`
      refine .left _ _ (Pipeline.below_stage
        (c := { c with stage := .work (.tts (.putAudio text)) }) (.left _ _ ?_))
      omega

/-- **The step lemma.** -/
theorem act_descends {a : Agent} (hh : ∀ b, a.data = some b → b.Holds cfg sh.data)
    (h : act cfg n sh a (.step .go) = some (sh', outs)) : ∀ b ∈ outs, Below cfg n b a := by
  cases a with
  | plain a =>
    rcases plainAct_cases h with ⟨c, text, he, _, _, rfl⟩ | ⟨_, d, l, hact, _, rfl⟩
    · obtain ⟨rfl, hst⟩ := entersSlot_eq_some he
      have hc : ({ c with stage := .work (.tts (.enterSlot text)) } : Copy) = c := by rw [← hst]
      rw [List.forall_mem_singleton, Below, Agent.rank, Agent.rank, SlotPc.work, hc]
      exact .right _ (by simp [SlotPc.ahead])
    · intro b hb
      obtain ⟨b', hb', rfl⟩ := List.mem_map.mp hb
      exact .left _ _ (Pipeline.act_descends (hh a rfl) hact b' hb')
  | slot c text pc => exact slot_descends (hh _ rfl) h
  | maintenance a =>
    obtain ⟨k, r, l, hk, hact, _, rfl⟩ := maintenance_cases h
    cases hk
    intro b hb
    obtain ⟨b', hb', rfl⟩ := List.mem_map.mp hb
    exact .right _ (Semaphore.go_ahead hact b' hb')

end Descent

/-! ## The pool of tokens -/

/-- The semaphore inside the engine heals. -/
def Healing (n : Nat) (s : State) : Prop := ∃ t, Semaphore.Healing n t ∧ Sees semView t s

section Heals

variable {cfg : Settings} {n : Nat} {s s' : State} {t t' : Semaphore.State}

/-- What the semaphore does while the engine goes on. -/
def Calm (_ : Semaphore.State) (m : Semaphore.Moving) (_ : Semaphore.Redis) : Prop :=
  match m with
  | .act _ k => k = .go ∨ k = .renew
  | .env e => ∃ o, e = .slot o

theorem healing_moves (h : Semaphore.Healing n t) (hm : Moves (Semaphore.system n) Calm t t') :
    Semaphore.Healing n t' := by
  cases hm with
  | stay => exact h
  | act hp ha hd => exact h.step (.act hp hd ha)
  | env he hd =>
    obtain ⟨o, rfl⟩ := hd
    cases he
    exact h.join o

theorem Healing.step (h : Healing n s) (ha : Acts (system cfg n) works s s') : Healing n s' := by
  obtain ⟨t, ht, hs⟩ := h
  cases ha with
  | @act rest a i sh outs hp hw ha =>
    have hf : Follows (Semaphore.system n) Calm semView t a sh outs := by
      refine sem_follows (fun c k r hm => ?_) (fun o r => ⟨o, rfl⟩) (fun b k _ hk => ?_) ha hs.shared
      · exact hw.imp hm.go hm.renew
      · rcases hw with rfl | rfl
        · exact .inl (Option.some.inj hk).symm
        · cases hk
    obtain ⟨t', hm, hs'⟩ := hf.moves hp hs
    exact ⟨t', healing_moves ht hm, hs'⟩

end Heals

/-! ## Rest -/

section Rest

variable {cfg : Settings} {n : Nat} {s : State} {t : Semaphore.State}

theorem stuck_of_rest (hrest : ∀ s', ¬ Acts (system cfg n) goes s s') {a : Agent}
    (ha : a ∈ s.agents) : act cfg n s.shared a (.step .go) = none := by
  cases hact : act cfg n s.shared a (.step .go) with
  | none => rfl
  | some p =>
    obtain ⟨l₁, l₂, hl⟩ := List.append_of_mem ha
    exact absurd (.act (hl ▸ List.perm_middle) rfl hact) (hrest _)

/-- Nothing but a `BLPOP` on an empty pool keeps a delivery from going on. -/
theorem stuck_cases {sh : Shared} {a : Agent} (h : act cfg n sh a (.step .go) = none) :
    (∃ b, a = .maintenance b ∧ Semaphore.act n sh.sem b .go = none) ∨
      sh.sem.slots = [] ∧ ∃ c text, a = .slot c text .waiting := by
  cases a with
  | plain a =>
    exfalso
    simp only [act, plainAct] at h
    split at h
    · cases h
    · rename_i hne
      obtain ⟨r, hr⟩ := Option.isSome_iff_exists.mp (Pipeline.go_enabled cfg sh.data a)
      rw [hr] at h
      cases h
  | slot c text pc =>
    cases pc with
    | waiting =>
      simp only [act, slotAct] at h
      split at h
      · rename_i hs
        exact .inr ⟨hs, c, text, rfl⟩
      · cases h
    | _ => cases h
  | maintenance a =>
    have h : ((Semaphore.act n sh.sem a .go).map fun r =>
        ({ sh with sem := r.1 }, r.2.map Agent.maintenance)) = none := h
    exact .inl ⟨a, rfl, Option.map_eq_none_iff.mp h⟩

/-- At rest the semaphore is at rest. -/
theorem sem_rest (hs : Sees semView t s) (hrest : ∀ s', ¬ Acts (system cfg n) goes s s') :
    ∀ t', ¬ Acts (Semaphore.system n) Semaphore.Goes t t' := by
  intro t' ha
  cases ha with
  | @act rest b i r outs hp hc hact =>
    cases hc
    have hb : b ∈ t.agents := hp.mem_iff.mpr (by simp)
    obtain ⟨a, ha, hab⟩ := List.mem_filterMap.mp (hs.agents.mem_iff.mp hb)
    rw [hs.shared] at hact
    rcases stuck_cases (stuck_of_rest hrest ha) with ⟨b', rfl, hnone⟩ | ⟨hnil, c, text, rfl⟩
    · cases hab
      have hnone : (Semaphore.system n).act (semView.shared s.shared) b .go = none := hnone
      rw [hnone] at hact
      cases hact
    · cases hab
      have hnil : (semView.shared s.shared).slots = [] := hnil
      simp only [Semaphore.system, Semaphore.act, SlotPc.client, Semaphore.Client.act, hnil] at hact
      cases hact

theorem Healing.rest (hn : 0 < n) (h : Healing n s) (hrest : ∀ s', ¬ Acts (system cfg n) goes s s') :
    (∀ a ∈ s.agents, a = .maintenance .worker) ∧
      ∀ token ∈ Semaphore.tokens n, token ∈ s.shared.sem.slots := by
  obtain ⟨t, ht, hs⟩ := h
  obtain ⟨hidle, hpool⟩ := ht.rest hn (sem_rest hs hrest)
  rw [hs.shared] at hpool
  refine ⟨fun a ha => ?_, hpool⟩
  rcases stuck_cases (stuck_of_rest hrest ha) with ⟨b, rfl, _⟩ | ⟨_, c, text, rfl⟩
  · rw [hidle b (hs.mem ha rfl)]
  · have := hidle _ (hs.mem ha rfl)
    cases this

end Rest

/-- Whatever has happened, with messages, slots, locks and tokens in any state that a run can reach:
when the leases of dead holders have expired and a pass of the reaper begins, no schedule of steps
that go on is endless; and where one stops, with any renewals in between, only idle workers are
left, no message, request or sweep, and every token is in the pool. -/
theorem engine_settles {cfg : Settings} {n : Nat} (hn : 0 < n) {s : State}
    (h : Reach (system cfg n) (fun _ _ _ => True) s) (hstray : Semaphore.NoStray (semOf s)) {x : Nat}
    (hreap : .maintenance (.reaper 0 x) ∈ s.agents) :
    (¬ ∃ f : Nat → State, f 0 = s ∧ ∀ k, Acts (system cfg n) goes (f k) (f (k + 1))) ∧
    ∀ s', Schedule (system cfg n) works s s' → (∀ s'', ¬ Acts (system cfg n) goes s' s'') →
      (∀ a ∈ s'.agents, a = .maintenance .worker) ∧
        ∀ token ∈ Semaphore.tokens n, token ∈ s'.shared.sem.slots := by
  have hheal : Healing n s := by
    refine ⟨semOf s, ⟨hstray, fun k _ => .inr (.inr ⟨0, x, ?_, Nat.zero_le k⟩)⟩, rfl, .refl _⟩
    exact List.mem_filterMap.mpr ⟨_, hreap, rfl⟩
  refine ⟨no_endless_of_acc ?_, fun s' hs hrest => ?_⟩
  · refine Reach.descends (below_wf cfg n) (fun _ _ _ _ => trivial) ?_ h
    intro s a i sh outs hr ha hi hact
    subst hi
    obtain ⟨t, ht, hsees⟩ := reach_data hr
    refine act_descends (fun b hb => ?_) hact
    have hholds := (Pipeline.reach_data ht).2 b (hsees.mem ha hb)
    rwa [hsees.shared] at hholds
  · exact (Schedule.keeps (fun h ha => h.step ha) hheal hs).rest hn hrest

/-- The agent waits for a token. -/
def Agent.waits : Agent → Bool
  | .slot _ _ .waiting => true
  | _ => false

set_option maxRecDepth 4000 in
/-- A delivery has crashed with the only token, another one waits for it, and Redis is wiped. -/
theorem engine_settles_after_wipe :
    ∃ s, Reach (system {} 1) (fun _ _ _ => True) s ∧ s.agents.countP Agent.waits = 1 ∧
      s.shared.sem.slots = [] ∧
      (¬ ∃ f : Nat → State, f 0 = s ∧ ∀ k, Acts (system {} 1) goes (f k) (f (k + 1))) ∧
      ∀ s', Schedule (system {} 1) works s s' → (∀ s'', ¬ Acts (system {} 1) goes s' s'') →
        (∀ a ∈ s'.agents, a = .maintenance .worker) ∧
          ∀ token ∈ Semaphore.tokens 1, token ∈ s'.shared.sem.slots := by
  obtain ⟨hist, s₀, ht, hwaits, hreap⟩ :
      ∃ hist s, Story (system {} 1) (fun _ _ _ => True) (system {} 1).init hist s ∧
        s.agents.countP Agent.waits = 1 ∧ .maintenance (.reaper 0 0) ∈ s.agents :=
    System.exists_story (d := fun _ _ _ => true) (fun _ _ _ _ => trivial)
      (twoBlocks (List.replicate 22 (0, .go) ++ [(0, .crash)]) ++
        .act 2 .startReap :: .act 3 (.step .go) :: List.replicate 7 (.act 0 (.step .go)))
      (by decide +kernel)
  have h : Reach (system {} 1) (fun _ _ _ => True) _ :=
    .step ht.reach (.env (e := .data .wipeRedis) rfl)
  exact ⟨_, h, hwaits, rfl, engine_settles Nat.one_pos h (fun _ hl => absurd rfl hl) hreap⟩

end Engine
end AudioEngine
