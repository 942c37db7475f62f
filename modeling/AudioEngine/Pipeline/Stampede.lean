import AudioEngine.Lib.Story
import AudioEngine.Pipeline.Lock

/-!
# AudioEngine.Pipeline.Stampede

How often the vendor is called for one content hash.

A handler reads the cache, takes the in-flight lock, calls the vendor, fills the cache and drops the
lock, each in a step of its own. The lock is free again when the cache is filled, so a handler whose
read missed before that and whose `SET NX` comes after it synthesises the block a second time:
nothing reads the cache again under the lock (`cacheMiss_synthesised_twice`).

`Phase` is the invariant of the runs in which no handler does this and none is interrupted between
its vendor call and its cache entry. It relates the number of calls so far to the agents inside the
lock (`inside`): there is at most one.
-/

namespace AudioEngine
namespace Pipeline

open Relational Interleave

/-- No crash, no failing storage call, no expiry and no wipe. -/
def Undisturbed : Move Agent Choice Env → Prop
  | .act a i => i ≠ .crash ∧
      ∀ c text, a = .copy c → c.stage = .work (.tts (.putAudio text)) → i = .go
  | .env (.expireCache _) => False
  | .env (.expireInflight _) => False
  | .env .wipeRedis => False
  | .env _ => True

/-- The agent wins the lock of `h` although the cache has an entry for it by now. -/
def LateWin (h : String) (sh : Shared) (a : Agent) (i : Choice) : Prop :=
  ∃ c text, a = .copy c ∧ c.stage = .work (.tts (.acquireInflight text)) ∧ contentHash text = h ∧
    i = .go ∧ sh.inflight h = none ∧ sh.cache h ≠ none

/-- The agent is not interrupted between its vendor call and the cache entry, and it does not take
the lock on a cache miss that is out of date. -/
def Timely (h : String) (sh : Shared) : Move Agent Choice Env → Prop
  | .act a i => (a.role h = .between → i = .go) ∧ ¬ LateWin h sh a i
  | .env _ => True

/-- How often the vendor was called on a text with the hash `h`. -/
def vendorCalls (h : String) (hist : List (Taken Shared Agent Choice)) : Nat :=
  hist.countP fun t => t.agent.calls h t.choice

/-! ## The agents inside the lock -/

def Role.listed : Role → List Role
  | .outside => []
  | r => [r]

/-- The roles of the agents inside the lock of `h`. -/
def inside (h : String) (agents : List Agent) : List Role :=
  agents.flatMap fun a => (a.role h).listed

section Inside

variable {h : String} {agents outs rest : List Agent} {a : Agent} {r : Role}

theorem inside_append : inside h (outs ++ rest) = inside h outs ++ inside h rest :=
  List.flatMap_append

theorem inside_perm (hp : agents.Perm (a :: rest)) :
    (inside h agents).Perm ((a.role h).listed ++ inside h rest) := by
  have := hp.flatMap_right fun a => (a.role h).listed
  rwa [List.flatMap_cons] at this

theorem inside_nil (ho : ∀ b ∈ outs, b.role h = .outside) : inside h outs = [] := by
  rw [inside, List.flatMap_eq_nil_iff]
  intro b hb
  rw [ho b hb]
  rfl

theorem GoesOn.inside (hg : GoesOn h outs r) : inside h outs = r.listed := by
  obtain ⟨b, rest, rfl, hb, ho⟩ := hg
  show (b.role h).listed ++ Pipeline.inside h rest = r.listed
  rw [inside_nil ho, hb, List.append_nil]

end Inside

/-! ## The invariant -/

/-- The vendor was called `n` times for `h`, and `roles` are inside its lock. -/
def Phase (h : String) (n : Nat) (sh : Shared) : List Role → Prop
  | [] => n = 0 ∨ n = 1 ∧ (sh.cache h ≠ none ∨ sh.inflight h ≠ none)
  | [.before] => n = 0 ∧ sh.inflight h ≠ none
  | [.between] => n = 1 ∧ sh.inflight h ≠ none
  | [.leaving] => (n = 0 ∨ n = 1 ∧ sh.cache h ≠ none) ∧ sh.inflight h ≠ none
  | _ => False

section Phase

variable {h : String} {n : Nat} {sh sh' : Shared} {roles : List Role}

theorem Phase.le_one (hp : Phase h n sh roles) : n ≤ 1 := by
  unfold Phase at hp
  split at hp
  · rcases hp with h0 | ⟨h1, _⟩ <;> omega
  · exact le_of_eq_of_le hp.1 zero_le_one
  · exact le_of_eq hp.1
  · rcases hp.1 with h0 | ⟨h1, _⟩ <;> omega
  · exact hp.elim

/-- Whoever is inside holds the lock, and is alone. -/
theorem Phase.holder {r : Role} {rest : List Role} (hp : Phase h n sh (r :: rest)) :
    rest = [] ∧ sh.inflight h ≠ none := by
  unfold Phase at hp
  split at hp
  · rename_i heq; cases heq
  · rename_i heq; cases heq; exact ⟨rfl, hp.2⟩
  · rename_i heq; cases heq; exact ⟨rfl, hp.2⟩
  · rename_i heq; cases heq; exact ⟨rfl, hp.2⟩
  · exact hp.elim

theorem Phase.perm {roles' : List Role} (hp : Phase h n sh roles) (h' : roles.Perm roles') :
    Phase h n sh roles' := by
  cases roles with
  | nil => rwa [h'.nil_eq.symm]
  | cons r rest =>
    obtain ⟨rfl, _⟩ := hp.holder
    rwa [List.singleton_perm.mp h'] at hp

theorem Phase.congr (hp : Phase h n sh roles) (hc : sh'.cache h = sh.cache h)
    (hi : sh'.inflight h = sh.inflight h) : Phase h n sh' roles := by
  unfold Phase at hp ⊢
  rw [hc, hi]
  exact hp

/-- An agent inside goes away, with the lock still set. -/
theorem Phase.vacate {r : Role} (hp : Phase h n sh (r.listed ++ roles)) : Phase h n sh roles := by
  cases r with
  | outside => exact hp
  | before =>
    obtain ⟨rfl, _⟩ := hp.holder
    exact .inl hp.1
  | between =>
    obtain ⟨rfl, hl⟩ := hp.holder
    exact .inr ⟨hp.1, .inr hl⟩
  | leaving =>
    obtain ⟨rfl, hl⟩ := hp.holder
    rcases hp.1 with h0 | ⟨h1, _⟩
    · exact .inl h0
    · exact .inr ⟨h1, .inr hl⟩

end Phase

/-! ## One step -/

section Step

variable {cfg : Settings} {h : String} {n : Nat} {sh sh' : Shared} {a : Agent} {i : Choice}
  {outs rest : List Agent}

theorem Handles.phase (hh : Handles h sh a i sh' outs) (ht : Timely h sh (.act a i))
    {roles : List Role} (hp : Phase h n sh ((a.role h).listed ++ roles)) :
    Phase h (n + (a.calls h i).toNat) sh' (inside h outs ++ roles) := by
  cases hh with
  | apart hs ho =>
    rw [inside_nil ho, hs.calls]
    exact hp.vacate.congr hs.cache hs.inflight
  | onwards hs hg =>
    rw [hg.inside, hs.calls]
    exact hp.congr hs.cache hs.inflight
  | interrupted hs hgo hr hg =>
    have hrole : a.role h = .before := hr.resolve_right fun hb => hgo (ht.1 hb)
    rw [hrole] at hp
    obtain ⟨rfl, hl⟩ := Phase.holder hp
    rw [hg.inside, hs.calls]
    exact ⟨.inl hp.1, by rw [hs.inflight]; exact hl⟩
  | @wins c text ha hst htext hi hfree hset hcache hg =>
    -- nobody is inside, and an earlier call would have left the cache entry that `LateWin` is about
    subst ha hi htext
    have hrole : (Agent.copy c).role (contentHash text) = .outside := by rw [Agent.role, hst]; rfl
    have hcalls : (Agent.copy c).calls (contentHash text) .go = false := by
      simp [Agent.calls, hst]
    rw [hrole] at hp
    have hnil : roles = [] := by
      cases roles with
      | nil => rfl
      | cons r roles => exact absurd hfree (Phase.holder hp).2
    subst hnil
    have hn : n = 0 := by
      rcases hp with h0 | ⟨_, hc | hl⟩
      · exact h0
      · exact absurd ⟨c, text, rfl, hst, rfl, rfl, hfree, hc⟩ ht.2
      · exact absurd hfree hl
    rw [hg.inside, hcalls]
    exact ⟨hn, hset⟩
  | calls hc hr _ hinflight hg =>
    rw [hr] at hp
    obtain ⟨rfl, hl⟩ := Phase.holder hp
    rw [hg.inside, hc, hp.1]
    exact ⟨rfl, by rw [hinflight]; exact hl⟩
  | @fills c text ha hst htext hcalls hcache hinflight hg =>
    subst ha htext
    have hrole : (Agent.copy c).role (contentHash text) = .between := by
      rw [Agent.role, hst]; exact roleOn_self _
    rw [hrole] at hp
    obtain ⟨rfl, hl⟩ := Phase.holder hp
    rw [hg.inside, hcalls]
    exact ⟨.inr ⟨hp.1, hcache⟩, by rw [hinflight]; exact hl⟩
  | drops hr hcalls hcache _ ho =>
    rw [hr] at hp
    obtain ⟨rfl, _⟩ := Phase.holder hp
    rw [inside_nil ho, hcalls]
    rcases hp.1 with h0 | ⟨h1, hc⟩
    · exact .inl h0
    · exact .inr ⟨h1, .inl (by rw [hcache]; exact hc)⟩

theorem env_undisturbed {x : Env} (he : env sh x = some (sh', outs)) (hu : Undisturbed (.env x)) :
    sh'.cache = sh.cache ∧ sh'.inflight = sh.inflight := by
  cases x with
  | post j m cb =>
    simp only [env] at he
    split at he <;> cases he
    exact ⟨rfl, rfl⟩
  | startSweep stale =>
    simp only [env] at he
    split at he <;> cases he
    exact ⟨rfl, rfl⟩
  | expireCache k => exact hu.elim
  | expireInflight k => exact hu.elim
  | wipeRedis => exact hu.elim

end Step

/-! ## Every run -/

/-- The moves the result is about. -/
def Orderly (h : String) (s : State) (m : Move Agent Choice Env) (_ : Shared) : Prop :=
  Undisturbed m ∧ Timely h s.shared m

theorem story_phase {cfg : Settings} {h : String} {hist : List (Taken Shared Agent Choice)}
    {s : State} (ht : Story (system cfg) (Orderly h) (system cfg).init hist s) :
    Phase h (vendorCalls h hist) s.shared (inside h s.agents) := by
  refine Story.induct (I := fun hist s => Phase h (vendorCalls h hist) s.shared (inside h s.agents))
    ?_ ?_ ?_ ht
  · exact Or.inl rfl
  · intro hist s rest a i sh' outs _ ih hp hact hd
    have hstep := (act_handles h hact).phase hd.2 (ih.perm (inside_perm hp))
    rw [inside_append]
    have hcount : vendorCalls h (⟨s.shared, a, i, sh'⟩ :: hist) =
        vendorCalls h hist + (a.calls h i).toNat := by
      simp only [vendorCalls, List.countP_cons]
      cases a.calls h i <;> rfl
    rw [hcount]
    exact hstep
  · intro hist s x sh' outs _ ih henv hd
    have ho := env_outs (Q := fun b => b.role h = .outside) (fun _ _ _ => rfl) (fun _ => rfl) henv
    obtain ⟨hc, hi⟩ := env_undisturbed henv hd.1
    rw [inside_append, inside_nil ho, List.nil_append]
    exact ih.congr (by rw [hc]) (by rw [hi])

/-- In a run without crashes, failing storage calls, expiries and wipes, in which no handler takes
the lock of `h` on a cache miss that is out of date and none is interrupted between its vendor call
and the cache entry, the vendor is called at most once for `h`. -/
theorem synthesised_once {cfg : Settings} {h : String} {hist : List (Taken Shared Agent Choice)}
    {s : State} (ht : Story (system cfg) (Orderly h) (system cfg).init hist s) :
    vendorCalls h hist ≤ 1 := (story_phase ht).le_one

/-! ## Two blocks of the same text -/

/-- Every agent takes its steps in order, and requests come in. -/
def plain : Move Agent Choice Env → Bool
  | .act _ .go => true
  | .env (.post _ _ _) => true
  | _ => false

/-- No lock is taken while the cache has an entry. -/
def early (h : String) (sh : Shared) : Move Agent Choice Env → Bool
  | .act (.copy c) _ =>
    match c.stage with
    | .work (.tts (.acquireInflight _)) => (sh.cache h).isNone
    | _ => true
  | _ => true

theorem plain_undisturbed {m : Move Agent Choice Env} (h : plain m = true) : Undisturbed m := by
  unfold plain at h
  split at h
  · exact ⟨by simp, fun _ _ _ _ => rfl⟩
  · trivial
  · cases h

theorem plain_early_orderly {h : String} {s : State} {m : Move Agent Choice Env} {sh : Shared}
    (hm : (plain m && early h s.shared m) = true) : Orderly h s m sh := by
  obtain ⟨hp, he⟩ := Bool.and_eq_true_iff.mp hm
  refine ⟨plain_undisturbed hp, ?_⟩
  unfold plain at hp
  split at hp
  · refine ⟨fun _ => rfl, ?_⟩
    rintro ⟨c, text, rfl, hst, _, _, _, hc⟩
    simp only [early, hst, Option.isNone_iff_eq_none] at he
    exact hc he
  · trivial
  · cases hp

/-- The manuscript with the block `A` twice, and the agents that step, by position. -/
def twice (steps : List Nat) : List (Action Choice Env) :=
  .env (.post "j" "A\n\nA" none) :: steps.map fun k => .act k .go

set_option maxRecDepth 4000 in
theorem synthesised_once_two_blocks :
    ∃ hist s, Story (system {}) (Orderly (contentHash "A")) (system {}).init hist s ∧
      .completeTask "j" "j-0" (some 0) ∈ s.shared.trace ∧
      vendorCalls (contentHash "A") hist = 1 ∧ vendorCalls (contentHash "A") hist ≤ 1 := by
  obtain ⟨hist, s, ht, hdone, hcalls⟩ :
      ∃ hist s, Story (system {}) (Orderly (contentHash "A")) (system {}).init hist s ∧
        .completeTask "j" "j-0" (some 0) ∈ s.shared.trace ∧ vendorCalls (contentHash "A") hist = 1 :=
    System.exists_story (fun _ _ _ h => plain_early_orderly h) (twice (List.replicate 34 0))
      (by decide +kernel)
  exact ⟨hist, s, ht, hdone, hcalls, synthesised_once ht⟩

set_option maxRecDepth 4000 in
/-- Both handlers miss the cache; the second one takes the lock after the first one has filled the
cache and dropped the lock. -/
theorem cacheMiss_synthesised_twice :
    ∃ hist s, Story (system {}) (fun _ m _ => Undisturbed m) (system {}).init hist s ∧
      vendorCalls (contentHash "A") hist = 2 :=
  System.exists_story (d := fun _ m _ => plain m) (fun _ _ _ h => plain_undisturbed h)
    (twice (List.replicate 18 0 ++ 1 :: List.replicate 11 0 ++ [1, 0, 0])) (by decide +kernel)

end Pipeline
end AudioEngine
