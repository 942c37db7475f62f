import AudioEngine.Semaphore.Ledger

/-!
# AudioEngine.Semaphore.Limit

When the limit is kept.

A token must not get into the pool while a live worker has it. Three steps can break this: the
script of the reaper, which only looks at the lease and at the pool, `ensure_slots` after a wipe, and
nothing else (`Careful`). In between, `acquire` and `release` only move tokens.

While leases are kept alive the reaper is right about held tokens, but not about tokens in transit:
between `BLPOP` and `SET NX`, and between `DEL` and `RPUSH`, a live worker has a token without a
lease (`reapInTransit_two_holders`).
-/

namespace AudioEngine
namespace Semaphore

open Interleave

/-- Every token is in one place only. -/
structure Exclusive (n : Nat) (slots live : List String) : Prop where
  nodup : (slots ++ live).Nodup
  known : ∀ t ∈ slots ++ live, t ∈ tokens n

/-- No token is put into the pool while a live worker has it: `ensure_slots` seeds only when no
token is out, and the reaper returns only tokens that are not out. -/
def Careful (n : Nat) (s : State) : Moving → Prop
  | .act a i => (a.ensures i = true → s.shared.init = false → live s.agents = []) ∧
      ∀ t, a.reclaims n s.shared i = some t → t ∉ live s.agents
  | .env _ => True

section Exclusive

variable {n : Nat} {r r' : Redis} {a : Agent} {i : Choice} {outs rest : List Agent} {s : State}
  {slots slots' out out' : List String}

theorem Exclusive.of_perm (h : Exclusive n slots out) (hp : (slots' ++ out').Perm (slots ++ out)) :
    Exclusive n slots' out' :=
  ⟨hp.nodup_iff.mpr h.nodup, fun t ht => h.known t (hp.mem_iff.mp ht)⟩

theorem Exclusive.of_sublist (h : Exclusive n slots out)
    (hs : (slots' ++ out').Sublist (slots ++ out)) : Exclusive n slots' out' :=
  ⟨h.nodup.sublist hs, fun t ht => h.known t (hs.subset ht)⟩

theorem Exclusive.length_le (h : Exclusive n slots out) : (slots ++ out).length ≤ n := by
  have hle := (List.subperm_of_subset h.nodup h.known).length_le
  rwa [length_tokens] at hle

theorem Exclusive.holders_le {agents : List Agent} (h : Exclusive n slots (live agents)) :
    agents.countP Agent.holds ≤ n := by
  have hlen := h.length_le
  rw [List.length_append] at hlen
  have := holders_le_live agents
  omega

theorem exclusive_tokens (n : Nat) : Exclusive n (tokens n) [] := by
  refine ⟨?_, ?_⟩
  · rw [List.append_nil]
    exact nodup_tokens n
  · simp

/-- A token that is nowhere comes into the pool. -/
theorem Exclusive.insert {t : String} (h : Exclusive n slots out) (hs : t ∉ slots) (ho : t ∉ out)
    (ht : t ∈ tokens n) : Exclusive n (slots ++ [t]) out := by
  have hp : (slots ++ [t] ++ out).Perm (t :: (slots ++ out)) := by
    rw [List.append_assoc]
    exact List.perm_middle
  refine ⟨hp.nodup_iff.mpr (List.nodup_cons.mpr ⟨?_, h.nodup⟩), ?_⟩
  · rw [List.mem_append]
    exact not_or.mpr ⟨hs, ho⟩
  · intro x hx
    rcases List.mem_cons.mp (hp.mem_iff.mp hx) with rfl | hx
    · exact ht
    · exact h.known x hx

/-- **The step lemma.** -/
theorem Shift.exclusive (h : Shift n r a i r' outs) (hp : s.agents.Perm (a :: rest))
    (hr : s.shared = r) (hc : Careful n s (.act a i))
    (he : Exclusive n s.shared.slots (live s.agents)) :
    Exclusive n r'.slots (live (outs ++ rest)) := by
  subst hr
  have hlive := live_perm hp
  rw [live_append]
  cases h with
  | stays hslots _ hout _ _ =>
    refine he.of_perm ?_
    rw [hslots, hout]
    exact hlive.symm.append_left _
  | seeds hens hinit hslots _ ha hout _ _ =>
    have hnil := hc.1 hens hinit
    rw [hnil, ha] at hlive
    rw [hslots, hout, List.nil_append, show live rest = [] from hlive.symm.eq_nil]
    exact exclusive_tokens n
  | takes hslots _ ha hout _ _ =>
    refine he.of_perm ?_
    rw [ha] at hlive
    rw [hslots, hout]
    exact List.perm_middle.trans ((hlive.symm.append_left _).cons _)
  | gives hslots _ ha hout _ _ =>
    refine he.of_perm ?_
    rw [ha] at hlive
    rw [hslots, hout, List.append_assoc]
    exact hlive.symm.append_left _
  | loses hslots _ ha hout _ _ =>
    rw [ha] at hlive
    have he' : Exclusive n s.shared.slots (_ :: live rest) := he.of_perm (hlive.symm.append_left _)
    rw [hslots, hout, List.nil_append]
    exact he'.of_sublist ((List.sublist_cons_self _ _).append_left _)
  | reclaims _ hs ht hslots _ ha hout _ hrec =>
    have ho := hc.2 _ hrec
    rw [ha] at hlive
    have he' : Exclusive n s.shared.slots (live rest) := he.of_perm (hlive.symm.append_left _)
    rw [hslots, hout, List.nil_append]
    exact he'.insert hs (fun hm => ho (hlive.mem_iff.mpr hm)) ht

theorem env_exclusive {x : Env} (h : env s.shared x = some (r', outs))
    (he : Exclusive n s.shared.slots (live s.agents)) :
    Exclusive n r'.slots (live (outs ++ s.agents)) := by
  rw [live_append, env_live h, List.nil_append]
  cases x with
  | wipe =>
    cases h
    exact he.of_sublist (List.sublist_append_right _ _)
  | _ => cases h; exact he

end Exclusive

/-! ## With Redis wiped at any time -/

/-- In a run in which no token is put into the pool while a live worker has it, the pool has at most
`n` entries, all distinct, whatever Redis forgets. -/
theorem pool_bounded {n : Nat} {hist : List (Taken Redis Agent Choice)} {s : State}
    (ht : Story (system n) (fun s m _ => Careful n s m) (system n).init hist s) :
    s.shared.slots.length ≤ n ∧ s.shared.slots.Nodup := by
  have he : Exclusive n s.shared.slots (live s.agents) := by
    induction ht with
    | start => exact ⟨List.nodup_nil, by simp [system, live]⟩
    | act _ hp ha hd ih => exact (act_shift ha).exclusive hp rfl hd ih
    | env _ henv _ ih => exact env_exclusive henv ih
  have hlen := he.length_le
  rw [List.length_append] at hlen
  exact ⟨by omega, (List.nodup_append.mp he.nodup).1⟩

/-- Whether no token is put into the pool in this step that is out. -/
def careful (n : Nat) (s : State) : Moving → Bool
  | .act a i => (!a.ensures i || s.shared.init || (live s.agents).isEmpty) &&
      ((a.reclaims n s.shared i).all fun t => t ∉ live s.agents)
  | .env _ => true

theorem careful_sound {n : Nat} {s : State} {m : Moving} (h : careful n s m = true) :
    Careful n s m := by
  cases m with
  | act a i =>
    obtain ⟨hs, hr⟩ := Bool.and_eq_true_iff.mp h
    refine ⟨fun he hi => ?_, fun t ht => ?_⟩
    · simpa [he, hi] using hs
    · simpa [ht] using hr
  | env e => trivial

/-- The pool is wiped while nobody has a token, and seeded again. -/
theorem pool_bounded_after_wipe :
    ∃ hist s, Story (system 3) (fun s m _ => Careful 3 s m) (system 3).init hist s ∧
      s.shared.slots = ["0", "1", "2"] ∧ 2 ≤ hist.countP (fun x => x.agent.ensures x.choice) ∧
      s.shared.slots.length ≤ 3 := by
  obtain ⟨hist, s, ht, hslots, htwice⟩ :
      ∃ hist s, Story (system 3) (fun s m _ => Careful 3 s m) (system 3).init hist s ∧
        s.shared.slots = ["0", "1", "2"] ∧ 2 ≤ hist.countP (fun x => x.agent.ensures x.choice) :=
    System.exists_story (d := fun s m _ => careful 3 s m) (fun _ _ _ h => careful_sound h)
      [.env .boot, .act 0 .go, .env .wipe, .act 0 .startReseed, .act 1 .go] (by decide)
  exact ⟨hist, s, ht, hslots, htwice, (pool_bounded ht).1⟩

/-- Redis is wiped while a token is held, and seeded again before the token is released: everything
is idle, and the pool has four entries. -/
theorem reseed_overProvisions :
    ∃ hist s, Story (system 3) (fun _ _ _ => True) (system 3).init hist s ∧
      s.agents = [.worker] ∧ s.shared.slots = ["0", "1", "2", "0"] :=
  System.exists_story (d := fun _ _ _ => true) (fun _ _ _ _ => trivial)
    [.env .boot, .act 0 .go, .act 0 (.startSlot "a"), .act 1 .go, .act 0 .go, .env .wipe,
      .act 1 .startReseed, .act 1 .go, .act 1 .go, .act 0 .go, .act 0 .go] (by decide)

/-! ## With leases kept alive -/

/-- The token whose lease the agent has recorded and not yet deleted. -/
def Agent.recorded : Agent → Option String
  | .client (.holding _ token) => some token
  | .client (.clearing token) => some token
  | _ => none

/-- The token the agent has inside `acquire` or `release`, without a lease. -/
def Agent.inTransit : Agent → Option String
  | .client (.popped _ token) => some token
  | .client (.pushing token) => some token
  | _ => none

/-- No recorded lease of a live holder expires, and Redis is not wiped. -/
def Leased (s : State) : Moving → Prop
  | .env (.expire t) => ∀ b ∈ s.agents, b.recorded ≠ some t
  | .env .wipe => False
  | _ => True

/-- The reaper returns no token that a live worker has in transit. -/
def Patient (n : Nat) (s : State) : Moving → Prop
  | .act a i => ∀ t, a.reclaims n s.shared i = some t → ∀ b ∈ s.agents, b.inTransit ≠ some t
  | .env _ => True

/-- A recorded lease is there. -/
def Recorded (s : State) : Prop :=
  ∀ b ∈ s.agents, ∀ t, b.recorded = some t → s.shared.lease t ≠ none

section Leases

variable {n : Nat} {r r' : Redis} {a b : Agent} {i : Choice} {outs rest : List Agent} {s : State}
  {t : String}

theorem token_cases (h : a.token = some t) : a.recorded = some t ∨ a.inTransit = some t := by
  cases a with
  | client c =>
    cases c with
    | waiting o => cases h
    | popped o t => exact .inr h
    | holding o t => exact .inl h
    | clearing t => exact .inl h
    | pushing t => exact .inr h
  | _ => cases h

theorem recorded_token (h : a.recorded = some t) : a.token = some t := by
  cases a with
  | client c =>
    cases c with
    | holding o t => exact h
    | clearing t => exact h
    | _ => cases h
  | _ => cases h

theorem setNx_lease (r : Redis) (t o x : String) :
    (setNx r t o).lease t ≠ none ∧ (r.lease x ≠ none → (setNx r t o).lease x ≠ none) := by
  unfold setNx
  split
  · rename_i hs
    exact ⟨Option.isSome_iff_ne_none.mp hs, fun h => h⟩
  · refine ⟨by simp, fun h => ?_⟩
    by_cases hx : x = t
    · subst hx; simp
    · simpa [hx] using h

theorem setXx_lease (r : Redis) (t o x : String) :
    r.lease x ≠ none → (setXx r t o).lease x ≠ none := by
  intro h
  unfold setXx
  split
  · by_cases hx : x = t
    · subst hx; simp
    · simpa [hx] using h
  · exact h

theorem ensureSlots_lease (n : Nat) (r : Redis) : (ensureSlots n r).lease = r.lease := by
  unfold ensureSlots
  split <;> rfl

theorem reclaim_lease (r : Redis) (t : String) : (reclaim r t).1.lease = r.lease := by
  unfold reclaim
  split
  · rfl
  · split <;> rfl

/-- What a step does to leases: whoever has recorded one still has it, and only the `DEL` of a
token takes one away. -/
structure LeaseMove (r : Redis) (a : Agent) (r' : Redis) (outs : List Agent) : Prop where
  recorded : ∀ b ∈ outs, ∀ t, b.recorded = some t → (a.recorded = some t → r.lease t ≠ none) →
    r'.lease t ≠ none
  others : ∀ t, r.lease t ≠ none → r'.lease t ≠ none ∨ a = .client (.clearing t)

/-- A step without lease commands, to agents without a recorded lease. -/
theorem LeaseMove.idle (hout : ∀ b ∈ outs, b.recorded = none) (he : r'.lease = r.lease) :
    LeaseMove r a r' outs where
  recorded b hb t ht := by
    rw [hout b hb] at ht
    cases ht
  others t ht := by
    rw [he]
    exact .inl ht

theorem client_lease {c : Client} (h : c.act r i = some (r', outs)) :
    LeaseMove r (.client c) r' outs := by
  cases i with
  | go =>
    cases c with
    | waiting o =>
      simp only [Client.act] at h
      split at h
      · cases h
      · cases h
        exact .idle (by simp [Agent.recorded]) rfl
    | popped o t =>
      cases h
      refine ⟨?_, fun x hx => .inl ((setNx_lease r t o x).2 hx)⟩
      intro b hb x hx _
      rw [List.mem_singleton] at hb
      subst hb
      obtain rfl := Option.some.inj hx
      exact (setNx_lease r t o t).1
    | holding o t =>
      cases h
      refine ⟨?_, fun x hx => .inl hx⟩
      intro b hb x hx hrec
      rw [List.mem_singleton] at hb
      subst hb
      exact hrec hx
    | clearing t =>
      cases h
      refine ⟨by simp [Agent.recorded], fun x hx => ?_⟩
      by_cases hxt : x = t
      · subst hxt; exact .inr rfl
      · exact .inl (by simpa [delLease, hxt] using hx)
    | pushing t => cases h; exact .idle (by simp) rfl
  | renew =>
    cases c with
    | holding o t =>
      cases h
      refine ⟨?_, fun x hx => .inl (setXx_lease r t o x hx)⟩
      intro b hb x hx hrec
      rw [List.mem_singleton] at hb
      subst hb
      exact setXx_lease r t o x (hrec hx)
    | _ => cases h
  | timeout =>
    cases c with
    | waiting o => cases h; exact .idle (by simp) rfl
    | _ => cases h
  | crash => cases c <;> · cases h; exact .idle (by simp) rfl
  | startSlot o => cases c <;> cases h
  | startReseed => cases c <;> cases h
  | startReap => cases c <;> cases h

theorem act_lease (h : act n r a i = some (r', outs)) : LeaseMove r a r' outs := by
  cases a with
  | client c => exact client_lease h
  | boot =>
    cases i with
    | go => cases h; exact .idle (by simp [Agent.recorded]) (ensureSlots_lease n r)
    | crash => cases h; exact .idle (by simp) rfl
    | _ => cases h
  | worker =>
    cases i with
    | startSlot o => cases h; exact .idle (by simp [Agent.recorded]) rfl
    | startReseed => cases h; exact .idle (by simp [Agent.recorded]) rfl
    | startReap => cases h; exact .idle (by simp [Agent.recorded]) rfl
    | crash => cases h; exact .idle (by simp) rfl
    | _ => cases h
  | reseeder =>
    cases i with
    | go => cases h; exact .idle (by simp) (ensureSlots_lease n r)
    | crash => cases h; exact .idle (by simp) rfl
    | _ => cases h
  | reaper k x =>
    cases i with
    | go =>
      simp only [act] at h
      split at h
      · cases h
        exact .idle (by simp [Agent.recorded]) (reclaim_lease r _)
      · cases h
        exact .idle (by simp) rfl
    | crash => cases h; exact .idle (by simp) rfl
    | _ => cases h

/-- A token has one live owner, so the `DEL` of one worker never hits the lease of another. -/
theorem recorded_step (ha : act n s.shared a i = some (r', outs)) (hp : s.agents.Perm (a :: rest))
    (he : (live s.agents).Nodup) (hr : Recorded s) : Recorded ⟨r', outs ++ rest⟩ := by
  obtain ⟨hnew, hold⟩ := act_lease ha
  have hmem : a ∈ s.agents := hp.mem_iff.mpr (by simp)
  intro b hb t ht
  rcases List.mem_append.mp hb with hb | hb
  · exact hnew b hb t ht (hr a hmem t)
  · have hlease := hr b (hp.mem_iff.mpr (by simp [hb])) t ht
    refine (hold t hlease).resolve_right ?_
    rintro rfl
    have hnodup : (t :: live rest).Nodup := (live_perm hp).nodup_iff.mp he
    exact (List.nodup_cons.mp hnodup).1 (mem_live.mpr ⟨b, hb, recorded_token ht⟩)

theorem recorded_env {x : Env} (henv : env s.shared x = some (r', outs)) (hl : Leased s (.env x))
    (hr : Recorded s) : Recorded ⟨r', outs ++ s.agents⟩ := by
  intro b hb t ht
  cases x with
  | boot =>
    cases henv
    rcases List.mem_cons.mp hb with rfl | hb
    · cases ht
    · exact hr b hb t ht
  | slot o =>
    cases henv
    rcases List.mem_cons.mp hb with rfl | hb
    · cases ht
    · exact hr b hb t ht
  | expire k =>
    cases henv
    have hne : t ≠ k := by
      rintro rfl
      exact hl b hb ht
    have hlease := hr b hb t ht
    simpa [delLease, hne] using hlease
  | wipe => exact hl.elim

/-- While leases are kept, a patient reaper is careful. -/
theorem Patient.careful (hp : Patient n s (.act a i)) (hr : Recorded s) (hu : Unseeded s)
    (ha : act n s.shared a i = some (r', outs)) : Careful n s (.act a i) := by
  refine ⟨fun _ hinit => live_early (hu hinit).2, ?_⟩
  intro t ht hlive
  obtain ⟨b, hb, htok⟩ := mem_live.mp hlive
  rcases token_cases htok with hrec | htr
  · exact hr b hb t hrec ((act_shift ha).unleased ht)
  · exact hp t ht b hb htr

theorem Leased.kept {m : Moving} (h : Leased s m) : kept m = true := by
  cases m with
  | act a i => rfl
  | env e =>
    cases e with
    | wipe => exact h.elim
    | _ => rfl

end Leases

/-- In a run in which no recorded lease of a live holder expires, Redis is not wiped and the reaper
returns no token that a live worker has in transit: no two live workers have the same token, no
token is twice in the pool, and at most `n` workers hold one. -/
theorem limit_kept {n : Nat} {hist : List (Taken Redis Agent Choice)} {s : State}
    (ht : Story (system n) (fun s m _ => Leased s m ∧ Patient n s m) (system n).init hist s) :
    (live s.agents).Nodup ∧ s.shared.slots.Nodup ∧ s.agents.countP Agent.holds ≤ n := by
  have hinv : Exclusive n s.shared.slots (live s.agents) ∧ Recorded s := by
    induction ht with
    | start => exact ⟨⟨List.nodup_nil, by simp [system, live]⟩, by simp [Recorded, system]⟩
    | act ht hp ha hd ih =>
      obtain ⟨he, hr⟩ := ih
      have hu := story_unseeded (fun _ _ _ h => h.1.kept) ht
      exact ⟨(act_shift ha).exclusive hp rfl (hd.2.careful hr hu ha) he,
        recorded_step ha hp (List.nodup_append.mp he.nodup).2.1 hr⟩
    | env _ henv hd ih => exact ⟨env_exclusive henv ih.1, recorded_env henv hd.1 ih.2⟩
  have hnodup := List.nodup_append.mp hinv.1.nodup
  exact ⟨hnodup.2.1, hnodup.1, hinv.1.holders_le⟩

/-- Nothing expires and Redis is not wiped. -/
def unexpired : Moving → Bool
  | .env (.expire _) => false
  | .env .wipe => false
  | _ => true

theorem leased_of_unexpired {s : State} {m : Moving} (h : unexpired m = true) : Leased s m := by
  cases m with
  | act a i => trivial
  | env e =>
    cases e with
    | expire t => cases h
    | wipe => cases h
    | _ => trivial

def patient (n : Nat) (s : State) : Moving → Bool
  | .act a i => (a.reclaims n s.shared i).all fun t => s.agents.all fun b => b.inTransit ≠ some t
  | .env _ => true

theorem patient_sound {n : Nat} {s : State} {m : Moving} (h : patient n s m = true) :
    Patient n s m := by
  cases m with
  | act a i =>
    intro t ht b hb
    simp only [patient, ht, Option.all_some, List.all_eq_true, decide_eq_true_eq] at h
    exact h b hb
  | env e => trivial

/-- The reaper goes through the pool while one worker holds a token and another one has crashed
before its `SET NX`. -/
theorem limit_kept_three :
    ∃ hist s, Story (system 3) (fun s m _ => Leased s m ∧ Patient 3 s m) (system 3).init hist s ∧
      s.agents.countP Agent.holds = 1 ∧ s.shared.slots = ["2", "0"] ∧
      (live s.agents).Nodup ∧ s.shared.slots.Nodup ∧ s.agents.countP Agent.holds ≤ 3 := by
  obtain ⟨hist, s, ht, hholds, hslots⟩ :
      ∃ hist s, Story (system 3) (fun s m _ => Leased s m ∧ Patient 3 s m) (system 3).init hist s ∧
        s.agents.countP Agent.holds = 1 ∧ s.shared.slots = ["2", "0"] :=
    System.exists_story (d := fun s m _ => unexpired m && patient 3 s m)
      (fun _ _ _ h => by
        obtain ⟨hu, hp⟩ := Bool.and_eq_true_iff.mp h
        exact ⟨leased_of_unexpired hu, patient_sound hp⟩)
      [.env .boot, .act 0 .go, .act 0 (.startSlot "a"), .act 0 (.startSlot "b"), .act 2 .go,
        .act 0 .crash, .act 1 .go, .act 0 .go, .act 1 .startReap, .act 1 .go, .act 0 .go,
        .act 0 .go, .act 0 .go] (by decide)
  exact ⟨hist, s, ht, hholds, hslots, limit_kept ht⟩

/-- The reaper returns the only token between the `BLPOP` and the `SET NX` of a live worker. -/
theorem reapInTransit_two_holders :
    ∃ hist s, Story (system 1) (fun s m _ => Leased s m) (system 1).init hist s ∧
      s.agents.countP Agent.holds = 2 ∧ live s.agents = ["0", "0"] :=
  System.exists_story (d := fun _ m _ => unexpired m) (fun _ _ _ h => leased_of_unexpired h)
    [.env .boot, .act 0 .go, .act 0 (.startSlot "a"), .act 0 (.startSlot "b"), .act 2 .go,
      .act 1 .startReap, .act 1 .go, .act 3 .go, .act 0 .go, .act 3 .go] (by decide)

end Semaphore
end AudioEngine
