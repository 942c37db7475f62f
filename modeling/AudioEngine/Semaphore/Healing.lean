import AudioEngine.Lib.Settle
import AudioEngine.Semaphore.Limit

/-!
# AudioEngine.Semaphore.Healing

What one pass of the reaper makes good.

Crashes take tokens out of circulation and a wipe takes all of them. `acquire` blocks without a
timeout, so a pool that lost its last token would block every worker. `Healing` is the invariant of
the steps that follow: a lease is somebody's, and a token that is out of circulation has a reaper
before it. `pool_heals`: whatever happened before, and in whatever order the steps come, every
`BLPOP` is served and every token comes back.
-/

namespace AudioEngine
namespace Semaphore

open Interleave

/-- The agent goes on: no crash, no timeout, no new use. -/
def Goes (_ : Redis) (_ : Agent) (i : Choice) : Prop := i = .go

/-- The agent goes on, or its heartbeat renews a lease. -/
def Works (_ : Redis) (_ : Agent) (i : Choice) : Prop := i = .go ∨ i = .renew

/-- The leases of the dead have expired. -/
def NoStray (s : State) : Prop := ∀ t, s.shared.lease t ≠ none → ∃ a ∈ s.agents, a.recorded = some t

/-- The token is in the pool or with a live worker, or a reaper will look at it. -/
def Covered (s : State) (k : Nat) : Prop :=
  toString k ∈ s.shared.slots ∨ toString k ∈ live s.agents ∨
    ∃ i x, Agent.reaper i x ∈ s.agents ∧ i ≤ k

structure Healing (n : Nat) (s : State) : Prop where
  leases : NoStray s
  covered : ∀ k < n, Covered s k

/-! ## One step -/

section Step

variable {n : Nat} {r r' : Redis} {a : Agent} {i : Choice} {outs rest : List Agent} {s s' : State}
  {t : String}

/-- A lease after the step is recorded by the agent now, or was somebody else's before. -/
theorem go_lease (h : act n r a .go = some (r', outs)) (ht : r'.lease t ≠ none) :
    (∃ b ∈ outs, b.recorded = some t) ∨ r.lease t ≠ none ∧ a.recorded ≠ some t := by
  cases a with
  | client c =>
    cases c with
    | waiting o =>
      simp only [act, Client.act] at h
      split at h
      · cases h
      · cases h
        exact .inr ⟨ht, by simp [Agent.recorded]⟩
    | popped o t' =>
      cases h
      by_cases hx : t = t'
      · subst hx
        exact .inl ⟨_, List.mem_singleton_self _, rfl⟩
      · refine .inr ⟨?_, by simp [Agent.recorded]⟩
        unfold setNx at ht
        split at ht
        · exact ht
        · simpa [hx] using ht
    | holding o t' =>
      cases h
      by_cases hx : t = t'
      · subst hx
        exact .inl ⟨_, List.mem_singleton_self _, rfl⟩
      · refine .inr ⟨ht, fun hrec => hx ?_⟩
        exact (Option.some.inj hrec).symm
    | clearing t' =>
      cases h
      have hx : t ≠ t' := by
        rintro rfl
        simp [delLease] at ht
      refine .inr ⟨by simpa [delLease, hx] using ht, fun hrec => hx ?_⟩
      exact (Option.some.inj hrec).symm
    | pushing t' => cases h; exact .inr ⟨ht, by simp [Agent.recorded]⟩
  | boot =>
    cases h
    rw [ensureSlots_lease] at ht
    exact .inr ⟨ht, by simp [Agent.recorded]⟩
  | worker => cases h
  | reseeder =>
    cases h
    rw [ensureSlots_lease] at ht
    exact .inr ⟨ht, by simp [Agent.recorded]⟩
  | reaper k x =>
    simp only [act] at h
    split at h
    · cases h
      rw [reclaim_lease] at ht
      exact .inr ⟨ht, by simp [Agent.recorded]⟩
    · cases h
      exact .inr ⟨ht, by simp [Agent.recorded]⟩

theorem renew_inv (h : act n r a .renew = some (r', outs)) :
    ∃ o t, a = .client (.holding o t) ∧ r' = setXx r t o ∧ outs = [a] := by
  cases a with
  | client c =>
    cases c with
    | holding o t => cases h; exact ⟨o, t, rfl, rfl, rfl⟩
    | _ => cases h
  | _ => cases h

/-- A renewal brings no lease back. -/
theorem renew_lease (h : act n r a .renew = some (r', outs)) (ht : r'.lease t ≠ none) :
    (∃ b ∈ outs, b.recorded = some t) ∨ r.lease t ≠ none ∧ a.recorded ≠ some t := by
  obtain ⟨o, t', rfl, rfl, rfl⟩ := renew_inv h
  by_cases hx : t = t'
  · subst hx
    exact .inl ⟨_, List.mem_singleton_self _, rfl⟩
  · refine .inr ⟨?_, fun hrec => hx (Option.some.inj hrec).symm⟩
    unfold setXx at ht
    split at ht
    · simpa [hx] using ht
    · exact ht

theorem works_lease (hw : Works r a i) (h : act n r a i = some (r', outs))
    (ht : r'.lease t ≠ none) :
    (∃ b ∈ outs, b.recorded = some t) ∨ r.lease t ≠ none ∧ a.recorded ≠ some t := by
  rcases hw with rfl | rfl
  · exact go_lease h ht
  · exact renew_lease h ht

theorem NoStray.step (h : NoStray s) (hp : s.agents.Perm (a :: rest)) (hw : Works s.shared a i)
    (ha : act n s.shared a i = some (r', outs)) : NoStray ⟨r', outs ++ rest⟩ := by
  intro t ht
  rcases works_lease hw ha ht with ⟨b, hb, hrec⟩ | ⟨hlease, hne⟩
  · exact ⟨b, by simp [hb], hrec⟩
  · obtain ⟨b, hb, hrec⟩ := h t hlease
    rcases List.mem_cons.mp (hp.mem_iff.mp hb) with rfl | hb
    · exact absurd hrec hne
    · exact ⟨b, by simp [hb], hrec⟩

/-- A token in circulation stays there. -/
theorem Shift.circulates (h : Shift n r a i r' outs) (hw : Works r a i) (ht : t ∈ tokens n)
    (hc : t ∈ r.slots ∨ a.token = some t) : t ∈ r'.slots ∨ t ∈ live outs := by
  cases h with
  | stays hslots _ hout _ _ =>
    rw [hslots, hout]
    exact hc.imp_right fun h => by simp [h]
  | seeds _ _ hslots _ _ _ _ _ =>
    rw [hslots]
    exact .inl ht
  | takes hslots _ ha hout _ _ =>
    rw [hslots, ha] at hc
    rw [hout]
    rcases hc with hc | hc
    · exact (List.mem_cons.mp hc).elim (fun h => .inr (by simp [h])) .inl
    · cases hc
  | gives hslots _ ha _ _ _ =>
    rw [ha] at hc
    rw [hslots]
    refine .inl (List.mem_append.mpr (hc.imp_right fun h => ?_))
    rw [Option.some.inj h]
    exact List.mem_singleton_self _
  | loses _ _ _ _ hl _ =>
    -- only a crash loses a token
    rcases hw with rfl | rfl <;> cases hl
  | reclaims _ _ _ hslots _ ha _ _ _ =>
    rw [ha] at hc
    rw [hslots]
    rcases hc with hc | hc
    · exact .inl (List.mem_append_left _ hc)
    · cases hc

/-- The script of the reaper for a token: it is in the pool then, or its lease is somebody's. -/
theorem reclaim_covers (h : NoStray s) (t : String) :
    t ∈ (reclaim s.shared t).1.slots ∨ ∃ b ∈ s.agents, b.recorded = some t := by
  unfold reclaim
  split
  · rename_i hl
    exact .inr (h t (Option.isSome_iff_ne_none.mp hl))
  · split
    · rename_i hmem
      exact .inl hmem
    · exact .inl (by simp)

theorem Covered.step {k : Nat} (hk : k < n) (hs : NoStray s) (h : Covered s k)
    (hp : s.agents.Perm (a :: rest)) (hw : Works s.shared a i)
    (ha : act n s.shared a i = some (r', outs)) : Covered ⟨r', outs ++ rest⟩ k := by
  have hlive := live_perm hp
  have hcirc : toString k ∈ s.shared.slots ∨ toString k ∈ live s.agents →
      Covered ⟨r', outs ++ rest⟩ k := by
    intro hc
    rw [hlive.mem_iff, List.mem_append, Option.mem_toList] at hc
    have hstep := (act_shift ha).circulates hw (mem_tokens.mpr ⟨k, hk, rfl⟩)
    unfold Covered
    rw [live_append, List.mem_append]
    tauto
  rcases h with h | h | ⟨j, x, hmem, hle⟩
  · exact hcirc (.inl h)
  · exact hcirc (.inr h)
  · rcases List.mem_cons.mp (hp.mem_iff.mp hmem) with rfl | hmem
    · obtain rfl : i = .go := by
        rcases hw with rfl | rfl
        · rfl
        · cases ha
      simp only [act, if_pos (Nat.lt_of_le_of_lt hle hk)] at ha
      cases ha
      rcases Nat.lt_or_eq_of_le hle with hlt | rfl
      · exact .inr (.inr ⟨j + 1, _, List.mem_cons_self, hlt⟩)
      · rcases reclaim_covers hs (toString j) with hin | ⟨b, hb, hrec⟩
        · exact .inl hin
        · rcases List.mem_cons.mp (hp.mem_iff.mp hb) with rfl | hb
          · cases hrec
          · exact .inr (.inl (mem_live.mpr ⟨b, by simp [hb], recorded_token hrec⟩))
    · exact .inr (.inr ⟨j, x, by simp [hmem], hle⟩)

/-- **The step lemma.** -/
theorem Healing.step (h : Healing n s) (ha : Acts (system n) Works s s') : Healing n s' := by
  cases ha with
  | act hp hw ha =>
    exact ⟨h.leases.step hp hw ha, fun k hk => (h.covered k hk).step hk h.leases hp hw ha⟩

/-- Another use of a slot changes nothing. -/
theorem Healing.join (h : Healing n s) (o : String) :
    Healing n ⟨s.shared, .client (.waiting o) :: s.agents⟩ := by
  refine ⟨fun t ht => ?_, fun k hk => ?_⟩
  · obtain ⟨a, ha, hrec⟩ := h.leases t ht
    exact ⟨a, List.mem_cons_of_mem _ ha, hrec⟩
  · refine (h.covered k hk).imp_right (Or.imp (fun hl => hl) ?_)
    rintro ⟨i, x, hmem, hle⟩
    exact ⟨i, x, List.mem_cons_of_mem _ hmem, hle⟩

end Step

/-! ## Coming to rest -/

/-- How many steps the agent has before it, at most. -/
def Agent.ahead (n : Nat) : Agent → Nat
  | .boot => 1
  | .worker => 0
  | .reseeder => 1
  | .reaper i _ => n + 1 - i
  | .client (.waiting _) => 5
  | .client (.popped _ _) => 4
  | .client (.holding _ _) => 3
  | .client (.clearing _) => 2
  | .client (.pushing _) => 1

section Rest

variable {n : Nat} {r r' : Redis} {a : Agent} {outs : List Agent} {s : State}

theorem go_ahead (h : act n r a .go = some (r', outs)) :
    ∀ b ∈ outs, b.ahead n < a.ahead n := by
  cases a with
  | client c =>
    cases c with
    | waiting o =>
      simp only [act, Client.act] at h
      split at h
      · cases h
      · cases h
        simp [Agent.ahead]
    | _ => cases h; simp [Agent.ahead]
  | boot => cases h; simp [Agent.ahead]
  | worker => cases h
  | reseeder => cases h; simp
  | reaper i x =>
    simp only [act] at h
    split at h
    · cases h
      simp only [List.forall_mem_singleton, Agent.ahead]
      omega
    · cases h
      simp

/-- Only a `BLPOP` on an empty pool has to wait. -/
theorem stuck_cases (h : act n r a .go = none) :
    a = .worker ∨ r.slots = [] ∧ ∃ o, a = .client (.waiting o) := by
  cases a with
  | client c =>
    cases c with
    | waiting o =>
      simp only [act, Client.act] at h
      split at h
      · rename_i hs
        exact .inr ⟨hs, o, rfl⟩
      · cases h
    | _ => cases h
  | boot => cases h
  | worker => exact .inl rfl
  | reseeder => cases h
  | reaper i x =>
    simp only [act] at h
    split at h <;> cases h

theorem stuck_of_rest (hrest : ∀ s', ¬ Acts (system n) Goes s s') {a : Agent} (ha : a ∈ s.agents) :
    act n s.shared a .go = none := by
  cases hact : act n s.shared a .go with
  | none => rfl
  | some p =>
    obtain ⟨l₁, l₂, hl⟩ := List.append_of_mem ha
    exact absurd (.act (hl ▸ List.perm_middle) rfl hact) (hrest _)

/-- At rest there are only workers, and a token that is covered is in the pool. -/
theorem Healing.rest (hn : 0 < n) (h : Healing n s) (hrest : ∀ s', ¬ Acts (system n) Goes s s') :
    (∀ a ∈ s.agents, a = .worker) ∧ ∀ t ∈ tokens n, t ∈ s.shared.slots := by
  have hkind : ∀ a ∈ s.agents, a = .worker ∨ s.shared.slots = [] ∧ ∃ o, a = .client (.waiting o) :=
    fun a ha => stuck_cases (stuck_of_rest hrest ha)
  have hpool : ∀ k < n, toString k ∈ s.shared.slots := by
    intro k hk
    rcases h.covered k hk with hin | hlive | ⟨i, x, hmem, _⟩
    · exact hin
    · obtain ⟨a, ha, htok⟩ := mem_live.mp hlive
      rcases hkind a ha with rfl | ⟨_, o, rfl⟩ <;> cases htok
    · rcases hkind _ hmem with h | ⟨_, o, h⟩ <;> cases h
  refine ⟨fun a ha => (hkind a ha).resolve_right ?_, fun t ht => ?_⟩
  · rintro ⟨hnil, _⟩
    have h0 := hpool 0 hn
    rw [hnil] at h0
    cases h0
  · obtain ⟨k, hk, rfl⟩ := mem_tokens.mp ht
    exact hpool k hk

end Rest

theorem leased_exclusive {n : Nat} {hist : List (Taken Redis Agent Choice)} {s : State}
    (ht : Story (system n) (fun s m _ => Leased s m ∧ Patient n s m) (system n).init hist s) :
    Exclusive n s.shared.slots (live s.agents) ∧ Recorded s := by
  induction ht with
  | start => exact ⟨⟨List.nodup_nil, by simp [system, live]⟩, by simp [Recorded, system]⟩
  | act ht hp ha hd ih =>
    obtain ⟨he, hr⟩ := ih
    have hu := story_unseeded (fun _ _ _ h => h.1.kept) ht
    exact ⟨(act_shift ha).exclusive hp rfl (hd.2.careful hr hu ha) he,
      recorded_step ha hp (List.nodup_append.mp he.nodup).2.1 hr⟩
  | env _ henv hd ih => exact ⟨env_exclusive henv ih.1, recorded_env henv hd.1 ih.2⟩

theorem story_exclusive {n : Nat} {hist : List (Taken Redis Agent Choice)} {s : State}
    (ht : Story (system n) (fun s m _ => Careful n s m) (system n).init hist s) :
    Exclusive n s.shared.slots (live s.agents) := by
  induction ht with
  | start => exact ⟨List.nodup_nil, by simp [system, live]⟩
  | act _ hp ha hd ih => exact (act_shift ha).exclusive hp rfl hd ih
  | env _ henv _ ih => exact env_exclusive henv ih

/-- Whatever crashed, expired or was wiped before: when the leases of the dead have expired and a
pass of the reaper begins, no schedule of the agents' steps is endless, and where one stops, with
any renewals in between, every use of a slot has had its token and given it back, and every token is
in the pool. If no token was ever put there while a worker had it, each is there once. -/
theorem pool_heals {n : Nat} (hn : 0 < n) {s : State} (hstray : NoStray s) {x : Nat}
    (hreap : Agent.reaper 0 x ∈ s.agents) :
    (¬ ∃ f : Nat → State, f 0 = s ∧ ∀ k, Acts (system n) Goes (f k) (f (k + 1))) ∧
    ∀ s', Schedule (system n) Works s s' → (∀ s'', ¬ Acts (system n) Goes s' s'') →
      (∀ a ∈ s'.agents, a = .worker) ∧ (∀ t ∈ tokens n, t ∈ s'.shared.slots) ∧
      ∀ hist, Story (system n) (fun s m _ => Careful n s m) (system n).init hist s' →
        s'.shared.slots.Perm (tokens n) := by
  have h : Healing n s := ⟨hstray, fun k _ => .inr (.inr ⟨0, x, hreap, Nat.zero_le k⟩)⟩
  have hacc : Acc (fun s' s => Acts (system n) Goes s s') s := by
    refine acc_of_descends (I := Healing n) (r := fun a b => a.ahead n < b.ahead n)
      (InvImage.wf _ Nat.lt_wfRel.wf) (fun h ha => h.step (ha.mono fun _ _ _ => .inl)) ?_ h
    intro s a i sh outs _ _ hc ha
    cases hc
    exact go_ahead ha
  refine ⟨no_endless_of_acc hacc, fun s' hs hrest => ?_⟩
  obtain ⟨hidle, hpool⟩ := (Schedule.keeps (fun h ha => h.step ha) h hs).rest hn hrest
  refine ⟨hidle, hpool, fun hist ht => ?_⟩
  have he := story_exclusive ht
  have hnodup := (List.nodup_append.mp he.nodup).1
  refine (List.perm_ext_iff_of_nodup hnodup (nodup_tokens n)).mpr fun t => ⟨fun ht => ?_, hpool t⟩
  exact he.known t (List.mem_append_left _ ht)

/-- A worker has crashed with a token, and then Redis was wiped. Two uses wait for a slot. -/
theorem pool_heals_after_wipe :
    ∃ s, Reach (system 3) (fun _ _ _ => True) s ∧ s.shared.slots = [] ∧ live s.agents = [] ∧
      (¬ ∃ f : Nat → State, f 0 = s ∧ ∀ k, Acts (system 3) Goes (f k) (f (k + 1))) ∧
      ∀ s', Schedule (system 3) Works s s' → (∀ s'', ¬ Acts (system 3) Goes s' s'') →
        (∀ a ∈ s'.agents, a = .worker) ∧ ∀ t ∈ tokens 3, t ∈ s'.shared.slots := by
  let s : State := ⟨{}, [.worker, .reaper 0 0, .client (.waiting "c"), .client (.waiting "b")]⟩
  have hs : Reach (system 3) (fun _ _ _ => true = true) s :=
    System.runs_reach (C := fun _ _ _ => true) (s := (system 3).init)
      (l := [.env .boot, .act 0 .go, .act 0 (.startSlot "a"), .act 1 .go, .act 0 .go, .act 0 .crash,
        .act 0 (.startSlot "b"), .act 0 (.startSlot "c"), .env .wipe, .act 0 .startReap]) .init rfl
  have hheal := pool_heals (n := 3) (by decide) (s := s) (fun _ h => absurd rfl h) (x := 0)
    (by simp [s])
  refine ⟨s, hs.mono fun _ _ _ _ => trivial, rfl, rfl, hheal.1, fun s' h hrest => ?_⟩
  obtain ⟨hidle, hpool, _⟩ := hheal.2 s' h hrest
  exact ⟨hidle, hpool⟩

end Semaphore
end AudioEngine
