import AudioEngine.Semaphore.Ledger

/-!
# AudioEngine.Semaphore.Conservation

What the book of the tokens says about the pool.

Without the reaper every token is in the pool, in the memory of one live worker or lost with a
crashed one (`tokens_conserved`). With the reaper a token may be returned that its slow holder still
has. The holder's `release` does not look whether the token is in the pool by then, so both of them
come back, and the pool stays larger: `idle_distinct_iff` says exactly when it does not.
-/

namespace AudioEngine
namespace Semaphore

open Interleave

/-! ## Seeding, acquisition and release -/

/-- No reclaim script runs and Redis keeps its keys. -/
def unreaped : Moving → Bool
  | .act (.reaper _ _) .go => false
  | .env .wipe => false
  | _ => true

section Conserved

variable {n : Nat} {r r' : Redis} {a : Agent} {i : Choice} {outs : List Agent}
  {hist : List (Taken Redis Agent Choice)} {s : State}

theorem kept_of_unreaped {m : Moving} (h : unreaped m = true) : kept m = true := by
  cases m with
  | act a i => rfl
  | env e =>
    cases e with
    | wipe => cases h
    | _ => rfl

theorem reclaims_none (h : unreaped (.act a i) = true) : a.reclaims n r i = none := by
  cases a with
  | reaper k x =>
    cases i with
    | go => cases h
    | _ => rfl
  | _ => cases i <;> rfl

theorem ensures_init (h : act n r a i = some (r', outs)) (he : a.ensures i = true) :
    r'.init = true := by
  have hi : (ensureSlots n r).init = true := by
    unfold ensureSlots
    split
    · assumption
    · rfl
  cases a with
  | boot =>
    cases i with
    | go => cases h; exact hi
    | _ => cases he
  | reseeder =>
    cases i with
    | go => cases h; exact hi
    | _ => cases he
  | _ => cases i <;> cases he

variable {D : State → Moving → Redis → Prop}

/-- Once `ensure_slots` has run, the marker is there. -/
theorem story_init (hD : ∀ s m r, D s m r → kept m = true)
    (ht : Story (system n) D (system n).init hist s)
    (he : ∃ x ∈ hist, x.agent.ensures x.choice = true) : s.shared.init = true := by
  induction ht with
  | start => simp at he
  | act _ hp ha _ ih =>
    obtain ⟨x, hx, he⟩ := he
    rcases List.mem_cons.mp hx with rfl | hx
    · exact ensures_init ha he
    · exact (act_shift ha).init (ih ⟨x, hx, he⟩)
  | env _ hen hd ih =>
    rw [(env_kept hen (hD _ _ _ hd)).2.1]
    exact ih he

theorem story_reclaimed_nil (hD : ∀ s m r, D s m r → unreaped m = true)
    (ht : Story (system n) D (system n).init hist s) : reclaimed n hist = [] := by
  induction ht with
  | start => rfl
  | act _ _ _ hd ih => rw [reclaimed_cons, reclaims_none (hD _ _ _ hd), ih]; rfl
  | env _ _ _ ih => exact ih

end Conserved

/-- After the first `ensure_slots` the tokens in the pool, in the memory of live workers and lost
with crashed ones are exactly the `n` tokens. So at most `n` workers hold one, an `acquire` that
finds the pool empty waits for `n` tokens that are held, in transit or lost, and when nobody has a
token the pool has all of them but the lost ones. -/
theorem tokens_conserved {n : Nat} {hist : List (Taken Redis Agent Choice)} {s : State}
    (ht : Story (system n) (fun _ m _ => unreaped m = true) (system n).init hist s)
    (he : ∃ x ∈ hist, x.agent.ensures x.choice = true) :
    (s.shared.slots ++ live s.agents ++ lost hist).Perm (tokens n) ∧
    s.agents.countP Agent.holds ≤ n ∧
    (∀ owner, .client (.waiting owner) ∈ s.agents →
      act n s.shared (.client (.waiting owner)) .go = none →
      (live s.agents ++ lost hist).Perm (tokens n)) ∧
    (live s.agents = [] → s.shared.slots.Perm ((tokens n).filter fun t => t ∉ lost hist)) := by
  have hbal := story_ledger (fun _ _ _ h => kept_of_unreaped h) ht
  have hinit := story_init (fun _ _ _ h => kept_of_unreaped h) ht he
  rw [Balanced, story_reclaimed_nil (fun _ _ _ h => h) ht, List.append_nil, seeded, hinit] at hbal
  have hbal : (s.shared.slots ++ live s.agents ++ lost hist).Perm (tokens n) := hbal
  refine ⟨hbal, ?_, ?_, ?_⟩
  · have hlen := hbal.length_eq
    rw [length_tokens, List.length_append, List.length_append] at hlen
    have := holders_le_live s.agents
    omega
  · intro owner _ hblocked
    have hnil : s.shared.slots = [] := by
      simp only [act, Client.act] at hblocked
      split at hblocked
      · assumption
      · cases hblocked
    rw [hnil, List.nil_append] at hbal
    exact hbal
  · intro hidle
    rw [hidle, List.append_nil] at hbal
    have hnodup : (s.shared.slots ++ lost hist).Nodup := hbal.nodup_iff.mpr (nodup_tokens n)
    have hdisj := List.disjoint_of_nodup_append hnodup
    have hkeep : s.shared.slots.filter (fun t => t ∉ lost hist) = s.shared.slots := by
      rw [List.filter_eq_self]
      exact fun t ht => decide_eq_true fun hl => hdisj ht hl
    have hdrop : (lost hist).filter (fun t => t ∉ lost hist) = [] := by
      rw [List.filter_eq_nil_iff]
      exact fun t ht => by simp [ht]
    have hfilter := hbal.filter fun t => t ∉ lost hist
    rw [List.filter_append, hkeep, hdrop, List.append_nil] at hfilter
    exact hfilter

/-- One token is held, one is lost, one is in the pool. -/
theorem tokens_conserved_three :
    ∃ hist s, Story (system 3) (fun _ m _ => unreaped m = true) (system 3).init hist s ∧
      s.shared.slots = ["2"] ∧ live s.agents = ["1"] ∧ lost hist = ["0"] ∧
      (s.shared.slots ++ live s.agents ++ lost hist).Perm (tokens 3) := by
  obtain ⟨hist, s, ht, hslots, hlive, hlost, he⟩ :
      ∃ hist s, Story (system 3) (fun _ m _ => unreaped m = true) (system 3).init hist s ∧
        s.shared.slots = ["2"] ∧ live s.agents = ["1"] ∧ lost hist = ["0"] ∧
        ∃ x ∈ hist, x.agent.ensures x.choice = true :=
    System.exists_story (d := fun _ m _ => unreaped m) (fun _ _ _ h => h)
      [.env .boot, .act 0 .go, .env (.slot "a"), .env (.slot "b"), .act 1 .go, .act 1 .go,
        .act 1 .crash, .act 0 .go] (by decide)
  exact ⟨hist, s, ht, hslots, hlive, hlost, (tokens_conserved ht he).1⟩

/-! ## After a late lease -/

/-- When nobody has a token (so also when nothing is in progress), the pool has each token at most
once if and only if the reaper has returned no token more often than a worker crashed with it. -/
theorem idle_distinct_iff {n : Nat} {hist : List (Taken Redis Agent Choice)} {s : State}
    (ht : Story (system n) (fun _ m _ => kept m = true) (system n).init hist s)
    (hidle : live s.agents = []) :
    (∀ t ∈ tokens n, s.shared.slots.count t ≤ 1) ↔
      ∀ t ∈ tokens n, (reclaimed n hist).count t ≤ (lost hist).count t := by
  have hbal := story_ledger (fun _ _ _ h => h) ht
  have hun := story_unseeded (fun _ _ _ h => h) ht
  rw [Balanced, hidle, List.append_nil, List.perm_iff_count] at hbal
  refine forall₂_congr fun t htok => ?_
  have hcount := hbal t
  simp only [List.count_append] at hcount
  cases hinit : s.shared.init with
  | true =>
    have hone : (seeded n s.shared).count t = 1 := by
      rw [seeded, hinit]
      exact List.count_eq_one_of_mem (nodup_tokens n) htok
    omega
  | false =>
    have hnone : (seeded n s.shared).count t = 0 := by rw [seeded, hinit]; rfl
    rw [(hun hinit).1, List.count_nil] at hcount ⊢
    omega

/-- A worker crashes with the token `0`; its lease expires and the reaper returns the token. -/
theorem idle_distinct_after_crash :
    ∃ hist s, Story (system 3) (fun _ m _ => kept m = true) (system 3).init hist s ∧
      s.shared.slots = ["1", "2", "0"] ∧ reclaimed 3 hist = ["0"] ∧
      ∀ t ∈ tokens 3, s.shared.slots.count t ≤ 1 := by
  obtain ⟨hist, s, ht, hslots, hlive, hrec, hle⟩ :
      ∃ hist s, Story (system 3) (fun _ m _ => kept m = true) (system 3).init hist s ∧
        s.shared.slots = ["1", "2", "0"] ∧ live s.agents = [] ∧ reclaimed 3 hist = ["0"] ∧
        ∀ t ∈ tokens 3, (reclaimed 3 hist).count t ≤ (lost hist).count t :=
    System.exists_story (d := fun _ m _ => kept m) (fun _ _ _ h => h)
      [.env .boot, .act 0 .go, .act 0 (.startSlot "a"), .act 1 .go, .act 0 .go, .act 0 .crash,
        .env (.expire "0"), .act 0 .startReap, .act 1 .go, .act 0 .go, .act 0 .go, .act 0 .go]
      (by decide)
  exact ⟨hist, s, ht, hslots, hrec, (idle_distinct_iff ht hlive).mpr hle⟩

/-- The lease of a slow holder expires, the reaper returns its token, and then its `release` does:
everything is idle, and the pool has four tokens. -/
theorem lateRelease_enlarges :
    ∃ hist s, Story (system 3) (fun _ m _ => kept m = true) (system 3).init hist s ∧
      s.agents = [.worker] ∧ s.shared.slots = ["1", "2", "0", "0"] :=
  System.exists_story (d := fun _ m _ => kept m) (fun _ _ _ h => h)
    [.env .boot, .act 0 .go, .act 0 (.startSlot "a"), .act 1 .go, .act 0 .go, .env (.expire "0"),
      .act 1 .startReap, .act 1 .go, .act 0 .go, .act 0 .go, .act 0 .go, .act 1 .go, .act 0 .go,
      .act 0 .go] (by decide)

end Semaphore
end AudioEngine
