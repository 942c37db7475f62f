import AudioEngine.Semaphore.Model

/-!
# AudioEngine.Semaphore.Reapers

Any number of `reap()` loops over one Redis, nothing else running.

`Reaping` is the invariant of a schedule: what has been appended so far is a part of the orphans,
each once; a loop at the token `i` has seen every orphan before it into the pool; and the counts of
the loops, running or returned, add up to what has been appended. When the last loop has returned
(`reapers_finish` says that every schedule gets there) the orphans are in the pool, whatever the
schedule was (`reapers_reclaim_orphans`).
-/

namespace AudioEngine
namespace Semaphore

open Interleave

/-- The tokens that are neither in the pool nor leased. -/
def orphans (n : Nat) (r : Redis) : List String :=
  (tokens n).filter fun t => decide (r.lease t = none) && decide (t ∉ r.slots)

/-- The move is a step of a `reap()` loop. -/
def reaps : Moving → Bool
  | .act (.reaper _ _) .go => true
  | _ => false

/-- The value `reap()` returns in the step, if it is the last of its loop. -/
def returns (n : Nat) (x : Taken Redis Agent Choice) : Option Nat :=
  match x.agent, x.choice with
  | .reaper i reclaimed, .go => if i < n then none else some reclaimed
  | _, _ => none

/-- The values returned so far. -/
def returned (n : Nat) (hist : List (Taken Redis Agent Choice)) : List Nat :=
  hist.filterMap (returns n)

/-- The count a loop has in memory. -/
def Agent.counted : Agent → Nat
  | .reaper _ reclaimed => reclaimed
  | _ => 0

/-- The steps a loop has left, its return included. -/
def Agent.left (n : Nat) : Agent → Nat
  | .reaper i _ => n + 1 - i
  | _ => 0

/-- The loop has seen the orphans before its token into the pool. -/
def Swept (n : Nat) (r r' : Redis) (a : Agent) : Prop :=
  ∃ i reclaimed, a = .reaper i reclaimed ∧ i ≤ n ∧
    ∀ k < i, toString k ∈ orphans n r → toString k ∈ r'.slots

structure Reaping (n size : Nat) (r : Redis) (hist : List (Taken Redis Agent Choice)) (s : State) :
    Prop where
  lease : s.shared.lease = r.lease
  appended : ∃ added, s.shared.slots = r.slots ++ added ∧ added.Nodup ∧
    (∀ t ∈ added, t ∈ orphans n r) ∧
    (returned n hist).sum + (s.agents.map Agent.counted).sum = added.length
  swept : ∀ a ∈ s.agents, Swept n r s.shared a
  last : s.agents ≠ [] ∨ ∀ t ∈ orphans n r, t ∈ s.shared.slots
  loops : (returned n hist).length + s.agents.length = size
  steps : hist.length + (s.agents.map (Agent.left n)).sum = size * (n + 1)

section Step

variable {n size : Nat} {r : Redis} {hist : List (Taken Redis Agent Choice)} {s : State}

theorem mem_orphans {t : String} :
    t ∈ orphans n r ↔ t ∈ tokens n ∧ r.lease t = none ∧ t ∉ r.slots := by
  simp [orphans]

theorem nodup_orphans (n : Nat) (r : Redis) : (orphans n r).Nodup :=
  (nodup_tokens n).filter _

/-- What `_RECLAIM_LUA` does: it appends the token when it is free and not in the pool, so that a
free token is in the pool afterwards. -/
theorem reclaim_spec (r : Redis) (t : String) :
    ∃ new, reclaim r t = ({ r with slots := r.slots ++ new }, new.length) ∧ new.Nodup ∧
      (∀ u ∈ new, u = t ∧ r.lease t = none ∧ t ∉ r.slots) ∧
      (r.lease t = none → t ∈ r.slots ++ new) := by
  unfold reclaim
  split
  · rename_i hl
    refine ⟨[], by simp, by simp, by simp, fun hn => ?_⟩
    rw [hn] at hl
    cases hl
  split
  · rename_i hmem
    exact ⟨[], by simp, by simp, by simp, fun _ => by simp [hmem]⟩
  · rename_i hl hmem
    refine ⟨[t], by simp, by simp, ?_, fun _ => by simp⟩
    intro u hu
    exact ⟨List.mem_singleton.mp hu, by simpa using hl, hmem⟩

theorem Swept.grow {r₁ r₂ : Redis} {a : Agent} (hs : ∀ t ∈ r₁.slots, t ∈ r₂.slots)
    (h : Swept n r r₁ a) : Swept n r r₂ a := by
  obtain ⟨i, x, rfl, hi, hk⟩ := h
  exact ⟨i, x, rfl, hi, fun k hlt ho => hs _ (hk k hlt ho)⟩

/-- The sums over the pool, with the acting loop taken out. -/
theorem sum_perm {agents rest : List Agent} {a : Agent} (f : Agent → Nat)
    (hp : agents.Perm (a :: rest)) : (agents.map f).sum = f a + (rest.map f).sum := by
  rw [(hp.map f).sum_nat, List.map_cons, List.sum_cons]

/-- The script for the token `i` of one loop. -/
theorem Reaping.script {rest : List Agent} {i x : Nat} (h : Reaping n size r hist s)
    (hp : s.agents.Perm (.reaper i x :: rest)) (hi : i < n) :
    Reaping n size r (⟨s.shared, .reaper i x, .go, (reclaim s.shared (toString i)).1⟩ :: hist)
      ⟨(reclaim s.shared (toString i)).1,
        .reaper (i + 1) (x + (reclaim s.shared (toString i)).2) :: rest⟩ := by
  obtain ⟨added, hslots, hnodup, hsub, hsum⟩ := h.appended
  obtain ⟨i', x', heq, _, hpast⟩ := h.swept (.reaper i x) (hp.mem_iff.mpr (by simp))
  cases heq
  obtain ⟨new, hr, hnew, hfree, hthere⟩ := reclaim_spec s.shared (toString i)
  rw [hr]
  have hret : ∀ r', returned n (⟨s.shared, .reaper i x, .go, r'⟩ :: hist) = returned n hist := by
    intro r'
    simp [returned, returns, hi]
  have horphan : ∀ t ∈ new, t ∈ orphans n r ∧ t ∉ added := by
    intro t ht
    obtain ⟨rfl, hlease, hout⟩ := hfree t ht
    rw [hslots, List.mem_append, not_or] at hout
    rw [h.lease] at hlease
    exact ⟨mem_orphans.mpr ⟨mem_tokens.mpr ⟨i, hi, rfl⟩, hlease, hout.1⟩, hout.2⟩
  refine ⟨h.lease, ⟨added ++ new, ?_, ?_, ?_, ?_⟩, ?_, .inl (by simp), ?_, ?_⟩
  · rw [hslots, List.append_assoc]
  · exact hnodup.append hnew fun t ha hn => (horphan t hn).2 ha
  · intro t ht
    rcases List.mem_append.mp ht with ht | ht
    · exact hsub t ht
    · exact (horphan t ht).1
  · have hcount := sum_perm Agent.counted hp
    rw [hret, List.map_cons, List.sum_cons, List.length_append]
    simp only [Agent.counted] at hcount ⊢
    omega
  · intro b hb
    rcases List.mem_cons.mp hb with rfl | hb
    · refine ⟨i + 1, x + new.length, rfl, hi, fun k hk ho => ?_⟩
      rcases Nat.lt_succ_iff_lt_or_eq.mp hk with hk | rfl
      · exact List.mem_append_left new (hpast k hk ho)
      · -- the token of this step: free, as all orphans are, so in the pool now
        apply hthere
        rw [h.lease]
        exact (mem_orphans.mp ho).2.1
    · have hb' := h.swept b (hp.mem_iff.mpr (by simp [hb]))
      exact hb'.grow fun t ht => List.mem_append_left new ht
  · rw [hret, List.length_cons]
    have hloops := h.loops
    rw [hp.length_eq, List.length_cons] at hloops
    exact hloops
  · have hsteps := h.steps
    rw [sum_perm (Agent.left n) hp] at hsteps
    rw [List.length_cons, List.map_cons, List.sum_cons]
    simp only [Agent.left] at hsteps ⊢
    omega

/-- The return of one loop. -/
theorem Reaping.return {rest : List Agent} {i x : Nat} (h : Reaping n size r hist s)
    (hp : s.agents.Perm (.reaper i x :: rest)) (hi : ¬ i < n) :
    Reaping n size r (⟨s.shared, .reaper i x, .go, s.shared⟩ :: hist) ⟨s.shared, rest⟩ := by
  obtain ⟨added, hslots, hnodup, hsub, hsum⟩ := h.appended
  obtain ⟨i', x', heq, hle, hpast⟩ := h.swept (.reaper i x) (hp.mem_iff.mpr (by simp))
  cases heq
  have hcount := sum_perm Agent.counted hp
  have hloops := h.loops
  rw [hp.length_eq, List.length_cons] at hloops
  have hsteps := h.steps
  rw [sum_perm (Agent.left n) hp] at hsteps
  have hret : returned n (⟨s.shared, .reaper i x, .go, s.shared⟩ :: hist) =
      x :: returned n hist := by
    simp [returned, returns, hi]
  refine ⟨h.lease, ⟨added, hslots, hnodup, hsub, ?_⟩, ?_, .inr ?_, ?_, ?_⟩
  · rw [hret, List.sum_cons]
    simp only [Agent.counted] at hcount ⊢
    omega
  · intro b hb
    exact h.swept b (hp.mem_iff.mpr (by simp [hb]))
  · -- the loop has been through all tokens
    intro t ht
    obtain ⟨k, hk, rfl⟩ := mem_tokens.mp (mem_orphans.mp ht).1
    exact hpast k (by omega) ht
  · rw [hret, List.length_cons]
    show _ + rest.length = size
    omega
  · rw [List.length_cons]
    simp only [Agent.left] at hsteps ⊢
    omega

/-- The pool at the start: `size` loops, none of which has run. -/
def reapers (size : Nat) (r : Redis) : State := ⟨r, List.replicate size (.reaper 0 0)⟩

theorem Reaping.start (n : Nat) (hsize : 0 < size) (r : Redis) :
    Reaping n size r [] (reapers size r) := by
  have hcounted : ((reapers size r).agents.map Agent.counted).sum = 0 := by
    simp [reapers, Agent.counted]
  have hleft : ((reapers size r).agents.map (Agent.left n)).sum = size * (n + 1) := by
    simp [reapers, Agent.left]
  refine ⟨rfl, ⟨[], by simp [reapers], by simp, by simp, by simpa [returned] using hcounted⟩, ?_,
    .inl (by simp [reapers]; omega), by simp [reapers, returned], by simpa using hleft⟩
  intro a ha
  obtain rfl : a = .reaper 0 0 := List.eq_of_mem_replicate ha
  exact ⟨0, 0, rfl, by omega, fun k hk => absurd hk (by omega)⟩

theorem story_reaping (hsize : 0 < size)
    (ht : Story (system n) (fun _ m _ => reaps m = true) (reapers size r) hist s) :
    Reaping n size r hist s := by
  refine Story.induct (I := Reaping n size r) (.start n hsize r) ?_ ?_ ht
  · intro h s rest a c sh outs _ ih hp ha hd
    -- only steps of the loops are taken
    cases a with
    | reaper i x =>
      cases c with
      | go =>
        have hact : act n s.shared (.reaper i x) .go = some (sh, outs) := ha
        simp only [act] at hact
        split at hact
        · rename_i hi
          cases hact
          exact ih.script hp hi
        · rename_i hi
          cases hact
          exact ih.return hp hi
      | _ => cases hd
    | _ => cases c <;> cases hd
  · intro h s e sh outs _ _ _ hd
    cases hd

/-- Every schedule can be carried on until all loops have returned, and then has one step per token
and loop, and the returns. -/
theorem reapers_finish (hsize : 0 < size)
    (ht : Story (system n) (fun _ m _ => reaps m = true) (reapers size r) hist s) :
    ∃ later s', Story (system n) (fun _ m _ => reaps m = true) (reapers size r) (later ++ hist) s' ∧
      s'.agents = [] ∧ (later ++ hist).length = size * (n + 1) := by
  have hinv := story_reaping hsize ht
  induction hleft : (s.agents.map (Agent.left n)).sum generalizing hist s with
  | zero =>
    have hnone : s.agents = [] := by
      cases hag : s.agents with
      | nil => rfl
      | cons a rest =>
        obtain ⟨i, x, rfl, hi, _⟩ := hinv.swept a (by simp [hag])
        rw [hag, List.map_cons, List.sum_cons] at hleft
        simp only [Agent.left] at hleft
        omega
    refine ⟨[], s, ht, hnone, ?_⟩
    have hsteps := hinv.steps
    rw [hleft] at hsteps
    exact hsteps
  | succ k ih =>
    cases hag : s.agents with
    | nil => simp [hag] at hleft
    | cons a rest =>
      obtain ⟨i, x, rfl, hi, _⟩ := hinv.swept a (by simp [hag])
      have hp : s.agents.Perm (.reaper i x :: rest) := by rw [hag]
      obtain ⟨sh, outs, hact⟩ : ∃ sh outs,
          (system n).act s.shared (.reaper i x) .go = some (sh, outs) := by
        by_cases hlt : i < n
        · simp [system, act, hlt]
        · simp [system, act, hlt]
      have hnext := Story.act ht hp hact (rfl : reaps (.act (.reaper i x) .go) = true)
      have hinv' := story_reaping hsize hnext
      have hsteps := hinv.steps
      have hsteps' := hinv'.steps
      rw [List.length_cons] at hsteps'
      obtain ⟨later, s', hlater, hnone, hlen⟩ := ih hnext hinv' (by omega)
      rw [List.append_cons] at hlater hlen
      exact ⟨_, s', hlater, hnone, hlen⟩

end Step

/-- Loops that have all returned have appended the orphans, each once; leases are as they were, and
the returned counts add up to the number of orphans. -/
theorem reapers_reclaim_orphans {n size : Nat} (hsize : 0 < size) {r : Redis}
    {hist : List (Taken Redis Agent Choice)} {s : State}
    (ht : Story (system n) (fun _ m _ => reaps m = true) (reapers size r) hist s)
    (hdone : s.agents = []) :
    (∃ added, s.shared.slots = r.slots ++ added ∧ added.Perm (orphans n r)) ∧
    s.shared.lease = r.lease ∧
    (returned n hist).length = size ∧ (returned n hist).sum = (orphans n r).length := by
  have hinv := story_reaping hsize ht
  obtain ⟨added, hslots, hnodup, hsub, hsum⟩ := hinv.appended
  have hall := hinv.last.resolve_left fun h => h hdone
  have hperm : added.Perm (orphans n r) := by
    rw [List.perm_ext_iff_of_nodup hnodup (nodup_orphans n r)]
    intro t
    refine ⟨hsub t, fun ho => ?_⟩
    have hmem := hall t ho
    rw [hslots, List.mem_append] at hmem
    exact hmem.resolve_left (mem_orphans.mp ho).2.2
  have hloops := hinv.loops
  rw [hdone] at hloops hsum
  exact ⟨⟨added, hslots, hperm⟩, hinv.lease, hloops, hsum.trans hperm.length_eq⟩

/-- Two loops over four tokens, of which `1` is leased and `2` is in the pool, in an order in which
they take one orphan each. -/
theorem reapers_reclaim_orphans_two :
    ∃ hist s, Story (system 4) (fun _ m _ => reaps m = true)
        (reapers 2 { slots := ["2"], lease := fun t => if t = "1" then some "w" else none }) hist s ∧
      s.agents = [] ∧ s.shared.slots = ["2", "0", "3"] ∧ returned 4 hist = [1, 1] ∧
      (returned 4 hist).sum = (orphans 4
        { slots := ["2"], lease := fun t => if t = "1" then some "w" else none }).length := by
  obtain ⟨hist, s, ht, hdone, hslots, hret⟩ :
      ∃ hist s, Story (system 4) (fun _ m _ => reaps m = true)
          (reapers 2 { slots := ["2"], lease := fun t => if t = "1" then some "w" else none }) hist s ∧
        s.agents = [] ∧ s.shared.slots = ["2", "0", "3"] ∧ returned 4 hist = [1, 1] :=
    System.exists_story (d := fun _ m _ => reaps m) (fun _ _ _ h => h)
      [.act 0 .go, .act 1 .go, .act 0 .go, .act 0 .go, .act 0 .go, .act 1 .go, .act 0 .go,
        .act 0 .go, .act 0 .go, .act 0 .go] (by decide)
  exact ⟨hist, s, ht, hdone, hslots, hret, (reapers_reclaim_orphans (by decide) ht hdone).2.2.2⟩

end Semaphore
end AudioEngine
