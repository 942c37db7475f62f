import AudioEngine.Pipeline.Status

/-!
# AudioEngine.Pipeline.Counter

The fan-in counter over whole runs.

A claim is made on a task of the job, and a job with a task has left `PENDING`. So the counter is
seeded before the first claim and never again afterwards, and the values that the claims return
count down one by one, whatever the recounting of `FAILED` tasks does to their number. In
particular at most one call returns 0.
-/

namespace AudioEngine
namespace Pipeline

open Relational Interleave

/-- The value a claim for `j` returned. -/
def crossing (j : String) : Obs → Option Int
  | .completeTask k _ r => if k = j then r else none
  | .failTask k _ r => if k = j then r else none
  | _ => none

/-- The values the claims for `j` returned, newest first. -/
def crossings (j : String) (sh : Shared) : List Int := sh.trace.filterMap (crossing j)

/-- The call counted the task `t`. -/
def counts (t : String) : Obs → Bool
  | .completeTask _ t' r => decide (t' = t) && r.isSome
  | .failTask _ t' r => decide (t' = t) && r.isSome
  | _ => false

section Move

variable {cfg : Settings} {F : Licence} {sh sh' : Shared} {j t : String}

theorem crossing_note {o : Obs} (h : o.isNote = true) : crossing j o = none := by
  cases o <;> first | rfl | cases h

theorem counts_note {o : Obs} (h : o.isNote = true) : counts t o = false := by
  cases o <;> first | rfl | cases h

theorem crossings_log {o : Obs} (h : crossing j o = none) : crossings j (sh.log o) = crossings j sh :=
  List.filterMap_cons_none h

theorem Stores.crossings (h : Stores sh sh') : crossings j sh' = crossings j sh := by
  obtain ⟨os, ht, hos⟩ := h.trace
  have h0 : os.filterMap (crossing j) = [] := by
    rw [List.filterMap_eq_nil_iff]
    intro o ho
    rcases hos o ho with hn | ⟨k, m, rfl, _⟩
    · exact crossing_note hn
    · rfl
  rw [Pipeline.crossings, ht, List.filterMap_append, h0]
  rfl

/-- What a move does to the counter of a job that has left `PENDING`: nothing, or one decrement
whose result is returned. -/
inductive CountMove (sh sh' : Shared) (j : String) : Prop where
  | keeps : crossings j sh' = crossings j sh →
      (∀ job, sh.db.jobs.get j = some job → job.status ≠ .pending →
        ∃ job', sh'.db.jobs.get j = some job' ∧ job'.pendingCount = job.pendingCount) →
      CountMove sh sh' j
  | counts {job job' : Job} : sh.db.jobs.get j = some job → job.status ≠ .pending →
      sh'.db.jobs.get j = some job' → job'.pendingCount = job.pendingCount - 1 →
      crossings j sh' = job'.pendingCount :: crossings j sh → CountMove sh sh' j

theorem cas_count {k : String} {expected : List JobStatus} {set : Job → Job}
    {hset : ∀ r, (set r).jobId = r.jobId} {db' : Db} {won : Bool} {o : Obs}
    (h : casJob sh.db k expected set hset = (db', won))
    (hset' : ∀ r, (set r).pendingCount = r.pendingCount) (ho : crossing j o = none) :
    CountMove sh ({ sh with db := db' }.log o) j := by
  refine .keeps (crossings_log ho) ?_
  intro job hg _
  show ∃ job', db'.jobs.get j = some job' ∧ _
  rcases casJob_cases h with ⟨_, rfl, _⟩ | ⟨_, _, job₀, hg₀, _, hget⟩
  · exact ⟨job, hg, rfl⟩
  · rw [hget]
    split
    · rename_i he
      rw [he, hg₀] at hg
      cases hg
      exact ⟨_, rfl, hset' job⟩
    · exact ⟨job, hg, rfl⟩

/-- A claim on a task of `k`, seen from the job `j`. -/
theorem claimed_count {k : String} {task task' : Task} {job : Job} {db' : Db} {o : Obs}
    (hs : Sound cfg sh) (hc : Claimed sh.db db' k t task task' job) (hk : task.jobId = k)
    (ho : crossing j o = if k = j then some (job.pendingCount - 1) else none) :
    CountMove sh ({ sh with db := db' }.log o) j := by
  have hrow : ∀ x, db'.jobs.get x =
      if x = k then some { job with pendingCount := job.pendingCount - 1 } else sh.db.jobs.get x :=
    hc.jobs
  by_cases he : k = j
  · subst he
    rw [if_pos rfl] at ho
    have hid := (Table.get_eq_some.mp hc.task_get).2
    have hm : task ∈ sh.db.tasksOf k := mem_tasksOf.mpr ⟨by rw [hid]; exact hc.task_get, hk⟩
    obtain ⟨_, job₀, hg₀, hne⟩ := hs.laid_of_row hm
    obtain rfl := Option.some.inj (hc.job_get.symm.trans hg₀)
    exact .counts hg₀ hne ((hrow k).trans (if_pos rfl)) rfl (List.filterMap_cons_some ho)
  · rw [if_neg he] at ho
    refine .keeps (crossings_log ho) ?_
    intro x hx _
    exact ⟨x, ((hrow j).trans (if_neg (Ne.symm he))).trans hx, rfl⟩

theorem Effect.count (h : Effect cfg F sh sh') (hs : Sound cfg sh) (j : String) :
    CountMove sh sh' j := by
  cases h with
  | stores h =>
    refine .keeps h.crossings ?_
    intro job hg _
    exact ⟨job, by rw [h.db]; exact hg, rfl⟩
  | insertJob hp hi =>
    refine .keeps rfl ?_
    intro job hg _
    refine ⟨job, ?_, rfl⟩
    refine (Table.get_insert? hi j).trans ?_
    rw [if_neg]
    · exact hg
    · intro he
      rw [← he, (Table.insert?_eq_some hi).2] at hg
      cases hg
  | @seed k text job₀ db won hjob ht hseed _ =>
    refine .keeps (crossings_log rfl) ?_
    intro job hg hne
    show ∃ job', db.jobs.get j = some job' ∧ _
    rcases hs.seed_cases hjob ht hseed with ⟨_, _, ⟨_, hp, hget⟩ | ⟨_, _, hjobs⟩⟩ | ⟨_, rfl, _, _⟩
    · rw [hget]
      split
      · rename_i he
        rw [he, hjob] at hg
        cases hg
        exact absurd hp hne
      · exact ⟨job, hg, rfl⟩
    · rw [hjobs]; exact ⟨job, hg, rfl⟩
    · exact ⟨job, hg, rfl⟩
  | advance hst h => exact cas_count h (fun _ => rfl) rfl
  | finalize h _ => exact cas_count h (fun _ => rfl) rfl
  | @complete k t task db r ht howner hb hc _ =>
    rcases completeTask_cases hc with ⟨rfl, rfl, _⟩ | ⟨task', job, _, rfl, hcl⟩
    · refine .keeps (crossings_log ?_) fun job hg _ => ⟨job, hg, rfl⟩
      simp [crossing]
    · obtain rfl := Option.some.inj (ht.symm.trans hcl.task_get)
      exact claimed_count hs hcl howner rfl
  | @fail k t task db r ht howner hc _ =>
    rcases failTask_cases hc with ⟨rfl, rfl, _⟩ | ⟨task', job, _, rfl, hcl⟩
    · refine .keeps (crossings_log ?_) fun job hg _ => ⟨job, hg, rfl⟩
      simp [crossing]
    · obtain rfl := Option.some.inj (ht.symm.trans hcl.task_get)
      exact claimed_count hs hcl howner rfl

/-- The returned values count down to the current counter. -/
def CountsDown (sh : Shared) : Prop :=
  ∀ j, (crossings j sh).IsChain (fun newer older => newer = older - 1) ∧
    ∀ v ∈ (crossings j sh).head?, ∃ job, sh.db.jobs.get j = some job ∧ job.status ≠ .pending ∧
      job.pendingCount = v

theorem Effect.countsDown (h : Effect cfg F sh sh') (hs : Sound cfg sh) (hc : CountsDown sh) :
    CountsDown sh' := by
  intro j
  obtain ⟨hchain, hhead⟩ := hc j
  have left : ∀ job job', sh.db.jobs.get j = some job → job.status ≠ .pending →
      sh'.db.jobs.get j = some job' → job'.status ≠ .pending := by
    intro job job' hg hne hg'
    obtain ⟨job₁, hg₁, hst⟩ := (h.evolves hs).job j job hg
    obtain rfl := Option.some.inj (hg'.symm.trans hg₁)
    rcases hst with hst | hst
    · rw [hst]; exact hne
    · intro hp
      rw [hp, JobStatus.canTransition_pending] at hst
      cases hst
  rcases h.count hs j with ⟨heq, hkeep⟩ | ⟨hg, hne, hg', hdec, hcons⟩
  · rw [heq]
    refine ⟨hchain, ?_⟩
    intro v hv
    obtain ⟨job, hg, hne, hcount⟩ := hhead v hv
    obtain ⟨job', hg', hsame⟩ := hkeep job hg hne
    exact ⟨job', hg', left job job' hg hne hg', hsame.trans hcount⟩
  · rw [hcons]
    refine ⟨?_, ?_⟩
    · rw [List.isChain_cons]
      refine ⟨?_, hchain⟩
      intro v hv
      obtain ⟨job₀, hg₀, _, hcount⟩ := hhead v hv
      obtain rfl := Option.some.inj (hg.symm.trans hg₀)
      rw [hdec, hcount]
    · intro v hv
      cases hv
      exact ⟨_, hg', left _ _ hg hne hg', rfl⟩

/-- A `DONE` task is frozen: its row stays as it is and no claim counts it again. -/
def Freezes (sh sh' : Shared) : Prop :=
  ∀ t task, sh.db.tasks.get t = some task → task.status = .done →
    sh'.db.tasks.get t = some task ∧ sh'.trace.countP (counts t) = sh.trace.countP (counts t)

theorem Effect.freezes (h : Effect cfg F sh sh') (hs : Sound cfg sh) : Freezes sh sh' := by
  intro t task hg hd
  obtain ⟨task', hg', _, hfro, _⟩ := (h.evolves hs).task t task hg
  rw [hfro hd] at hg'
  refine ⟨hg', ?_⟩
  cases h with
  | stores h =>
    exact h.countP (fun _ => counts_note) fun _ _ => rfl
  | insertJob hp hi => rfl
  | seed hjob ht hseed _ => exact List.countP_cons_of_neg (by simp [Pipeline.counts])
  | advance hst h => exact List.countP_cons_of_neg (by simp [Pipeline.counts])
  | finalize h _ => exact List.countP_cons_of_neg (by simp [Pipeline.counts])
  | complete ht howner hb hc _ =>
    refine List.countP_cons_of_neg ?_
    simp only [Pipeline.counts, Bool.and_eq_true, decide_eq_true_eq, not_and]
    rintro rfl
    rcases completeTask_cases hc with ⟨rfl, _⟩ | ⟨task', job, hne, _, hcl⟩
    · simp
    · obtain rfl := Option.some.inj (hg.symm.trans hcl.task_get)
      exact absurd hd hne
  | fail ht howner hc _ =>
    refine List.countP_cons_of_neg ?_
    simp only [Pipeline.counts, Bool.and_eq_true, decide_eq_true_eq, not_and]
    rintro rfl
    rcases failTask_cases hc with ⟨rfl, _⟩ | ⟨task', job, hp, _, hcl⟩
    · simp
    · obtain rfl := Option.some.inj (hg.symm.trans hcl.task_get)
      rw [hd] at hp
      cases hp

end Move

/-! ## Runs -/

section Run

variable {cfg : Settings} {C : Shared → Agent → Choice → Prop} {s : State}

/-- `begin_parse` returned `True` for `j`. -/
def seeds (j : String) : Obs → Bool
  | .beginParse k _ won => decide (k = j) && won
  | _ => false

/-- The values the claims for `j` returned, in commit order. -/
def barrierReturns (j : String) (sh : Shared) : List Int := (crossings j sh).reverse

theorem seeds_le_wins (j : String) (os : List Obs) :
    os.countP (seeds j) ≤ os.countP (wins j .parsing) := by
  apply List.countP_mono_left
  intro o _ ho
  cases o <;> first | cases ho | skip
  simpa [wins, seeds] using ho

theorem reach_countsDown (h : Reach (system cfg) C s) : CountsDown s.shared :=
  reach_effects (K := fun _ => True) (fun _ _ _ _ => trivial) trivial
    (fun _ => ⟨.nil, by intro v hv; cases hv⟩) (fun hr _ he => he.countsDown (reach_data hr).1) h

theorem run_freezes {r : List State} (h : Run (system cfg) C r) :
    r.Pairwise fun later earlier => Freezes earlier.shared later.shared := by
  refine Run.pairwise (T := Freezes) ?_ ?_ h
  · intro x y z hxy hyz t task hg hd
    obtain ⟨hy, hcy⟩ := hxy t task hg hd
    obtain ⟨hz, hcz⟩ := hyz t task hy hd
    exact ⟨hz, hcz.trans hcy⟩
  · intro s s' hr hs
    obtain ⟨F, heff⟩ := step_effect hr hs
    exact heff.freezes (reach_data hr).1

theorem countdown_lt {l : List Int} (h : l.IsChain fun a b => b = a - 1) :
    l.Pairwise fun a b => b < a := by
  apply List.isChain_iff_pairwise.mp
  exact h.imp fun a b hab => by omega

/-- At most one barrier crossing, in every run: `begin_parse` wins at most once, the values the
claims return count down one by one, 0 is returned at most once, and a `DONE` task is frozen. -/
theorem barrier_crossed_once {r : List State} (h : Run (system cfg) (fun _ _ _ => True) r)
    (j : String) :
    (∀ s ∈ r, s.shared.trace.countP (seeds j) ≤ 1 ∧
      (barrierReturns j s.shared).IsChain (fun a b => b = a - 1) ∧
      (barrierReturns j s.shared).count 0 ≤ 1) ∧
    r.Pairwise fun later earlier => Freezes earlier.shared later.shared := by
  refine ⟨?_, run_freezes h⟩
  intro s hs
  have hr := h.reach s hs
  have hchain : (barrierReturns j s.shared).IsChain (fun a b => b = a - 1) :=
    List.isChain_reverse.mpr (reach_countsDown hr j).1
  refine ⟨?_, hchain, ?_⟩
  · have hle := seeds_le_wins j s.shared.trace
    rcases reach_wonOnce hr j .parsing with h0 | ⟨h1, _⟩
    · omega
    · omega
  · exact List.nodup_iff_count_le_one.mp ((countdown_lt hchain).imp fun hab => by omega) 0

/-- The barrier of two blocks, with two deliveries of a row that was `DONE` already. -/
theorem barrier_crossed_once_two_blocks :
    ∃ r, Run (system {}) (fun _ _ _ => True) r ∧
      ∃ s ∈ r, .completeTask "j" "j-1" none ∈ s.shared.trace ∧
        (1 : Int) ∈ barrierReturns "j" s.shared ∧ (barrierReturns "j" s.shared).count 0 = 1 ∧
        (barrierReturns "j" s.shared).IsChain fun a b => b = a - 1 := by
  obtain ⟨s, hr, _, _, _, _, hone, hagain, hlast⟩ := twoBlocks_completes
  obtain ⟨past, hrun⟩ := (hr.mono (D := fun _ _ _ => True) (fun _ _ _ _ => trivial)).run
  obtain ⟨hall, _⟩ := barrier_crossed_once hrun "j"
  obtain ⟨_, hchain, hle⟩ := hall s (by simp)
  have hmem : (0 : Int) ∈ barrierReturns "j" s.shared :=
    List.mem_reverse.mpr (List.mem_filterMap.mpr ⟨_, hlast, rfl⟩)
  have hpos := List.count_pos_iff.mpr hmem
  exact ⟨s :: past, hrun, s, by simp, hagain,
    List.mem_reverse.mpr (List.mem_filterMap.mpr ⟨_, hone, rfl⟩), by omega, hchain⟩

end Run

end Pipeline
end AudioEngine
