import AudioEngine.Pipeline.Delivery
import AudioEngine.Pipeline.Whole

/-!
# AudioEngine.Pipeline.Asset

The asset of a completed job, in every run in which no message reaches the dead-letter queue.

Without dead letters nothing is ever `FAILED`, so no task is recounted and the results of the fan-in
apply: when the job completes, all its tasks are `DONE`. Their rows are the blocks of the manuscript
in order, and a `DONE` row names the audio object of its block's hash, whoever synthesized it.
-/

namespace AudioEngine
namespace Pipeline

open Relational Interleave

/-! ## Without dead letters nothing fails -/

/-- No job and no task is `FAILED`. -/
structure NoFailed (sh : Shared) : Prop where
  job : ∀ j job, sh.db.jobs.get j = some job → job.status ≠ .failed
  task : ∀ t task, sh.db.tasks.get t = some task → task.status ≠ .failed

section NoFailed

variable {cfg : Settings} {F : Licence} {sh sh' : Shared} {s : State}

theorem claimed_task_ne {db' : Db} {j t : String} {task task' : Task} {job : Job} {st : TaskStatus}
    (hc : Claimed sh.db db' j t task task' job) (ht : task'.status ≠ st)
    (h : ∀ t task, sh.db.tasks.get t = some task → task.status ≠ st) :
    ∀ t task, db'.tasks.get t = some task → task.status ≠ st := by
  intro k x hx
  rw [hc.tasks] at hx
  split at hx
  · cases hx
    exact ht
  · exact h k x hx

theorem Effect.noFailed (h : Effect cfg F sh sh') (hs : Sound cfg sh) (hF : ¬ F.deadLetter)
    (hn : NoFailed sh) : NoFailed sh' where
  job := by
    intro j job' hj hf
    have hrow := h.row hs hj
    cases hold : sh.db.jobs.get j with
    | none =>
      rw [hold] at hrow
      cases hrow with
      | fresh hst _ => rw [hf] at hst; cases hst
    | some job =>
      rw [hold] at hrow
      cases hrow with
      | stays hst _ => exact hn.job j job hold (hst.symm.trans hf)
      | climbs _ _ _ hd => exact hF (hd hf)
      | completes _ _ hst _ => rw [hf] at hst; cases hst
  task := by
    cases h with
    | stores h => rw [h.db]; exact hn.task
    | insertJob _ _ => exact hn.task
    | seed hjob ht hseed _ =>
      intro t task htask
      rcases (hs.seed_tasks hjob ht hseed).mp htask with hold | ⟨_, hm, _⟩
      · exact hn.task t task hold
      · obtain ⟨_, _, _, rfl⟩ := mem_taskRows.mp hm
        simp
    | advance _ h =>
      intro t task htask
      rw [Shared.log, cas_tasks h] at htask
      exact hn.task t task htask
    | finalize h _ =>
      intro t task htask
      rw [Shared.log, cas_tasks h] at htask
      exact hn.task t task htask
    | complete _ _ _ hc _ =>
      rcases completeTask_cases hc with ⟨_, rfl, _⟩ | ⟨_, _, _, _, hcl⟩
      · exact hn.task
      · exact claimed_task_ne hcl (by simp) hn.task
    | fail _ _ _ hd => exact absurd hd hF

theorem reach_noFailed (h : Reach (system cfg) (fun _ a _ => ¬ DeadLetters a) s) :
    NoFailed s.shared := by
  refine reach_effects (K := fun F => ¬ F.deadLetter) (fun _ _ _ hc => hc) id ?_ ?_ h
  · constructor
    · intro j job hj
      cases hj
    · intro t task ht
      cases ht
  · intro F s sh' hr hF he hn
    exact he.noFailed (reach_data hr).1 hF hn

theorem NoFailed.not_recounts (h : NoFailed sh) {a : Agent} {i : Choice} : ¬ Recounts sh a i := by
  rintro ⟨c, key, task, _, _, _, hg, hf⟩
  exact h.task _ task hg hf

/-- Without dead letters nothing fails and no task is recounted. -/
theorem reach_no_recount {C : Shared → Agent → Choice → Prop}
    (hC : ∀ sh a i, C sh a i → a.deadLettered cfg i = false) (h : Reach (system cfg) C s) :
    NoFailed s.shared ∧ Reach (system cfg) (fun sh a i => ¬ Recounts sh a i) s := by
  have off : ∀ {s : State}, Reach (system cfg) C s → Reach (system cfg) (fun _ a _ => ¬ DeadLetters a) s :=
    fun h => h.strengthen fun s a i hr ha _ => offDlq_not_deadLetters (reach_offDlq hC hr a ha)
  exact ⟨reach_noFailed (off h),
    h.strengthen fun s a i hr _ _ => (reach_noFailed (off hr)).not_recounts⟩

end NoFailed

/-! ## The asset -/

section Asset

variable {cfg : Settings} {sh : Shared} {j text : String}

/-- The hashes of the rows are those of the blocks, in order. -/
theorem LaidOut.hashes (h : LaidOut cfg sh j text) :
    (sh.db.tasksOf j).map Task.blockHash = (blocksOf cfg text).map contentHash := by
  have hrows := congrArg (List.map fun o => o.2.2.2) h.rows
  rw [List.map_map, List.map_map, taskRows_map] at hrows
  have hhash : (sh.db.tasksOf j).map Task.blockHash =
      (blocksOf cfg text).zipIdx.map (contentHash ∘ Prod.fst) := hrows
  rw [hhash, ← List.map_map, List.zipIdx_map_fst]

/-- When all tasks are `DONE`, the chunks are the audio of the blocks. -/
theorem Sound.chunks (hs : Sound cfg sh) (hl : LaidOut cfg sh j text)
    (hd : ∀ t ∈ sh.db.tasksOf j, t.status = .done) :
    (chunkKeys sh.db j).map sh.objects = ((blocksOf cfg text).map ttsFakeAudio).map some := by
  have hall : doneTasks sh.db j = sh.db.tasksOf j := by
    rw [hl.doneTasks_eq, List.filter_eq_self]
    intro t ht
    exact decide_eq_true (hd t ht)
  have hkeys : chunkKeys sh.db j = (sh.db.tasksOf j).map fun t => ttsKey t.blockHash := by
    rw [chunkKeys, hall, ← List.filterMap_eq_map]
    refine List.filterMap_congr ?_
    intro t ht
    exact (hs.done _ t (mem_tasksOf.mp ht).1 (hd t ht)).1
  calc (chunkKeys sh.db j).map sh.objects
      = (sh.db.tasksOf j).map fun t => some (audioOf t.blockHash) := by
        rw [hkeys, List.map_map]
        refine List.map_congr_left ?_
        intro t ht
        exact (hs.done _ t (mem_tasksOf.mp ht).1 (hd t ht)).2
    _ = ((sh.db.tasksOf j).map Task.blockHash).map fun h => some (audioOf h) := by
        rw [List.map_map]
        rfl
    _ = ((blocksOf cfg text).map ttsFakeAudio).map some := by
        rw [hl.hashes, List.map_map, List.map_map]
        refine List.map_congr_left ?_
        intro b _
        exact congrArg some (ttsFakeAudio_eq b).symm

end Asset

/-- In every run without dead letters: the bytes of the asset of a completed job are those of the
audio of the blocks of its manuscript, up to the cap, in order. -/
theorem completed_asset {cfg : Settings} {s : State} {j : String} {job : Job}
    (h : Reach (system cfg) (fun _ a i => a.deadLettered cfg i = false) s)
    (hg : s.shared.db.jobs.get j = some job) (hc : job.status = .completed) :
    (∃ m, .posted j m ∈ s.shared.trace) ∧
    ∀ m, .posted j m ∈ s.shared.trace → ∃ key bytes, job.finalKey = some key ∧
      s.shared.objects key = some bytes ∧
      bytes.data.toList =
        (sliceTo cfg.maxBlocks (splitBlocks m)).flatMap fun b => (ttsFakeAudio b).data.toList := by
  have hs := (reach_data h).1
  obtain ⟨hnf, hr⟩ := reach_no_recount (fun _ _ _ hc => hc) h
  have hst : s.shared.db.status j = some .completed := by rw [Db.status, hg, Option.map_some, hc]
  refine ⟨(hs.job j job hg).2, ?_⟩
  intro m hm
  have hkey := reach_finalKeys h j job hg
  rw [if_pos hc] at hkey
  obtain ⟨h0, parts, hparts, hout⟩ := (reach_whole (fun _ _ _ hc => hc) hr).1 j hst
  obtain ⟨text, hl⟩ := hs.laid_of_completed hst
  obtain rfl : text = m := Option.some.inj (hl.stored.symm.trans (hs.getText hm))
  have hd : ∀ t ∈ s.shared.db.tasksOf j, t.status = .done := by
    intro t ht
    obtain ⟨htg, hown⟩ := mem_tasksOf.mp ht
    have hp := not_pending_of_outstanding h0 htg hown
    cases hts : t.status with
    | pending => exact absurd hts hp
    | done => rfl
    | failed => exact absurd hts (hnf.task _ t htg)
  rw [hs.chunks hl hd] at hparts
  refine ⟨outKey j, joinBytes parts, hkey, hout, ?_⟩
  rw [joinBytes_toList, ← List.map_injective_iff.mpr (Option.some_injective _) hparts, blocksOf,
    capBlocks_eq, List.flatMap_map]

theorem calm_not_deadLettered {cfg : Settings} {sh : Shared} {a : Agent} {i : Choice}
    (h : calm sh a i = true) : a.deadLettered cfg i = false := by
  cases a with
  | copy c =>
    simp only [Agent.deadLettered]
    split
    · rename_i hst
      simp [calm, hst] at h
    · rfl
  | create j cb pc => rfl
  | sweep stale => rfl

theorem completed_asset_two_blocks :
    ∃ s key bytes, Reach (system {}) (fun _ a i => a.deadLettered {} i = false) s ∧
      s.shared.db.status "j" = some .completed ∧
      s.shared.objects key = some bytes ∧ bytes.data.toList = twoBlocksAudio.toUTF8.data.toList := by
  obtain ⟨s, hr, _, hst, hposted, _⟩ := twoBlocks_completes
  have h := hr.mono (D := fun _ a i => a.deadLettered {} i = false) fun _ _ _ hc => calm_not_deadLettered hc
  obtain ⟨job, hg, hc⟩ := Option.map_eq_some_iff.mp hst
  obtain ⟨key, bytes, _, hkey, hbytes⟩ := (completed_asset h hg hc).2 _ hposted
  have hblocks : ((sliceTo ({} : Settings).maxBlocks (splitBlocks "A\n\nB")).flatMap fun b =>
      (ttsFakeAudio b).data.toList) = twoBlocksAudio.toUTF8.data.toList := by decide +kernel
  exact ⟨s, key, bytes, h, hst, hkey, hbytes.trans hblocks⟩

end Pipeline
end AudioEngine
