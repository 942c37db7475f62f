import AudioEngine.Pipeline.Chunks
import AudioEngine.Pipeline.Lock

/-!
# AudioEngine.Pipeline.Consistency

What the stores say about each other, in every reachable state.

The four stores are written in separate steps, so each link is kept by its own argument: rows point
to objects that were written before them and are never deleted (`Sound`), the block of a task is
found again by splitting the manuscript because the cap only drops blocks at the end, and a cache
entry is made by a handler that still knows the block (`CachedBlocks`). The keys a stitcher read
from `DONE` rows keep naming objects while it downloads them (`Agent.ChunksOk`).
-/

namespace AudioEngine
namespace Pipeline

open Relational Interleave

/-- `block` is a block of a submitted manuscript. -/
def Submitted (sh : Shared) (block : String) : Prop :=
  ∃ j m, .posted j m ∈ sh.trace ∧ block ∈ splitBlocks m

/-- A cache entry is about a block of a submitted manuscript. -/
def CachedBlocks (sh : Shared) : Prop :=
  ∀ h key, sh.cache h = some key → ∃ block, Submitted sh block ∧ contentHash block = h

section Blocks

variable {cfg : Settings} {sh sh' : Shared} {t : String} {task : Task}

theorem Submitted.mono {block : String} (h : Submitted sh block) (he : Evolves cfg sh sh') :
    Submitted sh' block := by
  obtain ⟨j, m, hm, hb⟩ := h
  obtain ⟨os, ht⟩ := he.trace
  exact ⟨j, m, by rw [ht]; exact List.mem_append_right os hm, hb⟩

/-- A task row is the row of a block of its job's manuscript. -/
theorem Sound.row_block (hs : Sound cfg sh) (hg : sh.db.tasks.get t = some task) :
    ∃ m block, .posted task.jobId m ∈ sh.trace ∧ (splitBlocks m)[task.blockIndex]? = some block ∧
      task.blockHash = contentHash block := by
  have hid := (Table.get_eq_some.mp hg).2
  have hm : task ∈ sh.db.tasksOf task.jobId := mem_tasksOf.mpr ⟨by rw [hid]; exact hg, rfl⟩
  obtain ⟨⟨text, hl⟩, job, hjob, _⟩ := hs.laid_of_row hm
  obtain ⟨m, hp⟩ := (hs.job _ job hjob).2
  obtain rfl : m = text := Option.some.inj ((hs.getText hp).symm.trans hl.stored)
  obtain ⟨_, block, hb, hh⟩ := hl.block hm
  exact ⟨m, block, hp, blocksOf_getElem? hb, hh⟩

theorem Sound.submitted (hs : Sound cfg sh) {text : String} (h : BlockText sh t text) :
    ∃ block, Submitted sh block ∧ contentHash block = contentHash text := by
  obtain ⟨task, hg, hh⟩ := h
  obtain ⟨m, block, hp, hb, hh'⟩ := hs.row_block hg
  exact ⟨block, ⟨_, m, hp, List.mem_of_getElem? hb⟩, hh'.symm.trans hh⟩

/-- Only `cache_set` makes an entry. -/
theorem Handles.entry {h : String} {a : Agent} {i : Choice} {outs : List Agent}
    (hh : Handles h sh a i sh' outs) : sh'.cache h = sh.cache h ∨
      ∃ c text, a = .copy c ∧ c.stage = .work (.tts (.cacheSet text)) ∧ contentHash text = h := by
  cases hh with
  | apart hs _ => exact .inl hs.cache
  | onwards hs _ => exact .inl hs.cache
  | interrupted hs _ _ _ => exact .inl hs.cache
  | wins _ _ _ _ _ _ hc _ => exact .inl hc
  | calls _ _ hc _ _ => exact .inl hc
  | fills ha hst ht _ _ _ _ => exact .inr ⟨_, _, ha, hst, ht⟩
  | drops _ _ hc _ _ => exact .inl hc

end Blocks

section Run

variable {cfg : Settings} {C : Shared → Agent → Choice → Prop} {s : State}

theorem reach_cachedBlocks (h : Reach (system cfg) C s) : CachedBlocks s.shared := by
  refine Reach.shared ?_ ?_ ?_ h
  · intro k key hk
    cases hk
  · intro s a i sh' outs hr ha _ hcb hact k key hk
    obtain ⟨hs, hA⟩ := reach_data hr
    have hev := (act_data hs (hA a ha) hact).1.evolves hs
    rcases (act_handles k hact).entry with hsame | ⟨c, text, rfl, hst, rfl⟩
    · obtain ⟨block, hb, hh⟩ := hcb k key (by rw [← hsame]; exact hk)
      exact ⟨block, hb.mono hev, hh⟩
    · have hok := (hA _ ha).2.2
      rw [hst] at hok
      obtain ⟨j, t, _, hpc⟩ := hok
      obtain ⟨block, hb, hh⟩ := hs.submitted hpc.1
      exact ⟨block, hb.mono hev, hh⟩
  · intro s x sh' outs hr hcb henv k key hk
    have hev := (env_data (reach_data hr).1 henv .none).1.evolves (reach_data hr).1
    have hold : s.shared.cache k = some key := by
      cases env_moves henv with
      | posted _ => exact hk
      | sweeping _ => exact hk
      | redis hcache => exact hcache k key hk
    obtain ⟨block, hb, hh⟩ := hcb k key hold
    exact ⟨block, hb.mono hev, hh⟩

end Run

/-! ## The chunks of a stitcher -/

/-- Every key names an audio object. -/
def AllStored (sh : Shared) (keys : List String) : Prop :=
  ∀ key ∈ keys, ∃ h, key = ttsKey h ∧ Stored sh h

def Stage.ChunksOk (sh : Shared) : Stage → Prop
  | .work (.stitch (.advance keys)) => AllStored sh keys
  | .work (.stitch (.getParts keys _)) => AllStored sh keys
  | _ => True

def Agent.ChunksOk (sh : Shared) : Agent → Prop
  | .copy c => c.stage.ChunksOk sh
  | _ => True

section Chunks

variable {cfg : Settings} {sh sh' : Shared} {c : Copy}

theorem AllStored.mono {keys : List String} (h : AllStored sh keys) (he : Evolves cfg sh sh') :
    AllStored sh' keys := by
  intro key hk
  obtain ⟨k, rfl, hst⟩ := h key hk
  exact ⟨k, rfl, hst.mono he⟩

theorem Agent.ChunksOk.mono {a : Agent} (h : a.ChunksOk sh) (he : Evolves cfg sh sh') :
    a.ChunksOk sh' := by
  cases a with
  | copy c =>
    simp only [Agent.ChunksOk, Stage.ChunksOk] at h ⊢
    split at h
    · exact h.mono he
    · exact h.mono he
    · trivial
  | create j cb pc => trivial
  | sweep stale => trivial

/-- The keys read from the `DONE` rows. -/
theorem Sound.chunkKeys_stored (hs : Sound cfg sh) (j : String) :
    AllStored sh (chunkKeys sh.db j) := by
  intro key hk
  obtain ⟨t, ht, hd, hkey⟩ := mem_chunkKeys.mp hk
  obtain ⟨hkey', hb⟩ := hs.done _ t (mem_tasksOf.mp ht).1 hd
  rw [hkey] at hkey'
  cases hkey'
  exact ⟨_, rfl, hb⟩

theorem stitch_chunks (hs : Sound cfg sh) {e : Event} {pc pc' : StitchPc}
    {pub : Option (Live × Event)} (h : (Stage.work (.stitch pc)).ChunksOk sh)
    (hstep : stitchStep sh e pc = .goto sh' pc' pub) :
    (Stage.work (.stitch pc')).ChunksOk sh := by
  cases pc with
  | loadChunks =>
    cases hstep
    exact hs.chunkKeys_stored e.jobId
  | advance keys => cases hstep; exact h
  | getParts keys parts =>
    cases keys with
    | nil => cases hstep; trivial
    | cons key keys =>
      simp only [stitchStep] at hstep
      split at hstep
      · cases hstep
      · cases hstep
        exact fun k hk => h k (List.mem_cons_of_mem _ hk)
  | _ =>
    simp only [stitchStep] at hstep
    (repeat' split at hstep) <;> cases hstep <;> trivial

theorem work_chunks (hs : Sound cfg sh) {w w' : Work} {pub : Option (Live × Event)}
    (h : (Agent.copy c).ChunksOk sh) (hst : c.stage = .work w)
    (hstep : w.step cfg sh c.msg.body = .goto sh' w' pub) : (Stage.work w').ChunksOk sh := by
  rw [Agent.ChunksOk, hst] at h
  cases w with
  | parse pc =>
    obtain ⟨pc', _, rfl⟩ := Next.map_eq_goto hstep
    trivial
  | tts pc =>
    obtain ⟨pc', _, rfl⟩ := Next.map_eq_goto hstep
    trivial
  | stitch pc =>
    obtain ⟨pc', hn, rfl⟩ := Next.map_eq_goto hstep
    exact stitch_chunks hs h hn

theorem chunks_emit (pub : Option (Live × Event)) :
    ∀ b ∈ (emit sh' pub).2, b.ChunksOk sh := by
  cases pub with
  | none => simp [emit]
  | some p =>
    simp only [emit]
    rw [List.forall_mem_singleton]
    trivial

theorem chunks_leave (exc : Raised) : ∀ b ∈ c.leave exc, b.ChunksOk sh := by
  cases exc with
  | error p =>
    simp only [Copy.leave]
    rw [List.forall_mem_singleton]
    trivial
  | cancelled => simp [Copy.leave]

theorem moves_chunks (hs : Sound cfg sh) {i : Choice} {outs : List Agent}
    (h : (Agent.copy c).ChunksOk sh) (hm : Moves cfg sh c i sh' outs) :
    ∀ b ∈ outs, b.ChunksOk sh := by
  have one : ∀ {b : Agent}, b.ChunksOk sh → ∀ x ∈ [b], x.ChunksOk sh :=
    fun hb => List.forall_mem_singleton.mpr hb
  cases hm with
  | @deliver l hst _ => exact one (by cases l <;> trivial)
  | due hst _ => exact one h
  | deliverDlq _ _ => exact one trivial
  | duplicate _ => exact List.forall_mem_cons.mpr ⟨h, one h⟩
  | work hst hstep =>
    exact List.forall_mem_cons.mpr ⟨work_chunks hs h hst hstep, chunks_emit _⟩
  | returned _ _ => exact List.forall_mem_cons.mpr ⟨trivial, chunks_emit _⟩
  | raised hst _ =>
    unfold Copy.raiseAt
    split
    · exact one trivial
    · exact chunks_leave _
  | unwound _ _ => exact chunks_leave _
  | routed _ _ => exact List.forall_mem_cons.mpr ⟨trivial, one trivial⟩
  | unrouted _ _ _ _ => simp
  | acked _ => simp
  | dlq _ _ => exact List.forall_mem_cons.mpr ⟨trivial, chunks_emit _⟩
  | dlqReturned _ _ => exact List.forall_mem_cons.mpr ⟨trivial, chunks_emit _⟩
  | dlqAcked _ => simp
  | requeued _ => exact one trivial

theorem reach_chunks {C : Shared → Agent → Choice → Prop} {s : State}
    (h : Reach (system cfg) C s) : ∀ a ∈ s.agents, a.ChunksOk s.shared := by
  refine (Reach.rely (G := fun _ => True) (A := Agent.ChunksOk) (R := Evolves cfg) trivial
    (by simp [system]) ?_ ?_ (fun _ he hb => hb.mono he) h).2
  · intro s a i sh' outs hr ha _ _ hb hact
    obtain ⟨hs, hA⟩ := reach_data hr
    have hev := (act_data hs (hA a ha) hact).1.evolves hs
    refine ⟨trivial, hev, fun b hm => ?_⟩
    rcases act_cases hact with ⟨c, rfl, hmv⟩ | hreq
    · exact (moves_chunks hs hb hmv b hm).mono hev
    · exact request_outs (fun _ _ _ => trivial) (fun _ => trivial) (fun _ => trivial) hreq b hm
  · intro s x sh' outs hr _ henv
    have hs := (reach_data hr).1
    exact ⟨trivial, (env_data hs henv .none).1.evolves hs,
      env_outs (fun _ _ _ => trivial) (fun _ => trivial) henv⟩

end Chunks

/-! ## Cross-store consistency -/

/-- What the stores say about each other. -/
structure Consistent (sh : Shared) : Prop where
  /-- the manuscript of a job row exists and holds the submitted text -/
  manuscript : ∀ j job, sh.db.jobs.get j = some job →
    ∃ m, .posted j m ∈ sh.trace ∧ sh.objects job.manuscriptKey = some m.toUTF8
  /-- a task row is that of a block of the text, under the hash of that block -/
  row : ∀ t task, sh.db.tasks.get t = some task → ∃ m block, .posted task.jobId m ∈ sh.trace ∧
    (splitBlocks m)[task.blockIndex]? = some block ∧ task.blockHash = contentHash block
  /-- a cache entry names the audio object of a block with that hash -/
  entry : ∀ h key, sh.cache h = some key → key = ttsKey h ∧
    ∃ block, Submitted sh block ∧ contentHash block = h ∧ sh.objects key = some (ttsFakeAudio block)
  /-- a `DONE` row names the audio object of its block -/
  done : ∀ t task, sh.db.tasks.get t = some task → task.status = .done →
    task.audioKey = some (ttsKey task.blockHash) ∧
    ∃ m block, .posted task.jobId m ∈ sh.trace ∧ (splitBlocks m)[task.blockIndex]? = some block ∧
      sh.objects (ttsKey task.blockHash) = some (ttsFakeAudio block)

theorem Sound.consistent {cfg : Settings} {sh : Shared} (hs : Sound cfg sh)
    (hc : CachedBlocks sh) : Consistent sh where
  manuscript := by
    intro j job hg
    obtain ⟨hkey, m, hm⟩ := hs.job j job hg
    exact ⟨m, hm, by rw [hkey]; exact hs.posted j m hm⟩
  row := fun t task hg => hs.row_block hg
  entry := by
    intro h key hk
    obtain ⟨rfl, hb⟩ := hs.cached h key hk
    obtain ⟨block, hsub, rfl⟩ := hc h _ hk
    exact ⟨rfl, block, hsub, rfl, by rw [hb, ttsFakeAudio_eq]⟩
  done := by
    intro t task hg hd
    obtain ⟨hkey, hb⟩ := hs.done t task hg hd
    obtain ⟨m, block, hm, hblock, hh⟩ := hs.row_block hg
    refine ⟨hkey, m, block, hm, hblock, ?_⟩
    rw [hb, ttsFakeAudio_eq, hh]

/-- In every reachable state the stores are consistent. Therefore `_load_block_text` finds the block
of its task, `handle_stitch` finds every chunk it downloads, and however `handle_tts` came by its
audio key, it is the key of the task's hash. -/
theorem stores_consistent {cfg : Settings} {s : State}
    (h : Reach (system cfg) (fun _ _ _ => True) s) :
    Consistent s.shared ∧ ∀ c, .copy c ∈ s.agents →
      (∀ i key, c.stage = .work (.tts (.loadText i key)) →
        ∃ text block, s.shared.getText key = some text ∧ (splitBlocks text)[i]? = some block) ∧
      (∀ key keys parts, c.stage = .work (.stitch (.getParts (key :: keys) parts)) →
        ∃ bytes, s.shared.objects key = some bytes) ∧
      ∀ key, c.stage = .work (.tts (.complete key)) →
        ∃ task, s.shared.db.tasks.get c.msg.body.taskId = some task ∧
          key = ttsKey task.blockHash := by
  obtain ⟨hs, hA⟩ := reach_data h
  refine ⟨hs.consistent (reach_cachedBlocks h), ?_⟩
  intro c hc
  have hok := (hA _ hc).2.2
  have hev := (hA _ hc).2.1
  refine ⟨?_, ?_, ?_⟩
  · intro i key hst
    rw [hst] at hok
    obtain ⟨j, t, he, ⟨task, hg, rfl⟩, rfl⟩ := hok
    rw [he] at hev
    obtain ⟨⟨task', hg', hown⟩, _⟩ := hev
    obtain rfl := Option.some.inj (hg.symm.trans hg')
    obtain ⟨m, block, hm, hb, _⟩ := hs.row_block hg
    rw [hown] at hm
    exact ⟨m, block, hs.getText hm, hb⟩
  · intro key keys parts hst
    have hchunks := reach_chunks h _ hc
    rw [Agent.ChunksOk, hst] at hchunks
    obtain ⟨k, rfl, hstored⟩ := hchunks key (by simp)
    exact ⟨_, hstored⟩
  · intro key hst
    rw [hst] at hok
    obtain ⟨j, t, he, task, hg, hkey, _⟩ := hok
    rw [he]
    exact ⟨task, hg, hkey⟩

/-- The hash of the block `B`. -/
def hashB : String := "df7e70e5021544f4834bbee64a9e3789febc4be81470df629cad6ddb03320a5c"

/-- A copy of the message for the second of two blocks, inside `handle_tts`. -/
def secondBlock (pc : TtsPc) : Copy :=
  { queue := .live .tts, msg := publishMessage (.ttsRequested "j" "j-1"), stage := .work (.tts pc) }

/-- A run of `handle_stitch` that has downloaded one chunk and has one to come. -/
def halfStitched : Agent → Bool
  | .copy c =>
    match c.stage with
    | .work (.stitch (.getParts [key] [_])) => decide (key = ttsKey hashB)
    | _ => false
  | _ => false

theorem halfStitched_copy {a : Agent} (h : halfStitched a = true) :
    ∃ c parts, a = .copy c ∧ c.stage = .work (.stitch (.getParts [ttsKey hashB] parts)) := by
  unfold halfStitched at h
  split at h
  · rename_i c
    split at h
    · rename_i key part hst
      exact ⟨c, [part], rfl, by rw [hst, of_decide_eq_true h]⟩
    · cases h
  · cases h

set_option maxRecDepth 4000 in
theorem twoBlocks_busy : ∃ s, Reach (system {}) (fun _ _ _ => True) s ∧
    .copy (secondBlock (.loadText 1 (rawKey "j"))) ∈ s.agents ∧
    .copy (secondBlock (.complete (ttsKey hashB))) ∈ s.agents ∧
    s.agents.any halfStitched = true :=
  System.exists_reach (C := fun _ _ _ => true) (fun _ _ _ _ => trivial) twoBlocksBusy
    (by decide +kernel)

/-- Three copies at the points where a store could let them down. -/
theorem stores_consistent_two_blocks :
    ∃ s, Reach (system {}) (fun _ _ _ => True) s ∧ Consistent s.shared ∧
      (∃ text block, s.shared.getText (rawKey "j") = some text ∧
        (splitBlocks text)[1]? = some block) ∧
      (∃ bytes, s.shared.objects (ttsKey hashB) = some bytes) ∧
      ∃ task, s.shared.db.tasks.get "j-1" = some task ∧ ttsKey hashB = ttsKey task.blockHash := by
  obtain ⟨s, h, hload, hcomplete, hstitch⟩ := twoBlocks_busy
  obtain ⟨hc, hcopies⟩ := stores_consistent h
  obtain ⟨a, ha, hhalf⟩ := List.any_eq_true.mp hstitch
  obtain ⟨c, parts, rfl, hst⟩ := halfStitched_copy hhalf
  exact ⟨s, h, hc, (hcopies _ hload).1 1 _ rfl, (hcopies _ ha).2.1 _ [] _ hst,
    (hcopies _ hcomplete).2.2 _ rfl⟩

end Pipeline
end AudioEngine
