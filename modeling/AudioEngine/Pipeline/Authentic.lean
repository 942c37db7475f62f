import AudioEngine.Pipeline.Asset
import AudioEngine.Pipeline.Stages

/-!
# AudioEngine.Pipeline.Authentic

What an output object is in any run at all, with dead letters, recounts and early barriers.

A stitcher reads the `DONE` rows of its job in order, so what it writes is the audio of some blocks
of the manuscript, in their order: blocks can be missing, but nothing is foreign, repeated or out of
place. It writes before it finalizes, so a `COMPLETED` job has such an object.
-/

namespace AudioEngine
namespace Pipeline

open Relational Interleave

/-- The blocks are some of those of the stored manuscript, in order. -/
def SomeBlocks (cfg : Settings) (sh : Shared) (j : String) (blocks : List String) : Prop :=
  ∃ text, sh.getText (rawKey j) = some text ∧ blocks.Sublist (blocksOf cfg text)

/-- The keys are those of the blocks, and all of them are stored. -/
def KeysOf (sh : Shared) (blocks keys : List String) : Prop :=
  keys = blocks.map (fun b => ttsKey (contentHash b)) ∧ ∀ b ∈ blocks, Stored sh (contentHash b)

/-- What a stitcher holds: the audio of the first of these blocks and the keys of the others. -/
def StitchPc.Authentic (cfg : Settings) (sh : Shared) (j : String) : StitchPc → Prop
  | .advance keys => ∃ blocks, SomeBlocks cfg sh j blocks ∧ KeysOf sh blocks keys
  | .getParts keys parts => ∃ done todo, SomeBlocks cfg sh j (done ++ todo) ∧
    parts = done.map ttsFakeAudio ∧ KeysOf sh todo keys
  | .putFinal parts => ∃ blocks, SomeBlocks cfg sh j blocks ∧ parts = blocks.map ttsFakeAudio
  | .finalize => (sh.objects (outKey j)).isSome = true
  | _ => True

def Stage.Authentic (cfg : Settings) (sh : Shared) (e : Event) : Stage → Prop
  | .work (.stitch pc) => pc.Authentic cfg sh e.jobId
  | _ => True

section Stitch

variable {cfg : Settings} {sh sh' : Shared} {j : String} {blocks keys : List String}

theorem SomeBlocks.mono (h : SomeBlocks cfg sh j blocks) (he : Evolves cfg sh sh') :
    SomeBlocks cfg sh' j blocks := by
  obtain ⟨text, ht, hsub⟩ := h
  exact ⟨text, getText_mono he ht, hsub⟩

theorem KeysOf.mono (h : KeysOf sh blocks keys) (he : Evolves cfg sh sh') :
    KeysOf sh' blocks keys :=
  ⟨h.1, fun b hb => (h.2 b hb).mono he⟩

theorem Stage.Authentic.mono {e : Event} {st : Stage} (h : st.Authentic cfg sh e)
    (he : Onward cfg sh sh') : st.Authentic cfg sh' e := by
  have hev := he.toEvolves
  cases st with
  | work w =>
    cases w with
    | stitch pc =>
      cases pc with
      | advance keys =>
        obtain ⟨blocks, hb, hk⟩ := h
        exact ⟨blocks, hb.mono hev, hk.mono hev⟩
      | getParts keys parts =>
        obtain ⟨done, todo, hb, hp, hk⟩ := h
        exact ⟨done, todo, hb.mono hev, hp, hk.mono hev⟩
      | putFinal parts =>
        obtain ⟨blocks, hb, hp⟩ := h
        exact ⟨blocks, hb.mono hev, hp⟩
      | finalize => exact he.kept _ h
      | _ => trivial
    | _ => trivial
  | _ => trivial

/-- The keys a stitcher reads are those of the blocks whose rows are `DONE`. -/
theorem Sound.chunkKeys_blocks (hs : Sound cfg sh) (hp : Past sh j 0) :
    ∃ blocks, SomeBlocks cfg sh j blocks ∧ KeysOf sh blocks (chunkKeys sh.db j) := by
  obtain ⟨job, hg, _⟩ := hp
  obtain ⟨_, m, hm⟩ := hs.job j job hg
  rcases hs.laid j job hg with ⟨hnil, _⟩ | ⟨⟨text, hl⟩, _⟩
  · -- no rows, no keys
    refine ⟨[], ⟨m, hs.getText hm, List.nil_sublist _⟩, ?_, by simp⟩
    simp [chunkKeys, doneTasks, hnil]
  · have hdone : ∀ t ∈ (sh.db.tasksOf j).filter fun t => t.status = .done,
        t.audioKey = some (ttsKey t.blockHash) ∧ Stored sh t.blockHash := by
      intro t ht
      obtain ⟨hrow, hst⟩ := List.mem_filter.mp ht
      exact hs.done _ t (mem_tasksOf.mp hrow).1 (of_decide_eq_true hst)
    have hsub : (((sh.db.tasksOf j).filter fun t => t.status = .done).map Task.blockHash).Sublist
        ((blocksOf cfg text).map contentHash) := by
      rw [← hl.hashes]
      exact List.filter_sublist.map _
    obtain ⟨blocks, hblocks, heq⟩ := List.sublist_map_iff.mp hsub
    refine ⟨blocks, ⟨text, hl.stored, hblocks⟩, ?_, ?_⟩
    · calc chunkKeys sh.db j
          = ((sh.db.tasksOf j).filter fun t => t.status = .done).map fun t => ttsKey t.blockHash := by
            rw [chunkKeys, hl.doneTasks_eq, ← List.filterMap_eq_map]
            exact List.filterMap_congr fun t ht => (hdone t ht).1
        _ = (((sh.db.tasksOf j).filter fun t => t.status = .done).map Task.blockHash).map ttsKey := by
            rw [List.map_map]
            rfl
        _ = blocks.map fun b => ttsKey (contentHash b) := by
            rw [heq, List.map_map]
            rfl
    · intro b hb
      have hmem : contentHash b ∈
          ((sh.db.tasksOf j).filter fun t => t.status = .done).map Task.blockHash := by
        rw [heq]
        exact List.mem_map_of_mem hb
      obtain ⟨t, ht, hh⟩ := List.mem_map.mp hmem
      rw [← hh]
      exact (hdone t ht).2

theorem stitch_authentic (hs : Sound cfg sh) (he : Past sh j 2) {pc : StitchPc}
    (h : pc.Authentic cfg sh j) :
    (stitchStep sh (.stitchReady j) pc).Upholds cfg sh (fun sh e st => st.Authentic cfg sh e)
      (.stitchReady j) fun pc => .work (.stitch pc) := by
  cases pc with
  | validate => exact fun _ => ⟨trivial, by simp⟩
  | loadJob =>
    simp only [stitchStep]
    split
    · trivial
    · split
      · simp [Next.Upholds]
      · exact fun _ => ⟨trivial, by simp⟩
  | loadChunks => exact fun _ => ⟨hs.chunkKeys_blocks (he.weaken (by omega)), by simp⟩
  | advance keys =>
    obtain ⟨blocks, hb, hk⟩ := h
    exact fun hev => ⟨⟨[], blocks, hb.mono hev.toEvolves, rfl, hk.mono hev.toEvolves⟩, by simp⟩
  | getParts keys parts =>
    obtain ⟨done, todo, hb, rfl, hkeys, hstored⟩ := h
    cases todo with
    | nil =>
      subst hkeys
      rw [List.append_nil] at hb
      exact fun _ => ⟨⟨done, hb, rfl⟩, by simp⟩
    | cons block todo =>
      rw [List.map_cons] at hkeys
      subst hkeys
      have hobj : sh.objects (ttsKey (contentHash block)) = some (audioOf (contentHash block)) :=
        hstored block (by simp)
      simp only [stitchStep, hobj]
      refine fun _ => ⟨⟨done ++ [block], todo, ?_, ?_, rfl, ?_⟩, by simp⟩
      · rw [List.append_assoc]
        exact hb
      · rw [List.map_append, List.map_singleton, ttsFakeAudio_eq]
      · exact fun b hb => hstored b (List.mem_cons_of_mem _ hb)
  | putFinal parts =>
    refine fun _ => ⟨?_, by simp⟩
    show ((sh.putObject (outKey j) (joinBytes parts)).objects (outKey j)).isSome = true
    rw [putObject_self]
    rfl
  | finalize =>
    simp only [stitchStep]
    split
    · exact fun _ => ⟨trivial, by simp⟩
    · simp [Next.Upholds]
  | notify => simp [stitchStep, Next.Upholds]

theorem authentic_upheld (cfg : Settings) :
    Upheld cfg fun sh e st => st.Authentic cfg sh e where
  stable := fun he h => h.mono he
  submitted := fun _ _ => trivial
  rests := by
    intro sh e st st' _ hst
    cases st' <;> trivial
  starts := by
    intro sh e _
    cases e <;> trivial
  resolves := fun _ => trivial
  works := by
    intro sh c w hs hc hst h
    have hready : ∀ {sh' : Shared} {pub : Option (Live × Event)} (l : Live) (e' : Event),
        pub = some (l, e') → Stage.ready.Authentic cfg sh' e' := fun _ _ _ => trivial
    cases w with
    | parse pc =>
      refine Next.Upholds.map ?_
      cases parseStep cfg sh c.msg.body pc with
      | goto sh' pc' pub => exact fun _ => ⟨trivial, hready⟩
      | done sh' pub => exact fun _ => hready
      | raise => trivial
    | tts pc =>
      refine Next.Upholds.map ?_
      cases ttsStep sh c.msg.body pc with
      | goto sh' pc' pub => exact fun _ => ⟨trivial, hready⟩
      | done sh' pub => exact fun _ => hready
      | raise => trivial
    | stitch pc =>
      have hok := hc.2.2
      have he := hc.2.1
      rw [hst] at hok
      obtain ⟨j, hj, _⟩ := hok
      rw [hj] at he h ⊢
      exact (stitch_authentic hs he h).map
  deadLetters := by
    intro sh c pc _ _ _ _
    cases dlqStep sh c.msg.body pc with
    | goto sh' pc' pub => exact fun _ => ⟨trivial, fun _ _ _ => trivial⟩
    | done sh' pub => exact fun _ _ _ _ => trivial
    | raise => trivial

end Stitch

/-! ## The stores -/

/-- Every output object is the audio of some blocks of its manuscript, in order, and a `COMPLETED`
job has one. -/
structure AuthenticOuts (cfg : Settings) (sh : Shared) : Prop where
  out : ∀ j bytes, sh.objects (outKey j) = some bytes →
    ∃ blocks, SomeBlocks cfg sh j blocks ∧ bytes = joinBytes (blocks.map ttsFakeAudio)
  completed : ∀ j, sh.db.status j = some .completed → (sh.objects (outKey j)).isSome = true

section Run

variable {cfg : Settings} {F : Licence} {sh sh' : Shared} {C : Shared → Agent → Choice → Prop}
  {s : State}

theorem Effect.completed_out (h : Effect cfg F sh sh') (hs : Sound cfg sh)
    (hfin : ∀ j, F.finalizes j → (sh.objects (outKey j)).isSome = true)
    (hc : ∀ j, sh.db.status j = some .completed → (sh.objects (outKey j)).isSome = true) :
    ∀ j, sh'.db.status j = some .completed → (sh'.objects (outKey j)).isSome = true := by
  intro j hst
  refine (h.onward hs).kept _ ?_
  obtain ⟨job', hg, hcomp⟩ := Option.map_eq_some_iff.mp hst
  rcases (h.row hs hg).completed hcomp with hf | ⟨job, hold, hcomp'⟩
  · exact hfin j hf
  · exact hc j (by rw [Db.status, hold, Option.map_some, hcomp'])

theorem reach_authentic (h : Reach (system cfg) C s) : AuthenticOuts cfg s.shared := by
  refine Reach.shared (G := AuthenticOuts cfg) ?_ ?_ ?_ h
  · constructor <;> intros <;> contradiction
  · intro s a i sh' outs hr ha _ hauth hact
    obtain ⟨hs, hA⟩ := reach_data hr
    have heff := (act_data hs (hA a ha) hact).1
    have hstage := reach_asserts (authentic_upheld cfg) hr a ha
    refine ⟨?_, heff.completed_out hs ?_ hauth.completed⟩
    · intro j bytes hb
      rcases act_out hact j with hsame | ⟨parts, ⟨c, rfl, hj, hst⟩, hput⟩
      · obtain ⟨blocks, hblocks, hbytes⟩ := hauth.out j bytes (hsame ▸ hb)
        exact ⟨blocks, hblocks.mono (heff.evolves hs), hbytes⟩
      · rw [Agent.Asserts, hst, Stage.Authentic, hj] at hstage
        obtain ⟨blocks, hblocks, rfl⟩ := hstage
        exact ⟨blocks, hblocks.mono (heff.evolves hs), Option.some.inj (hb.symm.trans hput)⟩
    · rintro j ⟨c, rfl, hj, hst⟩
      rw [Agent.Asserts, hst, Stage.Authentic, hj] at hstage
      exact hstage
  · intro s x sh' outs hr hauth henv
    have hs := (reach_data hr).1
    have heff := (env_data hs henv .none).1
    refine ⟨?_, heff.completed_out hs (fun _ hf => hf.elim) hauth.completed⟩
    intro j bytes hb
    rw [env_out henv j] at hb
    obtain ⟨blocks, hblocks, hbytes⟩ := hauth.out j bytes hb
    exact ⟨blocks, hblocks.mono (heff.evolves hs), hbytes⟩

end Run

/-- In every run: the bytes of an output object are those of the audio of some of the first
`MAX_BLOCKS` blocks of the manuscript of its job, in their order, and nothing else; and the final key
of a `COMPLETED` job names such an object. -/
theorem output_authentic {cfg : Settings} {s : State}
    (h : Reach (system cfg) (fun _ _ _ => True) s) :
    (∀ j bytes, s.shared.objects (outKey j) = some bytes →
      ∃ m, s.shared.getText (rawKey j) = some m ∧
        ∃ blocks, List.Sublist blocks (sliceTo cfg.maxBlocks (splitBlocks m)) ∧
        bytes.data.toList = blocks.flatMap fun b => (ttsFakeAudio b).data.toList) ∧
    ∀ j job, s.shared.db.jobs.get j = some job → job.status = .completed →
      ∃ key bytes, job.finalKey = some key ∧ key = outKey j ∧ s.shared.objects key = some bytes := by
  have hauth := reach_authentic h
  refine ⟨?_, ?_⟩
  · intro j bytes hb
    obtain ⟨blocks, ⟨text, ht, hsub⟩, rfl⟩ := hauth.out j bytes hb
    rw [blocksOf, capBlocks_eq] at hsub
    exact ⟨text, ht, blocks, hsub, by rw [joinBytes_toList, List.flatMap_map]⟩
  · intro j job hg hc
    have hkey := reach_finalKeys h j job hg
    rw [if_pos hc] at hkey
    have hsome := hauth.completed j (by rw [Db.status, hg, Option.map_some, hc])
    obtain ⟨bytes, hb⟩ := Option.isSome_iff_exists.mp hsome
    exact ⟨outKey j, bytes, hkey, rfl, hb⟩

/-- A job that is `COMPLETED` without its first block. -/
theorem output_authentic_incomplete :
    ∃ s bytes, Reach (system {}) (fun _ _ _ => True) s ∧
      (s.shared.db.tasksOf "j").map Task.status = [.pending, .done] ∧
      s.shared.objects (outKey "j") = some bytes ∧
      String.fromUTF8? bytes =
        some "FAKE_AUDIO:df7e70e5021544f4834bbee64a9e3789febc4be81470df629cad6ddb03320a5c" ∧
      ∃ m, s.shared.getText (rawKey "j") = some m ∧
        ∃ blocks, List.Sublist blocks (sliceTo ({} : Settings).maxBlocks (splitBlocks m)) ∧
          bytes.data.toList = blocks.flatMap fun b => (ttsFakeAudio b).data.toList := by
  obtain ⟨s, h, hst, htasks, htext, _⟩ := failedThenDone_completes
  obtain ⟨job, hg, hc⟩ := Option.map_eq_some_iff.mp hst
  obtain ⟨hout, hcomp⟩ := output_authentic h
  obtain ⟨_, bytes, _, rfl, hb⟩ := hcomp "j" job hg hc
  rw [Shared.getText, hb] at htext
  exact ⟨s, bytes, h, htasks, hb, htext, hout "j" bytes hb⟩

end Pipeline
end AudioEngine
