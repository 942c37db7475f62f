import AudioEngine.Pipeline.Assertions

/-!
# AudioEngine.Pipeline.Posts

What each handler establishes, one atomic step at a time: from the assertion at a program counter, a
step is an `Effect`, an event it publishes is in order, and the assertion at the next program
counter holds.
-/

namespace AudioEngine
namespace Pipeline

open Relational Interleave

def PubOk (sh : Shared) (pub : Option (Live × Event)) : Prop :=
  ∀ l e, pub = some (l, e) → l = home e ∧ EventOk sh e

/-- What a step of a handler has to establish: it is an effect, an event it publishes is in order,
and the assertion of its next point holds. -/
def Next.Post {P : Type} (cfg : Settings) (F : Licence) (sh : Shared) (A : Shared → P → Prop) :
    Next P → Prop
  | .goto sh' pc pub =>
    Effect cfg F sh (emit sh' pub).1 ∧ PubOk (emit sh' pub).1 pub ∧ A (emit sh' pub).1 pc
  | .done sh' pub => Effect cfg F sh (emit sh' pub).1 ∧ PubOk (emit sh' pub).1 pub
  | .raise => True

section Handlers

variable {cfg : Settings} {F : Licence} {sh : Shared} {j t : String}

theorem Effect.idle (cfg : Settings) (F : Licence) (sh : Shared) : Effect cfg F sh sh :=
  .stores (.note [] (by simp))

theorem Effect.note (os : List Obs) (h : ∀ o ∈ os, o.isNote = true) :
    Effect cfg F sh { sh with trace := os ++ sh.trace } :=
  .stores (.note os h)

theorem PubOk.none (sh : Shared) : PubOk sh none := by
  intro l e h; cases h

/-- A step that only goes on. -/
theorem Next.Post.move {P : Type} {A : Shared → P → Prop} {pc : P} (h : A sh pc) :
    (Next.goto sh pc none).Post cfg F sh A :=
  ⟨.idle cfg F sh, .none sh, h⟩

/-- After the compare-and-set into `GENERATING` or `STITCHING` the job is at least there. -/
theorem advance_past {st : JobStatus} {db' : Db} {won : Bool}
    (hst : st = .generating ∨ st = .stitching) (hp : Past sh j (st.rank - 1))
    (h : advanceStatus sh.db j st = (db', won)) : Past { sh with db := db' } j st.rank := by
  obtain ⟨job, hg, hn⟩ := hp
  rcases casJob_cases h with ⟨_, rfl, hno⟩ | ⟨_, _, job', hg', _, hget⟩
  · refine ⟨job, hg, ?_⟩
    have hlost := hno job hg
    rw [JobStatus.mem_expectedFor] at hlost
    rcases hst with rfl | rfl
    · rw [JobStatus.canTransition_generating] at hlost
      revert hn hlost
      cases job.status <;> simp [JobStatus.rank]
    · rw [JobStatus.canTransition_stitching] at hlost
      revert hn hlost
      cases job.status <;> simp [JobStatus.rank]
  · exact ⟨{ job' with status := st }, by rw [hget, if_pos rfl], Nat.le_refl _⟩

theorem Sound.seed_past {job : Job} {text : String} {db' : Db} {won : Bool} (hs : Sound cfg sh)
    (hjob : sh.db.jobs.get j = some job) (htext : sh.getText (rawKey j) = some text)
    (h : seedTasks sh.db j (blocksOf cfg text) = .ok (db', won)) :
    Past { sh with db := db' } j 1 := by
  rcases hs.seed_cases hjob htext h with
    ⟨_, _, ⟨_, _, hget⟩ | ⟨_, hf, hjobs⟩⟩ | ⟨_, rfl, hne, _⟩
  · exact ⟨_, by rw [hget, if_pos rfl], Nat.le_refl _⟩
  · exact ⟨job, by rw [hjobs]; exact hjob, by rw [hf]; decide⟩
  · refine ⟨job, hjob, ?_⟩
    revert hne
    cases job.status <;> simp [JobStatus.rank]

/-- The event for a block of a job that is laid out names a row. -/
theorem LaidIn.requested {n i : Nat} (hl : LaidIn cfg sh j n) (hi : i < n) :
    ∃ task, sh.db.tasks.get (taskIdOf j i) = some task ∧ task.jobId = j := by
  obtain ⟨text, hl, rfl⟩ := hl
  obtain ⟨task, htask, _, hid⟩ := hl.row hi
  obtain ⟨hg, hj⟩ := mem_tasksOf.mp htask
  exact ⟨task, by rw [← hid]; exact hg, hj⟩

theorem parse_post (hs : Sound cfg sh) (he : Past sh j 0) {pc : ParsePc} (h : ParseOk cfg sh j pc)
    (hF : ∀ blocks, pc = .seed blocks → blocks ≠ [] → sh.db.status j = some .failed →
      sh.db.tasksOf j = [] → F.orphan)
    (hseeds : ∀ blocks, pc = .seed blocks → F.seeds j) (hworks : F.works j) :
    (parseStep cfg sh (.jobCreated j) pc).Post cfg F sh fun sh' pc' => ParseOk cfg sh' j pc' := by
  obtain ⟨job, hjob, _⟩ := he
  cases pc with
  | validate => exact .move trivial
  | loadJob =>
    simp only [parseStep, Event.jobId_jobCreated, hjob]
    exact .move (hs.job j job hjob).1
  | loadText key =>
    simp only [parseStep]
    split
    · trivial
    · rename_i text ht
      exact .move (by rw [ParseOk, ← ht, h])
  | simulate text =>
    simp only [parseStep]
    split
    · trivial
    · rename_i blocks hb
      exact .move ⟨text, h, by rw [blocksOf, simulateParse_ok hb]⟩
  | seed blocks =>
    obtain ⟨text, ht, rfl⟩ := h
    simp only [parseStep, Event.jobId_jobCreated]
    split
    · trivial
    · rename_i db won hexec
      have hseed := (executeSeed_eq_ok.mp hexec).2
      refine ⟨.seed hjob ht hseed ?_ (hseeds _ rfl), .none _, ?_⟩
      · intro hf hnil hne
        exact hF _ rfl hne (by rw [Db.status, hjob, Option.map_some, hf]) hnil
      · have hl := hs.seed_laidOut hjob ht hseed
        exact ⟨⟨text, ⟨hl.stored, hl.rows⟩, rfl⟩, hs.seed_past hjob ht hseed⟩
  | advance n =>
    obtain ⟨hl, hp⟩ := h
    have hadv : advanceStatus sh.db j .generating = advanceStatus sh.db j .generating := rfl
    have hev := (cas_evolves hadv fun _ => ⟨rfl, rfl⟩ : Evolves cfg sh _)
    have hp2 := advance_past (.inl rfl) hp hadv
    have hl2 := hl.mono (hev.log (.advanceStatus j .generating (advanceStatus sh.db j .generating).2))
    refine ⟨.advance (.inl rfl) hadv fun _ => hworks, .none _, ?_⟩
    show ParseOk cfg _ j (if n = 0 then _ else _)
    split
    · rename_i hn
      subst hn
      exact ⟨hl2, hp2⟩
    · exact ⟨hl2, by omega, hp2⟩
  | publishStitch =>
    refine ⟨Effect.note [_, _] (by simp [Obs.isNote]), ?_⟩
    intro l e hle
    cases hle
    exact ⟨rfl, h.2⟩
  | publishTts n i =>
    obtain ⟨hl, hi, hp⟩ := h
    have hrow := hl.requested hi
    simp only [parseStep]
    split
    · rename_i hlt
      refine ⟨Effect.note [_] (by simp [Obs.isNote]), ?_, ?_⟩
      · intro l e hle
        cases hle
        exact ⟨rfl, hrow, hp⟩
      · obtain ⟨text, hl, hn⟩ := hl
        exact ⟨⟨text, ⟨hl.stored, hl.rows⟩, hn⟩, hlt, hp⟩
    · refine ⟨Effect.note [_, _] (by simp [Obs.isNote]), ?_⟩
      intro l e hle
      cases hle
      exact ⟨rfl, hrow, hp⟩

/-- The text `_load_block_text` returns has the task's hash. -/
theorem Sound.block_text (hs : Sound cfg sh) {task : Task} (hg : sh.db.tasks.get t = some task)
    (hj : task.jobId = j) {text block : String} (ht : sh.getText (rawKey j) = some text)
    (hb : (splitBlocks text)[task.blockIndex]? = some block) : task.blockHash = contentHash block := by
  have hid := (Table.get_eq_some.mp hg).2
  have hm : task ∈ sh.db.tasksOf j := mem_tasksOf.mpr ⟨by rw [hid]; exact hg, hj⟩
  obtain ⟨⟨text', hl⟩, _⟩ := hs.laid_of_row hm
  obtain rfl : text' = text := Option.some.inj (hl.stored.symm.trans ht)
  obtain ⟨_, block', hb', hh⟩ := hl.block hm
  rw [blocksOf_getElem? hb'] at hb
  cases hb
  exact hh

/-- A cached key names the stored audio of the block. -/
theorem Sound.cached_key (hs : Sound cfg sh) {text key : String} (hb : BlockText sh t text)
    (hc : sh.cache (contentHash text) = some key) : TtsOk sh j t (.complete key) := by
  obtain ⟨x, hx, hh⟩ := hb
  obtain ⟨hk, ho⟩ := hs.cached _ _ hc
  rw [← hh] at hk ho
  exact ⟨x, hx, hk, by rw [Stored, ← hk]; exact ho⟩

/-- The cache entry that `_synthesize` writes for audio it has stored. -/
theorem Sound.cache_set (hs : Sound cfg sh) {h : String}
    (hstored : sh.objects (ttsKey h) = some (audioOf h)) :
    ∀ k v, Function.update sh.cache h (some (ttsKey h)) k = some v →
      v = ttsKey k ∧ sh.objects v = some (audioOf k) := by
  intro k v hv
  by_cases hk : k = h
  · subst hk
    rw [Function.update_self] at hv
    cases hv
    exact ⟨rfl, hstored⟩
  · rw [Function.update_of_ne hk] at hv
    exact hs.cached k v hv

theorem tts_post (hs : Sound cfg sh) (he : EventOk sh (.ttsRequested j t)) {pc : TtsPc}
    (h : TtsOk sh j t pc)
    (hF : ∀ key task, pc = .complete key → sh.db.tasks.get t = some task → task.status = .failed →
      F.recount) (hclaims : ∀ key, pc = .complete key → F.claims j) :
    (ttsStep sh (.ttsRequested j t) pc).Post cfg F sh fun sh' pc' => TtsOk sh' j t pc' := by
  obtain ⟨⟨task, htask, howner⟩, job, hjob, _⟩ := he
  cases pc with
  | validate => exact .move trivial
  | loadTask =>
    simp only [ttsStep, Event.taskId_ttsRequested, htask]
    exact .move ⟨task, htask, rfl⟩
  | loadJob i =>
    simp only [ttsStep, Event.jobId_ttsRequested, hjob]
    exact .move ⟨h, (hs.job j job hjob).1⟩
  | loadText i key =>
    obtain ⟨⟨task', htask', hi⟩, rfl⟩ := h
    obtain rfl := Option.some.inj (htask.symm.trans htask')
    subst hi
    simp only [ttsStep]
    split
    · trivial
    · rename_i text ht
      split
      · trivial
      · rename_i block hb
        exact .move ⟨task, htask, hs.block_text htask howner ht hb⟩
  | cacheGet text =>
    simp only [ttsStep]
    split
    · rename_i cached hc
      exact .move (hs.cached_key h hc)
    · exact .move h
  | acquireInflight text =>
    simp only [ttsStep]
    split
    · exact .move h
    · exact ⟨.stores (.redis _ _ hs.cached), .none _, h⟩
  | enterSlot text => exact .move h
  | putAudio text =>
    refine ⟨.stores (.putAudio (contentHash text)), .none _, h, ?_⟩
    exact putObject_self _ _ _
  | leaveSlot text => exact .move h
  | cacheSet text => exact ⟨.stores (.redis _ sh.inflight (hs.cache_set h.2)), .none _, h⟩
  | releaseInflight text =>
    obtain ⟨⟨x, hx, hh⟩, ho⟩ := h
    refine ⟨.stores (.redis sh.cache _ hs.cached), .none _, x, hx, ?_, ?_⟩
    · rw [hh]
    · rw [hh]; exact ho
  | waitForCache text n =>
    cases n with
    | zero => trivial
    | succ n =>
      simp only [ttsStep]
      split
      · rename_i url hc
        exact .move (hs.cached_key h hc)
      · exact .move h
  | complete key =>
    obtain ⟨task', htask', rfl, ho⟩ := h
    obtain rfl := Option.some.inj (htask.symm.trans htask')
    simp only [ttsStep, Event.jobId_ttsRequested, Event.taskId_ttsRequested]
    split
    · trivial
    · rename_i db r hc
      have heff : Effect cfg F sh ({ sh with db := db }.log (.completeTask j t r)) :=
        .complete htask howner ho hc (fun hf => hF _ _ rfl htask hf) (hclaims _ rfl)
      have hdone := completeTask_done hc htask
      split
      · exact ⟨heff, .none _, hdone⟩
      · split
        · exact ⟨heff, .none _, hdone⟩
        · exact ⟨heff, .none _⟩
  | reread =>
    simp only [ttsStep, Event.jobId_ttsRequested, hjob]
    split
    · exact .move h
    · exact ⟨.idle cfg F sh, .none sh⟩
  | publish =>
    refine ⟨Effect.note [_] (by simp [Obs.isNote]), ?_⟩
    intro l e hle
    cases hle
    exact ⟨rfl, job, hjob, by assumption⟩

theorem finalize_won {db db' : Db} {key : String} (h : finalizeJob db j key = (db', true)) :
    ∃ job, db'.jobs.get j = some job ∧ job.status = .completed := by
  rcases casJob_cases h with ⟨hf, _⟩ | ⟨_, _, job, _, _, hget⟩
  · cases hf
  · exact ⟨_, by rw [hget, if_pos rfl], rfl⟩

theorem stitch_post (he : Past sh j 2) {pc : StitchPc} (h : StitchOk sh j pc)
    (hF : pc = .finalize → F.finalizes j) (hworks : F.works j) :
    (stitchStep sh (.stitchReady j) pc).Post cfg F sh fun sh' pc' => StitchOk sh' j pc' := by
  have ⟨job, hjob, _⟩ := he
  cases pc with
  | validate => exact .move trivial
  | loadJob =>
    simp only [stitchStep, Event.jobId_stitchReady, hjob]
    split
    · exact ⟨.idle cfg F sh, .none sh⟩
    · exact .move trivial
  | loadChunks => exact .move trivial
  | advance keys =>
    have hadv : advanceStatus sh.db j .stitching = advanceStatus sh.db j .stitching := rfl
    exact ⟨.advance (.inr (.inl rfl)) hadv fun _ => hworks, .none _, advance_past (.inr rfl) he hadv⟩
  | getParts keys parts =>
    cases keys with
    | nil => exact .move h
    | cons key keys =>
      simp only [stitchStep]
      split
      · trivial
      · exact .move h
  | putFinal parts => exact ⟨.stores (.putFinal j _), .none _, h⟩
  | finalize =>
    have hfin : finalizeJob sh.db j (outKey j) = finalizeJob sh.db j (outKey j) := rfl
    simp only [stitchStep]
    split
    · rename_i hw
      exact ⟨.finalize hfin (hF rfl), .none _, finalize_won (Prod.ext rfl hw)⟩
    · exact ⟨.finalize hfin (hF rfl), .none _⟩
  | notify => exact ⟨Effect.note [_] (by simp [Obs.isNote]), .none _⟩

theorem dlq_post (cfg : Settings) (F : Licence) {e : Event} (he : EventOk sh e) (hd : F.deadLetter)
    {pc : DlqPc} (h : DlqOk e pc) (hclaims : ∀ j t, e = .ttsRequested j t → pc = .failTask → F.claims j) :
    (dlqStep sh e pc).Post cfg F sh fun _ pc' => DlqOk e pc' := by
  cases pc with
  | resolve =>
    cases e with
    | jobCreated j => exact .move rfl
    | ttsRequested j t => exact .move ⟨j, t, rfl⟩
    | stitchReady j => exact .move rfl
  | failTask =>
    obtain ⟨j, t, rfl⟩ := h
    obtain ⟨⟨task, htask, howner⟩, _⟩ := he
    simp only [dlqStep, Event.jobId_ttsRequested, Event.taskId_ttsRequested]
    split
    · trivial
    · rename_i db r hc
      have heff : Effect cfg F sh ({ sh with db := db }.log (.failTask j t r)) :=
        .fail htask howner hc hd (hclaims j t rfl rfl)
      split
      · exact ⟨heff, .none _, j, t, rfl⟩
      · exact ⟨heff, .none _⟩
  | publish =>
    obtain ⟨j, t, rfl⟩ := h
    refine ⟨Effect.note [_] (by simp [Obs.isNote]), ?_⟩
    intro l e hle
    cases hle
    exact ⟨rfl, he.2⟩
  | advanceFailed =>
    exact ⟨.advance (.inr (.inr ⟨rfl, hd⟩)) rfl (absurd rfl), .none _⟩

end Handlers

end Pipeline
end AudioEngine
