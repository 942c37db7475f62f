import AudioEngine.Pipeline.Chunks

/-!
# AudioEngine.Pipeline.Fanin

The fan-in, as assertions of the agents.

Without recounts the counter is exact, so a `StitchReady` is only ever published once no task of
the job is `PENDING`. From then on the rows of the job are frozen: every stitcher reads the same
chunk keys, downloads the same parts and writes the same object. A job that the dead-letter path
fails meanwhile is exempt from all of this; it never completes.
-/

namespace AudioEngine
namespace Pipeline

open Relational Interleave

/-- What a stitcher knows about the chunks of a job that has not been failed. -/
def StitchFan (sh : Shared) (j : String) : StitchPc → Prop
  | .advance keys => keys = chunkKeys sh.db j
  | .getParts keys parts =>
    ∃ done, chunkKeys sh.db j = done ++ keys ∧ done.map sh.objects = parts.map some
  | .putFinal parts => (chunkKeys sh.db j).map sh.objects = parts.map some
  | .finalize => Stitched sh j
  | _ => True

def StageFan (sh : Shared) (j : String) : Stage → Prop
  | .work (.stitch pc) => Crossed sh j ∧ (Failed sh j ∨ StitchFan sh j pc)
  | .work (.tts .publish) => Crossed sh j
  | .dlq .publish => Crossed sh j
  | _ => True

def Agent.Fan (sh : Shared) : Agent → Prop
  | .copy c =>
    (∀ j, c.msg.body = .stitchReady j → Crossed sh j) ∧ StageFan sh c.msg.body.jobId c.stage
  | _ => True

/-- Completed jobs are whole. -/
def Whole (sh : Shared) : Prop :=
  ∀ j, sh.db.status j = some .completed → sh.db.outstanding j = 0 ∧ Stitched sh j

/-- What the other agents may rely on. -/
structure FanEvolves (sh sh' : Shared) : Prop where
  failed : ∀ j, Failed sh j → Failed sh' j
  crossed : ∀ j, Crossed sh j → Crossed sh' j ∧
    (Failed sh' j ∨ (Keeps sh sh' j ∧ (Stitched sh j → Stitched sh' j)))

section Stable

variable {cfg : Settings} {F : Licence} {sh sh' : Shared} {j : String}

theorem StitchFan.mono {pc : StitchPc} (h : StitchFan sh j pc) (hk : Keeps sh sh' j)
    (hs : Stitched sh j → Stitched sh' j) : StitchFan sh' j pc := by
  cases pc with
  | advance keys => exact Eq.trans h hk.keys.symm
  | getParts keys parts =>
    obtain ⟨done, hkeys, hparts⟩ := h
    refine ⟨done, hk.keys.trans hkeys, ?_⟩
    rw [hk.map fun k hm => by rw [hkeys]; exact List.mem_append_left _ hm]
    exact hparts
  | putFinal parts =>
    show (chunkKeys sh'.db j).map sh'.objects = _
    rw [hk.keys, hk.map fun _ hm => hm]
    exact h
  | finalize => exact hs h
  | _ => trivial

theorem StageFan.mono {st : Stage} (h : StageFan sh j st) (he : FanEvolves sh sh') :
    StageFan sh' j st := by
  cases st with
  | work w =>
    cases w with
    | parse pc => trivial
    | tts pc =>
      cases pc with
      | publish => exact (he.crossed _ h).1
      | _ => trivial
    | stitch pc =>
      obtain ⟨hc, h⟩ := h
      obtain ⟨hc', hk⟩ := he.crossed _ hc
      refine ⟨hc', ?_⟩
      rcases hk with hf | ⟨hk, hs⟩
      · exact .inl hf
      · rcases h with hf | h
        · exact .inl (he.failed _ hf)
        · exact .inr (h.mono hk hs)
  | dlq pc =>
    cases pc with
    | publish => exact (he.crossed _ h).1
    | _ => trivial
  | _ => trivial

theorem Agent.Fan.mono {a : Agent} (h : a.Fan sh) (he : FanEvolves sh sh') : a.Fan sh' := by
  cases a with
  | copy c => exact ⟨fun j hj => (he.crossed j (h.1 j hj)).1, h.2.mono he⟩
  | create j cb pc => trivial
  | sweep stale => trivial

/-- A move of an agent that knows its chunks. -/
theorem Effect.fanEvolves (h : Effect cfg F sh sh') (hs : Sound cfg sh) (hF : ¬ F.recount)
    {a : Agent} (ha : a.Fan sh)
    (hout : ∀ j, sh'.objects (outKey j) = sh.objects (outKey j) ∨
      ∃ parts, a.putsFinal j parts ∧ sh'.objects (outKey j) = some (joinBytes parts)) :
    FanEvolves sh sh' where
  failed := fun _ hf => hf.mono (h.evolves hs)
  crossed := by
    intro j hc
    obtain ⟨hc', hk⟩ := h.crossed hs hF hc
    refine ⟨hc', ?_⟩
    rcases hk with hf | hk
    · exact .inl hf
    · have hmap : (chunkKeys sh'.db j).map sh'.objects = (chunkKeys sh.db j).map sh.objects := by
        rw [hk.keys, hk.map fun _ hm => hm]
      rcases hout j with hsame | ⟨parts, ⟨c, rfl, hj, hst⟩, hput⟩
      · refine .inr ⟨hk, ?_⟩
        rintro ⟨parts, hparts, ho⟩
        exact ⟨parts, hmap.trans hparts, hsame.trans ho⟩
      · have hstage := ha.2
        rw [hst, hj] at hstage
        rcases hstage.2 with hf | hparts
        · exact .inl (hf.mono (h.evolves hs))
        · exact .inr ⟨hk, fun _ => ⟨parts, hmap.trans hparts, hput⟩⟩

/-- Whoever completes a job has put its object in place. -/
theorem Effect.whole (h : Effect cfg F sh sh') (hs : Sound cfg sh) {a : Agent} (ha : a.Fan sh)
    (hfin : ∀ j, F.finalizes j → Finalizes a j) (he : FanEvolves sh sh')
    (hw : Whole sh) : Whole sh' := by
  intro j hc
  have notFailed : ¬ Failed sh' j := by
    intro hf
    rw [Failed, hc] at hf
    cases hf
  have hcross : Crossed sh j ∧ (Failed sh j ∨ Stitched sh j) := by
    obtain ⟨job', hg', hst'⟩ := Option.map_eq_some_iff.mp hc
    rcases (h.row hs hg').completed hst' with hf | ⟨job, hg, hst⟩
    · obtain ⟨c, rfl, hj, hstage⟩ := hfin j hf
      have hfan := ha.2
      rw [hstage, hj] at hfan
      exact hfan
    · have hdone : sh.db.status j = some .completed := by rw [Db.status, hg, Option.map_some, hst]
      obtain ⟨h0, hst'⟩ := hw j hdone
      exact ⟨⟨⟨job, hg, by rw [hst]; decide⟩, .inr h0⟩, .inr hst'⟩
  obtain ⟨hc', hk⟩ := he.crossed j hcross.1
  refine ⟨hc'.2.resolve_left notFailed, ?_⟩
  obtain ⟨_, hs'⟩ := hk.resolve_left notFailed
  rcases hcross.2 with hf | hst
  · exact absurd (he.failed j hf) notFailed
  · exact hs' hst

end Stable

/-! ## What the handlers leave -/

/-- A published `StitchReady` is about a job whose fan-in is over. -/
def PubFan (sh : Shared) (pub : Option (Live × Event)) : Prop :=
  ∀ l j, pub = some (l, .stitchReady j) → Crossed sh j

/-- What a step from `sh` leaves for the fan-in, once it is known to leave exact counters. -/
def Next.Fan {P : Type} (cfg : Settings) (sh : Shared) (A : Shared → P → Prop) : Next P → Prop
  | .goto sh' pc pub => Tallied cfg (emit sh' pub).1 → FanEvolves sh (emit sh' pub).1 →
    A (emit sh' pub).1 pc ∧ PubFan (emit sh' pub).1 pub
  | .done sh' pub => Tallied cfg (emit sh' pub).1 → PubFan (emit sh' pub).1 pub
  | .raise => True

section Leaves

variable {cfg : Settings} {sh : Shared} {j t : String}

theorem PubFan.none (sh : Shared) : PubFan sh none := by
  intro l j h
  cases h

/-- A counter at zero means that the fan-in is over. -/
theorem Tallied.crossed (h : Tallied cfg sh) (hp : Past sh j 2) {job : Job}
    (hg : sh.db.jobs.get j = some job) (h0 : job.pendingCount = 0) : Crossed sh j := by
  refine ⟨hp, ?_⟩
  by_cases hf : job.status = .failed
  · exact .inl (by rw [Failed, Db.status, hg, Option.map_some, hf])
  · refine .inr ?_
    have hpend : job.status ≠ .pending := by
      intro hst
      obtain ⟨job', hg', hrank⟩ := hp
      obtain rfl := Option.some.inj (hg.symm.trans hg')
      rw [hst] at hrank
      cases hrank
    have he := h.count hg hpend hf
    omega

/-- A claim that returns 0 ends the fan-in. -/
theorem Tallied.claimed {db : Db} {o : Obs} {task task' : Task} {job : Job}
    (h : Tallied cfg ({ sh with db := db }.log o)) (hp : Past sh j 2)
    (hc : Claimed sh.db db j t task task' job) (h0 : some 0 = some (job.pendingCount - 1)) :
    Crossed ({ sh with db := db }.log o) j := by
  have hrow := hc.jobs j
  rw [if_pos rfl] at hrow
  refine h.crossed ?_ hrow (Option.some.inj h0).symm
  obtain ⟨job', hg, hrank⟩ := hp
  obtain rfl := Option.some.inj (hc.job_get.symm.trans hg)
  exact ⟨_, hrow, hrank⟩

theorem outstanding_of_laidIn (h : LaidIn cfg sh j 0) : sh.db.outstanding j = 0 := by
  obtain ⟨text, hl, h0⟩ := h
  have hnil : sh.db.tasksOf j = [] := List.eq_nil_of_length_eq_zero (hl.length.trans h0.symm)
  rw [outstanding_eq, hnil]
  rfl

theorem parse_fan {pc : ParsePc} (h : ParseOk cfg sh j pc) :
    (parseStep cfg sh (.jobCreated j) pc).Fan cfg sh fun _ _ => True := by
  cases pc with
  | publishStitch =>
    have h0 := outstanding_of_laidIn h.1
    intro _ l k hpub
    cases hpub
    exact ⟨h.2, .inr h0⟩
  | publishTts n i =>
    simp only [parseStep]
    split
    · intro _ _
      exact ⟨trivial, by intro l k hpub; cases hpub⟩
    · intro _ l k hpub
      cases hpub
  | _ =>
    simp only [parseStep]
    (repeat' split) <;> first | trivial | exact fun _ _ => ⟨trivial, .none _⟩

theorem tts_fan (he : EventOk sh (.ttsRequested j t)) {pc : TtsPc}
    (h : StageFan sh j (.work (.tts pc))) :
    (ttsStep sh (.ttsRequested j t) pc).Fan cfg sh fun sh' pc' =>
      StageFan sh' j (.work (.tts pc')) := by
  cases pc with
  | complete key =>
    simp only [ttsStep, Event.jobId_ttsRequested, Event.taskId_ttsRequested]
    split
    · trivial
    · rename_i db r hc
      split
      · exact fun _ _ => ⟨trivial, .none _⟩
      · rename_i r
        split
        · rename_i h0
          subst h0
          intro ht _
          refine ⟨?_, .none _⟩
          rcases completeTask_cases hc with ⟨hr, _⟩ | ⟨_, _, _, hr, hcl⟩
          · cases hr
          · exact ht.claimed he.2 hcl hr
        · exact fun _ => .none _
  | reread =>
    simp only [ttsStep, Event.jobId_ttsRequested]
    split
    · exact fun _ => .none _
    · rename_i job hg
      split
      · rename_i h0
        intro ht _
        exact ⟨ht.crossed he.2 hg h0, .none _⟩
      · exact fun _ => .none _
  | publish =>
    intro _ l k hpub
    cases hpub
    exact h
  | _ =>
    simp only [ttsStep]
    (repeat' split) <;> first | trivial | exact fun _ _ => ⟨trivial, .none _⟩

theorem dlq_fan (he : EventOk sh (.ttsRequested j t)) {pc : DlqPc} (h : StageFan sh j (.dlq pc)) :
    (dlqStep sh (.ttsRequested j t) pc).Fan cfg sh fun sh' pc' => StageFan sh' j (.dlq pc') := by
  cases pc with
  | failTask =>
    simp only [dlqStep, Event.jobId_ttsRequested, Event.taskId_ttsRequested]
    split
    · trivial
    · rename_i db r hc
      split
      · rename_i h0
        subst h0
        intro ht _
        refine ⟨?_, .none _⟩
        rcases failTask_cases hc with ⟨hr, _⟩ | ⟨_, _, _, hr, hcl⟩
        · cases hr
        · exact ht.claimed he.2 hcl hr
      · exact fun _ => .none _
  | publish =>
    intro _ l k hpub
    cases hpub
    exact h
  | resolve => exact fun _ _ => ⟨trivial, .none _⟩
  | advanceFailed => exact fun _ => .none _

/-- The dead-letter consumer of an event without a task. -/
theorem dlq_fan_job {e : Event} (he : e.body.taskId = none) {pc : DlqPc} (h : DlqOk e pc) :
    (dlqStep sh e pc).Fan cfg sh fun sh' pc' => StageFan sh' j (.dlq pc') := by
  cases pc with
  | resolve =>
    simp only [dlqStep, he]
    exact fun _ _ => ⟨trivial, .none _⟩
  | advanceFailed => exact fun _ => .none _
  | failTask =>
    obtain ⟨j, t, rfl⟩ := h
    cases he
  | publish =>
    obtain ⟨j, t, rfl⟩ := h
    cases he

theorem stitch_fan {pc : StitchPc} (h : StageFan sh j (.work (.stitch pc))) :
    (stitchStep sh (.stitchReady j) pc).Fan cfg sh fun sh' pc' =>
      StageFan sh' j (.work (.stitch pc')) := by
  -- the assertion at the old point holds in the new stores, so only the local step is left
  have goes : ∀ {sh' : Shared} {pc' : StitchPc}, (StitchFan sh' j pc → StitchFan sh' j pc') →
      (Next.goto sh' pc' none).Fan cfg sh fun sh' pc' => StageFan sh' j (.work (.stitch pc')) := by
    intro sh' pc' hstep _ hev
    obtain ⟨hc, hk⟩ := h.mono hev
    exact ⟨⟨hc, hk.imp_right hstep⟩, .none _⟩
  cases pc with
  | validate => exact goes fun _ => trivial
  | loadJob =>
    simp only [stitchStep]
    split
    · trivial
    · split
      · exact fun _ => .none _
      · exact goes fun _ => trivial
  | loadChunks => exact goes fun _ => rfl
  | advance keys => exact goes fun hk => ⟨[], hk.symm, rfl⟩
  | getParts keys parts =>
    cases keys with
    | nil =>
      refine goes ?_
      rintro ⟨done, hkeys, hparts⟩
      rw [List.append_nil] at hkeys
      rw [StitchFan, hkeys]
      exact hparts
    | cons key keys =>
      simp only [stitchStep]
      split
      · trivial
      · rename_i bytes hb
        refine goes ?_
        rintro ⟨done, hkeys, hparts⟩
        refine ⟨done ++ [key], by rw [hkeys]; simp, ?_⟩
        rw [List.map_append, List.map_append, hparts]
        simp [hb]
  | putFinal parts => exact goes fun hparts => ⟨parts, hparts, putObject_self _ _ _⟩
  | finalize =>
    simp only [stitchStep]
    split
    · exact goes fun _ => trivial
    · exact fun _ => .none _
  | notify => exact fun _ => .none _

end Leaves

end Pipeline
end AudioEngine
