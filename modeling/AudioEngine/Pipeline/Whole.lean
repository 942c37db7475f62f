import AudioEngine.Pipeline.Fanin

/-!
# AudioEngine.Pipeline.Whole

No incomplete drama is completed, in every run in which no `FAILED` task is completed: the stitcher
that completes the job finds its output object in place.

`incomplete_drama` is the run that breaks it: a task is dead-lettered, another copy of its message
completes it afterwards, and the second decrement announces the barrier with a block missing.
-/

namespace AudioEngine
namespace Pipeline

open Relational Interleave

section Step

variable {cfg : Settings} {sh sh' : Shared} {c : Copy} {i : Choice} {outs : List Agent}

theorem Next.Fan.map {P Q : Type} {A : Shared → P → Prop} {B : Shared → Q → Prop} (f : P → Q)
    (hA : ∀ sh pc, A sh pc → B sh (f pc)) {n : Next P} (h : n.Fan cfg sh A) :
    (n.map f).Fan cfg sh B := by
  cases n with
  | goto sh' pc pub => exact fun ht he => ⟨hA _ _ (h ht he).1, (h ht he).2⟩
  | done sh' pub => exact h
  | raise => trivial

theorem work_fan {w : Work} (h : (Agent.copy c).Holds cfg sh) (hf : (Agent.copy c).Fan sh)
    (hst : c.stage = .work w) :
    (w.step cfg sh c.msg.body).Fan cfg sh fun sh' w' => StageFan sh' c.msg.body.jobId (.work w') := by
  obtain ⟨_, he, hok⟩ := h
  have hstage := hf.2
  rw [hst] at hok hstage
  cases w with
  | parse pc =>
    obtain ⟨j, hj, hpc⟩ := hok
    rw [hj]
    exact (parse_fan hpc).map Work.parse fun _ _ _ => trivial
  | tts pc =>
    obtain ⟨j, t, hj, _⟩ := hok
    rw [hj] at he hstage ⊢
    exact (tts_fan he hstage).map Work.tts fun _ _ hpc => hpc
  | stitch pc =>
    obtain ⟨j, hj, _⟩ := hok
    rw [hj] at hstage ⊢
    exact (stitch_fan hstage).map Work.stitch fun _ _ hpc => hpc

theorem dlq_stage_fan {pc : DlqPc} (h : (Agent.copy c).Holds cfg sh) (hf : (Agent.copy c).Fan sh)
    (hst : c.stage = .dlq pc) :
    (dlqStep sh c.msg.body pc).Fan cfg sh fun sh' pc' => StageFan sh' c.msg.body.jobId (.dlq pc') := by
  obtain ⟨_, he, hok⟩ := h
  have hstage := hf.2
  rw [hst] at hok hstage
  cases hb : c.msg.body with
  | ttsRequested j t =>
    rw [hb] at he hstage
    exact dlq_fan he hstage
  | jobCreated j =>
    rw [hb] at hok
    exact dlq_fan_job rfl hok
  | stitchReady j =>
    rw [hb] at hok
    exact dlq_fan_job rfl hok

theorem fan_emit {pub : Option (Live × Event)} (h : PubFan (emit sh pub).1 pub) :
    ∀ b ∈ (emit sh pub).2, b.Fan (emit sh pub).1 := by
  intro b hb
  cases pub with
  | none => cases hb
  | some p =>
    obtain ⟨l, e⟩ := p
    rw [emit, List.mem_singleton] at hb
    subst hb
    exact ⟨fun j hj => h l j (by rw [show e = .stitchReady j from hj]), trivial⟩

theorem fan_leave (h : (Agent.copy c).Fan sh) (exc : Raised) : ∀ b ∈ c.leave exc, b.Fan sh := by
  intro b hb
  cases exc with
  | error p =>
    rw [Copy.leave, List.mem_singleton] at hb
    subst hb
    exact ⟨h.1, trivial⟩
  | cancelled => cases hb

/-- A delivered `StitchReady` is about a job whose fan-in is over. -/
theorem start_fan (h : (Agent.copy c).Holds cfg sh) (hf : (Agent.copy c).Fan sh) {l : Live}
    (hq : c.queue = .live l) : StageFan sh c.msg.body.jobId (.work (.start l)) := by
  have hfit := h.1
  rw [hq] at hfit
  rw [hfit.home_eq]
  cases hb : c.msg.body with
  | jobCreated j => trivial
  | ttsRequested j t => trivial
  | stitchReady j => exact ⟨hf.1 j hb, .inr trivial⟩

theorem moves_fan (h : (Agent.copy c).Holds cfg sh) (hf : (Agent.copy c).Fan sh)
    (ht : Tallied cfg sh') (hev : FanEvolves sh sh') (hm : Moves cfg sh c i sh' outs) :
    ∀ b ∈ outs, b.Fan sh' := by
  have hf' := hf.mono hev
  cases hm with
  | deliver hst hq =>
    rw [List.forall_mem_singleton]
    exact ⟨hf.1, start_fan h hf hq⟩
  | due hst hq =>
    rw [List.forall_mem_singleton]
    exact ⟨hf.1, by rw [hst]; trivial⟩
  | deliverDlq hst hq =>
    rw [List.forall_mem_singleton]
    exact ⟨hf.1, trivial⟩
  | duplicate hst =>
    rw [List.forall_mem_cons, List.forall_mem_singleton]
    exact ⟨hf, hf⟩
  | work hst hstep =>
    have hw := work_fan h hf hst
    rw [hstep] at hw
    rw [List.forall_mem_cons]
    exact ⟨⟨hf'.1, (hw ht hev).1⟩, fan_emit (hw ht hev).2⟩
  | returned hst hstep =>
    have hw := work_fan h hf hst
    rw [hstep] at hw
    rw [List.forall_mem_cons]
    exact ⟨⟨hf'.1, trivial⟩, fan_emit (hw ht)⟩
  | @raised w i exc hst _ =>
    intro b hb
    unfold Copy.raiseAt at hb
    split at hb
    · rw [List.mem_singleton] at hb
      subst hb
      exact ⟨hf.1, trivial⟩
    · exact fan_leave hf exc b hb
  | unwound hst _ => exact fan_leave hf' _
  | @routed p q m hst hr =>
    obtain ⟨hbody, _⟩ := Copy.route_copy hr
    rw [List.forall_mem_cons, List.forall_mem_singleton]
    exact ⟨⟨hf'.1, trivial⟩, ⟨fun j hj => hf'.1 j (hbody ▸ hj), trivial⟩⟩
  | unrouted hst _ _ _ => simp
  | acked hst => simp
  | dlq hst hstep =>
    have hw := dlq_stage_fan h hf hst
    rw [hstep] at hw
    rw [List.forall_mem_cons]
    exact ⟨⟨hf'.1, (hw ht hev).1⟩, fan_emit (hw ht hev).2⟩
  | dlqReturned hst hstep =>
    have hw := dlq_stage_fan h hf hst
    rw [hstep] at hw
    rw [List.forall_mem_cons]
    exact ⟨⟨hf'.1, trivial⟩, fan_emit (hw ht)⟩
  | dlqAcked hst => simp
  | requeued hst =>
    rw [List.forall_mem_singleton]
    exact ⟨hf.1, trivial⟩

theorem act_fan {a : Agent} (h : a.Holds cfg sh) (hf : a.Fan sh) (ht : Tallied cfg sh')
    (hev : FanEvolves sh sh') (hact : act cfg sh a i = some (sh', outs)) :
    ∀ b ∈ outs, b.Fan sh' := by
  have quiet : ∀ j,
      (Agent.copy { queue := .live .parse, msg := publishMessage (.jobCreated j) }).Fan sh' := by
    intro j
    refine ⟨?_, trivial⟩
    intro k hk
    cases hk
  rcases act_cases hact with ⟨c, rfl, hm⟩ | hr
  · exact moves_fan h hf ht hev hm
  · exact request_outs (fun _ _ _ => trivial) (fun _ => trivial) quiet hr

end Step

section Run

variable {cfg : Settings} {C : Shared → Agent → Choice → Prop} {s : State}

theorem reach_whole (hC : ∀ sh a i, C sh a i → ¬ Recounts sh a i) (h : Reach (system cfg) C s) :
    Whole s.shared ∧ ∀ a ∈ s.agents, a.Fan s.shared := by
  refine Reach.rely (G := Whole) (A := Agent.Fan) (R := FanEvolves) ?_ (by simp [system]) ?_ ?_ ?_ h
  · intro j hj
    cases hj
  · intro s a i sh' outs hr ha hc hw hf hact
    obtain ⟨hs, hA⟩ := reach_data hr
    have heff := (act_data hs (hA a ha) hact).1
    have hev := heff.fanEvolves hs (hC _ _ _ hc) hf fun j => act_out hact j
    refine ⟨heff.whole hs hf (fun _ hfin => hfin) hev hw, hev, ?_⟩
    exact act_fan (hA a ha) hf (heff.tallied hs (hC _ _ _ hc) (reach_tallied hC hr)) hev hact
  · intro s x sh' outs hr hw henv
    have hs := (reach_data hr).1
    have heff := (env_data hs henv .none).1
    have hev := heff.fanEvolves (a := .sweep []) hs id trivial fun j => .inl (env_out henv j)
    exact ⟨heff.whole (a := .sweep []) hs trivial (fun _ hfin => hfin.elim) hev hw, hev,
      env_outs (fun _ _ _ => trivial) (fun _ => trivial) henv⟩
  · intro sh sh' b _ hev hb
    exact hb.mono hev

/-- No incomplete drama is `COMPLETED`, in every run in which no `FAILED` task is completed: its
tasks are all `DONE` or `FAILED`, and the bytes of the output object are those of the audio objects
of the ones that are `DONE`, in the order of the blocks. -/
theorem completed_is_whole {j : String}
    (h : Reach (system cfg) (fun sh a i => ¬ Recounts sh a i) s)
    (hj : s.shared.db.status j = some .completed) :
    (∀ t ∈ s.shared.db.tasksOf j, t.status = .done ∨ t.status = .failed) ∧
    (s.shared.db.tasksOf j).Pairwise (fun a b => a.blockIndex < b.blockIndex) ∧
    ∃ parts bytes,
      ((s.shared.db.tasksOf j).filter fun t => t.status = .done).Forall₂ (Chunk s.shared) parts ∧
      s.shared.objects (outKey j) = some bytes ∧
      bytes.data.toList = parts.flatMap fun part => part.data.toList := by
  have hs := (reach_data h).1
  obtain ⟨h0, parts, hparts, hout⟩ := (reach_whole (fun _ _ _ hc => hc) h).1 j hj
  obtain ⟨text, hl⟩ := hs.laid_of_completed hj
  refine ⟨fun t ht => ?_, hl.ordered, parts, joinBytes parts, ?_, hout, joinBytes_toList parts⟩
  · obtain ⟨hg, hown⟩ := mem_tasksOf.mp ht
    have hp := not_pending_of_outstanding h0 hg hown
    cases hst : t.status with
    | pending => exact absurd hst hp
    | done => exact .inl rfl
    | failed => exact .inr rfl
  · rw [chunkKeys, hl.doneTasks_eq] at hparts
    refine chunks_of_keys ?_ hparts
    intro t ht
    obtain ⟨htm, hd⟩ := List.mem_filter.mp ht
    rw [(hs.done _ t (mem_tasksOf.mp htm).1 (of_decide_eq_true hd)).1]
    simp

end Run

theorem completed_is_whole_two_blocks :
    ∃ s, Reach (system {}) (fun sh a i => ¬ Recounts sh a i) s ∧
      s.shared.db.status "j" = some .completed ∧
      (∀ t ∈ s.shared.db.tasksOf "j", t.status = .done ∨ t.status = .failed) ∧
      ∃ parts bytes,
        ((s.shared.db.tasksOf "j").filter fun t => t.status = .done).Forall₂ (Chunk s.shared) parts ∧
        s.shared.objects (outKey "j") = some bytes ∧
        bytes.data.toList = parts.flatMap (fun part => part.data.toList) ∧
        bytes.data.toList = twoBlocksAudio.toUTF8.data.toList := by
  obtain ⟨s, hr, _, hst, _, hout, _⟩ := twoBlocks_completes
  have h := hr.mono (D := fun sh a i => ¬ Recounts sh a i) fun _ _ _ hc => calm_not_recounts hc
  obtain ⟨hall, _, parts, bytes, hparts, hb, hbytes⟩ := completed_is_whole h hst
  rw [hb, Option.map_some, Option.some.injEq] at hout
  exact ⟨s, h, hst, hall, parts, bytes, hparts, hb, hbytes, hout⟩

/-- Two blocks, and two copies of the message for the second one: one copy fails on every attempt and
is resolved by the dead-letter consumer, the other one then succeeds and its job is stitched. -/
def failedThenDone : List (Action Choice Env) :=
  [.env (.post "j" "A\n\nB" none)] ++ List.replicate 12 (.act 0 .go) ++ [.act 0 .duplicate] ++
    (List.replicate 4 failedAttempt).flatten ++ List.replicate 27 (.act 0 .go)

set_option maxRecDepth 4000 in
theorem failedThenDone_completes : ∃ s, Reach (system {}) (fun _ _ _ => True) s ∧
    s.shared.db.status "j" = some .completed ∧
    (s.shared.db.tasksOf "j").map Task.status = [.pending, .done] ∧
    s.shared.getText (outKey "j") =
      some "FAKE_AUDIO:df7e70e5021544f4834bbee64a9e3789febc4be81470df629cad6ddb03320a5c" ∧
    .failTask "j" "j-1" (some 1) ∈ s.shared.trace ∧
    .completeTask "j" "j-1" (some 0) ∈ s.shared.trace :=
  System.exists_reach (C := fun _ _ _ => true) (fun _ _ _ _ => trivial) failedThenDone
    (by decide +kernel)

/-- The job is `COMPLETED` while its first block is still `PENDING`. -/
theorem incomplete_drama : ∃ s, Reach (system {}) (fun _ _ _ => True) s ∧
    s.shared.db.status "j" = some .completed ∧
    (s.shared.db.tasksOf "j").map Task.status = [.pending, .done] ∧
    .failTask "j" "j-1" (some 1) ∈ s.shared.trace ∧
    .completeTask "j" "j-1" (some 0) ∈ s.shared.trace := by
  obtain ⟨s, h, hst, htasks, _, hcounted⟩ := failedThenDone_completes
  exact ⟨s, h, hst, htasks, hcounted⟩

end Pipeline
end AudioEngine
