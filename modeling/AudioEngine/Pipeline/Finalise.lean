import AudioEngine.Lib.Story
import AudioEngine.Pipeline.Stitching

/-!
# AudioEngine.Pipeline.Finalise

Several runs of `handle_stitch` on one job.

The runs start from any stores in which the fan-in of the job is over (`Settled`), reachable or not,
and nothing else acts on the job meanwhile (`Alone`). A run may read the chunk list and the status
long before it writes, lose either compare-and-set and still write, or start again after a crash. The
rows of the tasks and the chunks stay as they are (`Held`), so whatever a run reads, all of them
write the same bytes; and of the compare-and-sets to `COMPLETED` one wins, the first.
-/

namespace AudioEngine
namespace Pipeline

open Relational Interleave

/-- The job is `GENERATING`; its tasks are `FAILED`, or `DONE` with an audio object. -/
structure Settled (sh : Shared) (j : String) : Prop where
  generating : sh.db.status j = some .generating
  tasks : ∀ t ∈ sh.db.tasksOf j, t.status = .failed ∨
    t.status = .done ∧ ∃ h bytes, t.audioKey = some (ttsKey h) ∧ sh.objects (ttsKey h) = some bytes

/-- Only `handle_stitch` acts on the job: its `StitchReady` is not taken from the dead-letter queue,
and every other agent leaves the job alone. -/
def Alone (j : String) (s : State) : Move Agent Choice Env → Shared → Prop
  | .act (.copy c) _, sh' => (c.msg.body = .stitchReady j → c.queue ≠ .dlq) ∧
      (c.msg.body ≠ .stitchReady j → Untouched s.shared sh' j)
  | .act _ _, sh' => Untouched s.shared sh' j
  | .env _, _ => True

/-! ## What a run does -/

/-- The agent is a run of `handle_stitch` on `j` and takes its next step at `pc`. -/
def StitchesAt (j : String) (a : Agent) (i : Choice) (pc : StitchPc) : Prop :=
  ∃ c, a = .copy c ∧ c.msg.body = .stitchReady j ∧ c.stage = .work (.stitch pc) ∧ i = .go

/-- The step writes the output object of `j`. -/
def WritesOut (j : String) (a : Agent) (i : Choice) : Prop := ∃ parts, StitchesAt j a i (.putFinal parts)

/-- The step returns from `handle_stitch`. -/
def ReturnsFrom (j : String) (sh : Shared) (a : Agent) (i : Choice) : Prop :=
  ∃ pc sh' pub, StitchesAt j a i pc ∧ stitchStep sh (.stitchReady j) pc = .done sh' pub

def Agent.finalizes (j : String) (sh : Shared) (a : Agent) (i : Choice) : Bool :=
  match a, i with
  | .copy c, .go =>
    match c.stage with
    | .work (.stitch pc) => decide (c.msg.body = .stitchReady j) && pc.finalizes j sh
    | _ => false
  | _, _ => false

/-- How often `finalize_job` returned `True`. -/
def finalizations (j : String) (hist : List (Taken Shared Agent Choice)) : Nat :=
  hist.countP fun t => t.agent.finalizes j t.before t.choice

/-- The job is `COMPLETED` and names its asset. -/
def Completed (sh : Shared) (j : String) : Prop :=
  ∃ job, sh.db.jobs.get j = some job ∧ job.status = .completed ∧ job.finalKey = some (outKey j)

/-! ## The other agents -/

/-- What the step publishes goes to the queue of its handler. -/
def Next.Sends {P : Type} : Next P → Prop
  | .goto _ _ pub => ∀ l e, pub = some (l, e) → l = home e
  | .done _ pub => ∀ l e, pub = some (l, e) → l = home e
  | .raise => True

section Others

variable {cfg : Settings} {sh sh' sh'' : Shared} {j : String} {c : Copy} {i : Choice}
  {outs : List Agent}

theorem parse_sends (cfg : Settings) (sh : Shared) (e : Event) (pc : ParsePc) :
    (parseStep cfg sh e pc).Sends := by
  cases pc <;> simp only [parseStep] <;> (repeat' split) <;> simp [Next.Sends, home]

theorem tts_sends (sh : Shared) (e : Event) (pc : TtsPc) : (ttsStep sh e pc).Sends := by
  cases pc <;> simp only [ttsStep] <;> (repeat' split) <;> simp [Next.Sends, home]

theorem stitch_sends (sh : Shared) (e : Event) (pc : StitchPc) : (stitchStep sh e pc).Sends := by
  cases pc with
  | getParts keys parts => cases keys <;> simp only [stitchStep] <;> (repeat' split) <;> simp [Next.Sends]
  | _ =>
    simp only [stitchStep]
    (repeat' split) <;> simp [Next.Sends]

theorem dlq_sends (sh : Shared) (e : Event) (pc : DlqPc) : (dlqStep sh e pc).Sends := by
  cases pc <;> simp only [dlqStep] <;> (repeat' split) <;> simp [Next.Sends, home]

theorem Next.Sends.map {P Q : Type} {n : Next P} (f : P → Q) (h : n.Sends) : (n.map f).Sends := by
  cases n <;> exact h

theorem work_sends (cfg : Settings) (sh : Shared) (e : Event) (w : Work) :
    (w.step cfg sh e).Sends := by
  cases w with
  | parse pc => exact (parse_sends cfg sh e pc).map Work.parse
  | tts pc => exact (tts_sends sh e pc).map Work.tts
  | stitch pc => exact (stitch_sends sh e pc).map Work.stitch

/-- A fresh `StitchReady` waits for its run. -/
theorem runs_emit {pub : Option (Live × Event)} (h : ∀ l e, pub = some (l, e) → l = home e) :
    ∀ b ∈ (emit sh' pub).2, b.Runs j sh'' := by
  cases pub with
  | none => simp [emit]
  | some p =>
    obtain ⟨l, e⟩ := p
    obtain rfl := h l e rfl
    simp only [emit]
    rw [List.forall_mem_singleton]
    exact fun _ => ⟨.inr (.inl rfl), trivial⟩

theorem runs_of_ne {b : Copy} (h : b.msg.body ≠ .stitchReady j) : (Agent.copy b).Runs j sh :=
  fun hb => absurd hb h

theorem leave_of_ne (hne : c.msg.body ≠ .stitchReady j) (exc : Raised) :
    ∀ b ∈ c.leave exc, b.Runs j sh := by
  cases exc with
  | error p =>
    simp only [Copy.leave]
    rw [List.forall_mem_singleton]
    exact runs_of_ne hne
  | cancelled => simp [Copy.leave]

/-- Another message starts no run in the middle. -/
theorem others_runs (hne : c.msg.body ≠ .stitchReady j) (hm : Moves cfg sh c i sh' outs) :
    ∀ b ∈ outs, b.Runs j sh'' := by
  have one : ∀ {b : Copy}, b.msg.body = c.msg.body → ∀ x ∈ [Agent.copy b], x.Runs j sh'' :=
    fun hb => List.forall_mem_singleton.mpr (runs_of_ne (by rw [hb]; exact hne))
  cases hm with
  | deliver _ _ => exact one rfl
  | due _ _ => exact one rfl
  | deliverDlq _ _ => exact one rfl
  | duplicate _ => exact List.forall_mem_cons.mpr ⟨runs_of_ne hne, one rfl⟩
  | @work w w' sh₁ pub _ hstep =>
    have hs := work_sends cfg sh c.msg.body w
    rw [hstep] at hs
    exact List.forall_mem_cons.mpr ⟨runs_of_ne hne, runs_emit hs⟩
  | @returned w sh₁ pub _ hstep =>
    have hs := work_sends cfg sh c.msg.body w
    rw [hstep] at hs
    exact List.forall_mem_cons.mpr ⟨runs_of_ne hne, runs_emit hs⟩
  | raised _ _ =>
    unfold Copy.raiseAt
    split
    · exact one rfl
    · exact leave_of_ne hne _
  | unwound _ _ => exact leave_of_ne hne _
  | routed _ hr => exact List.forall_mem_cons.mpr ⟨runs_of_ne hne, one (Copy.route_copy hr).1⟩
  | unrouted _ _ _ _ => simp
  | acked _ => simp
  | @dlq pc pc' sh₁ pub _ hstep =>
    have hs := dlq_sends sh c.msg.body pc
    rw [hstep] at hs
    exact List.forall_mem_cons.mpr ⟨runs_of_ne hne, runs_emit hs⟩
  | @dlqReturned pc sh₁ pub _ hstep =>
    have hs := dlq_sends sh c.msg.body pc
    rw [hstep] at hs
    exact List.forall_mem_cons.mpr ⟨runs_of_ne hne, runs_emit hs⟩
  | dlqAcked _ => simp
  | requeued _ => exact one rfl

end Others

/-! ## A step of the copy that carries the run -/

section Copy

variable {cfg : Settings} {sh₀ sh sh' : Shared} {j : String} {n : Nat} {c : Copy} {i : Choice}
  {outs : List Agent}

theorem finalizes_elim {a : Agent} (h : a.finalizes j sh i = true) :
    StitchesAt j a i .finalize ∧ (finalizeJob sh.db j (outKey j)).2 = true := by
  unfold Agent.finalizes at h
  split at h
  · rename_i c
    split at h
    · rename_i pc hst
      obtain ⟨hb, hf⟩ := Bool.and_eq_true_iff.mp h
      cases pc with
      | finalize => exact ⟨⟨c, rfl, of_decide_eq_true hb, hst, rfl⟩, hf⟩
      | _ => cases hf
    · cases h
  · cases h

/-- The step of a run. -/
theorem step_ran (hkeys : ∀ k ∈ chunkKeys sh₀.db j, ∃ h, k = ttsKey h) (h : Held sh₀ j n sh)
    (hb : c.msg.body = .stitchReady j) (hr : (Agent.copy c).Runs j sh) {pc : StitchPc}
    (hst : c.stage = .work (.stitch pc)) (ha : c.act cfg sh .go = some (sh', outs)) :
    Ran sh₀ j (n + (pc.finalizes j sh).toNat) sh sh' ∧ (∀ b ∈ outs, b.Runs j sh') ∧
      (ReturnsFrom j sh (.copy c) .go → sh'.db.status j = some .completed) := by
  obtain ⟨hfit, hruns⟩ := hr hb
  rw [hst] at hruns
  have hran := stitch_ran hkeys h hruns.1 hruns.2
  have ret : ReturnsFrom j sh (.copy c) .go →
      ∃ sh₁ pub, stitchStep sh (.stitchReady j) pc = .done sh₁ pub := by
    rintro ⟨pc', sh₁, pub, ⟨c', hc, _, hst', _⟩, hd⟩
    cases hc
    rw [hst] at hst'
    cases hst'
    exact ⟨sh₁, pub, hd⟩
  simp only [Copy.act, hst, Work.step, hb] at ha
  cases hstep : stitchStep sh (.stitchReady j) pc with
  | goto sh₁ pc₁ pub =>
    rw [hstep] at ha hran
    obtain ⟨hran, rfl, hok, hfan⟩ := hran
    cases ha
    refine ⟨hran, List.forall_mem_cons.mpr ⟨fun _ => ⟨hfit, hok, hfan⟩, by simp [emit]⟩, ?_⟩
    intro hret
    obtain ⟨sh₁, pub, hd⟩ := ret hret
    rw [hstep] at hd
    cases hd
  | done sh₁ pub =>
    rw [hstep] at ha hran
    obtain ⟨hran, rfl, hc⟩ := hran
    cases ha
    exact ⟨hran, List.forall_mem_cons.mpr ⟨fun _ => ⟨hfit, trivial⟩, by simp [emit]⟩, fun _ => hc⟩
  | raise =>
    rw [hstep] at ha hran
    simp only [Next.map, Copy.raiseAt, Work.holdsInflight, Copy.leave] at ha
    cases ha
    refine ⟨by rw [show n + (pc.finalizes j sh).toNat = n from hran]; exact h.ran_self,
      List.forall_mem_singleton.mpr fun _ => ⟨hfit, trivial⟩, ?_⟩
    intro hret
    obtain ⟨sh₁, pub, hd⟩ := ret hret
    rw [hstep] at hd
    cases hd

/-- The work of a `StitchReady` message is a step of `handle_stitch`. -/
theorem Stage.Runs.stitch {w : Work} (h : (Stage.work w).Runs sh j) : ∃ pc, w = .stitch pc := by
  cases w with
  | stitch pc => exact ⟨pc, rfl⟩
  | parse pc => exact h.elim
  | tts pc => exact h.elim

/-- Between its steps a run is delivered, crashes, is routed or acked. -/
theorem idle_ran (h : Held sh₀ j n sh) (hb : c.msg.body = .stitchReady j) (hq : c.queue ≠ .dlq)
    (hr : (Agent.copy c).Runs j sh) (hidle : ∀ pc, c.stage = .work (.stitch pc) → i ≠ .go)
    (hm : Moves cfg sh c i sh' outs) : Ran sh₀ j n sh sh' ∧ ∀ b ∈ outs, b.Runs j sh' := by
  obtain ⟨hfit, hruns⟩ := hr hb
  have keep : ∀ {q : QueueName} {st : Stage}, Fits c.msg.body q → st.Runs sh j →
      ∀ x ∈ [Agent.copy { c with queue := q, stage := st }], x.Runs j sh :=
    fun hq hst => List.forall_mem_singleton.mpr fun _ => ⟨hq, hst⟩
  have gone : ∀ exc, ∀ x ∈ c.leave exc, x.Runs j sh := by
    intro exc
    cases exc with
    | error p => exact keep hfit trivial
    | cancelled => simp [Copy.leave]
  cases hm with
  | @deliver l hst hql =>
    rw [hql] at hfit
    obtain rfl := hfit.home_eq
    refine ⟨h.ran_self, List.forall_mem_singleton.mpr fun _ => ⟨.inr (.inl hql), ?_⟩⟩
    rw [hb]
    exact ⟨trivial, trivial⟩
  | @due l d hst hql =>
    rw [hql] at hfit
    exact ⟨h.ran_self, keep hfit.due (by rw [hst]; trivial)⟩
  | deliverDlq _ hql => exact absurd hql hq
  | duplicate _ => exact ⟨h.ran_self, List.forall_mem_cons.mpr ⟨hr, List.forall_mem_singleton.mpr hr⟩⟩
  | @work w _ _ _ hst _ =>
    rw [hst] at hruns
    obtain ⟨pc, rfl⟩ := hruns.stitch
    exact absurd rfl (hidle pc hst)
  | @returned w _ _ hst _ =>
    rw [hst] at hruns
    obtain ⟨pc, rfl⟩ := hruns.stitch
    exact absurd rfl (hidle pc hst)
  | @raised w _ exc hst _ =>
    rw [hst] at hruns
    obtain ⟨pc, rfl⟩ := hruns.stitch
    exact ⟨h.ran_self, gone exc⟩
  | unwound hst _ =>
    rw [hst] at hruns
    exact hruns.elim
  | @routed p q m _ hroute =>
    obtain ⟨hbody, l, hql, hq'⟩ := Copy.route_copy hroute
    refine ⟨h.ran_self.log _, List.forall_mem_cons.mpr ⟨fun _ => ⟨hfit, trivial⟩,
      List.forall_mem_singleton.mpr fun _ => ⟨?_, trivial⟩⟩⟩
    rw [hql] at hfit
    show Fits m.body q
    rw [hbody]
    exact hfit.routed hq'
  | unrouted _ _ _ _ => exact ⟨h.ran_self, by simp⟩
  | acked _ => exact ⟨h.ran_self, by simp⟩
  | dlq hst _ =>
    rw [hst] at hruns
    exact hruns.elim
  | dlqReturned hst _ =>
    rw [hst] at hruns
    exact hruns.elim
  | dlqAcked hst =>
    rw [hst] at hruns
    exact hruns.elim
  | requeued _ => exact ⟨h.ran_self, keep hfit trivial⟩

theorem copy_ran (hkeys : ∀ k ∈ chunkKeys sh₀.db j, ∃ h, k = ttsKey h) (h : Held sh₀ j n sh)
    (hb : c.msg.body = .stitchReady j) (hq : c.queue ≠ .dlq) (hr : (Agent.copy c).Runs j sh)
    (ha : c.act cfg sh i = some (sh', outs)) :
    Ran sh₀ j (n + ((Agent.copy c).finalizes j sh i).toNat) sh sh' ∧ (∀ b ∈ outs, b.Runs j sh') ∧
      (ReturnsFrom j sh (.copy c) i → sh'.db.status j = some .completed) := by
  by_cases hw : ∃ pc, c.stage = .work (.stitch pc) ∧ i = .go
  · obtain ⟨pc, hst, rfl⟩ := hw
    have hf : (Agent.copy c).finalizes j sh .go = pc.finalizes j sh := by
      simp [Agent.finalizes, hst, hb]
    rw [hf]
    exact step_ran hkeys h hb hr hst ha
  · have hidle : ∀ pc, c.stage = .work (.stitch pc) → i ≠ .go := fun pc hst hi => hw ⟨pc, hst, hi⟩
    have none : ∀ pc, ¬ StitchesAt j (.copy c) i pc := by
      rintro pc ⟨c', hc, _, hst, hi⟩
      cases hc
      exact hidle pc hst hi
    have hf : (Agent.copy c).finalizes j sh i = false := by
      by_contra hx
      exact none _ (finalizes_elim (Bool.not_eq_false _ ▸ hx)).1
    obtain ⟨hran, houts⟩ := idle_ran h hb hq hr hidle (act_moves ha)
    rw [hf]
    exact ⟨hran, houts, fun ⟨pc, _, _, hs, _⟩ => absurd hs (none pc)⟩

end Copy

/-! ## Every run of the runs -/

/-- The bytes of the asset: the chunks of the `DONE` tasks in the order of their blocks. -/
def AssetOf (sh : Shared) (j : String) (bytes : ByteArray) : Prop :=
  ∃ ts parts, ts.Perm ((sh.db.tasksOf j).filter fun t => t.status = .done) ∧
    (ts.Pairwise fun a b => a.blockIndex ≤ b.blockIndex) ∧ List.Forall₂ (Chunk sh) ts parts ∧
    bytes.data.toList = parts.flatMap fun part => part.data.toList

/-- What the steps taken so far have in common, and where they leave the stores. -/
structure Finishing (sh₀ : Shared) (j : String) (bytes : ByteArray)
    (hist : List (Taken Shared Agent Choice)) (sh : Shared) : Prop where
  held : Held sh₀ j (finalizations j hist) sh
  wrote : ∀ t ∈ hist, WritesOut j t.agent t.choice → t.after.objects (outKey j) = some bytes
  only : ∀ t ∈ hist, ¬ WritesOut j t.agent t.choice →
    t.after.objects (outKey j) = t.before.objects (outKey j)
  returned : ∀ t ∈ hist, ReturnsFrom j t.before t.agent t.choice →
    Completed t.after j ∧ t.after.objects (outKey j) = some bytes
  ended : (∃ t ∈ hist, ReturnsFrom j t.before t.agent t.choice) → sh.db.status j = some .completed
  rows : ∀ t ∈ hist, t.agent.carries (.stitchReady j) → t.after.db.tasks = t.before.db.tasks

section Run

variable {cfg : Settings} {sh₀ sh sh' : Shared} {j : String} {n : Nat}
  {hist : List (Taken Shared Agent Choice)}

theorem Held.completed (h : Held sh₀ j n sh) (hc : sh.db.status j = some .completed) :
    Completed sh j ∧ n = 1 := by
  obtain ⟨job, hg, hrow⟩ := h.row
  rw [Db.status, hg, Option.map_some, Option.some.injEq] at hc
  rcases hrow with ⟨_, hst | hst⟩ | ⟨h1, hst, hkey⟩
  · rw [hc] at hst
    cases hst
  · rw [hc] at hst
    cases hst
  · exact ⟨⟨job, hg, hst, hkey⟩, h1⟩

/-- The chunks have not changed since the start. -/
theorem Held.parts_eq {parts parts' : List ByteArray} (h : Held sh₀ j n sh)
    (hparts : (chunkKeys sh₀.db j).map sh₀.objects = parts.map some)
    (hparts' : (chunkKeys sh.db j).map sh.objects = parts'.map some) : parts' = parts := by
  rw [h.keys, List.map_congr_left h.chunks, hparts] at hparts'
  exact (List.map_injective_iff.mpr (Option.some_injective _) hparts').symm

/-- A completed job has its asset. -/
theorem Held.written {parts : List ByteArray} (h : Held sh₀ j n sh)
    (hparts : (chunkKeys sh₀.db j).map sh₀.objects = parts.map some)
    (hc : sh.db.status j = some .completed) : sh.objects (outKey j) = some (joinBytes parts) := by
  obtain ⟨parts', hparts', hout⟩ := h.asset (h.completed hc).2
  rw [hout, h.parts_eq hparts hparts']

theorem stored_parts {f : String → Option ByteArray} {keys : List String}
    (h : ∀ k ∈ keys, ∃ b, f k = some b) : ∃ parts : List ByteArray, keys.map f = parts.map some := by
  induction keys with
  | nil => exact ⟨[], rfl⟩
  | cons k keys ih =>
    obtain ⟨b, hb⟩ := h k (by simp)
    obtain ⟨parts, hparts⟩ := ih fun x hx => h x (by simp [hx])
    exact ⟨b :: parts, by rw [List.map_cons, List.map_cons, hb, hparts]⟩

/-- The chunks of a settled job: their keys, and what they hold. -/
theorem Settled.chunks (h : Settled sh j) : (∀ k ∈ chunkKeys sh.db j, ∃ x, k = ttsKey x) ∧
    ∃ parts : List ByteArray, (chunkKeys sh.db j).map sh.objects = parts.map some ∧
      AssetOf sh j (joinBytes parts) := by
  have hkey : ∀ t ∈ doneTasks sh.db j, ∃ x bytes, t.audioKey = some (ttsKey x) ∧
      sh.objects (ttsKey x) = some bytes := by
    intro t ht
    rw [doneTasks, List.mem_insertionSort, List.mem_filter, decide_eq_true_eq] at ht
    rcases h.tasks t ht.1 with hf | ⟨_, hd⟩
    · rw [ht.2] at hf
      cases hf
    · exact hd
  have hstored : ∀ k ∈ chunkKeys sh.db j, ∃ x bytes, k = ttsKey x ∧ sh.objects k = some bytes := by
    intro k hk
    obtain ⟨t, ht, hk⟩ := List.mem_filterMap.mp hk
    obtain ⟨x, bytes, hx, hb⟩ := hkey t ht
    rw [hk, Option.some.injEq] at hx
    exact ⟨x, bytes, hx, hx ▸ hb⟩
  obtain ⟨parts, hparts⟩ : ∃ parts : List ByteArray,
      (chunkKeys sh.db j).map sh.objects = parts.map some := by
    refine stored_parts fun k hk => ?_
    obtain ⟨_, bytes, _, hb⟩ := hstored k hk
    exact ⟨bytes, hb⟩
  refine ⟨fun k hk => ?_, parts, hparts, doneTasks sh.db j, parts, ?_, ?_, ?_, joinBytes_toList parts⟩
  · obtain ⟨x, _, hx, _⟩ := hstored k hk
    exact ⟨x, hx⟩
  · exact List.perm_insertionSort _ _
  · have htotal : Std.Total fun a b : Task => a.blockIndex ≤ b.blockIndex :=
      ⟨fun a b => Nat.le_total a.blockIndex b.blockIndex⟩
    have htrans : IsTrans Task fun a b => a.blockIndex ≤ b.blockIndex :=
      ⟨fun _ _ _ hab hbc => Nat.le_trans hab hbc⟩
    exact List.pairwise_insertionSort _ _
  · refine chunks_of_keys (fun t ht => ?_) hparts
    obtain ⟨x, _, hx, _⟩ := hkey t ht
    rw [hx]
    simp

/-- What a run that writes has in its hands. -/
theorem writes_parts {c : Copy} {i : Choice} {parts parts' : List ByteArray} {outs : List Agent}
    (h : Held sh₀ j n sh) (hparts : (chunkKeys sh₀.db j).map sh₀.objects = parts.map some)
    (hr : (Agent.copy c).Runs j sh) (hw : StitchesAt j (.copy c) i (.putFinal parts'))
    (ha : c.act cfg sh i = some (sh', outs)) :
    sh'.objects (outKey j) = some (joinBytes parts) := by
  obtain ⟨c', hc, hb, hst, rfl⟩ := hw
  cases hc
  obtain ⟨_, hruns⟩ := hr hb
  rw [hst] at hruns
  have hfan : (chunkKeys sh.db j).map sh.objects = parts'.map some := hruns.2
  obtain rfl := h.parts_eq hparts hfan
  simp only [Copy.act, hst, hb, Work.step, stitchStep, Next.map, emit] at ha
  cases ha
  exact Function.update_self ..

/-- Only the write of a run changes the output object. -/
theorem unwritten {c : Copy} {i : Choice} {outs : List Agent} (hb : c.msg.body = .stitchReady j)
    (hw : ¬ WritesOut j (.copy c) i) (ha : c.act cfg sh i = some (sh', outs)) :
    sh'.objects (outKey j) = sh.objects (outKey j) := by
  rcases act_out (a := .copy c) ha j with hsame | ⟨parts, ⟨c', hc, _, hst⟩, _⟩
  · exact hsame
  · cases hc
    cases i with
    | go => exact absurd ⟨parts, c, rfl, hb, hst, rfl⟩ hw
    | duplicate => simp [Copy.act, hst] at ha
    | _ =>
      simp only [Copy.act, hst, Option.some.injEq, Prod.mk.injEq] at ha
      rw [← ha.1]

/-- Taking one more step into account. -/
theorem Finishing.snoc {bytes : ByteArray} {a : Agent} {i : Choice}
    (h : Finishing sh₀ j bytes hist sh)
    (hran : Ran sh₀ j (finalizations j hist + (a.finalizes j sh i).toNat) sh sh')
    (hw : WritesOut j a i → sh'.objects (outKey j) = some bytes)
    (hn : ¬ WritesOut j a i → sh'.objects (outKey j) = sh.objects (outKey j))
    (hret : ReturnsFrom j sh a i → sh'.db.status j = some .completed)
    (hasset : sh'.db.status j = some .completed → sh'.objects (outKey j) = some bytes) :
    Finishing sh₀ j bytes (⟨sh, a, i, sh'⟩ :: hist) sh' where
  held := by
    have hcount : finalizations j (⟨sh, a, i, sh'⟩ :: hist) =
        finalizations j hist + (a.finalizes j sh i).toNat := by
      simp only [finalizations, List.countP_cons]
      cases a.finalizes j sh i <;> rfl
    rw [hcount]
    exact hran.held
  wrote := List.forall_mem_cons.mpr ⟨hw, h.wrote⟩
  only := List.forall_mem_cons.mpr ⟨hn, h.only⟩
  returned := List.forall_mem_cons.mpr
    ⟨fun hr => ⟨(hran.held.completed (hret hr)).1, hasset (hret hr)⟩, h.returned⟩
  ended := by
    rintro ⟨t, ht, hr⟩
    rcases List.mem_cons.mp ht with rfl | ht
    · exact hret hr
    · exact hran.advances.completed (h.ended ⟨t, ht, hr⟩)
  rows := List.forall_mem_cons.mpr ⟨fun _ => hran.rows, h.rows⟩

/-- A step that is not one of a run. -/
theorem Finishing.other {bytes : ByteArray} {a : Agent} {i : Choice}
    (h : Finishing sh₀ j bytes hist sh) (hu : Untouched sh sh' j)
    (ha : ¬ a.carries (.stitchReady j)) :
    Finishing sh₀ j bytes (⟨sh, a, i, sh'⟩ :: hist) sh' := by
  have none : ∀ pc, ¬ StitchesAt j a i pc := by
    rintro pc ⟨c, rfl, hb, _⟩
    exact ha hb
  have hf : a.finalizes j sh i = false := by
    by_contra hx
    exact none _ (finalizes_elim (Bool.not_eq_false _ ▸ hx)).1
  have hcount : finalizations j (⟨sh, a, i, sh'⟩ :: hist) = finalizations j hist := by
    simp [finalizations, hf]
  refine ⟨by rw [hcount]; exact hu.held h.held, ?_, ?_, ?_, ?_, ?_⟩
  · exact List.forall_mem_cons.mpr ⟨fun ⟨_, hs⟩ => absurd hs (none _), h.wrote⟩
  · exact List.forall_mem_cons.mpr ⟨fun _ => hu.out, h.only⟩
  · exact List.forall_mem_cons.mpr ⟨fun ⟨_, _, _, hs, _⟩ => absurd hs (none _), h.returned⟩
  · rintro ⟨t, ht, hr⟩
    rcases List.mem_cons.mp ht with rfl | ht
    · obtain ⟨_, _, _, hs, _⟩ := hr
      exact absurd hs (none _)
    · exact hu.advances.completed (h.ended ⟨t, ht, hr⟩)
  · exact List.forall_mem_cons.mpr ⟨fun hc => absurd hc ha, h.rows⟩

/-- The environment writes manuscripts and Redis keys. -/
theorem env_untouched {x : Env} {outs : List Agent} (hkeys : ∀ k ∈ chunkKeys sh.db j, ∃ x, k = ttsKey x)
    (he : env sh x = some (sh', outs)) : Untouched sh sh' j := by
  cases env_moves he with
  | @posted k m cb _ =>
    refine ⟨rfl, rfl, ?_, putObject_of_ne sh m.toUTF8 (rawKey_ne_outKey k j).symm⟩
    intro key hk
    obtain ⟨x, rfl⟩ := hkeys key hk
    exact putObject_of_ne sh m.toUTF8 (rawKey_ne_ttsKey k x).symm
  | sweeping _ => exact .of_eq rfl rfl
  | redis _ => exact .of_eq rfl rfl

end Run

/-- The runs on `j` have not begun. -/
def Unstarted (s : State) (j : String) : Prop :=
  ∀ c, .copy c ∈ s.agents → c.msg.body = .stitchReady j →
    c.stage = .ready ∧ Fits c.msg.body c.queue

theorem story_finishing {cfg : Settings} {j : String} {s₀ s : State}
    {hist : List (Taken Shared Agent Choice)} {parts : List ByteArray}
    (hset : Settled s₀.shared j) (hun : Unstarted s₀ j)
    (hparts : (chunkKeys s₀.shared.db j).map s₀.shared.objects = parts.map some)
    (ht : Story (system cfg) (Alone j) s₀ hist s) :
    Finishing s₀.shared j (joinBytes parts) hist s.shared := by
  have hkeys := hset.chunks.1
  obtain ⟨job, hg, hst⟩ := Option.map_eq_some_iff.mp hset.generating
  refine (Story.rely (G := Finishing s₀.shared j (joinBytes parts)) (A := Agent.Runs j)
    (R := Advances j) ?_ ?_ ?_ ?_ (fun hadv hr => hr.mono hadv) ht).1
  · have hheld : Held s₀.shared j 0 s₀.shared :=
      ⟨rfl, fun _ _ => rfl, ⟨job, hg, .inl ⟨rfl, .inl hst⟩⟩, fun h01 => absurd h01 Nat.zero_ne_one⟩
    exact ⟨hheld, by simp, by simp, by simp, by simp, by simp⟩
  · intro a ha
    cases a with
    | copy c =>
      intro hb
      obtain ⟨hready, hfit⟩ := hun c ha hb
      exact ⟨hfit, by rw [hready]; trivial⟩
    | create k cb pc => trivial
    | sweep stale => trivial
  · intro hist s a i sh' outs hf hr hact hd
    have other : ¬ a.carries (.stitchReady j) → Untouched s.shared sh' j →
        (∀ b ∈ outs, b.Runs j sh') → Finishing s₀.shared j (joinBytes parts)
          (⟨s.shared, a, i, sh'⟩ :: hist) sh' ∧ Advances j s.shared sh' ∧ ∀ b ∈ outs, b.Runs j sh' :=
      fun hc hu houts => ⟨hf.other hu hc, hu.advances, houts⟩
    cases a with
    | copy c =>
      by_cases hb : c.msg.body = .stitchReady j
      · obtain ⟨hran, houts, hret⟩ := copy_ran hkeys hf.held hb (hd.1 hb) hr hact
        refine ⟨hf.snoc hran ?_ (fun hw => unwritten hb hw hact) hret (hran.held.written hparts),
          hran.advances, houts⟩
        rintro ⟨parts', hw⟩
        exact writes_parts hf.held hparts hr hw hact
      · exact other hb (hd.2 hb) (others_runs hb (act_moves hact))
    | create k cb pc =>
      rcases act_cases hact with ⟨c, hc, _⟩ | hreq
      · cases hc
      · exact other (fun h => h) hd
          (request_outs (fun _ _ _ => trivial) (fun _ => trivial) (fun _ hb => by cases hb) hreq)
    | sweep stale =>
      rcases act_cases hact with ⟨c, hc, _⟩ | hreq
      · cases hc
      · exact other (fun h => h) hd
          (request_outs (fun _ _ _ => trivial) (fun _ => trivial) (fun _ hb => by cases hb) hreq)
  · intro hist s x sh' outs hf henv _
    have hu := env_untouched (j := j) (by rw [hf.held.keys]; exact hkeys) henv
    refine ⟨⟨hu.held hf.held, hf.wrote, hf.only, hf.returned, fun h => hu.advances.completed (hf.ended h),
      hf.rows⟩, hu.advances, env_outs (fun _ _ _ => trivial) (fun _ => trivial) henv⟩

/-- However the runs of `handle_stitch` interleave, crash and start again: every write to the output
object is the concatenation of the `DONE` chunks in block order, and no other step touches the
object; a run that returns leaves the job `COMPLETED` with its key and with that object, and so it
stays; `finalize_job` returns `True` at most once, and exactly once when some run has returned; and
no task row changes. -/
theorem finalisation_idempotent {cfg : Settings} {j : String} {s₀ s : State}
    {hist : List (Taken Shared Agent Choice)} (hset : Settled s₀.shared j) (hun : Unstarted s₀ j)
    (ht : Story (system cfg) (Alone j) s₀ hist s) :
    (∃ bytes, AssetOf s₀.shared j bytes ∧
      (∀ t ∈ hist, WritesOut j t.agent t.choice → t.after.objects (outKey j) = some bytes) ∧
      (∀ t ∈ hist, ¬ WritesOut j t.agent t.choice →
        t.after.objects (outKey j) = t.before.objects (outKey j)) ∧
      ∀ t ∈ hist, ReturnsFrom j t.before t.agent t.choice →
        Completed t.after j ∧ t.after.objects (outKey j) = some bytes ∧
        Completed s.shared j ∧ s.shared.objects (outKey j) = some bytes ∧
        finalizations j hist = 1) ∧
    finalizations j hist ≤ 1 ∧
    (∀ t ∈ hist, t.agent.carries (.stitchReady j) → t.after.db.tasks = t.before.db.tasks) ∧
    s.shared.db.tasksOf j = s₀.shared.db.tasksOf j := by
  obtain ⟨_, parts, hparts, hasset⟩ := hset.chunks
  have hf := story_finishing hset hun hparts ht
  refine ⟨⟨_, hasset, hf.wrote, hf.only, ?_⟩, ?_, hf.rows, hf.held.tasks⟩
  · intro t htm hr
    have hst := hf.ended ⟨t, htm, hr⟩
    obtain ⟨hafter, hwritten⟩ := hf.returned t htm hr
    obtain ⟨hc, hn⟩ := hf.held.completed hst
    exact ⟨hafter, hwritten, hc, hf.held.written hparts hst, hn⟩
  · obtain ⟨job, _, hrow⟩ := hf.held.row
    rcases hrow with ⟨h0, _⟩ | ⟨h1, _⟩ <;> omega

/-! ## Two runs on a partial drama -/

/-- A run of `handle_stitch` on the job `j`. -/
def stitchRun (st : Stage) : Copy where
  queue := .live .stitch
  msg := publishMessage (.stitchReady "j")
  stage := st

/-- The second of three blocks is `FAILED`, the others are `DONE`; two copies of `StitchReady` are
waiting. -/
def partialDrama : State where
  shared :=
    { db :=
        { jobs := ⟨[{ jobId := "j", status := .generating, manuscriptKey := rawKey "j" }], by decide⟩
          tasks := ⟨[{ taskId := "j-0", jobId := "j", blockIndex := 0, blockHash := "h", status := .done,
                       audioKey := some (ttsKey "h") },
                     { taskId := "j-1", jobId := "j", blockIndex := 1, blockHash := "h'",
                       status := .failed },
                     { taskId := "j-2", jobId := "j", blockIndex := 2, blockHash := "h''",
                       status := .done, audioKey := some (ttsKey "h''") }], by decide⟩ }
      objects := fun k =>
        if k = ttsKey "h" then some (ttsFakeAudio "A")
        else if k = ttsKey "h''" then some (ttsFakeAudio "B")
        else none }
  agents := [.copy (stitchRun .ready), .copy (stitchRun .ready)]

theorem partialDrama_settled : Settled partialDrama.shared "j" where
  generating := by decide
  tasks := by
    have hrows : partialDrama.shared.db.tasksOf "j" = partialDrama.shared.db.tasks.rows := by decide
    rw [hrows]
    simp [partialDrama]

theorem partialDrama_unstarted : Unstarted partialDrama "j" := by
  intro c hc _
  obtain rfl : c = stitchRun .ready := by simpa [partialDrama] using hc
  exact ⟨rfl, .inr (.inl rfl)⟩

/-- Only runs on `j` step. -/
def onlyRuns : Move Agent Choice Env → Bool
  | .act (.copy c) _ => decide (c.msg.body = .stitchReady "j") && decide (c.queue ≠ .dlq)
  | _ => false

theorem onlyRuns_alone {s : State} {m : Move Agent Choice Env} {sh : Shared}
    (h : onlyRuns m = true) : Alone "j" s m sh := by
  unfold onlyRuns at h
  split at h
  · obtain ⟨hb, hq⟩ := Bool.and_eq_true_iff.mp h
    exact ⟨fun _ => of_decide_eq_true hq, fun hne => absurd (of_decide_eq_true hb) hne⟩
  · cases h

/-- A run that has all chunks in its hands goes on and writes. -/
def putsOut (t : Taken Shared Agent Choice) : Bool :=
  match t.agent, t.choice with
  | .copy c, .go =>
    match c.stage with
    | .work (.stitch (.putFinal _)) => decide (c.msg.body = .stitchReady "j")
    | _ => false
  | _, _ => false

theorem putsOut_writes {t : Taken Shared Agent Choice} (h : putsOut t = true) :
    WritesOut "j" t.agent t.choice := by
  unfold putsOut at h
  split at h
  · rename_i c ha hi
    split at h
    · rename_i parts hst
      exact ⟨parts, c, ha, of_decide_eq_true h, hst, hi⟩
    · cases h
  · cases h

set_option maxRecDepth 4000 in
/-- Both runs write the same object; the second one finalises and crashes before its webhook; the
first one loses, returns, and the object is still there. -/
theorem finalisation_idempotent_partialDrama :
    ∃ hist s bytes, Story (system {}) (Alone "j") partialDrama hist s ∧
      hist.countP putsOut = 2 ∧
      (∀ t ∈ hist, putsOut t = true → t.after.objects (outKey "j") = some bytes) ∧
      (∀ t ∈ hist, ¬ WritesOut "j" t.agent t.choice →
        t.after.objects (outKey "j") = t.before.objects (outKey "j")) ∧
      finalizations "j" hist = 1 ∧ Completed s.shared "j" ∧
      s.shared.objects (outKey "j") = some bytes ∧
      bytes.data.toList = twoBlocksAudio.toUTF8.data.toList ∧
      s.shared.db.tasksOf "j" = partialDrama.shared.db.tasksOf "j" := by
  obtain ⟨hist, s, ht, htwo, hbytes, hp⟩ : ∃ hist s, Story (system {}) (Alone "j") partialDrama hist s ∧
      hist.countP putsOut = 2 ∧
      (s.shared.objects (outKey "j")).map (fun bytes => bytes.data.toList) =
        some twoBlocksAudio.toUTF8.data.toList ∧
      (hist.head?.any fun t =>
        decide (t.agent = .copy (stitchRun (.work (.stitch .finalize)))) && decide (t.choice = .go) &&
          !(finalizeJob t.before.db "j" (outKey "j")).2) = true :=
    System.exists_story (d := fun _ m _ => onlyRuns m) (fun _ _ _ h => onlyRuns_alone h)
      (List.replicate 9 (.act 0 .go) ++ .act 1 .go :: List.replicate 9 (.act 0 .go) ++
        [.act 0 .crash, .act 1 .go]) (by decide +kernel)
  cases hist with
  | nil => cases hp
  | cons t hist =>
    simp only [List.head?_cons, Option.any_some, Bool.and_eq_true, decide_eq_true_eq,
      Bool.not_eq_true'] at hp
    obtain ⟨⟨ha, hi⟩, hlost⟩ := hp
    have hret : ReturnsFrom "j" t.before t.agent t.choice := by
      refine ⟨.finalize, _, _, ⟨_, ha, rfl, rfl, hi⟩, if_neg ?_⟩
      exact Bool.eq_false_iff.mp hlost
    obtain ⟨⟨bytes, _, hwrote, honly, hall⟩, _, _, htasks⟩ :=
      finalisation_idempotent partialDrama_settled partialDrama_unstarted ht
    obtain ⟨_, _, hc, hout, hn⟩ := hall t (by simp) hret
    rw [hout, Option.map_some, Option.some.injEq] at hbytes
    exact ⟨t :: hist, s, bytes, ht, htwo, fun t' ht' hp => hwrote t' ht' (putsOut_writes hp), honly, hn,
      hc, hout, hbytes, htasks⟩

end Pipeline
end AudioEngine
