import AudioEngine.Pipeline.Data

/-!
# AudioEngine.Pipeline.Delivery

What becomes of a message in a run.

`Agent.loses` are the steps by which `ack_last` drops a message whose handler has not returned, and
`Agent.deadLettered` those by which it gives a message up to the dead-letter queue. Without losses a
message leaves the broker only after its handler has returned (`Passes`); without dead letters the
dead-letter consumer never runs (`reach_offDlq`).
-/

namespace AudioEngine
namespace Pipeline

open Relational Interleave

/-- The step drops the message: its handler is cancelled, or the routing publish fails. -/
def Copy.loses (cfg : Settings) (c : Copy) (i : Choice) : Bool :=
  match c.stage, i with
  | .work _, .cancel => true
  | .unwind _ _, .cancel => true
  | .routing _, .cancel => true
  | .routing _, .fail _ => true
  | .routing p, .go => (c.route cfg p).isNone
  | _, _ => false

def Agent.loses (cfg : Settings) (a : Agent) (i : Choice) : Bool :=
  match a with
  | .copy c => c.loses cfg i
  | _ => false

/-- The step sends its message to the dead-letter queue. -/
def Agent.deadLettered (cfg : Settings) (a : Agent) (i : Choice) : Bool :=
  match a with
  | .copy c =>
    match c.stage, i with
    | .routing p, .go => (c.route cfg p).any fun r => decide (r.1 = .dlq)
    | _, _ => false
  | _ => false

/-! ## The steps of `ack_last`

`Copy.act` takes `ack_last` apart; `ackLast` is the delivery as a whole. They agree on what is
lost. -/

/-- The delivery a step decides the end of. -/
def Copy.delivery (c : Copy) (i : Choice) : Option Delivery :=
  match c.stage, i with
  | .work _, .cancel => some { work := .cancelled }
  | .unwind _ _, .cancel => some { work := .cancelled }
  | .routing p, .cancel => some { work := .raised p, publish := .raised false }
  | .routing p, .fail _ => some { work := .raised p, publish := .raised false }
  | .routing p, .go => some { work := .raised p }
  | _, _ => none

section AckLast

variable {cfg : Settings} {c : Copy} {i : Choice} {l : Live} {d : Delivery}

theorem kept_publish {β : Type} {m copy : Message β} {q : QueueName} {rest : List (BrokerOp β)}
    (hb : copy.body = m.body) (hq : q.isLive = false) : Kept m d (.publish q copy :: rest) :=
  fun _ => .inr ⟨q, copy, List.mem_cons_self, hb, hq⟩

/-- A routing publish that fails loses the message. -/
theorem not_kept_unpublished (cfg : Settings) (l : Live) (m : Message Event) (p : Bool) :
    ¬ Kept m { work := .raised p, publish := .raised false }
      (ackLast cfg l m { work := .raised p, publish := .raised false }) := by
  have hops : ackLast cfg l m { work := .raised p, publish := .raised false } = [.reject] :=
    ackLastOps_leave (d := { work := .raised p, publish := .raised false }) cfg l m (by simp)
      fun _ _ _ => rfl
  rw [hops]
  exact not_kept_reject (by simp)

theorem route_lost_iff (hq : c.queue = .live l) (p : Bool) :
    (c.route cfg p).isNone = true ↔
      ¬ Kept c.msg { work := .raised p } (ackLast cfg l c.msg { work := .raised p }) := by
  simp only [Copy.route, hq, ackLast, ackLastOps]
  cases hds : cfg.retryDelays with
  | none => exact iff_of_true rfl (not_kept_reject (by simp))
  | some ds =>
    cases hr : routeRetryOrDlq c.msg l (effectiveMaxRetries cfg p) ds with
    | error e =>
      simp only [hr]
      exact iff_of_true rfl (not_kept_reject (by simp))
    | ok r =>
      obtain ⟨hb, hq'⟩ := routeRetryOrDlq_copy hr
      simp only [hr]
      refine iff_of_false (by simp [Except.toOption]) (not_not.mpr (kept_publish hb ?_))
      rcases hq' with h | ⟨d, h⟩ <;> rw [h] <;> rfl

/-- A step loses the message exactly when `ack_last` does not keep that delivery. -/
theorem loses_iff (hq : c.queue = .live l) (hd : c.delivery i = some d) :
    c.loses cfg i = true ↔ ¬ Kept c.msg d (ackLast cfg l c.msg d) := by
  simp only [Copy.delivery] at hd
  split at hd
  · rename_i hst
    cases hd
    exact iff_of_true (by simp [Copy.loses, hst]) (not_kept_reject (by simp))
  · rename_i hst
    cases hd
    exact iff_of_true (by simp [Copy.loses, hst]) (not_kept_reject (by simp))
  · rename_i p hst
    cases hd
    exact iff_of_true (by simp [Copy.loses, hst]) (not_kept_unpublished cfg l c.msg p)
  · rename_i p _ hst
    cases hd
    exact iff_of_true (by simp [Copy.loses, hst]) (not_kept_unpublished cfg l c.msg p)
  · rename_i p hst
    cases hd
    rw [← route_lost_iff hq]
    simp [Copy.loses, hst]
  · cases hd

end AckLast

/-! ## Without dead letters -/

def Stage.offDlq : Stage → Prop
  | .dlq _ => False
  | .dlqAcking => False
  | _ => True

/-- The agent is not a message of the dead-letter queue. -/
def Agent.offDlq : Agent → Prop
  | .copy c => c.queue ≠ .dlq ∧ c.stage.offDlq
  | _ => True

section OffDlq

variable {cfg : Settings} {sh sh' : Shared} {a : Agent} {i : Choice} {outs : List Agent}

theorem offDlq_emit (pub : Option (Live × Event)) : ∀ b ∈ (emit sh pub).2, b.offDlq := by
  intro b hb
  cases pub with
  | none => cases hb
  | some p =>
    rw [emit, List.mem_singleton] at hb
    subst hb
    exact ⟨by simp, trivial⟩

theorem offDlq_leave {c : Copy} (hq : c.queue ≠ .dlq) (exc : Raised) :
    ∀ b ∈ c.leave exc, b.offDlq := by
  cases exc with
  | error p =>
    rw [Copy.leave, List.forall_mem_singleton]
    exact ⟨hq, trivial⟩
  | cancelled => simp [Copy.leave]

theorem moves_offDlq {c : Copy} (h : (Agent.copy c).offDlq)
    (hc : Agent.deadLettered cfg (.copy c) i = false) (hm : Moves cfg sh c i sh' outs) : ∀ b ∈ outs, b.offDlq := by
  obtain ⟨hq, hoff⟩ := h
  cases hm with
  | deliver hst _ =>
    rw [List.forall_mem_singleton]
    exact ⟨hq, trivial⟩
  | due hst _ =>
    rw [List.forall_mem_singleton]
    exact ⟨by simp, hoff⟩
  | deliverDlq _ hdlq => exact absurd hdlq hq
  | duplicate hst =>
    rw [List.forall_mem_cons, List.forall_mem_singleton]
    exact ⟨⟨hq, hoff⟩, ⟨hq, hoff⟩⟩
  | work hst _ =>
    rw [List.forall_mem_cons]
    exact ⟨⟨hq, trivial⟩, offDlq_emit _⟩
  | returned hst _ =>
    rw [List.forall_mem_cons]
    exact ⟨⟨hq, trivial⟩, offDlq_emit _⟩
  | @raised w i exc hst _ =>
    unfold Copy.raiseAt
    split
    · rw [List.forall_mem_singleton]
      exact ⟨hq, trivial⟩
    · exact offDlq_leave hq exc
  | unwound hst _ => exact offDlq_leave hq _
  | @routed p q m hst hr =>
    rw [List.forall_mem_cons, List.forall_mem_singleton]
    refine ⟨⟨hq, trivial⟩, ?_, trivial⟩
    rintro rfl
    simp [Agent.deadLettered, hst, hr] at hc
  | unrouted _ _ _ _ => simp
  | acked _ => simp
  | dlq hst _ => rw [hst] at hoff; exact hoff.elim
  | dlqReturned hst _ => rw [hst] at hoff; exact hoff.elim
  | dlqAcked _ => simp
  | requeued _ =>
    rw [List.forall_mem_singleton]
    exact ⟨hq, trivial⟩

theorem act_offDlq (h : a.offDlq) (hc : a.deadLettered cfg i = false)
    (hact : act cfg sh a i = some (sh', outs)) : ∀ b ∈ outs, b.offDlq := by
  rcases act_cases hact with ⟨c, rfl, hm⟩ | hr
  · exact moves_offDlq h hc hm
  · exact request_outs (fun _ _ _ => trivial) (fun _ => trivial) (fun _ => ⟨by simp, trivial⟩) hr

theorem reach_offDlq {C : Shared → Agent → Choice → Prop} {s : State}
    (hC : ∀ sh a i, C sh a i → a.deadLettered cfg i = false) (h : Reach (system cfg) C s) :
    ∀ a ∈ s.agents, a.offDlq := by
  refine Reach.each (by simp [system]) ?_ ?_ h
  · intro sh a i sh' outs hc hoff hact
    exact act_offDlq hoff (hC _ _ _ hc) hact
  · intro sh x sh' outs henv
    exact env_outs (fun _ _ _ => trivial) (fun _ => trivial) henv

theorem offDlq_not_deadLetters (h : a.offDlq) : ¬ DeadLetters a := by
  rintro ⟨c, pc, rfl, hst⟩
  have := h.2
  rw [hst] at this
  exact this

end OffDlq

/-! ## Without losses -/

/-- The message has a handler to start, or to start again. -/
def Stage.waiting : Stage → Prop
  | .ready => True
  | .unwind _ _ => True
  | .routing _ => True
  | .work (.parse .validate) => True
  | .work (.tts .validate) => True
  | .work (.stitch .validate) => True
  | .dlq .resolve => True
  | _ => False

/-- What becomes of a message in the dead-letter consumer. -/
inductive DlqPasses (sh : Shared) (c : Copy) (i : Choice) (sh' : Shared) (outs : List Agent) :
    Prop where
  | goto {pc pc' : DlqPc} {sh₁ : Shared} {pub : Option (Live × Event)} : c.stage = .dlq pc →
      dlqStep sh c.msg.body pc = .goto sh₁ pc' pub → sh' = (emit sh₁ pub).1 →
      outs = .copy { c with stage := .dlq pc' } :: (emit sh₁ pub).2 → DlqPasses sh c i sh' outs
  | done {pc : DlqPc} {sh₁ : Shared} {pub : Option (Live × Event)} : c.stage = .dlq pc → i = .go →
      dlqStep sh c.msg.body pc = .done sh₁ pub → sh' = (emit sh₁ pub).1 →
      outs = .copy { c with stage := .dlqAcking } :: (emit sh₁ pub).2 → DlqPasses sh c i sh' outs
  | acked : c.stage = .dlqAcking → DlqPasses sh c i sh' outs

/-- What becomes of a message that is not lost: it goes on waiting for its handler, or the handler
goes on, or the handler has returned. -/
inductive Passes (cfg : Settings) (sh : Shared) (c : Copy) (i : Choice) (sh' : Shared)
    (outs : List Agent) : Prop where
  | waits {b : Copy} : .copy b ∈ outs → b.msg.body = c.msg.body → b.stage.waiting →
      Passes cfg sh c i sh' outs
  | goto {w w' : Work} {sh₁ : Shared} {pub : Option (Live × Event)} : c.stage = .work w →
      w.step cfg sh c.msg.body = .goto sh₁ w' pub → sh' = (emit sh₁ pub).1 →
      outs = .copy { c with stage := .work w' } :: (emit sh₁ pub).2 → Passes cfg sh c i sh' outs
  | done {w : Work} {sh₁ : Shared} {pub : Option (Live × Event)} : c.stage = .work w →
      w.step cfg sh c.msg.body = .done sh₁ pub → sh' = (emit sh₁ pub).1 →
      outs = .copy { c with stage := .acking } :: (emit sh₁ pub).2 → Passes cfg sh c i sh' outs
  | acked : c.stage = .acking → Passes cfg sh c i sh' outs
  | dlq : DlqPasses sh c i sh' outs → Passes cfg sh c i sh' outs

theorem Stage.waiting.ne_acking {st : Stage} (h : st.waiting) : st ≠ .acking := by
  rintro rfl
  exact h

theorem Stage.waiting.ne_dlqAcking {st : Stage} (h : st.waiting) : st ≠ .dlqAcking := by
  rintro rfl
  exact h

theorem Stage.waiting.ne_publishTts {st : Stage} (h : st.waiting) (n i : Nat) :
    st ≠ .work (.parse (.publishTts n i)) := by
  rintro rfl
  exact h

section Passes

variable {cfg : Settings} {sh sh' : Shared} {c : Copy} {a : Agent} {i : Choice} {outs : List Agent}

theorem DlqPasses.on (h : DlqPasses sh c i sh' outs) : ¬ (Agent.copy c).offDlq := by
  rintro ⟨_, hoff⟩
  cases h with
  | goto hst _ _ _ => rw [hst] at hoff; exact hoff
  | done hst _ _ _ _ => rw [hst] at hoff; exact hoff
  | acked hst => rw [hst] at hoff; exact hoff

/-- No cancellation is pending in the `finally` of `_synthesize`. -/
def Agent.uncancelled : Agent → Prop
  | .copy c => ∀ text, c.stage ≠ .unwind text .cancelled
  | _ => True

theorem waiting_leave {exc : Raised} (hexc : exc ≠ .cancelled) :
    ∃ b, .copy b ∈ c.leave exc ∧ b.msg.body = c.msg.body ∧ b.stage.waiting := by
  cases exc with
  | error p => exact ⟨{ c with stage := .routing p }, by simp [Copy.leave], rfl, trivial⟩
  | cancelled => exact absurd rfl hexc

theorem waiting_raiseAt {w : Work} {exc : Raised} (hexc : exc ≠ .cancelled) :
    ∃ b, .copy b ∈ c.raiseAt w exc ∧ b.msg.body = c.msg.body ∧ b.stage.waiting := by
  unfold Copy.raiseAt
  split
  · rename_i text _
    exact ⟨{ c with stage := .unwind text exc }, by simp, rfl, trivial⟩
  · exact waiting_leave hexc

theorem waiting_start (l : Live) : (Stage.work (.start l)).waiting := by
  cases l <;> trivial

theorem moves_passes (hu : (Agent.copy c).uncancelled) (hl : Agent.loses cfg (.copy c) i = false)
    (hm : Moves cfg sh c i sh' outs) : Passes cfg sh c i sh' outs := by
  cases hm with
  | deliver _ _ => exact .waits List.mem_cons_self rfl (waiting_start _)
  | due hst _ => exact .waits List.mem_cons_self rfl (by rw [hst]; trivial)
  | deliverDlq _ _ => exact .waits List.mem_cons_self rfl trivial
  | duplicate hst => exact .waits List.mem_cons_self rfl (by rw [hst]; trivial)
  | work hst hstep => exact .goto hst hstep rfl rfl
  | returned hst hstep => exact .done hst hstep rfl rfl
  | @raised w i exc hst hexc =>
    have hne : exc ≠ .cancelled := by
      intro he
      simp [Agent.loses, Copy.loses, hst, hexc he] at hl
    obtain ⟨b, hb, hbody, hw⟩ := waiting_raiseAt (c := c) hne
    exact .waits hb hbody hw
  | @unwound text exc exc' i inflight hst hexc =>
    have hne : exc' ≠ .cancelled := by
      rcases hexc with rfl | hexc
      · rintro rfl
        exact hu text hst
      · intro he
        simp [Agent.loses, Copy.loses, hst, hexc he] at hl
    obtain ⟨b, hb, hbody, hw⟩ := waiting_leave (c := c) hne
    exact .waits hb hbody hw
  | @routed p q m hst hr =>
    exact .waits (b := { queue := q, msg := m }) (by simp) (Copy.route_copy hr).1 trivial
  | @unrouted p i hst hgo hcrash hdup =>
    cases i with
    | go => simp [Agent.loses, Copy.loses, hst, hgo rfl] at hl
    | fail b => simp [Agent.loses, Copy.loses, hst] at hl
    | cancel => simp [Agent.loses, Copy.loses, hst] at hl
    | crash => exact absurd rfl hcrash
    | duplicate => exact absurd rfl hdup
  | acked hst => exact .acked hst
  | dlq hst hstep => exact .dlq (.goto hst hstep rfl rfl)
  | dlqReturned hst hstep => exact .dlq (.done hst rfl hstep rfl rfl)
  | dlqAcked hst => exact .dlq (.acked hst)
  | requeued _ => exact .waits List.mem_cons_self rfl trivial

theorem uncancelled_emit (pub : Option (Live × Event)) : ∀ b ∈ (emit sh pub).2, b.uncancelled := by
  cases pub with
  | none => simp [emit]
  | some p => simp [emit, Agent.uncancelled]

theorem uncancelled_leave (exc : Raised) : ∀ b ∈ c.leave exc, b.uncancelled := by
  cases exc with
  | error p => simp [Copy.leave, Agent.uncancelled]
  | cancelled => simp [Copy.leave]

theorem moves_uncancelled (hl : Agent.loses cfg (.copy c) i = false)
    (hm : Moves cfg sh c i sh' outs) : ∀ b ∈ outs, b.uncancelled := by
  cases hm with
  | deliver _ _ => simp [Agent.uncancelled]
  | due hst _ => simp [Agent.uncancelled, hst]
  | deliverDlq _ _ => simp [Agent.uncancelled]
  | duplicate hst => simp [Agent.uncancelled, hst]
  | work _ _ =>
    rw [List.forall_mem_cons]
    exact ⟨by simp [Agent.uncancelled], uncancelled_emit _⟩
  | returned _ _ =>
    rw [List.forall_mem_cons]
    exact ⟨by simp [Agent.uncancelled], uncancelled_emit _⟩
  | @raised w i exc hst hexc =>
    unfold Copy.raiseAt
    split
    · rw [List.forall_mem_singleton]
      intro text he
      cases he
      simp [Agent.loses, Copy.loses, hst, hexc rfl] at hl
    · exact uncancelled_leave exc
  | unwound _ _ => exact uncancelled_leave _
  | routed _ _ => simp [Agent.uncancelled]
  | unrouted _ _ _ _ => simp
  | acked _ => simp
  | dlq _ _ =>
    rw [List.forall_mem_cons]
    exact ⟨by simp [Agent.uncancelled], uncancelled_emit _⟩
  | dlqReturned _ _ =>
    rw [List.forall_mem_cons]
    exact ⟨by simp [Agent.uncancelled], uncancelled_emit _⟩
  | dlqAcked _ => simp
  | requeued _ => simp [Agent.uncancelled]

variable {C : Shared → Agent → Choice → Prop} {s : State}

theorem reach_uncancelled (hC : ∀ sh a i, C sh a i → a.loses cfg i = false)
    (h : Reach (system cfg) C s) : ∀ a ∈ s.agents, a.uncancelled := by
  refine Reach.each (by simp [system]) ?_ ?_ h
  · intro sh a i sh' outs hc _ hact
    rcases act_cases hact with ⟨c, rfl, hm⟩ | hr
    · exact moves_uncancelled (hC _ _ _ hc) hm
    · exact request_outs (fun _ _ _ => trivial) (fun _ => trivial)
        (fun _ => by simp [Agent.uncancelled]) hr
  · intro sh x sh' outs henv
    exact env_outs (fun _ _ _ => trivial) (fun _ => trivial) henv

/-- In the runs without losses, every step of a message passes it on. -/
theorem reach_passes (hC : ∀ sh a i, C sh a i → a.loses cfg i = false) (h : Reach (system cfg) C s)
    (hc : .copy c ∈ s.agents) (hl : C s.shared (.copy c) i)
    (hact : act cfg s.shared (.copy c) i = some (sh', outs)) : Passes cfg s.shared c i sh' outs :=
  moves_passes (reach_uncancelled hC h _ hc) (hC _ _ _ hl) (act_moves hact)

end Passes

/-- `handle_tts` returns by announcing the barrier, unless the counter has not reached it. -/
theorem tts_returns {sh sh₁ : Shared} {j t : String} {pc : TtsPc} {pub : Option (Live × Event)}
    (h : ttsStep sh (.ttsRequested j t) pc = .done sh₁ pub) :
    pub = some (.stitch, .stitchReady j) ∨
      ∀ job, sh₁.db.jobs.get j = some job → job.pendingCount ≠ 0 := by
  cases pc with
  | complete key =>
    simp only [ttsStep, Event.jobId_ttsRequested, Event.taskId_ttsRequested] at h
    split at h
    · cases h
    · rename_i db r hc
      split at h
      · cases h
      · rename_i r
        split at h
        · cases h
        · rename_i hr
          cases h
          rcases completeTask_cases hc with ⟨hnone, _⟩ | ⟨_, job, _, hsome, hcl⟩
          · cases hnone
          · refine .inr ?_
            intro job' hg'
            replace hg' := (hcl.jobs j).symm.trans hg'
            rw [if_pos rfl] at hg'
            cases hg'
            rw [Option.some.inj hsome] at hr
            exact hr
  | reread =>
    simp only [ttsStep, Event.jobId_ttsRequested] at h
    split at h
    · rename_i hnone
      cases h
      refine .inr ?_
      intro job hg
      rw [hnone] at hg
      cases hg
    · rename_i job hg
      split at h
      · cases h
      · rename_i hne
        cases h
        refine .inr ?_
        intro job' hg'
        obtain rfl := Option.some.inj (hg.symm.trans hg')
        exact hne
  | publish => cases h; exact .inl rfl
  | _ =>
    simp only [ttsStep] at h
    (repeat' split at h) <;> cases h

end Pipeline
end AudioEngine
