import AudioEngine.Lib.Settle
import AudioEngine.Pipeline.Progress

/-!
# AudioEngine.Pipeline.Settling

The engine comes to rest.

`Progress` finds one way to complete a job. Here every way ends: when nothing crashes, fails or is
duplicated any more and the environment is quiet, no order of steps goes on forever, and where it
stops no message is left. A handler advances, a failed delivery has fewer retries ahead, and what is
published belongs to a later handler; so the multiset of agents goes down.

Without losses and dead letters, a job is then `COMPLETED`, or `PENDING` and the sweeper's to pick
up; and after a sweep, every job it picked up is `COMPLETED`.
-/

namespace AudioEngine
namespace Pipeline

open Relational Interleave

/-! ## The rank of an agent -/

/-- The deliveries a message has ahead: its retries, and the dead-letter queue. -/
def Copy.budget (cfg : Settings) (c : Copy) : Nat :=
  if c.queue = .dlq then 0
  else
    match getRetryCount c.msg with
    | .error _ => 1
    | .ok n => (max cfg.maxRetries 0 - n).toNat + 1

/-- The points of one delivery. -/
def Copy.phase (c : Copy) : Nat × Nat :=
  match c.stage with
  | .ready =>
    match c.queue with
    | .retry _ _ => (31, 0)
    | _ => (30, 0)
  | .work w => (10 + w.ahead.1, w.ahead.2)
  | .dlq .resolve => (8, 0)
  | .dlq .failTask => (7, 0)
  | .dlq .advanceFailed => (7, 0)
  | .dlq .publish => (6, 0)
  | .dlqAcking => (5, 0)
  | .unwind _ _ => (4, 0)
  | .routing _ => (3, 0)
  | .acking => (2, 0)

/-- Requests and sweeps come before `JobCreated`, and the handlers in their order. -/
def Agent.rank (cfg : Settings) : Agent → Nat × Nat × Nat × Nat
  | .create _ _ .insert => (3, 0, 1, 0)
  | .create _ _ .publish => (3, 0, 0, 0)
  | .sweep stale => (3, 0, 0, stale.length)
  | .copy c => (2 - turn c.msg.body, c.budget cfg, c.phase)

/-- Lexicographically below. -/
def Below (cfg : Settings) (b a : Agent) : Prop :=
  Prod.Lex (· < ·) (Prod.Lex (· < ·) Before) (b.rank cfg) (a.rank cfg)

theorem below_wf (cfg : Settings) : WellFounded (Below cfg) :=
  InvImage.wf _ (Nat.lt_wfRel.wf.prod_lex
    (Nat.lt_wfRel.wf.prod_lex (Nat.lt_wfRel.wf.prod_lex Nat.lt_wfRel.wf)))

section Below

variable {cfg : Settings} {sh sh' : Shared} {c c' : Copy} {a : Agent}

/-- The same message, further on. -/
theorem below_phase (hm : c'.msg = c.msg) (hq : c'.budget cfg = c.budget cfg)
    (hp : Before c'.phase c.phase) : Below cfg (.copy c') (.copy c) := by
  rw [Below, Agent.rank, Agent.rank, hm, hq]
  exact .right _ (.right _ hp)

theorem below_budget (hb : c'.msg.body = c.msg.body) (h : c'.budget cfg < c.budget cfg) :
    Below cfg (.copy c') (.copy c) := by
  rw [Below, Agent.rank, Agent.rank, hb]
  exact .right _ (.left _ _ h)

/-- A message of a later handler. -/
theorem below_turn (h : turn c.msg.body < turn c'.msg.body) : Below cfg (.copy c') (.copy c) := by
  have hle : turn c'.msg.body ≤ 2 := by cases c'.msg.body <;> simp [turn]
  rw [Below, Agent.rank, Agent.rank]
  exact .left _ _ (by omega)

theorem below_emit {pub : Option (Live × Event)}
    (h : ∀ l e, pub = some (l, e) → turn c.msg.body < turn e) :
    ∀ b ∈ (emit sh pub).2, Below cfg b (.copy c) := by
  cases pub with
  | none => simp [emit]
  | some p =>
    rw [emit, List.forall_mem_singleton]
    exact below_turn (h p.1 p.2 rfl)

/-- A routed copy has fewer deliveries ahead. -/
theorem route_budget {p : Bool} {q : QueueName} {m : Message Event}
    (h : c.route cfg p = some (q, m)) :
    ({ queue := q, msg := m } : Copy).budget cfg < c.budget cfg := by
  unfold Copy.route at h
  split at h
  · rename_i l ds hq hds
    have hroute : routeRetryOrDlq c.msg l (effectiveMaxRetries cfg p) ds = .ok (q, m) := by
      cases hx : routeRetryOrDlq c.msg l (effectiveMaxRetries cfg p) ds with
      | error e => rw [hx] at h; cases h
      | ok r => rw [hx] at h; cases h; rfl
    have hmax : effectiveMaxRetries cfg p ≤ max cfg.maxRetries 0 := by
      cases p <;> simp [effectiveMaxRetries]
    unfold routeRetryOrDlq at hroute
    split at hroute
    · cases hroute
    · rename_i n hn
      have hbudget : c.budget cfg = (max cfg.maxRetries 0 - n).toNat + 1 := by
        simp [Copy.budget, hq, hn]
      rw [hbudget]
      dsimp only at hroute
      split at hroute
      · cases hroute
        simp [Copy.budget]
      · rename_i hle
        split at hroute
        · cases hroute
        · cases hroute
          simp [Copy.budget, getRetryCount]
          omega
  · cases h

end Below

/-! ## Every step goes down -/

section Ahead

variable {cfg : Settings} {sh sh' : Shared} {e : Event} {pub : Option (Live × Event)}

theorem parse_ahead {pc pc' : ParsePc} (h : parseStep cfg sh e pc = .goto sh' pc' pub) :
    Before pc'.ahead pc.ahead := by
  cases pc with
  | advance n =>
    cases h
    split
    · exact .left _ _ (by simp)
    · exact .left _ _ (by simp)
  | publishTts n i =>
    simp only [parseStep] at h
    split at h
    · cases h
      exact .right _ (by omega)
    · cases h
  | _ =>
    simp only [parseStep] at h
    (try split at h) <;> cases h <;> exact .left _ _ (by simp)

theorem tts_ahead {pc pc' : TtsPc} (h : ttsStep sh e pc = .goto sh' pc' pub) :
    Before pc'.ahead pc.ahead := by
  cases pc with
  | waitForCache text n =>
    simp only [ttsStep] at h
    split at h
    · cases h
    · split at h
      · cases h
        exact .left _ _ (by simp)
      · cases h
        exact .right _ (by omega)
  | _ =>
    simp only [ttsStep] at h
    (repeat' split at h) <;> cases h <;> exact .left _ _ (by simp)

theorem stitch_ahead {pc pc' : StitchPc} (h : stitchStep sh e pc = .goto sh' pc' pub) :
    Before pc'.ahead pc.ahead := by
  cases pc with
  | getParts keys parts =>
    cases keys with
    | nil =>
      cases h
      exact .left _ _ (by simp)
    | cons key keys =>
      simp only [stitchStep] at h
      split at h
      · cases h
      · cases h
        exact .right _ (by simp)
  | _ =>
    simp only [stitchStep] at h
    (repeat' split at h) <;> cases h <;> exact .left _ _ (by simp)

theorem work_ahead {w w' : Work} (h : w.step cfg sh e = .goto sh' w' pub) :
    Before w'.ahead w.ahead := by
  cases w with
  | parse pc =>
    obtain ⟨pc', hn, rfl⟩ := Next.map_eq_goto h
    exact parse_ahead hn
  | tts pc =>
    obtain ⟨pc', hn, rfl⟩ := Next.map_eq_goto h
    exact tts_ahead hn
  | stitch pc =>
    obtain ⟨pc', hn, rfl⟩ := Next.map_eq_goto h
    exact stitch_ahead hn

end Ahead

section Descent

variable {cfg : Settings} {sh sh' : Shared} {c : Copy} {a : Agent} {outs : List Agent}

/-- The copy itself, at a later point of the same delivery. -/
theorem below_stage {st : Stage} (h : Before ({ c with stage := st } : Copy).phase c.phase) :
    Below cfg (.copy { c with stage := st }) (.copy c) :=
  below_phase rfl rfl h

theorem below_leave (exc : Raised) (h : Before (3, 0) c.phase) :
    ∀ b ∈ c.leave exc, Below cfg b (.copy c) := by
  cases exc with
  | error p =>
    rw [Copy.leave, List.forall_mem_singleton]
    exact below_stage h
  | cancelled => simp [Copy.leave]

/-- The resolver never raises for an event of the engine. -/
theorem dlq_goes {pc : DlqPc} (h : (Agent.copy c).Holds cfg sh) (hst : c.stage = .dlq pc) :
    dlqStep sh c.msg.body pc ≠ .raise := by
  obtain ⟨_, he, hok⟩ := h
  rw [hst] at hok
  cases pc with
  | failTask =>
    obtain ⟨j, t, hb⟩ := hok
    rw [hb] at he ⊢
    obtain ⟨_, job, hjob, _⟩ := he
    obtain ⟨db', r, hf⟩ : ∃ db' r, failTaskAndDecrement sh.db j t = .ok (db', r) :=
      claim_commits hjob t
    simp only [dlqStep, Event.jobId_ttsRequested, Event.taskId_ttsRequested, hf]
    split <;> simp
  | resolve =>
    simp only [dlqStep]
    split <;> simp
  | publish => simp [dlqStep]
  | advanceFailed => simp [dlqStep]

theorem dlq_phase {pc pc' : DlqPc} {pub : Option (Live × Event)}
    (h : dlqStep sh c.msg.body pc = .goto sh' pc' pub) (hst : c.stage = .dlq pc) :
    Before ({ c with stage := .dlq pc' } : Copy).phase c.phase := by
  cases pc with
  | resolve =>
    simp only [dlqStep] at h
    split at h
    · cases h
      simp only [Copy.phase, hst]
      exact .left _ _ (by omega)
    · cases h
      simp only [Copy.phase, hst]
      exact .left _ _ (by omega)
  | failTask =>
    simp only [dlqStep] at h
    split at h
    · cases h
    · split at h
      · cases h
        simp only [Copy.phase, hst]
        exact .left _ _ (by omega)
      · cases h
  | publish => cases h
  | advanceFailed => cases h

/-- The resolver publishes for the stitcher, and only for a task. -/
theorem dlq_publishes {pc : DlqPc} {l : Live} {e : Event} (h : (Agent.copy c).Holds cfg sh)
    (hst : c.stage = .dlq pc) (hp : (dlqStep sh c.msg.body pc).pub = some (l, e)) :
    turn c.msg.body < turn e := by
  have hok := h.2.2
  rw [hst] at hok
  cases pc with
  | publish =>
    obtain ⟨j, t, hb⟩ := hok
    rw [hb] at hp ⊢
    cases hp
    simp [turn]
  | _ =>
    simp only [dlqStep] at hp
    (repeat' split at hp) <;> cases hp

/-- A delivery that goes on leaves smaller agents. -/
theorem copy_descends (h : (Agent.copy c).Holds cfg sh) (hact : c.act cfg sh .go = some (sh', outs)) :
    ∀ b ∈ outs, Below cfg b (.copy c) := by
  cases hst : c.stage with
  | ready =>
    simp only [Copy.act, hst] at hact
    cases hq : c.queue with
    | live l =>
      simp only [hq] at hact
      cases hact
      rw [List.forall_mem_singleton]
      refine below_phase rfl (by simp [Copy.budget, hq]) ?_
      simp only [Copy.phase, hst, hq]
      cases l with
      | parse => exact .left _ _ (by simp [Work.start, Work.ahead, ParsePc.ahead])
      | tts => exact .left _ _ (by simp [Work.start, Work.ahead, TtsPc.ahead])
      | stitch => exact .left _ _ (by simp [Work.start, Work.ahead, StitchPc.ahead])
    | retry l d =>
      simp only [hq] at hact
      cases hact
      rw [List.forall_mem_singleton]
      refine below_phase rfl (by simp [Copy.budget, hq]) ?_
      simp only [Copy.phase, hst, hq]
      exact .left _ _ (by omega)
    | dlq =>
      simp only [hq] at hact
      cases hact
      rw [List.forall_mem_singleton]
      refine below_phase rfl (by simp [Copy.budget, hq]) ?_
      simp only [Copy.phase, hst, hq]
      exact .left _ _ (by omega)
  | work w =>
    have hpub : ∀ l e, (w.step cfg sh c.msg.body).pub = some (l, e) → turn c.msg.body < turn e :=
      fun l e => work_publishes h hst
    simp only [Copy.act, hst] at hact
    cases hstep : w.step cfg sh c.msg.body with
    | goto sh₁ w' pub =>
      rw [hstep] at hpub
      simp only [hstep] at hact
      cases hact
      rw [List.forall_mem_cons]
      refine ⟨below_stage ?_, below_emit hpub⟩
      simp only [Copy.phase, hst]
      rcases Prod.lex_def.mp (work_ahead hstep) with hlt | ⟨heq, hlt⟩
      · exact .left _ _ (by omega)
      · rw [heq]
        exact .right _ hlt
    | done sh₁ pub =>
      rw [hstep] at hpub
      simp only [hstep] at hact
      cases hact
      rw [List.forall_mem_cons]
      refine ⟨below_stage ?_, below_emit hpub⟩
      simp only [Copy.phase, hst]
      exact .left _ _ (by omega)
    | raise =>
      simp only [hstep] at hact
      cases hact
      unfold Copy.raiseAt
      split
      · rw [List.forall_mem_singleton]
        refine below_stage ?_
        simp only [Copy.phase, hst]
        exact .left _ _ (by omega)
      · refine below_leave _ ?_
        simp only [Copy.phase, hst]
        exact .left _ _ (by omega)
  | unwind text exc =>
    simp only [Copy.act, hst] at hact
    cases hact
    refine below_leave exc ?_
    simp only [Copy.phase, hst]
    exact .left _ _ (by omega)
  | routing p =>
    simp only [Copy.act, hst] at hact
    cases hr : c.route cfg p with
    | none =>
      simp only [hr] at hact
      cases hact
      simp
    | some qm =>
      obtain ⟨q, m⟩ := qm
      simp only [hr] at hact
      cases hact
      rw [List.forall_mem_cons, List.forall_mem_singleton]
      refine ⟨below_stage ?_, below_budget (Copy.route_copy hr).1 (route_budget hr)⟩
      simp only [Copy.phase, hst]
      exact .left _ _ (by omega)
  | acking =>
    simp only [Copy.act, hst] at hact
    cases hact
    simp
  | dlq pc =>
    have hpub : ∀ l e, (dlqStep sh c.msg.body pc).pub = some (l, e) → turn c.msg.body < turn e :=
      fun l e => dlq_publishes h hst
    simp only [Copy.act, hst] at hact
    cases hstep : dlqStep sh c.msg.body pc with
    | goto sh₁ pc' pub =>
      rw [hstep] at hpub
      simp only [hstep] at hact
      cases hact
      rw [List.forall_mem_cons]
      exact ⟨below_stage (dlq_phase hstep hst), below_emit hpub⟩
    | done sh₁ pub =>
      rw [hstep] at hpub
      simp only [hstep] at hact
      cases hact
      rw [List.forall_mem_cons]
      refine ⟨below_stage ?_, below_emit hpub⟩
      cases pc <;> (simp only [Copy.phase, hst]; exact .left _ _ (by omega))
    | raise => exact absurd hstep (dlq_goes h hst)
  | dlqAcking =>
    simp only [Copy.act, hst] at hact
    cases hact
    simp

theorem below_request {a : Agent} {c : Copy} (h : a.rank cfg = (3, a.rank cfg |>.2)) :
    Below cfg (.copy c) a := by
  rw [Below, h, Agent.rank]
  exact .left _ _ (by omega)

/-- So do a request and a sweep. -/
theorem request_descends (ha : ∀ c, a ≠ .copy c) (hact : act cfg sh a .go = some (sh', outs)) :
    ∀ b ∈ outs, Below cfg b a := by
  cases a with
  | copy c => exact absurd rfl (ha c)
  | create j cb pc =>
    cases pc with
    | insert =>
      simp only [act, createAct] at hact
      split at hact
      · cases hact
        simp
      · cases hact
        rw [List.forall_mem_singleton]
        exact .right _ (.right _ (.left _ _ (by omega)))
    | publish =>
      simp only [act, createAct, emit] at hact
      cases hact
      rw [List.forall_mem_singleton]
      exact below_request rfl
  | sweep stale =>
    cases stale with
    | nil =>
      simp only [act, sweepAct] at hact
      cases hact
      simp
    | cons j rest =>
      simp only [act, sweepAct, emit] at hact
      cases hact
      rw [List.forall_mem_cons, List.forall_mem_singleton]
      refine ⟨?_, below_request rfl⟩
      exact .right _ (.right _ (.right _ (by simp)))

theorem act_descends (h : a.Holds cfg sh) (hact : act cfg sh a .go = some (sh', outs)) :
    ∀ b ∈ outs, Below cfg b a := by
  cases a with
  | copy c => exact copy_descends h hact
  | create j cb pc => exact request_descends (by simp) hact
  | sweep stale => exact request_descends (by simp) hact

end Descent

/-! ## Rest -/

/-- A step that goes on, without exception, crash, cancellation or duplicate. -/
abbrev goesOn (_ : Shared) (_ : Agent) (i : Choice) : Prop := i = .go

section Rest

variable {cfg : Settings} {C : Shared → Agent → Choice → Prop} {s s' : State}

/-- Everybody can always go on. -/
theorem go_enabled (cfg : Settings) (sh : Shared) (a : Agent) : (act cfg sh a .go).isSome = true := by
  cases a with
  | copy c =>
    simp only [act, Copy.act]
    cases c.stage with
    | ready =>
      dsimp only
      cases c.queue <;> rfl
    | work w =>
      dsimp only
      cases w.step cfg sh c.msg.body <;> rfl
    | routing p =>
      dsimp only
      cases c.route cfg p <;> rfl
    | dlq pc =>
      dsimp only
      cases dlqStep sh c.msg.body pc <;> rfl
    | _ => rfl
  | create j cb pc =>
    cases pc with
    | insert =>
      simp only [act, createAct]
      split <;> rfl
    | publish => rfl
  | sweep stale => cases stale <;> rfl

/-- From every reachable state, whatever has happened so far: no schedule of steps that go on is
endless, and where one stops no message, request or sweep is left. -/
theorem undisturbed_settles (h : Reach (system cfg) (fun _ _ _ => True) s) :
    (¬ ∃ f : Nat → State, f 0 = s ∧ ∀ n, Acts (system cfg) goesOn (f n) (f (n + 1))) ∧
    ∀ s', Schedule (system cfg) goesOn s s' → (∀ s'', ¬ Acts (system cfg) goesOn s' s'') →
      s'.agents = [] := by
  refine ⟨no_endless_of_acc ?_, ?_⟩
  · refine Reach.descends (below_wf cfg) (fun _ _ _ _ => trivial) ?_ h
    intro s a i sh outs hr ha hi hact
    subst hi
    exact act_descends ((reach_data hr).2 a ha) hact
  · intro s' _ hstop
    cases hagents : s'.agents with
    | nil => rfl
    | cons a rest =>
      obtain ⟨⟨sh, outs⟩, hact⟩ := Option.isSome_iff_exists.mp (go_enabled cfg s'.shared a)
      exact absurd (.act (by rw [hagents]) rfl hact) (hstop _)

end Rest

/-- The copies in flight after `twoBlocksBusy`, a failed attempt of the stitch handler and a crash: one
is back in its queue, the failed one is about to be acked and waits on the retry ladder, one is in
`handle_tts`, and one is a duplicate that nobody has taken. -/
def disturbed : List Agent :=
  [.copy { queue := .live .tts, msg := publishMessage (.ttsRequested "j" "j-1") },
   .copy { queue := .live .stitch, msg := publishMessage (.stitchReady "j"), stage := .acking },
   .copy { queue := .retry .stitch 1
           msg := { body := .stitchReady "j", contentType := some "application/json",
                    headers := [(headerRetryCount, .int 1)] } },
   .copy (secondBlock (.loadText 1 (rawKey "j"))),
   .copy { queue := .live .tts, msg := publishMessage (.ttsRequested "j" "j-1") }]

set_option maxRecDepth 4000 in
theorem disturbed_reach : ∃ s, Reach (system {}) (fun _ _ _ => True) s ∧ s.agents = disturbed :=
  System.exists_reach (C := fun _ _ _ => true) (fun _ _ _ _ => trivial)
    (List.flatten [twoBlocksBusy, [.act 0 (.fail false), .act 0 .go, .act 3 .crash]])
    (by decide +kernel)

theorem undisturbed_settles_disturbed :
    ∃ s, Reach (system {}) (fun _ _ _ => True) s ∧ s.agents = disturbed ∧
      (¬ ∃ f : Nat → State, f 0 = s ∧ ∀ n, Acts (system {}) goesOn (f n) (f (n + 1))) ∧
      ∀ s', Schedule (system {}) goesOn s s' → (∀ s'', ¬ Acts (system {}) goesOn s' s'') →
        s'.agents = [] := by
  obtain ⟨s, h, hagents⟩ := disturbed_reach
  exact ⟨s, h, hagents, undisturbed_settles h⟩

/-! ## The jobs at rest -/

/-- A step that goes on, without loss and dead letter. -/
abbrev goesWell (cfg : Settings) (_ : Shared) (a : Agent) (i : Choice) : Prop :=
  i = .go ∧ Delivered cfg a i

/-- A `JobCreated` for `j` whose handler has not returned, or a sweep that will publish one. -/
def Agent.owesStart (j : String) (a : Agent) : Prop :=
  a.owesParse j ∨ ∃ stale, a = .sweep stale ∧ j ∈ stale

section Jobs

variable {cfg : Settings} {s s' : State} {j : String} {job : Job}

/-- With no message left, a job is `COMPLETED` or still `PENDING`. -/
theorem rest_status (h : Reach (system cfg) (fun _ a i => Delivered cfg a i) s)
    (hrest : s.agents = []) (hg : s.shared.db.jobs.get j = some job) :
    job.status = .pending ∨ job.status = .completed := by
  have hnone : ∀ {O : Agent → Prop}, ¬ ∃ a ∈ s.agents, O a := by simp [hrest]
  have hstatus : s.shared.db.status j = some job.status := by rw [Db.status, hg, Option.map_some]
  have hawait : AwaitsStitch s.shared j → False := fun ha => hnone (reach_stitch_owed h ha)
  have hout : s.shared.db.outstanding j = 0 :=
    none_outstanding h fun k hk => hnone (reach_task_owed h hk)
  cases hst : job.status with
  | pending => exact .inl rfl
  | completed => exact .inr rfl
  | failed => exact absurd hst ((reach_no_recount (fun _ _ _ hd => hd.2) h).1.job j job hg)
  | parsing => exact (hnone (reach_parse_owed h (by rw [hstatus, hst]))).elim
  | generating =>
    exact (hawait ⟨.inl (by rw [hstatus, hst]), hout⟩).elim
  | stitching =>
    exact (hawait ⟨.inr (by rw [hstatus, hst]), hout⟩).elim

/-- While the job is `PENDING`, its `JobCreated` is passed on. -/
theorem start_passes {a : Agent} {i : Choice} {sh : Shared} {outs : List Agent}
    (h : Reach (system cfg) (fun _ a i => Delivered cfg a i) s) (ha : a ∈ s.agents)
    (hc : goesWell cfg s.shared a i) (hact : act cfg s.shared a i = some (sh, outs))
    (hp : ¬ Past sh j 1) (ho : a.owesStart j) : ∃ b ∈ outs, b.owesStart j := by
  obtain ⟨rfl, hd⟩ := hc
  rcases ho with ⟨c, rfl, hst, hb⟩ | ⟨stale, rfl, hj⟩
  · obtain ⟨hpass, hoff⟩ := delivered_passes h ha hd hact
    cases hpass with
    | dlq hdlq => exact absurd hdlq hoff
    | waits hm hbody hw => exact ⟨_, hm, .inl ⟨_, rfl, hw.ne_acking, hbody.trans hb⟩⟩
    | goto _ _ _ houts =>
      subst houts
      exact ⟨_, List.mem_cons_self, .inl ⟨_, rfl, by simp, hb⟩⟩
    | done hw hstep _ _ =>
      -- the handler returns past `PENDING`
      obtain ⟨hs, hA⟩ := reach_data h
      obtain ⟨pc, rfl, hpc⟩ := work_jobCreated (hA _ ha) hb hw
      rw [hb] at hstep
      have hpast : Past s.shared j 2 := by
        rcases parse_returns (Next.map_eq_done hstep) with ⟨rfl, _⟩ | ⟨n, i, rfl, _⟩
        · exact hpc.2
        · exact hpc.2.2
      have hpast' := hpast.mono ((reach_act h ha hact).evolves hs)
      exact absurd (hpast'.weaken (by omega)) hp
    | acked hack => exact absurd hack hst
  · cases stale with
    | nil => cases hj
    | cons k rest =>
      cases hact
      rcases List.mem_cons.mp hj with rfl | hj
      · exact ⟨_, List.mem_cons_of_mem _ mem_emit, .inl ⟨_, rfl, by simp, rfl⟩⟩
      · exact ⟨_, List.mem_cons_self, .inr ⟨rest, rfl, hj⟩⟩

end Jobs

/-- After a sweep of `PENDING` jobs in a run without losses and dead letters, every schedule that
goes well until no message is left completes all jobs but those that are `PENDING` and were not
swept. -/
theorem swept_jobs_complete {cfg : Settings} {s s' : State} {stale : List String}
    (h : Reach (system cfg) (fun _ a i => Delivered cfg a i) s)
    (hstale : ∀ j ∈ stale, s.shared.db.status j = some .pending)
    (hrun : Schedule (system cfg) (goesWell cfg) ⟨s.shared, .sweep stale :: s.agents⟩ s')
    (hend : s'.agents = []) :
    ∀ j job, s'.shared.db.jobs.get j = some job →
      job.status = .completed ∨ (job.status = .pending ∧ j ∉ stale) := by
  intro j job hg
  have hCD : ∀ sh a i, goesWell cfg sh a i → Delivered cfg a i := fun _ _ _ hc => hc.2
  have hsweep : Reach (system cfg) (fun _ a i => Delivered cfg a i)
      ⟨s.shared, .sweep stale :: s.agents⟩ := by
    have henv : (system cfg).env s.shared (.startSweep stale) =
        some (s.shared, [.sweep stale]) := by
      simp only [system, env]
      rw [if_pos]
      rw [List.all_eq_true]
      exact fun j hj => decide_eq_true (hstale j hj)
    have hstep : Step (system cfg) (fun _ a i => Delivered cfg a i) s
        ⟨s.shared, [.sweep stale] ++ s.agents⟩ := .env henv
    exact .step h hstep
  have hreach := hsweep.leads ((Schedule.leads hrun).mono hCD)
  rcases rest_status hreach hend hg with hp | hc
  · refine .inr ⟨hp, fun hj => ?_⟩
    have howed : ¬ Past s'.shared j 1 → ∃ a ∈ s'.agents, a.owesStart j := by
      refine Schedule.owed (P := fun sh => ¬ Past sh j 1) (D := fun _ a i => Delivered cfg a i) hCD
        ?_ ?_ hsweep hrun ⟨_, List.mem_cons_self, .inr ⟨stale, rfl, hj⟩⟩
      · intro s s' hr hact hp hpast
        obtain ⟨F, heff⟩ := step_effect hr (hact.mono hCD).step
        exact hp (hpast.mono (heff.evolves (reach_data hr).1))
      · intro s a i sh outs hr ha hc hact hp ho
        exact start_passes hr ha hc hact hp ho
    obtain ⟨a, ha, _⟩ := howed (by
      rintro ⟨job', hg', hrank⟩
      obtain rfl := Option.some.inj (hg.symm.trans hg')
      rw [hp] at hrank
      exact absurd hrank (by decide))
    rw [hend] at ha
    cases ha
  · exact .inl hc

set_option maxRecDepth 4000 in
/-- A worker crashes at once, the job is swept, and its messages are all handled. -/
theorem sweptToEnd : ∃ s s', Reach (system {}) (fun _ a i => Delivered {} a i) s ∧
    s.shared.db.status "j" = some .pending ∧
    Schedule (system {}) (goesWell {}) ⟨s.shared, .sweep ["j"] :: s.agents⟩ s' ∧
    s'.agents = [] ∧ (s'.shared.db.jobs.get "j").isSome = true := by
  have heval : ((system {}).runs (fun _ a i => !a.loses {} i && !a.deadLettered {} i)
      (system {}).init [.env (.post "j" "A" none), .act 0 .go, .act 0 .crash]).any (fun s =>
        decide (s.shared.db.status "j" = some .pending) &&
        ((system {}).runs (fun _ a i => decide (i = .go) && (!a.loses {} i && !a.deadLettered {} i))
          ⟨s.shared, .sweep ["j"] :: s.agents⟩
          ((List.replicate 37 (0, .go)).map fun x => .act x.1 x.2)).any fun s' =>
            decide (s'.agents = []) && (s'.shared.db.jobs.get "j").isSome) = true := by
    decide +kernel
  obtain ⟨s, hs, hrest⟩ := (Option.any_eq_true _ _).mp heval
  obtain ⟨hst, hrest⟩ := Bool.and_eq_true_iff.mp hrest
  obtain ⟨s', hs', hend⟩ := (Option.any_eq_true _ _).mp hrest
  obtain ⟨hagents, hjob⟩ := Bool.and_eq_true_iff.mp hend
  refine ⟨s, s', ?_, of_decide_eq_true hst, ?_, of_decide_eq_true hagents, hjob⟩
  · exact (System.runs_reach .init hs).mono fun _ _ _ h => by simpa [Delivered] using h
  · refine Relation.ReflTransGen.mono (fun _ _ ha => ha.mono ?_) _ _ (System.runs_schedule hs')
    intro _ _ _ h
    simpa [goesWell, Delivered] using h

theorem swept_jobs_complete_after_crash :
    ∃ s s', Reach (system {}) (fun _ a i => Delivered {} a i) s ∧
      s.shared.db.status "j" = some .pending ∧
      Schedule (system {}) (goesWell {}) ⟨s.shared, .sweep ["j"] :: s.agents⟩ s' ∧
      s'.shared.db.status "j" = some .completed := by
  obtain ⟨s, s', h, hst, hrun, hend, hjob⟩ := sweptToEnd
  obtain ⟨job, hg⟩ := Option.isSome_iff_exists.mp hjob
  refine ⟨s, s', h, hst, hrun, ?_⟩
  rcases swept_jobs_complete h (by simpa using hst) hrun hend "j" job hg with hc | ⟨_, hno⟩
  · rw [Db.status, hg, Option.map_some, hc]
  · simp at hno

end Pipeline
end AudioEngine
