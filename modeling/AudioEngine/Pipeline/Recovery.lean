import AudioEngine.Pipeline.Returns

/-!
# AudioEngine.Pipeline.Recovery

No job is stranded by a crash.

The runs are those in which workers crash and messages are redelivered, duplicated and retried any
number of times, but every message is `Delivered`: no handler is cancelled, the retry ladder does
not end in the dead-letter queue and its publish does not fail. A message then only leaves the
broker after its handler has returned, and a handler only returns when somebody else is left to
carry the job on.

Three duties (`Reach.owed`) follow: for a job in `PARSING`, for each `PENDING` task, and for a job
past `PARSING` without a `PENDING` task, some message is in flight whose handler has not returned.
-/

namespace AudioEngine
namespace Pipeline

open Relational Interleave

/-- The step neither loses its message nor gives it up to the dead-letter queue. -/
def Delivered (cfg : Settings) (a : Agent) (i : Choice) : Prop :=
  a.loses cfg i = false ∧ a.deadLettered cfg i = false

/-! ## The duties -/

/-- A `JobCreated` for `j` whose handler has not returned. -/
def Agent.owesParse (j : String) (a : Agent) : Prop :=
  ∃ c, a = .copy c ∧ c.stage ≠ .acking ∧ c.msg.body = .jobCreated j

/-- A message whose handler has not returned and that synthesizes the `k`th block of `j`, or will
have it synthesized. -/
def Agent.owesTask (j : String) (k : Nat) (a : Agent) : Prop :=
  ∃ c, a = .copy c ∧ c.stage ≠ .acking ∧ (c.msg.body = .ttsRequested j (taskIdOf j k) ∨
    (c.msg.body = .jobCreated j ∧ ∀ n i, c.stage = .work (.parse (.publishTts n i)) → i ≤ k))

/-- A message for `j` whose handler has not returned. -/
def Agent.owesJob (j : String) (a : Agent) : Prop :=
  ∃ c, a = .copy c ∧ c.stage ≠ .acking ∧ c.msg.body.jobId = j

section Duties

variable {cfg : Settings} {s : State} {sh' : Shared} {c : Copy} {i : Choice} {outs : List Agent}
  {j : String}

theorem off_dlq (h : Reach (system cfg) (fun _ a i => Delivered cfg a i) s) :
    ∀ a ∈ s.agents, a.offDlq :=
  reach_offDlq (fun _ _ _ hd => hd.2) h

/-- A step of a message passes it on, outside the dead-letter consumer. -/
theorem delivered_passes (h : Reach (system cfg) (fun _ a i => Delivered cfg a i) s)
    (hc : .copy c ∈ s.agents) (hd : Delivered cfg (.copy c) i)
    (hact : act cfg s.shared (.copy c) i = some (sh', outs)) :
    Passes cfg s.shared c i sh' outs ∧ ¬ DlqPasses s.shared c i sh' outs :=
  ⟨reach_passes (fun _ _ _ hd => hd.1) h hc hd hact, fun hp => hp.on (off_dlq h _ hc)⟩

theorem reach_parse_owed (h : Reach (system cfg) (fun _ a i => Delivered cfg a i) s)
    (hp : s.shared.db.status j = some .parsing) : ∃ a ∈ s.agents, a.owesParse j := by
  refine Reach.owed (P := fun sh => sh.db.status j = some .parsing) (O := Agent.owesParse j)
    ?_ ?_ ?_ ?_ h hp
  · intro h0
    cases h0
  · intro s a i sh' outs hr ha _ hact hp
    refine ((reach_act hr ha hact).parsing_start (reach_data hr).1 hp).imp_right ?_
    rintro ⟨c, blocks, rfl, _, hb, hst⟩
    exact ⟨c, rfl, by rw [hst]; simp, hb⟩
  · intro s a i sh' outs hr ha hd hact hp ho
    obtain ⟨c, rfl, hst, hb⟩ := ho
    obtain ⟨hpass, hoff⟩ := delivered_passes hr ha hd hact
    cases hpass with
    | dlq hdlq => exact absurd hdlq hoff
    | waits hm hbody hw => exact ⟨_, hm, _, rfl, hw.ne_acking, hbody.trans hb⟩
    | goto _ _ _ houts =>
      subst houts
      exact ⟨_, List.mem_cons_self, _, rfl, by simp, hb⟩
    | @done w sh₁ pub hw hstep hsh _ =>
      -- `handle_parse` returns past `PARSING`
      obtain ⟨hs, hA⟩ := reach_data hr
      obtain ⟨pc, rfl, hpc⟩ := work_jobCreated (hA _ ha) hb hw
      rw [hb] at hstep
      have hpast : Past s.shared j 2 := by
        rcases parse_returns (Next.map_eq_done hstep) with ⟨rfl, _⟩ | ⟨n, i, rfl, _⟩
        · exact hpc.2
        · exact hpc.2.2
      obtain ⟨job, hg, hrank⟩ := hpast.mono ((reach_act hr ha hact).evolves hs)
      rw [Db.status, hg, Option.map_some, Option.some.injEq] at hp
      rw [hp] at hrank
      exact absurd hrank (by decide)
    | acked hack => exact absurd hack hst
  · intro s x sh' outs hr henv hp
    exact ((reach_env hr henv .none).parsing_start (reach_data hr).1 hp).resolve_right id

/-- The step of a parser that has not yet published the block. -/
theorem parse_passes_task {k : Nat} (hr : Reach (system cfg) (fun _ a i => Delivered cfg a i) s)
    (hc : .copy c ∈ s.agents) (hd : Delivered cfg (.copy c) i)
    (hact : act cfg s.shared (.copy c) i = some (sh', outs)) (hp : PendingTask sh' j k)
    (hst : c.stage ≠ .acking) (hb : c.msg.body = .jobCreated j)
    (hi : ∀ n i, c.stage = .work (.parse (.publishTts n i)) → i ≤ k) :
    ∃ b ∈ outs, b.owesTask j k := by
  obtain ⟨hs, hA⟩ := reach_data hr
  have hev := (reach_act hr hc hact).evolves hs
  obtain ⟨hpass, hoff⟩ := delivered_passes hr hc hd hact
  cases hpass with
  | dlq hdlq => exact absurd hdlq hoff
  | waits hm hbody hw =>
    refine ⟨_, hm, _, rfl, hw.ne_acking, .inr ⟨hbody.trans hb, ?_⟩⟩
    intro n i he
    exact absurd he (hw.ne_publishTts n i)
  | @goto w w' sh₁ pub hw hstep _ houts =>
    subst houts
    obtain ⟨pc, rfl, _⟩ := work_jobCreated (hA _ hc) hb hw
    rw [hb] at hstep
    obtain ⟨pc', hgoto, rfl⟩ := Next.map_eq_goto hstep
    by_cases hpast : ∃ n i, pc' = .publishTts n i ∧ k < i
    · -- the loop has just published the block
      obtain ⟨n, i, rfl, hki⟩ := hpast
      rcases parse_publishes hgoto with h0 | ⟨i₀, rfl, rfl, rfl⟩
      · omega
      · have hle := hi n i₀ hw
        obtain rfl : k = i₀ := by omega
        exact ⟨_, List.mem_cons_of_mem _ mem_emit, _, rfl, by simp, .inl rfl⟩
    · refine ⟨_, List.mem_cons_self, _, rfl, by simp, .inr ⟨hb, ?_⟩⟩
      intro n i he
      by_contra hlt
      exact hpast ⟨n, i, by simpa using he, by omega⟩
  | @done w sh₁ pub hw hstep _ houts =>
    subst houts
    obtain ⟨pc, rfl, hpc⟩ := work_jobCreated (hA _ hc) hb hw
    rw [hb] at hstep
    obtain ⟨task, htask, howner, hpend⟩ := hp
    have hid := (Table.get_eq_some.mp htask).2
    have hm : task ∈ sh'.db.tasksOf j := mem_tasksOf.mpr ⟨by rw [hid]; exact htask, howner⟩
    rcases parse_returns (Next.map_eq_done hstep) with ⟨rfl, _⟩ | ⟨n, i, rfl, hn, rfl⟩
    · have h0 := outstanding_of_laidIn (hpc.1.mono hev)
      have hpos := outstanding_pos_iff.mpr ⟨task, hm, hpend⟩
      omega
    · -- the last index of the loop is that of the last block
      obtain ⟨text, hl, rfl⟩ := hpc.1.mono hev
      obtain ⟨hname, block, hblock, _⟩ := hl.block hm
      rw [hid] at hname
      obtain rfl : k = task.blockIndex := (taskIdOf_inj.mp hname).2
      have hlt := (List.getElem?_eq_some_iff.mp hblock).1
      have hle := hi _ i hw
      obtain rfl : task.blockIndex = i := by omega
      exact ⟨_, List.mem_cons_of_mem _ mem_emit, _, rfl, by simp, .inl rfl⟩
  | acked hack => exact absurd hack hst

/-- The step of a synthesizer of the block. -/
theorem tts_passes_task {k : Nat} (hr : Reach (system cfg) (fun _ a i => Delivered cfg a i) s)
    (hc : .copy c ∈ s.agents) (hd : Delivered cfg (.copy c) i)
    (hact : act cfg s.shared (.copy c) i = some (sh', outs)) (hp : PendingTask sh' j k)
    (hst : c.stage ≠ .acking) (hb : c.msg.body = .ttsRequested j (taskIdOf j k)) :
    ∃ b ∈ outs, b.owesTask j k := by
  obtain ⟨hpass, hoff⟩ := delivered_passes hr hc hd hact
  cases hpass with
  | dlq hdlq => exact absurd hdlq hoff
  | waits hm hbody hw => exact ⟨_, hm, _, rfl, hw.ne_acking, .inl (hbody.trans hb)⟩
  | goto _ _ _ houts =>
    subst houts
    exact ⟨_, List.mem_cons_self, _, rfl, by simp, .inl hb⟩
  | @done w sh₁ pub hw hstep hsh _ =>
    have hold := (reach_data hr).2 _ hc
    obtain ⟨pc, rfl, hpc⟩ := work_ttsRequested hold hb hw
    have hrow := hold.2.1
    rw [hb] at hstep hrow
    obtain ⟨⟨task, htask, _⟩, _⟩ := hrow
    obtain ⟨x, hx, hdone⟩ := tts_returns_done (Next.map_eq_done hstep) hpc ⟨task, htask⟩
    obtain ⟨y, hy, _, hpend⟩ := hp
    rw [hsh, db_emit, hx] at hy
    cases hy
    rw [hdone] at hpend
    cases hpend
  | acked hack => exact absurd hack hst

theorem reach_task_owed {k : Nat} (h : Reach (system cfg) (fun _ a i => Delivered cfg a i) s)
    (hp : PendingTask s.shared j k) : ∃ a ∈ s.agents, a.owesTask j k := by
  refine Reach.owed (P := fun sh => PendingTask sh j k) (O := Agent.owesTask j k) ?_ ?_ ?_ ?_ h hp
  · rintro ⟨_, htask, _⟩
    cases htask
  · intro s a i sh' outs hr ha _ hact hp
    obtain ⟨task, htask, rfl, hpend⟩ := hp
    rcases (reach_act hr ha hact).pending_start (reach_data hr).1 htask hpend with hold | hseeds
    · exact .inl ⟨task, hold, rfl, hpend⟩
    · obtain ⟨c, blocks, rfl, _, hb, hst⟩ := hseeds
      exact .inr ⟨c, rfl, by rw [hst]; simp, .inr ⟨hb, by rw [hst]; simp⟩⟩
  · intro s a i sh' outs hr ha hd hact hp ho
    obtain ⟨c, rfl, hst, hb | ⟨hb, hi⟩⟩ := ho
    · exact tts_passes_task hr ha hd hact hp hst hb
    · exact parse_passes_task hr ha hd hact hp hst hb hi
  · intro s x sh' outs hr henv hp
    obtain ⟨task, htask, rfl, hpend⟩ := hp
    rcases (reach_env hr henv .none).pending_start (reach_data hr).1 htask hpend with hold | hseeds
    · exact ⟨task, hold, rfl, hpend⟩
    · exact hseeds.elim

/-- A handler that returns while the job awaits its stitching has published the next event. -/
theorem returns_pass_on {w : Work} {sh₁ : Shared} {pub : Option (Live × Event)}
    (h : (Agent.copy c).Holds cfg s.shared) (hw : c.stage = .work w)
    (hstep : w.step cfg s.shared c.msg.body = .done sh₁ pub) (ht : Tallied cfg (emit sh₁ pub).1)
    (ha : AwaitsStitch (emit sh₁ pub).1 c.msg.body.jobId) :
    ∃ l e, pub = some (l, e) ∧ e.jobId = c.msg.body.jobId := by
  cases hb : c.msg.body with
  | jobCreated j =>
    obtain ⟨pc, rfl, _⟩ := work_jobCreated h hb hw
    rw [hb] at hstep
    rcases parse_returns (Next.map_eq_done hstep) with ⟨_, rfl⟩ | ⟨_, _, _, _, rfl⟩
    · exact ⟨_, _, rfl, rfl⟩
    · exact ⟨_, _, rfl, rfl⟩
  | ttsRequested j t =>
    obtain ⟨pc, rfl, _⟩ := work_ttsRequested h hb hw
    rw [hb] at hstep ha
    rw [tts_returns_ready (Next.map_eq_done hstep) ht ha]
    exact ⟨_, _, rfl, rfl⟩
  | stitchReady j =>
    obtain ⟨pc, rfl, hpc⟩ := work_stitchReady h hb hw
    rw [hb] at hstep ha
    exact absurd ha (stitch_returns (Next.map_eq_done hstep) hpc)

theorem reach_stitch_owed (h : Reach (system cfg) (fun _ a i => Delivered cfg a i) s)
    (hp : AwaitsStitch s.shared j) : ∃ a ∈ s.agents, a.owesJob j := by
  refine Reach.owed (P := fun sh => AwaitsStitch sh j) (O := Agent.owesJob j) ?_ ?_ ?_ ?_ h hp
  · rintro ⟨h0 | h0, _⟩ <;> cases h0
  · intro s a i sh' outs hr ha _ hact hp
    refine ((reach_act hr ha hact).await_start (reach_data hr).1 hp).imp_right ?_
    rintro (⟨c, _, rfl, _, hb, hst⟩ | ⟨c, rfl, hj, hst⟩ | ⟨c, w, rfl, _, hj, hst⟩ |
      ⟨c, t, rfl, _, hb, ⟨_, hst⟩ | hst⟩ | hdead)
    · exact ⟨c, rfl, by rw [hst]; simp, by rw [hb]; rfl⟩
    · exact ⟨c, rfl, by rw [hst]; simp, hj⟩
    · exact ⟨c, rfl, by rw [hst]; simp, hj⟩
    · exact ⟨c, rfl, by rw [hst]; simp, by rw [hb]; rfl⟩
    · exact ⟨c, rfl, by rw [hst]; simp, by rw [hb]; rfl⟩
    · exact absurd hdead (offDlq_not_deadLetters (off_dlq hr a ha))
  · intro s a i sh' outs hr ha hd hact hp ho
    obtain ⟨c, rfl, hst, rfl⟩ := ho
    obtain ⟨hpass, hoff⟩ := delivered_passes hr ha hd hact
    cases hpass with
    | dlq hdlq => exact absurd hdlq hoff
    | waits hm hbody hw => exact ⟨_, hm, _, rfl, hw.ne_acking, by rw [hbody]⟩
    | goto _ _ _ houts =>
      subst houts
      exact ⟨_, List.mem_cons_self, _, rfl, by simp, rfl⟩
    | @done w sh₁ pub hw hstep hsh houts =>
      subst hsh houts
      obtain ⟨hnf, hno⟩ := reach_no_recount (fun _ _ _ hd => hd.2) hr
      have htally := (reach_act hr ha hact).tallied (reach_data hr).1 hnf.not_recounts
        (reach_tallied (fun _ _ _ h => h) hno)
      obtain ⟨l, e, rfl, he⟩ := returns_pass_on ((reach_data hr).2 _ ha) hw hstep htally hp
      exact ⟨_, List.mem_cons_of_mem _ mem_emit, _, rfl, by simp, he⟩
    | acked hack => exact absurd hack hst
  · intro s x sh' outs hr henv hp
    rcases (reach_env hr henv .none).await_start (reach_data hr).1 hp with hold | hF | hF | hF | hF | hF
    · exact hold
    all_goals exact hF.elim

end Duties

/-! ## No job is stranded -/

/-- A copy of `e` is in flight: queued, in a delay queue, or unacked. -/
def InFlight (s : State) (e : Event) : Prop := ∃ a ∈ s.agents, a.carries e

section Stranded

variable {cfg : Settings} {s : State} {j : String}

theorem pending_task_in_flight (h : Reach (system cfg) (fun _ a i => Delivered cfg a i) s)
    (hparse : ¬ InFlight s (.jobCreated j)) {task : Task} (ht : task ∈ s.shared.db.tasksOf j)
    (hp : task.status = .pending) : InFlight s (.ttsRequested j task.taskId) := by
  obtain ⟨⟨text, hl⟩, _⟩ := (reach_data h).1.laid_of_row ht
  have hname := (hl.block ht).1
  obtain ⟨hget, howner⟩ := mem_tasksOf.mp ht
  rw [hname] at hget
  obtain ⟨_, ha, c, rfl, _, hb | ⟨hb, _⟩⟩ := reach_task_owed h ⟨task, hget, howner, hp⟩
  · exact ⟨_, ha, by rw [hname]; exact hb⟩
  · exact absurd ⟨_, ha, hb⟩ hparse

theorem outstanding_of_none {db : Db} (h : ∀ task ∈ db.tasksOf j, task.status ≠ .pending) :
    db.outstanding j = 0 := by
  by_contra hpos
  obtain ⟨task, htask, hpend⟩ := outstanding_pos_iff.mp (Nat.pos_of_ne_zero hpos)
  exact h task htask hpend

theorem await_in_flight (h : Reach (system cfg) (fun _ a i => Delivered cfg a i) s)
    (hparse : ¬ InFlight s (.jobCreated j)) (hp : AwaitsStitch s.shared j) :
    InFlight s (.stitchReady j) ∨ ∃ t, InFlight s (.ttsRequested j t) := by
  obtain ⟨_, ha, c, rfl, _, rfl⟩ := reach_stitch_owed h hp
  cases hb : c.msg.body with
  | jobCreated j => exact absurd ⟨_, ha, hb.trans (by rw [hb]; rfl)⟩ hparse
  | ttsRequested j t => exact .inr ⟨t, _, ha, hb⟩
  | stitchReady j => exact .inl ⟨_, ha, hb⟩

/-- In every run without drops, every job has a message that carries it on, or has ended, or is the
sweeper's to pick up. -/
theorem no_job_stranded {job : Job} (h : Reach (system cfg) (fun _ a i => Delivered cfg a i) s)
    (hg : s.shared.db.jobs.get j = some job) :
    job.status = .pending ∨ job.status = .completed ∨ InFlight s (.jobCreated j) ∨
    ((job.status = .generating ∨ job.status = .stitching) ∧
      (∀ task ∈ s.shared.db.tasksOf j, task.status = .pending →
        InFlight s (.ttsRequested j task.taskId)) ∧
      ((∀ task ∈ s.shared.db.tasksOf j, task.status ≠ .pending) →
        InFlight s (.stitchReady j) ∨ ∃ t, InFlight s (.ttsRequested j t))) := by
  by_cases hparse : InFlight s (.jobCreated j)
  · exact .inr (.inr (.inl hparse))
  have hstatus : s.shared.db.status j = some job.status := by rw [Db.status, hg, Option.map_some]
  cases hst : job.status with
  | pending => exact .inl rfl
  | completed => exact .inr (.inl rfl)
  | failed =>
    have hnf := (reach_no_recount (fun _ _ _ hd => hd.2) h).1
    exact absurd hst (hnf.job j job hg)
  | parsing =>
    obtain ⟨_, ha, c, rfl, _, hb⟩ := reach_parse_owed h (by rw [hstatus, hst])
    exact absurd ⟨_, ha, hb⟩ hparse
  | generating =>
    refine .inr (.inr (.inr ⟨.inl rfl, fun task => pending_task_in_flight h hparse, ?_⟩))
    exact fun hno => await_in_flight h hparse ⟨.inl (by rw [hstatus, hst]), outstanding_of_none hno⟩
  | stitching =>
    refine .inr (.inr (.inr ⟨.inr rfl, fun task => pending_task_in_flight h hparse, ?_⟩))
    exact fun hno => await_in_flight h hparse ⟨.inr (by rw [hstatus, hst]), outstanding_of_none hno⟩

end Stranded

/-- The worker crashes right after the seeding transaction; the redelivered message is parsed, and
the first attempt to synthesize fails. -/
def crashedThenRetried : List (Action Choice Env) :=
  .env (.post "j" "A" none) :: List.replicate 8 (.act 0 .go) ++ [.act 0 .crash] ++
    List.replicate 9 (.act 0 .go) ++ [.act 0 .go, .act 0 (.fail false), .act 0 .go, .act 0 .go]

set_option maxRecDepth 4000 in
theorem crashedThenRetried_reach :
    ∃ s, Reach (system {}) (fun _ a i => Delivered {} a i) s ∧
      s.shared.db.status "j" = some .generating ∧
      (∀ a ∈ s.agents, ¬ a.carries (.jobCreated "j")) ∧
      { taskId := "j-0", jobId := "j", blockIndex := 0, blockHash := contentHash "A" } ∈
        s.shared.db.tasksOf "j" :=
  System.exists_reach (C := fun _ a i => !a.loses {} i && !a.deadLettered {} i)
    (fun _ _ _ h => by simpa [Delivered] using h) crashedThenRetried (by decide +kernel)

/-- The block is still to be synthesized, and its message waits in a delay queue. -/
theorem no_job_stranded_after_crash :
    ∃ s, Reach (system {}) (fun _ a i => Delivered {} a i) s ∧
      s.shared.db.status "j" = some .generating ∧ InFlight s (.ttsRequested "j" "j-0") := by
  obtain ⟨s, h, hst, hno, htask⟩ := crashedThenRetried_reach
  obtain ⟨job, hg, hgen⟩ := Option.map_eq_some_iff.mp hst
  refine ⟨s, h, hst, ?_⟩
  rcases no_job_stranded h hg with hp | hc | ⟨a, ha, hparse⟩ | ⟨_, hpend, _⟩
  · rw [hgen] at hp
    cases hp
  · rw [hgen] at hc
    cases hc
  · exact absurd hparse (hno a ha)
  · exact hpend _ htask rfl

end Pipeline
end AudioEngine
