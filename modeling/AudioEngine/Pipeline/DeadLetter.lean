import AudioEngine.Pipeline.Delivery
import AudioEngine.Pipeline.Seeding

/-!
# AudioEngine.Pipeline.DeadLetter

Redelivery to the dead-letter consumer.

The claim that takes the counter to zero commits before its `StitchReady` is published. Whoever made
it owes the announcement, and a crash in between leaves it to the redelivered message. `handle_tts`
pays: when its claim comes back empty it reads the counter again. `handle_dlq` does not: a claim
that comes back empty ends it, so a message interrupted between commit and publish is acked without
a word.

`dead_letter_announced` shows that this is the only leak: in every run in which no dead letter is
resolved that way (and no message is lost by `ack_last`), a crossing that has not been announced is
still owed by a `TtsRequested` in flight. `dead_letter_swallowed` is the run that leaks.
-/

namespace AudioEngine
namespace Pipeline

open Relational Interleave

/-- The counter of a fanned-out job is at zero and no `StitchReady` has been published for it. -/
structure Unannounced (sh : Shared) (j : String) : Prop where
  rows : sh.db.tasksOf j ≠ []
  zero : ∃ job, sh.db.jobs.get j = some job ∧ job.status.terminal = false ∧ job.pendingCount = 0
  silent : .published (.live .stitch) (.stitchReady j) ∉ sh.trace

/-- The step resolves a dead letter whose task is settled already, while the counter is at zero and
nothing has been announced. -/
def Copy.swallows (sh : Shared) (c : Copy) (i : Choice) : Bool :=
  match c.stage, i with
  | .dlq .failTask, .go =>
    (sh.db.tasks.get c.msg.body.taskId).any (fun t => t.status != .pending) &&
      (sh.db.jobs.get c.msg.body.jobId).any (fun job => !job.status.terminal && job.pendingCount == 0) &&
      !decide (.published (.live .stitch) (.stitchReady c.msg.body.jobId) ∈ sh.trace)
  | _, _ => false

def Agent.swallows (sh : Shared) (a : Agent) (i : Choice) : Bool :=
  match a with
  | .copy c => c.swallows sh i
  | _ => false

/-! ## Who brings the counter to zero -/

section Start

variable {cfg : Settings} {F : Licence} {sh sh' : Shared} {j : String}

theorem silent_mono {o : Obs} (he : Evolves cfg sh sh') (h : o ∉ sh'.trace) : o ∉ sh.trace := by
  obtain ⟨os, ht⟩ := he.trace
  intro hm
  exact h (by rw [ht]; exact List.mem_append_right os hm)

theorem Unannounced.of_view (h : Unannounced sh' j) (hv : jobView sh' j = jobView sh j)
    (he : Evolves cfg sh sh') : Unannounced sh j where
  rows := by
    have hrows := congrArg Prod.snd hv
    rw [← show sh'.db.tasksOf j = sh.db.tasksOf j from hrows]
    exact h.rows
  zero := by
    obtain ⟨job', hg', hterm, h0⟩ := h.zero
    have hjob : (sh'.db.jobs.get j).map (fun job => (job.status, job.pendingCount)) =
        (sh.db.jobs.get j).map fun job => (job.status, job.pendingCount) := congrArg Prod.fst hv
    rw [hg', Option.map_some] at hjob
    obtain ⟨job, hg, heq⟩ := Option.map_eq_some_iff.mp hjob.symm
    simp only [Prod.mk.injEq] at heq
    exact ⟨job, hg, by rw [heq.1]; exact hterm, by rw [heq.2]; exact h0⟩
  silent := silent_mono he h.silent

/-- A compare-and-set does not bring the counter to zero. -/
theorem cas_unannounced {st : JobStatus} {set : Job → Job} {hset : ∀ r, (set r).jobId = r.jobId}
    {won : Bool} (h : casJob sh.db j st.expectedFor set hset = (sh'.db, won))
    (hset' : ∀ r, (set r).pendingCount = r.pendingCount) (he : Evolves cfg sh sh')
    (hu : Unannounced sh' j) : Unannounced sh j where
  rows := by
    rw [← cas_tasksOf h j]
    exact hu.rows
  zero := by
    obtain ⟨job', hg', hterm, h0⟩ := hu.zero
    rcases casJob_cases h with ⟨_, hsame, _⟩ | ⟨_, _, job, hg, hm, hget⟩
    · rw [hsame] at hg'
      exact ⟨job', hg', hterm, h0⟩
    · rw [hget, if_pos rfl] at hg'
      cases hg'
      refine ⟨job, hg, ?_, by rw [← hset']; exact h0⟩
      -- a status that has a successor is not terminal
      cases hj : job.status.terminal with
      | false => rfl
      | true =>
        rw [JobStatus.mem_expectedFor, JobStatus.terminal_iff.mp hj] at hm
        cases hm
  silent := silent_mono he hu.silent

/-- The seeding transaction sets the counter to the number of rows. -/
theorem Sound.seed_unannounced {text : String} {job : Job} {won : Bool} (hs : Sound cfg sh)
    (hjob : sh.db.jobs.get j = some job) (ht : sh.getText (rawKey j) = some text)
    (hseed : seedTasks sh.db j (blocksOf cfg text) = .ok (sh'.db, won)) (he : Evolves cfg sh sh')
    (hu : Unannounced sh' j) : Unannounced sh j := by
  obtain ⟨job', hg', hterm, h0⟩ := hu.zero
  rcases hs.seed_cases hjob ht hseed with
    ⟨hnil, hrows, ⟨_, hpend, hget⟩ | ⟨_, hf, hjobs⟩⟩ | ⟨_, hsame, _, _⟩
  · rw [hget, if_pos rfl] at hg'
    cases hg'
    have hlen : blocksOf cfg text = [] := List.eq_nil_of_length_eq_zero (by simpa using h0)
    refine absurd ?_ hu.rows
    rw [tasksOf_appended hrows, hnil, hlen]
    simp [taskRows]
  · rw [hjobs, hjob] at hg'
    cases hg'
    rw [hf] at hterm
    cases hterm
  · exact hu.of_view (by rw [jobView, hsame]; rfl) he

/-- Whoever brings the counter to zero stands at a claim of the job. -/
theorem Effect.unannounced_start (h : Effect cfg F sh sh') (hs : Sound cfg sh)
    (hu : Unannounced sh' j) : Unannounced sh j ∨ F.claims j := by
  have hev := h.evolves hs
  cases h.touch hs j with
  | other hv => exact .inl (hu.of_view hv hev)
  | created hnone _ hrows =>
    -- a job that did not exist has no rows
    obtain ⟨t, ht⟩ := List.exists_mem_of_ne_nil _ hu.rows
    rw [hrows] at ht
    obtain ⟨_, job, hg, _⟩ := hs.laid_of_row ht
    rw [hnone] at hg
    cases hg
  | seeds hjob ht hseed _ => exact .inl (hs.seed_unannounced hjob ht hseed hev hu)
  | cas h hset _ => exact .inl (cas_unannounced h hset hev hu)
  | claims hF => exact .inr hF

end Start

/-! ## Who owes the announcement -/

/-- A `TtsRequested` for `j` whose handler, or whose dead-letter consumer, has not returned. -/
def Agent.owesReady (j : String) (a : Agent) : Prop :=
  ∃ c t, a = .copy c ∧ c.msg.body = .ttsRequested j t ∧ c.stage ≠ .acking ∧ c.stage ≠ .dlqAcking

section Duty

variable {cfg : Settings} {sh sh₁ sh' : Shared} {c : Copy} {i : Choice} {outs : List Agent}
  {pub : Option (Live × Event)} {j t : String}

/-- Publishing ends the silence. -/
theorem not_unannounced_emit (sh : Shared) (j : String) :
    ¬ Unannounced (emit sh (some (.stitch, .stitchReady j))).1 j :=
  fun hu => hu.silent List.mem_cons_self

theorem Unannounced.count_ne (h : Unannounced (emit sh₁ pub).1 j) :
    ¬ ∀ job, sh₁.db.jobs.get j = some job → job.pendingCount ≠ 0 := by
  obtain ⟨job, hg, _, h0⟩ := h.zero
  rw [db_emit] at hg
  exact fun hne => hne job hg h0

/-- `handle_dlq` returns by announcing the barrier, unless the counter has not reached it or the
task was settled before. -/
theorem dlq_returns {pc : DlqPc} (hok : DlqOk (.ttsRequested j t) pc)
    (h : dlqStep sh (.ttsRequested j t) pc = .done sh₁ pub) :
    pub = some (.stitch, .stitchReady j) ∨
    (∀ job, sh₁.db.jobs.get j = some job → job.pendingCount ≠ 0) ∨
    (pc = .failTask ∧ (∃ o, sh₁ = sh.log o) ∧
      ∀ task, sh.db.tasks.get t = some task → task.status ≠ .pending) := by
  cases pc with
  | resolve => cases h
  | publish => cases h; exact .inl rfl
  | advanceFailed => cases hok
  | failTask =>
    simp only [dlqStep, Event.jobId_ttsRequested, Event.taskId_ttsRequested] at h
    split at h
    · cases h
    · rename_i db r hc
      split at h
      · cases h
      · rename_i hr
        cases h
        rcases failTask_cases hc with ⟨rfl, rfl, hset⟩ | ⟨_, job, _, rfl, hcl⟩
        · exact .inr (.inr ⟨rfl, ⟨_, rfl⟩, hset⟩)
        · refine .inr (.inl ?_)
          intro job' hg'
          replace hg' := (hcl.jobs j).symm.trans hg'
          rw [if_pos rfl] at hg'
          cases hg'
          exact fun h0 => hr (congrArg some h0)

/-- An empty claim at zero, before the announcement, is the step the runs leave out. -/
theorem swallows_of_empty (hst : c.stage = .dlq .failTask) (hb : c.msg.body = .ttsRequested j t)
    (hu : Unannounced sh j) {task : Task} (ht : sh.db.tasks.get t = some task)
    (hset : task.status ≠ .pending) : Agent.swallows sh (.copy c) .go = true := by
  obtain ⟨job, hg, hterm, h0⟩ := hu.zero
  have hsilent := hu.silent
  simp [Agent.swallows, Copy.swallows, hst, hb, ht, hset, hg, hterm, h0, hsilent]

variable {C : Shared → Agent → Choice → Prop} {s : State}

theorem passes_ready (h : (Agent.copy c).Holds cfg sh) (hp : Passes cfg sh c i sh' outs)
    (hno : Agent.swallows sh (.copy c) i = false)
    (hb : c.msg.body = .ttsRequested j t) (hst : c.stage ≠ .acking) (hst' : c.stage ≠ .dlqAcking)
    (hu : Unannounced sh' j) : ∃ b ∈ outs, b.owesReady j := by
  cases hp with
  | waits hm hbody hw =>
    exact ⟨_, hm, _, t, rfl, hbody.trans hb, hw.ne_acking, hw.ne_dlqAcking⟩
  | goto _ _ _ houts =>
    subst houts
    exact ⟨_, List.mem_cons_self, _, t, rfl, hb, by simp, by simp⟩
  | @done w sh₁ pub hw hstep hsh _ =>
    obtain ⟨pc, rfl, _⟩ := work_ttsRequested h hb hw
    rw [hb] at hstep
    subst hsh
    rcases tts_returns (Next.map_eq_done hstep) with rfl | hne
    · exact absurd hu (not_unannounced_emit _ _)
    · exact absurd hne hu.count_ne
  | acked hack => exact absurd hack hst
  | dlq hp =>
    cases hp with
    | goto _ _ _ houts =>
      subst houts
      exact ⟨_, List.mem_cons_self, _, t, rfl, hb, by simp, by simp⟩
    | @done pc sh₁ pub hpc hgo hstep hsh _ =>
      have ⟨_, he, hok⟩ := h
      rw [hpc, hb] at hok
      rw [hb] at hstep he
      subst hsh
      rcases dlq_returns hok hstep with rfl | hne | ⟨rfl, ⟨o, rfl⟩, hset⟩
      · exact absurd hu (not_unannounced_emit _ _)
      · exact absurd hne hu.count_ne
      · obtain ⟨⟨task, htask, _⟩, _⟩ := he
        have hev : Evolves cfg sh (emit (sh.log o) pub).1 := by
          cases pub with
          | none => exact (Evolves.refl cfg sh).log o
          | some p => exact ((Evolves.refl cfg sh).log o).log _
        have hold : Unannounced sh j := hu.of_view (jobView_emit pub) hev
        rw [hgo, swallows_of_empty hpc hb hold htask (hset task htask)] at hno
        cases hno
    | acked hack => exact absurd hack hst'

theorem reach_ready_owed (hl : ∀ sh a i, C sh a i → a.loses cfg i = false)
    (hC : ∀ sh a i, C sh a i → a.swallows sh i = false) (h : Reach (system cfg) C s)
    (hu : Unannounced s.shared j) : ∃ a ∈ s.agents, a.owesReady j := by
  refine Reach.owed (P := fun sh => Unannounced sh j) (O := Agent.owesReady j) ?_ ?_ ?_ ?_ h hu
  · rintro ⟨hrows, _, _⟩
    exact hrows rfl
  · intro s a i sh' outs hr ha _ hact hu
    refine ((reach_act hr ha hact).unannounced_start (reach_data hr).1 hu).imp_right ?_
    rintro ⟨c, t, rfl, _, hb, ⟨key, hst⟩ | hst⟩
    · exact ⟨c, t, rfl, hb, by rw [hst]; simp, by rw [hst]; simp⟩
    · exact ⟨c, t, rfl, hb, by rw [hst]; simp, by rw [hst]; simp⟩
  · intro s a i sh' outs hr ha hc hact hu ho
    obtain ⟨c, t, rfl, hb, hst, hst'⟩ := ho
    exact passes_ready ((reach_data hr).2 _ ha) (reach_passes hl hr ha hc hact) (hC _ _ _ hc) hb hst
      hst' hu
  · intro s x sh' outs hr henv hu
    exact ((reach_env hr henv .none).unannounced_start (reach_data hr).1 hu).resolve_right id

/-- In every run in which `ack_last` loses no message and no dead letter is resolved by an empty
claim while the counter is at zero and unannounced: whenever a dead-lettered `TtsRequested` is acked
and the counter of its job is at zero, the `StitchReady` has been published or another
`TtsRequested` of the job is in flight. -/
theorem dead_letter_announced {rest : List Agent} {job : Job}
    (h : Reach (system cfg) (fun sh a i => a.loses cfg i = false ∧ a.swallows sh i = false) s)
    (hp : s.agents.Perm (.copy c :: rest)) (hst : c.stage = .dlqAcking)
    (hb : c.msg.body = .ttsRequested j t) (hg : s.shared.db.jobs.get j = some job)
    (hterm : job.status.terminal = false) (h0 : job.pendingCount = 0) :
    .published (.live .stitch) (.stitchReady j) ∈ s.shared.trace ∨
      ∃ b ∈ rest, ∃ t', b.carries (.ttsRequested j t') := by
  by_cases hpub : .published (.live .stitch) (.stitchReady j) ∈ s.shared.trace
  · exact .inl hpub
  · refine .inr ?_
    have he := ((reach_data h).2 _ (hp.mem_iff.mpr List.mem_cons_self)).2.1
    rw [hb] at he
    obtain ⟨⟨task, htask, howner⟩, _⟩ := he
    have hid := (Table.get_eq_some.mp htask).2
    have hrows : s.shared.db.tasksOf j ≠ [] :=
      List.ne_nil_of_mem (mem_tasksOf.mpr ⟨by rw [hid]; exact htask, howner⟩)
    obtain ⟨_, ha, c', t', rfl, hb', _, hne⟩ := reach_ready_owed (fun _ _ _ hc => hc.1)
      (fun _ _ _ hc => hc.2) h ⟨hrows, ⟨job, hg, hterm, h0⟩, hpub⟩
    rcases List.mem_cons.mp (hp.mem_iff.mp ha) with he | hm
    · cases he
      exact absurd hst hne
    · exact ⟨_, hm, t', hb'⟩

end Duty

/-- The message of the only block fails on every attempt and is claimed by the dead-letter
consumer, up to the point before the publish. -/
def deadLetterClaimed : List (Action Choice Env) :=
  .env (.post "j" "A" none) :: List.replicate 11 (.act 0 .go) ++
    (List.replicate 4 failedAttempt).flatten ++ [.act 0 .go, .act 0 .go]

/-- The dead letter of the only block, after its resolution. -/
def resolved : Agent :=
  .copy { queue := .dlq,
          msg := { body := .ttsRequested "j" "j-0", contentType := some "application/json",
                   headers := [(headerRetryCount, .int 4)] },
          stage := .dlqAcking }

set_option maxRecDepth 4000 in
theorem deadLetterClaimed_reach :
    ∃ s, Reach (system {}) (fun sh a i => a.loses {} i = false ∧ a.swallows sh i = false) s ∧
      s.agents = [resolved, .copy { queue := .live .stitch, msg := publishMessage (.stitchReady "j") }] ∧
      (s.shared.db.jobs.get "j").map (fun job => (job.status, job.pendingCount)) =
        some (.generating, 0) :=
  System.exists_reach (C := fun sh a i => !a.loses {} i && !a.swallows sh i)
    (fun _ _ _ h => by simpa using h) (deadLetterClaimed ++ [.act 0 .go]) (by decide +kernel)

/-- Uninterrupted, the resolution ends with the announcement. -/
theorem dead_letter_announced_uninterrupted :
    ∃ s, Reach (system {}) (fun sh a i => a.loses {} i = false ∧ a.swallows sh i = false) s ∧
      resolved ∈ s.agents ∧ .published (.live .stitch) (.stitchReady "j") ∈ s.shared.trace := by
  obtain ⟨s, h, hagents, hjob⟩ := deadLetterClaimed_reach
  obtain ⟨job, hg, heq⟩ := Option.map_eq_some_iff.mp hjob
  simp only [Prod.mk.injEq] at heq
  refine ⟨s, h, by rw [hagents]; exact List.mem_cons_self, ?_⟩
  rcases dead_letter_announced h (.of_eq hagents) rfl rfl hg (by rw [heq.1]; rfl) heq.2 with
    hpub | ⟨b, hb, t, hcarries⟩
  · exact hpub
  · rw [List.mem_singleton] at hb
    subst hb
    cases hcarries

/-- The event is a `StitchReady` for the job, on whatever queue. -/
def announces (j : String) : Obs → Bool
  | .published _ (.stitchReady k) => decide (k = j)
  | _ => false

set_option maxRecDepth 4000 in
/-- The worker crashes between the commit and the publish. The redelivered dead letter is about to
be acked: the counter is at zero, no `StitchReady` was ever published, and nothing else is left. -/
theorem dead_letter_swallowed :
    ∃ s, Reach (system {}) (fun _ _ _ => True) s ∧ s.agents = [resolved] ∧
      (s.shared.db.jobs.get "j").map (fun job => (job.status, job.pendingCount)) =
        some (.generating, 0) ∧
      s.shared.trace.countP (announces "j") = 0 :=
  System.exists_reach (C := fun _ _ _ => true) (fun _ _ _ _ => trivial)
    (deadLetterClaimed ++ [.act 0 .crash] ++ List.replicate 3 (.act 0 .go)) (by decide +kernel)

end Pipeline
end AudioEngine
