import AudioEngine.Pipeline.Seeding

/-!
# AudioEngine.Pipeline.Republish

Extra copies of `JobCreated` after the job has been parsed.

The sweeper and redeliveries put extra copies of `JobCreated` in flight. Once one of them has run
`handle_parse` to its end, the rows are there and the status is past `PARSING`: another copy that
parses finds its insert skipped and both compare-and-sets lost. A copy that fails on every attempt
instead reaches `handle_dlq`, which cannot tell that it was redundant and fails the job.
`republish_safe_iff` shows that this step is the only one of such a copy that changes the job.
-/

namespace AudioEngine
namespace Pipeline

open Relational Interleave

/-! ## After `handle_parse` -/

/-- A completed `handle_parse` leaves the job laid out and past `PARSING`. -/
def ParsedLaid (cfg : Settings) (sh : Shared) : Prop :=
  ∀ j, .parsed j ∈ sh.trace → Laid cfg sh j ∧ Past sh j 2

section Parsed

variable {cfg : Settings} {sh : Shared} {j : String}

theorem Agent.finishesParse.laid {a : Agent} (h : a.finishesParse j) (ha : a.Holds cfg sh) :
    Laid cfg sh j ∧ Past sh j 2 := by
  obtain ⟨c, pc, rfl, rfl, hst, hlast⟩ := h
  have hok := ha.2.2
  rw [hst] at hok
  obtain ⟨j, hj, hpc⟩ := hok
  rw [hj]
  cases pc with
  | publishStitch =>
    obtain ⟨⟨text, hl, _⟩, hp⟩ := hpc
    exact ⟨⟨text, hl⟩, hp⟩
  | publishTts n i =>
    obtain ⟨⟨text, hl, _⟩, _, hp⟩ := hpc
    exact ⟨⟨text, hl⟩, hp⟩
  | _ => exact hlast.elim

theorem reach_parsedLaid {C : Shared → Agent → Choice → Prop} {s : State}
    (h : Reach (system cfg) C s) : ParsedLaid cfg s.shared := by
  refine Reach.shared (G := ParsedLaid cfg) ?_ ?_ ?_ h
  · intro j hj
    cases hj
  · intro s a i sh' outs hr ha _ hg hact j hj
    obtain ⟨hs, hA⟩ := reach_data hr
    have he := (act_data hs (hA a ha) hact).1.evolves hs
    have hold : Laid cfg s.shared j ∧ Past s.shared j 2 := by
      rcases act_logs hact hj with hj | hlog
      · exact hg j hj
      · cases hlog with
        | call hc => cases hc
        | parsed hfin => exact hfin.laid (hA a ha)
    obtain ⟨⟨text, hl⟩, hp⟩ := hold
    exact ⟨⟨text, he.laid j text hl⟩, hp.mono he⟩
  · intro s x sh' outs hr hg henv j hj
    have hs := (reach_data hr).1
    have he := (env_data hs henv .none).1.evolves hs
    rcases env_logs henv hj with hj | ⟨_, _, hpost⟩
    · obtain ⟨⟨text, hl⟩, hp⟩ := hg j hj
      exact ⟨⟨text, he.laid j text hl⟩, hp.mono he⟩
    · cases hpost

end Parsed

/-! ## Copies that come too late -/

section Late

variable {cfg : Settings} {sh sh' : Shared} {j : String}

/-- The insert of a late copy is skipped and its compare-and-sets lose. -/
theorem parse_late (hs : Sound cfg sh) (hl : Laid cfg sh j) (hp : Past sh j 2) {pc : ParsePc}
    (hok : ParseOk cfg sh j pc) :
    (parseStep cfg sh (.jobCreated j) pc).Leaves fun sh' => jobView sh' j = jobView sh j := by
  obtain ⟨job, hjob, hrank⟩ := hp
  cases pc with
  | seed blocks =>
    obtain ⟨text, ht, rfl⟩ := hok
    simp only [parseStep, Event.jobId_jobCreated]
    split
    · trivial
    · rename_i db won hexec
      rcases hs.seed_cases hjob ht (executeSeed_eq_ok.mp hexec).2 with
        ⟨hnil, hrows, ⟨_, hpend, _⟩ | ⟨_, _, hjobs⟩⟩ | ⟨_, rfl, _, _⟩
      · rw [hpend] at hrank
        cases hrank
      · -- laid out without rows: there is no block to insert
        obtain ⟨text', hl⟩ := hl
        obtain rfl : text' = text := Option.some.inj (hl.stored.symm.trans ht)
        have hlen := hl.length
        rw [hnil, List.length_nil] at hlen
        refine jobView_eq (by rw [hjobs]) ?_
        rw [tasksOf_appended hrows, List.eq_nil_of_length_eq_zero hlen.symm]
        simp [taskRows]
      · rfl
  | advance n =>
    have hlost : (advanceStatus sh.db j .generating).1 = sh.db := by
      refine advanceStatus_lost hjob ?_
      rw [Bool.eq_false_iff, ne_eq, JobStatus.canTransition_generating]
      intro hst
      rw [hst] at hrank
      exact absurd hrank (by decide)
    exact jobView_eq (congrArg (fun db => db.jobs.get j) hlost) (congrArg (fun db => db.tasksOf j) hlost)
  | publishStitch => rfl
  | publishTts n i => simp only [parseStep]; split <;> rfl
  | _ => simp only [parseStep]; (try split) <;> trivial

/-- The step of the dead-letter consumer that fails a parsed job. -/
def FailsParsed (j : String) (t : Taken Shared Agent Choice) : Prop :=
  ∃ c, t.agent = .copy c ∧ c.msg.body = .jobCreated j ∧ c.stage = .dlq .advanceFailed ∧
    t.choice = .go ∧ .parsed j ∈ t.before.trace ∧
    ∃ st, t.before.db.status j = some st ∧ st.terminal = false

/-- One step of a copy of `JobCreated` for a parsed job. -/
theorem late_step {C : Shared → Agent → Choice → Prop} {s : State} {c : Copy} {i : Choice}
    {outs : List Agent} (hr : Reach (system cfg) C s) (hc : .copy c ∈ s.agents)
    (he : c.msg.body = .jobCreated j) (hp : .parsed j ∈ s.shared.trace)
    (hact : act cfg s.shared (.copy c) i = some (sh', outs)) :
    jobView sh' j = jobView s.shared j ∨ FailsParsed j ⟨s.shared, .copy c, i, sh'⟩ := by
  obtain ⟨hs, hA⟩ := reach_data hr
  obtain ⟨hl, hpast⟩ := reach_parsedLaid hr j hp
  have ⟨_, _, hok⟩ := hA _ hc
  cases act_moves hact with
  | @work w w' sh₁ pub hst hstep =>
    obtain ⟨pc, rfl, hpc⟩ := work_jobCreated (hA _ hc) he hst
    rw [he] at hstep
    obtain ⟨pc', hn, _⟩ := Next.map_eq_goto hstep
    have hlate := parse_late hs hl hpast hpc
    rw [hn] at hlate
    exact .inl ((jobView_emit pub).trans hlate)
  | @returned w sh₁ pub hst hstep =>
    obtain ⟨pc, rfl, hpc⟩ := work_jobCreated (hA _ hc) he hst
    rw [he] at hstep
    have hlate := parse_late hs hl hpast hpc
    rw [Next.map_eq_done hstep] at hlate
    exact .inl ((jobView_emit pub).trans hlate)
  | @dlq pc pc' sh₁ pub hst hstep =>
    rw [hst, he] at hok
    rw [he] at hstep
    cases pc with
    | resolve => cases hstep; exact .inl rfl
    | failTask =>
      obtain ⟨_, _, hj'⟩ := hok
      cases hj'
    | publish => cases hstep
    | advanceFailed => cases hstep
  | @dlqReturned pc sh₁ pub hst hstep =>
    rw [hst, he] at hok
    rw [he] at hstep
    cases pc with
    | resolve => cases hstep
    | failTask =>
      obtain ⟨_, _, hj'⟩ := hok
      cases hj'
    | publish =>
      obtain ⟨_, _, hj'⟩ := hok
      cases hj'
    | advanceFailed =>
      obtain ⟨job, hjob, _⟩ := hpast
      cases hterm : job.status.terminal with
      | false =>
        exact .inr ⟨c, rfl, he, hst, rfl, hp, job.status, by rw [Db.status, hjob]; rfl, hterm⟩
      | true =>
        have hlost : (advanceStatus s.shared.db j .failed).1 = s.shared.db :=
          advanceStatus_lost hjob (JobStatus.terminal_iff.mp hterm _)
        cases hstep
        exact .inl (jobView_eq (congrArg (fun db => db.jobs.get j) hlost)
          (congrArg (fun db => db.tasksOf j) hlost))
  | _ => exact .inl rfl

/-- The failing step does change the job. -/
theorem FailsParsed.changes {t : Taken Shared Agent Choice} {outs : List Agent}
    (h : FailsParsed j t) (hact : act cfg t.before t.agent t.choice = some (t.after, outs)) :
    jobView t.after j ≠ jobView t.before j := by
  obtain ⟨before, agent, choice, after⟩ := t
  obtain ⟨c, rfl, he, hst, rfl, _, st, hstatus, hterm⟩ := h
  obtain ⟨job, hjob, rfl⟩ := Option.map_eq_some_iff.mp hstatus
  replace hact : c.act cfg before .go = some (after, outs) := hact
  simp only [Copy.act, hst, he, dlqStep, Option.some.injEq, Prod.mk.injEq] at hact
  obtain ⟨rfl, _⟩ := hact
  intro hv
  have hsame : (advanceStatus before.db j .failed).1.status j = before.db.status j := by
    have := congrArg (fun v => v.1.map Prod.fst) hv
    simpa [jobView, emit, Shared.log, Db.status, Function.comp_def] using this
  rw [advanceStatus_won hjob (JobStatus.canTransition_failed.mpr hterm), hstatus] at hsame
  rw [← Option.some.inj hsame] at hterm
  cases hterm

/-- Over every run: no step of a copy of `JobCreated` for a parsed job changes status, counter or
rows, exactly when no such copy is resolved by the dead-letter consumer before the job has ended. -/
theorem republish_safe_iff {h : List (Taken Shared Agent Choice)} {s : State}
    (ht : Trail (system cfg) h s) (j : String) :
    (∀ t ∈ h, t.agent.carries (.jobCreated j) → .parsed j ∈ t.before.trace →
      jobView t.after j = jobView t.before j) ↔
    ∀ t ∈ h, ¬ FailsParsed j t := by
  constructor
  · intro hsafe t hm hfail
    obtain ⟨_, outs, _, _, _, hact⟩ := ht.taken hm
    refine hfail.changes hact (hsafe t hm ?_ ?_)
    · obtain ⟨c, ha, he, _⟩ := hfail
      rw [ha]; exact he
    · obtain ⟨_, _, _, _, _, hp, _⟩ := hfail
      exact hp
  · intro hno t hm hcarry hp
    obtain ⟨s₀, outs, hr, hbefore, hmem, hact⟩ := ht.taken hm
    obtain ⟨before, agent, choice, after⟩ := t
    dsimp only at hbefore hmem hact hcarry hp
    subst hbefore
    cases agent with
    | copy c =>
      rcases late_step hr hmem hcarry hp hact with hview | hfail
      · exact hview
      · exact absurd hfail (hno _ hm)
    | create k cb pc => exact hcarry.elim
    | sweep stale => exact hcarry.elim

end Late

/-- Two copies of `JobCreated` are in flight and the first has been parsed. -/
def parsedOnce : List (Action Choice Env) :=
  [.env (.post "j" "A" none), .act 0 .go, .act 0 .go, .act 0 .duplicate] ++
    List.replicate 9 (.act 0 .go)

/-- The step is one of the dead-letter consumer. -/
def Agent.onDlq : Agent → Bool
  | .copy c => match c.stage with
    | .dlq _ => true
    | _ => false
  | _ => false

theorem not_failsParsed {j : String} {t : Taken Shared Agent Choice} (h : t.agent.onDlq = false) :
    ¬ FailsParsed j t := by
  rintro ⟨c, ha, _, hst, _⟩
  rw [ha, Agent.onDlq, hst] at h
  cases h

set_option maxRecDepth 4000 in
theorem parsedTwice_trail : ∃ h s, Trail (system {}) h s ∧ (∀ t ∈ h, t.agent.onDlq = false) ∧
    ∃ t ∈ h, t.agent.carries (.jobCreated "j") ∧ .parsed "j" ∈ t.before.trace ∧
      t.after.trace.count (.parsed "j") = 2 :=
  System.exists_trail (parsedOnce ++ .act 1 .go :: List.replicate 7 (.act 0 .go))
    (by decide +kernel)

/-- The second copy parses too, and nothing changes. -/
theorem republish_safe_second_parse :
    ∃ h s, Trail (system {}) h s ∧
      (∃ t ∈ h, t.agent.carries (.jobCreated "j") ∧ .parsed "j" ∈ t.before.trace ∧
        t.after.trace.count (.parsed "j") = 2) ∧
      ∀ t ∈ h, t.agent.carries (.jobCreated "j") → .parsed "j" ∈ t.before.trace →
        jobView t.after "j" = jobView t.before "j" := by
  obtain ⟨h, s, ht, hcalm, hlate⟩ := parsedTwice_trail
  exact ⟨h, s, ht, hlate, (republish_safe_iff ht "j").mpr fun t hm => not_failsParsed (hcalm t hm)⟩

set_option maxRecDepth 4000 in
/-- The second copy fails on every attempt: the job goes from `GENERATING` to `FAILED`. -/
theorem republish_fails_job :
    ∃ h s, Trail (system {}) h s ∧ ∃ t ∈ h, t.agent.carries (.jobCreated "j") ∧
      .parsed "j" ∈ t.before.trace ∧ t.before.db.status "j" = some .generating ∧
      t.after.db.status "j" = some .failed ∧ jobView t.after "j" ≠ jobView t.before "j" :=
  System.exists_trail (parsedOnce ++ [.act 1 .go, .act 0 (.fail false), .act 0 .go, .act 0 .go,
    .act 0 .go] ++ (List.replicate 3 failedAttempt).flatten ++ List.replicate 2 (.act 0 .go))
    (by decide +kernel)

end Pipeline
end AudioEngine
