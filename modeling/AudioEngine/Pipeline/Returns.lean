import AudioEngine.Pipeline.Asset

/-!
# AudioEngine.Pipeline.Returns

The states of a job that somebody has to carry on, how a step can enter them, and what a handler
has left behind for them when it returns.
-/

namespace AudioEngine
namespace Pipeline

open Relational Interleave

/-- The task of the `k`th block of `j` is `PENDING`. -/
def PendingTask (sh : Shared) (j : String) (k : Nat) : Prop :=
  ∃ task, sh.db.tasks.get (taskIdOf j k) = some task ∧ task.jobId = j ∧ task.status = .pending

/-- The fan-out of the job is over and nothing is left to synthesize. -/
def AwaitsStitch (sh : Shared) (j : String) : Prop :=
  (sh.db.status j = some .generating ∨ sh.db.status j = some .stitching) ∧ sh.db.outstanding j = 0

section Start

variable {cfg : Settings} {F : Licence} {sh sh' : Shared} {j : String}

theorem Effect.parsing_start (h : Effect cfg F sh sh') (hs : Sound cfg sh)
    (hp : sh'.db.status j = some .parsing) : sh.db.status j = some .parsing ∨ F.seeds j := by
  obtain ⟨job', hg', hst'⟩ := Option.map_eq_some_iff.mp hp
  rcases (h.row hs hg').status with ⟨_, hpend⟩ | ⟨job, hg, hst | hst⟩
  · rw [hst'] at hpend
    cases hpend
  · exact .inl (by rw [Db.status, hg, Option.map_some, ← hst, hst'])
  · rw [hst', JobStatus.canTransition_parsing] at hst
    exact .inr (h.parsing_begun hs hg hst hg' hst').2

/-- Only the seeding transaction adds a `PENDING` row. -/
theorem Effect.pending_start (h : Effect cfg F sh sh') (hs : Sound cfg sh) {t : String} {task : Task}
    (hg : sh'.db.tasks.get t = some task) (hp : task.status = .pending) :
    sh.db.tasks.get t = some task ∨ F.seeds task.jobId := by
  have claimed : ∀ {db : Db} {k t' : String} {x x' : Task} {job : Job},
      Claimed sh.db db k t' x x' job → x'.status ≠ .pending → db.tasks.get t = some task →
      sh.db.tasks.get t = some task := by
    intro db k t' x x' job hc hx hg
    rw [hc.tasks] at hg
    split at hg
    · cases hg
      exact absurd hp hx
    · exact hg
  cases h with
  | stores h => exact .inl (h.db ▸ hg)
  | insertJob _ _ => exact .inl hg
  | seed hjob ht hseed _ hseeds =>
    rcases (hs.seed_tasks hjob ht hseed).mp hg with hold | ⟨_, hm, _⟩
    · exact .inl hold
    · obtain ⟨_, _, _, rfl⟩ := mem_taskRows.mp hm
      exact .inr hseeds
  | advance _ h =>
    rw [Shared.log, cas_tasks h] at hg
    exact .inl hg
  | finalize h _ =>
    rw [Shared.log, cas_tasks h] at hg
    exact .inl hg
  | complete _ _ _ hc _ =>
    rcases completeTask_cases hc with ⟨_, rfl, _⟩ | ⟨_, _, _, _, hcl⟩
    · exact .inl hg
    · exact .inl (claimed hcl (by simp) hg)
  | fail _ _ hc _ =>
    rcases failTask_cases hc with ⟨_, rfl, _⟩ | ⟨_, _, _, _, hcl⟩
    · exact .inl hg
    · exact .inl (claimed hcl (by simp) hg)

theorem status_of_view (h : jobView sh' j = jobView sh j) : sh'.db.status j = sh.db.status j := by
  have := congrArg (fun v => v.1.map Prod.fst) h
  simpa [jobView, Db.status, Function.comp_def] using this

theorem rows_of_view (h : jobView sh' j = jobView sh j) : sh'.db.tasksOf j = sh.db.tasksOf j :=
  congrArg Prod.snd h

theorem Effect.await_start (h : Effect cfg F sh sh') (hs : Sound cfg sh) (hp : AwaitsStitch sh' j) :
    AwaitsStitch sh j ∨ F.seeds j ∨ F.finalizes j ∨ F.works j ∨ F.claims j ∨ F.deadLetter := by
  obtain ⟨hst, h0⟩ := hp
  cases h.touch hs j with
  | other hv =>
    refine .inl ⟨by rw [← status_of_view hv]; exact hst, ?_⟩
    rw [outstanding_eq, ← rows_of_view hv, ← outstanding_eq]
    exact h0
  | created _ hpend _ =>
    rw [hpend] at hst
    rcases hst with hst | hst <;> cases hst
  | seeds _ _ _ hF => exact .inr (.inl hF)
  | cas _ _ hF =>
    rcases hF with hF | hF | hF
    · exact .inr (.inr (.inl hF))
    · exact .inr (.inr (.inr (.inl hF)))
    · exact .inr (.inr (.inr (.inr (.inr hF))))
  | claims hF => exact .inr (.inr (.inr (.inr (.inl hF))))

end Start

/-! ## What a handler has left behind when it returns -/

section Returns

variable {cfg : Settings} {sh sh₁ : Shared} {j t : String} {pub : Option (Live × Event)}

theorem parse_returns {pc : ParsePc} (h : parseStep cfg sh (.jobCreated j) pc = .done sh₁ pub) :
    (pc = .publishStitch ∧ pub = some (.stitch, .stitchReady j)) ∨
    ∃ n i, pc = .publishTts n i ∧ n ≤ i + 1 ∧
      pub = some (.tts, .ttsRequested j (taskIdOf j i)) := by
  cases pc with
  | publishStitch =>
    cases h
    exact .inl ⟨rfl, rfl⟩
  | publishTts n i =>
    simp only [parseStep] at h
    split at h
    · cases h
    · rename_i hlt
      cases h
      exact .inr ⟨n, i, rfl, by omega, rfl⟩
  | _ =>
    simp only [parseStep] at h
    (try split at h) <;> cases h

/-- The publishing loop of `handle_parse` leaves no index out. -/
theorem parse_publishes {pc : ParsePc} {n i : Nat}
    (h : parseStep cfg sh (.jobCreated j) pc = .goto sh₁ (.publishTts n i) pub) :
    i = 0 ∨ ∃ i₀, pc = .publishTts n i₀ ∧ i = i₀ + 1 ∧
      pub = some (.tts, .ttsRequested j (taskIdOf j i₀)) := by
  cases pc with
  | advance m =>
    simp only [parseStep, Next.goto.injEq] at h
    obtain ⟨_, hpc, _⟩ := h
    split at hpc
    · cases hpc
    · cases hpc
      exact .inl rfl
  | publishTts m i₀ =>
    simp only [parseStep] at h
    split at h
    · cases h
      exact .inr ⟨i₀, rfl, rfl, rfl⟩
    · cases h
  | _ =>
    simp only [parseStep] at h
    (try split at h) <;> cases h

/-- `handle_tts` only returns once its task is `DONE`. -/
theorem tts_returns_done {pc : TtsPc} (h : ttsStep sh (.ttsRequested j t) pc = .done sh₁ pub)
    (hok : TtsOk sh j t pc) (hrow : ∃ task, sh.db.tasks.get t = some task) :
    ∃ task, sh₁.db.tasks.get t = some task ∧ task.status = .done := by
  obtain ⟨task, htask⟩ := hrow
  cases pc with
  | complete key =>
    simp only [ttsStep, Event.jobId_ttsRequested, Event.taskId_ttsRequested] at h
    split at h
    · cases h
    · rename_i db r hc
      have hdone := completeTask_done hc htask
      split at h
      · cases h
      · split at h
        · cases h
        · cases h
          exact hdone
  | reread =>
    simp only [ttsStep] at h
    (repeat' split at h) <;> cases h <;> exact hok
  | publish => cases h; exact hok
  | _ =>
    simp only [ttsStep] at h
    (repeat' split at h) <;> cases h

theorem AwaitsStitch.job (h : AwaitsStitch sh j) : ∃ job, sh.db.jobs.get j = some job := by
  rcases h.1 with hst | hst
  · obtain ⟨job, hg, _⟩ := Option.map_eq_some_iff.mp hst
    exact ⟨job, hg⟩
  · obtain ⟨job, hg, _⟩ := Option.map_eq_some_iff.mp hst
    exact ⟨job, hg⟩

/-- A counter that is exact and has nothing to count is zero. -/
theorem Tallied.zero (ht : Tallied cfg sh) (ha : AwaitsStitch sh j) {job : Job}
    (hg : sh.db.jobs.get j = some job) : job.pendingCount = 0 := by
  obtain ⟨hst, h0⟩ := ha
  rw [Db.status, hg, Option.map_some, Option.some.injEq, Option.some.injEq] at hst
  have hcount := ht.count hg (by rcases hst with h | h <;> simp [h]) (by rcases hst with h | h <;> simp [h])
  omega

/-- When nothing is left to synthesize, `handle_tts` returns by announcing it. -/
theorem tts_returns_ready {pc : TtsPc} (h : ttsStep sh (.ttsRequested j t) pc = .done sh₁ pub)
    (ht : Tallied cfg (emit sh₁ pub).1) (ha : AwaitsStitch (emit sh₁ pub).1 j) :
    pub = some (.stitch, .stitchReady j) := by
  rcases tts_returns h with hpub | hne
  · exact hpub
  · obtain ⟨job, hg⟩ := ha.job
    exact absurd (ht.zero ha hg) (hne job (by rw [← db_emit pub]; exact hg))

theorem AwaitsStitch.ne_completed (h : AwaitsStitch sh j) {job : Job}
    (hg : sh.db.jobs.get j = some job) : job.status ≠ .completed := by
  intro hc
  have hst := h.1
  rw [Db.status, hg, Option.map_some, hc] at hst
  rcases hst with hst | hst <;> cases hst

/-- `handle_stitch` only returns once the job has ended. -/
theorem stitch_returns {pc : StitchPc} (h : stitchStep sh (.stitchReady j) pc = .done sh₁ pub)
    (hok : StitchOk sh j pc) : ¬ AwaitsStitch (emit sh₁ pub).1 j := by
  intro ha
  cases pc with
  | loadJob =>
    simp only [stitchStep, Event.jobId_stitchReady] at h
    split at h
    · cases h
    · rename_i job hg
      split at h
      · rename_i hc
        cases h
        exact ha.ne_completed hg hc
      · cases h
  | finalize =>
    simp only [stitchStep] at h
    split at h
    · cases h
    · rename_i hlost
      cases h
      obtain ⟨job, hg, hrank⟩ := hok
      obtain ⟨hsame, hno⟩ := finalizeJob_lost hlost
      have hst : sh.db.status j = some .generating ∨ sh.db.status j = some .stitching := by
        rw [← hsame]
        exact ha.1
      rw [Db.status, hg, Option.map_some] at hst
      -- the job is `STITCHING`, so the compare-and-set cannot have lost
      rcases hst with hst | hst
      · rw [Option.some.inj hst] at hrank
        exact absurd hrank (by decide)
      · exact hno job hg (JobStatus.canTransition_completed.mpr (Option.some.inj hst))
  | notify =>
    cases h
    obtain ⟨job, hg, hc⟩ := hok
    exact ha.ne_completed hg hc
  | getParts keys parts =>
    cases keys <;> simp only [stitchStep] at h <;> (try split at h) <;> cases h
  | _ =>
    simp only [stitchStep] at h
    (try split at h) <;> cases h

end Returns

end Pipeline
end AudioEngine
