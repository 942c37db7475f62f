import AudioEngine.Pipeline.Moves
import Mathlib.Logic.Relation

/-!
# AudioEngine.Pipeline.Rerun

Running `handle_parse` again.

A run is a sequence of steps of one delivery; it may be cut off after any of them. Only two steps
write rows, the insert transaction and the advance to `GENERATING`, so a cut run leaves one of three
databases. From each of them a complete run ends in the same database and publishes the same events:
`ON CONFLICT DO NOTHING` skips the rows that are there, and the two compare-and-sets lose once their
status is gone.

`Fanned` is what a complete run leaves behind for good: the rows, the manuscript and a status from
`GENERATING` on. The steps of the other handlers keep it (`between_fanned`), so a further run writes
nothing at any later time. `parse_rerunnable` has both parts.
-/

namespace AudioEngine
namespace Pipeline

open Relational

/-! ## Runs of `handle_parse` -/

/-- Steps of `handle_parse` for the job `j` with the events they publish, up to a return (`none`) or
to a cut before the step at `pc`. -/
inductive ParseRun (cfg : Settings) (j : String) :
    Shared → ParsePc → List (Live × Event) → Shared → Option ParsePc → Prop where
  | cut {sh : Shared} {pc : ParsePc} : ParseRun cfg j sh pc [] sh (some pc)
  | done {sh sh' : Shared} {pc : ParsePc} (pub : Option (Live × Event)) :
      parseStep cfg sh (.jobCreated j) pc = .done sh' pub → ParseRun cfg j sh pc pub.toList sh' none
  | step {sh sh₁ sh' : Shared} {pc pc₁ : ParsePc} {events : List (Live × Event)}
      {last : Option ParsePc} (pub : Option (Live × Event)) :
      parseStep cfg sh (.jobCreated j) pc = .goto sh₁ pc₁ pub →
      ParseRun cfg j sh₁ pc₁ events sh' last → ParseRun cfg j sh pc (pub.toList ++ events) sh' last

/-- The events of the fan-out into `n` blocks. -/
def fanOut (j : String) (n : Nat) : List (Live × Event) :=
  if n = 0 then [(.stitch, .stitchReady j)]
  else (List.range n).map fun i => (.tts, .ttsRequested j (taskIdOf j i))

section Runs

variable {cfg : Settings} {j text : String} {sh sh' sh₁ : Shared} {job : Job}

/-- A complete run is the only one. -/
theorem ParseRun.unique {pc : ParsePc} {events events' : List (Live × Event)}
    (h : ParseRun cfg j sh pc events sh' none) (h' : ParseRun cfg j sh pc events' sh₁ none) :
    events = events' ∧ sh' = sh₁ := by
  generalize hl : (none : Option ParsePc) = last at h
  induction h generalizing events' with
  | cut => cases hl
  | done pub hs =>
    cases h' with
    | done pub' hs' =>
      rw [hs] at hs'
      cases hs'
      exact ⟨rfl, rfl⟩
    | step pub' hs' _ =>
      rw [hs] at hs'
      cases hs'
  | step pub hs _ ih =>
    cases h' with
    | done pub' hs' =>
      rw [hs] at hs'
      cases hs'
    | step pub' hs' hrest =>
      rw [hs] at hs'
      cases hs'
      obtain ⟨he, hsh⟩ := ih hrest hl
      exact ⟨by rw [he], hsh⟩

/-- The publish loop from the block `i` on. -/
theorem run_publishTts (cfg : Settings) (j : String) (sh : Shared) {n i : Nat} (hi : i < n) :
    ∃ sh', ParseRun cfg j sh (.publishTts n i)
        ((List.range' i (n - i)).map fun k => (.tts, .ttsRequested j (taskIdOf j k))) sh' none ∧
      sh'.db = sh.db := by
  -- on the number of blocks still to publish
  induction hk : n - i generalizing i with
  | zero => omega
  | succ k ih =>
    by_cases hnext : i + 1 < n
    · obtain ⟨sh', hrun, hdb⟩ := ih hnext (by omega)
      refine ⟨sh', ?_, hdb⟩
      rw [List.range'_succ, List.map_cons]
      refine .step (some (.tts, .ttsRequested j (taskIdOf j i))) ?_ hrun
      simp only [parseStep, Event.jobId_jobCreated, if_pos hnext]
    · obtain rfl : k = 0 := by omega
      refine ⟨sh.log (.parsed j), ?_, rfl⟩
      refine .done (some (.tts, .ttsRequested j (taskIdOf j i))) ?_
      simp only [parseStep, Event.jobId_jobCreated, if_neg hnext]

theorem run_publish (cfg : Settings) (j : String) (sh : Shared) (n : Nat) :
    ∃ sh', ParseRun cfg j sh (if n = 0 then .publishStitch else .publishTts n 0) (fanOut j n) sh' none ∧
      sh'.db = sh.db := by
  by_cases hn : n = 0
  · rw [if_pos hn, fanOut, if_pos hn]
    exact ⟨_, .done (some (.stitch, .stitchReady j)) rfl, rfl⟩
  · rw [if_neg hn, fanOut, if_neg hn, List.range_eq_range']
    exact run_publishTts cfg j sh (Nat.pos_of_ne_zero hn)

/-- A complete run on a job whose manuscript parses and whose insert commits. -/
theorem run_complete {blocks : List String} {db₁ : Db} {won : Bool}
    (hjob : sh.db.jobs.get j = some job) (htext : sh.getText job.manuscriptKey = some text)
    (hsim : simulateParse text false = .ok blocks)
    (hseed : executeSeed sh.db j (capBlocks cfg blocks) = .ok (db₁, won)) :
    ∃ sh', ParseRun cfg j sh .validate (fanOut j (capBlocks cfg blocks).length) sh' none ∧
      sh'.db = (advanceStatus db₁ j .generating).1 := by
  let seeded := { sh with db := db₁ }.log (.beginParse j (capBlocks cfg blocks).length won)
  let advanced := { seeded with db := (advanceStatus db₁ j .generating).1 }.log
    (.advanceStatus j .generating (advanceStatus db₁ j .generating).2)
  obtain ⟨sh', hpub, hdb⟩ := run_publish cfg j advanced (capBlocks cfg blocks).length
  have hload : parseStep cfg sh (.jobCreated j) .loadJob =
      .goto sh (.loadText job.manuscriptKey) none := by
    simp only [parseStep, Event.jobId_jobCreated, hjob]
  have hread : parseStep cfg sh (.jobCreated j) (.loadText job.manuscriptKey) =
      .goto sh (.simulate text) none := by
    simp only [parseStep, htext]
  have hparse : parseStep cfg sh (.jobCreated j) (.simulate text) =
      .goto sh (.seed (capBlocks cfg blocks)) none := by
    simp only [parseStep, hsim]
  have hinsert : parseStep cfg sh (.jobCreated j) (.seed (capBlocks cfg blocks)) =
      .goto seeded (.advance (capBlocks cfg blocks).length) none := by
    simp only [parseStep, Event.jobId_jobCreated, hseed]
    rfl
  refine ⟨sh', ?_, hdb⟩
  exact .step none rfl (.step none hload (.step none hread (.step none hparse
    (.step none hinsert (.step none rfl hpub)))))

/-! ## Cut runs -/

/-- The job `j`, its manuscript and the blocks that are parsed from it, when `handle_parse` starts. -/
structure Start (sh : Shared) (j : String) (job : Job) (text : String) (blocks : List String) :
    Prop where
  job_get : sh.db.jobs.get j = some job
  text_get : sh.getText job.manuscriptKey = some text
  parses : simulateParse text false = .ok blocks

/-- What a run that began in `sh` has done when it stands before a step, or has returned. -/
def CutAt (cfg : Settings) (sh : Shared) (j : String) (job : Job) (text : String)
    (blocks : List String) (sh₁ : Shared) : Option ParsePc → Prop
  | some .validate => sh₁.db = sh.db
  | some .loadJob => sh₁.db = sh.db
  | some (.loadText key) => sh₁.db = sh.db ∧ key = job.manuscriptKey
  | some (.simulate t) => sh₁.db = sh.db ∧ t = text
  | some (.seed bs) => sh₁.db = sh.db ∧ bs = capBlocks cfg blocks
  | some (.advance _) => ∃ won, executeSeed sh.db j (capBlocks cfg blocks) = .ok (sh₁.db, won)
  | _ => ∃ db₁ won, executeSeed sh.db j (capBlocks cfg blocks) = .ok (db₁, won) ∧
      sh₁.db = (advanceStatus db₁ j .generating).1

variable {blocks : List String}

/-- One step of a run from the start. -/
theorem cut_step (h0 : Start sh j job text blocks) (hobj : sh₁.objects = sh.objects) {pc : ParsePc}
    (h : CutAt cfg sh j job text blocks sh₁ (some pc)) :
    match parseStep cfg sh₁ (.jobCreated j) pc with
    | .goto sh₂ pc₂ _ => sh₂.objects = sh.objects ∧ CutAt cfg sh j job text blocks sh₂ (some pc₂)
    | .done sh₂ _ => sh₂.objects = sh.objects ∧ CutAt cfg sh j job text blocks sh₂ none
    | .raise => True := by
  cases pc with
  | validate => exact ⟨hobj, h⟩
  | loadJob =>
    have hjob : sh₁.db.jobs.get j = some job := by
      rw [show sh₁.db = sh.db from h]
      exact h0.job_get
    simp only [parseStep, Event.jobId_jobCreated, hjob]
    exact ⟨hobj, h, rfl⟩
  | loadText key =>
    obtain ⟨hdb, rfl⟩ := h
    have htext : sh₁.getText job.manuscriptKey = some text := by
      rw [Shared.getText, hobj]
      exact h0.text_get
    simp only [parseStep, htext]
    exact ⟨hobj, hdb, rfl⟩
  | simulate t =>
    obtain ⟨hdb, rfl⟩ := h
    simp only [parseStep, h0.parses]
    exact ⟨hobj, hdb, rfl⟩
  | seed bs =>
    obtain ⟨hdb, rfl⟩ := h
    simp only [parseStep, Event.jobId_jobCreated, hdb]
    cases hseed : executeSeed sh.db j (capBlocks cfg blocks) with
    | error e => trivial
    | ok r => exact ⟨hobj, r.2, hseed⟩
  | advance n =>
    obtain ⟨won, hseed⟩ := h
    simp only [parseStep, Event.jobId_jobCreated]
    refine ⟨hobj, ?_⟩
    split
    · exact ⟨_, won, hseed, rfl⟩
    · exact ⟨_, won, hseed, rfl⟩
  | publishStitch => exact ⟨hobj, h⟩
  | publishTts n i =>
    simp only [parseStep]
    split
    · rename_i sh₂ pc₂ pub heq
      split at heq
      · cases heq
        exact ⟨hobj, h⟩
      · cases heq
    · rename_i sh₂ pub heq
      split at heq
      · cases heq
      · cases heq
        exact ⟨hobj, h⟩
    · trivial

/-- However far a run has come, it has left one of three databases. -/
theorem cut_run (h0 : Start sh j job text blocks) {s : Shared} {pc : ParsePc}
    {events : List (Live × Event)} {last : Option ParsePc}
    (hrun : ParseRun cfg j s pc events sh₁ last) (hobj : s.objects = sh.objects)
    (h : CutAt cfg sh j job text blocks s (some pc)) :
    sh₁.objects = sh.objects ∧ CutAt cfg sh j job text blocks sh₁ last := by
  induction hrun with
  | cut => exact ⟨hobj, h⟩
  | done pub hs =>
    have hstep := cut_step h0 hobj h
    rw [hs] at hstep
    exact hstep
  | step pub hs _ ih =>
    have hstep := cut_step h0 hobj h
    rw [hs] at hstep
    exact ih hstep.1 hstep.2

theorem CutAt.cases {last : Option ParsePc} (h : CutAt cfg sh j job text blocks sh₁ last) :
    sh₁.db = sh.db ∨
    (∃ won, executeSeed sh.db j (capBlocks cfg blocks) = .ok (sh₁.db, won)) ∨
    ∃ db₁ won, executeSeed sh.db j (capBlocks cfg blocks) = .ok (db₁, won) ∧
      sh₁.db = (advanceStatus db₁ j .generating).1 := by
  cases last with
  | none => exact .inr (.inr h)
  | some pc =>
    cases pc with
    | validate => exact .inl h
    | loadJob => exact .inl h
    | loadText key => exact .inl h.1
    | simulate t => exact .inl h.1
    | seed bs => exact .inl h.1
    | advance n => exact .inr (.inl h)
    | publishStitch => exact .inr (.inr h)
    | publishTts n i => exact .inr (.inr h)

end Runs

/-! ## The two transactions, again -/

/-- The rows of the blocks are there, and the job, with its manuscript key, has climbed to `rank`. -/
structure FannedDb (db : Db) (j key : String) (n rank : Nat) : Prop where
  job : ∃ job, db.jobs.get j = some job ∧ job.manuscriptKey = key ∧ rank ≤ job.status.rank
  rows : ∀ i < n, ∃ t ∈ db.tasksOf j, t.blockIndex = i

section Again

variable {db db' : Db} {j k key : String} {blocks : List String} {n rank : Nat} {won : Bool}

theorem FannedDb.seed_idle (h : FannedDb db j key blocks.length rank) (hrank : 1 ≤ rank) :
    seedTasks db j blocks = .ok (db, false) := by
  obtain ⟨job, hjob, _, hle⟩ := h.job
  refine seedTasks_idle hjob ?_ h.rows
  intro hpend
  rw [hpend] at hle
  exact absurd (Nat.le_trans hrank hle) (by decide)

theorem FannedDb.advance_idle (h : FannedDb db j key n 2) :
    (advanceStatus db j .generating).1 = db := by
  obtain ⟨job, hjob, _, hle⟩ := h.job
  refine advanceStatus_lost hjob ?_
  rw [Bool.eq_false_iff, ne_eq, JobStatus.canTransition_generating]
  intro hst
  rw [hst] at hle
  exact absurd hle (by decide)

/-- A legal compare-and-set, of this job or another, keeps all this. -/
theorem FannedDb.cas {st : JobStatus} {set : Job → Job} {hset : ∀ r, (set r).jobId = r.jobId}
    (h : FannedDb db j key n rank)
    (hcas : casJob db k st.expectedFor set hset = (db', won)) (hst : ∀ r, (set r).status = st)
    (hkey : ∀ r, (set r).manuscriptKey = r.manuscriptKey) : FannedDb db' j key n rank := by
  rcases casJob_cases hcas with ⟨_, rfl, _⟩ | ⟨_, htasks, row, hrow, hmem, hget⟩
  · exact h
  · obtain ⟨job, hjob, hk, hle⟩ := h.job
    refine ⟨?_, fun i hi => ?_⟩
    · by_cases hj : j = k
      · subst hj
        obtain rfl := Option.some.inj (hjob.symm.trans hrow)
        refine ⟨set job, (hget j).trans (if_pos rfl), (hkey job).trans hk, ?_⟩
        rw [hst]
        exact Nat.le_trans hle (Nat.le_of_lt (JobStatus.rank_lt (JobStatus.mem_expectedFor.mp hmem)))
      · exact ⟨job, (hget j).trans ((if_neg hj).trans hjob), hk, hle⟩
    · obtain ⟨t, ht, he⟩ := h.rows i hi
      refine ⟨t, ?_, he⟩
      rw [Db.tasksOf] at ht ⊢
      rw [htasks]
      exact ht

/-- After the insert transaction of a `PENDING` job. -/
theorem seedTasks_fanned {job : Job} (hjob : db.jobs.get j = some job)
    (hpend : job.status = .pending) (h : seedTasks db j blocks = .ok (db', won)) :
    ∃ job', db'.jobs.get j = some job' ∧ job'.status = .parsing ∧
      FannedDb db' j job.manuscriptKey blocks.length 1 := by
  obtain ⟨hrows, tasks, hcas⟩ := seedTasks_ok h
  rcases casJob_cases hcas with ⟨_, _, hno⟩ | ⟨_, _, job', hjob', _, hget⟩
  · exact absurd (List.mem_singleton.mpr hpend) (hno job hjob)
  · obtain rfl := Option.some.inj (hjob.symm.trans hjob')
    have hrow := (hget j).trans (if_pos rfl)
    exact ⟨_, hrow, rfl, ⟨_, hrow, rfl, Nat.le_refl _⟩, hrows⟩

/-- After the advance to `GENERATING`. -/
theorem advance_fanned {job : Job} (hjob : db.jobs.get j = some job) (hst : job.status = .parsing)
    (h : FannedDb db j key n 1) : FannedDb (advanceStatus db j .generating).1 j key n 2 := by
  have hkept : FannedDb (advanceStatus db j .generating).1 j key n 1 :=
    h.cas (Prod.eta _).symm (fun _ => rfl) (fun _ => rfl)
  have hwon := advanceStatus_won hjob (JobStatus.canTransition_generating.mpr hst)
  obtain ⟨job', hjob', hkey, _⟩ := hkept.job
  rw [Db.status, hjob', Option.map_some, Option.some.injEq] at hwon
  refine ⟨⟨job', hjob', hkey, ?_⟩, hkept.rows⟩
  rw [hwon]
  decide

end Again

/-! ## What the other handlers keep -/

/-- A complete run is behind the job `j` with the manuscript `text`. -/
structure Fanned (sh : Shared) (j text : String) (n : Nat) : Prop where
  db : FannedDb sh.db j (rawKey j) n 2
  text : sh.getText (rawKey j) = some text

/-- The stores after a step of a handler that does not raise. -/
def Next.shared {P : Type} : Next P → Option Shared
  | .goto sh _ _ => some sh
  | .done sh _ => some sh
  | .raise => none

/-- One step of another handler on any event, or a change of the keys in Redis. -/
inductive Between : Shared → Shared → Prop where
  | tts {sh sh' : Shared} (e : Event) (pc : TtsPc) : (ttsStep sh e pc).shared = some sh' →
      Between sh sh'
  | stitch {sh sh' : Shared} (e : Event) (pc : StitchPc) : (stitchStep sh e pc).shared = some sh' →
      Between sh sh'
  | dlq {sh sh' : Shared} (e : Event) (pc : DlqPc) : (dlqStep sh e pc).shared = some sh' →
      Between sh sh'
  | redis {sh : Shared} (cache inflight : String → Option String) :
      Between sh { sh with cache := cache, inflight := inflight }

section Between

variable {sh sh' : Shared} {db db' : Db} {j k key text : String} {n rank : Nat}

theorem Next.Leaves.shared {P : Type} {next : Next P} {Q : Shared → Prop} (h : next.Leaves Q)
    (hs : next.shared = some sh') : Q sh' := by
  cases next with
  | goto sh₁ pc pub =>
    cases hs
    exact h
  | done sh₁ pub =>
    cases hs
    exact h
  | raise => cases hs

/-- A claim of a task, of this job or another. -/
theorem FannedDb.claimed {t : String} {task task' : Task} {row : Job}
    (h : FannedDb db j key n rank) (hc : Claimed db db' k t task task' row)
    (hindex : task'.blockIndex = task.blockIndex) : FannedDb db' j key n rank := by
  obtain ⟨job, hjob, hk, hle⟩ := h.job
  refine ⟨?_, fun i hi => ?_⟩
  · by_cases hj : j = k
    · subst hj
      obtain rfl := Option.some.inj (hjob.symm.trans hc.job_get)
      exact ⟨_, (hc.jobs j).trans (if_pos rfl), hk, hle⟩
    · exact ⟨job, (hc.jobs j).trans ((if_neg hj).trans hjob), hk, hle⟩
  · obtain ⟨x, hx, he⟩ := h.rows i hi
    rw [hc.tasksOf]
    refine ⟨_, List.mem_map.mpr ⟨x, hx, rfl⟩, ?_⟩
    split
    · rename_i hid
      have hget := Table.get_of_mem (List.mem_of_mem_filter hx)
      rw [hid, hc.task_get] at hget
      rw [hindex, Option.some.inj hget]
      exact he
    · exact he

theorem FannedDb.complete {t audioKey : String} {r : Option Int} (h : FannedDb db j key n rank)
    (hc : completeTaskAndDecrement db k t audioKey = .ok (db', r)) : FannedDb db' j key n rank := by
  rcases completeTask_cases hc with ⟨_, rfl, _⟩ | ⟨task, row, _, _, hclaim⟩
  · exact h
  · exact h.claimed hclaim rfl

theorem FannedDb.fail {t : String} {r : Option Int} (h : FannedDb db j key n rank)
    (hc : failTaskAndDecrement db k t = .ok (db', r)) : FannedDb db' j key n rank := by
  rcases failTask_cases hc with ⟨_, rfl, _⟩ | ⟨task, row, _, _, hclaim⟩
  · exact h
  · exact h.claimed hclaim rfl

theorem Fanned.put (h : Fanned sh j text n) {key : String} (bytes : ByteArray)
    (hne : rawKey j ≠ key) : Fanned (sh.putObject key bytes) j text n := by
  refine ⟨h.db, ?_⟩
  rw [Shared.getText, putObject_of_ne sh bytes hne]
  exact h.text

theorem tts_fanned (h : Fanned sh j text n) (e : Event) (pc : TtsPc) :
    (ttsStep sh e pc).Leaves fun sh' => Fanned sh' j text n := by
  cases pc with
  | putAudio t => exact h.put _ (rawKey_ne_ttsKey j _)
  | complete audioKey =>
    simp only [ttsStep]
    cases hc : completeTaskAndDecrement sh.db e.jobId e.taskId audioKey with
    | error err => trivial
    | ok r =>
      have hsh : Fanned ({ sh with db := r.1 }.log (.completeTask e.jobId e.taskId r.2)) j text n :=
        ⟨h.db.complete hc, h.text⟩
      simp only
      split
      · exact hsh
      split
      · exact hsh
      · exact hsh
  | _ =>
    simp only [ttsStep]
    (repeat' split) <;> first | trivial | exact ⟨h.db, h.text⟩

theorem stitch_fanned (h : Fanned sh j text n) (e : Event) (pc : StitchPc) :
    (stitchStep sh e pc).Leaves fun sh' => Fanned sh' j text n := by
  cases pc with
  | advance keys => exact ⟨h.db.cas (Prod.eta _).symm (fun _ => rfl) (fun _ => rfl), h.text⟩
  | putFinal parts => exact h.put _ (rawKey_ne_outKey j _)
  | finalize =>
    have hsh : Fanned ({ sh with db := (finalizeJob sh.db e.jobId (outKey e.jobId)).1 }.log
        (.finalizeJob e.jobId (finalizeJob sh.db e.jobId (outKey e.jobId)).2)) j text n :=
      ⟨h.db.cas (Prod.eta _).symm (fun _ => rfl) (fun _ => rfl), h.text⟩
    simp only [stitchStep]
    split
    · exact hsh
    · exact hsh
  | getParts keys parts =>
    cases keys <;> simp only [stitchStep] <;> (repeat' split) <;> trivial
  | _ =>
    simp only [stitchStep]
    (repeat' split) <;> first | trivial | exact ⟨h.db, h.text⟩

theorem dlq_fanned (h : Fanned sh j text n) (e : Event) (pc : DlqPc) :
    (dlqStep sh e pc).Leaves fun sh' => Fanned sh' j text n := by
  cases pc with
  | failTask =>
    simp only [dlqStep]
    cases hc : failTaskAndDecrement sh.db e.jobId e.taskId with
    | error err => trivial
    | ok r =>
      have hsh : Fanned ({ sh with db := r.1 }.log (.failTask e.jobId e.taskId r.2)) j text n :=
        ⟨h.db.fail hc, h.text⟩
      simp only
      split
      · exact hsh
      · exact hsh
  | advanceFailed => exact ⟨h.db.cas (Prod.eta _).symm (fun _ => rfl) (fun _ => rfl), h.text⟩
  | _ =>
    simp only [dlqStep]
    (repeat' split) <;> trivial

theorem between_fanned (h : Fanned sh j text n) (hb : Between sh sh') : Fanned sh' j text n := by
  cases hb with
  | tts e pc hs => exact (tts_fanned h e pc).shared hs
  | stitch e pc hs => exact (stitch_fanned h e pc).shared hs
  | dlq e pc hs => exact (dlq_fanned h e pc).shared hs
  | redis cache inflight => exact ⟨h.db, h.text⟩

end Between

/-! ## Re-running -/

section Rerun

variable {cfg : Settings} {sh sh' sh₁ : Shared} {j text : String} {job : Job} {blocks : List String}
  {events : List (Live × Event)}

/-- An uninterrupted run: its events, and what it leaves. -/
theorem run_ends (h0 : Start sh j job text blocks)
    (hrun : ParseRun cfg j sh .validate events sh' none) :
    events = fanOut j (capBlocks cfg blocks).length ∧ sh'.objects = sh.objects ∧
      ∃ db₁ won, executeSeed sh.db j (capBlocks cfg blocks) = .ok (db₁, won) ∧
        sh'.db = (advanceStatus db₁ j .generating).1 := by
  obtain ⟨hobj, db₁, won, hseed, hdb⟩ := cut_run h0 hrun rfl rfl
  obtain ⟨sh₂, hrun₂, _⟩ := run_complete h0.job_get h0.text_get h0.parses hseed
  exact ⟨(hrun.unique hrun₂).1, hobj, db₁, won, hseed, hdb⟩

/-- A run from a database in which the insert and the advance have nothing left to do. -/
theorem run_idle {key : String} (hdb : FannedDb sh.db j key (capBlocks cfg blocks).length 2)
    (htext : sh.getText key = some text) (hsim : simulateParse text false = .ok blocks)
    (hfits : (insertTasks j (capBlocks cfg blocks)).length ≤ maxQueryArguments) :
    ∃ sh', ParseRun cfg j sh .validate (fanOut j (capBlocks cfg blocks).length) sh' none ∧
      sh'.db = sh.db := by
  obtain ⟨job, hjob, rfl, _⟩ := hdb.job
  obtain ⟨sh', hrun, hend⟩ := run_complete hjob htext hsim
    (executeSeed_eq_ok.mpr ⟨hfits, hdb.seed_idle (by decide)⟩)
  exact ⟨sh', hrun, hend.trans hdb.advance_idle⟩

/-- A run after a cut ends where the uninterrupted run ends. -/
theorem run_after_cut (h0 : Start sh j job text blocks) (hpend : job.status = .pending) {db₁ : Db}
    {won : Bool} (hseed : executeSeed sh.db j (capBlocks cfg blocks) = .ok (db₁, won))
    (hobj : sh₁.objects = sh.objects) {last : Option ParsePc}
    (hcut : CutAt cfg sh j job text blocks sh₁ last) :
    ∃ sh₂, ParseRun cfg j sh₁ .validate (fanOut j (capBlocks cfg blocks).length) sh₂ none ∧
      sh₂.db = (advanceStatus db₁ j .generating).1 := by
  obtain ⟨hfits, hcommit⟩ := executeSeed_eq_ok.mp hseed
  obtain ⟨row, hrow, hst, hfan⟩ := seedTasks_fanned h0.job_get hpend hcommit
  have htext : sh₁.getText job.manuscriptKey = some text := by
    rw [Shared.getText, hobj]
    exact h0.text_get
  rcases hcut.cases with hdb | ⟨won', hdb⟩ | ⟨db₁', won', hseed', hdb⟩
  · -- nothing was written
    rw [← hdb] at hseed
    have hjob : sh₁.db.jobs.get j = some job := by
      rw [hdb]
      exact h0.job_get
    exact run_complete hjob htext h0.parses hseed
  · -- the insert transaction was committed
    rw [hseed] at hdb
    cases hdb
    obtain ⟨job₁, hjob₁, hkey, _⟩ := hfan.job
    rw [← hkey] at htext
    exact run_complete hjob₁ htext h0.parses
      (executeSeed_eq_ok.mpr ⟨hfits, hfan.seed_idle (Nat.le_refl _)⟩)
  · -- the advance was committed
    rw [hseed] at hseed'
    cases hseed'
    have hfan₂ := advance_fanned hrow hst hfan
    rw [← hdb] at hfan₂ ⊢
    exact run_idle hfan₂ htext h0.parses hfits

end Rerun

/-- `handle_parse` on a `PENDING` job can be run again. Where the task ids of the table are made
from job and block, as the handler makes them, an uninterrupted run returns if and only if the driver
takes the insert. After a run that was cut off after any number of steps, a further run ends with the
rows of the uninterrupted one and publishes all its events again. After a complete run and any steps of
the other handlers, a further run changes no row and publishes the same list. -/
theorem parse_rerunnable {cfg : Settings} {sh : Shared} {j text : String} {job : Job}
    {blocks : List String} (h0 : Start sh j job text blocks) (hpend : job.status = .pending) :
    ((∀ t ∈ sh.db.tasks.rows, t.taskId = taskIdOf t.jobId t.blockIndex) →
      ((∃ events sh', ParseRun cfg j sh .validate events sh' none) ↔
        (insertTasks j (capBlocks cfg blocks)).length ≤ maxQueryArguments)) ∧
    ∀ events sh', ParseRun cfg j sh .validate events sh' none →
      (∀ events₁ sh₁ last, ParseRun cfg j sh .validate events₁ sh₁ last →
        ∃ events₂ sh₂, ParseRun cfg j sh₁ .validate events₂ sh₂ none ∧ sh₂.db = sh'.db ∧
          ∀ x ∈ events, x ∈ events₁ ++ events₂) ∧
      (job.manuscriptKey = rawKey j → ∀ sh₁, Relation.ReflTransGen Between sh' sh₁ →
        ∃ sh₂, ParseRun cfg j sh₁ .validate events sh₂ none ∧ sh₂.db = sh₁.db) := by
  refine ⟨fun hname => ?_, fun events sh' hrun => ⟨?_, ?_⟩⟩
  · constructor
    · rintro ⟨events, sh', hrun⟩
      obtain ⟨_, _, db₁, won, hseed, _⟩ := run_ends h0 hrun
      exact (executeSeed_eq_ok.mp hseed).1
    · intro hfits
      obtain ⟨db₁, won, hseed⟩ := seedTasks_named (capBlocks cfg blocks) h0.job_get hname
      obtain ⟨sh', hrun, _⟩ := run_complete h0.job_get h0.text_get h0.parses
        (executeSeed_eq_ok.mpr ⟨hfits, hseed⟩)
      exact ⟨_, sh', hrun⟩
  · intro events₁ sh₁ last hcut
    obtain ⟨rfl, _, db₁, won, hseed, hdb⟩ := run_ends h0 hrun
    obtain ⟨hobj, hat⟩ := cut_run h0 hcut rfl rfl
    obtain ⟨sh₂, hrun₂, hdb₂⟩ := run_after_cut h0 hpend hseed hobj hat
    exact ⟨_, sh₂, hrun₂, hdb₂.trans hdb.symm, fun x hx => List.mem_append_right events₁ hx⟩
  · intro hkey sh₁ hsince
    obtain ⟨rfl, hobj, db₁, won, hseed, hdb⟩ := run_ends h0 hrun
    obtain ⟨hfits, hcommit⟩ := executeSeed_eq_ok.mp hseed
    obtain ⟨row, hrow, hst, hfan⟩ := seedTasks_fanned h0.job_get hpend hcommit
    have hstart : Fanned sh' j text (capBlocks cfg blocks).length := by
      constructor
      · rw [hdb, ← hkey]
        exact advance_fanned hrow hst hfan
      · rw [Shared.getText, hobj, ← hkey]
        exact h0.text_get
    have hlater : Fanned sh₁ j text (capBlocks cfg blocks).length := by
      induction hsince with
      | refl => exact hstart
      | tail _ hb ih => exact between_fanned ih hb
    exact run_idle hlater.db hlater.text h0.parses hfits

/-- A job of two blocks as `create_job` leaves it. -/
def pendingDrama : Shared where
  db := ⟨⟨[{ jobId := "j", manuscriptKey := rawKey "j" }], by simp⟩, .empty⟩
  objects := Function.update (fun _ => none) (rawKey "j") (some "A\n\nB".toUTF8)

/-- Two runs in a row, the second without effect on the rows. -/
theorem parse_rerunnable_two_blocks :
    ∃ sh' sh₂, ParseRun {} "j" pendingDrama .validate (fanOut "j" 2) sh' none ∧
      ParseRun {} "j" sh' .validate (fanOut "j" 2) sh₂ none ∧ sh₂.db = sh'.db := by
  have h0 : Start pendingDrama "j" { jobId := "j", manuscriptKey := rawKey "j" } "A\n\nB"
      ["A", "B"] := by
    have hobj : pendingDrama.objects (rawKey "j") = some "A\n\nB".toUTF8 := by
      simp only [pendingDrama, Function.update_self]
    refine ⟨rfl, ?_, by decide +kernel⟩
    rw [Shared.getText, hobj]
    exact fromUTF8?_toUTF8 _
  have hthm := @parse_rerunnable {} _ _ _ _ _ h0 rfl
  have hfits : (insertTasks "j" (capBlocks {} ["A", "B"])).length ≤ maxQueryArguments := by
    decide +kernel
  obtain ⟨events, sh', hrun⟩ := (hthm.1 (by simp [pendingDrama, Table.empty])).mpr hfits
  obtain rfl : events = fanOut "j" 2 := (run_ends h0 hrun).1
  obtain ⟨sh₂, hrun₂, hdb⟩ := (hthm.2 _ sh' hrun).2 rfl sh' .refl
  exact ⟨sh', sh₂, hrun, hrun₂, hdb⟩

end Pipeline
end AudioEngine
