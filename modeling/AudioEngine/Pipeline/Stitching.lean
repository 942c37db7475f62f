import AudioEngine.Pipeline.Fanin

/-!
# AudioEngine.Pipeline.Stitching

One step of a run of `handle_stitch` on a job whose fan-in is over.

`Held` is what the runs leave of the stores they started from: the task rows, the chunks, and a row
that is `GENERATING`, `STITCHING` or finalised once, then with its output object. `stitch_ran` says
that a step of a run, wherever it stands, keeps it and leaves what the other runs rely on
(`Advances`).
-/

namespace AudioEngine
namespace Pipeline

open Relational Interleave

/-- Row, task rows, chunks and output object of the job are as before. -/
structure Untouched (sh sh' : Shared) (j : String) : Prop where
  job : sh'.db.jobs.get j = sh.db.jobs.get j
  tasks : sh'.db.tasksOf j = sh.db.tasksOf j
  chunks : ∀ k ∈ chunkKeys sh.db j, sh'.objects k = sh.objects k
  out : sh'.objects (outKey j) = sh.objects (outKey j)

/-- `finalize_job` returns `True` at this step of `handle_stitch`. -/
def StitchPc.finalizes (j : String) (sh : Shared) : StitchPc → Bool
  | .finalize => (finalizeJob sh.db j (outKey j)).2
  | _ => false

/-! ## The invariant -/

/-- The row after `n` successful finalisations. -/
def RowAfter (j : String) (n : Nat) (job : Job) : Prop :=
  n = 0 ∧ (job.status = .generating ∨ job.status = .stitching) ∨
  n = 1 ∧ job.status = .completed ∧ job.finalKey = some (outKey j)

/-- What the runs leave of the stores `sh₀` they started from. -/
structure Held (sh₀ : Shared) (j : String) (n : Nat) (sh : Shared) : Prop where
  tasks : sh.db.tasksOf j = sh₀.db.tasksOf j
  chunks : ∀ k ∈ chunkKeys sh₀.db j, sh.objects k = sh₀.objects k
  row : ∃ job, sh.db.jobs.get j = some job ∧ RowAfter j n job
  asset : n = 1 → Stitched sh j

/-- What the other runs may rely on. -/
structure Advances (j : String) (sh sh' : Shared) : Prop where
  keeps : Keeps sh sh' j
  stitched : Stitched sh j → Stitched sh' j
  past : Past sh j 3 → Past sh' j 3
  completed : sh.db.status j = some .completed → sh'.db.status j = some .completed

/-- What a run knows between its steps. -/
def Stage.Runs (sh : Shared) (j : String) : Stage → Prop
  | .ready => True
  | .work (.stitch pc) => StitchOk sh j pc ∧ StitchFan sh j pc
  | .routing _ => True
  | .acking => True
  | _ => False

def Agent.Runs (j : String) (sh : Shared) : Agent → Prop
  | .copy c => c.msg.body = .stitchReady j → Fits c.msg.body c.queue ∧ c.stage.Runs sh j
  | _ => True

section Stable

variable {sh₀ sh sh' : Shared} {j : String} {n : Nat}

theorem Held.keys (h : Held sh₀ j n sh) : chunkKeys sh.db j = chunkKeys sh₀.db j := by
  rw [chunkKeys, doneTasks, h.tasks]
  rfl

/-- The stores that matter are the same. -/
theorem Advances.of_eq (hjob : sh'.db.jobs.get j = sh.db.jobs.get j)
    (htasks : sh'.db.tasksOf j = sh.db.tasksOf j)
    (hchunks : ∀ k ∈ chunkKeys sh.db j, sh'.objects k = sh.objects k)
    (hout : sh'.objects (outKey j) = sh.objects (outKey j)) : Advances j sh sh' := by
  have hk : Keeps sh sh' j := ⟨by rw [chunkKeys, doneTasks, htasks]; rfl, hchunks⟩
  refine ⟨hk, ?_, ?_, ?_⟩
  · rintro ⟨parts, hparts, ho⟩
    refine ⟨parts, ?_, hout.trans ho⟩
    rw [hk.keys, hk.map fun _ hm => hm]
    exact hparts
  · rintro ⟨job, hg, hr⟩
    exact ⟨job, hjob.trans hg, hr⟩
  · intro hc
    rw [Db.status, hjob]
    exact hc

theorem Untouched.advances (h : Untouched sh sh' j) : Advances j sh sh' :=
  .of_eq h.job h.tasks h.chunks h.out

theorem Untouched.held (hu : Untouched sh sh' j) (h : Held sh₀ j n sh) : Held sh₀ j n sh' where
  tasks := hu.tasks.trans h.tasks
  chunks := fun k hk => (hu.chunks k (by rw [h.keys]; exact hk)).trans (h.chunks k hk)
  row := by
    obtain ⟨job, hg, hr⟩ := h.row
    exact ⟨job, hu.job.trans hg, hr⟩
  asset := fun h1 => hu.advances.stitched (h.asset h1)

theorem Untouched.of_eq (hdb : sh'.db = sh.db) (hobj : sh'.objects = sh.objects) :
    Untouched sh sh' j where
  job := by rw [hdb]
  tasks := by rw [hdb]
  chunks := by rw [hobj]; exact fun _ _ => rfl
  out := by rw [hobj]

theorem StitchOk.advances {pc : StitchPc} (h : StitchOk sh j pc) (ha : Advances j sh sh') :
    StitchOk sh' j pc := by
  cases pc with
  | getParts keys parts => exact ha.past h
  | putFinal parts => exact ha.past h
  | finalize => exact ha.past h
  | notify =>
    have hc : sh.db.status j = some .completed := Option.map_eq_some_iff.mpr h
    exact Option.map_eq_some_iff.mp (ha.completed hc)
  | _ => trivial

theorem Stage.Runs.mono {st : Stage} (h : st.Runs sh j) (ha : Advances j sh sh') :
    st.Runs sh' j := by
  cases st with
  | work w =>
    cases w with
    | stitch pc => exact ⟨h.1.advances ha, h.2.mono ha.keeps ha.stitched⟩
    | parse pc => exact h.elim
    | tts pc => exact h.elim
  | unwind text exc => exact h.elim
  | dlq pc => exact h.elim
  | dlqAcking => exact h.elim
  | _ => trivial

theorem Agent.Runs.mono {a : Agent} (h : a.Runs j sh) (ha : Advances j sh sh') : a.Runs j sh' := by
  cases a with
  | copy c => exact fun hb => ⟨(h hb).1, (h hb).2.mono ha⟩
  | create k cb pc => trivial
  | sweep stale => trivial

end Stable

/-! ## One step of a run -/

/-- A step of a run, with `n` finalisations afterwards. -/
structure Ran (sh₀ : Shared) (j : String) (n : Nat) (sh sh' : Shared) : Prop where
  held : Held sh₀ j n sh'
  advances : Advances j sh sh'
  rows : sh'.db.tasks = sh.db.tasks

def Next.Ran (sh₀ : Shared) (j : String) (n n' : Nat) (sh : Shared) : Next StitchPc → Prop
  | .goto sh' pc pub =>
    Pipeline.Ran sh₀ j n' sh sh' ∧ pub = none ∧ StitchOk sh' j pc ∧ StitchFan sh' j pc
  | .done sh' pub => Pipeline.Ran sh₀ j n' sh sh' ∧ pub = none ∧ sh'.db.status j = some .completed
  | .raise => n' = n

section Step

variable {sh₀ sh sh' : Shared} {j : String} {n : Nat} {o : Obs}

theorem Held.ran_self (h : Held sh₀ j n sh) : Ran sh₀ j n sh sh :=
  ⟨h, (Untouched.of_eq rfl rfl).advances, rfl⟩

theorem Ran.log (h : Ran sh₀ j n sh sh') (o : Obs) : Ran sh₀ j n sh (sh'.log o) where
  held := ⟨h.held.tasks, h.held.chunks, h.held.row, h.held.asset⟩
  advances := ⟨⟨h.advances.keeps.keys, h.advances.keeps.chunks⟩, h.advances.stitched,
    h.advances.past, h.advances.completed⟩
  rows := h.rows

/-- A compare-and-set that wrote `row'` over the row of the job. -/
theorem ran_cas {db' : Db} {n' : Nat} {row' : Job} (h : Held sh₀ j n sh)
    (htasks : db'.tasks = sh.db.tasks) (hget : db'.jobs.get j = some row')
    (hrow : RowAfter j n' row') (hasset : n' = 1 → Stitched sh j) (hpast : 3 ≤ row'.status.rank)
    (hopen : sh.db.status j ≠ some .completed) : Ran sh₀ j n' sh { sh with db := db' } := by
  have hof : db'.tasksOf j = sh.db.tasksOf j := by rw [Db.tasksOf, htasks]; rfl
  have hkeys : chunkKeys db' j = chunkKeys sh.db j := by rw [chunkKeys, doneTasks, hof]; rfl
  have hst : Stitched sh j → Stitched { sh with db := db' } j := by
    rintro ⟨parts, hparts, ho⟩
    refine ⟨parts, ?_, ho⟩
    show (chunkKeys db' j).map sh.objects = _
    rw [hkeys]
    exact hparts
  refine ⟨⟨hof.trans h.tasks, h.chunks, ⟨row', hget, hrow⟩, fun h1 => hst (hasset h1)⟩,
    ⟨⟨hkeys, fun _ _ => rfl⟩, hst, ?_, ?_⟩, htasks⟩
  · exact fun _ => ⟨row', hget, hpast⟩
  · exact fun hc => absurd hc hopen

theorem ran_advance (h : Held sh₀ j n sh) :
    Ran sh₀ j n sh { sh with db := (advanceStatus sh.db j .stitching).1 } ∧
      Past { sh with db := (advanceStatus sh.db j .stitching).1 } j 3 := by
  obtain ⟨job, hg, hrow⟩ := h.row
  generalize hr : advanceStatus sh.db j .stitching = r
  obtain ⟨db', won⟩ := r
  rcases casJob_cases hr with ⟨_, rfl, hlost⟩ | ⟨_, htasks, job', hg', hm, hget⟩
  · -- another run was faster
    have hne : job.status ≠ .generating := by
      intro he
      refine hlost job hg ?_
      rw [JobStatus.mem_expectedFor, JobStatus.canTransition_stitching]
      exact he
    have hpast : Past sh j 3 := by
      refine ⟨job, hg, ?_⟩
      rcases hrow with ⟨_, hst | hst⟩ | ⟨_, hst, _⟩
      · exact absurd hst hne
      · rw [hst]; decide
      · rw [hst]; decide
    exact ⟨h.ran_self, hpast⟩
  · obtain rfl := Option.some.inj (hg.symm.trans hg')
    rw [JobStatus.mem_expectedFor, JobStatus.canTransition_stitching] at hm
    have hrow' : RowAfter j n { job with status := .stitching } := by
      rcases hrow with ⟨h0, _⟩ | ⟨_, hst, _⟩
      · exact .inl ⟨h0, .inr rfl⟩
      · rw [hm] at hst
        cases hst
    have hself := (hget j).trans (if_pos rfl)
    refine ⟨ran_cas h htasks hself hrow' h.asset (Nat.le_refl 3) ?_, _, hself, Nat.le_refl 3⟩
    rw [Db.status, hg, Option.map_some, hm]
    simp

theorem ran_finalize (h : Held sh₀ j n sh) (hp : Past sh j 3) (hout : Stitched sh j) :
    Ran sh₀ j (n + ((finalizeJob sh.db j (outKey j)).2).toNat) sh
        { sh with db := (finalizeJob sh.db j (outKey j)).1 } ∧
      (finalizeJob sh.db j (outKey j)).1.status j = some .completed := by
  obtain ⟨job, hg, hrow⟩ := h.row
  obtain ⟨job₁, hg₁, hrank⟩ := hp
  obtain rfl := Option.some.inj (hg.symm.trans hg₁)
  generalize hr : finalizeJob sh.db j (outKey j) = r
  obtain ⟨db', won⟩ := r
  rcases casJob_cases hr with ⟨rfl, rfl, hlost⟩ | ⟨rfl, htasks, job', hg', hm, hget⟩
  · have hst : job.status = .completed := by
      rcases hrow with ⟨_, hst | hst⟩ | ⟨_, hst, _⟩
      · rw [hst] at hrank
        exact absurd hrank (by decide)
      · refine absurd ?_ (hlost job hg)
        rw [JobStatus.mem_expectedFor, JobStatus.canTransition_completed]
        exact hst
      · exact hst
    exact ⟨h.ran_self, by rw [Db.status, hg, Option.map_some, hst]⟩
  · obtain rfl := Option.some.inj (hg.symm.trans hg')
    rw [JobStatus.mem_expectedFor, JobStatus.canTransition_completed] at hm
    have hn : n = 0 := by
      rcases hrow with ⟨h0, _⟩ | ⟨_, hst, _⟩
      · exact h0
      · rw [hm] at hst
        cases hst
    have hself := (hget j).trans (if_pos rfl)
    rw [hn]
    refine ⟨ran_cas h htasks hself (.inr ⟨rfl, rfl, rfl⟩) (fun _ => hout) (Nat.le_succ 3) ?_, ?_⟩
    · rw [Db.status, hg, Option.map_some, hm]
      simp
    · rw [Db.status, hself]
      rfl

/-- The output object is no chunk, so writing it leaves the chunks. -/
theorem ran_put {parts : List ByteArray} (hkeys : ∀ k ∈ chunkKeys sh₀.db j, ∃ h, k = ttsKey h)
    (h : Held sh₀ j n sh) (hparts : (chunkKeys sh.db j).map sh.objects = parts.map some) :
    Ran sh₀ j n sh (sh.putObject (outKey j) (joinBytes parts)) ∧
      Stitched (sh.putObject (outKey j) (joinBytes parts)) j := by
  have hsame : ∀ k ∈ chunkKeys sh₀.db j,
      (sh.putObject (outKey j) (joinBytes parts)).objects k = sh.objects k := by
    intro k hk
    obtain ⟨x, rfl⟩ := hkeys k hk
    exact putObject_of_ne _ _ (ttsKey_ne_outKey x j)
  have hk : Keeps sh (sh.putObject (outKey j) (joinBytes parts)) j :=
    ⟨rfl, by rw [h.keys]; exact hsame⟩
  have hst : Stitched (sh.putObject (outKey j) (joinBytes parts)) j := by
    refine ⟨parts, ?_, Function.update_self ..⟩
    rw [hk.keys, hk.map fun _ hm => hm]
    exact hparts
  exact ⟨⟨⟨h.tasks, fun k hm => (hsame k hm).trans (h.chunks k hm), h.row, fun _ => hst⟩,
    ⟨hk, fun _ => hst, fun hp => hp, fun hc => hc⟩, rfl⟩, hst⟩

theorem stitch_ran (hkeys : ∀ k ∈ chunkKeys sh₀.db j, ∃ h, k = ttsKey h) {pc : StitchPc}
    (h : Held sh₀ j n sh) (hok : StitchOk sh j pc) (hfan : StitchFan sh j pc) :
    (stitchStep sh (.stitchReady j) pc).Ran sh₀ j n (n + (pc.finalizes j sh).toNat) sh := by
  cases pc with
  | validate =>
    simp only [stitchStep]
    split
    · exact ⟨h.ran_self, rfl, trivial, trivial⟩
    · rfl
  | loadJob =>
    obtain ⟨job, hg, _⟩ := h.row
    simp only [stitchStep]
    rw [show sh.db.jobs.get (Event.stitchReady j).jobId = some job from hg]
    simp only []
    split
    · rename_i hc
      exact ⟨h.ran_self, rfl, by rw [Db.status, hg, Option.map_some, hc]⟩
    · exact ⟨h.ran_self, rfl, trivial, trivial⟩
  | loadChunks => exact ⟨h.ran_self, rfl, trivial, rfl⟩
  | advance keys =>
    obtain ⟨hr, hp⟩ := ran_advance h
    refine ⟨hr.log _, rfl, hp, [], ?_, rfl⟩
    exact hr.advances.keeps.keys.trans hfan.symm
  | getParts keys parts =>
    obtain ⟨done, hdone, hparts⟩ := hfan
    cases keys with
    | nil =>
      rw [List.append_nil] at hdone
      exact ⟨h.ran_self, rfl, hok, by rw [StitchFan, hdone]; exact hparts⟩
    | cons key keys =>
      simp only [stitchStep]
      split
      · rfl
      · rename_i bytes hb
        refine ⟨h.ran_self, rfl, hok, done ++ [key], ?_, ?_⟩
        · rw [hdone, List.append_assoc]
          rfl
        · rw [List.map_append, List.map_append, hparts, List.map_singleton, List.map_singleton, hb]
  | putFinal parts =>
    obtain ⟨hr, hst⟩ := ran_put hkeys h hfan
    exact ⟨hr, rfl, hok, hst⟩
  | finalize =>
    obtain ⟨hr, hc⟩ := ran_finalize h hok hfan
    simp only [stitchStep]
    split
    · exact ⟨hr.log _, rfl, Option.map_eq_some_iff.mp hc, trivial⟩
    · exact ⟨hr.log _, rfl, hc⟩
  | notify => exact ⟨h.ran_self.log _, rfl, Option.map_eq_some_iff.mpr hok⟩

end Step

end Pipeline
end AudioEngine
