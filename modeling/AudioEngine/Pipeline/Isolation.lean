import AudioEngine.Pipeline.Data

/-!
# AudioEngine.Pipeline.Isolation

Jobs do not interfere through the stores: a step on behalf of a message for one job leaves the rows
and objects of every other job as they are (`Apart`).

The claim on a task filters on `task_id` alone and the decrement on `job_id` alone. That they are
about the same job is the assertion every `TtsRequested` carries through retries and dead letters
(`EventOk`), and that no other job has a task of that id rests on `taskIdOf_inj`.
-/

namespace AudioEngine
namespace Pipeline

open Relational Interleave

/-- The row, the task rows and the objects of the job `k` are as before. -/
structure Apart (sh sh' : Shared) (k : String) : Prop where
  job : sh'.db.jobs.get k = sh.db.jobs.get k
  tasks : sh'.db.tasksOf k = sh.db.tasksOf k
  raw : sh'.objects (rawKey k) = sh.objects (rawKey k)
  out : sh'.objects (outKey k) = sh.objects (outKey k)

section Frames

variable {cfg : Settings} {sh sh' : Shared} {j k t : String} {db' : Db}

theorem Apart.of_eq (hdb : sh'.db = sh.db) (hobj : sh'.objects = sh.objects) : Apart sh sh' k where
  job := by rw [hdb]
  tasks := by rw [hdb]
  raw := by rw [hobj]
  out := by rw [hobj]

theorem Apart.refl (sh : Shared) (k : String) : Apart sh sh k := .of_eq rfl rfl

theorem Apart.emit (h : Apart sh sh' k) (pub : Option (Live × Event)) :
    Apart sh (emit sh' pub).1 k := by
  cases pub with
  | none => exact h
  | some p => exact ⟨h.job, h.tasks, h.raw, h.out⟩

/-- A status write to the row of `j`. -/
theorem cas_apart {expected : List JobStatus} {set : Job → Job}
    {hset : ∀ r, (set r).jobId = r.jobId} {won : Bool} {o : Obs} (hk : k ≠ j)
    (h : casJob sh.db j expected set hset = (db', won)) :
    Apart sh ({ sh with db := db' }.log o) k := by
  rcases casJob_cases h with ⟨_, rfl, _⟩ | ⟨_, htasks, _, _, _, hget⟩
  · exact .of_eq rfl rfl
  · refine ⟨?_, ?_, rfl, rfl⟩
    · exact (hget k).trans (if_neg hk)
    · show db'.tasksOf k = _
      rw [Db.tasksOf, htasks]; rfl

/-- A claim on a task of `j` with the decrement of its counter. -/
theorem claimed_apart {task task' : Task} {job : Job} {o : Obs} (hk : k ≠ j)
    (howner : task.jobId = j) (hc : Claimed sh.db db' j t task task' job) :
    Apart sh ({ sh with db := db' }.log o) k where
  job := (hc.jobs k).trans (if_neg hk)
  tasks := claimed_tasksOf hc (by rw [howner]; exact Ne.symm hk)
  raw := rfl
  out := rfl

theorem complete_apart {task : Task} {key : String} {r : Option Int} {o : Obs} (hk : k ≠ j)
    (hg : sh.db.tasks.get t = some task) (howner : task.jobId = j)
    (h : completeTaskAndDecrement sh.db j t key = .ok (db', r)) :
    Apart sh ({ sh with db := db' }.log o) k := by
  rcases completeTask_cases h with ⟨_, rfl, _⟩ | ⟨task', job, _, _, hc⟩
  · exact .of_eq rfl rfl
  · obtain rfl := Option.some.inj (hg.symm.trans hc.task_get)
    exact claimed_apart hk howner hc

theorem fail_apart {task : Task} {r : Option Int} {o : Obs} (hk : k ≠ j)
    (hg : sh.db.tasks.get t = some task) (howner : task.jobId = j)
    (h : failTaskAndDecrement sh.db j t = .ok (db', r)) :
    Apart sh ({ sh with db := db' }.log o) k := by
  rcases failTask_cases h with ⟨_, rfl, _⟩ | ⟨task', job, _, _, hc⟩
  · exact .of_eq rfl rfl
  · obtain rfl := Option.some.inj (hg.symm.trans hc.task_get)
    exact claimed_apart hk howner hc

theorem seed_apart {text : String} {job : Job} {won : Bool} {o : Obs} (hs : Sound cfg sh)
    (hk : k ≠ j) (hjob : sh.db.jobs.get j = some job) (htext : sh.getText (rawKey j) = some text)
    (h : seedTasks sh.db j (blocksOf cfg text) = .ok (db', won)) :
    Apart sh ({ sh with db := db' }.log o) k where
  job := by
    rcases hs.seed_cases hjob htext h with ⟨_, _, ⟨_, _, hget⟩ | ⟨_, _, hjobs⟩⟩ | ⟨_, rfl, _, _⟩
    · exact (hget k).trans (if_neg hk)
    · exact congrArg (fun jobs => jobs.get k) hjobs
    · rfl
  tasks := hs.seed_tasksOf hjob htext h hk
  raw := rfl
  out := rfl

end Frames

/-! ## The handlers -/

section Handlers

variable {cfg : Settings} {sh : Shared} {j k t : String}

theorem parse_apart (hs : Sound cfg sh) (he : Past sh j 0) {pc : ParsePc}
    (h : ParseOk cfg sh j pc) (hk : k ≠ j) :
    (parseStep cfg sh (.jobCreated j) pc).Leaves fun sh' => Apart sh sh' k := by
  cases pc with
  | seed blocks =>
    obtain ⟨text, htext, rfl⟩ := h
    obtain ⟨job, hjob, _⟩ := he
    simp only [parseStep]
    split
    · trivial
    · rename_i db won hexec
      exact seed_apart hs hk hjob htext (executeSeed_eq_ok.mp hexec).2
  | advance n => exact cas_apart hk rfl
  | _ =>
    simp only [parseStep]
    (repeat' split) <;> first | trivial | exact .of_eq rfl rfl

theorem tts_apart (he : EventOk sh (.ttsRequested j t)) {pc : TtsPc} (hk : k ≠ j) :
    (ttsStep sh (.ttsRequested j t) pc).Leaves fun sh' => Apart sh sh' k := by
  obtain ⟨⟨task, hg, howner⟩, _⟩ := he
  cases pc with
  | complete key =>
    simp only [ttsStep]
    split
    · trivial
    · rename_i db remaining hc
      have hap := complete_apart (o := .completeTask j t remaining) hk hg howner hc
      (repeat' split) <;> exact hap
  | putAudio text =>
    refine ⟨rfl, rfl, ?_, ?_⟩
    · exact putObject_of_ne _ _ (rawKey_ne_ttsKey k _)
    · exact putObject_of_ne _ _ (ttsKey_ne_outKey _ k).symm
  | _ =>
    simp only [ttsStep]
    (repeat' split) <;> first | trivial | exact .of_eq rfl rfl

theorem stitch_apart {pc : StitchPc} (hk : k ≠ j) :
    (stitchStep sh (.stitchReady j) pc).Leaves fun sh' => Apart sh sh' k := by
  cases pc with
  | advance keys => exact cas_apart hk rfl
  | getParts keys parts =>
    cases keys <;> simp only [stitchStep] <;> (repeat' split) <;>
      first | trivial | exact .of_eq rfl rfl
  | putFinal parts =>
    refine ⟨rfl, rfl, ?_, ?_⟩
    · exact putObject_of_ne _ _ (rawKey_ne_outKey k _)
    · exact putObject_of_ne _ _ (by simpa using hk)
  | finalize =>
    simp only [stitchStep]
    split <;> exact cas_apart hk rfl
  | _ =>
    simp only [stitchStep]
    (repeat' split) <;> first | trivial | exact .of_eq rfl rfl

theorem dlq_apart {e : Event} (he : EventOk sh e) {pc : DlqPc} (h : DlqOk e pc)
    (hk : k ≠ e.jobId) : (dlqStep sh e pc).Leaves fun sh' => Apart sh sh' k := by
  cases pc with
  | failTask =>
    obtain ⟨j, t, rfl⟩ := h
    obtain ⟨⟨task, hg, howner⟩, _⟩ := he
    simp only [dlqStep]
    split
    · trivial
    · rename_i db remaining hc
      have hap := fail_apart (o := .failTask j t remaining) hk hg howner hc
      split <;> exact hap
  | advanceFailed => exact cas_apart hk rfl
  | _ =>
    simp only [dlqStep]
    (repeat' split) <;> first | trivial | exact .of_eq rfl rfl

end Handlers

/-! ## Every step -/

section Step

variable {cfg : Settings} {sh sh' : Shared} {c : Copy} {i : Choice} {outs : List Agent}

theorem work_apart (hs : Sound cfg sh) (h : (Agent.copy c).Holds cfg sh) {w : Work}
    (hst : c.stage = .work w) {k : String} (hk : k ≠ c.msg.body.jobId) :
    (w.step cfg sh c.msg.body).Leaves fun sh' => Apart sh sh' k := by
  obtain ⟨_, he, hok⟩ := h
  rw [hst] at hok
  cases w with
  | parse pc =>
    obtain ⟨j, hj, hpc⟩ := hok
    rw [hj] at he hk ⊢
    exact (parse_apart hs he hpc hk).map Work.parse fun _ ha => ha
  | tts pc =>
    obtain ⟨j, t, hj, _⟩ := hok
    rw [hj] at he hk ⊢
    exact (tts_apart he hk).map Work.tts fun _ ha => ha
  | stitch pc =>
    obtain ⟨j, hj, _⟩ := hok
    rw [hj] at hk ⊢
    exact (stitch_apart hk).map Work.stitch fun _ ha => ha

theorem moves_apart (hs : Sound cfg sh) (h : (Agent.copy c).Holds cfg sh)
    (hm : Moves cfg sh c i sh' outs) {k : String} (hk : k ≠ c.msg.body.jobId) :
    Apart sh sh' k := by
  cases hm with
  | work hst hstep =>
    have ha := work_apart hs h hst hk
    rw [hstep] at ha
    exact Apart.emit ha _
  | returned hst hstep =>
    have ha := work_apart hs h hst hk
    rw [hstep] at ha
    exact Apart.emit ha _
  | dlq hst hstep =>
    have hok := h.2.2
    rw [hst] at hok
    have ha := dlq_apart h.2.1 hok hk
    rw [hstep] at ha
    exact Apart.emit ha _
  | dlqReturned hst hstep =>
    have hok := h.2.2
    rw [hst] at hok
    have ha := dlq_apart h.2.1 hok hk
    rw [hstep] at ha
    exact Apart.emit ha _
  | _ => exact .of_eq rfl rfl

end Step

/-- The next step of the copy claims a task row by its `task_id` and decrements a counter by its
`job_id`. -/
def Copy.Claiming (c : Copy) : Prop :=
  (∃ key, c.stage = .work (.tts (.complete key))) ∨ c.stage = .dlq .failTask

/-- In every run a step on behalf of a message for one job leaves the rows and objects of every
other job as they are, and a row that is claimed belongs to the job whose counter is decremented. -/
theorem jobs_apart {cfg : Settings} {s : State} (h : Reach (system cfg) (fun _ _ _ => True) s)
    {c : Copy} (hc : .copy c ∈ s.agents) :
    (∀ i sh' outs, act cfg s.shared (.copy c) i = some (sh', outs) →
      ∀ k, k ≠ c.msg.body.jobId → Apart s.shared sh' k) ∧
    (c.Claiming → ∃ task, s.shared.db.tasks.get c.msg.body.taskId = some task ∧
      task.jobId = c.msg.body.jobId) := by
  obtain ⟨hs, hA⟩ := reach_data h
  refine ⟨?_, ?_⟩
  · intro i sh' outs hact k hk
    exact moves_apart hs (hA _ hc) (act_moves hact) hk
  · intro hcl
    obtain ⟨_, he, hok⟩ := hA _ hc
    have hev : ∃ j t, c.msg.body = .ttsRequested j t := by
      rcases hcl with ⟨key, hst⟩ | hst
      · rw [hst] at hok
        obtain ⟨j, t, hj, _⟩ := hok
        exact ⟨j, t, hj⟩
      · rw [hst] at hok
        exact hok
    obtain ⟨j, t, hj⟩ := hev
    rw [hj] at he ⊢
    exact he.1

/-- The copy of the only task of the job `k`, in front of its claim. -/
def lastCopy : Copy where
  queue := .live .tts
  msg := publishMessage (.ttsRequested "k" "k-0")
  stage := .work (.tts (.complete (ttsKey (contentHash "B"))))

set_option maxRecDepth 4000 in
/-- Two jobs side by side: the claim of the one leaves the other alone. -/
theorem jobs_apart_two_jobs :
    ∃ s, Reach (system {}) (fun _ _ _ => True) s ∧ .copy lastCopy ∈ s.agents ∧
      s.shared.db.status "j" = some .generating ∧
      (∃ sh' outs, act {} s.shared (.copy lastCopy) .go = some (sh', outs) ∧
        Apart s.shared sh' "j") ∧
      ∃ task, s.shared.db.tasks.get "k-0" = some task ∧ task.jobId = "k" := by
  obtain ⟨s, hr, hmem, hst, hact⟩ : ∃ s, Reach (system {}) (fun _ _ _ => True) s ∧
      .copy lastCopy ∈ s.agents ∧ s.shared.db.status "j" = some .generating ∧
      (act {} s.shared (.copy lastCopy) .go).isSome = true :=
    System.exists_reach (C := fun _ _ _ => true) (fun _ _ _ _ => trivial)
      (.env (.post "j" "A" none) :: List.replicate 23 (.act 0 .go) ++
        .env (.post "k" "B" none) :: List.replicate 23 (.act 0 .go)) (by decide +kernel)
  obtain ⟨⟨sh', outs⟩, hsome⟩ := Option.isSome_iff_exists.mp hact
  obtain ⟨hap, hcl⟩ := jobs_apart hr hmem
  exact ⟨s, hr, hmem, hst, ⟨sh', outs, hsome, hap .go sh' outs hsome "j" (by decide)⟩,
    hcl (.inl ⟨_, rfl⟩)⟩

end Pipeline
end AudioEngine
