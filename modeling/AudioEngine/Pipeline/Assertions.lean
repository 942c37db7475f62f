import AudioEngine.Pipeline.Moves

/-!
# AudioEngine.Pipeline.Assertions

What every agent may assume at its program point.

`Agent.Holds` collects the assertions: an event in flight has the row it points to, and a handler's
local variables agree with the stores (the blocks it is about to insert are those of the stored
manuscript, the audio key it is about to write names an object with the audio of the task's hash).
All of it is stable under `Evolves`, so no agent can invalidate another one's assertion.
-/

namespace AudioEngine
namespace Pipeline

open Relational Interleave

/-! ## Assertions -/

/-- The live queue an event is published to. -/
def home : Event → Live
  | .jobCreated _ => .parse
  | .ttsRequested _ _ => .tts
  | .stitchReady _ => .stitch

def EventOk (sh : Shared) : Event → Prop
  | .jobCreated j => Past sh j 0
  | .ttsRequested j t => (∃ task, sh.db.tasks.get t = some task ∧ task.jobId = j) ∧ Past sh j 2
  | .stitchReady j => Past sh j 2

/-- The queue fits the event; the dead-letter queue takes all of them. -/
def Fits (e : Event) (q : QueueName) : Prop :=
  q = .dlq ∨ q = .live (home e) ∨ ∃ d, q = .retry (home e) d

/-- The job has been laid out in `n` blocks. -/
def LaidIn (cfg : Settings) (sh : Shared) (j : String) (n : Nat) : Prop :=
  ∃ text, LaidOut cfg sh j text ∧ n = (blocksOf cfg text).length

def ParseOk (cfg : Settings) (sh : Shared) (j : String) : ParsePc → Prop
  | .validate => True
  | .loadJob => True
  | .loadText key => key = rawKey j
  | .simulate text => sh.getText (rawKey j) = some text
  | .seed blocks => ∃ text, sh.getText (rawKey j) = some text ∧ blocks = blocksOf cfg text
  | .advance n => LaidIn cfg sh j n ∧ Past sh j 1
  | .publishStitch => LaidIn cfg sh j 0 ∧ Past sh j 2
  | .publishTts n i => LaidIn cfg sh j n ∧ i < n ∧ Past sh j 2

/-- `text` is the block of the task. -/
def BlockText (sh : Shared) (t text : String) : Prop :=
  ∃ task, sh.db.tasks.get t = some task ∧ task.blockHash = contentHash text

def Stored (sh : Shared) (h : String) : Prop := sh.objects (ttsKey h) = some (audioOf h)

def TtsOk (sh : Shared) (j t : String) : TtsPc → Prop
  | .validate => True
  | .loadTask => True
  | .loadJob i => ∃ task, sh.db.tasks.get t = some task ∧ task.blockIndex = i
  | .loadText i key =>
    (∃ task, sh.db.tasks.get t = some task ∧ task.blockIndex = i) ∧ key = rawKey j
  | .cacheGet text => BlockText sh t text
  | .acquireInflight text => BlockText sh t text
  | .enterSlot text => BlockText sh t text
  | .putAudio text => BlockText sh t text
  | .leaveSlot text => BlockText sh t text ∧ Stored sh (contentHash text)
  | .cacheSet text => BlockText sh t text ∧ Stored sh (contentHash text)
  | .releaseInflight text => BlockText sh t text ∧ Stored sh (contentHash text)
  | .waitForCache text _ => BlockText sh t text
  | .complete key =>
    ∃ task, sh.db.tasks.get t = some task ∧ key = ttsKey task.blockHash ∧ Stored sh task.blockHash
  | .reread => ∃ task, sh.db.tasks.get t = some task ∧ task.status = .done
  | .publish => ∃ task, sh.db.tasks.get t = some task ∧ task.status = .done

def StitchOk (sh : Shared) (j : String) : StitchPc → Prop
  | .validate => True
  | .loadJob => True
  | .loadChunks => True
  | .advance _ => True
  | .getParts _ _ => Past sh j 3
  | .putFinal _ => Past sh j 3
  | .finalize => Past sh j 3
  | .notify => ∃ job, sh.db.jobs.get j = some job ∧ job.status = .completed

def DlqOk (e : Event) : DlqPc → Prop
  | .resolve => True
  | .failTask => ∃ j t, e = .ttsRequested j t
  | .publish => ∃ j t, e = .ttsRequested j t
  | .advanceFailed => e.body.taskId = none

def Stage.Ok (cfg : Settings) (sh : Shared) (e : Event) : Stage → Prop
  | .work (.parse pc) => ∃ j, e = .jobCreated j ∧ ParseOk cfg sh j pc
  | .work (.tts pc) => ∃ j t, e = .ttsRequested j t ∧ TtsOk sh j t pc
  | .work (.stitch pc) => ∃ j, e = .stitchReady j ∧ StitchOk sh j pc
  | .dlq pc => DlqOk e pc
  | _ => True

def Agent.Holds (cfg : Settings) (sh : Shared) : Agent → Prop
  | .copy c => Fits c.msg.body c.queue ∧ EventOk sh c.msg.body ∧ c.stage.Ok cfg sh c.msg.body
  | .create j _ .insert => ∃ m, .posted j m ∈ sh.trace
  | .create j _ .publish => Past sh j 0
  | .sweep stale => ∀ j ∈ stale, Past sh j 0

/-! ## Which handler an event has -/

section Handler

variable {cfg : Settings} {sh : Shared} {c : Copy} {w : Work} {j t : String}

theorem work_jobCreated (h : (Agent.copy c).Holds cfg sh) (hb : c.msg.body = .jobCreated j)
    (hst : c.stage = .work w) : ∃ pc, w = .parse pc ∧ ParseOk cfg sh j pc := by
  have hok := h.2.2
  rw [hst, hb] at hok
  cases w with
  | parse pc =>
    obtain ⟨_, he, hpc⟩ := hok
    cases he
    exact ⟨pc, rfl, hpc⟩
  | tts pc =>
    obtain ⟨_, _, he, _⟩ := hok
    cases he
  | stitch pc =>
    obtain ⟨_, he, _⟩ := hok
    cases he

theorem work_ttsRequested (h : (Agent.copy c).Holds cfg sh) (hb : c.msg.body = .ttsRequested j t)
    (hst : c.stage = .work w) : ∃ pc, w = .tts pc ∧ TtsOk sh j t pc := by
  have hok := h.2.2
  rw [hst, hb] at hok
  cases w with
  | parse pc =>
    obtain ⟨_, he, _⟩ := hok
    cases he
  | tts pc =>
    obtain ⟨_, _, he, hpc⟩ := hok
    cases he
    exact ⟨pc, rfl, hpc⟩
  | stitch pc =>
    obtain ⟨_, he, _⟩ := hok
    cases he

theorem work_stitchReady (h : (Agent.copy c).Holds cfg sh) (hb : c.msg.body = .stitchReady j)
    (hst : c.stage = .work w) : ∃ pc, w = .stitch pc ∧ StitchOk sh j pc := by
  have hok := h.2.2
  rw [hst, hb] at hok
  cases w with
  | parse pc =>
    obtain ⟨_, he, _⟩ := hok
    cases he
  | tts pc =>
    obtain ⟨_, _, he, _⟩ := hok
    cases he
  | stitch pc =>
    obtain ⟨_, he, hpc⟩ := hok
    cases he
    exact ⟨pc, rfl, hpc⟩

end Handler

/-! ## Stability -/

section Stable

variable {cfg : Settings} {sh sh' : Shared} {j t : String}

theorem Past.mono {n : Nat} (h : Past sh j n) (he : Evolves cfg sh sh') : Past sh' j n := by
  obtain ⟨job, hg, hn⟩ := h
  obtain ⟨job', hg', hst⟩ := he.job j job hg
  exact ⟨job', hg', hn.trans (JobStatus.rank_le hst)⟩

theorem Past.weaken {n m : Nat} (h : Past sh j n) (hm : m ≤ n) : Past sh j m := by
  obtain ⟨job, hg, hn⟩ := h
  exact ⟨job, hg, hm.trans hn⟩

/-- What is said about the unchanging columns of a task stays true. -/
theorem task_mono {P : Task → Prop} (hP : ∀ x y : Task, y.origin = x.origin → P x → P y)
    (h : ∃ task, sh.db.tasks.get t = some task ∧ P task) (he : Evolves cfg sh sh') :
    ∃ task, sh'.db.tasks.get t = some task ∧ P task := by
  obtain ⟨task, hg, hp⟩ := h
  obtain ⟨task', hg', ho, _⟩ := he.task t task hg
  exact ⟨task', hg', hP task task' ho hp⟩

theorem origin_eq {x y : Task} (h : y.origin = x.origin) :
    y.jobId = x.jobId ∧ y.blockIndex = x.blockIndex ∧ y.blockHash = x.blockHash := by
  simp only [Task.origin, Prod.mk.injEq] at h
  exact ⟨h.2.1, h.2.2.1, h.2.2.2⟩

theorem done_mono (h : ∃ task, sh.db.tasks.get t = some task ∧ task.status = .done)
    (he : Evolves cfg sh sh') : ∃ task, sh'.db.tasks.get t = some task ∧ task.status = .done := by
  obtain ⟨task, hg, hd⟩ := h
  obtain ⟨task', hg', _, hfro, _⟩ := he.task t task hg
  exact ⟨task', hg', by rw [hfro hd]; exact hd⟩

theorem EventOk.mono {e : Event} (h : EventOk sh e) (he : Evolves cfg sh sh') : EventOk sh' e := by
  cases e with
  | jobCreated j => exact Past.mono h he
  | ttsRequested j t =>
    refine ⟨task_mono (fun x y ho hx => ?_) h.1 he, h.2.mono he⟩
    rw [(origin_eq ho).1]; exact hx
  | stitchReady j => exact Past.mono h he

theorem getText_mono {text : String} (he : Evolves cfg sh sh')
    (h : sh.getText (rawKey j) = some text) : sh'.getText (rawKey j) = some text :=
  getText_of_raw (he.raw j) h

theorem LaidIn.mono {n : Nat} (h : LaidIn cfg sh j n) (he : Evolves cfg sh sh') :
    LaidIn cfg sh' j n := by
  obtain ⟨text, hl, hn⟩ := h
  exact ⟨text, he.laid j text hl, hn⟩

theorem ParseOk.mono {pc : ParsePc} (h : ParseOk cfg sh j pc) (he : Evolves cfg sh sh') :
    ParseOk cfg sh' j pc := by
  cases pc with
  | validate => trivial
  | loadJob => trivial
  | loadText key => exact h
  | simulate text => exact getText_mono he h
  | seed blocks =>
    obtain ⟨text, ht, hb⟩ := h
    exact ⟨text, getText_mono he ht, hb⟩
  | advance n => exact ⟨h.1.mono he, h.2.mono he⟩
  | publishStitch => exact ⟨h.1.mono he, h.2.mono he⟩
  | publishTts n i => exact ⟨h.1.mono he, h.2.1, h.2.2.mono he⟩

theorem BlockText.mono {text : String} (h : BlockText sh t text) (he : Evolves cfg sh sh') :
    BlockText sh' t text :=
  task_mono (fun _ _ ho hx => (origin_eq ho).2.2.trans hx) h he

theorem Stored.mono {k : String} (h : Stored sh k) (he : Evolves cfg sh sh') : Stored sh' k :=
  he.audio k _ h

theorem TtsOk.mono {pc : TtsPc} (h : TtsOk sh j t pc) (he : Evolves cfg sh sh') :
    TtsOk sh' j t pc := by
  have index : ∀ {i : Nat}, (∃ task, sh.db.tasks.get t = some task ∧ task.blockIndex = i) →
      ∃ task, sh'.db.tasks.get t = some task ∧ task.blockIndex = i :=
    fun hi => task_mono (fun _ _ ho hx => (origin_eq ho).2.1.trans hx) hi he
  cases pc with
  | validate => trivial
  | loadTask => trivial
  | loadJob i => exact index h
  | loadText i key => exact ⟨index h.1, h.2⟩
  | cacheGet text => exact BlockText.mono h he
  | acquireInflight text => exact BlockText.mono h he
  | enterSlot text => exact BlockText.mono h he
  | putAudio text => exact BlockText.mono h he
  | leaveSlot text => exact ⟨h.1.mono he, h.2.mono he⟩
  | cacheSet text => exact ⟨h.1.mono he, h.2.mono he⟩
  | releaseInflight text => exact ⟨h.1.mono he, h.2.mono he⟩
  | waitForCache text n => exact BlockText.mono h he
  | complete key =>
    obtain ⟨task, hg, hk, hb⟩ := h
    obtain ⟨task', hg', ho, _⟩ := he.task t task hg
    have hh := (origin_eq ho).2.2
    refine ⟨task', hg', ?_, ?_⟩
    · rw [hh]; exact hk
    · rw [hh]; exact hb.mono he
  | reread => exact done_mono h he
  | publish => exact done_mono h he

theorem completed_mono (h : ∃ job, sh.db.jobs.get j = some job ∧ job.status = .completed)
    (he : Evolves cfg sh sh') : ∃ job, sh'.db.jobs.get j = some job ∧ job.status = .completed := by
  obtain ⟨job, hg, hc⟩ := h
  obtain ⟨job', hg', hst⟩ := he.job j job hg
  refine ⟨job', hg', ?_⟩
  rcases hst with hst | hst
  · exact hst.trans hc
  · rw [hc, JobStatus.terminal_iff.mp rfl] at hst
    cases hst

theorem StitchOk.mono {pc : StitchPc} (h : StitchOk sh j pc) (he : Evolves cfg sh sh') :
    StitchOk sh' j pc := by
  cases pc with
  | validate => trivial
  | loadJob => trivial
  | loadChunks => trivial
  | advance keys => trivial
  | getParts keys parts => exact Past.mono h he
  | putFinal parts => exact Past.mono h he
  | finalize => exact Past.mono h he
  | notify => exact completed_mono h he

theorem Stage.Ok.mono {e : Event} {st : Stage} (h : st.Ok cfg sh e) (he : Evolves cfg sh sh') :
    st.Ok cfg sh' e := by
  cases st with
  | work w =>
    cases w with
    | parse pc =>
      obtain ⟨j, hj, hpc⟩ := h
      exact ⟨j, hj, hpc.mono he⟩
    | tts pc =>
      obtain ⟨j, t, hj, hpc⟩ := h
      exact ⟨j, t, hj, hpc.mono he⟩
    | stitch pc =>
      obtain ⟨j, hj, hpc⟩ := h
      exact ⟨j, hj, hpc.mono he⟩
  | dlq pc => exact h
  | ready => trivial
  | unwind text exc => trivial
  | routing p => trivial
  | acking => trivial
  | dlqAcking => trivial

theorem Agent.Holds.mono {a : Agent} (h : a.Holds cfg sh) (he : Evolves cfg sh sh') :
    a.Holds cfg sh' := by
  cases a with
  | copy c => exact ⟨h.1, h.2.1.mono he, h.2.2.mono he⟩
  | create j cb pc =>
    cases pc with
    | insert =>
      obtain ⟨m, hm⟩ := h
      obtain ⟨os, ht⟩ := he.trace
      exact ⟨m, by rw [ht]; exact List.mem_append_right os hm⟩
    | publish => exact Past.mono h he
  | sweep stale => exact fun j hj => (h j hj).mono he

end Stable

end Pipeline
end AudioEngine
