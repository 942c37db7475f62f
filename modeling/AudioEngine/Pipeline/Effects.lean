import AudioEngine.Pipeline.System

/-!
# AudioEngine.Pipeline.Effects

What one step of any agent can do to the shared stores, and the invariant of the stores that holds
in every run.

`Effect` is a sound abstraction of the handlers: eleven moves, whatever the program point they are
taken at. `Sound` is the data invariant (the rows of a job are the blocks of its manuscript, a
`DONE` task and a cache entry name the audio object of their content hash), `Evolves` is what no
step ever undoes (a status only climbs, a task keeps its columns, a `DONE` row is frozen, raw and
audio objects stay). `Effect.sound` and `Effect.evolves` prove both of every move.

Some moves are only made at one program point, and three of them are faults of the design that some
results exclude: claiming a task that the dead-letter path has `FAILED`, anything done by the
dead-letter consumer, and inserting task rows for a job that is already `FAILED`. A `Licence` says
which of them the acting agent can be making.
-/

namespace AudioEngine
namespace Pipeline

open Relational

/-- Announcements, as opposed to database calls and posts. -/
def Obs.isNote : Obs → Bool
  | .published _ _ => true
  | .parsed _ => true
  | .notify _ => true
  | _ => false

/-- What the acting agent can be doing, as far as later results ask. -/
structure Licence where
  /-- completing a task that is `FAILED` -/
  recount : Prop
  /-- running the dead-letter consumer -/
  deadLetter : Prop
  /-- inserting rows for a job that is `FAILED` and has none -/
  orphan : Prop
  /-- standing at the seeding transaction of the job -/
  seeds : String → Prop
  /-- standing at the `finalize_job` of the job -/
  finalizes : String → Prop
  /-- running `do_work` for the job -/
  works : String → Prop
  /-- claiming a task of the job -/
  claims : String → Prop

def Licence.none : Licence :=
  ⟨False, False, False, fun _ => False, fun _ => False, fun _ => False, fun _ => False⟩

/-- Moves that leave Postgres alone. -/
inductive Stores (sh : Shared) : Shared → Prop where
  | note (os : List Obs) : (∀ o ∈ os, o.isNote = true) →
      Stores sh { sh with trace := os ++ sh.trace }
  | redis (cache inflight : String → Option String) :
      (∀ h k, cache h = some k → k = ttsKey h ∧ sh.objects k = some (audioOf h)) →
      Stores sh { sh with cache := cache, inflight := inflight }
  | putAudio (h : String) : Stores sh (sh.putObject (ttsKey h) (audioOf h))
  | putFinal (j : String) (bytes : ByteArray) : Stores sh (sh.putObject (outKey j) bytes)
  | post (j manuscript : String) : sh.objects (rawKey j) = none →
      Stores sh ((sh.putObject (rawKey j) manuscript.toUTF8).log (.posted j manuscript))

/-- The moves of the whole engine. -/
inductive Effect (cfg : Settings) (F : Licence) (sh : Shared) : Shared → Prop where
  | stores {sh' : Shared} : Stores sh sh' → Effect cfg F sh sh'
  | insertJob {j manuscript : String} {cb : Option String} {jobs : Table Job.jobId} :
      .posted j manuscript ∈ sh.trace →
      sh.db.jobs.insert? { jobId := j, manuscriptKey := rawKey j, callbackUrl := cb } = some jobs →
      Effect cfg F sh { sh with db := { sh.db with jobs := jobs } }
  | seed {j text : String} {job : Job} {db : Db} {won : Bool} :
      sh.db.jobs.get j = some job → sh.getText (rawKey j) = some text →
      seedTasks sh.db j (blocksOf cfg text) = .ok (db, won) →
      (job.status = .failed → sh.db.tasksOf j = [] → blocksOf cfg text ≠ [] → F.orphan) →
      F.seeds j →
      Effect cfg F sh
        ({ sh with db := db }.log (.beginParse j (blocksOf cfg text).length won))
  | advance {j : String} {st : JobStatus} {db : Db} {won : Bool} :
      st = .generating ∨ st = .stitching ∨ (st = .failed ∧ F.deadLetter) →
      advanceStatus sh.db j st = (db, won) → (st ≠ .failed → F.works j) →
      Effect cfg F sh ({ sh with db := db }.log (.advanceStatus j st won))
  | finalize {j : String} {db : Db} {won : Bool} :
      finalizeJob sh.db j (outKey j) = (db, won) → F.finalizes j →
      Effect cfg F sh ({ sh with db := db }.log (.finalizeJob j won))
  | complete {j t : String} {task : Task} {db : Db} {r : Option Int} :
      sh.db.tasks.get t = some task → task.jobId = j →
      sh.objects (ttsKey task.blockHash) = some (audioOf task.blockHash) →
      completeTaskAndDecrement sh.db j t (ttsKey task.blockHash) = .ok (db, r) →
      (task.status = .failed → F.recount) → F.claims j →
      Effect cfg F sh ({ sh with db := db }.log (.completeTask j t r))
  | fail {j t : String} {task : Task} {db : Db} {r : Option Int} :
      sh.db.tasks.get t = some task → task.jobId = j →
      failTaskAndDecrement sh.db j t = .ok (db, r) → F.deadLetter → F.claims j →
      Effect cfg F sh ({ sh with db := db }.log (.failTask j t r))

/-! ## Rows of a job -/

/-- Status, counter and task rows of a job. -/
def jobView (sh : Shared) (j : String) : Option (JobStatus × Int) × List Task :=
  ((sh.db.jobs.get j).map fun job => (job.status, job.pendingCount), sh.db.tasksOf j)

theorem mem_tasksOf {db : Db} {j : String} {t : Task} :
    t ∈ db.tasksOf j ↔ db.tasks.get t.taskId = some t ∧ t.jobId = j := by
  rw [Db.tasksOf, List.mem_filter, Table.get_eq_some]
  simp

theorem outstanding_pos_iff {db : Db} {j : String} :
    0 < db.outstanding j ↔ ∃ t ∈ db.tasksOf j, t.status = .pending := by
  rw [Db.outstanding, List.countP_pos_iff]
  simp [Db.tasksOf, and_assoc]

/-- The rows of the job are those of the blocks of `text`, its stored manuscript. -/
structure LaidOut (cfg : Settings) (sh : Shared) (j text : String) : Prop where
  stored : sh.getText (rawKey j) = some text
  rows : (sh.db.tasksOf j).map Task.origin = (taskRows j (blocksOf cfg text)).map Task.origin

def Laid (cfg : Settings) (sh : Shared) (j : String) : Prop := ∃ text, LaidOut cfg sh j text

/-- The job exists and its status has climbed to rank `n`. -/
def Past (sh : Shared) (j : String) (n : Nat) : Prop :=
  ∃ job, sh.db.jobs.get j = some job ∧ n ≤ job.status.rank

namespace LaidOut

variable {cfg : Settings} {sh : Shared} {j text : String}

theorem length (h : LaidOut cfg sh j text) :
    (sh.db.tasksOf j).length = (blocksOf cfg text).length := by
  have := congrArg List.length h.rows
  simpa using this

/-- A row of the job is the row of one of the blocks. -/
theorem block (h : LaidOut cfg sh j text) {t : Task} (ht : t ∈ sh.db.tasksOf j) :
    t.taskId = taskIdOf j t.blockIndex ∧
      ∃ block, (blocksOf cfg text)[t.blockIndex]? = some block ∧ t.blockHash = contentHash block := by
  have hm : t.origin ∈ (taskRows j (blocksOf cfg text)).map Task.origin := by
    rw [← h.rows]; exact List.mem_map_of_mem ht
  obtain ⟨t', ht', he⟩ := List.mem_map.mp hm
  obtain ⟨i, block, hb, rfl⟩ := mem_taskRows.mp ht'
  simp only [Task.origin, Prod.mk.injEq] at he
  obtain ⟨h1, _, h3, h4⟩ := he
  subst h3
  exact ⟨h1.symm, block, hb, h4.symm⟩

/-- Every block has its row. -/
theorem row (h : LaidOut cfg sh j text) {i : Nat} (hi : i < (blocksOf cfg text).length) :
    ∃ t ∈ sh.db.tasksOf j, t.blockIndex = i ∧ t.taskId = taskIdOf j i := by
  have hm := List.mem_map_of_mem (f := Task.origin)
    (mem_taskRows.mpr ⟨i, _, List.getElem?_eq_getElem hi, rfl⟩ : _ ∈ taskRows j (blocksOf cfg text))
  rw [← h.rows] at hm
  obtain ⟨t, ht, he⟩ := List.mem_map.mp hm
  simp only [Task.origin, Prod.mk.injEq] at he
  exact ⟨t, ht, he.2.2.1, he.1⟩

end LaidOut

/-! ## The invariant of the stores -/

structure Sound (cfg : Settings) (sh : Shared) : Prop where
  posted : ∀ j m, .posted j m ∈ sh.trace → sh.objects (rawKey j) = some m.toUTF8
  job : ∀ j job, sh.db.jobs.get j = some job →
    job.manuscriptKey = rawKey j ∧ ∃ m, .posted j m ∈ sh.trace
  owner : ∀ t task, sh.db.tasks.get t = some task → (sh.db.jobs.get task.jobId).isSome = true
  /-- before the seeding transaction there are no rows, afterwards there are all of them -/
  laid : ∀ j job, sh.db.jobs.get j = some job →
    (sh.db.tasksOf j = [] ∧ (job.status = .pending ∨ job.status = .failed)) ∨
    (Laid cfg sh j ∧ job.status ≠ .pending)
  done : ∀ t task, sh.db.tasks.get t = some task → task.status = .done →
    task.audioKey = some (ttsKey task.blockHash) ∧
    sh.objects (ttsKey task.blockHash) = some (audioOf task.blockHash)
  cached : ∀ h k, sh.cache h = some k → k = ttsKey h ∧ sh.objects k = some (audioOf h)
  audio : ∀ h b, sh.objects (ttsKey h) = some b → b = audioOf h

/-- What no step undoes. -/
structure Evolves (cfg : Settings) (sh sh' : Shared) : Prop where
  job : ∀ j job, sh.db.jobs.get j = some job → ∃ job', sh'.db.jobs.get j = some job' ∧
    (job'.status = job.status ∨ job.status.canTransition job'.status = true)
  task : ∀ t task, sh.db.tasks.get t = some task → ∃ task', sh'.db.tasks.get t = some task' ∧
    task'.origin = task.origin ∧ (task.status = .done → task' = task) ∧
    (task.status ≠ .pending → task'.status ≠ .pending)
  laid : ∀ j text, LaidOut cfg sh j text → LaidOut cfg sh' j text
  raw : ∀ j b, sh.objects (rawKey j) = some b → sh'.objects (rawKey j) = some b
  audio : ∀ h b, sh.objects (ttsKey h) = some b → sh'.objects (ttsKey h) = some b
  trace : ∃ os, sh'.trace = os ++ sh.trace

section Objects

variable {sh sh' : Shared} {j text : String}

theorem getText_of_raw (h : ∀ b, sh.objects (rawKey j) = some b → sh'.objects (rawKey j) = some b)
    (ht : sh.getText (rawKey j) = some text) : sh'.getText (rawKey j) = some text := by
  rw [Shared.getText, Option.bind_eq_some_iff] at ht ⊢
  obtain ⟨b, hb, hdec⟩ := ht
  exact ⟨b, h b hb, hdec⟩

theorem fromUTF8?_toUTF8 (s : String) : String.fromUTF8? s.toUTF8 = some s := by
  have hv : s.toUTF8.IsValidUTF8 := s.isValidUTF8
  exact dif_pos hv

theorem Sound.getText {cfg : Settings} (h : Sound cfg sh) {m : String}
    (hp : .posted j m ∈ sh.trace) : sh.getText (rawKey j) = some m := by
  rw [Shared.getText, h.posted j m hp]
  exact fromUTF8?_toUTF8 m

@[simp] theorem putObject_self (sh : Shared) (k : String) (b : ByteArray) :
    (sh.putObject k b).objects k = some b := by
  simp [Shared.putObject]

theorem putObject_of_ne (sh : Shared) {k k' : String} (b : ByteArray) (h : k' ≠ k) :
    (sh.putObject k b).objects k' = sh.objects k' := by
  simp [Shared.putObject, h]

end Objects

/-! ## Moves outside Postgres -/

section Stores

variable {cfg : Settings} {sh sh' : Shared}

theorem Stores.db (h : Stores sh sh') : sh'.db = sh.db := by
  cases h <;> rfl

/-- Raw and audio objects are only ever added; an audio object holds the audio of its hash. -/
theorem Stores.raw (h : Stores sh sh') {j : String} {b : ByteArray}
    (hb : sh.objects (rawKey j) = some b) : sh'.objects (rawKey j) = some b := by
  cases h with
  | note os _ => exact hb
  | redis cache inflight _ => exact hb
  | putAudio h => rwa [putObject_of_ne _ _ (rawKey_ne_ttsKey j h)]
  | putFinal j' bytes => rwa [putObject_of_ne _ _ (rawKey_ne_outKey j j')]
  | post j' m hn =>
    have hne : rawKey j ≠ rawKey j' := by
      intro he
      rw [he, hn] at hb
      cases hb
    exact (putObject_of_ne _ _ hne).trans hb

theorem Stores.audio (h : Stores sh sh') (k : String) :
    sh'.objects (ttsKey k) = sh.objects (ttsKey k) ∨ sh'.objects (ttsKey k) = some (audioOf k) := by
  cases h with
  | note os _ => exact .inl rfl
  | redis cache inflight _ => exact .inl rfl
  | putAudio h =>
    by_cases he : k = h
    · subst he; exact .inr (putObject_self _ _ _)
    · exact .inl (putObject_of_ne _ _ (by simpa using he))
  | putFinal j bytes => exact .inl (putObject_of_ne _ _ (ttsKey_ne_outKey k j))
  | post j m _ => exact .inl (putObject_of_ne sh m.toUTF8 (rawKey_ne_ttsKey j k).symm)

theorem Stores.trace (h : Stores sh sh') : ∃ os, sh'.trace = os ++ sh.trace ∧
    ∀ o ∈ os, o.isNote = true ∨ ∃ j m, o = .posted j m ∧ sh'.objects (rawKey j) = some m.toUTF8 := by
  cases h with
  | note os hn => exact ⟨os, rfl, fun o ho => .inl (hn o ho)⟩
  | redis cache inflight _ => exact ⟨[], rfl, by simp⟩
  | putAudio h => exact ⟨[], rfl, by simp⟩
  | putFinal j bytes => exact ⟨[], rfl, by simp⟩
  | post j m _ =>
    refine ⟨[.posted j m], rfl, ?_⟩
    intro o ho
    rw [List.mem_singleton] at ho
    exact .inr ⟨j, m, ho, putObject_self _ _ _⟩

/-- Moves outside Postgres record no call. -/
theorem Stores.countP (h : Stores sh sh') {p : Obs → Bool} (hn : ∀ o, o.isNote = true → p o = false)
    (hp : ∀ j m, p (.posted j m) = false) : sh'.trace.countP p = sh.trace.countP p := by
  obtain ⟨os, ht, hos⟩ := h.trace
  have h0 : os.countP p = 0 := by
    rw [List.countP_eq_zero]
    intro o ho
    rcases hos o ho with hnote | ⟨j, m, rfl, _⟩
    · rw [hn o hnote]; simp
    · rw [hp j m]; simp
  rw [ht, List.countP_append, h0, Nat.zero_add]

/-- An audio object stays. -/
theorem Stores.audio_stays (h : Stores sh sh') (hs : Sound cfg sh) {k : String} {b : ByteArray}
    (hb : sh.objects (ttsKey k) = some b) : sh'.objects (ttsKey k) = some b := by
  rcases h.audio k with he | he
  · rw [he, hb]
  · rw [he, hs.audio k b hb]

theorem Stores.cached (h : Stores sh sh') (hs : Sound cfg sh) {k v : String}
    (hc : sh'.cache k = some v) : v = ttsKey k ∧ sh'.objects v = some (audioOf k) := by
  have keep : sh.cache k = some v → v = ttsKey k ∧ sh'.objects v = some (audioOf k) := by
    intro hc
    obtain ⟨hv, hb⟩ := hs.cached k v hc
    rw [hv] at hb ⊢
    exact ⟨rfl, h.audio_stays hs hb⟩
  cases h with
  | redis cache inflight hn => exact hn k v hc
  | note os hn => exact keep hc
  | putAudio h => exact keep hc
  | putFinal j bytes => exact keep hc
  | post j m _ => exact keep hc

theorem Stores.laidOut (h : Stores sh sh') {j text : String} (hl : LaidOut cfg sh j text) :
    LaidOut cfg sh' j text :=
  ⟨getText_of_raw (fun _ => h.raw) hl.stored, by rw [h.db]; exact hl.rows⟩

theorem Stores.sound (h : Stores sh sh') (hs : Sound cfg sh) : Sound cfg sh' where
  posted := by
    intro j m hm
    obtain ⟨os, ht, hos⟩ := h.trace
    rw [ht, List.mem_append] at hm
    rcases hm with hm | hm
    · rcases hos _ hm with hn | ⟨j', m', he, hb⟩
      · cases hn
      · cases he; exact hb
    · exact h.raw (hs.posted j m hm)
  job := by
    intro j job hj
    rw [h.db] at hj
    obtain ⟨hk, m, hm⟩ := hs.job j job hj
    obtain ⟨os, ht, _⟩ := h.trace
    exact ⟨hk, m, by rw [ht]; simp [hm]⟩
  owner := by rw [h.db]; exact hs.owner
  laid := by
    rw [h.db]
    intro j job hj
    rcases hs.laid j job hj with h0 | ⟨⟨text, hl⟩, hne⟩
    · exact .inl h0
    · exact .inr ⟨⟨text, h.laidOut hl⟩, hne⟩
  done := by
    rw [h.db]
    intro t task ht hd
    obtain ⟨hk, hb⟩ := hs.done t task ht hd
    exact ⟨hk, h.audio_stays hs hb⟩
  cached := fun _ _ => h.cached hs
  audio := by
    intro k b hb
    rcases h.audio k with he | he
    · exact hs.audio k b (by rw [← he]; exact hb)
    · rw [he] at hb
      exact (Option.some.inj hb).symm

theorem Stores.evolves (h : Stores sh sh') (hs : Sound cfg sh) : Evolves cfg sh sh' where
  job := by
    rw [h.db]
    exact fun j job hj => ⟨job, hj, .inl rfl⟩
  task := by
    rw [h.db]
    exact fun t task ht => ⟨task, ht, rfl, fun _ => rfl, fun hp => hp⟩
  laid := fun _ _ hl => h.laidOut hl
  raw := fun _ _ => h.raw
  audio := fun _ _ => h.audio_stays hs
  trace := by
    obtain ⟨os, ht, _⟩ := h.trace
    exact ⟨os, ht⟩

end Stores

end Pipeline
end AudioEngine
