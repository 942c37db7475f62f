import Mathlib.Data.List.Sort
import AudioEngine.Domain.Events
import AudioEngine.Infra.Broker
import AudioEngine.Infra.Queries

/-!
# AudioEngine.Pipeline.Handlers

The four message handlers of the worker, one atomic step at a time: `handle_parse`, `handle_tts`
(with `_load_block_text` and `_synthesize`), `handle_stitch` and `handle_dlq`.

A program counter holds the local variables that are still live. One step is one SQL statement of a
read, one transaction, one Redis command, one object-store call or one publish, so that every point
at which another worker can interleave, an exception can be raised or the worker can crash lies
between two steps. The state shared by all workers is Postgres, MinIO and the part of Redis that
`handle_tts` uses. `trace` records what the transactions and publishes returned; no step reads it.

The token pool of the semaphore does not influence the data, so entering and leaving `slot()` are
steps without effect here.
-/

namespace AudioEngine
namespace Pipeline

open Relational

/-- What a run leaves behind besides the stores. -/
inductive Obs where
  | posted (jobId manuscript : String)
  | beginParse (jobId : String) (nBlocks : Nat) (won : Bool)
  | advanceStatus (jobId : String) (toStatus : JobStatus) (won : Bool)
  | finalizeJob (jobId : String) (won : Bool)
  | completeTask (jobId taskId : String) (remaining : Option Int)
  | failTask (jobId taskId : String) (remaining : Option Int)
  | published (q : QueueName) (e : Event)
  | parsed (jobId : String)
  | notify (jobId : String)
deriving DecidableEq, Repr

structure Shared where
  db : Db := .empty
  objects : String → Option ByteArray := fun _ => none
  cache : String → Option String := fun _ => none
  inflight : String → Option String := fun _ => none
  trace : List Obs := []

namespace Shared

def log (sh : Shared) (o : Obs) : Shared := { sh with trace := o :: sh.trace }

def putObject (sh : Shared) (key : String) (bytes : ByteArray) : Shared :=
  { sh with objects := Function.update sh.objects key (some bytes) }

/-- `storage.get_text`: a missing object and bytes that are not UTF-8 both raise. -/
def getText (sh : Shared) (key : String) : Option String := (sh.objects key).bind String.fromUTF8?

end Shared

/-- Outcome of one step of a handler: go on, return, or raise with nothing done. A step publishes
at most one event. -/
inductive Next (P : Type) where
  | goto (sh : Shared) (pc : P) (pub : Option (Live × Event))
  | done (sh : Shared) (pub : Option (Live × Event))
  | raise

/-! ## `handle_parse` -/

inductive ParsePc where
  | validate
  | loadJob
  | loadText (manuscriptKey : String)
  | simulate (text : String)
  | seed (blocks : List String)
  | advance (n : Nat)
  | publishStitch
  | publishTts (n i : Nat)
deriving DecidableEq, Repr

def parseStep (cfg : Settings) (sh : Shared) (e : Event) : ParsePc → Next ParsePc
  | .validate => if validatesWithoutTask e.body then .goto sh .loadJob none else .raise
  | .loadJob =>
    match sh.db.jobs.get e.jobId with
    | none => .raise
    | some job => .goto sh (.loadText job.manuscriptKey) none
  | .loadText key =>
    match sh.getText key with
    | none => .raise
    | some text => .goto sh (.simulate text) none
  | .simulate text =>
    -- the transient failure of the vendor is an exception of the environment
    match simulateParse text false with
    | .error _ => .raise
    | .ok blocks => .goto sh (.seed (capBlocks cfg blocks)) none
  | .seed blocks =>
    match executeSeed sh.db e.jobId blocks with
    | .error _ => .raise
    | .ok (db, won) =>
      .goto ({ sh with db := db }.log (.beginParse e.jobId blocks.length won))
        (.advance blocks.length) none
  | .advance n =>
    let r := advanceStatus sh.db e.jobId .generating
    .goto ({ sh with db := r.1 }.log (.advanceStatus e.jobId .generating r.2))
      (if n = 0 then .publishStitch else .publishTts n 0) none
  | .publishStitch => .done (sh.log (.parsed e.jobId)) (some (.stitch, .stitchReady e.jobId))
  | .publishTts n i =>
    let pub := some (Live.tts, Event.ttsRequested e.jobId (taskIdOf e.jobId i))
    if i + 1 < n then .goto sh (.publishTts n (i + 1)) pub
    else .done (sh.log (.parsed e.jobId)) pub

/-! ## `handle_tts` -/

inductive TtsPc where
  | validate
  | loadTask
  | loadJob (blockIndex : Nat)
  | loadText (blockIndex : Nat) (manuscriptKey : String)
  | cacheGet (text : String)
  | acquireInflight (text : String)
  | enterSlot (text : String)
  | putAudio (text : String)
  | leaveSlot (text : String)
  | cacheSet (text : String)
  | releaseInflight (text : String)
  | waitForCache (text : String) (attempts : Nat)
  | complete (audioKey : String)
  | reread
  | publish
deriving DecidableEq, Repr

/-- The budget of `wait_for_cache`. -/
def waitAttempts : Nat := 100

def ttsStep (sh : Shared) (e : Event) : TtsPc → Next TtsPc
  | .validate => if validatesWithTask e.body then .goto sh .loadTask none else .raise
  | .loadTask =>
    match sh.db.tasks.get e.taskId with
    | none => .raise
    | some task => .goto sh (.loadJob task.blockIndex) none
  | .loadJob i =>
    match sh.db.jobs.get e.jobId with
    | none => .raise
    | some job => .goto sh (.loadText i job.manuscriptKey) none
  | .loadText i key =>
    match sh.getText key with
    | none => .raise
    | some text =>
      match (splitBlocks text)[i]? with
      | none => .raise
      | some block => .goto sh (.cacheGet block) none
  | .cacheGet text =>
    match sh.cache (contentHash text) with
    | some cached => .goto sh (.complete cached) none
    | none => .goto sh (.acquireInflight text) none
  | .acquireInflight text =>
    match sh.inflight (contentHash text) with
    | some _ => .goto sh (.waitForCache text waitAttempts) none
    | none =>
      .goto { sh with inflight := Function.update sh.inflight (contentHash text) (some e.taskId) }
        (.enterSlot text) none
  | .enterSlot text => .goto sh (.putAudio text) none
  | .putAudio text =>
    .goto (sh.putObject (ttsKey (contentHash text)) (ttsFakeAudio text)) (.leaveSlot text) none
  | .leaveSlot text => .goto sh (.cacheSet text) none
  | .cacheSet text =>
    .goto { sh with cache := Function.update sh.cache (contentHash text)
                      (some (ttsKey (contentHash text))) } (.releaseInflight text) none
  | .releaseInflight text =>
    .goto { sh with inflight := Function.update sh.inflight (contentHash text) none }
      (.complete (ttsKey (contentHash text))) none
  | .waitForCache text attempts =>
    match attempts with
    | 0 => .raise
    | n + 1 =>
      match sh.cache (contentHash text) with
      | some url => .goto sh (.complete url) none
      | none => .goto sh (.waitForCache text n) none
  | .complete audioKey =>
    match completeTaskAndDecrement sh.db e.jobId e.taskId audioKey with
    | .error _ => .raise
    | .ok (db, remaining) =>
      let sh' := { sh with db := db }.log (.completeTask e.jobId e.taskId remaining)
      match remaining with
      | none => .goto sh' .reread none
      | some r => if r = 0 then .goto sh' .publish none else .done sh' none
  | .reread =>
    match sh.db.jobs.get e.jobId with
    | none => .done sh none
    | some job => if job.pendingCount = 0 then .goto sh .publish none else .done sh none
  | .publish => .done sh (some (.stitch, .stitchReady e.jobId))

/-- Inside the `try` of `_synthesize`, whose `finally` drops the in-flight lock. -/
def TtsPc.holdsInflight : TtsPc → Option String
  | .enterSlot text | .putAudio text | .leaveSlot text | .cacheSet text => some text
  | _ => none

/-! ## `handle_stitch` -/

-- one of the two instances of the libraries, fixed for the whole development
instance decidableEqBytes : DecidableEq ByteArray := ByteArray.instDecidableEq

inductive StitchPc where
  | validate
  | loadJob
  | loadChunks
  | advance (chunkKeys : List String)
  | getParts (chunkKeys : List String) (parts : List ByteArray)
  | putFinal (parts : List ByteArray)
  | finalize
  | notify
deriving DecidableEq

/-- `SELECT … WHERE job_id = … AND status = 'DONE' ORDER BY block_index`. -/
def doneTasks (db : Db) (j : String) : List Task :=
  ((db.tasksOf j).filter fun t => t.status = .done).insertionSort fun a b =>
    a.blockIndex ≤ b.blockIndex

def chunkKeys (db : Db) (j : String) : List String := (doneTasks db j).filterMap Task.audioKey

/-- `b"".join(parts)`. -/
def joinBytes (parts : List ByteArray) : ByteArray := parts.foldr (· ++ ·) ByteArray.empty

/-- The bytes of the parts, one part after the other. -/
theorem joinBytes_toList (parts : List ByteArray) :
    (joinBytes parts).data.toList = parts.flatMap fun part => part.data.toList := by
  induction parts with
  | nil => rfl
  | cons part parts ih =>
    have hcons : joinBytes (part :: parts) = part ++ joinBytes parts := rfl
    rw [hcons, ByteArray.toList_data_append, ih, List.flatMap_cons]

def stitchStep (sh : Shared) (e : Event) : StitchPc → Next StitchPc
  | .validate => if validatesWithoutTask e.body then .goto sh .loadJob none else .raise
  | .loadJob =>
    match sh.db.jobs.get e.jobId with
    | none => .raise
    | some job => if job.status = .completed then .done sh none else .goto sh .loadChunks none
  | .loadChunks => .goto sh (.advance (chunkKeys sh.db e.jobId)) none
  | .advance keys =>
    let r := advanceStatus sh.db e.jobId .stitching
    .goto ({ sh with db := r.1 }.log (.advanceStatus e.jobId .stitching r.2)) (.getParts keys []) none
  | .getParts [] parts => .goto sh (.putFinal parts) none
  | .getParts (key :: keys) parts =>
    match sh.objects key with
    | none => .raise
    | some bytes => .goto sh (.getParts keys (parts ++ [bytes])) none
  | .putFinal parts => .goto (sh.putObject (outKey e.jobId) (joinBytes parts)) .finalize none
  | .finalize =>
    let r := finalizeJob sh.db e.jobId (outKey e.jobId)
    let sh' := { sh with db := r.1 }.log (.finalizeJob e.jobId r.2)
    if r.2 then .goto sh' .notify none else .done sh' none
  | .notify => .done (sh.log (.notify e.jobId)) none

/-! ## `handle_dlq` -/

inductive DlqPc where
  | resolve
  | failTask
  | publish
  | advanceFailed
deriving DecidableEq, Repr

def dlqStep (sh : Shared) (e : Event) : DlqPc → Next DlqPc
  | .resolve =>
    match e.body.taskId with
    | some _ => .goto sh .failTask none
    | none => .goto sh .advanceFailed none
  | .failTask =>
    match failTaskAndDecrement sh.db e.jobId e.taskId with
    | .error _ => .raise
    | .ok (db, remaining) =>
      let sh' := { sh with db := db }.log (.failTask e.jobId e.taskId remaining)
      if remaining = some 0 then .goto sh' .publish none else .done sh' none
  | .publish => .done sh (some (.stitch, .stitchReady e.jobId))
  | .advanceFailed =>
    let r := advanceStatus sh.db e.jobId .failed
    .done ({ sh with db := r.1 }.log (.advanceStatus e.jobId .failed r.2)) none

end Pipeline
end AudioEngine
