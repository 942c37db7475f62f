import AudioEngine.Lib.Interleave
import AudioEngine.Pipeline.Handlers
import AudioEngine.Worker.AckLast

/-!
# AudioEngine.Pipeline.System

The whole engine as a pool of agents over the shared stores: message copies in the broker, requests
to `create_job` in the gateway, and passes of `sweep_once`.

A message copy is the agent of its own processing. It is `ready` on a queue, or delivered and
somewhere inside `ack_last` or inside the dead-letter consumer; then it is unacked, and a crash of
the worker puts it back. Several copies are processed at the same time by any number of workers,
and a worker crash is a crash of each copy it held.

The environment posts manuscripts under fresh job ids, starts sweeper passes over jobs that are
`PENDING` (the age cutoff is left open), lets Redis entries expire, and wipes Redis.
-/

namespace AudioEngine
namespace Pipeline

open Relational Interleave

/-- Where `do_work` is. -/
inductive Work where
  | parse (pc : ParsePc)
  | tts (pc : TtsPc)
  | stitch (pc : StitchPc)
deriving DecidableEq

def Work.start : Live → Work
  | .parse => .parse .validate
  | .tts => .tts .validate
  | .stitch => .stitch .validate

def Next.map {P Q : Type} (f : P → Q) : Next P → Next Q
  | .goto sh pc pub => .goto sh (f pc) pub
  | .done sh pub => .done sh pub
  | .raise => .raise

def Work.step (cfg : Settings) (sh : Shared) (e : Event) : Work → Next Work
  | .parse pc => (parseStep cfg sh e pc).map .parse
  | .tts pc => (ttsStep sh e pc).map .tts
  | .stitch pc => (stitchStep sh e pc).map .stitch

def Work.holdsInflight : Work → Option String
  | .tts pc => pc.holdsInflight
  | _ => none

inductive Raised where
  | error (isPoison : Bool)
  | cancelled
deriving DecidableEq, Repr

inductive Stage where
  | ready
  | work (w : Work)
  /-- the `finally` of `_synthesize`, with an exception pending -/
  | unwind (text : String) (exc : Raised)
  /-- the `except` branch of `ack_last`, before the routing publish -/
  | routing (isPoison : Bool)
  | acking
  | dlq (pc : DlqPc)
  | dlqAcking
deriving DecidableEq

structure Copy where
  queue : QueueName
  msg : Message Event
  stage : Stage := .ready
deriving DecidableEq

inductive CreatePc where
  | insert
  | publish
deriving DecidableEq, Repr

inductive Agent where
  | copy (c : Copy)
  | create (jobId : String) (callbackUrl : Option String) (pc : CreatePc)
  | sweep (stale : List String)
deriving DecidableEq

/-- What happens to an agent next: its next step, an exception in place of it, a crash of its
process, a cancellation, or (for a message in a queue) a duplicate delivery. -/
inductive Choice where
  | go
  | fail (isPoison : Bool)
  | crash
  | cancel
  | duplicate
deriving DecidableEq, Repr

def emit (sh : Shared) : Option (Live × Event) → Shared × List Agent
  | none => (sh, [])
  | some (l, e) =>
    (sh.log (.published (.live l) e), [.copy { queue := .live l, msg := publishMessage e }])

/-- Leaving `do_work`: an `Exception` goes to the routing branch; a cancellation leaves the context
manager, which rejects the message without requeue. -/
def Copy.leave (c : Copy) : Raised → List Agent
  | .error isPoison => [.copy { c with stage := .routing isPoison }]
  | .cancelled => []

/-- An exception at the point `w` of `do_work`. -/
def Copy.raiseAt (c : Copy) (w : Work) (exc : Raised) : List Agent :=
  match w.holdsInflight with
  | some text => [.copy { c with stage := .unwind text exc }]
  | none => c.leave exc

/-- The `except` branch of `ack_last`. -/
def Copy.route (cfg : Settings) (c : Copy) (isPoison : Bool) :
    Option (QueueName × Message Event) :=
  match c.queue, cfg.retryDelays with
  | .live l, some ds =>
    (routeRetryOrDlq c.msg l (effectiveMaxRetries cfg isPoison) ds).toOption
  | _, _ => none

def Copy.act (cfg : Settings) (sh : Shared) (c : Copy) (i : Choice) : Option (Shared × List Agent) :=
  match c.stage, i with
  | .ready, .go =>
    match c.queue with
    | .live l => some (sh, [.copy { c with stage := .work (.start l) }])
    | .retry l _ => some (sh, [.copy { c with queue := .live l }])
    | .dlq => some (sh, [.copy { c with stage := .dlq .resolve }])
  | .ready, .duplicate => some (sh, [.copy c, .copy c])
  | .ready, _ => none
  | .work w, .go =>
    match w.step cfg sh c.msg.body with
    | .goto sh' w' pub =>
      some ((emit sh' pub).1, .copy { c with stage := .work w' } :: (emit sh' pub).2)
    | .done sh' pub => some ((emit sh' pub).1, .copy { c with stage := .acking } :: (emit sh' pub).2)
    | .raise => some (sh, c.raiseAt w (.error false))
  | .work w, .fail isPoison => some (sh, c.raiseAt w (.error isPoison))
  | .work w, .cancel => some (sh, c.raiseAt w .cancelled)
  | .unwind text exc, .go =>
    some ({ sh with inflight := Function.update sh.inflight (contentHash text) none }, c.leave exc)
  | .unwind _ _, .fail isPoison => some (sh, c.leave (.error isPoison))
  | .unwind _ _, .cancel => some (sh, [])
  | .routing isPoison, .go =>
    match c.route cfg isPoison with
    | none => some (sh, [])
    | some (q, m) =>
      some (sh.log (.published q m.body),
        [.copy { c with stage := .acking }, .copy { queue := q, msg := m }])
  | .routing _, .fail _ => some (sh, [])
  | .routing _, .cancel => some (sh, [])
  -- an ack that fails or is cancelled is followed by the reject: the copy is gone either way
  | .acking, .go => some (sh, [])
  | .acking, .fail _ => some (sh, [])
  | .acking, .cancel => some (sh, [])
  | .dlq pc, .go =>
    match dlqStep sh c.msg.body pc with
    | .goto sh' pc' pub =>
      some ((emit sh' pub).1, .copy { c with stage := .dlq pc' } :: (emit sh' pub).2)
    | .done sh' pub =>
      some ((emit sh' pub).1, .copy { c with stage := .dlqAcking } :: (emit sh' pub).2)
    | .raise => some (sh, [.copy { c with stage := .ready }])
  | .dlqAcking, .go => some (sh, [])
  -- `nack(requeue=True)`, or a lost connection: the message is redelivered
  | .dlq _, .fail _ => some (sh, [.copy { c with stage := .ready }])
  | .dlq _, .cancel => some (sh, [.copy { c with stage := .ready }])
  | .dlqAcking, .fail _ => some (sh, [.copy { c with stage := .ready }])
  | .dlqAcking, .cancel => some (sh, [.copy { c with stage := .ready }])
  | _, .crash => some (sh, [.copy { c with stage := .ready }])
  | _, .duplicate => none

/-- `create_job` after its `put_text`: the insert and the publish. -/
def createAct (sh : Shared) (jobId : String) (callbackUrl : Option String) :
    CreatePc → Option (Shared × List Agent)
  | .insert =>
    match sh.db.jobs.insert? { jobId := jobId, manuscriptKey := rawKey jobId, callbackUrl := callbackUrl } with
    | none => some (sh, [])
    | some jobs =>
      some ({ sh with db := { sh.db with jobs := jobs } }, [.create jobId callbackUrl .publish])
  | .publish => some (emit sh (some (.parse, .jobCreated jobId)))

/-- `sweep_once` after its `SELECT`: one publish per stale job. -/
def sweepAct (sh : Shared) : List String → Option (Shared × List Agent)
  | [] => some (sh, [])
  | j :: rest =>
    let r := emit sh (some (.parse, .jobCreated j))
    some (r.1, .sweep rest :: r.2)

def act (cfg : Settings) (sh : Shared) (a : Agent) (i : Choice) : Option (Shared × List Agent) :=
  match a, i with
  | .copy c, i => c.act cfg sh i
  | .create j cb pc, .go => createAct sh j cb pc
  | .sweep stale, .go => sweepAct sh stale
  | .create _ _ _, _ => some (sh, [])
  | .sweep _, _ => some (sh, [])

/-! ## The environment -/

inductive Env where
  | post (jobId manuscript : String) (callbackUrl : Option String)
  | startSweep (stale : List String)
  | expireCache (h : String)
  | expireInflight (h : String)
  | wipeRedis
deriving DecidableEq, Repr

def env (sh : Shared) : Env → Option (Shared × List Agent)
  | .post j manuscript cb =>
    -- `uuid4` is fresh: no request used this id before
    if sh.objects (rawKey j) = none then
      some ((sh.putObject (rawKey j) manuscript.toUTF8).log (.posted j manuscript),
        [.create j cb .insert])
    else none
  | .startSweep stale =>
    if stale.all fun j => decide (sh.db.status j = some .pending) then some (sh, [.sweep stale])
    else none
  | .expireCache h => some ({ sh with cache := Function.update sh.cache h none }, [])
  | .expireInflight h => some ({ sh with inflight := Function.update sh.inflight h none }, [])
  | .wipeRedis => some ({ sh with cache := fun _ => none, inflight := fun _ => none }, [])

abbrev State := Pool Shared Agent

def system (cfg : Settings) : System Shared Agent Choice Env where
  init := ⟨{}, []⟩
  act := act cfg
  env := env

end Pipeline
end AudioEngine
