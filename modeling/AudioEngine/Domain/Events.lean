import Mathlib.Data.List.Basic

/-!
# AudioEngine.Domain.Events

The broker events of `core/domain/events.py`, without the `event_id` that no handler reads.

On the wire an event is a JSON object. `JobCreated` and `StitchReady` have the same fields, so a
consumer that looks at the fields alone, as the dead-letter resolver does, cannot tell them apart.
-/

namespace AudioEngine

inductive Event where
  | jobCreated (jobId : String)
  | ttsRequested (jobId taskId : String)
  | stitchReady (jobId : String)
deriving DecidableEq, Repr

/-- The fields of an event on the wire. -/
structure Body where
  jobId : String
  taskId : Option String
deriving DecidableEq, Repr

namespace Event

def body : Event → Body
  | jobCreated j => ⟨j, none⟩
  | ttsRequested j t => ⟨j, some t⟩
  | stitchReady j => ⟨j, none⟩

def jobId (e : Event) : String := e.body.jobId

/-- The task of a `TtsRequested`; empty for the other events. -/
def taskId (e : Event) : String := e.body.taskId.getD ""

@[simp] theorem jobId_jobCreated (j : String) : (jobCreated j).jobId = j := rfl
@[simp] theorem jobId_ttsRequested (j t : String) : (ttsRequested j t).jobId = j := rfl
@[simp] theorem jobId_stitchReady (j : String) : (stitchReady j).jobId = j := rfl
@[simp] theorem taskId_ttsRequested (j t : String) : (ttsRequested j t).taskId = t := rfl

end Event

/-- `JobCreated.model_validate_json` and `StitchReady.model_validate_json`: extra fields are
forbidden. -/
def validatesWithoutTask (b : Body) : Bool := b.taskId.isNone

/-- `TtsRequested.model_validate_json`. -/
def validatesWithTask (b : Body) : Bool := b.taskId.isSome

end AudioEngine
