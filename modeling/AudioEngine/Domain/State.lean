import Mathlib.Data.List.Basic

/-!
# AudioEngine.Domain.State

The job state machine of `core/domain/state.py`: the table `LEGAL`, the predicate
`can_transition` and the compare-and-set guard `expected_for` derived from it.

The table has no cycle: `rank` grows along every legal transition, so a status is entered at most
once along any path of the table.
-/

namespace AudioEngine

inductive JobStatus where
  | pending
  | parsing
  | generating
  | stitching
  | completed
  | failed
deriving DecidableEq, Repr

namespace JobStatus

/-- The keys of `LEGAL`, in order. -/
def all : List JobStatus := [pending, parsing, generating, stitching, completed, failed]

/-- `LEGAL`. -/
def legal : JobStatus → List JobStatus
  | pending => [parsing, failed]
  | parsing => [generating, failed]
  | generating => [stitching, failed]
  | stitching => [completed, failed]
  | completed => []
  | failed => []

/-- `can_transition(current, next_status)`. -/
def canTransition (current next : JobStatus) : Bool := decide (next ∈ legal current)

/-- `expected_for(next_status)`: the statuses from which `next` is one legal transition away. -/
def expectedFor (next : JobStatus) : List JobStatus := all.filter fun c => canTransition c next

/-- `COMPLETED` and `FAILED`. -/
def terminal : JobStatus → Bool
  | completed => true
  | failed => true
  | _ => false

def rank : JobStatus → Nat
  | pending => 0
  | parsing => 1
  | generating => 2
  | stitching => 3
  | completed => 4
  | failed => 4

theorem mem_all (c : JobStatus) : c ∈ all := by cases c <;> decide

theorem mem_expectedFor {c next : JobStatus} :
    c ∈ expectedFor next ↔ canTransition c next = true := by
  simp [expectedFor, mem_all]

theorem rank_lt {c next : JobStatus} (h : canTransition c next = true) : c.rank < next.rank := by
  cases c <;> cases next <;> first | decide | cases h

theorem rank_le {c next : JobStatus} (h : next = c ∨ canTransition c next = true) :
    c.rank ≤ next.rank := by
  rcases h with rfl | h
  · exact Nat.le_refl _
  · exact Nat.le_of_lt (rank_lt h)

theorem terminal_iff {c : JobStatus} : c.terminal = true ↔ ∀ next, canTransition c next = false := by
  constructor
  · intro h next
    cases c <;> cases next <;> first | rfl | cases h
  · intro h
    have := h failed
    cases c <;> first | rfl | cases this

theorem canTransition_parsing {c : JobStatus} : canTransition c parsing = true ↔ c = pending := by
  cases c <;> decide

theorem canTransition_generating {c : JobStatus} :
    canTransition c generating = true ↔ c = parsing := by
  cases c <;> decide

theorem canTransition_stitching {c : JobStatus} :
    canTransition c stitching = true ↔ c = generating := by
  cases c <;> decide

theorem canTransition_completed {c : JobStatus} :
    canTransition c completed = true ↔ c = stitching := by
  cases c <;> decide

theorem canTransition_failed {c : JobStatus} :
    canTransition c failed = true ↔ c.terminal = false := by
  cases c <;> decide

theorem canTransition_pending (c : JobStatus) : canTransition c pending = false := by
  cases c <;> decide

end JobStatus
end AudioEngine
