import Mathlib.Algebra.Order.Field.Rat
import ExpenseSettlement.Core.Occ

/-!
# The retry wrapper (`occ_retry` in `core/occ.py`)

One call of a decorated function. How its attempts end and what `random.random()` gives are up to the
environment. Delays are exact rationals, in seconds.
-/

namespace ExpenseSettlement

/-- How an attempt of the decorated function ends. -/
inductive OccAttempt (α ε : Type)
  | returned (result : α)
  | conflict (exc : OptimisticLockConflictError)
  | raised (error : ε)

/-- How the wrapper ends. -/
inductive OccOutcome (α ε : Type)
  | returned (result : α)
  | exhausted (error : MaxRetriesExceededError)
  | raised (error : ε)

/-- `_compute_backoff`, with the value that `random.random()` gives. -/
def computeBackoff (attempt : Nat) (baseMs maxMs : ℤ) (jitter random : ℚ) : ℚ :=
  let rawMs : ℤ := min (baseMs * 2 ^ attempt) maxMs
  let jitterMs := rawMs * jitter * (2 * random - 1)
  max 0 (rawMs + jitterMs) / 1000

/-- The arguments of the decorator. -/
structure OccRetry where
  maxRetries : Nat
  baseBackoffMs : ℤ
  maxBackoffMs : ℤ
  jitterFraction : ℚ

namespace OccRetry

/-- `OCC_MAX_RETRIES`, `OCC_BASE_BACKOFF_MS`, `OCC_MAX_BACKOFF_MS` and `OCC_JITTER_FRACTION` -/
def default : OccRetry := ⟨5, 25, 2000, 1 / 4⟩

variable {α ε : Type} (c : OccRetry) (call : Nat → OccAttempt α ε) (random : Nat → ℚ)

def delay (attempt : Nat) : ℚ :=
  computeBackoff attempt c.baseBackoffMs c.maxBackoffMs c.jitterFraction (random attempt)

/-- The loop from `attempt` on, with the retries that are left, and the delays it sleeps. -/
def attempts : Nat → Nat → OccOutcome α ε × List ℚ
  | left, attempt =>
      match call attempt with
      | .returned result => (.returned result, [])
      | .raised error => (.raised error, [])
      | .conflict exc =>
          match left with
          | 0 => (.exhausted ⟨s!"OCC failed after {c.maxRetries} retries: {exc.message}"⟩, [])
          | left + 1 =>
              let (outcome, delays) := attempts left (attempt + 1)
              (outcome, c.delay random attempt :: delays)

def wrapper : OccOutcome α ε × List ℚ := c.attempts call random c.maxRetries 0

end OccRetry

end ExpenseSettlement
