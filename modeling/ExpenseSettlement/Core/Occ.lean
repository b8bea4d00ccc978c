import Mathlib.Logic.Function.Basic
import ExpenseSettlement.Core.Runtime
import ExpenseSettlement.Lib.Dict

/-!
# Optimistic concurrency control (`core/occ.py`)

A lock is only held between two suspensions, so each method of an entity or of the store is one step.
The length of a backoff plays no role here.
-/

namespace ExpenseSettlement

open Lib

structure OptimisticLockConflictError where
  entity : String
  entityId : String
  expectedVersion : Nat
deriving DecidableEq

def OptimisticLockConflictError.message (e : OptimisticLockConflictError) : String :=
  s!"OCC conflict on {e.entity}[{e.entityId}]: " ++
    s!"version {e.expectedVersion} was already modified by a concurrent writer."

structure MaxRetriesExceededError where
  message : String
deriving DecidableEq

/-! ## Entities -/

structure OCCVersionedEntity (α : Type) where
  entityId : String
  version : Nat
  value : α
deriving DecidableEq

namespace OCCVersionedEntity

variable {α : Type}

def new (entityId : String) (initialValue : α) : OCCVersionedEntity α := ⟨entityId, 0, initialValue⟩

def read (e : OCCVersionedEntity α) : α × Nat := (e.value, e.version)

def compareAndSwap (expectedVersion : Nat) (newValue : α) (e : OCCVersionedEntity α) :
    Except OptimisticLockConflictError Nat × OCCVersionedEntity α :=
  if e.version ≠ expectedVersion then
    (.error ⟨"OCCVersionedEntity", e.entityId, expectedVersion⟩, e)
  else
    let e := { e with value := newValue, version := e.version + 1 }
    (.ok e.version, e)

end OCCVersionedEntity

structure OCCBalanceStore where
  entities : Dict String (OCCVersionedEntity ℤ)
deriving DecidableEq

namespace OCCBalanceStore

def init : OCCBalanceStore := ⟨Dict.empty⟩

def getOrCreate (userId : String) (initialCents : ℤ) (S : OCCBalanceStore) :
    OCCVersionedEntity ℤ × OCCBalanceStore :=
  match S.entities.get? userId with
  | some entity => (entity, S)
  | none =>
      let entity := OCCVersionedEntity.new userId initialCents
      (entity, ⟨S.entities.set userId entity⟩)

/-- A write to an entity that the store holds is seen through the store. -/
def replace (userId : String) (entity : OCCVersionedEntity ℤ) (S : OCCBalanceStore) : OCCBalanceStore :=
  ⟨S.entities.set userId entity⟩

end OCCBalanceStore

/-! ## Tasks under `occ_retry` -/

/-- What a body does with the value and the version it has read. -/
inductive OccBody
  | compareAndSwap
  | applyDelta

structure OccTask where
  deltaCents : ℤ
  maxRetries : Nat
  body : OccBody

/-- Where a task is suspended, or how it has ended. -/
inductive OccPhase
  | ready (attempt : Nat)
  | snapshot (attempt : Nat) (value : ℤ) (version : Nat)
  | located (attempt : Nat) (version : Nat)
  | reread (attempt : Nat) (version : Nat) (currentVal : ℤ)
  | backoff (attempt : Nat)
  | returned (newVersion : Nat)
  | raised (error : MaxRetriesExceededError)
deriving DecidableEq

/-- The `except` branch of the wrapper. -/
def OccPhase.afterConflict (maxRetries attempt : Nat) (exc : OptimisticLockConflictError) : OccPhase :=
  if attempt = maxRetries then
    .raised ⟨s!"OCC failed after {maxRetries} retries: {exc.message}"⟩
  else
    .backoff attempt

structure OccState (ι : Type) where
  store : OCCBalanceStore
  phase : ι → OccPhase
  /-- The tasks whose swaps have succeeded, one by one. -/
  swapped : List ι
  /-- How often each task's body has been started. -/
  runs : ι → Nat

namespace OccState

variable {ι : Type} [DecidableEq ι]

def start (store : OCCBalanceStore) : OccState ι := ⟨store, fun _ => .ready 0, [], fun _ => 0⟩

def goto (i : ι) (phase : OccPhase) (s : OccState ι) : OccState ι :=
  { s with phase := Function.update s.phase i phase }

/-- `entity.compare_and_swap`, and what becomes of the task. -/
def swap (userId : String) (t : OccTask) (i : ι) (attempt expectedVersion : Nat) (newValue : ℤ)
    (entity : OCCVersionedEntity ℤ) (s : OccState ι) : OccState ι :=
  match entity.compareAndSwap expectedVersion newValue with
  | (.error exc, _) => s.goto i (.afterConflict t.maxRetries attempt exc)
  | (.ok newVersion, entity) =>
      { s.goto i (.returned newVersion) with
        store := s.store.replace userId entity
        swapped := s.swapped ++ [i] }

/-- Task `i` runs to its next suspension. The entity that the tasks hold is the one in the store. -/
def step (userId : String) (task : ι → OccTask) (s : OccState ι) (i : ι) : OccState ι :=
  let t := task i
  match s.phase i, s.store.entities.get? userId with
  | .ready attempt, some entity =>
      let (value, version) := entity.read
      { s.goto i (.snapshot attempt value version) with
        runs := Function.update s.runs i (s.runs i + 1) }
  | .snapshot attempt value version, some entity =>
      match t.body with
      | .compareAndSwap => s.swap userId t i attempt version (value + t.deltaCents) entity
      | .applyDelta =>
          let (_, store) := s.store.getOrCreate userId 0
          { s.goto i (.located attempt version) with store }
  | .located attempt version, some entity =>
      let (currentVal, _) := entity.read
      s.goto i (.reread attempt version currentVal)
  | .reread attempt version currentVal, some entity =>
      s.swap userId t i attempt version (currentVal + t.deltaCents) entity
  | .backoff attempt, _ => s.goto i (.ready (attempt + 1))
  | .returned _, _ | .raised _, _ => s
  | _, none => s

end OccState

end ExpenseSettlement
