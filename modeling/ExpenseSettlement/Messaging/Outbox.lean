import ExpenseSettlement.Core.Runtime

/-!
# The outbox (`messaging/outbox.py`, `messaging/events.py`)

The pending queue holds the same event objects as the history, so it is a list of positions in it.
-/

namespace ExpenseSettlement

inductive EventType
  | expenseCreated
  | settlementRequested
  | ledgerPosted
  | settlementCompleted
  | settlementFailed
deriving DecidableEq, Repr

def EventType.value : EventType → String
  | .expenseCreated => "EXPENSE_CREATED"
  | .settlementRequested => "SETTLEMENT_REQUESTED"
  | .ledgerPosted => "LEDGER_POSTED"
  | .settlementCompleted => "SETTLEMENT_COMPLETED"
  | .settlementFailed => "SETTLEMENT_FAILED"

structure OutboxEvent (P : Type) where
  id : String
  eventType : String
  aggregateId : String
  payload : P
  isPublished : Bool
  createdAt : ℚ

structure InMemoryOutbox (P : Type) where
  events : List (OutboxEvent P)
  pending : List Nat

namespace InMemoryOutbox

variable {P : Type}

def init : InMemoryOutbox P := ⟨[], []⟩

/-- `append`. Putting into the unbounded pending queue never waits, so nothing comes in between. -/
def append (R : Runtime) (eventType aggregateId : String) (payload : P) (d : Draws)
    (o : InMemoryOutbox P) : String × Draws × InMemoryOutbox P :=
  let eventId := R.uuid4 d.uuids
  let event : OutboxEvent P :=
    { id := eventId, eventType, aggregateId, payload, isPublished := false, createdAt := R.time d.times }
  (eventId, ⟨d.uuids + 1, d.times + 1⟩,
    { events := o.events ++ [event], pending := o.pending ++ [o.events.length] })

end InMemoryOutbox

end ExpenseSettlement
