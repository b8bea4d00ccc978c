import ExpenseSettlement.Core.Runtime
import ExpenseSettlement.Lib.Dict

/-!
# The in-memory queue (`messaging/queue.py`)

A `put` that finds the queue full waits for room, and is one step from there on.
-/

namespace ExpenseSettlement

open Lib

structure Message (P : Type) where
  id : String
  eventType : String
  payload : P
  createdAt : ℚ

def maxRetries : Nat := 3

def queueMaxsize : Nat := 10000

structure InMemoryQueue (P : Type) where
  queue : List (Message P)
  dlq : List (Message P)
  retryCounts : Dict String Nat

namespace InMemoryQueue

variable {P : Type}

def init : InMemoryQueue P := ⟨[], [], Dict.empty⟩

/-- `asyncio.Queue.put`, or `none` while there is no room. -/
def put (message : Message P) (Q : InMemoryQueue P) : Option (InMemoryQueue P) :=
  if Q.queue.length < queueMaxsize then some { Q with queue := Q.queue ++ [message] } else none

def newMessage (R : Runtime) (eventType : String) (payload : P) (d : Draws) : Message P :=
  ⟨R.uuid4 d.uuids, eventType, payload, R.time d.times⟩

/-- `publish`, or `none` while there is no room. -/
def publish (R : Runtime) (eventType : String) (payload : P) (d : Draws) (Q : InMemoryQueue P) :
    Option (String × Draws × InMemoryQueue P) :=
  let message := newMessage R eventType payload d
  (Q.put message).map fun Q => (message.id, ⟨d.uuids + 1, d.times + 1⟩, Q)

/-- `consume_one`. An empty queue stays empty until the timeout. -/
def consumeOne (Q : InMemoryQueue P) : Option (Message P) × InMemoryQueue P :=
  match Q.queue with
  | [] => (none, Q)
  | message :: rest => (some message, { Q with queue := rest })

def ack (_messageId : String) (Q : InMemoryQueue P) : InMemoryQueue P := Q

/-- `nack`, with the message that it still has to put when there is no room. -/
def nack (message : Message P) (Q : InMemoryQueue P) : Option (Message P) × InMemoryQueue P :=
  let count := Q.retryCounts.getD message.id 0 + 1
  let Q := { Q with retryCounts := Q.retryCounts.set message.id count }
  if count ≥ maxRetries then
    (none, { Q with dlq := Q.dlq ++ [message] })
  else
    match Q.put message with
    | some Q => (none, Q)
    | none => (some message, Q)

end InMemoryQueue

end ExpenseSettlement
