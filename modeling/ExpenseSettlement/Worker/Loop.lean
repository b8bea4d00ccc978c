import ExpenseSettlement.Core.Lemmas.Returns
import ExpenseSettlement.Messaging.Queue
import ExpenseSettlement.System.Operations

/-!
# The worker's loop (`SettlementWorker._run_loop`)

Any call that the settlement handler makes to the store, the cache or the outbox may raise. It has no
effect then, and what the handler did before it stays done. Between the consumption of a message and
the end of its iteration, messages are published and the rest of the process goes on.
-/

namespace ExpenseSettlement

/-- `payload.get("group_id", "")` -/
def EventPayload.groupId : EventPayload → String
  | .expenseCreated _ groupId _ _ _ _ _ => groupId
  | .settlementRequested groupId _ _ => groupId
  | .settlementCompleted groupId _ _ _ _ _ => groupId

/-- The handler of a request for the group makes the call that fails, or it takes the checksum of a plan
that has none. -/
def Raises (R : Runtime) (fails : Option HandlerCall) (groupId : String) (w : World) : Prop :=
  groupId ≠ "" ∧ (fails = some .getExpensesForGroup ∨ w.store.getExpensesForGroup groupId ≠ [] ∧
    (fails ≠ none ∨ ¬ Checksummable R (getGroupNetBalances groupId w)))

/-! ## The loop -/

structure LoopState where
  world : World
  queue : InMemoryQueue EventPayload
  /-- The message of the iteration that is under way. -/
  current : Option (Message EventPayload)
  processed : Nat
  failed : Nat
  /-- The messages whose iterations are over, and whether they were handled to completion. -/
  ended : List (Message EventPayload × Bool)

inductive LoopEvent
  | publish (eventType : String) (payload : EventPayload)
  | other (op : Operation)
  | consume
  | handle (fails : Option HandlerCall)

namespace LoopState

def start (w : World) : LoopState := ⟨w, .init, none, 0, 0, []⟩

/-- What the loop does with a message. Expense events are only logged. -/
def dispatch (R : Runtime) (fails : Option HandlerCall) (msg : Message EventPayload) (w : World) :
    Except HandlerError Unit × World :=
  if msg.eventType = EventType.settlementRequested.value then
    handleSettlementFailing R fails msg.payload.groupId w
  else
    (.ok (), w)

def step (R : Runtime) (s : LoopState) : LoopEvent → LoopState
  | .publish eventType payload =>
      match s.queue.publish R eventType payload s.world.draws with
      | none => s
      | some (_, draws, queue) => { s with world := { s.world with draws }, queue }
  | .other op => { s with world := s.world.step R op }
  | .consume =>
      match s.current with
      | some _ => s
      | none =>
          let (current, queue) := s.queue.consumeOne
          { s with current, queue }
  | .handle fails =>
      match s.current with
      | none => s
      | some msg =>
          match dispatch R fails msg s.world with
          | (.ok (), world) =>
              { s with world, current := none, processed := s.processed + 1, ended := s.ended ++ [(msg, true)] }
          | (.error _, world) =>
              -- the error is logged, and the loop goes on to the next message
              { s with world, current := none, failed := s.failed + 1, ended := s.ended ++ [(msg, false)] }

def failures (msg : Message EventPayload) (s : LoopState) : Nat :=
  (s.ended.filter fun p => p.1.id = msg.id ∧ p.2 = false).length

/-- A message whose iteration is over was handled, waits again, or is in the dead-letter list, which
it only reaches after enough failures. -/
structure NoneLost (s : LoopState) : Prop where
  kept : ∀ msg handled, (msg, handled) ∈ s.ended →
    (msg, true) ∈ s.ended ∨ msg ∈ s.queue.queue ∨ msg ∈ s.queue.dlq
  retried : ∀ msg ∈ s.queue.dlq, maxRetries ≤ s.failures msg

/-- The iteration under way meets a call that fails. -/
def CallFails (R : Runtime) (s : LoopState) (event : LoopEvent) : Prop :=
  ∃ msg fails, s.current = some msg ∧ event = .handle fails ∧
    msg.eventType = EventType.settlementRequested.value ∧ Raises R fails msg.payload.groupId s.world

end LoopState

end ExpenseSettlement
