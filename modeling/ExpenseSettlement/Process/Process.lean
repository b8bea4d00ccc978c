import ExpenseSettlement.Api.Groups
import ExpenseSettlement.Messaging.Pipeline
import ExpenseSettlement.Worker.Loop

/-!
# The process (`api/main.py`)

One process runs the routes, the relay daemon and the worker over the same store, cache and outbox. The
daemon takes the steps of the pipeline, the worker those of its loop, and between any two of them the
routes may take theirs.
-/

namespace ExpenseSettlement

/-- What clients ask for besides new expenses and balances. -/
inductive ClientCall
  | createUser (name email : String)
  | createGroup (name : String)
  | addMember (groupId userId : String)
  | settle (groupId requestedBy : String)
deriving DecidableEq

def ClientCall.exec (R : Runtime) (w : World) : ClientCall → World
  | .createUser name email => (GroupService.createUser R name email w).2
  | .createGroup name => (GroupService.createGroup R name w).2
  | .addMember groupId userId => (GroupService.addMember R groupId userId w).2
  | .settle groupId requestedBy => (settleGroup R groupId requestedBy w).2

structure Process (ι : Type) where
  /-- The requests that create expenses, and the state of the modules. -/
  route : RouteState ι
  relay : Relay
  /-- The events whose messages the queue has accepted, by position. -/
  accepted : List Nat
  /-- The message that the daemon's `publish` is putting. -/
  putting : Option (Message EventPayload)
  published : List (Message EventPayload)
  queue : InMemoryQueue EventPayload
  /-- The message that the worker is handling. -/
  current : Option (Message EventPayload)
  processed : Nat
  failed : Nat
  /-- The messages that the worker is done with, and whether they were handled to completion. -/
  ended : List (Message EventPayload × Bool)

inductive ProcessStep (ι : Type)
  | post (i : ι) (now now' : ℚ)
  | client (call : ClientCall)
  | balances (groupId : String) (now now' now'' : ℚ)
  | wake
  | put
  | consume
  | handle (fails : Option HandlerCall)

namespace Process

variable {ι : Type} [DecidableEq ι]

def world (s : Process ι) : World := s.route.world

def start : Process ι := ⟨.start .init, .idle, [], none, [], .init, none, 0, 0, []⟩

def withWorld (w : World) (s : Process ι) : Process ι := { s with route := { s.route with world := w } }

/-! ## The parts -/

def consumed (s : Process ι) : List (Message EventPayload) := s.ended.map (·.1) ++ s.current.toList

/-- The way of the events, as far as the worker's hands. -/
def pipeline (s : Process ι) : Pipeline EventPayload where
  relays := ⟨s.world.draws, s.world.outbox, fun _ => s.relay, s.accepted⟩
  queue := s.queue
  putting := s.putting
  published := s.published
  consumed := s.consumed

/-- After a step of the daemon. -/
def withPipeline (q : Pipeline EventPayload) (s : Process ι) : Process ι :=
  { s.withWorld { s.world with draws := q.relays.draws, outbox := q.relays.outbox } with
    relay := q.relays.relay ()
    accepted := q.relays.accepted
    putting := q.putting
    published := q.published
    queue := q.queue }

def worker (s : Process ι) : LoopState := ⟨s.world, s.queue, s.current, s.processed, s.failed, s.ended⟩

/-- After a step of the worker. -/
def withWorker (l : LoopState) (s : Process ι) : Process ι :=
  { s.withWorld l.world with
    queue := l.queue
    current := l.current
    processed := l.processed
    failed := l.failed
    ended := l.ended }

def step (R : Runtime) (p : ι → PostExpense) (s : Process ι) : ProcessStep ι → Process ι
  | .post i now now' => { s with route := s.route.advance R (p i) i now now' }
  | .client call => s.withWorld (call.exec R s.world)
  | .balances groupId now now' now'' => s.withWorld (getBalances R groupId now now' now'' s.world).2
  | .wake => s.withPipeline (s.pipeline.step R .wake)
  | .put => s.withPipeline (s.pipeline.step R .put)
  | .consume => s.withWorker (s.worker.step R .consume)
  | .handle fails => s.withWorker (s.worker.step R (.handle fails))

/-! ## The operations -/

/-- The operation that takes effect in a step. A settlement does when its records are saved. -/
def operation (p : ι → PostExpense) (s : Process ι) : ProcessStep ι → Option Operation
  | .post i _ _ =>
      match s.route.phase i with
      | .creating => some (.createExpense (p i).args)
      | .arrived | .refused | .created _ | .failed _ | .done _ => none
  | .client (.createUser name email) => some (.createUser name email)
  | .client (.createGroup name) => some (.createGroup name)
  | .client (.addMember groupId userId) => some (.addMember groupId userId)
  | .handle fails =>
      match s.current with
      | none => none
      | some msg =>
          if msg.eventType = EventType.settlementRequested.value ∧ fails ≠ some .getExpensesForGroup ∧
              fails ≠ some .saveSettlements then
            some (.settlementRequested msg.payload.groupId)
          else
            none
  | .client (.settle _ _) | .balances _ _ _ _ | .wake | .put | .consume => none

/-- The operations of a run, in the order in which they take effect. -/
def operations (R : Runtime) (p : ι → PostExpense) (s : Process ι) : List (ProcessStep ι) → List Operation
  | [] => []
  | c :: steps => (s.operation p c).toList ++ operations R p (s.step R p c) steps

end Process

end ExpenseSettlement
