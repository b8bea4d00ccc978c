import ExpenseSettlement.Lib.Run
import ExpenseSettlement.Messaging.Queue
import ExpenseSettlement.Messaging.Relay

/-!
# From the outbox to the consumer (`start_relay_daemon`)

One relay daemon moves the events of the outbox into the in-memory queue, and one consumer takes them
out without a nack. A publish suspends only while the queue is full. Here other calls may always come
between its start and its `put`, so the runs of the program are among those of this machine.
-/

namespace ExpenseSettlement

structure Pipeline (P : Type) where
  relays : RelayState Unit P
  queue : InMemoryQueue P
  /-- The message that the daemon's `publish` is putting. -/
  putting : Option (Message P)
  published : List (Message P)
  consumed : List (Message P)

inductive PipelineCall (P : Type)
  | append (eventType aggregateId : String) (payload : P)
  /-- The daemon's `sleep` is over. -/
  | wake
  /-- The daemon's `put` looks whether there is room. -/
  | put
  | consumeOne

def Message.content {P : Type} (m : Message P) : String × P := (m.eventType, m.payload)

def OutboxEvent.content {P : Type} (e : OutboxEvent P) : String × P := (e.eventType, e.payload)

/-- What the calls append, in order. -/
def appended {P : Type} (calls : List (PipelineCall P)) : List (String × P) :=
  calls.filterMap fun c =>
    match c with
    | .append eventType _ payload => some (eventType, payload)
    | .wake | .put | .consumeOne => none

namespace Pipeline

variable {P : Type}

def init (d : Draws) : Pipeline P := ⟨.init d, .init, none, [], []⟩

/-- `publish` builds its message before it waits for room. -/
def startPublish (R : Runtime) (s : Pipeline P) : Pipeline P :=
  match s.relays.relay () with
  | .idle | .returned _ => { s with putting := none }
  | .publishing position _ =>
      match s.relays.outbox.events[position]? with
      | none => { s with putting := none }
      | some event =>
          let d := s.relays.draws
          { s with
            relays := { s.relays with draws := ⟨d.uuids + 1, d.times + 1⟩ }
            putting := some (InMemoryQueue.newMessage R event.eventType event.payload d) }

def step (R : Runtime) (s : Pipeline P) : PipelineCall P → Pipeline P
  | .append eventType aggregateId payload =>
      { s with relays := s.relays.step R (.append eventType aggregateId payload) }
  | .wake =>
      match s.putting with
      | some _ => s
      | none => startPublish R { s with relays := s.relays.step R (.relay ()) }
  | .put =>
      match s.putting with
      | none => s
      | some message =>
          match s.queue.put message with
          | none => s
          | some queue =>
              startPublish R
                { s with
                  relays := s.relays.step R (.published ())
                  queue
                  published := s.published ++ [message] }
  | .consumeOne =>
      match s.queue.consumeOne with
      | (none, queue) => { s with queue }
      | (some message, queue) => { s with queue, consumed := s.consumed ++ [message] }

end Pipeline

end ExpenseSettlement
