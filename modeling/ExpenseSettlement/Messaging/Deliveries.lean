import ExpenseSettlement.Lib.Run
import ExpenseSettlement.Messaging.Queue

/-!
# Publishers and consumers of the in-memory queue

A run of the queue's calls, with a record of what has been published, delivered and nacked. A call
that has to wait for room takes its step when there is some.
-/

namespace ExpenseSettlement

inductive QueueCall (P : Type)
  | publish (eventType : String) (payload : P)
  | consumeOne
  | ack (messageId : String)
  | nack (message : Message P)
  /-- The `nack` that has waited longest puts its message back. -/
  | resume

structure DeliveryState (P : Type) where
  draws : Draws
  queue : InMemoryQueue P
  published : List (Message P)
  /-- The messages that are delivered and not nacked since. -/
  held : List (Message P)
  /-- The messages that are nacked and wait for room in the queue. -/
  putting : List (Message P)
  deliveries : List String
  nacks : List String

namespace DeliveryState

variable {P : Type}

def init (d : Draws) : DeliveryState P := ⟨d, .init, [], [], [], [], []⟩

def step (R : Runtime) (s : DeliveryState P) : QueueCall P → DeliveryState P
  | .publish eventType payload =>
      match s.queue.publish R eventType payload s.draws with
      | none => s
      | some (_, draws, queue) =>
          { s with draws, queue
                   published := s.published ++ [InMemoryQueue.newMessage R eventType payload s.draws] }
  | .consumeOne =>
      match s.queue.consumeOne with
      | (none, queue) => { s with queue }
      | (some message, queue) =>
          { s with queue
                   held := s.held ++ [message]
                   deliveries := s.deliveries ++ [message.id] }
  | .ack messageId => { s with queue := s.queue.ack messageId }
  | .nack message =>
      let (waiting, queue) := s.queue.nack message
      { s with queue
               held := s.held.eraseP (·.id = message.id)
               putting := s.putting ++ waiting.toList
               nacks := s.nacks ++ [message.id] }
  | .resume =>
      match s.putting with
      | [] => s
      | message :: rest =>
          match s.queue.put message with
          | none => s
          | some queue => { s with queue, putting := rest }

/-- The messages that are with a consumer: delivered, and not back in the queue or dead. -/
def delivered (s : DeliveryState P) : List (Message P) := s.held ++ s.putting

/-- A message is nacked by a consumer that holds it, once for its delivery. -/
def NacksHeld (s : DeliveryState P) : QueueCall P → Prop
  | .nack message => message ∈ s.held
  | _ => True

end DeliveryState

end ExpenseSettlement
