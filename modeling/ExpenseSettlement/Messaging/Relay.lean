import Mathlib.Logic.Function.Basic
import ExpenseSettlement.Messaging.Outbox

/-!
# Relays (`InMemoryOutbox.relay_all_pending`)

Any number of calls of `relay_all_pending` and `append` run against one outbox. A relay suspends only
while it awaits the queue's `publish`, which may raise.
-/

namespace ExpenseSettlement

/-- Where a call of `relay_all_pending` stands, with the number of events it has relayed so far. -/
inductive Relay
  | idle
  | publishing (position count : Nat)
  | returned (count : Nat)
deriving DecidableEq

structure RelayState (ι P : Type) where
  draws : Draws
  outbox : InMemoryOutbox P
  relay : ι → Relay
  /-- The events whose messages the queue has accepted, by position. -/
  accepted : List Nat

inductive RelayCall (ι P : Type)
  | append (eventType aggregateId : String) (payload : P)
  | relay (r : ι)
  | published (r : ι)
  | raised (r : ι)

def InMemoryOutbox.markPublished {P : Type} (position : Nat) (o : InMemoryOutbox P) : InMemoryOutbox P :=
  { o with events := o.events.modify position fun e => { e with isPublished := true } }

namespace RelayState

variable {ι P : Type} [DecidableEq ι]

def init (d : Draws) : RelayState ι P := ⟨d, .init, fun _ => .idle, []⟩

/-- The head of the loop: take the next pending event, or return. -/
def next (r : ι) (count : Nat) (s : RelayState ι P) : RelayState ι P :=
  match s.outbox.pending with
  | [] => { s with relay := Function.update s.relay r (.returned count) }
  | position :: rest =>
      { s with
        outbox := { s.outbox with pending := rest }
        relay := Function.update s.relay r (.publishing position count) }

/-- `publish` has returned. -/
def accept (r : ι) (position : Nat) (s : RelayState ι P) : RelayState ι P :=
  { s with
    outbox := s.outbox.markPublished position
    relay := Function.update s.relay r .idle
    accepted := s.accepted ++ [position] }

/-- `publish` has raised, and the error is only logged. -/
def drop (r : ι) (s : RelayState ι P) : RelayState ι P :=
  { s with relay := Function.update s.relay r .idle }

def step (R : Runtime) (s : RelayState ι P) : RelayCall ι P → RelayState ι P
  | .append eventType aggregateId payload =>
      let (_, draws, outbox) := s.outbox.append R eventType aggregateId payload s.draws
      { s with draws, outbox }
  | .relay r =>
      match s.relay r with
      | .publishing _ _ => s
      | .idle | .returned _ => s.next r 0
  | .published r =>
      match s.relay r with
      | .publishing position count => (s.accept r position).next r (count + 1)
      | .idle | .returned _ => s
  | .raised r =>
      match s.relay r with
      | .publishing _ count => (s.drop r).next r count
      | .idle | .returned _ => s

def Quiescent (s : RelayState ι P) : Prop := ∀ r position count, s.relay r ≠ .publishing position count

/-- Every event waits in the pending queue, or it is marked and its message has been accepted. -/
def Kept (s : RelayState ι P) : Prop :=
  ∀ position e, s.outbox.events[position]? = some e →
    position ∈ s.outbox.pending ∨ e.isPublished = true ∧ position ∈ s.accepted

def Raises (s : RelayState ι P) (c : RelayCall ι P) : Prop :=
  ∃ r position count, c = .raised r ∧ s.relay r = .publishing position count

end RelayState

end ExpenseSettlement
