import ExpenseSettlement.Messaging.Lemmas.Deliveries
import ExpenseSettlement.Messaging.Lemmas.Ownership
import ExpenseSettlement.Messaging.Lemmas.Pipeline

/-!
# The outbox and the queue

When the outbox keeps every event, and how a failed publish loses one. The in-memory queue loses and
duplicates no message and delivers it a bounded number of times. Events go through both in order.
-/

namespace ExpenseSettlement

open Lib RelayState

variable {ι P : Type} [DecidableEq ι]

/-- Whenever no relay is in progress, every event appended so far still waits or has been accepted,
if and only if no publish has raised so far. -/
theorem outbox_keeps_events_iff (R : Runtime) (d : Draws) (calls : List (RelayCall ι P))
    (hq : (run (RelayState.step R) (.init d) calls).Quiescent) :
    (run (RelayState.step R) (.init d) calls).Kept ↔
      AtEach (RelayState.step R) (.init d) calls (fun s c => ¬ s.Raises c) := by
  constructor
  · intro hk pre c post hp hraises
    have howned : Owned (run (RelayState.step R) (.init d) pre) :=
      run_invariant Owned (fun _ c h => h.step c) (init_owned d) pre
    obtain ⟨position, hlost⟩ := Lost.of_raises (R := R) howned hraises
    -- nothing that happens later finds the lost event again
    have hlost' := run_invariant (Lost position) (fun _ c h => h.step (R := R) c) hlost post
    apply hlost'.not_kept
    rw [hp, run_append] at hk
    exact hk
  · intro hgood
    have htracked : Tracked (run (RelayState.step R) (.init d) calls) :=
      run_invariant_of_atEach Tracked (fun _ _ h hc => h.step hc) (init_tracked d) hgood
    exact htracked.kept hq

theorem outbox_keeps_events_iff_relayed :
    (run (RelayState.step Runtime.sequential) (.init ⟨0, 0⟩ : RelayState Unit String)
        [.append "EXPENSE_CREATED" "expense-1" "taxi", .relay (), .published ()]).Kept ↔
      AtEach (RelayState.step Runtime.sequential) (.init ⟨0, 0⟩)
        [.append "EXPENSE_CREATED" "expense-1" "taxi", .relay (), .published ()]
        (fun s c => ¬ s.Raises c) :=
  outbox_keeps_events_iff Runtime.sequential ⟨0, 0⟩ _ fun _ _ _ => nofun

def failedPublish : List (RelayCall Unit String) :=
  [.append "EXPENSE_CREATED" "expense-1" "taxi", .relay (), .raised ()]

theorem failed_publish_loses_event :
    (run (RelayState.step Runtime.sequential) (.init ⟨0, 0⟩) failedPublish).Quiescent ∧
      ¬ (run (RelayState.step Runtime.sequential) (.init ⟨0, 0⟩) failedPublish).Kept := by
  refine ⟨fun _ _ _ => nofun, fun hk => ?_⟩
  exact absurd (hk 0 _ rfl) (by decide)

/-! ## The queue -/

/-- While every message is nacked at most once for each delivery, the queue, the consumers and the
dead-letter list share the published messages out among them. No message is delivered too often, and
it is dead exactly when it has been nacked as often as it may be. -/
theorem queue_conserves_messages (R : Runtime) (d : Draws) (calls : List (QueueCall P))
    (h : AtEach (DeliveryState.step R) (.init d) calls DeliveryState.NacksHeld) :
    let s := run (DeliveryState.step R) (.init d) calls
    (s.published.map (·.id)).Nodup ∧
    (s.queue.queue ++ s.delivered ++ s.queue.dlq).Perm s.published ∧
    ∀ m ∈ s.published, s.deliveries.count m.id ≤ maxRetries ∧
      (m ∈ s.queue.dlq ↔ s.nacks.count m.id = maxRetries) := by
  have haccounted : DeliveryState.Accounted R (run (DeliveryState.step R) (.init d) calls) :=
    run_invariant_of_atEach _ (fun _ _ hs hc => hs.step hc) (.init d) h
  refine ⟨haccounted.distinct, haccounted.shared, ?_⟩
  intro m hm
  exact ⟨haccounted.deliveries_le hm, haccounted.mem_dlq_iff hm⟩

def taxiMessage : Message String :=
  InMemoryQueue.newMessage Runtime.sequential "EXPENSE_CREATED" "taxi" ⟨0, 0⟩

def poisoned : List (QueueCall String) :=
  [.publish "EXPENSE_CREATED" "taxi", .consumeOne, .nack taxiMessage, .consumeOne, .nack taxiMessage,
    .consumeOne, .nack taxiMessage]

theorem queue_conserves_messages_poisoned :
    let s := run (DeliveryState.step Runtime.sequential) (.init ⟨0, 0⟩) poisoned
    (s.published.map (·.id)).Nodup ∧
    (s.queue.queue ++ s.delivered ++ s.queue.dlq).Perm s.published ∧
    ∀ m ∈ s.published, s.deliveries.count m.id ≤ maxRetries ∧
      (m ∈ s.queue.dlq ↔ s.nacks.count m.id = maxRetries) := by
  apply queue_conserves_messages
  simp only [poisoned, atEach_cons, atEach_nil, and_true]
  exact ⟨trivial, trivial, .head _, trivial, .head _, trivial, .head _⟩

/-! ## From the outbox to the consumer -/

/-- With one relay daemon and one consumer that does not nack, the events arrive in the order in which
they are appended, each once. The i-th message published is the i-th event appended, and an event is
marked exactly when its publish has completed. -/
theorem events_arrive_once_in_order (R : Runtime) (d : Draws) (calls : List (PipelineCall P)) :
    let s := run (Pipeline.step R) (.init d) calls
    s.consumed.map Message.content <+: s.published.map Message.content ∧
    s.published.map Message.content <+: appended calls ∧
    (s.consumed.map (·.id)).Nodup ∧
    s.relays.accepted = List.range s.published.length ∧
    ∀ position e, s.relays.outbox.events[position]? = some e →
      (e.isPublished = true ↔ position ∈ s.relays.accepted) := by
  have h := Pipeline.run_flowing (R := R) d calls
  have hconsumed : (run (Pipeline.step R) (.init d) calls).consumed <+:
      (run (Pipeline.step R) (.init d) calls).published := by
    rw [h.handed]
    exact List.prefix_append _ _
  refine ⟨hconsumed.map _, ?_, ?_, ?_, h.inOrder.marked⟩
  · rw [← Pipeline.run_contents (R := R) d calls]
    exact h.contents
  · exact (hconsumed.map _).nodup h.distinct
  · rw [← h.accepted]
    exact h.inOrder.accepted_eq

-- the second event is appended while the first one is being published
example :
    (run (Pipeline.step Runtime.sequential) (.init ⟨0, 0⟩)
        [.append "EXPENSE_CREATED" "expense-1" "taxi", .wake, .append "EXPENSE_CREATED" "expense-2" "hotel",
          .put, .put, .consumeOne, .consumeOne]).consumed.map Message.content =
      [("EXPENSE_CREATED", "taxi"), ("EXPENSE_CREATED", "hotel")] := by decide

end ExpenseSettlement
