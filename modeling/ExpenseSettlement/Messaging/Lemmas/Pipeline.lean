import ExpenseSettlement.Core.Lemmas.Ids
import ExpenseSettlement.Messaging.Lemmas.Deliveries
import ExpenseSettlement.Messaging.Lemmas.Ownership
import ExpenseSettlement.Messaging.Pipeline
import Mathlib.Data.List.Infix

/-!
# The order of the events

With a single relay the events keep their order: the accepted ones, the one in the relay's hands and
the pending ones are all events from the first to the last. What is published is therefore a prefix of
what is appended.
-/

namespace ExpenseSettlement

open Lib

variable {P : Type} {R : Runtime}

theorem markPublished_contents (position : Nat) (o : InMemoryOutbox P) :
    (o.markPublished position).events.map OutboxEvent.content = o.events.map OutboxEvent.content := by
  apply List.ext_getElem?
  intro n
  simp only [InMemoryOutbox.markPublished, List.getElem?_map, List.getElem?_modify]
  cases o.events[n]? with
  | none => rfl
  | some e => by_cases hn : position = n <;> simp [hn, OutboxEvent.content]

/-! ## One relay -/

namespace RelayState

theorem next_frame {ι : Type} [DecidableEq ι] (r : ι) (count : Nat) (s : RelayState ι P) :
    (s.next r count).outbox.events = s.outbox.events ∧ (s.next r count).accepted = s.accepted ∧
      (s.next r count).draws = s.draws := by
  rcases next_cases r count s with ⟨_, he⟩ | ⟨position, rest, _, he⟩
  · rw [he]
    exact ⟨rfl, rfl, rfl⟩
  · rw [he]
    exact ⟨rfl, rfl, rfl⟩

variable {s : RelayState Unit P} {position count : Nat}

/-- The event that the relay is publishing. -/
def handled (s : RelayState Unit P) : List Nat :=
  match s.relay () with
  | .idle | .returned _ => []
  | .publishing position _ => [position]

structure InOrder (s : RelayState Unit P) : Prop where
  order : s.accepted ++ s.handled ++ s.outbox.pending = List.range s.outbox.events.length
  marked : ∀ position e, s.outbox.events[position]? = some e →
    (e.isPublished = true ↔ position ∈ s.accepted)

theorem handled_publishing (h : s.relay () = .publishing position count) : s.handled = [position] := by
  simp only [handled, h]

theorem handled_of_ne (h : ∀ n count, s.relay () ≠ .publishing n count) : s.handled = [] := by
  unfold handled
  cases hr : s.relay () with
  | idle => rfl
  | publishing position count => exact absurd hr (h position count)
  | returned count => rfl

namespace InOrder

theorem init (d : Draws) : InOrder (init d : RelayState Unit P) :=
  ⟨rfl, fun _ _ h => by cases h⟩

theorem accepted_eq (h : InOrder s) : s.accepted = List.range s.accepted.length := by
  have hfront : s.accepted <+: List.range s.outbox.events.length := by
    rw [← h.order, List.append_assoc]
    exact List.prefix_append _ _
  apply List.ext_getElem (by simp)
  intro i hi hi'
  rw [hfront.getElem hi, List.getElem_range, List.getElem_range]

/-- The relay is publishing the first event that is not accepted yet. -/
theorem publishing_eq (h : InOrder s) (hr : s.relay () = .publishing position count) :
    position = s.accepted.length := by
  have horder := h.order
  rw [handled_publishing hr, List.append_assoc, List.singleton_append] at horder
  have hlt : s.accepted.length < s.outbox.events.length := by
    have hlen := congrArg List.length horder
    simp only [List.length_append, List.length_cons, List.length_range] at hlen
    omega
  have hget := congrArg (fun l => l[s.accepted.length]?) horder
  simpa [hlt] using hget

theorem append (h : InOrder s) (eventType aggregateId : String) (payload : P) :
    InOrder (s.step R (.append eventType aggregateId payload)) := by
  have hlt : ∀ n ∈ s.accepted, n < s.outbox.events.length := by
    intro n hn
    have hmem : n ∈ List.range s.outbox.events.length := by
      rw [← h.order]
      exact List.mem_append_left _ (List.mem_append_left _ hn)
    exact List.mem_range.mp hmem
  constructor
  · change s.accepted ++ s.handled ++ (s.outbox.pending ++ [s.outbox.events.length]) =
      List.range (s.outbox.events ++ [_]).length
    rw [← List.append_assoc, h.order, List.length_append, List.length_singleton, List.range_succ]
  · intro position e he
    change (s.outbox.events ++ [_])[position]? = some e at he
    rcases Nat.lt_or_ge position s.outbox.events.length with hpos | hpos
    · rw [List.getElem?_append_left hpos] at he
      exact h.marked position e he
    · rw [List.getElem?_append_right hpos, List.getElem?_singleton] at he
      split at he
      · cases he
        refine iff_of_false Bool.false_ne_true fun hm => ?_
        exact absurd (hlt position hm) (Nat.not_lt.mpr hpos)
      · cases he

theorem next (h : InOrder s) (hr : ∀ n count, s.relay () ≠ .publishing n count) (count : Nat) :
    InOrder (s.next () count) := by
  have horder := h.order
  rw [handled_of_ne hr, List.append_nil] at horder
  rcases next_cases () count s with ⟨_, he⟩ | ⟨position, rest, hp, he⟩
  · rw [he]
    refine ⟨?_, h.marked⟩
    rw [handled_of_ne (by simp), List.append_nil]
    exact horder
  · rw [he]
    refine ⟨?_, h.marked⟩
    rw [hp] at horder
    simp only [handled, Function.update_self, List.append_assoc]
    exact horder

theorem accept (h : InOrder s) (hr : s.relay () = .publishing position count) :
    InOrder (s.accept () position) := by
  have hlen : (s.accept () position).outbox.events.length = s.outbox.events.length :=
    List.length_modify _ _ _
  constructor
  · rw [handled_of_ne (by simp [RelayState.accept]), List.append_nil, hlen, ← h.order,
      handled_publishing hr]
    rfl
  · intro n e he
    change (s.outbox.events.modify position fun e => { e with isPublished := true })[n]? = some e at he
    change _ ↔ n ∈ s.accepted ++ [position]
    rw [List.getElem?_modify] at he
    rw [List.mem_append, List.mem_singleton]
    cases hold : s.outbox.events[n]? with
    | none =>
        rw [hold] at he
        cases he
    | some e₀ =>
        rw [hold] at he
        simp only [Option.map_eq_map, Option.map_some, Option.some.injEq] at he
        by_cases hn : position = n
        · rw [if_pos hn] at he
          refine iff_of_true ?_ (.inr hn.symm)
          rw [← he]
        · rw [if_neg hn] at he
          subst he
          rw [h.marked n e₀ hold, or_iff_left (fun h => hn h.symm)]

theorem step {c : RelayCall Unit P} (h : InOrder s) (hc : ∀ r, c ≠ .raised r) : InOrder (s.step R c) := by
  apply step_induction h
  · rintro eventType aggregateId payload rfl
    exact h.append eventType aggregateId payload
  · intro s r count h hr
    exact h.next hr count
  · intro r position count hr
    exact h.accept hr
  · intro r position count he _
    exact absurd he (hc r)

end InOrder

/-- A relay that wakes up takes an event and leaves the rest as it is. -/
theorem relay_frame (s : RelayState Unit P) :
    (s.step R (.relay ())).outbox.events = s.outbox.events ∧
      (s.step R (.relay ())).accepted = s.accepted ∧ (s.step R (.relay ())).draws = s.draws := by
  simp only [RelayState.step]
  cases hr : s.relay () with
  | publishing position count => exact ⟨rfl, rfl, rfl⟩
  | idle => exact next_frame () 0 s
  | returned count => exact next_frame () 0 s

theorem published_frame (hr : s.relay () = .publishing position count) :
    (s.step R (.published ())).outbox.events.map OutboxEvent.content =
        s.outbox.events.map OutboxEvent.content ∧
      (s.step R (.published ())).accepted = s.accepted ++ [position] ∧
      (s.step R (.published ())).draws = s.draws := by
  simp only [RelayState.step, hr]
  obtain ⟨hevents, haccepted, hdraws⟩ := next_frame () (count + 1) (s.accept () position)
  rw [hevents, haccepted, hdraws]
  exact ⟨markPublished_contents position s.outbox, rfl, rfl⟩

end RelayState

/-! ## The pipeline -/

namespace Pipeline

open RelayState

variable {s : Pipeline P}

theorem prefix_concat_of_getElem? {α : Type} {l l' : List α} {x : α} (h : l <+: l')
    (hx : l'[l.length]? = some x) : l ++ [x] <+: l' := by
  obtain ⟨t, rfl⟩ := h
  rw [List.getElem?_append_right (Nat.le_refl _), Nat.sub_self] at hx
  cases t with
  | nil => cases hx
  | cons y t =>
      cases hx
      exact (List.prefix_append_right_inj l).mpr (List.prefix_append [x] t)

structure Ordered (R : Runtime) (s : Pipeline P) : Prop where
  inOrder : s.relays.InOrder
  accepted : s.relays.accepted.length = s.published.length
  contents : s.published.map Message.content <+: s.relays.outbox.events.map OutboxEvent.content
  handed : s.published = s.consumed ++ s.queue.queue
  issued : ∀ m ∈ s.published, R.Issued 0 s.relays.draws.uuids m.id
  distinct : (s.published.map (·.id)).Nodup

/-- The daemon is publishing the event that the message is built from. -/
structure Putting (R : Runtime) (s : Pipeline P) (message : Message P) : Prop where
  busy : ∃ position count e, s.relays.relay () = .publishing position count ∧
    s.relays.outbox.events[position]? = some e ∧ message.content = e.content
  issued : R.Issued 0 s.relays.draws.uuids message.id
  fresh : message.id ∉ s.published.map (·.id)

structure Flowing (R : Runtime) (s : Pipeline P) : Prop extends Ordered R s where
  putting : ∀ message, s.putting = some message → Putting R s message

theorem Ordered.startPublish (h : Ordered R s) : Flowing R (s.startPublish R) := by
  have hnone : Flowing R { s with putting := none } :=
    ⟨⟨h.inOrder, h.accepted, h.contents, h.handed, h.issued, h.distinct⟩, fun _ hm => by cases hm⟩
  unfold Pipeline.startPublish
  cases hr : s.relays.relay () with
  | idle => exact hnone
  | returned count => exact hnone
  | publishing position count =>
      dsimp only
      cases he : s.relays.outbox.events[position]? with
      | none => exact hnone
      | some event =>
          refine ⟨⟨⟨h.inOrder.order, h.inOrder.marked⟩, h.accepted, h.contents, h.handed, ?_, h.distinct⟩, ?_⟩
          · intro m hm
            exact (h.issued m hm).mono (Nat.le_refl _) (Nat.le_succ _)
          · rintro message ⟨⟩
            refine ⟨⟨position, count, event, hr, he, rfl⟩, ?_, ?_⟩
            · exact ⟨s.relays.draws.uuids, Nat.zero_le _, Nat.lt_succ_self _, rfl⟩
            · intro hm
              obtain ⟨m, hm, heq⟩ := List.mem_map.mp hm
              exact (h.issued m hm).ne ⟨s.relays.draws.uuids, Nat.le_refl _, Nat.lt_succ_self _, rfl⟩ heq

namespace Flowing

theorem init (d : Draws) : Flowing R (.init d : Pipeline P) where
  inOrder := .init d
  accepted := rfl
  contents := List.nil_prefix
  handed := rfl
  issued := fun _ h => by cases h
  distinct := List.nodup_nil
  putting := fun _ h => by cases h

theorem append (h : Flowing R s) (eventType aggregateId : String) (payload : P) :
    Flowing R (s.step R (.append eventType aggregateId payload)) := by
  refine ⟨⟨h.inOrder.append eventType aggregateId payload, h.accepted, ?_, h.handed, ?_, h.distinct⟩, ?_⟩
  · refine h.contents.trans ?_
    change _ <+: (s.relays.outbox.events ++ [_]).map OutboxEvent.content
    rw [List.map_append]
    exact List.prefix_append _ _
  · intro m hm
    exact (h.issued m hm).mono (Nat.le_refl _) (Nat.le_succ _)
  · intro message hm
    obtain ⟨⟨position, count, e, hr, he, hcontent⟩, hissued, hfresh⟩ := h.putting message hm
    refine ⟨⟨position, count, e, hr, ?_, hcontent⟩, hissued.mono (Nat.le_refl _) (Nat.le_succ _), hfresh⟩
    obtain ⟨hlt, _⟩ := List.getElem?_eq_some_iff.mp he
    change (s.relays.outbox.events ++ [_])[position]? = some e
    rw [List.getElem?_append_left hlt, he]

theorem wake (h : Flowing R s) : Flowing R (s.step R .wake) := by
  simp only [Pipeline.step]
  cases hput : s.putting with
  | some message => exact h
  | none =>
      obtain ⟨hevents, haccepted, hdraws⟩ := relay_frame (R := R) s.relays
      have hinOrder : (s.relays.step R (.relay ())).InOrder := h.inOrder.step fun _ h => by cases h
      apply Ordered.startPublish
      refine ⟨hinOrder, ?_, ?_, h.handed, ?_, h.distinct⟩
      · rw [haccepted]
        exact h.accepted
      · rw [hevents]
        exact h.contents
      · rw [hdraws]
        exact h.issued

/-- The message that is put is the content of the first event that is not published yet. -/
theorem put (h : Flowing R s) : Flowing R (s.step R .put) := by
  simp only [Pipeline.step]
  cases hput : s.putting with
  | none => exact h
  | some message =>
      dsimp only
      cases hq : s.queue.put message with
      | none => exact h
      | some queue =>
          obtain ⟨⟨position, count, e, hr, he, hcontent⟩, hissued, hfresh⟩ := h.putting message hput
          obtain ⟨hevents, haccepted, hdraws⟩ := published_frame (R := R) hr
          have hposition : position = s.published.length :=
            (h.inOrder.publishing_eq hr).trans h.accepted
          have hinOrder : (s.relays.step R (.published ())).InOrder :=
            h.inOrder.step fun _ h => by cases h
          apply Ordered.startPublish
          refine ⟨hinOrder, ?_, ?_, ?_, ?_, ?_⟩
          · simp only [haccepted, List.length_append, List.length_singleton, h.accepted]
          · dsimp only
            rw [hevents, List.map_append, List.map_singleton]
            apply prefix_concat_of_getElem? h.contents
            rw [List.length_map, ← hposition, List.getElem?_map, he, hcontent]
            rfl
          · rw [InMemoryQueue.put_eq_some hq]
            dsimp only
            rw [h.handed, List.append_assoc]
          · intro m hm
            dsimp only
            rw [hdraws]
            rcases List.mem_append.mp hm with hm | hm
            · exact h.issued m hm
            · rw [List.mem_singleton.mp hm]
              exact hissued
          · rw [List.map_append, List.map_singleton, ← List.concat_eq_append]
            exact h.distinct.concat hfresh

theorem consumeOne (h : Flowing R s) : Flowing R (s.step R .consumeOne) := by
  simp only [Pipeline.step, InMemoryQueue.consumeOne]
  cases hq : s.queue.queue with
  | nil => exact h
  | cons message rest =>
      refine ⟨⟨h.inOrder, h.accepted, h.contents, ?_, h.issued, h.distinct⟩, ?_⟩
      · have hhanded := h.handed
        rw [hq] at hhanded
        rw [hhanded, List.append_assoc]
        rfl
      · intro m hm
        obtain ⟨hbusy, hissued, hfresh⟩ := h.putting m hm
        exact ⟨hbusy, hissued, hfresh⟩

theorem step (h : Flowing R s) (c : PipelineCall P) : Flowing R (s.step R c) := by
  cases c with
  | append eventType aggregateId payload => exact h.append eventType aggregateId payload
  | wake => exact h.wake
  | put => exact h.put
  | consumeOne => exact h.consumeOne

end Flowing

/-! ## The events of the outbox are what the calls append -/

theorem startPublish_events (s : Pipeline P) :
    (s.startPublish R).relays.outbox.events = s.relays.outbox.events := by
  unfold startPublish
  cases s.relays.relay () with
  | idle => rfl
  | returned count => rfl
  | publishing position count =>
      dsimp only
      cases s.relays.outbox.events[position]? with
      | none => rfl
      | some event => rfl

def contents (s : Pipeline P) : List (String × P) := s.relays.outbox.events.map OutboxEvent.content

theorem append_contents (eventType aggregateId : String) (payload : P) :
    (s.step R (.append eventType aggregateId payload)).contents = s.contents ++ [(eventType, payload)] := by
  change (s.relays.outbox.events ++ [_]).map OutboxEvent.content = _
  rw [List.map_append]
  rfl

theorem wake_contents (s : Pipeline P) : (s.step R .wake).contents = s.contents := by
  simp only [Pipeline.step]
  cases s.putting with
  | some message => rfl
  | none =>
      dsimp only
      rw [contents, startPublish_events]
      dsimp only
      rw [(relay_frame (R := R) s.relays).1]
      rfl

theorem Flowing.put_contents (h : Flowing R s) : (s.step R .put).contents = s.contents := by
  simp only [Pipeline.step]
  cases hput : s.putting with
  | none => rfl
  | some message =>
      dsimp only
      cases s.queue.put message with
      | none => rfl
      | some queue =>
          obtain ⟨⟨position, count, e, hr, _⟩, _⟩ := h.putting message hput
          dsimp only
          rw [contents, startPublish_events]
          exact (published_frame (R := R) hr).1

theorem consumeOne_contents (s : Pipeline P) : (s.step R .consumeOne).contents = s.contents := by
  simp only [Pipeline.step, InMemoryQueue.consumeOne]
  cases s.queue.queue with
  | nil => rfl
  | cons message rest => rfl

theorem Flowing.step_contents (h : Flowing R s) (c : PipelineCall P) :
    (s.step R c).contents = s.contents ++ appended [c] := by
  cases c with
  | append eventType aggregateId payload => exact append_contents eventType aggregateId payload
  | wake => exact (wake_contents s).trans (List.append_nil _).symm
  | put => exact h.put_contents.trans (List.append_nil _).symm
  | consumeOne => exact (consumeOne_contents s).trans (List.append_nil _).symm

theorem run_flowing (d : Draws) (calls : List (PipelineCall P)) :
    Flowing R (run (Pipeline.step R) (.init d) calls) :=
  run_invariant (Flowing R) (fun _ c h => h.step c) (.init d) calls

theorem run_contents (d : Draws) (calls : List (PipelineCall P)) :
    (run (Pipeline.step R) (.init d) calls).contents = appended calls := by
  induction calls using List.reverseRecOn with
  | nil => rfl
  | append_singleton pre c ih =>
      rw [run_concat, (run_flowing d pre).step_contents, ih, appended, appended, appended,
        List.filterMap_append]

end Pipeline

end ExpenseSettlement
