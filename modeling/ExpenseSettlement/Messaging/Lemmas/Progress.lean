import ExpenseSettlement.Messaging.Lemmas.Pipeline

/-!
# How far the events have come

The daemon takes the events one after the other, so it is enough to count: the events it has taken,
those it has published, those the consumer has taken out. No step lowers a count.
-/

namespace ExpenseSettlement

open Lib

variable {P : Type} {R : Runtime}

namespace Pipeline

open RelayState

variable {s : Pipeline P}

/-- How many events the daemon has taken. -/
def taken (s : Pipeline P) : Nat := s.published.length + s.relays.handled.length

/-- While nothing is being put, the daemon publishes nothing. -/
def Engaged (s : Pipeline P) : Prop := s.putting = none → s.relays.handled = []

theorem Ordered.length_events (h : Ordered R s) :
    s.taken + s.relays.outbox.pending.length = s.relays.outbox.events.length := by
  have horder := congrArg List.length h.inOrder.order
  simp only [List.length_append, List.length_range, h.accepted] at horder
  exact horder

theorem Ordered.length_published (h : Ordered R s) :
    s.published.length = s.consumed.length + s.queue.queue.length := by
  rw [h.handed, List.length_append]

/-! ## Beginning to publish -/

/-- Only the draws and the message that is put change. -/
theorem startPublish_frame (s : Pipeline P) :
    (s.startPublish R).relays.relay = s.relays.relay ∧ (s.startPublish R).relays.outbox = s.relays.outbox ∧
      (s.startPublish R).published = s.published ∧ (s.startPublish R).consumed = s.consumed ∧
      (s.startPublish R).queue = s.queue := by
  unfold startPublish
  cases s.relays.relay () with
  | idle | returned => exact ⟨rfl, rfl, rfl, rfl, rfl⟩
  | publishing position count =>
      dsimp only
      cases s.relays.outbox.events[position]? with
      | none => exact ⟨rfl, rfl, rfl, rfl, rfl⟩
      | some event => exact ⟨rfl, rfl, rfl, rfl, rfl⟩

theorem startPublish_handled (s : Pipeline P) :
    (s.startPublish R).relays.handled = s.relays.handled := by
  unfold handled
  rw [(startPublish_frame s).1]

theorem startPublish_draws (s : Pipeline P) : s.relays.draws.Later (s.startPublish R).relays.draws := by
  unfold startPublish
  cases s.relays.relay () with
  | idle | returned => exact .refl _
  | publishing position count =>
      dsimp only
      cases s.relays.outbox.events[position]? with
      | none => exact .refl _
      | some event => exact .next _

/-- The event that the daemon has taken is there, so its message is being put. -/
theorem startPublish_engaged (h : Ordered R (s.startPublish R)) : (s.startPublish R).Engaged := by
  intro hnone
  have horder := h.inOrder.order
  rw [startPublish_handled] at horder ⊢
  rw [(startPublish_frame s).2.1] at horder
  unfold Pipeline.startPublish at hnone
  cases hr : s.relays.relay () with
  | idle | returned => simp only [handled, hr]
  | publishing position count =>
      have hmem : position ∈ List.range s.relays.outbox.events.length := by
        rw [← horder, handled_publishing hr]
        exact List.mem_append_left _ (List.mem_append_right _ (List.mem_singleton_self _))
      have hlookup := List.getElem?_eq_getElem (List.mem_range.mp hmem)
      rw [hr] at hnone
      dsimp only at hnone
      rw [hlookup] at hnone
      cases hnone

/-! ## The daemon's steps -/

theorem next_handled {s : RelayState Unit P} {count : Nat} :
    (s.next () count).handled.length = min 1 s.outbox.pending.length := by
  rcases next_cases () count s with ⟨hp, he⟩ | ⟨position, rest, hp, he⟩
  · simp [he, hp, handled]
  · simp [he, hp, handled]

theorem relay_of_free {s : RelayState Unit P} (h : s.handled = []) :
    s.step R (.relay ()) = s.next () 0 := by
  simp only [RelayState.step]
  cases hr : s.relay () with
  | publishing position count =>
      rw [handled_publishing hr] at h
      cases h
  | idle | returned => rfl

/-- Waking up takes the next event, unless the daemon is busy. -/
structure Woken (s s' : Pipeline P) : Prop where
  draws : s.relays.draws.Later s'.relays.draws
  consumed : s'.consumed = s.consumed
  published : s'.published = s.published
  queue : s'.queue = s.queue
  taken : s.taken ≤ s'.taken
  takes : s.putting = none → s.relays.outbox.pending ≠ [] → s.taken < s'.taken
  engaged : s'.Engaged

theorem Flowing.woken (h : Flowing R s) (he : s.Engaged) : Woken s (s.step R .wake) := by
  cases hput : s.putting with
  | some message =>
      have hstep : s.step R .wake = s := by simp only [Pipeline.step, hput]
      rw [hstep]
      exact ⟨.refl _, rfl, rfl, rfl, le_rfl, fun hnone => (by cases hput.symm.trans hnone), he⟩
  | none =>
      have hflow := h.wake.toOrdered
      have hstep : s.step R .wake = startPublish R { s with relays := s.relays.step R (.relay ()) } := by
        simp only [Pipeline.step, hput]
      obtain ⟨-, -, hpublished, hconsumed, hqueue⟩ :=
        startPublish_frame (R := R) { s with relays := s.relays.step R (.relay ()) }
      have htaken : (startPublish R { s with relays := s.relays.step R (.relay ()) }).taken =
          s.published.length + min 1 s.relays.outbox.pending.length := by
        rw [taken, startPublish_handled, hpublished]
        dsimp only
        rw [relay_of_free (he hput), next_handled]
      have hfree : s.taken = s.published.length := by
        rw [taken, he hput]
        rfl
      have hdraws : s.relays.draws.Later
          (startPublish R { s with relays := s.relays.step R (.relay ()) }).relays.draws := by
        rw [← (relay_frame (R := R) s.relays).2.2]
        exact startPublish_draws { s with relays := s.relays.step R (.relay ()) }
      rw [hstep] at hflow ⊢
      refine ⟨hdraws, hconsumed, hpublished, hqueue, by omega, fun _ hpending => ?_,
        startPublish_engaged hflow⟩
      have hpos := List.length_pos_iff.mpr hpending
      omega

/-- A put that finds room publishes, and the daemon may take the next event at once. -/
structure Put (s s' : Pipeline P) : Prop where
  draws : s.relays.draws.Later s'.relays.draws
  consumed : s'.consumed = s.consumed
  queue : s'.queue = s.queue ∨ ∃ message, s.queue.put message = some s'.queue
  published : s.published.length ≤ s'.published.length
  publishes : s.putting ≠ none → s.queue.queue.length < queueMaxsize →
    s.published.length < s'.published.length
  taken : s.taken ≤ s'.taken
  engaged : s'.Engaged

theorem Flowing.puts (h : Flowing R s) (he : s.Engaged) : Put s (s.step R .put) := by
  cases hput : s.putting with
  | none =>
      have hstep : s.step R .put = s := by simp only [Pipeline.step, hput]
      rw [hstep]
      exact ⟨.refl _, rfl, .inl rfl, le_rfl, fun hsome => absurd hput hsome, le_rfl, he⟩
  | some message =>
      cases hq : s.queue.put message with
      | none =>
          have hstep : s.step R .put = s := by simp only [Pipeline.step, hput, hq]
          rw [hstep]
          refine ⟨.refl _, rfl, .inl rfl, le_rfl, fun _ hroom => ?_, le_rfl, he⟩
          rw [InMemoryQueue.put, if_pos hroom] at hq
          cases hq
      | some queue =>
          obtain ⟨⟨position, count, e, hr, -⟩, -, -⟩ := h.putting message hput
          have hflow := h.put.toOrdered
          have hstep : s.step R .put = startPublish R
              { s with
                relays := s.relays.step R (.published ())
                queue
                published := s.published ++ [message] } := by simp only [Pipeline.step, hput, hq]
          obtain ⟨-, -, hpublished, hconsumed, hqueue⟩ := startPublish_frame (R := R)
            { s with
              relays := s.relays.step R (.published ())
              queue
              published := s.published ++ [message] }
          rw [← hstep] at hpublished hconsumed hqueue
          have hlen : (s.step R .put).published.length = s.published.length + 1 := by
            rw [hpublished, List.length_append, List.length_singleton]
          have htaken : s.taken = s.published.length + 1 := by
            rw [taken, handled_publishing hr]
            rfl
          have hle : (s.step R .put).published.length ≤ (s.step R .put).taken := Nat.le_add_right _ _
          have hengaged : (s.step R .put).Engaged := by
            rw [hstep] at hflow ⊢
            exact startPublish_engaged hflow
          have hdraws : s.relays.draws.Later (s.step R .put).relays.draws := by
            rw [hstep, ← (published_frame (R := R) hr).2.2]
            exact startPublish_draws
              { s with
                relays := s.relays.step R (.published ())
                queue
                published := s.published ++ [message] }
          exact ⟨hdraws, hconsumed, .inr ⟨message, hqueue ▸ hq⟩, by omega, by omega, by omega, hengaged⟩

end Pipeline

end ExpenseSettlement
