import ExpenseSettlement.Messaging.Lemmas.Progress
import ExpenseSettlement.Process.Lemmas.World

/-!
# The events in the process

The daemon and the worker take the steps of the pipeline. All the pipeline sees of the routes and of
the handler is that ids are drawn and events are appended.
-/

namespace ExpenseSettlement

open Lib

variable {R : Runtime}

/-! ## Draws and appended events -/

namespace Pipeline

variable {P : Type} {s : Pipeline P}

theorem Flowing.withDraws (h : Flowing R s) {d : Draws} (hd : s.relays.draws.uuids ≤ d.uuids) :
    Flowing R { s with relays := { s.relays with draws := d } } := by
  refine ⟨⟨⟨h.inOrder.order, h.inOrder.marked⟩, h.accepted, h.contents, h.handed, ?_, h.distinct⟩, ?_⟩
  · intro m hm
    exact (h.issued m hm).mono (Nat.le_refl _) hd
  · intro message hm
    obtain ⟨hbusy, hissued, hfresh⟩ := h.putting message hm
    exact ⟨hbusy, hissued.mono (Nat.le_refl _) hd, hfresh⟩

end Pipeline

namespace Process

open Pipeline

variable {ι : Type} [DecidableEq ι] {p : ι → PostExpense} {s : Process ι} {w : World}

omit [DecidableEq ι] in
theorem pipeline_withPipeline {q : Pipeline EventPayload} (h : q.consumed = s.consumed) :
    (s.withPipeline q).pipeline = q := by
  obtain ⟨relays, queue, putting, published, consumed⟩ := q
  cases h
  rfl

omit [DecidableEq ι] in
/-- What is appended comes behind what was there before. -/
theorem flowing_withRoute (h : Flowing R s.pipeline) {r : RouteState ι} (hw : Emits R s.world r.world) :
    Flowing R { s with route := r }.pipeline ∧
      s.pipeline.contents <+: { s with route := r }.pipeline.contents := by
  cases hw with
  | nothing hd ho =>
      have he : { s with route := r }.pipeline =
          { s.pipeline with relays := { s.pipeline.relays with draws := r.world.draws } } := by
        rw [pipeline, pipeline]
        dsimp only [world]
        rw [ho]
        rfl
      rw [he]
      exact ⟨h.withDraws hd, List.prefix_refl _⟩
  | @event d eventType aggregateId payload hd ha =>
      obtain ⟨hdraws, houtbox⟩ := Prod.mk.inj ha
      have he : { s with route := r }.pipeline =
          Pipeline.step R { s.pipeline with relays := { s.pipeline.relays with draws := d } }
            (.append eventType aggregateId payload) := by
        rw [pipeline, pipeline]
        dsimp only [world]
        rw [hdraws, houtbox]
        rfl
      rw [he, append_contents]
      exact ⟨(h.withDraws hd).append eventType aggregateId payload, List.prefix_append _ _⟩

/-! ## The invariant -/

structure Orderly (R : Runtime) (s : Process ι) : Prop where
  flowing : Flowing R s.pipeline
  engaged : s.pipeline.Engaged
  room : s.queue.queue.length ≤ queueMaxsize
  dlq : s.queue.dlq = []
  processed : s.processed = s.ended.countP (·.2)
  failed : s.failed = s.ended.countP (!·.2)
  heads : HeadsEncode R s.world.workerLedger.accountHeads

omit [DecidableEq ι] in
theorem Orderly.start : Orderly R (.start : Process ι) where
  flowing := .init ⟨0, 0⟩
  engaged := fun _ => rfl
  room := Nat.zero_le _
  dlq := rfl
  processed := rfl
  failed := rfl
  heads := fun _ _ h => by cases h

/-- No step takes back what has been done, and each kind of step does its part. -/
structure Advances (s s' : Process ι) : Prop where
  contents : s.pipeline.contents <+: s'.pipeline.contents
  taken : s.pipeline.taken ≤ s'.pipeline.taken
  published : s.published.length ≤ s'.published.length
  consumed : s.consumed.length ≤ s'.consumed.length
  ended : s.ended <+: s'.ended

omit [DecidableEq ι] in
theorem Orderly.withRoute (h : s.Orderly R) {r : RouteState ι} (hw : Emits R s.world r.world)
    (hh : HeadsEncode R r.world.workerLedger.accountHeads) :
    Orderly R { s with route := r } ∧ s.Advances { s with route := r } := by
  obtain ⟨hflow, hcontents⟩ := flowing_withRoute h.flowing hw
  exact ⟨⟨hflow, h.engaged, h.room, h.dlq, h.processed, h.failed, hh⟩,
    ⟨hcontents, le_rfl, le_rfl, le_rfl, List.prefix_refl _⟩⟩

omit [DecidableEq ι] in
/-- The routes leave the worker's ledger alone. -/
theorem Orderly.routed (h : s.Orderly R) {r : RouteState ι} (hw : Emits R s.world r.world)
    (hu : Untouched s.world r.world) :
    Orderly R { s with route := r } ∧ s.Advances { s with route := r } := by
  refine h.withRoute hw ?_
  rw [hu.workerLedger]
  exact h.heads

/-! ## The steps of the daemon and of the worker -/

theorem Orderly.wake (h : s.Orderly R) :
    (s.step R p .wake).Orderly R ∧ s.Advances (s.step R p .wake) := by
  have hwoken := h.flowing.woken h.engaged
  have hpipe : (s.step R p .wake).pipeline = s.pipeline.step R .wake := pipeline_withPipeline hwoken.consumed
  have hqueue : (s.step R p .wake).queue = s.queue := hwoken.queue
  refine ⟨⟨?_, ?_, ?_, ?_, h.processed, h.failed, h.heads⟩, ⟨?_, ?_, ?_, le_rfl, List.prefix_refl _⟩⟩
  · rw [hpipe]
    exact h.flowing.wake
  · rw [hpipe]
    exact hwoken.engaged
  · rw [hqueue]
    exact h.room
  · rw [hqueue]
    exact h.dlq
  · rw [hpipe, wake_contents]
  · rw [hpipe]
    exact hwoken.taken
  · exact (congrArg List.length hwoken.published).ge

theorem Orderly.put (h : s.Orderly R) :
    (s.step R p .put).Orderly R ∧ s.Advances (s.step R p .put) := by
  have hput := h.flowing.puts h.engaged
  have hpipe : (s.step R p .put).pipeline = s.pipeline.step R .put := pipeline_withPipeline hput.consumed
  have hqueue : (s.step R p .put).queue.queue.length ≤ queueMaxsize ∧ (s.step R p .put).queue.dlq = [] := by
    rcases hput.queue with hsame | ⟨message, hroom⟩
    · have hq : (s.step R p .put).queue = s.queue := hsame
      rw [hq]
      exact ⟨h.room, h.dlq⟩
    · have hq : s.queue.put message = some (s.step R p .put).queue := hroom
      rw [InMemoryQueue.put] at hq
      split at hq
      · rename_i hlt
        rw [← Option.some.inj hq]
        exact ⟨by simpa using Nat.succ_le_of_lt hlt, h.dlq⟩
      · cases hq
  refine ⟨⟨?_, ?_, hqueue.1, hqueue.2, h.processed, h.failed, h.heads⟩,
    ⟨?_, ?_, hput.published, le_rfl, List.prefix_refl _⟩⟩
  · rw [hpipe]
    exact h.flowing.put
  · rw [hpipe]
    exact hput.engaged
  · rw [hpipe, h.flowing.put_contents]
  · rw [hpipe]
    exact hput.taken

theorem consume_cases (R : Runtime) (p : ι → PostExpense) (s : Process ι) :
    (s.step R p .consume = s ∧ (s.current = none → s.queue.queue = [])) ∨
    ∃ m rest, s.current = none ∧ s.queue.queue = m :: rest ∧
      s.step R p .consume = { s with current := some m, queue := { s.queue with queue := rest } } := by
  cases hc : s.current with
  | some m =>
      refine .inl ⟨?_, nofun⟩
      simp only [Process.step, LoopState.step, worker, hc]
      rw [← hc]
      rfl
  | none =>
      cases hq : s.queue.queue with
      | nil =>
          refine .inl ⟨?_, fun _ => rfl⟩
          simp only [Process.step, LoopState.step, worker, hc, InMemoryQueue.consumeOne, hq]
          rw [← hc]
          rfl
      | cons m rest =>
          refine .inr ⟨m, rest, rfl, rfl, ?_⟩
          simp only [Process.step, LoopState.step, worker, hc, InMemoryQueue.consumeOne, hq]
          rfl

theorem Orderly.consume (h : s.Orderly R) :
    (s.step R p .consume).Orderly R ∧ s.Advances (s.step R p .consume) := by
  rcases consume_cases R p s with ⟨he, -⟩ | ⟨m, rest, hc, hq, he⟩
  · rw [he]
    exact ⟨h, ⟨List.prefix_refl _, le_rfl, le_rfl, le_rfl, List.prefix_refl _⟩⟩
  · have hpipe : (s.step R p .consume).pipeline = s.pipeline.step R .consumeOne := by
      rw [he]
      simp only [Pipeline.step, pipeline, InMemoryQueue.consumeOne, hq, consumed, hc]
      simp [world]
    have hconsumed : (s.step R p .consume).consumed.length = s.consumed.length + 1 := by
      rw [he]
      simp [consumed, hc]
    refine ⟨⟨?_, ?_, ?_, ?_, ?_, ?_, ?_⟩, ⟨?_, ?_, ?_, by omega, ?_⟩⟩
    · rw [hpipe]
      exact h.flowing.consumeOne
    · rw [he]
      exact h.engaged
    · have hroom := h.room
      rw [hq, List.length_cons] at hroom
      rw [he]
      exact (Nat.le_succ _).trans hroom
    · rw [he]
      exact h.dlq
    · rw [he]
      exact h.processed
    · rw [he]
      exact h.failed
    · rw [he]
      exact h.heads
    · rw [hpipe, consumeOne_contents]
    · rw [he]
      exact le_rfl
    · rw [he]
    · rw [he]

/-- What the iteration of a message does. -/
structure Handles (R : Runtime) (fails : Option HandlerCall) (s s' : Process ι)
    (m : Message EventPayload) (ok : Bool) (w : World) : Prop where
  current : s.current = some m
  dispatched : ∃ outcome, LoopState.dispatch R fails m s.world = (outcome, w) ∧ outcome.toBool = ok
  result : s' =
    { s.withWorld w with
      current := none
      processed := s.processed + if ok then 1 else 0
      failed := s.failed + if ok then 0 else 1
      ended := s.ended ++ [(m, ok)] }

theorem handle_cases (R : Runtime) (p : ι → PostExpense) (s : Process ι) (fails : Option HandlerCall) :
    (s.current = none ∧ s.step R p (.handle fails) = s) ∨
    ∃ m ok w, Handles R fails s (s.step R p (.handle fails)) m ok w := by
  cases hc : s.current with
  | none =>
      refine .inl ⟨rfl, ?_⟩
      simp only [Process.step, LoopState.step, worker, hc]
      rw [← hc]
      rfl
  | some m =>
      cases hd : LoopState.dispatch R fails m s.world with
      | mk outcome w =>
          refine .inr ⟨m, outcome.toBool, w, hc, ⟨outcome, hd, rfl⟩, ?_⟩
          cases outcome with
          | ok u =>
              simp only [Process.step, LoopState.step, worker, hc, hd]
              rfl
          | error e =>
              simp only [Process.step, LoopState.step, worker, hc, hd]
              rfl

theorem Orderly.handle (h : s.Orderly R) (fails : Option HandlerCall) :
    (s.step R p (.handle fails)).Orderly R ∧ s.Advances (s.step R p (.handle fails)) := by
  rcases handle_cases R p s fails with ⟨-, he⟩ | ⟨m, ok, w, hm⟩
  · rw [he]
    exact ⟨h, ⟨List.prefix_refl _, le_rfl, le_rfl, le_rfl, List.prefix_refl _⟩⟩
  · obtain ⟨outcome, hd, -⟩ := hm.dispatched
    have hemits : Emits R s.world w := by
      have hw := Emits.dispatch h.heads fails m
      rw [hd] at hw
      exact hw
    have hheads : HeadsEncode R w.workerLedger.accountHeads := by
      have hh := dispatch_headsEncode h.heads fails m
      rw [hd] at hh
      exact hh
    obtain ⟨hw, ha⟩ := h.withRoute (r := { s.route with world := w }) hemits hheads
    -- the message only moves from the worker's hands to those it is done with
    have hconsumed : (s.step R p (.handle fails)).consumed = s.consumed := by
      rw [hm.result]
      simp [consumed, hm.current]
    have hpipe : (s.step R p (.handle fails)).pipeline =
        { s with route := { s.route with world := w } }.pipeline := by
      rw [pipeline, hconsumed, hm.result]
      rfl
    refine ⟨⟨?_, ?_, ?_, ?_, ?_, ?_, ?_⟩, ⟨?_, ?_, ?_, ?_, ?_⟩⟩
    · rw [hpipe]
      exact hw.flowing
    · rw [hpipe]
      exact hw.engaged
    · rw [hm.result]
      exact h.room
    · rw [hm.result]
      exact h.dlq
    · rw [hm.result]
      simp [h.processed, List.countP_append]
    · rw [hm.result]
      cases ok with
      | true => simp [h.failed, List.countP_append]
      | false => simp [h.failed, List.countP_append]
    · rw [hm.result]
      exact hheads
    · rw [hpipe]
      exact ha.contents
    · rw [hpipe]
      exact ha.taken
    · rw [hm.result]
      exact le_rfl
    · rw [hconsumed]
    · rw [hm.result]
      exact List.prefix_append _ _

theorem Orderly.step (h : s.Orderly R) (c : ProcessStep ι) :
    (s.step R p c).Orderly R ∧ s.Advances (s.step R p c) := by
  cases c with
  | post i now now' =>
      exact h.routed (.advance s.route i now now') (Untouched.advance (R := R) (p := p i) s.route i now now')
  | client call => exact h.routed (.client call s.world) (.client call s.world)
  | balances groupId now now' now'' =>
      exact h.routed (.balances groupId now now' now'' s.world)
        (Untouched.balances (R := R) groupId now now' now'' s.world)
  | wake => exact h.wake
  | put => exact h.put
  | consume => exact h.consume
  | handle fails => exact h.handle fails

end Process

end ExpenseSettlement
