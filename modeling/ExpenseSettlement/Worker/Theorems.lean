import ExpenseSettlement.Worker.Lemmas.Loop

/-!
# The worker's messages
-/

namespace ExpenseSettlement

open Lib LoopState

/-- In every run of the loop, wherever the process has got to when it starts, every message it has taken
is handled, waits again or is in the dead-letter list once its iteration is over, if and only if no call
made by a handler fails. -/
theorem worker_loses_no_message_iff (R : Runtime) (ops : List Operation) (events : List LoopEvent) :
    let start := LoopState.start (World.run R ops)
    AtEach (LoopState.step R) start events (fun s event => NoneLost (s.step R event)) ↔
    AtEach (LoopState.step R) start events (fun s event => ¬ s.CallFails R event) := by
  have hstart : LoopState.Kept R (.start (World.run R ops)) := .start (WellFormed.run ops).worker_heads
  refine atEach_iff_atEach (LoopState.Kept R) (fun _ _ h hok => h.step hok) hstart fun s event h => ?_
  constructor
  · intro hnone hfails
    exact h.lost hfails hnone
  · intro hok
    exact (h.step hok).noneLost

/-- The store fails while a settlement request is handled, and the request is gone. -/
theorem failed_settlement_is_lost :
    ¬ AtEach (LoopState.step Runtime.sequential) (.start .init)
      [.publish "SETTLEMENT_REQUESTED" (.settlementRequested "trip" "alice" Dict.empty), .consume,
        .handle (some .getExpensesForGroup)]
      (fun s event => NoneLost (s.step Runtime.sequential event)) := by
  intro h
  have hnone := h [.publish "SETTLEMENT_REQUESTED" (.settlementRequested "trip" "alice" Dict.empty),
    .consume] (.handle (some .getExpensesForGroup)) [] rfl
  obtain ⟨hkept, -⟩ := hnone
  rcases hkept _ false List.mem_cons_self with hm | hm | hm
  · cases List.mem_singleton.mp hm
  · cases hm
  · cases hm

end ExpenseSettlement
