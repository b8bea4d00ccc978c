import ExpenseSettlement.Api.Lemmas.Isolation
import ExpenseSettlement.Process.Process
import ExpenseSettlement.Worker.Lemmas.Failing

/-!
# What reaches the outbox

A step of the routes or of the worker appends at most one event to the outbox, and does nothing else
there.
-/

namespace ExpenseSettlement

open Lib

variable {R : Runtime} {w w' : World}

/-- At most one event is appended, when the draws have got as far as `d`. -/
inductive Emits (R : Runtime) (w w' : World) : Prop
  | nothing (draws : w.draws.uuids ≤ w'.draws.uuids) (outbox : w'.outbox = w.outbox)
  | event {d : Draws} {eventType aggregateId : String} {payload : EventPayload}
      (draws : w.draws.uuids ≤ d.uuids)
      (appended : (w'.draws, w'.outbox) = (w.outbox.append R eventType aggregateId payload d).2)

namespace Emits

theorem withCache (w : World) (cache : InMemoryCache CacheValue) : Emits R w { w with cache } :=
  .nothing (Nat.le_refl _) rfl

theorem of_quiet (h : Quiet R w w') : Emits R w w' := .nothing h.draws h.outbox

theorem createExpense (req : CreateExpense) (w : World) : Emits R w (createExpense R req w).2 := by
  rcases createExpense_cases R req w with ⟨e, w', he, hr⟩ | ⟨splits, ha, he⟩
  · rw [he]
    exact of_quiet (.of_rejects hr)
  · rw [he]
    have hfrom : w.draws.uuids < w.expenseIndex R req splits := draws_lt_expenseIndex
    have hto : w.expenseIndex R req splits < (w.accept R req splits).draws.uuids := accept_draws_ge
    have hdrawn : (w.accept R req splits).draws.uuids = (w.storing R req splits).2.1.uuids + 1 := rfl
    exact .event (d := (w.storing R req splits).2.1) (by omega) rfl

theorem settleGroup (groupId requestedBy : String) (w : World) :
    Emits R w (settleGroup R groupId requestedBy w).2 := by
  rw [ExpenseSettlement.settleGroup]
  cases w.store.groups.get? groupId with
  | none => exact .nothing (Nat.le_refl _) rfl
  | some group => exact .event (Nat.le_refl _) rfl

theorem client (call : ClientCall) (w : World) : Emits R w (call.exec R w) := by
  cases call with
  | createUser name email => exact of_quiet (GroupService.createUser_quiet name email w)
  | createGroup name => exact of_quiet (GroupService.createGroup_quiet name w)
  | addMember groupId userId => exact of_quiet (GroupService.addMember_quiet groupId userId w)
  | settle groupId requestedBy => exact settleGroup groupId requestedBy w

theorem handle {groupId : String} {fails : Option HandlerCall} {ok : Bool}
    (h : HandleStep R groupId w fails ok w') : Emits R w w' := by
  cases h with
  | nothing | unread | unsummed => exact .nothing (Nat.le_refl _) rfl
  | posted h => exact .nothing h.draws rfl
  | saved h => exact .nothing h.draws rfl
  | completed h => exact .event h.draws rfl

theorem dispatch (hh : HeadsEncode R w.workerLedger.accountHeads) (fails : Option HandlerCall)
    (msg : Message EventPayload) : Emits R w (LoopState.dispatch R fails msg w).2 := by
  rw [LoopState.dispatch]
  split
  · obtain ⟨outcome, w', he, hstep⟩ := handleSettlementFailing_step hh fails msg.payload.groupId
    rw [he]
    exact handle hstep
  · exact .nothing (Nat.le_refl _) rfl

theorem advance {ι : Type} [DecidableEq ι] {p : PostExpense} (s : RouteState ι) (i : ι) (now now' : ℚ) :
    Emits R s.world (s.advance R p i now now').world := by
  rcases advance_world (R := R) (p := p) s i now now' with he | ⟨cache, he, -⟩
  · rw [he]
    exact createExpense p.args s.world
  · rw [he]
    exact withCache s.world cache

theorem balances (groupId : String) (now now' now'' : ℚ) (w : World) :
    Emits R w (getBalances R groupId now now' now'' w).2 := by
  obtain ⟨cache, he, -⟩ := getBalances_world (R := R) groupId now now' now'' w
  rw [he]
  exact withCache w cache

end Emits

theorem dispatch_headsEncode (hh : HeadsEncode R w.workerLedger.accountHeads) (fails : Option HandlerCall)
    (msg : Message EventPayload) :
    HeadsEncode R (LoopState.dispatch R fails msg w).2.workerLedger.accountHeads := by
  rw [LoopState.dispatch]
  split
  · obtain ⟨outcome, w', he, hstep⟩ := handleSettlementFailing_step hh fails msg.payload.groupId
    rw [he]
    exact hstep.encoded hh
  · exact hh

end ExpenseSettlement
