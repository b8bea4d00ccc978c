import ExpenseSettlement.Worker.Lemmas.Settle

/-!
# How far a request gets

A request that raises has done nothing, or it has posted its journals, or it has saved its records as
well. Only a request that is handled to completion is reported.
-/

namespace ExpenseSettlement

open Lib LedgerEngine DebtSimplifier

variable {R : Runtime} {groupId : String} {w : World}

/-- The plan that the request of a group with expenses is handled by, and the loop over it. -/
structure Planned (R : Runtime) (groupId : String) (w : World) (result : DebtSimplifierResult)
    (acc : SettleLoop) : Prop where
  named : groupId ≠ ""
  expenses : w.store.getExpensesForGroup groupId ≠ []
  checksummable : Checksummable R (getGroupNetBalances groupId w)
  simplified : simplify R (getGroupNetBalances groupId w) (w.store.getExpensesForGroup groupId).length =
    .ok result
  plan : result.settlements = settle (getGroupNetBalances groupId w)
  checksum : checksum R (settle (getGroupNetBalances groupId w)) = .ok result.checksum
  paid : run (SettleLoop.pay R groupId result.checksum) ⟨w.draws, w.workerLedger, [], 0⟩ result.settlements =
    acc
  draws : w.draws.uuids ≤ acc.draws.uuids
  records : PlanRecords R groupId (settle (getGroupNetBalances groupId w)) w.draws.uuids
    acc.draws.uuids acc.records

/-- What has been deleted from the cache when the handler makes the call. -/
def HandlerCall.cacheBefore (groupId : String) (cache : InMemoryCache CacheValue) :
    HandlerCall → InMemoryCache CacheValue
  | .getExpensesForGroup | .saveSettlements | .deleteBalances => cache
  | .deleteDebts => (cache.delete s!"group:{groupId}:balances").2
  | .appendEvent => ((cache.delete s!"group:{groupId}:balances").2.delete s!"group:{groupId}:debts").2

namespace World

def posted (acc : SettleLoop) (w : World) : World :=
  { w with draws := acc.draws, workerLedger := acc.ledger }

def saved (groupId : String) (acc : SettleLoop) (call : HandlerCall) (w : World) : World :=
  { w.posted acc with
    store := w.store.saveSettlements acc.records
    cache := call.cacheBefore groupId w.cache }

end World

/-- The group has expenses, and the plan of its balances has no checksum. -/
structure Unsummed (R : Runtime) (groupId : String) (w : World) : Prop where
  named : groupId ≠ ""
  expenses : w.store.getExpensesForGroup groupId ≠ []
  unsummed : ¬ Checksummable R (getGroupNetBalances groupId w)

/-- What the handler does to the world, and whether it returns. -/
inductive HandleStep (R : Runtime) (groupId : String) (w : World) : Option HandlerCall → Bool → World → Prop
  | nothing {fails : Option HandlerCall} (h : groupId = "" ∨ w.store.getExpensesForGroup groupId = []) :
      HandleStep R groupId w fails true w
  | unread (hg : groupId ≠ "") : HandleStep R groupId w (some .getExpensesForGroup) false w
  | unsummed {fails : Option HandlerCall} (h : Unsummed R groupId w) : HandleStep R groupId w fails false w
  | posted {result : DebtSimplifierResult} {acc : SettleLoop} (h : Planned R groupId w result acc) :
      HandleStep R groupId w (some .saveSettlements) false (w.posted acc)
  | saved {result : DebtSimplifierResult} {acc : SettleLoop} {call : HandlerCall}
      (h : Planned R groupId w result acc)
      (hcall : call = .deleteBalances ∨ call = .deleteDebts ∨ call = .appendEvent) :
      HandleStep R groupId w (some call) false (w.saved groupId acc call)
  | completed {result : DebtSimplifierResult} {acc : SettleLoop} (h : Planned R groupId w result acc) :
      HandleStep R groupId w none true (w.settled R groupId result acc)

theorem exists_planned (hg : groupId ≠ "") (hx : w.store.getExpensesForGroup groupId ≠ [])
    (hc : Checksummable R (getGroupNetBalances groupId w)) :
    ∃ result acc, Planned R groupId w result acc := by
  have hz : (getGroupNetBalances groupId w).values.sum = 0 := sum_values_computeNetBalances _
  have hto := simplifiesTo_settle R hz (w.store.getExpensesForGroup groupId).length
  obtain ⟨result, hr, hs⟩ := hto.exists_result hc
  obtain ⟨records, hrecords, hle, hplan⟩ := run_pay_records R groupId result.checksum result.settlements
    ⟨w.draws, w.workerLedger, [], 0⟩
  have hrec : (run (SettleLoop.pay R groupId result.checksum) ⟨w.draws, w.workerLedger, [], 0⟩
    result.settlements).records = records := hrecords
  refine ⟨result, _, hg, hx, hc, hr, hs, hto.checksum result hr, rfl, hle, ?_⟩
  rw [hrec, ← hs]
  exact hplan

namespace Planned

variable {result : DebtSimplifierResult} {acc : SettleLoop}

theorem payable (h : Planned R groupId w result acc) : ∀ s ∈ result.settlements, s.Payable R := by
  rw [h.plan]
  exact settle_payable (sum_values_computeNetBalances _) h.checksummable

theorem loop (h : Planned R groupId w result acc) (hh : HeadsEncode R w.workerLedger.accountHeads) :
    settleLoop R groupId result.checksum result.settlements ⟨w.draws, w.workerLedger, [], 0⟩ =
      (.ok (), acc) := by
  rw [← h.paid]
  exact settleLoop_eq_run R groupId result.checksum h.payable hh

theorem encoded (h : Planned R groupId w result acc) (hh : HeadsEncode R w.workerLedger.accountHeads) :
    HeadsEncode R acc.ledger.accountHeads := by
  rw [← h.paid]
  exact run_pay_headsEncode hh _

theorem executed (h : Planned R groupId w result acc) :
    ∀ r ∈ acc.records, r.isExecuted = true ∧ r.checksum = result.checksum := by
  intro r hr
  rw [← h.paid] at hr
  rcases run_pay_executed rfl r hr with hnone | hr
  · cases hnone
  · exact hr

end Planned

/-- Without a checksum nothing is posted. -/
theorem Unsummed.raises (h : Unsummed R groupId w) (fails : Option HandlerCall)
    (hget : fails ≠ some .getExpensesForGroup) :
    ∃ e, handleSettlementFailing R fails groupId w = (.error (.python e), w) := by
  have hz : (getGroupNetBalances groupId w).values.sum = 0 := sum_values_computeNetBalances _
  rcases checksum_cases R (settle (getGroupNetBalances groupId w)) with ⟨hhash, -⟩ | ⟨-, e, ht, hc⟩
  · exact absurd ((hashable_settle_iff hz).mp hhash) h.unsummed
  · rcases simplify_cases R hz (w.store.getExpensesForGroup groupId).length with
      ⟨_, -, -, hok⟩ | ⟨e', he, hc'⟩
    · rw [hc] at hok
      cases hok
    · obtain rfl := Except.error.inj (hc.symm.trans hc')
      rw [getGroupNetBalances] at he
      refine ⟨e, ?_⟩
      cases e with
      | valueError _ | unicodeEncodeError =>
          simp only [handleSettlementFailing, if_neg h.named, if_neg hget, h.expenses, he, ↓reduceIte]
      | validationError | ledgerImbalanceError _ | zeroSumViolationError _ | keyError _ | overflowError =>
          cases ht

theorem handleSettlementFailing_step (hh : HeadsEncode R w.workerLedger.accountHeads)
    (fails : Option HandlerCall) (groupId : String) :
    ∃ outcome w', handleSettlementFailing R fails groupId w = (outcome, w') ∧
      HandleStep R groupId w fails outcome.toBool w' := by
  by_cases hg : groupId = ""
  · exact ⟨.ok (), w, by simp only [handleSettlementFailing, if_pos hg], .nothing (.inl hg)⟩
  · by_cases hget : fails = some .getExpensesForGroup
    · subst hget
      exact ⟨.error (.failed .getExpensesForGroup), w,
        by simp only [handleSettlementFailing, if_neg hg, ↓reduceIte], .unread hg⟩
    · by_cases hx : w.store.getExpensesForGroup groupId = []
      · exact ⟨.ok (), w, by simp only [handleSettlementFailing, if_neg hg, if_neg hget, hx, ↓reduceIte],
          .nothing (.inr hx)⟩
      · by_cases hc : Checksummable R (getGroupNetBalances groupId w)
        · obtain ⟨result, acc, h⟩ := exists_planned hg hx hc
          have hr := h.simplified
          have hloop := h.loop hh
          rw [getGroupNetBalances] at hr
          cases fails with
          | none =>
              refine ⟨.ok (), _, ?_, .completed h⟩
              simp only [handleSettlementFailing, if_neg hg, hx, hr, hloop, reduceCtorEq, ↓reduceIte]
              rfl
          | some call =>
              cases call with
              | getExpensesForGroup => exact absurd rfl hget
              | saveSettlements =>
                  refine ⟨.error (.failed .saveSettlements), _, ?_, .posted h⟩
                  simp only [handleSettlementFailing, if_neg hg, hx, hr, hloop, Option.some.injEq,
                    reduceCtorEq, ↓reduceIte]
                  rfl
              | deleteBalances =>
                  refine ⟨.error (.failed .deleteBalances), _, ?_, .saved h (.inl rfl)⟩
                  simp only [handleSettlementFailing, if_neg hg, hx, hr, hloop, Option.some.injEq,
                    reduceCtorEq, ↓reduceIte]
                  rfl
              | deleteDebts =>
                  refine ⟨.error (.failed .deleteDebts), _, ?_, .saved h (.inr (.inl rfl))⟩
                  simp only [handleSettlementFailing, if_neg hg, hx, hr, hloop, Option.some.injEq,
                    reduceCtorEq, ↓reduceIte]
                  rfl
              | appendEvent =>
                  refine ⟨.error (.failed .appendEvent), _, ?_, .saved h (.inr (.inr rfl))⟩
                  simp only [handleSettlementFailing, if_neg hg, hx, hr, hloop, Option.some.injEq,
                    reduceCtorEq, ↓reduceIte]
                  rfl
        · have h : Unsummed R groupId w := ⟨hg, hx, hc⟩
          obtain ⟨e, he⟩ := h.raises fails hget
          exact ⟨.error (.python e), w, he, .unsummed h⟩

theorem HandleStep.draws {fails : Option HandlerCall} {ok : Bool} {w' : World}
    (h : HandleStep R groupId w fails ok w') : w.draws.uuids ≤ w'.draws.uuids := by
  cases h with
  | nothing | unread | unsummed => exact Nat.le_refl _
  | posted h | saved h => exact h.draws
  | completed h => exact h.draws.trans (Nat.le_succ _)

theorem HandleStep.encoded {fails : Option HandlerCall} {ok : Bool} {w' : World}
    (h : HandleStep R groupId w fails ok w') (hh : HeadsEncode R w.workerLedger.accountHeads) :
    HeadsEncode R w'.workerLedger.accountHeads := by
  cases h with
  | nothing | unread | unsummed => exact hh
  | posted h | saved h | completed h => exact h.encoded hh

/-- A request for a group without expenses does nothing, and one for a plan without a checksum raises.
For any other group the whole plan of its net balances is saved. -/
theorem handleSettlement_cases (hh : HeadsEncode R w.workerLedger.accountHeads) (groupId : String) :
    ((groupId = "" ∨ w.store.getExpensesForGroup groupId = []) ∧
      handleSettlement R groupId w = (.ok (), w)) ∨
    (Unsummed R groupId w ∧ ∃ e, handleSettlement R groupId w = (.error e, w)) ∨
    ∃ result acc, Planned R groupId w result acc ∧
      handleSettlement R groupId w = (.ok (), w.settled R groupId result acc) := by
  obtain ⟨outcome, w', he, hstep⟩ := handleSettlementFailing_step hh none groupId
  cases outcome with
  | error e =>
      cases hstep with
      | unsummed h => exact .inr (.inl ⟨h, e, he⟩)
  | ok u =>
      cases hstep with
      | nothing h => exact .inl ⟨h, he⟩
      | completed h => exact .inr (.inr ⟨_, _, h, he⟩)

end ExpenseSettlement
