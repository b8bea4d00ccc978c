import ExpenseSettlement.Services.ExpenseService

/-!
# The settlement handler (`worker/worker.py`)
-/

namespace ExpenseSettlement

open DebtSimplifier

structure SettleLoop where
  draws : Draws
  ledger : LedgerEngine
  records : List SettlementRecord
  totalSettled : ℤ

def settlementAlgorithm : String := "MaxHeap-O(NlogN)"

/-- The loop of `_handle_settlement`: one journal and one executed record for each settlement. -/
def settleLoop (R : Runtime) (groupId checksum : String) :
    List Settlement → SettleLoop → Except PyError Unit × SettleLoop
  | [], acc => (.ok (), acc)
  | s :: rest, acc =>
      match acc.ledger.postSettlementJournal R s.payerId s.payeeId s.amountCents
          s!"Settlement: {s.payerId} -> {s.payeeId}" acc.draws with
      | (.error e, d, L) => (.error e, { acc with draws := d, ledger := L })
      | (.ok _, d, L) =>
          let record : SettlementRecord :=
            { id := R.uuid4 d.uuids, groupId
              payerId := s.payerId
              payeeId := s.payeeId
              amountCents := s.amountCents
              isExecuted := true
              algorithm := settlementAlgorithm
              checksum
              executedAt := some (R.time d.times) }
          settleLoop R groupId checksum rest
            { draws := ⟨d.uuids + 1, d.times + 1⟩
              ledger := L
              records := acc.records ++ [record]
              totalSettled := acc.totalSettled + s.amountCents }

/-! ## The handler -/

/-- The calls of the handler that may raise without having done anything. -/
inductive HandlerCall
  | getExpensesForGroup
  | saveSettlements
  | deleteBalances
  | deleteDebts
  | appendEvent
deriving DecidableEq

inductive HandlerError
  | python (error : PyError)
  | failed (call : HandlerCall)
deriving DecidableEq

/-- `_handle_settlement` for a message whose payload names the group. The call `fails`, if it is made. -/
def handleSettlementFailing (R : Runtime) (fails : Option HandlerCall) (groupId : String) (w : World) :
    Except HandlerError Unit × World :=
  if groupId = "" then
    (.ok (), w)
  else if fails = some .getExpensesForGroup then
    (.error (.failed .getExpensesForGroup), w)
  else
    let expenses := w.store.getExpensesForGroup groupId
    if expenses = [] then
      (.ok (), w)
    else
      let netBalances := computeNetBalances (transactionsOf expenses)
      match simplify R netBalances expenses.length with
      | .error (.zeroSumViolationError _) => (.ok (), w)
      | .error e => (.error (.python e), w)
      | .ok result =>
          match settleLoop R groupId result.checksum result.settlements
              ⟨w.draws, w.workerLedger, [], 0⟩ with
          | (.error e, acc) =>
              (.error (.python e), { w with draws := acc.draws, workerLedger := acc.ledger })
          | (.ok (), acc) =>
              let posted := { w with draws := acc.draws, workerLedger := acc.ledger }
              if fails = some .saveSettlements then (.error (.failed .saveSettlements), posted) else
              let saved := { posted with store := w.store.saveSettlements acc.records }
              if fails = some .deleteBalances then (.error (.failed .deleteBalances), saved) else
              let cache := (w.cache.delete s!"group:{groupId}:balances").2
              if fails = some .deleteDebts then
                (.error (.failed .deleteDebts), { saved with cache })
              else
              let cache := (cache.delete s!"group:{groupId}:debts").2
              if fails = some .appendEvent then
                (.error (.failed .appendEvent), { saved with cache })
              else
              let (_, d, outbox) := w.outbox.append R EventType.settlementCompleted.value groupId
                (.settlementCompleted groupId result.settlements.length acc.totalSettled
                  settlementAlgorithm result.reductionRatio result.checksum) acc.draws
              (.ok (), { saved with draws := d, outbox, cache })

/-- `_handle_settlement` where none of these calls fails. -/
def handleSettlement (R : Runtime) (groupId : String) (w : World) : Except HandlerError Unit × World :=
  handleSettlementFailing R none groupId w

end ExpenseSettlement
