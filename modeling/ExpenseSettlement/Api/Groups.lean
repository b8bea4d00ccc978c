import ExpenseSettlement.Api.Balances

/-!
# The simplify and settle routes (`api/routes/groups.py`)

Neither suspends, so each request is one step.
-/

namespace ExpenseSettlement

inductive GroupOutcome (β : Type)
  | success (body : β)
  | notFound (detail : String)
  | crashed
deriving DecidableEq

/-! ## `simplify_debts` -/

def settlementItems : List Settlement → Except PyError (List SettlementItem)
  | [] => .ok []
  | s :: rest =>
      if |s.amountCents| < 100 * floatLimit then
        match settlementItems rest with
        | .error e => .error e
        | .ok items =>
            .ok ({ payerId := s.payerId
                   payeeId := s.payeeId
                   amountCents := s.amountCents
                   amountDollars := (s.amountCents : ℚ) / 100 } :: items)
      else
        .error .overflowError

def simplifyDebts (R : Runtime) (groupId : String) (w : World) : GroupOutcome SimplifyResponse :=
  match w.store.groups.get? groupId with
  | none => .notFound s!"Group {R.repr groupId} not found."
  | some _ =>
      match getSimplifiedDebts R groupId w with
      | .error _ => .crashed
      | .ok result =>
          match settlementItems result.settlements with
          | .error _ => .crashed
          | .ok items =>
              .success
                { groupId
                  settlements := items
                  originalTransactionCount := result.originalTransactionCount
                  simplifiedTransactionCount := result.simplifiedTransactionCount
                  reductionRatioPct := result.reductionRatio * 100
                  algorithm := result.algorithmComplexity
                  checksum := result.checksum }

/-! ## `settle_group` -/

/-- The request is appended to the outbox, and nothing else is done. -/
def settleGroup (R : Runtime) (groupId requestedBy : String) (w : World) :
    GroupOutcome SettleResponse × World :=
  match w.store.groups.get? groupId with
  | none => (.notFound s!"Group {R.repr groupId} not found.", w)
  | some _ =>
      let (_, draws, outbox) := w.outbox.append R EventType.settlementRequested.value groupId
        (.settlementRequested groupId requestedBy (getGroupNetBalances groupId w)) w.draws
      (.success
        { groupId
          status := "QUEUED"
          message := "Settlement request queued. Worker will process asynchronously."
          settlements := []
          checksum := "" }, { w with draws, outbox })

end ExpenseSettlement
