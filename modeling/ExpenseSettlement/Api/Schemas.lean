import Mathlib.Algebra.Order.Field.Rat
import ExpenseSettlement.Database.Store

/-!
# Response bodies (`api/schemas/schemas.py`) and `_fmt_expense`

Amounts in responses that are floats in the source are exact here, and one beyond the range of a float
still cannot be formatted.
-/

namespace ExpenseSettlement

/-- One dict of `splits_input`, over the numbers that percentages are. -/
structure SplitInput (α : Type) where
  userId : String
  amountCents : Option ℤ
  percentage : Option α
deriving DecidableEq

structure ExpenseResponse where
  id : String
  groupId : String
  payerId : String
  title : String
  totalCents : ℤ
  totalDollars : ℚ
  splitType : String
  status : String
  splits : List Split
  idempotencyKey : Option String
  journalId : Option String
  createdAt : String
deriving DecidableEq

/-- From here on an integer, or a quotient of integers, does not fit a float. -/
def floatLimit : ℤ := 2 ^ 1024 - 2 ^ 970

/-- The dollars are divided before the schema validates the cents, which it declares as a float. -/
def fmtExpense (R : Runtime) (e : ExpenseRecord) : Except PyError ExpenseResponse :=
  if 100 * floatLimit ≤ |e.totalCents| then
    .error .overflowError
  else if floatLimit ≤ |e.totalCents| then
    .error .validationError
  else
    .ok
      { id := e.id
        groupId := e.groupId
        payerId := e.payerId
        title := e.title
        totalCents := e.totalCents
        totalDollars := (e.totalCents : ℚ) / 100
        splitType := e.splitType
        status := e.status
        splits := e.splits
        idempotencyKey := e.idempotencyKey
        journalId := e.journalId
        createdAt := R.isoformat e.createdAt }

/-- The body of `POST /groups/{group_id}/expenses`, as the schema lets it pass. -/
structure CreateExpenseRequest where
  payerId : String
  title : String
  totalCents : ℤ
  splitType : String
  splits : Option (List (SplitInput Float))
  idempotencyKey : Option String
deriving DecidableEq

structure BalanceEntry where
  userId : String
  netCents : ℤ
  netDollars : ℚ
  role : String
deriving DecidableEq

structure GroupBalancesResponse where
  groupId : String
  memberBalances : List BalanceEntry
  totalCreditors : Nat
  totalDebtors : Nat
  isSettled : Bool
  cached : Bool
deriving DecidableEq

structure SettlementItem where
  payerId : String
  payeeId : String
  amountCents : ℤ
  amountDollars : ℚ
deriving DecidableEq

structure SimplifyResponse where
  groupId : String
  settlements : List SettlementItem
  originalTransactionCount : ℤ
  simplifiedTransactionCount : ℤ
  reductionRatioPct : ℚ
  algorithm : String
  checksum : String
deriving DecidableEq

structure SettleResponse where
  groupId : String
  status : String
  message : String
  settlements : List SettlementItem
  checksum : String
deriving DecidableEq

end ExpenseSettlement
