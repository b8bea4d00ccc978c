import Mathlib.Algebra.Order.Field.Rat
import Mathlib.Algebra.Order.Ring.Unbundled.Rat
import ExpenseSettlement.Lib.Binary64
import ExpenseSettlement.System.World

/-!
# The expense service (`services/expense_service.py`)

`create_expense` is wrapped in `occ_retry`, which runs it again only on an optimistic-lock conflict.
Nothing in its body raises one, so the wrapper is the body.
-/

namespace ExpenseSettlement

open Lib

/-! ## Split computation -/

/-- The first members get the remainder, one cent each. -/
def splitEqual (totalCents : ℤ) (userIds : List String) : List Split :=
  let n : ℤ := userIds.length
  let base := totalCents / n
  let remainder := totalCents % n
  userIds.zipIdx.map fun (uid, i) => ⟨uid, base + if (i : ℤ) < remainder then 1 else 0⟩

section Inputs

variable {α : Type}

def exactShares : List (SplitInput α) → Except PyError (List Split)
  | [] => .ok []
  | s :: rest =>
      match s.amountCents with
      | none => .error (.keyError "amount_cents")
      | some amount =>
          match exactShares rest with
          | .error e => .error e
          | .ok splits => .ok (⟨s.userId, amount⟩ :: splits)

def sumAmounts (splits : List Split) : ℤ := (splits.map (·.amountCents)).sum

/-- The error names the sum, the total and their difference, as far as they have texts. -/
def exactSumError (given totalCents : ℤ) : PyError :=
  match strInt given, strInt totalCents with
  | .error e, _ => e
  | .ok _, .error e => e
  | .ok sum, .ok total => valueErrorOn (given - totalCents) fun difference =>
      s!"Exact splits sum ({sum}) != total ({total}). Difference: {difference} cents."

def splitExact (splitsInput : List (SplitInput α)) (totalCents : ℤ) : Except PyError (List Split) :=
  match exactShares splitsInput with
  | .error e => .error e
  | .ok splits =>
      let given := sumAmounts splits
      if given ≠ totalCents then
        .error (exactSumError given totalCents)
      else
        .ok splits

def percentagesOf : List (SplitInput α) → Except PyError (List (String × α))
  | [] => .ok []
  | p :: rest =>
      match p.percentage with
      | none => .error (.keyError "percentage")
      | some q =>
          match percentagesOf rest with
          | .error e => .error e
          | .ok pcts => .ok ((p.userId, q) :: pcts)

/-- What `_split_percentage` does with the numbers that percentages are. -/
class Percentage (α : Type) where
  /-- `sum(percentages)` -/
  sum : List α → α
  /-- `abs(total_pct - 100.0) > 0.01` -/
  missesHundred : α → Bool
  /-- `int(total_cents * percentage / 100)` -/
  share : ℤ → α → Except PyError ℤ
  /-- `str(total_pct)` -/
  text : Runtime → α → String

variable [Percentage α]

/-- The loop of `_split_percentage`: the last share is what is left of the total. -/
def percentShares (totalCents : ℤ) : List (String × α) → ℤ → Except PyError (List Split)
  | [], _ => .ok []
  | [(uid, _)], allocated => .ok [⟨uid, totalCents - allocated⟩]
  | (uid, p) :: q :: rest, allocated =>
      match Percentage.share totalCents p with
      | .error e => .error e
      | .ok amt =>
          match percentShares totalCents (q :: rest) (allocated + amt) with
          | .error e => .error e
          | .ok splits => .ok (⟨uid, amt⟩ :: splits)

def splitPercentage (R : Runtime) (percentages : List (SplitInput α)) (totalCents : ℤ) :
    Except PyError (List Split) :=
  match percentagesOf percentages with
  | .error e => .error e
  | .ok pcts =>
      let totalPct := Percentage.sum (pcts.map Prod.snd)
      if Percentage.missesHundred totalPct then
        .error (.valueError s!"Percentages must sum to 100, got {Percentage.text R totalPct}")
      else
        percentShares totalCents pcts 0

end Inputs

/-! ### Percentages that are floats -/

/-- `int(x)` of a float. -/
def intOfFloat (x : Float) : Except PyError ℤ :=
  match Binary64.value? x with
  | some v => .ok (truncate v)
  | none =>
      if x.isNaN then .error (.valueError "cannot convert float NaN to integer")
      else .error .overflowError

/-- `str(x)` of a float. -/
def Runtime.strOfFloat (R : Runtime) (x : Float) : String :=
  match Binary64.value? x with
  | some v => R.strFloat v
  | none => if x.isNaN then "nan" else if x > 0.0 then "inf" else "-inf"

/-- `total_cents * percentage / 100` -/
def floatShare (totalCents : ℤ) (p : Float) : Float := Binary64.ofInt totalCents * p / 100.0

instance : Percentage Float where
  sum := Binary64.sum
  missesHundred := fun totalPct => (totalPct - 100.0).abs > 0.01
  share := fun totalCents p =>
    if floatLimit ≤ |totalCents| then .error .overflowError else intOfFloat (floatShare totalCents p)
  text := Runtime.strOfFloat

/-! ### Percentages that are exact -/

def percentShare (totalCents : ℤ) (p : ℚ) : ℤ := truncate (totalCents * p / 100)

instance : Percentage ℚ where
  sum := List.sum
  missesHundred := fun totalPct => |totalPct - 100| > 1 / 100
  share := fun totalCents p => .ok (percentShare totalCents p)
  text := Runtime.strFloat

/-! ## `create_expense` -/

structure CreateExpense where
  groupId : String
  payerId : String
  title : String
  totalCents : ℤ
  splitType : String
  splitsInput : Option (List (SplitInput Float))
  idempotencyKey : Option String
deriving DecidableEq

def computeSplits (R : Runtime) (req : CreateExpense) (memberIds : List String) :
    Except PyError (List Split) :=
  if req.splitType = "EQUAL" then
    .ok (splitEqual req.totalCents memberIds)
  else if req.splitType = "EXACT" then
    match req.splitsInput with
    | none | some [] => .error (.valueError "EXACT split requires splits_input.")
    | some (s :: rest) => splitExact (s :: rest) req.totalCents
  else if req.splitType = "PERCENTAGE" then
    match req.splitsInput with
    | none | some [] => .error (.valueError "PERCENTAGE split requires splits_input.")
    | some (s :: rest) => splitPercentage R (s :: rest) req.totalCents
  else
    .error (.valueError s!"Unknown split_type: {R.repr req.splitType}")

/-- The checks before the posting, and the splits. -/
def validate (R : Runtime) (req : CreateExpense) (S : InMemoryStore) : Except PyError (List Split) :=
  if req.totalCents < 1 then
    .error (valueErrorOn req.totalCents fun total => s!"Expense total must be >= 1 cent, got {total}.")
  else
    match S.groups.get? req.groupId with
    | none => .error (.valueError s!"Group {R.repr req.groupId} not found.")
    | some group =>
        if group.memberIds = [] then
          .error (.valueError s!"Group {R.repr req.groupId} has no members.")
        else if req.payerId ∉ group.memberIds then
          .error (.valueError
            s!"Payer {R.repr req.payerId} is not a member of group {R.repr req.groupId}.")
        else
          computeSplits R req group.memberIds

def createExpense (R : Runtime) (req : CreateExpense) (w : World) :
    Except PyError ExpenseRecord × World :=
  match validate R req w.store with
  | .error e => (.error e, w)
  | .ok splits =>
      match w.serviceLedger.postExpenseJournal R req.payerId splits req.title w.draws with
      | (.error e, d, L) => (.error e, { w with draws := d, serviceLedger := L })
      | (.ok journal, d, L) =>
          let (stored, d, S) := w.store.createExpense R req.groupId req.payerId req.title
            req.totalCents req.splitType splits req.idempotencyKey d
          -- the record is the stored object itself, so the assignment reaches the store
          let expense := { stored with journalId := some journal.journalId }
          let S := { S with expenses := S.expenses.set expense.id expense }
          let (_, d, outbox) := w.outbox.append R EventType.expenseCreated.value expense.id
            (.expenseCreated expense.id req.groupId req.payerId req.totalCents req.title splits
              req.idempotencyKey) d
          (.ok expense, { w with draws := d, store := S, serviceLedger := L, outbox })

/-! ## Balances -/

def transactionsOf (expenses : List ExpenseRecord) : List Transaction :=
  expenses.map fun e => ⟨e.payerId, e.splits⟩

def getGroupNetBalances (groupId : String) (w : World) : Dict String ℤ :=
  DebtSimplifier.computeNetBalances (transactionsOf (w.store.getExpensesForGroup groupId))

def getSimplifiedDebts (R : Runtime) (groupId : String) (w : World) :
    Except PyError DebtSimplifierResult :=
  let net := getGroupNetBalances groupId w
  let expenses := w.store.getExpensesForGroup groupId
  let pairwiseCount := (expenses.map fun e => max 0 ((e.splits.length : ℤ) - 1)).sum
  DebtSimplifier.simplify R net (max pairwiseCount expenses.length)

end ExpenseSettlement
