import Mathlib.Data.Prod.Lex
import Mathlib.Data.Nat.Size
import Mathlib.Data.String.Basic
import Mathlib.Algebra.BigOperators.Group.List.Basic
import Mathlib.Algebra.Order.Field.Rat
import ExpenseSettlement.Lib.Dict
import ExpenseSettlement.Lib.Heap
import ExpenseSettlement.Lib.Loop
import ExpenseSettlement.Core.Runtime

/-!
# The debt simplifier (`core/debt_simplifier.py`)

Heap items are the tuples `(-amount, user_id)` of the source in their tuple order, so the smallest
item is the largest amount and ties go to the smaller user id.
-/

namespace ExpenseSettlement

open Lib

structure Settlement where
  payerId : String
  payeeId : String
  amountCents : ℤ
deriving DecidableEq, Repr

structure DebtSimplifierResult where
  settlements : List Settlement
  originalTransactionCount : ℤ
  simplifiedTransactionCount : ℤ
  reductionRatio : ℚ
  algorithmComplexity : String
  checksum : String
deriving DecidableEq

/-- One dict `{payer_id, splits}` of the transactions. -/
structure Transaction where
  payerId : String
  splits : List Split
deriving DecidableEq, Repr

namespace DebtSimplifier

/-! ## The matching loop -/

abbrev HeapItem := ℤ ×ₗ String

def buildHeaps (items : List (String × ℤ)) : Heap HeapItem × Heap HeapItem :=
  items.foldl
    (fun (creditors, debtors) (uid, net) =>
      if net > 0 then (creditors.push (toLex (-net, uid)), debtors)
      else if net < 0 then (creditors, debtors.push (toLex (net, uid)))
      else (creditors, debtors))
    (Heap.empty, Heap.empty)

structure MatchState where
  creditors : Heap HeapItem
  debtors : Heap HeapItem
  settlements : List Settlement

def pushResidual (h : Heap HeapItem) (residual : ℤ) (uid : String) : Heap HeapItem :=
  if residual > 0 then h.push (toLex (-residual, uid)) else h

/-- The loop body, with the largest creditor and debtor popped. -/
def matchPair (s : MatchState) (c : HeapItem) (creditors : Heap HeapItem) (d : HeapItem)
    (debtors : Heap HeapItem) : MatchState :=
  let creditorId := (ofLex c).2
  let debtorId := (ofLex d).2
  let creditAmount := -(ofLex c).1
  let debtAmount := -(ofLex d).1
  let settled := min creditAmount debtAmount
  if settled < 1 then
    { s with creditors, debtors }
  else
    { creditors := pushResidual creditors (creditAmount - settled) creditorId
      debtors := pushResidual debtors (debtAmount - settled) debtorId
      settlements := s.settlements ++ [⟨debtorId, creditorId, settled⟩] }

/-- One iteration of `while creditors and debtors`. -/
def matchStep (s : MatchState) : Option MatchState :=
  match s.creditors.pop?, s.debtors.pop? with
  | some (c, creditors), some (d, debtors) => some (matchPair s c creditors d debtors)
  | _, _ => none

def MatchState.size (s : MatchState) : Nat := s.creditors.length + s.debtors.length

theorem matchStep_eq_some {s s' : MatchState} (h : matchStep s = some s') :
    ∃ c creditors d debtors, s.creditors.pop? = some (c, creditors) ∧
      s.debtors.pop? = some (d, debtors) ∧ s' = matchPair s c creditors d debtors := by
  unfold matchStep at h
  split at h
  · rename_i c creditors d debtors hc hd
    exact ⟨c, creditors, d, debtors, hc, hd, (Option.some.inj h).symm⟩
  · cases h

theorem length_pushResidual (h : Heap HeapItem) (residual : ℤ) (uid : String) :
    (pushResidual h residual uid).length = h.length + if residual > 0 then 1 else 0 := by
  unfold pushResidual
  split <;> simp

/-- The smaller of the two amounts leaves nothing, so at most one item is pushed back. -/
theorem matchStep_size_lt {s s' : MatchState} (h : matchStep s = some s') : s'.size < s.size := by
  obtain ⟨c, creditors, d, debtors, hc, hd, rfl⟩ := matchStep_eq_some h
  unfold MatchState.size
  rw [Heap.pop?_length hc, Heap.pop?_length hd]
  unfold matchPair
  dsimp only
  split
  · dsimp only; omega
  · dsimp only
    rw [length_pushResidual, length_pushResidual]
    split <;> split <;> omega

def matching : Loop MatchState where
  step := matchStep
  size := MatchState.size
  size_lt := matchStep_size_lt

def initialState (netBalances : Dict String ℤ) : MatchState :=
  let (creditors, debtors) := buildHeaps netBalances.items
  ⟨creditors, debtors, []⟩

def settle (netBalances : Dict String ℤ) : List Settlement :=
  (matching.run (initialState netBalances)).settlements

/-! ## `simplify` -/

/-- The text of each settlement, up to the first that has none. -/
def recordTexts : List Settlement → Except PyError (List String)
  | [] => .ok []
  | s :: rest =>
      match strInt s.amountCents with
      | .error e => .error e
      | .ok amount =>
          match recordTexts rest with
          | .error e => .error e
          | .ok texts => .ok (s!"{s.payerId}:{s.payeeId}:{amount}" :: texts)

def checksumInput (settlements : List Settlement) : Except PyError String :=
  match recordTexts (settlements.insertionSort fun a b =>
      toLex (a.payerId, a.payeeId) ≤ toLex (b.payerId, b.payeeId)) with
  | .error e => .error e
  | .ok texts => .ok (String.intercalate "|" texts)

def checksum (R : Runtime) (settlements : List Settlement) : Except PyError String :=
  match checksumInput settlements with
  | .error e => .error e
  | .ok text => R.hexdigest text

/-- `simplify`, less the timing of the run. -/
def simplify (R : Runtime) (netBalances : Dict String ℤ) (originalTxCount : ℤ) :
    Except PyError DebtSimplifierResult :=
  let total := netBalances.values.sum
  if total ≠ 0 then
    match strInt total with
    | .error e => .error e
    | .ok text =>
        .error (.zeroSumViolationError
          s!"Net balances do not sum to zero: sum={text} cents. Money conservation violated.")
  else
    let settlements := settle netBalances
    match checksum R settlements with
    | .error e => .error e
    | .ok checksum =>
        let n := netBalances.items.length
        let orig : ℤ := if originalTxCount > 0 then originalTxCount else max 1 ((n : ℤ) * (n - 1) / 2)
        let simplified : ℤ := settlements.length
        .ok
          { settlements
            originalTransactionCount := orig
            simplifiedTransactionCount := simplified
            reductionRatio := if orig > 0 then 1 - (simplified : ℚ) / orig else 0
            algorithmComplexity := s!"O({n} log {n}) = O({n * n.size})"
            checksum }

/-! ## `compute_net_balances` -/

def addSplit (payer : String) (balances : Dict String ℤ) (split : Split) : Dict String ℤ :=
  let balances := (balances.setdefault payer 0).setdefault split.userId 0
  if split.userId = payer then
    balances
  else
    let balances := balances.set payer (balances.getD payer 0 + split.amountCents)
    balances.set split.userId (balances.getD split.userId 0 - split.amountCents)

def computeNetBalances (transactions : List Transaction) : Dict String ℤ :=
  transactions.foldl (fun balances tx => tx.splits.foldl (addSplit tx.payerId) balances) Dict.empty

end DebtSimplifier

/-! ## What a plan moves -/

def received (u : String) (settlements : List Settlement) : ℤ :=
  (settlements.map fun s => if s.payeeId = u then s.amountCents else 0).sum

def paid (u : String) (settlements : List Settlement) : ℤ :=
  (settlements.map fun s => if s.payerId = u then s.amountCents else 0).sum

end ExpenseSettlement
