import Mathlib.Data.List.Sort
import Mathlib.Algebra.BigOperators.Group.List.Basic
import ExpenseSettlement.Lib.Dict
import ExpenseSettlement.Core.Runtime

/-!
# The double-entry ledger engine (`core/ledger_engine.py`)

An engine is its three fields. A method returns its result together with the state it leaves, also
when it raises.
-/

namespace ExpenseSettlement

open Lib

inductive AccountType
  | userWallet
  | expenseClearing
  | settlementClearing
  | incomeControl
deriving DecidableEq, Repr

inductive EntryType
  | debit
  | credit
deriving DecidableEq, Repr

def EntryType.value : EntryType → String
  | .debit => "DEBIT"
  | .credit => "CREDIT"

structure LedgerEntry where
  entryId : String
  journalId : String
  accountId : String
  accountType : AccountType
  entryType : EntryType
  amountCents : ℤ
  description : String
  createdAt : ℚ
  prevHash : String
  entryHash : String
deriving DecidableEq

/-- One dict of `entries_spec`. -/
structure EntrySpec where
  accountId : String
  accountType : AccountType
  entryType : EntryType
  amountCents : ℤ
  description : Option String
deriving DecidableEq

def sumOf (t : EntryType) (entries : List LedgerEntry) : ℤ :=
  ((entries.filter (·.entryType = t)).map (·.amountCents)).sum

structure Journal where
  journalId : String
  entries : List LedgerEntry
  description : String
  createdAt : ℚ
deriving DecidableEq

namespace Journal

def isBalanced (j : Journal) : Bool := sumOf .debit j.entries = sumOf .credit j.entries

def assertBalanced (j : Journal) : Except PyError Unit :=
  if j.isBalanced then
    .ok ()
  else
    let debits := sumOf .debit j.entries
    let credits := sumOf .credit j.entries
    match strInt debits, strInt credits, strInt (debits - credits) with
    | .ok debits, .ok credits, .ok diff =>
        .error (.ledgerImbalanceError
          s!"Journal {j.journalId} is NOT balanced: debits={debits} credits={credits} diff={diff}")
    | .error e, _, _ => .error e
    | _, .error e, _ => .error e
    | _, _, .error e => .error e

end Journal

structure LedgerEngine where
  entries : List LedgerEntry
  accountHeads : Dict String String
  journals : Dict String Journal
deriving DecidableEq

/-- `"0" * 64` -/
def genesisHash : String := String.ofList (List.replicate 64 '0')

namespace LedgerEngine

def init : LedgerEngine := ⟨[], Dict.empty, Dict.empty⟩

/-! ## Posting -/

/-- The seven hashed fields, joined by `"|"`. -/
def payload (R : Runtime) (entryId journalId accountId : String) (entryType : EntryType)
    (amountCents : ℤ) (createdAt : ℚ) (prevHash : String) : Except PyError String :=
  match strInt amountCents with
  | .error e => .error e
  | .ok amount =>
      .ok (entryId ++ "|" ++ journalId ++ "|" ++ accountId ++ "|" ++ entryType.value ++ "|" ++
        amount ++ "|" ++ R.strFloat createdAt ++ "|" ++ prevHash)

def makeHash (R : Runtime) (entryId journalId accountId : String) (entryType : EntryType)
    (amountCents : ℤ) (createdAt : ℚ) (prevHash : String) : Except PyError String :=
  match payload R entryId journalId accountId entryType amountCents createdAt prevHash with
  | .error e => .error e
  | .ok text => R.hexdigest text

def makeEntry (R : Runtime) (journalId description : String) (now : ℚ) (spec : EntrySpec)
    (entryId : String) (heads : Dict String String) : Except PyError LedgerEntry :=
  let prevH := heads.getD spec.accountId genesisHash
  match makeHash R entryId journalId spec.accountId spec.entryType spec.amountCents now prevH with
  | .error e => .error e
  | .ok eHash =>
      .ok
        { entryId, journalId
          accountId := spec.accountId
          accountType := spec.accountType
          entryType := spec.entryType
          amountCents := spec.amountCents
          description := spec.description.getD description
          createdAt := now
          prevHash := prevH
          entryHash := eHash }

/-- The loop of `post_journal`, with the ids drawn from `n` on. The heads move on with every entry, and
an entry that cannot be hashed leaves those that the entries before it have moved. -/
def makeEntries (R : Runtime) (journalId description : String) (now : ℚ) :
    List EntrySpec → Nat → Dict String String → Except PyError (List LedgerEntry) × Nat × Dict String String
  | [], n, heads => (.ok [], n, heads)
  | spec :: specs, n, heads =>
      match makeEntry R journalId description now spec (R.uuid4 n) heads with
      | .error e => (.error e, n + 1, heads)
      | .ok entry =>
          match makeEntries R journalId description now specs (n + 1)
              (heads.set spec.accountId entry.entryHash) with
          | (.error e, n', heads') => (.error e, n', heads')
          | (.ok entries, n', heads') => (.ok (entry :: entries), n', heads')

def postJournal (R : Runtime) (specs : List EntrySpec) (description : String) (d : Draws)
    (L : LedgerEngine) : Except PyError Journal × Draws × LedgerEngine :=
  match specs.find? (·.amountCents < 1) with
  | some spec =>
      (.error (valueErrorOn spec.amountCents fun amount =>
        s!"Ledger entry amount must be >= 1 cent, got {amount}"), d, L)
  | none =>
      let journalId := R.uuid4 d.uuids
      let now := R.time d.times
      match makeEntries R journalId description now specs (d.uuids + 1) L.accountHeads with
      | (.error e, uuids, heads) => (.error e, ⟨uuids, d.times + 1⟩, { L with accountHeads := heads })
      | (.ok entries, uuids, heads) =>
          let journal : Journal := ⟨journalId, entries, description, now⟩
          -- the heads are already written when the balance is checked
          match journal.assertBalanced with
          | .error e => (.error e, ⟨uuids, d.times + 1⟩, { L with accountHeads := heads })
          | .ok () =>
              (.ok journal, ⟨uuids, d.times + 1⟩,
                { entries := L.entries ++ entries
                  accountHeads := heads
                  journals := L.journals.set journalId journal })

/-! ## Account ids -/

def userWallet (userId : String) : String := "USER_WALLET:" ++ userId

def expenseClearing (id : String) : String := "EXPENSE_CLEARING:" ++ id

def settlementClearing (id : String) : String := "SETTLEMENT_CLEARING:" ++ id

/-! ## Expense and settlement journals -/

/-- The two entries of each split that is not the payer's own. -/
def debtorSpecs (clearingId payerId description : String) : List Split → List EntrySpec
  | [] => []
  | split :: splits =>
      if split.userId = payerId then
        debtorSpecs clearingId payerId description splits
      else
        ⟨userWallet split.userId, .userWallet, .debit, split.amountCents, some s!"Owes {description}"⟩ ::
        ⟨clearingId, .expenseClearing, .credit, split.amountCents, some s!"Expense clearing: {description}"⟩ ::
        debtorSpecs clearingId payerId description splits

/-- The `total` that the loop of `post_expense_journal` adds up. -/
def othersTotal (payerId : String) : List Split → ℤ
  | [] => 0
  | split :: splits =>
      if split.userId = payerId then othersTotal payerId splits
      else split.amountCents + othersTotal payerId splits

def expenseSpecs (clearingId payerId : String) (splits : List Split) (description : String) :
    List EntrySpec :=
  let total := othersTotal payerId splits
  debtorSpecs clearingId payerId description splits ++
    if total > 0 then
      [⟨clearingId, .expenseClearing, .debit, total, some s!"Close clearing: {description}"⟩,
       ⟨userWallet payerId, .userWallet, .credit, total, some s!"Paid for: {description}"⟩]
    else []

def postExpenseJournal (R : Runtime) (payerId : String) (splits : List Split) (description : String)
    (d : Draws) (L : LedgerEngine) : Except PyError Journal × Draws × LedgerEngine :=
  let clearingId := expenseClearing (R.uuid4 d.uuids)
  postJournal R (expenseSpecs clearingId payerId splits description) description
    { d with uuids := d.uuids + 1 } L

def settlementSpecs (clearingId payerId payeeId : String) (amountCents : ℤ) : List EntrySpec :=
  [⟨userWallet payerId, .userWallet, .debit, amountCents, some s!"Settlement payment to {payeeId}"⟩,
   ⟨clearingId, .settlementClearing, .credit, amountCents, some "Settlement clearing"⟩,
   ⟨clearingId, .settlementClearing, .debit, amountCents, some "Settlement clearing close"⟩,
   ⟨userWallet payeeId, .userWallet, .credit, amountCents, some s!"Settlement received from {payerId}"⟩]

def postSettlementJournal (R : Runtime) (payerId payeeId : String) (amountCents : ℤ)
    (description : String) (d : Draws) (L : LedgerEngine) :
    Except PyError Journal × Draws × LedgerEngine :=
  let clearingId := settlementClearing (R.uuid4 d.uuids)
  postJournal R (settlementSpecs clearingId payerId payeeId amountCents) description
    { d with uuids := d.uuids + 1 } L

/-! ## Verification and reports -/

/-- `by_account.setdefault(entry.account_id, []).append(entry)` over all entries. -/
def byAccount (entries : List LedgerEntry) : Dict String (List LedgerEntry) :=
  entries.foldl (fun d e => d.set e.accountId (d.getD e.accountId [] ++ [e])) Dict.empty

/-- The errors that one account's entries give, starting from the hash `prevHash`. -/
def chainErrors (R : Runtime) (accId : String) : String → List LedgerEntry → Except PyError (List String)
  | _, [] => .ok []
  | prevHash, entry :: rest =>
      match makeHash R entry.entryId entry.journalId entry.accountId entry.entryType entry.amountCents
          entry.createdAt entry.prevHash with
      | .error e => .error e
      | .ok expected =>
          match chainErrors R accId entry.entryHash rest with
          | .error e => .error e
          | .ok errors =>
              .ok ((if entry.prevHash ≠ prevHash then
                  [s!"Chain broken at entry {entry.entryId} on account {accId}: " ++
                    s!"expected prev_hash={R.repr prevHash}, got {R.repr entry.prevHash}"]
                else []) ++
                (if expected ≠ entry.entryHash then
                  [s!"Hash mismatch at entry {entry.entryId}: tamper detected!"]
                else []) ++
                errors)

/-- `entries.sort(key=lambda e: e.created_at)`, a stable sort. -/
def sortByCreatedAt (entries : List LedgerEntry) : List LedgerEntry :=
  entries.insertionSort (·.createdAt ≤ ·.createdAt)

/-- The errors of all accounts, one account after the other. -/
def accountErrors (R : Runtime) : List (String × List LedgerEntry) → Except PyError (List String)
  | [] => .ok []
  | (accId, entries) :: rest =>
      match chainErrors R accId genesisHash (sortByCreatedAt entries) with
      | .error e => .error e
      | .ok errors =>
          match accountErrors R rest with
          | .error e => .error e
          | .ok errors' => .ok (errors ++ errors')

def verifyChainIntegrity (R : Runtime) (L : LedgerEngine) : Except PyError (Bool × List String) :=
  match accountErrors R (byAccount L.entries).items with
  | .error e => .error e
  | .ok errors => .ok (errors.length = 0, errors)

def getAccountBalance (L : LedgerEngine) (accountId : String) : ℤ :=
  L.entries.foldl
    (fun balance e =>
      if e.accountId ≠ accountId then balance
      else if e.entryType = .credit then balance + e.amountCents
      else balance - e.amountCents) 0

structure AuditReport where
  totalEntries : Nat
  totalJournals : Nat
  totalDebitsCents : ℤ
  totalCreditsCents : ℤ
  isBalanced : Bool
  chainIntegrityOk : Bool
  chainErrors : List String

def auditReport (R : Runtime) (L : LedgerEngine) : Except PyError AuditReport :=
  let totalDebits := sumOf .debit L.entries
  let totalCredits := sumOf .credit L.entries
  match verifyChainIntegrity R L with
  | .error e => .error e
  | .ok (ok, errs) =>
      .ok
        { totalEntries := L.entries.length
          totalJournals := L.journals.items.length
          totalDebitsCents := totalDebits
          totalCreditsCents := totalCredits
          isBalanced := totalDebits = totalCredits
          chainIntegrityOk := ok
          chainErrors := errs }

end LedgerEngine

end ExpenseSettlement
