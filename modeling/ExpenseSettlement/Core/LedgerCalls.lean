import ExpenseSettlement.Core.LedgerEngine
import ExpenseSettlement.Lib.Run

/-!
# Runs of a ledger engine

The calls that the rest of the program makes on an engine, one after the other.
-/

namespace ExpenseSettlement

open LedgerEngine

inductive LedgerCall
  | expense (payerId : String) (splits : List Split) (description : String)
  | settlement (payerId payeeId : String) (amountCents : ℤ) (description : String)

structure LedgerState where
  draws : Draws
  engine : LedgerEngine

def LedgerState.init (d : Draws) : LedgerState := ⟨d, LedgerEngine.init⟩

/-- An entry of the amount on the user's wallet can be hashed. -/
structure Split.Hashable (R : Runtime) (s : Split) : Prop where
  user : R.encodes s.userId = true
  amount : Printable s.amountCents

instance Split.decidableHashable (R : Runtime) (s : Split) : Decidable (s.Hashable R) :=
  decidable_of_iff (R.encodes s.userId = true ∧ Printable s.amountCents)
    ⟨fun h => ⟨h.1, h.2⟩, fun h => ⟨h.user, h.amount⟩⟩

namespace LedgerCall

def exec (R : Runtime) (d : Draws) (L : LedgerEngine) :
    LedgerCall → Except PyError Journal × Draws × LedgerEngine
  | .expense payerId splits description => postExpenseJournal R payerId splits description d L
  | .settlement payerId payeeId amountCents description =>
      postSettlementJournal R payerId payeeId amountCents description d L

/-- The entries the call asks `post_journal` for. -/
def specs (R : Runtime) (d : Draws) : LedgerCall → List EntrySpec
  | .expense payerId splits description =>
      expenseSpecs (expenseClearing (R.uuid4 d.uuids)) payerId splits description
  | .settlement payerId payeeId amountCents _ =>
      settlementSpecs (settlementClearing (R.uuid4 d.uuids)) payerId payeeId amountCents

def description : LedgerCall → String
  | .expense _ _ description => description
  | .settlement _ _ _ description => description

theorem exec_eq (R : Runtime) (d : Draws) (L : LedgerEngine) (c : LedgerCall) :
    c.exec R d L = postJournal R (c.specs R d) c.description { d with uuids := d.uuids + 1 } L := by
  cases c <;> rfl

/-- The amounts pass the check of `post_journal`. -/
def Positive : LedgerCall → Prop
  | .expense payerId splits _ => ∀ s ∈ splits, s.userId ≠ payerId → 1 ≤ s.amountCents
  | .settlement _ _ amountCents _ => 1 ≤ amountCents

/-- What the first entry puts on a wallet. -/
def first? : LedgerCall → Option Split
  | .expense payerId splits _ => splits.find? (·.userId ≠ payerId)
  | .settlement payerId _ amountCents _ => some ⟨payerId, amountCents⟩

/-- Every entry can be hashed. -/
def Hashable (R : Runtime) : LedgerCall → Prop
  | .expense payerId splits _ =>
      (∀ s ∈ splits, s.userId ≠ payerId → s.Hashable R) ∧
      ((∃ s ∈ splits, s.userId ≠ payerId) → Split.Hashable R ⟨payerId, othersTotal payerId splits⟩)
  | .settlement payerId payeeId amountCents _ =>
      Split.Hashable R ⟨payerId, amountCents⟩ ∧ Split.Hashable R ⟨payeeId, amountCents⟩

instance decidablePositive : (c : LedgerCall) → Decidable c.Positive
  | .expense payerId splits _ =>
      inferInstanceAs (Decidable (∀ s ∈ splits, s.userId ≠ payerId → 1 ≤ s.amountCents))
  | .settlement _ _ amountCents _ => inferInstanceAs (Decidable (1 ≤ amountCents))

instance decidableHashable (R : Runtime) : (c : LedgerCall) → Decidable (c.Hashable R)
  | .expense payerId splits _ =>
      inferInstanceAs (Decidable ((∀ s ∈ splits, s.userId ≠ payerId → s.Hashable R) ∧
        ((∃ s ∈ splits, s.userId ≠ payerId) → Split.Hashable R ⟨payerId, othersTotal payerId splits⟩)))
  | .settlement payerId payeeId amountCents _ =>
      inferInstanceAs (Decidable
        (Split.Hashable R ⟨payerId, amountCents⟩ ∧ Split.Hashable R ⟨payeeId, amountCents⟩))

/-- The call does not break off between two entries. -/
def Guarded (R : Runtime) (c : LedgerCall) : Prop :=
  ¬ c.Positive ∨ (∃ s ∈ c.first?, ¬ s.Hashable R) ∨ c.Hashable R

def result (R : Runtime) (s : LedgerState) (c : LedgerCall) : Except PyError Journal :=
  (c.exec R s.draws s.engine).1

end LedgerCall

/-- The state a call leaves, whether it returns or raises. -/
def LedgerState.step (R : Runtime) (s : LedgerState) (c : LedgerCall) : LedgerState :=
  let r := c.exec R s.draws s.engine
  ⟨r.2.1, r.2.2⟩

/-- The journals that the calls of a run return, in the order of the calls. -/
def LedgerState.returned (R : Runtime) : LedgerState → List LedgerCall → List Journal
  | _, [] => []
  | s, c :: calls =>
      match c.result R s with
      | .ok journal => journal :: returned R (s.step R c) calls
      | .error _ => returned R (s.step R c) calls

def AllPosted (R : Runtime) (s : LedgerState) (calls : List LedgerCall) : Prop :=
  Lib.AtEach (LedgerState.step R) s calls fun s c => ∃ j, c.result R s = .ok j

/-! ## Plain journals -/

/-- A call of `post_journal` with any entries. -/
structure JournalCall where
  specs : List EntrySpec
  description : String

namespace JournalCall

def exec (R : Runtime) (s : LedgerState) (c : JournalCall) :
    Except PyError Journal × Draws × LedgerEngine :=
  postJournal R c.specs c.description s.draws s.engine

end JournalCall

def LedgerState.journalStep (R : Runtime) (s : LedgerState) (c : JournalCall) : LedgerState :=
  let r := c.exec R s
  ⟨r.2.1, r.2.2⟩

/-! ## All posts -/

/-- A call of any of the methods that post a journal. -/
inductive Post
  | journal (c : JournalCall)
  | call (c : LedgerCall)

def Post.exec (R : Runtime) (s : LedgerState) : Post → Except PyError Journal × Draws × LedgerEngine
  | .journal c => c.exec R s
  | .call c => c.exec R s.draws s.engine

def LedgerState.postStep (R : Runtime) (s : LedgerState) (p : Post) : LedgerState :=
  let r := p.exec R s
  ⟨r.2.1, r.2.2⟩

/-- Every post of the run returns. -/
def AllReturn (R : Runtime) (s : LedgerState) (posts : List Post) : Prop :=
  Lib.AtEach (LedgerState.postStep R) s posts fun s p => ∃ j, (p.exec R s).1 = .ok j

end ExpenseSettlement
