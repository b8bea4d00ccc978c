import ExpenseSettlement.Lib.Text
import ExpenseSettlement.Core.LedgerCalls
import ExpenseSettlement.Core.Lemmas.NetBalances
import ExpenseSettlement.Core.Lemmas.Posting

/-!
# The books of expense and settlement journals

Whenever their amounts pass the check of `post_journal`, the entries of an expense or settlement
journal balance, clear the clearing account, and move money between wallets only.
-/

namespace ExpenseSettlement.LedgerEngine

open Lib

/-! ## Account ids -/

theorem userWallet_inj {u v : String} : userWallet u = userWallet v ↔ u = v := by
  simp [userWallet]

theorem userWallet_ne_expenseClearing (u id : String) : userWallet u ≠ expenseClearing id :=
  append_ne_of_head (c := 'U') (d := 'E') (by decide) (by decide) (by decide) u id

theorem userWallet_ne_settlementClearing (u id : String) : userWallet u ≠ settlementClearing id :=
  append_ne_of_head (c := 'U') (d := 'S') (by decide) (by decide) (by decide) u id

theorem settlementClearing_ne_expenseClearing (id id' : String) :
    settlementClearing id ≠ expenseClearing id' :=
  append_ne_of_head (c := 'S') (d := 'E') (by decide) (by decide) (by decide) id id'

/-- A clearing account of some expense or settlement. -/
def IsClearing (a : String) : Prop := ∃ id, a = expenseClearing id ∨ a = settlementClearing id

theorem IsClearing.ne_userWallet {a : String} (h : IsClearing a) (u : String) : userWallet u ≠ a := by
  obtain ⟨id, rfl | rfl⟩ := h
  · exact userWallet_ne_expenseClearing u id
  · exact userWallet_ne_settlementClearing u id

def specBooks (specs : List EntrySpec) : List (Posting String) := specs.map (·.posting)

@[simp] theorem specBooks_cons (spec : EntrySpec) (specs : List EntrySpec) :
    specBooks (spec :: specs) = spec.posting :: specBooks specs := rfl

@[simp] theorem specBooks_append (specs specs' : List EntrySpec) :
    specBooks (specs ++ specs') = specBooks specs ++ specBooks specs' := List.map_append

/-! ## The debtors' entries -/

section Debtors

variable {clearingId payerId description : String}

theorem total_debtorSpecs (side : Side) (splits : List Split) :
    total side (specBooks (debtorSpecs clearingId payerId description splits)) =
      othersTotal payerId splits := by
  induction splits with
  | nil => rfl
  | cons split splits ih =>
      by_cases h : split.userId = payerId
      · simp only [debtorSpecs, othersTotal, h, ↓reduceIte, ih]
      · simp only [debtorSpecs, othersTotal, h, ↓reduceIte]
        rw [specBooks_cons, specBooks_cons, total_cons, total_cons, ih]
        cases side <;> simp [EntrySpec.posting, EntryType.side]

theorem balance_clearing_debtorSpecs {a : String} (ha : ∀ u, userWallet u ≠ a) (splits : List Split) :
    balance a (specBooks (debtorSpecs clearingId payerId description splits)) =
      if clearingId = a then othersTotal payerId splits else 0 := by
  induction splits with
  | nil => simp [debtorSpecs, specBooks, othersTotal]
  | cons split splits ih =>
      by_cases h : split.userId = payerId
      · simp only [debtorSpecs, othersTotal, h, ↓reduceIte, ih]
      · simp only [debtorSpecs, othersTotal, h, ↓reduceIte]
        rw [specBooks_cons, specBooks_cons, balance_cons, balance_cons, ih]
        by_cases hc : clearingId = a <;>
          simp [EntrySpec.posting, EntryType.side, Posting.signed, ha, hc]

theorem balance_wallet_debtorSpecs (hc : ∀ u, userWallet u ≠ clearingId) (u : String)
    (splits : List Split) :
    balance (userWallet u) (specBooks (debtorSpecs clearingId payerId description splits)) =
      if payerId = u then 0 else -shareOf u splits := by
  induction splits with
  | nil => simp [debtorSpecs, specBooks, shareOf]
  | cons split splits ih =>
      by_cases h : split.userId = payerId
      · simp only [debtorSpecs, h, ↓reduceIte, ih]
        by_cases hu : payerId = u
        · simp [hu]
        · simp [shareOf, h, hu]
      · simp only [debtorSpecs, h, ↓reduceIte]
        rw [specBooks_cons, specBooks_cons, balance_cons, balance_cons, ih]
        have hcu : clearingId ≠ userWallet u := fun e => hc u e.symm
        by_cases hu : payerId = u
        · have hs : split.userId ≠ u := fun e => h (e.trans hu.symm)
          simp [EntrySpec.posting, userWallet_inj, hcu, hu, hs]
        · by_cases hs : split.userId = u
          · simp [EntrySpec.posting, EntryType.side, Posting.signed, hcu, hu, hs, shareOf]; ring
          · simp [EntrySpec.posting, userWallet_inj, hcu, hu, hs, shareOf]

theorem othersTotal_nonneg {splits : List Split}
    (h : Positive (debtorSpecs clearingId payerId description splits)) :
    0 ≤ othersTotal payerId splits := by
  induction splits with
  | nil => exact Int.le_refl 0
  | cons split splits ih =>
      by_cases hp : split.userId = payerId
      · simp only [debtorSpecs, othersTotal, hp, ↓reduceIte] at h ⊢
        exact ih h
      · simp only [debtorSpecs, othersTotal, hp, ↓reduceIte] at h ⊢
        have h1 : 1 ≤ split.amountCents := h _ List.mem_cons_self
        have h2 := ih fun spec hs => h spec (by simp [hs])
        omega

/-- The ledger checks the shares of everybody but the payer. -/
theorem positive_debtorSpecs_iff {splits : List Split} :
    Positive (debtorSpecs clearingId payerId description splits) ↔
      ∀ s ∈ splits, s.userId ≠ payerId → 1 ≤ s.amountCents := by
  induction splits with
  | nil => simp [debtorSpecs, Positive]
  | cons split splits ih =>
      rw [List.forall_mem_cons, ← ih]
      by_cases hp : split.userId = payerId
      · simp only [debtorSpecs, hp, ↓reduceIte, ne_eq, not_true_eq_false, false_implies, true_and]
      · simp only [debtorSpecs, hp, ↓reduceIte, Positive, List.forall_mem_cons, ne_eq,
          not_false_eq_true, true_implies]
        exact ⟨fun h => ⟨h.1, h.2.2⟩, fun h => ⟨h.1, h.1, h.2⟩⟩

theorem debtorSpecs_account {splits : List Split} {spec : EntrySpec}
    (h : spec ∈ debtorSpecs clearingId payerId description splits) :
    spec.accountId = clearingId ∨ ∃ u, spec.accountId = userWallet u := by
  induction splits with
  | nil => simp [debtorSpecs] at h
  | cons split splits ih =>
      by_cases hp : split.userId = payerId
      · simp only [debtorSpecs, hp, ↓reduceIte] at h
        exact ih h
      · simp only [debtorSpecs, hp, ↓reduceIte, List.mem_cons] at h
        rcases h with rfl | rfl | h
        · exact Or.inr ⟨_, rfl⟩
        · exact Or.inl rfl
        · exact ih h

end Debtors

/-! ## The closing entries -/

/-- The entries that close the clearing account and credit the payer. -/
def closingSpecs (clearingId payerId description : String) (amount : ℤ) : List EntrySpec :=
  if amount > 0 then
    [⟨clearingId, .expenseClearing, .debit, amount, some s!"Close clearing: {description}"⟩,
     ⟨userWallet payerId, .userWallet, .credit, amount, some s!"Paid for: {description}"⟩]
  else []

theorem expenseSpecs_eq (clearingId payerId description : String) (splits : List Split) :
    expenseSpecs clearingId payerId splits description =
      debtorSpecs clearingId payerId description splits ++
        closingSpecs clearingId payerId description (othersTotal payerId splits) := rfl

theorem total_closingSpecs (side : Side) (clearingId payerId description : String) {amount : ℤ}
    (h : 0 ≤ amount) :
    total side (specBooks (closingSpecs clearingId payerId description amount)) = amount := by
  unfold closingSpecs
  split
  · cases side <;> simp [specBooks, total, EntrySpec.posting, EntryType.side]
  · simp only [specBooks, List.map_nil, total_nil]; omega

theorem balance_closingSpecs (a clearingId payerId description : String) {amount : ℤ}
    (h : 0 ≤ amount) :
    balance a (specBooks (closingSpecs clearingId payerId description amount)) =
      (if userWallet payerId = a then amount else 0) - (if clearingId = a then amount else 0) := by
  unfold closingSpecs
  split
  · simp only [specBooks, List.map_cons, List.map_nil, balance_cons, balance_nil, EntrySpec.posting,
      EntryType.side, Posting.signed]
    by_cases hw : userWallet payerId = a <;> by_cases hc : clearingId = a <;> simp [hw, hc]
  · have : amount = 0 := by omega
    simp [specBooks, this]

/-! ## Expense journals -/

section Expense

variable {id payerId description : String} {splits : List Split}

theorem Positive.debtorSpecs {clearingId : String}
    (h : Positive (expenseSpecs clearingId payerId splits description)) :
    Positive (debtorSpecs clearingId payerId description splits) :=
  fun spec hs => h spec (List.mem_append_left _ hs)

/-- The closing entries come only with a total of at least one cent. -/
theorem positive_expenseSpecs_iff {clearingId : String} :
    Positive (expenseSpecs clearingId payerId splits description) ↔
      ∀ s ∈ splits, s.userId ≠ payerId → 1 ≤ s.amountCents := by
  rw [← @positive_debtorSpecs_iff clearingId payerId description]
  constructor
  · exact Positive.debtorSpecs
  · intro h spec hs
    rw [expenseSpecs_eq, closingSpecs] at hs
    rcases List.mem_append.mp hs with hs | hs
    · exact h spec hs
    · split at hs
      · rename_i hpos
        simp only [List.mem_cons, List.not_mem_nil, or_false] at hs
        rcases hs with rfl | rfl <;> exact hpos
      · cases hs

theorem expenseSpecs_account {clearingId : String} {spec : EntrySpec}
    (h : spec ∈ expenseSpecs clearingId payerId splits description) :
    spec.accountId = clearingId ∨ ∃ u, spec.accountId = userWallet u := by
  rcases List.mem_append.mp h with h | h
  · exact debtorSpecs_account h
  · split at h
    · simp only [List.mem_cons, List.not_mem_nil, or_false] at h
      rcases h with rfl | rfl
      · exact .inl rfl
      · exact .inr ⟨_, rfl⟩
    · cases h

theorem othersTotal_nonneg_of_expenseSpecs {clearingId : String}
    (h : Positive (expenseSpecs clearingId payerId splits description)) :
    0 ≤ othersTotal payerId splits :=
  othersTotal_nonneg h.debtorSpecs

theorem expenseSpecs_balanced {clearingId : String}
    (h : Positive (expenseSpecs clearingId payerId splits description)) :
    InBalance (specBooks (expenseSpecs clearingId payerId splits description)) := by
  have h0 := othersTotal_nonneg_of_expenseSpecs h
  rw [InBalance, expenseSpecs_eq, specBooks_append, total_append, total_append, total_debtorSpecs,
    total_debtorSpecs, total_closingSpecs _ _ _ _ h0, total_closingSpecs _ _ _ _ h0]

theorem balance_clearing_expenseSpecs {clearingId a : String} (ha : IsClearing a)
    (h : Positive (expenseSpecs clearingId payerId splits description)) :
    balance a (specBooks (expenseSpecs clearingId payerId splits description)) = 0 := by
  have h0 := othersTotal_nonneg_of_expenseSpecs h
  rw [expenseSpecs_eq, specBooks_append, balance_append, balance_clearing_debtorSpecs ha.ne_userWallet,
    balance_closingSpecs _ _ _ _ h0, if_neg (ha.ne_userWallet _)]
  ring

theorem balance_wallet_expenseSpecs (u : String)
    (h : Positive (expenseSpecs (expenseClearing id) payerId splits description)) :
    balance (userWallet u) (specBooks (expenseSpecs (expenseClearing id) payerId splits description)) =
      netOf u ⟨payerId, splits⟩ := by
  have h0 := othersTotal_nonneg_of_expenseSpecs h
  rw [expenseSpecs_eq, specBooks_append, balance_append,
    balance_wallet_debtorSpecs (fun v => userWallet_ne_expenseClearing v id),
    balance_closingSpecs _ _ _ _ h0, if_neg (userWallet_ne_expenseClearing u id).symm]
  unfold netOf
  by_cases hu : payerId = u
  · subst hu; simp
  · simp [userWallet_inj, hu]

end Expense

/-! ## Settlement journals -/

section Settlement

variable {id payerId payeeId : String} {amountCents : ℤ}

theorem settlementSpecs_positive_iff {clearingId : String} :
    Positive (settlementSpecs clearingId payerId payeeId amountCents) ↔ 1 ≤ amountCents := by
  simp [Positive, settlementSpecs]

theorem settlementSpecs_balanced (clearingId payerId payeeId : String) (amountCents : ℤ) :
    InBalance (specBooks (settlementSpecs clearingId payerId payeeId amountCents)) := by
  simp [InBalance, specBooks, settlementSpecs, total, EntrySpec.posting, EntryType.side]

theorem balance_clearing_settlementSpecs {clearingId a : String} (ha : IsClearing a) :
    balance a (specBooks (settlementSpecs clearingId payerId payeeId amountCents)) = 0 := by
  have hw := ha.ne_userWallet
  simp only [specBooks, settlementSpecs, List.map_cons, List.map_nil, balance_cons, balance_nil,
    EntrySpec.posting, EntryType.side, Posting.signed, hw, ↓reduceIte]
  by_cases hc : clearingId = a <;> simp [hc]

theorem balance_wallet_settlementSpecs (u : String) :
    balance (userWallet u)
        (specBooks (settlementSpecs (settlementClearing id) payerId payeeId amountCents)) =
      (if payeeId = u then amountCents else 0) - (if payerId = u then amountCents else 0) := by
  have hc := (userWallet_ne_settlementClearing u id).symm
  simp only [specBooks, settlementSpecs, List.map_cons, List.map_nil, balance_cons, balance_nil,
    EntrySpec.posting, EntryType.side, Posting.signed, hc, userWallet_inj, ↓reduceIte]
  by_cases hr : payeeId = u <;> by_cases hp : payerId = u <;> simp [hr, hp]

end Settlement

end LedgerEngine

open Lib LedgerEngine

/-! ## Calls -/

namespace LedgerCall

variable {R : Runtime} {d : Draws} {c : LedgerCall}

theorem specs_balanced (h : LedgerEngine.Positive (c.specs R d)) : InBalance (specBooks (c.specs R d)) := by
  cases c with
  | expense payerId splits description => exact expenseSpecs_balanced h
  | settlement payerId payeeId amountCents description => exact settlementSpecs_balanced _ _ _ _

theorem specs_cleared {a : String} (ha : IsClearing a) (h : LedgerEngine.Positive (c.specs R d)) :
    balance a (specBooks (c.specs R d)) = 0 := by
  cases c with
  | expense payerId splits description => exact balance_clearing_expenseSpecs ha h
  | settlement payerId payeeId amountCents description => exact balance_clearing_settlementSpecs ha

theorem specs_account {spec : EntrySpec} (h : spec ∈ c.specs R d) :
    IsClearing spec.accountId ∨ ∃ u, spec.accountId = userWallet u := by
  cases c with
  | expense payerId splits description =>
      exact (expenseSpecs_account h).imp (fun ha => ⟨_, Or.inl ha⟩) id
  | settlement payerId payeeId amountCents description =>
      simp only [specs, settlementSpecs, List.mem_cons, List.not_mem_nil, or_false] at h
      rcases h with rfl | rfl | rfl | rfl
      · exact Or.inr ⟨_, rfl⟩
      · exact Or.inl ⟨_, Or.inr rfl⟩
      · exact Or.inl ⟨_, Or.inr rfl⟩
      · exact Or.inr ⟨_, rfl⟩

def walletDelta (u : String) : LedgerCall → ℤ
  | .expense payerId splits _ => netOf u ⟨payerId, splits⟩
  | .settlement payerId payeeId amountCents _ =>
      (if payeeId = u then amountCents else 0) - (if payerId = u then amountCents else 0)

theorem specs_wallet (u : String) (h : LedgerEngine.Positive (c.specs R d)) :
    balance (userWallet u) (specBooks (c.specs R d)) = c.walletDelta u := by
  cases c with
  | expense payerId splits description => exact balance_wallet_expenseSpecs u h
  | settlement payerId payeeId amountCents description => exact balance_wallet_settlementSpecs u

/-! ### What a call hashes -/

theorem encodes_userWallet_iff {u : String} : R.encodes (userWallet u) = true ↔ R.encodes u = true := by
  have hprefix : R.encodes "USER_WALLET:" = true := R.encodes_ascii _ (by decide)
  rw [userWallet, Runtime.encodes_append_iff, hprefix, eq_self_iff_true, true_and]

theorem encodes_expenseClearing (n : Nat) : R.encodes (expenseClearing (R.uuid4 n)) = true :=
  Runtime.encodes_append_iff.mpr ⟨R.encodes_ascii _ (by decide), R.encodes_uuid4 n⟩

theorem encodes_settlementClearing (n : Nat) : R.encodes (settlementClearing (R.uuid4 n)) = true :=
  Runtime.encodes_append_iff.mpr ⟨R.encodes_ascii _ (by decide), R.encodes_uuid4 n⟩

theorem wallet_hashable_iff {u : String} {accountType : AccountType} {entryType : EntryType} {amount : ℤ}
    {description : Option String} :
    EntrySpec.Hashable R ⟨userWallet u, accountType, entryType, amount, description⟩ ↔
      Split.Hashable R ⟨u, amount⟩ :=
  ⟨fun h => ⟨encodes_userWallet_iff.mp h.account, h.amount⟩,
    fun h => ⟨encodes_userWallet_iff.mpr h.user, h.amount⟩⟩

/-- An entry of a clearing account can be hashed as soon as its amount can. -/
theorem clearing_hashable_iff {a : String} (ha : R.encodes a = true) {accountType : AccountType}
    {entryType : EntryType} {amount : ℤ} {description : Option String} :
    EntrySpec.Hashable R ⟨a, accountType, entryType, amount, description⟩ ↔ Printable amount :=
  ⟨fun h => h.amount, fun h => ⟨ha, h⟩⟩

theorem debtorSpecs_hashable_iff {clearingId payerId description : String}
    (hc : R.encodes clearingId = true) {splits : List Split} :
    (∀ spec ∈ debtorSpecs clearingId payerId description splits, spec.Hashable R) ↔
      ∀ s ∈ splits, s.userId ≠ payerId → s.Hashable R := by
  induction splits with
  | nil => simp [debtorSpecs]
  | cons split splits ih =>
      by_cases h : split.userId = payerId
      · simp only [debtorSpecs, h, ↓reduceIte, ih, List.forall_mem_cons, ne_eq, not_true_eq_false,
          false_implies, true_and]
      · simp only [debtorSpecs, h, ↓reduceIte, List.forall_mem_cons, ih, ne_eq, not_false_eq_true,
          true_implies, wallet_hashable_iff, clearing_hashable_iff hc]
        exact ⟨fun hs => ⟨hs.1, hs.2.2⟩, fun hs => ⟨hs.1, hs.1.amount, hs.2⟩⟩

theorem head?_debtorSpecs (clearingId payerId description : String) (splits : List Split) :
    (debtorSpecs clearingId payerId description splits).head? =
      (splits.find? (·.userId ≠ payerId)).map fun s =>
        ⟨userWallet s.userId, .userWallet, .debit, s.amountCents, some s!"Owes {description}"⟩ := by
  induction splits with
  | nil => rfl
  | cons split splits ih =>
      by_cases h : split.userId = payerId
      · simpa [debtorSpecs, h] using ih
      · simp [debtorSpecs, h]

theorem othersTotal_pos {payerId : String} {splits : List Split}
    (h : ∀ s ∈ splits, s.userId ≠ payerId → 1 ≤ s.amountCents) :
    0 < othersTotal payerId splits ↔ ∃ s ∈ splits, s.userId ≠ payerId := by
  induction splits with
  | nil => simp [othersTotal]
  | cons split splits ih =>
      rw [List.forall_mem_cons] at h
      have hrest := ih h.2
      by_cases hp : split.userId = payerId
      · simp [othersTotal, hp, hrest]
      · have h1 := h.1 hp
        have h0 := othersTotal_nonneg ((@positive_debtorSpecs_iff "" payerId "" splits).mpr h.2)
        simp only [othersTotal, hp, ↓reduceIte]
        exact ⟨fun _ => ⟨split, List.mem_cons_self, hp⟩, fun _ => by omega⟩

theorem specs_hashable_iff (hp : c.Positive) :
    (∀ spec ∈ c.specs R d, spec.Hashable R) ↔ c.Hashable R := by
  cases c with
  | expense payerId splits description =>
      have hc : R.encodes (expenseClearing (R.uuid4 d.uuids)) = true := encodes_expenseClearing _
      rw [specs, expenseSpecs_eq, List.forall_mem_append, debtorSpecs_hashable_iff hc, closingSpecs]
      apply and_congr_right'
      rw [← othersTotal_pos hp]
      split
      · rename_i hpos
        simp only [List.forall_mem_cons, List.not_mem_nil, false_implies, implies_true, and_true,
          wallet_hashable_iff, clearing_hashable_iff hc]
        exact ⟨fun h _ => h.2, fun h => ⟨(h hpos).amount, h hpos⟩⟩
      · rename_i hpos
        simp [hpos]
  | settlement payerId payeeId amountCents description =>
      have hc : R.encodes (settlementClearing (R.uuid4 d.uuids)) = true := encodes_settlementClearing _
      simp only [specs, settlementSpecs, List.forall_mem_cons, List.not_mem_nil, false_implies,
        implies_true, and_true, wallet_hashable_iff, clearing_hashable_iff hc, Hashable]
      exact ⟨fun h => ⟨h.1, h.2.2.2⟩, fun h => ⟨h.1, h.1.amount, h.1.amount, h.2⟩⟩

/-- The first entry is the first one on a wallet. -/
theorem specs_head_hashable_iff (hp : c.Positive) :
    (∃ spec ∈ (c.specs R d).head?, ¬ spec.Hashable R) ↔ ∃ s ∈ c.first?, ¬ s.Hashable R := by
  cases c with
  | expense payerId splits description =>
      have hhead : (specs R d (.expense payerId splits description)).head? =
          (debtorSpecs (expenseClearing (R.uuid4 d.uuids)) payerId description splits).head? := by
        rw [specs, expenseSpecs_eq, closingSpecs]
        split
        · rename_i hpos
          obtain ⟨s, hs, hne⟩ := (othersTotal_pos hp).mp hpos
          rw [List.head?_append, head?_debtorSpecs]
          cases hf : splits.find? (·.userId ≠ payerId) with
          | none => exact absurd (decide_eq_true hne) (List.find?_eq_none.mp hf s hs)
          | some t => rfl
        · rw [List.append_nil]
      rw [hhead, head?_debtorSpecs, first?]
      cases splits.find? (·.userId ≠ payerId) with
      | none => simp
      | some s => simp [wallet_hashable_iff]
  | settlement payerId payeeId amountCents description =>
      simp [specs, settlementSpecs, first?, wallet_hashable_iff]

/-! ### Outcomes -/

theorem specs_positive_iff : LedgerEngine.Positive (c.specs R d) ↔ c.Positive := by
  cases c with
  | expense payerId splits description => exact positive_expenseSpecs_iff
  | settlement payerId payeeId amountCents description => exact settlementSpecs_positive_iff

/-- A call is rejected for an amount below one cent and changes nothing, or it breaks off at an entry
that cannot be hashed, or it is committed. It never finds an imbalance. -/
theorem exec_cases (R : Runtime) (d : Draws) (L : LedgerEngine) (c : LedgerCall) :
    let d' : Draws := { d with uuids := d.uuids + 1 }
    (¬ c.Positive ∧ ∃ message, c.exec R d L = (.error (.valueError message), d', L)) ∨
    (c.Positive ∧ ∃ e pre spec post, IsTextError e ∧ c.specs R d = pre ++ spec :: post ∧
      BreaksOffAt R pre spec c.description d' L ∧
      c.exec R d L = (.error e, drawn (pre ++ [spec]) d',
        { L with accountHeads := newHeads R pre c.description d' L })) ∨
    (c.Positive ∧ Hashed R (c.specs R d) c.description d' L ∧ c.exec R d L =
      (.ok (newJournal R (c.specs R d) c.description d' L), drawn (c.specs R d) d',
        commit R (c.specs R d) c.description d' L)) := by
  intro d'
  rw [exec_eq, ← @specs_positive_iff R d c]
  rcases postJournal_cases R (c.specs R d) c.description d' L with h | h | ⟨hp, -, hn, -⟩ | ⟨hp, hs, -, he⟩
  · exact .inl h
  · exact .inr (.inl h)
  · exact absurd (specs_balanced hp) hn
  · exact .inr (.inr ⟨hp, hs, he⟩)

/-- A call that raises leaves entries and journals as they are. -/
theorem exec_error {L : LedgerEngine} {e : PyError} (h : (c.exec R d L).1 = .error e) :
    IsTextError e ∧ Draws.Later d (c.exec R d L).2.1 ∧
      ∃ heads, (c.exec R d L).2.2 = { L with accountHeads := heads } := by
  rcases c.exec_cases R d L with ⟨-, _, he⟩ | ⟨-, _, _, _, _, ht, -, -, he⟩ | ⟨-, -, he⟩
  · rw [he] at h ⊢
    cases h
    exact ⟨trivial, .nextId d, _, rfl⟩
  · rw [he] at h ⊢
    cases h
    exact ⟨ht, ⟨by simp only [drawn]; omega, Nat.le_succ _⟩, _, rfl⟩
  · rw [he] at h
    cases h

theorem exec_ok {L : LedgerEngine} {j : Journal} (h : (c.exec R d L).1 = .ok j) :
    let d' : Draws := { d with uuids := d.uuids + 1 }
    c.Positive ∧ Hashed R (c.specs R d) c.description d' L ∧ c.exec R d L =
      (.ok (newJournal R (c.specs R d) c.description d' L), drawn (c.specs R d) d',
        commit R (c.specs R d) c.description d' L) := by
  rcases c.exec_cases R d L with ⟨-, _, he⟩ | ⟨-, _, _, _, _, -, -, -, he⟩ | hok
  · rw [he] at h; cases h
  · rw [he] at h; cases h
  · exact hok

theorem exec_of_hashable {L : LedgerEngine} (hh : HeadsEncode R L.accountHeads) (hp : c.Positive)
    (hs : c.Hashable R) : ∃ j, (c.exec R d L).1 = .ok j := by
  have hpos : LedgerEngine.Positive (c.specs R d) := specs_positive_iff.mpr hp
  rw [exec_eq, postJournal_balanced hh hpos ((specs_hashable_iff hp).mpr hs) (specs_balanced hpos)]
  exact ⟨_, rfl⟩

end LedgerCall

end ExpenseSettlement
