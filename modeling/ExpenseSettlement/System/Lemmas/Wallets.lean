import ExpenseSettlement.System.Lemmas.WellFormed

/-!
# The wallets of the service's ledger

An accepted request moves money between the wallets by its splits. The net balances of the groups are
computed from the splits of the stored expenses, so the two agree as long as every request that is
posted is stored.
-/

namespace ExpenseSettlement

open Lib LedgerEngine DebtSimplifier

variable {R : Runtime} {w w' : World}

/-- The ledger has for every user what the balances of all groups together say. -/
def WalletsMatch (w : World) : Prop :=
  ∀ u, w.serviceLedger.getAccountBalance (userWallet u) =
    (w.store.groups.keys.map fun groupId => (getGroupNetBalances groupId w).getD u 0).sum

/-- Nobody but the payer has a share. -/
def PayerAlone (R : Runtime) (req : CreateExpense) (S : InMemoryStore) : Prop :=
  ∀ splits, validate R req S = .ok splits → ∀ s ∈ splits, s.userId = req.payerId

/-! ## The balances of all groups -/

/-- A sum over a list that is taken group by group. -/
theorem sum_groupwise {α κ : Type} [DecidableEq κ] (key : α → κ) (f : α → ℤ) {keys : List κ}
    (hn : keys.Nodup) {l : List α} (h : ∀ x ∈ l, key x ∈ keys) :
    (keys.map fun k => ((l.filter (key · = k)).map f).sum).sum = (l.map f).sum := by
  induction l with
  | nil => simp
  | cons x l ih =>
      rw [List.forall_mem_cons] at h
      have hsplit : ∀ k, (((x :: l).filter (key · = k)).map f).sum =
          (if key x = k then f x else 0) + ((l.filter (key · = k)).map f).sum := by
        intro k
        by_cases hk : key x = k
        · simp [hk]
        · simp [hk]
      -- `x` counts for its own group only
      have hone : (keys.map fun k => if key x = k then f x else 0).sum = f x := by
        rw [List.sum_map_eq_nsmul_single (key x) _ fun k hk _ => if_neg (Ne.symm hk), if_pos rfl,
          List.count_eq_one_of_mem hn h.1, one_nsmul]
      simp only [hsplit]
      rw [List.sum_map_add, hone, ih h.2, List.map_cons, List.sum_cons]

/-- What a user is owed by all stored expenses. -/
def World.owed (u : String) (w : World) : ℤ := ((transactionsOf w.store.expenses.values).map (netOf u)).sum

theorem WellFormed.sum_balances (h : WellFormed R w) (u : String) :
    (w.store.groups.keys.map fun groupId => (getGroupNetBalances groupId w).getD u 0).sum = w.owed u := by
  have hgroup : ∀ groupId, (getGroupNetBalances groupId w).getD u 0 =
      ((w.store.expenses.values.filter (·.groupId = groupId)).map fun e =>
        netOf u ⟨e.payerId, e.splits⟩).sum := by
    intro groupId
    rw [getGroupNetBalances, getD_computeNetBalances, transactionsOf, List.map_map]
    rfl
  simp only [hgroup]
  rw [World.owed, transactionsOf, List.map_map]
  exact sum_groupwise _ _ w.store.groups.nodup h.expense_group

theorem WellFormed.walletsMatch_iff (h : WellFormed R w) :
    WalletsMatch w ↔ ∀ u, w.serviceLedger.getAccountBalance (userWallet u) = w.owed u := by
  refine forall_congr' fun u => ?_
  rw [h.sum_balances u]

/-! ## Accepted requests -/

section Accept

variable {req : CreateExpense} {splits : List Split}

theorem Accepts.wallet (ha : Accepts R req w splits) (u : String) :
    (w.accept R req splits).serviceLedger.getAccountBalance (userWallet u) =
      w.serviceLedger.getAccountBalance (userWallet u) + netOf u ⟨req.payerId, splits⟩ := by
  have hwallet := LedgerCall.specs_wallet u
    ((LedgerCall.specs_positive_iff (R := R) (d := w.draws)).mpr ha.positive)
  rw [getAccountBalance_eq, getAccountBalance_eq, World.accept]
  dsimp only
  rw [books_commit, balance_append]
  exact congrArg _ hwallet

theorem WellFormed.owed_accept (h : WellFormed R w) (hf : w.store.existing req.idempotencyKey = none)
    (u : String) : (w.accept R req splits).owed u = w.owed u + netOf u ⟨req.payerId, splits⟩ := by
  rw [World.owed, accept_expenses, Dict.values_set_of_not_mem _ (h.newExpense_fresh hf), World.owed,
    transactionsOf, transactionsOf, List.map_append, List.map_append, List.sum_append]
  simp [newExpense_payerId hf, newExpense_splits hf]

/-- Under a used key no expense is added. -/
theorem WellFormed.owed_accept_of_existing (h : WellFormed R w) {e : ExpenseRecord}
    (he : w.store.existing req.idempotencyKey = some e) (u : String) :
    (w.accept R req splits).owed u = w.owed u := by
  have hid : w.store.expenses.get? e.id = some e := h.existing_id he
  have hsame : transactionsOf (w.accept R req splits).store.expenses.values =
      transactionsOf w.store.expenses.values := by
    rw [accept_expenses, newExpense_of_existing he, transactionsOf, transactionsOf]
    exact Dict.map_values_set hid rfl
  rw [World.owed, hsame, World.owed]

/-- The posted shares cancel only if there are none. -/
theorem Accepts.netOf_eq_zero_iff (ha : Accepts R req w splits) :
    (∀ u, netOf u ⟨req.payerId, splits⟩ = 0) ↔ PayerAlone R req w.store := by
  have hone : ∀ s ∈ splits, s.userId ≠ req.payerId → 1 ≤ s.amountCents := ha.positive
  constructor
  · intro hzero splits' hv s hs
    obtain rfl := Except.ok.inj (ha.1.symm.trans hv)
    by_contra hne
    have hpaid := hzero req.payerId
    rw [netOf, if_pos rfl] at hpaid
    dsimp only at hpaid
    have hle := amount_le_othersTotal hone hs hne
    have hpos := hone s hs hne
    omega
  · intro halone u
    have hsplits := halone splits ha.1
    rw [netOf]
    by_cases hu : req.payerId = u
    · rw [if_pos hu, othersTotal_eq_sum, List.filter_eq_nil_iff.mpr]
      · rfl
      · intro s hs hne
        rw [hsplits s hs, hu] at hne
        simp at hne
    · rw [if_neg hu, shareOf_eq_sum, List.filter_eq_nil_iff.mpr]
      · rfl
      · intro s hs heq
        rw [hsplits s hs] at heq
        exact hu (by simpa using heq)

theorem WellFormed.walletsMatch_accept_iff (h : WellFormed R w) (hm : WalletsMatch w)
    (ha : Accepts R req w splits) :
    WalletsMatch (w.accept R req splits) ↔
      (w.store.existing req.idempotencyKey ≠ none → PayerAlone R req w.store) := by
  rw [h.walletsMatch_iff] at hm
  rw [(h.accept ha).walletsMatch_iff]
  cases he : w.store.existing req.idempotencyKey with
  | none =>
      refine iff_of_true (fun u => ?_) (fun hne => absurd rfl hne)
      rw [ha.wallet, h.owed_accept he, hm u]
  | some e =>
      rw [← ha.netOf_eq_zero_iff]
      have hstep : ∀ u, (w.accept R req splits).serviceLedger.getAccountBalance (userWallet u) =
          (w.accept R req splits).owed u ↔ netOf u ⟨req.payerId, splits⟩ = 0 := by
        intro u
        rw [ha.wallet, h.owed_accept_of_existing he, hm u]
        exact add_eq_left
      simp only [hstep]
      exact ⟨fun hz _ => hz, fun hz => hz nofun⟩

end Accept

theorem WalletsMatch.init : WalletsMatch .init := fun _ => rfl

/-- Without an accepted request neither side changes. -/
theorem walletsMatch_congr (h : WellFormed R w) (h' : WellFormed R w')
    (hx : w'.store.expenses = w.store.expenses) (hl : w'.serviceLedger.entries = w.serviceLedger.entries) :
    WalletsMatch w' ↔ WalletsMatch w := by
  rw [h'.walletsMatch_iff, h.walletsMatch_iff]
  refine forall_congr' fun u => ?_
  rw [World.owed, World.owed, hx, getAccountBalance, getAccountBalance, hl]

end ExpenseSettlement
