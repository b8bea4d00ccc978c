import ExpenseSettlement.Services.Lemmas.Acceptance
import ExpenseSettlement.System.Lemmas.WellFormed

/-!
# Debts and what was paid

The ledger checks the shares that it posts, and those are the shares of everybody but the payer. As
all shares add up to the total, the payer's own are what decides.
-/

namespace ExpenseSettlement

open Lib LedgerEngine

/-- No share is negative and the others owe no more than was paid. -/
def NoPhantom (e : ExpenseRecord) : Prop :=
  (∀ s ∈ e.splits, 0 ≤ s.amountCents) ∧ othersTotal e.payerId e.splits ≤ e.totalCents

def creditedTo (accountId : String) (j : Journal) : ℤ :=
  sumOf .credit (j.entries.filter (·.accountId = accountId))

/-- The request gives its payer no negative share. An exact amount of the payer's is not negative. A
percentage of the payer's is not short of minus one cent, unless it is the last, which gets what the
cents of those before it leave. -/
def PayerShareOk (req : CreateExpense) : Prop :=
  let inputs := req.splitsInput.getD []
  if req.splitType = "EXACT" then
    ∀ s ∈ inputs, s.userId = req.payerId → 0 ≤ s.amountCents.getD 0
  else if req.splitType = "PERCENTAGE" then
    ∀ pre last, inputs = pre ++ [last] →
      (∀ s ∈ pre, s.userId = req.payerId → ∀ p ∈ s.percentage,
        ∀ v ∈ Binary64.value? (floatShare req.totalCents p), -1 < v) ∧
      (last.userId = req.payerId → (pre.map (·.cents req.totalCents)).sum ≤ req.totalCents)
  else
    True

/-- What the request gives its payer comes to no less than nothing. A payer who is named last gets all
that the cents of the others leave. -/
def PayerTotalOk (req : CreateExpense) : Prop :=
  let inputs := req.splitsInput.getD []
  if req.splitType = "EXACT" then
    0 ≤ ((inputs.filter (·.userId = req.payerId)).map (·.amountCents.getD 0)).sum
  else if req.splitType = "PERCENTAGE" then
    ∀ pre last, inputs = pre ++ [last] →
      if last.userId = req.payerId then
        ((pre.filter (·.userId ≠ req.payerId)).map (·.cents req.totalCents)).sum ≤ req.totalCents
      else
        0 ≤ ((pre.filter (·.userId = req.payerId)).map (·.cents req.totalCents)).sum
  else
    True

/-! ## The payer's share -/

theorem cents_nonneg_iff {totalCents : ℤ} {pre : List (SplitInput Float)} {last s : SplitInput Float}
    (h : PercentagesPass totalCents pre last) (hs : s ∈ pre) : 0 ≤ s.cents totalCents ↔
      ∀ p ∈ s.percentage, ∀ v ∈ Binary64.value? (floatShare totalCents p), -1 < v := by
  obtain ⟨p, hp⟩ := h.given s (List.mem_append_left _ hs)
  obtain ⟨amount, ha⟩ := h.shares s hs p hp
  obtain ⟨ht, v, hv, -⟩ := share_eq_ok.mp ha
  rw [hp, cents_eq_truncate ht hp hv, truncate_nonneg_iff]
  simp [hv]

theorem shareOf_percentSplits (totalCents : ℤ) (pre : List (SplitInput Float)) (last : SplitInput Float)
    (payerId : String) : shareOf payerId (percentSplits totalCents pre last) =
      ((pre.filter (·.userId = payerId)).map (·.cents totalCents)).sum +
        if last.userId = payerId then totalCents - (pre.map (·.cents totalCents)).sum else 0 := by
  rw [shareOf_eq_sum, percentSplits, List.filter_append, List.map_append, List.sum_append,
    List.filter_map, List.map_map]
  congr 1
  by_cases hl : last.userId = payerId
  · simp [hl]
  · simp [hl]

variable {R : Runtime} {req : CreateExpense} {memberIds : List String} {splits : List Split}

theorem payerShareOk_iff (ht : 1 ≤ req.totalCents) (h : computeSplits R req memberIds = .ok splits) :
    (∀ s ∈ splits, s.userId = req.payerId → 0 ≤ s.amountCents) ↔ PayerShareOk req := by
  unfold PayerShareOk
  rcases computeSplits_cases h with ⟨hequal, rfl⟩ | ⟨inputs, hne, hi, ⟨hexact, hx⟩ | ⟨hpct, hp⟩⟩
  · rw [if_neg (by rw [hequal]; decide), if_neg (by rw [hequal]; decide)]
    exact ⟨fun _ => trivial, fun _ s hs _ => splitEqual_nonneg ht hs⟩
  · rw [if_pos hexact, (splitExact_ok hx).1, hi]
    simp
  · obtain ⟨pre, last, rfl, hpass, rfl⟩ := splitPercentage_ok hne hp
    rw [if_neg (by rw [hpct]; decide), if_pos hpct, hi, Option.getD_some, forall_concat, percentSplits,
      List.forall_mem_append, List.forall_mem_map, List.forall_mem_singleton]
    apply and_congr
    · exact forall₂_congr fun s hs => forall_congr' fun _ => cents_nonneg_iff hpass hs
    · exact forall_congr' fun _ => sub_nonneg

theorem payerTotalOk_iff (ht : 1 ≤ req.totalCents) (h : computeSplits R req memberIds = .ok splits) :
    0 ≤ shareOf req.payerId splits ↔ PayerTotalOk req := by
  unfold PayerTotalOk
  rcases computeSplits_cases h with ⟨hequal, rfl⟩ | ⟨inputs, hne, hi, ⟨hexact, hx⟩ | ⟨hpct, hp⟩⟩
  · rw [if_neg (by rw [hequal]; decide), if_neg (by rw [hequal]; decide)]
    exact iff_of_true (shareOf_nonneg fun s hs _ => splitEqual_nonneg ht hs) trivial
  · rw [if_pos hexact, (splitExact_ok hx).1, hi, shareOf_eq_sum, List.filter_map, List.map_map]
    rfl
  · obtain ⟨pre, last, rfl, -, rfl⟩ := splitPercentage_ok hne hp
    rw [if_neg (by rw [hpct]; decide), if_pos hpct, hi, Option.getD_some, forall_concat]
    by_cases hl : last.userId = req.payerId
    · -- what the payer has is what the others leave of the total
      have hadd := othersTotal_add_shareOf req.payerId (percentSplits req.totalCents pre last)
      rw [sum_percentSplits, othersTotal_percentSplits, if_pos hl, add_zero] at hadd
      rw [if_pos hl]
      omega
    · rw [shareOf_percentSplits, if_neg hl, if_neg hl, add_zero]

/-! ## The journal -/

theorem credited_expenseSpecs {clearingId payerId description : String}
    (hc : ∀ u, userWallet u ≠ clearingId)
    (h : Positive (expenseSpecs clearingId payerId splits description)) :
    total .credit ((specBooks (expenseSpecs clearingId payerId splits description)).filter
      (·.account = userWallet payerId)) = othersTotal payerId splits := by
  have hdebtors : ∀ splits, total .credit ((specBooks (debtorSpecs clearingId payerId description
      splits)).filter (·.account = userWallet payerId)) = 0 := by
    intro splits
    induction splits with
    | nil => rfl
    | cons s splits ih =>
        by_cases hs : s.userId = payerId
        · simpa only [debtorSpecs, hs, ↓reduceIte] using ih
        · have hne : clearingId ≠ userWallet payerId := (hc payerId).symm
          simp only [debtorSpecs, hs, ↓reduceIte]
          rw [specBooks_cons, specBooks_cons,
            List.filter_cons_of_neg (by simpa [EntrySpec.posting, userWallet_inj] using hs),
            List.filter_cons_of_neg (by simp [EntrySpec.posting, hne])]
          exact ih
  have h0 := othersTotal_nonneg_of_expenseSpecs h
  have hne : clearingId ≠ userWallet payerId := (hc payerId).symm
  rw [expenseSpecs_eq, specBooks_append, List.filter_append, total_append, hdebtors, zero_add]
  unfold closingSpecs
  split
  · simp [specBooks, EntrySpec.posting, EntryType.side, hne, total]
  · simp only [specBooks, List.map_nil, List.filter_nil, total_nil]
    omega

theorem creditedTo_eq (accountId : String) (j : Journal) :
    creditedTo accountId j =
      total .credit ((j.entries.map (·.posting)).filter (·.account = accountId)) := by
  rw [creditedTo, sumOf_eq_total, List.filter_map]
  rfl

/-! ## Accepted requests -/

variable {w : World}

theorem accepts_splits (ha : Accepts R req w splits) :
    sumAmounts splits = req.totalCents ∧
      (∀ s ∈ splits, s.userId ≠ req.payerId → 1 ≤ s.amountCents) ∧
      ((∀ s ∈ splits, s.userId = req.payerId → 0 ≤ s.amountCents) ↔ PayerShareOk req) := by
  obtain ⟨ht, group, _, hp, hc⟩ := validate_ok ha.valid
  exact ⟨sum_computeSplits (List.ne_nil_of_mem hp) hc, ha.positive, payerShareOk_iff ht hc⟩

/-- The others owe at most the total when what the payer has is not less than nothing. -/
theorem othersTotal_le_iff (ha : Accepts R req w splits) :
    othersTotal req.payerId splits ≤ req.totalCents ↔ PayerTotalOk req := by
  obtain ⟨ht, group, _, hp, hc⟩ := validate_ok ha.valid
  have hsum := sum_computeSplits (List.ne_nil_of_mem hp) hc
  have hadd := othersTotal_add_shareOf req.payerId splits
  rw [← payerTotalOk_iff ht hc]
  omega

theorem othersTotal_le (ha : Accepts R req w splits) (hp : PayerShareOk req) :
    othersTotal req.payerId splits ≤ req.totalCents := by
  obtain ⟨hsum, _, hpayer⟩ := accepts_splits ha
  have h0 := shareOf_nonneg (hpayer.mpr hp)
  have hadd := othersTotal_add_shareOf req.payerId splits
  omega

theorem noPhantom_newExpense_iff (ha : Accepts R req w splits)
    (hf : w.store.existing req.idempotencyKey = none) :
    NoPhantom (w.newExpense R req splits) ↔ PayerShareOk req := by
  obtain ⟨_, hothers, hpayer⟩ := accepts_splits ha
  rw [NoPhantom, newExpense_splits hf, newExpense_payerId hf, newExpense_totalCents hf]
  constructor
  · rintro ⟨hall, _⟩
    exact hpayer.mp fun s hs _ => hall s hs
  · intro hp
    refine ⟨fun s hs => ?_, othersTotal_le ha hp⟩
    by_cases hs' : s.userId = req.payerId
    · exact hpayer.mpr hp s hs hs'
    · exact (hothers s hs hs').trans' (by decide)

theorem creditedTo_newJournal (ha : Accepts R req w splits) :
    creditedTo (userWallet req.payerId) (w.newJournal R req splits) =
      othersTotal req.payerId splits := by
  have hpos : Positive ((req.call splits).specs R w.draws) := LedgerCall.specs_positive_iff.mpr ha.positive
  rw [creditedTo_eq, World.newJournal, newJournal_postings]
  exact credited_expenseSpecs (fun u => userWallet_ne_expenseClearing u _) hpos

/-- The journal that an accepted request leaves under the id it answers with. -/
theorem accept_journal {id : String} {j : Journal} (hid : (w.newExpense R req splits).journalId = some id)
    (hj : (w.accept R req splits).serviceLedger.journals.get? id = some j) :
    j = w.newJournal R req splits := by
  cases hid
  rw [accept_journals, newJournal_id, Dict.get?_set_self] at hj
  cases hj
  rfl

theorem noPhantom_accept (hw : WellFormed R w) (hn : ∀ e ∈ w.store.expenses.values, NoPhantom e)
    (ha : Accepts R req w splits)
    (hp : w.store.existing req.idempotencyKey = none → PayerShareOk req) :
    ∀ e ∈ (w.accept R req splits).store.expenses.values, NoPhantom e := by
  have hnew : NoPhantom (w.newExpense R req splits) := by
    cases hx : w.store.existing req.idempotencyKey with
    | none => exact (noPhantom_newExpense_iff ha hx).mpr (hp hx)
    | some x =>
        have hold := hn x (Dict.mem_values.mpr ⟨_, hw.existing_id hx⟩)
        rw [newExpense_of_existing hx]
        exact hold
  intro e he
  obtain ⟨id, hid⟩ := Dict.mem_values.mp he
  rw [accept_expenses] at hid
  rcases Dict.of_get?_set hid with ⟨_, rfl⟩ | hold
  · exact hnew
  · exact hn e (Dict.mem_values.mpr ⟨id, hold⟩)

end ExpenseSettlement
