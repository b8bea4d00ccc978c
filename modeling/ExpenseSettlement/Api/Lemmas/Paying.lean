import ExpenseSettlement.Api.Lemmas.Groups
import ExpenseSettlement.Services.Lemmas.Acceptance
import ExpenseSettlement.System.Lemmas.WellFormed

/-!
# Payments that are put in as expenses

Who pays another back can put the payment in as an expense of which the other has the only share. It
moves the balances of the two as the payment does.
-/

namespace ExpenseSettlement

open Lib LedgerEngine DebtSimplifier

variable {R : Runtime} {w : World} {groupId : String} {s : Settlement} {plan : List Settlement}

def Settlement.asExpense (groupId title : String) (s : Settlement) : CreateExpense where
  groupId := groupId
  payerId := s.payerId
  title := title
  totalCents := s.amountCents
  splitType := "EXACT"
  splitsInput := some [⟨s.payeeId, some s.amountCents, none⟩]
  idempotencyKey := none

def Settlement.asTransaction (s : Settlement) : Transaction := ⟨s.payerId, [⟨s.payeeId, s.amountCents⟩]⟩

/-! ## Balances -/

theorem netOf_asTransaction (hne : s.payerId ≠ s.payeeId) (u : String) :
    netOf u s.asTransaction = -s.toPayment.effect u := by
  have heffect : s.toPayment.effect u = (if s.payeeId = u then s.amountCents else 0) -
      if s.payerId = u then s.amountCents else 0 := rfl
  rw [heffect, netOf, Settlement.asTransaction]
  dsimp only
  by_cases hpayer : s.payerId = u
  · have hpayee : s.payeeId ≠ u := fun h => hne (hpayer.trans h.symm)
    simp [hpayer, hpayee, othersTotal]
  · simp [hpayer, shareOf]

theorem sum_netOf_asTransaction (hne : ∀ s ∈ plan, s.payerId ≠ s.payeeId) (u : String) :
    ((plan.map (·.asTransaction)).map (netOf u)).sum = paid u plan - received u plan := by
  have hflow : netFlow (plan.map (·.toPayment)) u = received u plan - paid u plan := netFlow_toPayment plan u
  rw [← neg_sub, ← hflow, netFlow]
  induction plan with
  | nil => rfl
  | cons s plan ih =>
      rw [List.forall_mem_cons] at hne
      simp only [List.map_cons, List.sum_cons, netOf_asTransaction hne.1, neg_add]
      rw [ih hne.2 (netFlow_toPayment plan u)]

/-! ## Putting them in -/

/-- The one share is the total, and the ledger takes it. -/
theorem asExpense_accepts (hh : HeadsEncode R w.serviceLedger.accountHeads) (title : String)
    (hs : s.Payable R) {group : GroupRecord} (hg : w.store.groups.get? groupId = some group)
    (hm : s.payerId ∈ group.memberIds) :
    Accepts R (s.asExpense groupId title) w [⟨s.payeeId, s.amountCents⟩] := by
  have hpositive : ((s.asExpense groupId title).call [⟨s.payeeId, s.amountCents⟩]).Positive := by
    intro t ht _
    rw [List.mem_singleton.mp ht]
    exact hs.positive
  refine (accepts_iff_of_headsEncode hh).mpr ⟨?_, hpositive, ?_⟩
  · have htotal : ¬ s.amountCents < 1 := by
      have := hs.positive
      omega
    simp only [validate, Settlement.asExpense, htotal, hg, List.ne_nil_of_mem hm, hm, computeSplits,
      splitExact, exactShares, sumAmounts, not_true_eq_false, ↓reduceIte]
    simp
  · have hprintable := (printable_iff hs.positive).mp hs.hashable.amount
    refine (expense_hashable_iff ?_ hs.hashable.payer hpositive).mpr (lt_of_le_of_lt ?_ hprintable)
    · intro t ht
      rw [List.mem_singleton.mp ht]
      exact hs.hashable.payee
    · have := hs.positive
      simp only [othersTotal]
      split <;> omega

theorem WellFormed.transactionsFor_accept (h : WellFormed R w) {req : CreateExpense} (splits : List Split)
    (hf : w.store.existing req.idempotencyKey = none) :
    (w.accept R req splits).transactionsFor req.groupId =
      w.transactionsFor req.groupId ++ [⟨req.payerId, splits⟩] := by
  rw [transactionsFor_eq, transactionsFor_eq, accept_expenses,
    Dict.values_set_of_not_mem _ (h.newExpense_fresh hf), List.map_append, List.filter_append, List.map_append]
  simp [ExpenseRecord.filed, newExpense_groupId hf, newExpense_payerId hf, newExpense_splits hf]

/-- Every payment is accepted, and the group has as many expenses more. -/
theorem run_asExpense (h : WellFormed R w) (title : String) {group : GroupRecord}
    (hg : w.store.groups.get? groupId = some group) (hpay : ∀ s ∈ plan, s.Payable R)
    (hm : ∀ s ∈ plan, s.payerId ∈ group.memberIds) :
    AtEach (World.step R) w (plan.map fun s => .createExpense (s.asExpense groupId title))
        (fun w op => ∀ req, op = .createExpense req → Accepted R req w) ∧
      (run (World.step R) w (plan.map fun s => .createExpense (s.asExpense groupId title))).transactionsFor
        groupId = w.transactionsFor groupId ++ plan.map (·.asTransaction) := by
  induction plan generalizing w with
  | nil => exact ⟨atEach_nil _, (List.append_nil _).symm⟩
  | cons s plan ih =>
      rw [List.forall_mem_cons] at hpay hm
      have ha : Accepts R (s.asExpense groupId title) w [⟨s.payeeId, s.amountCents⟩] :=
        asExpense_accepts h.service_heads.encoded title hpay.1 hg hm.1
      have hresult := createExpense_of_accepts ha
      have hstep : w.step R (.createExpense (s.asExpense groupId title)) =
          w.accept R (s.asExpense groupId title) [⟨s.payeeId, s.amountCents⟩] := by
        rw [World.step, hresult]
      have hgroup : (w.accept R (s.asExpense groupId title) [⟨s.payeeId, s.amountCents⟩]).store.groups.get?
          groupId = some group := by
        rw [accept_groups]
        exact hg
      obtain ⟨haccepted, htransactions⟩ := ih (h.accept ha) hgroup hpay.2 hm.2
      rw [List.map_cons]
      refine ⟨atEach_cons.mpr ⟨?_, ?_⟩, ?_⟩
      · rintro req ⟨rfl⟩
        exact ⟨_, congrArg Prod.fst hresult⟩
      · rw [hstep]
        exact haccepted
      · have hnew : (w.accept R (s.asExpense groupId title)
            [⟨s.payeeId, s.amountCents⟩]).transactionsFor groupId =
            w.transactionsFor groupId ++ [s.asTransaction] := h.transactionsFor_accept _ rfl
        rw [run, List.foldl_cons, hstep]
        refine htransactions.trans ?_
        rw [hnew, List.append_assoc]
        rfl

/-- The payments of the plan and the balances cancel. -/
theorem even_of_paid {w' : World} (h : w'.transactionsFor groupId = w.transactionsFor groupId ++
      (settle (getGroupNetBalances groupId w)).map (·.asTransaction)) (u : String) :
    (getGroupNetBalances groupId w').getD u 0 = 0 := by
  have hz : (getGroupNetBalances groupId w).values.sum = 0 := sum_values_computeNetBalances _
  have hne : ∀ s ∈ settle (getGroupNetBalances groupId w), s.payerId ≠ s.payeeId := by
    intro s hs heq
    obtain ⟨hpayer, hpayee, -⟩ := settle_sides hz hs
    rw [heq] at hpayer
    omega
  have hold : (getGroupNetBalances groupId w).getD u 0 = ((w.transactionsFor groupId).map (netOf u)).sum :=
    getD_computeNetBalances u _
  have hnew : (getGroupNetBalances groupId w').getD u 0 = ((w'.transactionsFor groupId).map (netOf u)).sum :=
    getD_computeNetBalances u _
  rw [hnew, h, List.map_append, List.sum_append, ← hold, sum_netOf_asTransaction hne, ← settle_accounted hz u]
  omega

end ExpenseSettlement
