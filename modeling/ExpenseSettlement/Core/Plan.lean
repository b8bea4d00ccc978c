import ExpenseSettlement.Core.Lemmas.Checksum
import ExpenseSettlement.Core.Lemmas.NetBalances

/-!
# The plan

The heap loop is the plain procedure, its plan is smaller than the number of users it is about, no two
users meet twice in it, and it is not always as small as a plan can be, though it moves as little money
as a plan can. Its checksum tells it apart from other plans as long as the ids have no `':'`.
-/

namespace ExpenseSettlement

open Lib DebtSimplifier

/-- The debts of 3 and 2 to one user and of 4 to another. -/
def rawDebts : List Transaction :=
  [⟨"user-a", [⟨"user-c", 3⟩, ⟨"user-d", 2⟩]⟩, ⟨"user-b", [⟨"user-e", 4⟩]⟩]

theorem sum_rawDebts : (computeNetBalances rawDebts).values.sum = 0 := by decide

theorem checksummable_rawDebts : Checksummable Runtime.sequential (computeNetBalances rawDebts) :=
  .of_printable (fun _ _ => rfl) (by decide +kernel)

/-! ## Largest with largest -/

/-- The settlements are those of the plain procedure, and neither they nor their checksum depend on
the order in which the balances were inserted. -/
theorem settlements_largest_with_largest (R : Runtime) (netBalances : Dict String ℤ)
    (originalTxCount : ℤ) (hz : netBalances.values.sum = 0) :
    SimplifiesTo R netBalances originalTxCount (Greedy.plan netBalances) ∧
      ∀ (other : Dict String ℤ) (otherTxCount : ℤ), other.items.Perm netBalances.items →
        SimplifiesTo R other otherTxCount (Greedy.plan netBalances) ∧
        ∀ result result', simplify R netBalances originalTxCount = .ok result →
          simplify R other otherTxCount = .ok result' →
            result'.settlements = result.settlements ∧ result'.checksum = result.checksum := by
  have hto := simplifiesTo_settle R hz originalTxCount
  rw [Greedy.settle_eq_plan] at hto
  refine ⟨hto, fun other otherTxCount hperm => ?_⟩
  have hz' : other.values.sum = 0 := by
    rw [Dict.values, (hperm.map Prod.snd).sum_eq]
    exact hz
  have hto' := simplifiesTo_settle R hz' otherTxCount
  have hsettle : settle other = settle netBalances := by
    rw [settle, settle, Greedy.initialState_congr hperm]
  rw [hsettle, Greedy.settle_eq_plan] at hto'
  refine ⟨hto', fun result result' hr hr' => ⟨?_, ?_⟩⟩
  · rw [hto'.settlements result' hr', hto.settlements result hr]
  · exact (Except.ok.inj ((hto.checksum result hr).symm.trans (hto'.checksum result' hr'))).symm

theorem settlements_largest_with_largest_rawDebts :
    ∃ result, simplify Runtime.sequential (computeNetBalances rawDebts) 3 = .ok result ∧
      result.settlements = Greedy.plan (computeNetBalances rawDebts) := by
  obtain ⟨hto, -⟩ :=
    settlements_largest_with_largest Runtime.sequential (computeNetBalances rawDebts) 3 sum_rawDebts
  exact hto.exists_result checksummable_rawDebts

/-! ## Size -/

/-- There are fewer settlements than users whose balances are not zero, and none if there are no such
users. -/
theorem plan_size (R : Runtime) (netBalances : Dict String ℤ) (originalTxCount : ℤ)
    (hz : netBalances.values.sum = 0) :
    ∃ plan, SimplifiesTo R netBalances originalTxCount plan ∧
      (0 < netBalances.values.countP (· ≠ 0) → plan.length ≤ netBalances.values.countP (· ≠ 0) - 1) ∧
      (netBalances.values.countP (· ≠ 0) = 0 → plan = []) := by
  refine ⟨_, simplifiesTo_settle R hz originalTxCount, ?_, ?_⟩
  · intro hk
    have hlt := length_settle_lt hz hk
    omega
  · intro hk
    exact settle_eq_nil hz hk

theorem plan_size_rawDebts :
    ∃ result, simplify Runtime.sequential (computeNetBalances rawDebts) 3 = .ok result ∧
      result.settlements.length ≤ 4 := by
  obtain ⟨plan, hto, hsize, -⟩ := plan_size Runtime.sequential (computeNetBalances rawDebts) 3 sum_rawDebts
  obtain ⟨result, hr, hs⟩ := hto.exists_result checksummable_rawDebts
  exact ⟨result, hr, hs ▸ hsize (by decide)⟩

/-- No other way to settle the balances saves more than a payment for each creditor but one, or for each
debtor but one. So the plan has less than twice the payments that are needed. -/
theorem plan_near_minimal (R : Runtime) (netBalances : Dict String ℤ) (originalTxCount : ℤ)
    (hz : netBalances.values.sum = 0) :
    ∃ plan, SimplifiesTo R netBalances originalTxCount plan ∧
      ∀ ss : List Settlement, (∀ s ∈ ss, 1 ≤ s.amountCents) →
        (∀ u, received u ss - paid u ss = netBalances.getD u 0) →
        plan.length ≤ ss.length +
          (min (netBalances.values.countP (0 < ·)) (netBalances.values.countP (· < 0)) - 1) ∧
        plan.length ≤ 2 * ss.length - 1 := by
  refine ⟨_, simplifiesTo_settle R hz originalTxCount, fun ss hpos hnet => ?_⟩
  have hss := settles_toPayment.mpr ⟨hpos, hnet⟩
  have hlen := (Greedy.settle_clears hz).length_le_of_settles hss (even_outside_keys netBalances)
  have hcreditors := hss.creditors_le (V := netBalances.keys.toFinset)
  simp only [creditors, debtors, List.length_map, card_filter_keys netBalances (0 < ·),
    card_filter_keys netBalances (· < 0)] at hlen hcreditors
  refine ⟨hlen, ?_⟩
  rcases Nat.eq_zero_or_pos ss.length with hnone | hsome
  · -- nothing is owed, so there is nothing to pay
    have hnil : ss = [] := List.length_eq_zero_iff.mp hnone
    have hempty : settle netBalances = [] := (settle_eq_nil_iff hz).mpr fun u => by
      rw [← hnet u, hnil]
      rfl
    rw [hempty]
    exact Nat.zero_le _
  · omega

theorem plan_near_minimal_rawDebts :
    ∃ result, simplify Runtime.sequential (computeNetBalances rawDebts) 3 = .ok result ∧
      ∀ ss : List Settlement, (∀ s ∈ ss, 1 ≤ s.amountCents) →
        (∀ u, received u ss - paid u ss = (computeNetBalances rawDebts).getD u 0) →
        result.settlements.length ≤ ss.length + 1 := by
  obtain ⟨plan, hto, hnear⟩ :=
    plan_near_minimal Runtime.sequential (computeNetBalances rawDebts) 3 sum_rawDebts
  obtain ⟨result, hr, hs⟩ := hto.exists_result checksummable_rawDebts
  exact ⟨result, hr, fun ss hpos hnet => hs ▸ (hnear ss hpos hnet).1⟩

/-! ## Money that moves -/

/-- The plan moves what the creditors are to receive. Other payments move as little only if nobody in
them is paid and pays, and more otherwise. -/
theorem plan_moves_least (R : Runtime) (netBalances : Dict String ℤ) (originalTxCount : ℤ)
    (hz : netBalances.values.sum = 0) :
    ∃ plan, SimplifiesTo R netBalances originalTxCount plan ∧
      (plan.map (·.amountCents)).sum = (netBalances.values.map (max · 0)).sum ∧
      ∀ ss : List Settlement, (∀ s ∈ ss, 1 ≤ s.amountCents) →
        (∀ u, received u ss - paid u ss = netBalances.getD u 0) →
        (plan.map (·.amountCents)).sum ≤ (ss.map (·.amountCents)).sum ∧
        ((ss.map (·.amountCents)).sum = (plan.map (·.amountCents)).sum ↔
          ∀ u, received u ss = 0 ∨ paid u ss = 0) := by
  refine ⟨_, simplifiesTo_settle R hz originalTxCount, turnover_settle hz, fun ss hpos hnet => ?_⟩
  have hclears := Greedy.settle_clears hz
  have hss := settles_toPayment.mpr ⟨hpos, hnet⟩
  simp only [← turnover_toPayment, ← inflow_toPayment, ← outflow_toPayment]
  exact ⟨hclears.turnover_le hss, hclears.turnover_eq_iff hss⟩

theorem plan_moves_least_rawDebts :
    ∃ result, simplify Runtime.sequential (computeNetBalances rawDebts) 3 = .ok result ∧
      (result.settlements.map (·.amountCents)).sum = 9 := by
  obtain ⟨plan, hto, hmoves, -⟩ :=
    plan_moves_least Runtime.sequential (computeNetBalances rawDebts) 3 sum_rawDebts
  obtain ⟨result, hr, hs⟩ := hto.exists_result checksummable_rawDebts
  exact ⟨result, hr, hs ▸ hmoves.trans (by decide)⟩

/-! ## Shape -/

/-- Debtors pay and creditors are paid, at least a cent each time, and no debtor pays a creditor twice.
So there is one way to sort the settlements for the checksum. -/
theorem plan_shape (R : Runtime) (netBalances : Dict String ℤ) (originalTxCount : ℤ)
    (hz : netBalances.values.sum = 0) :
    ∃ plan, SimplifiesTo R netBalances originalTxCount plan ∧
      (∀ s ∈ plan, netBalances.getD s.payerId 0 < 0 ∧ 0 < netBalances.getD s.payeeId 0 ∧
        1 ≤ s.amountCents) ∧
      (∀ s ∈ plan, ∀ t ∈ plan, s.payerId ≠ t.payeeId) ∧
      (plan.map fun s => (s.payerId, s.payeeId)).Nodup ∧
      ∀ ss, ss.Perm plan →
        ss.insertionSort byPair = plan.insertionSort byPair ∧ checksum R ss = checksum R plan := by
  have hnodup := settle_pairs_nodup hz
  refine ⟨_, simplifiesTo_settle R hz originalTxCount, fun s hs => settle_sides hz hs, ?_, hnodup, ?_⟩
  · intro s hms t hmt he
    have hpayer := (settle_sides hz hms).1
    have hpayee := (settle_sides hz hmt).2.1
    rw [he] at hpayer
    omega
  · intro ss hperm
    have hsort := insertionSort_eq_of_perm hperm hnodup
    exact ⟨hsort, checksum_congr hsort⟩

theorem plan_shape_rawDebts :
    ∃ result, simplify Runtime.sequential (computeNetBalances rawDebts) 3 = .ok result ∧
      (result.settlements.map fun s => (s.payerId, s.payeeId)).Nodup := by
  obtain ⟨plan, hto, -, -, hnodup, -⟩ :=
    plan_shape Runtime.sequential (computeNetBalances rawDebts) 3 sum_rawDebts
  obtain ⟨result, hr, hs⟩ := hto.exists_result checksummable_rawDebts
  exact ⟨result, hr, hs ▸ hnodup⟩

/-! ## Minimality -/

/-- The plan is as small as a plan can be if and only if some finest zero-sum grouping of the users
has the largest creditor and the largest debtor in one group at every step of the procedure. -/
theorem plan_minimal_iff (R : Runtime) (netBalances : Dict String ℤ) (originalTxCount : ℤ)
    (hz : netBalances.values.sum = 0) :
    ∃ plan, SimplifiesTo R netBalances originalTxCount plan ∧
      ((∀ ss : List Settlement, (∀ s ∈ ss, 1 ≤ s.amountCents) →
          (∀ u, received u ss - paid u ss = netBalances.getD u 0) → plan.length ≤ ss.length) ↔
        ∃ g : String → ℕ, Finest netBalances.keys.toFinset (netBalances.getD · 0) g ∧
          ∀ s, Greedy.loop.Visits (Greedy.start netBalances) s → Greedy.PairsWithin g s) := by
  refine ⟨_, simplifiesTo_settle R hz originalTxCount, ?_⟩
  have hminimal := (Greedy.settle_clears hz).minimal_iff (V := netBalances.keys.toFinset)
    fun u hu => getD_of_not_mem_keys fun hm => hu (List.mem_toFinset.mpr hm)
  simp only [Greedy.settle_within_iff hz]
  rw [← hminimal, List.length_map]
  constructor
  · intro h qs hqs
    obtain ⟨ss, rfl⟩ : ∃ ss : List Settlement, ss.map (·.toPayment) = qs :=
      ⟨qs.map fun q => ⟨q.payer, q.payee, q.amount⟩, by rw [List.map_map]; exact List.map_id qs⟩
    obtain ⟨hpos, hnet⟩ := settles_toPayment.mp hqs
    rw [List.length_map]
    exact h ss hpos hnet
  · intro h ss hpos hnet
    have hle := h _ (settles_toPayment.mpr ⟨hpos, hnet⟩)
    rw [List.length_map] at hle
    exact hle

/-- The debts of 3 and 2 to one user alone. -/
def oneCreditor : List Transaction := [⟨"user-a", [⟨"user-c", 3⟩, ⟨"user-d", 2⟩]⟩]

/-- One creditor and two debtors are one zero-sum group, and no more. -/
theorem finest_oneCreditor : Finest (computeNetBalances oneCreditor).keys.toFinset
    ((computeNetBalances oneCreditor).getD · 0) fun _ => 0 := by
  have hkeys : (computeNetBalances oneCreditor).keys.toFinset = {"user-a", "user-c", "user-d"} := by decide
  have hnet : (computeNetBalances oneCreditor).getD "user-a" 0 = 5 ∧
      (computeNetBalances oneCreditor).getD "user-c" 0 = -3 ∧
      (computeNetBalances oneCreditor).getD "user-d" 0 = -2 := by decide
  rw [hkeys]
  refine ⟨fun k => ?_, fun g hg => ?_⟩
  · rw [Finset.sum_filter]
    simp [hnet]
  · have hgroup := hg (g "user-a")
    rw [Finset.sum_filter] at hgroup
    simp [hnet] at hgroup
    have hc : g "user-c" = g "user-a" := by
      by_contra hne
      rw [if_neg hne] at hgroup
      split at hgroup <;> omega
    have hd : g "user-d" = g "user-a" := by
      by_contra hne
      rw [if_neg hne] at hgroup
      split at hgroup <;> omega
    simp [groupCount, Finset.image_insert, hc, hd]

theorem plan_minimal_iff_oneCreditor :
    ∃ result, simplify Runtime.sequential (computeNetBalances oneCreditor) 2 = .ok result ∧
      ∀ ss : List Settlement, (∀ s ∈ ss, 1 ≤ s.amountCents) →
        (∀ u, received u ss - paid u ss = (computeNetBalances oneCreditor).getD u 0) →
        result.settlements.length ≤ ss.length := by
  obtain ⟨plan, hto, hiff⟩ :=
    plan_minimal_iff Runtime.sequential (computeNetBalances oneCreditor) 2 (by decide)
  obtain ⟨result, hr, hs⟩ := hto.exists_result (.of_printable (fun _ _ => rfl) (by decide +kernel))
  refine ⟨result, hr, hs ▸ hiff.mpr ⟨fun _ => 0, finest_oneCreditor, ?_⟩⟩
  intro _ _ _ _ _ _
  rfl

def rawPayments : List Settlement :=
  [⟨"user-c", "user-a", 3⟩, ⟨"user-d", "user-a", 2⟩, ⟨"user-e", "user-b", 4⟩]

/-- The three debts are settled with four payments: the largest debt goes to the largest credit, though
it is as large as the other one. -/
theorem raw_debts_need_fewer_payments :
    (computeNetBalances rawDebts).values.sum = 0 ∧
      ∃ result, simplify Runtime.sequential (computeNetBalances rawDebts) 3 = .ok result ∧
        ¬ ∀ ss : List Settlement, (∀ s ∈ ss, 1 ≤ s.amountCents) →
          (∀ u, received u ss - paid u ss = (computeNetBalances rawDebts).getD u 0) →
          result.settlements.length ≤ ss.length := by
  have hsettled : ∀ u, received u rawPayments - paid u rawPayments =
      (computeNetBalances rawDebts).getD u 0 := by
    intro u
    rcases em (u ∈ (computeNetBalances rawDebts).keys) with hu | hu
    · have hall : ∀ u ∈ (computeNetBalances rawDebts).keys, received u rawPayments - paid u rawPayments =
          (computeNetBalances rawDebts).getD u 0 := by decide
      exact hall u hu
    · have hlisted : ∀ s ∈ rawPayments, s.payeeId ∈ (computeNetBalances rawDebts).keys ∧
          s.payerId ∈ (computeNetBalances rawDebts).keys := by decide
      have hpayee : ∀ s ∈ rawPayments, s.payeeId ≠ u := by
        rintro s hs rfl
        exact hu (hlisted s hs).1
      have hpayer : ∀ s ∈ rawPayments, s.payerId ≠ u := by
        rintro s hs rfl
        exact hu (hlisted s hs).2
      rw [getD_of_not_mem_keys hu, received_eq_zero hpayee, paid_eq_zero hpayer, sub_zero]
  have hto := simplifiesTo_settle Runtime.sequential sum_rawDebts 3
  obtain ⟨result, hr, hs⟩ := hto.exists_result checksummable_rawDebts
  refine ⟨sum_rawDebts, result, hr, fun h => ?_⟩
  have hle := h rawPayments (by decide) hsettled
  rw [hs] at hle
  exact absurd hle (by decide +kernel)

/-! ## Checksum -/

/-- Between balances of users without a `':'` in their ids, equal checksums mean equal plans. Against
all balances, they do so exactly for balances of at most two such users, or without a checksum. -/
theorem checksum_identifies_plan_iff (R : Runtime) (hR : Function.Injective R.sha256) :
    (∀ m m' : Dict String ℤ, m.values.sum = 0 → m'.values.sum = 0 → NoColons m → NoColons m' →
      Identifies R m m') ∧
    ∀ m : Dict String ℤ, m.values.sum = 0 →
      ((∀ m' : Dict String ℤ, m'.values.sum = 0 → Identifies R m m') ↔
        (Checksummable R m → m.values.countP (· ≠ 0) ≤ 2 ∧ NoColons m)) := by
  refine ⟨fun m m' hz hz' hm hm' => .of_noColons hR hz hz' hm hm', fun m hz => ?_⟩
  rw [← count_sortedPlan_le_iff hz]
  constructor
  · exact fun h hsum => count_le_of_identifies hR hz hsum h
  · intro h m' hz'
    refine .of_checksummable hz hz' fun hsum hsum' => ?_
    have hcount := h hsum
    rw [identifies_iff hR hz hz' hsum hsum']
    intro htext
    -- the other text has as few colons, so its plan can be read back as well
    have hcount' : (planText (sortedPlan m')).count ':' ≤ 2 := by
      rw [← htext]
      exact hcount
    have hm := ((count_sortedPlan_le_iff hz).mp hcount).2
    have hm' := ((count_sortedPlan_le_iff hz').mp hcount').2
    exact (identifies_iff hR hz hz' hsum hsum').mp (.of_noColons hR hz hz' hm hm') htext

theorem noColons_of_keys {m : Dict String ℤ} (h : ∀ u ∈ m.keys, ':' ∉ u.toList) : NoColons m := by
  intro u hu
  apply h
  by_contra hnot
  exact hu (getD_of_not_mem_keys hnot)

theorem checksum_identifies_plan_iff_rawDebts :
    Identifies Runtime.sequential (computeNetBalances rawDebts) (computeNetBalances oneCreditor) ∧
      ¬ ∀ m', m'.values.sum = 0 → Identifies Runtime.sequential (computeNetBalances rawDebts) m' := by
  obtain ⟨hpair, hall⟩ := checksum_identifies_plan_iff Runtime.sequential Function.injective_id
  refine ⟨hpair _ _ sum_rawDebts (by decide) (noColons_of_keys (by decide)) (noColons_of_keys (by decide)),
    fun h => ?_⟩
  exact absurd ((hall _ sum_rawDebts).mp h checksummable_rawDebts).1 (by decide)

def colonInPayee : Dict String ℤ := owing (by decide : "a" ≠ "b:c") 5

def colonInPayer : Dict String ℤ := owing (by decide : "a:b" ≠ "c") 5

/-- Both payments have the text `a:b:c:5`. -/
theorem checksum_of_two_plans :
    Function.Injective Runtime.sequential.sha256 ∧ colonInPayee.values.sum = 0 ∧
      colonInPayer.values.sum = 0 ∧ ¬ Identifies Runtime.sequential colonInPayee colonInPayer := by
  refine ⟨Function.injective_id, rfl, rfl, fun h => ?_⟩
  have hsum : Checksummable Runtime.sequential colonInPayee :=
    .of_printable (fun _ _ => rfl) (by decide +kernel)
  have hsum' : Checksummable Runtime.sequential colonInPayer :=
    .of_printable (fun _ _ => rfl) (by decide +kernel)
  have hplan := (identifies_iff Function.injective_id rfl rfl hsum hsum').mp h
  rw [colonInPayee, colonInPayer, sortedPlan, sortedPlan, settle_owing (by decide),
    settle_owing (by decide)] at hplan
  exact absurd ((hplan (by decide) ⟨"a", "b:c", 5⟩).mp (List.mem_singleton_self _)) (by decide)

end ExpenseSettlement
