import ExpenseSettlement.Core.Lemmas.Hashing
import ExpenseSettlement.Core.Lemmas.Plan

/-!
# When a plan is returned

The matching loop always comes to its plan. The checksum line raises where an amount of the plan has too
many digits for a text, or an id in it cannot be encoded, which can be read off the balances.
-/

namespace ExpenseSettlement

open Lib DebtSimplifier

variable {R : Runtime}

/-! ## The text of a plan -/

def Settlement.text (s : Settlement) : String := s!"{s.payerId}:{s.payeeId}:{s.amountCents}"

/-- The joined records in the order of the checksum, however many digits the amounts have. -/
def checksumText (settlements : List Settlement) : String :=
  String.intercalate "|" ((settlements.insertionSort byPair).map (·.text))

structure Settlement.Hashable (R : Runtime) (s : Settlement) : Prop where
  payer : R.encodes s.payerId = true
  payee : R.encodes s.payeeId = true
  amount : Printable s.amountCents

theorem recordTexts_of_printable {ss : List Settlement} (h : ∀ s ∈ ss, Printable s.amountCents) :
    recordTexts ss = .ok (ss.map (·.text)) := by
  induction ss with
  | nil => rfl
  | cons s ss ih =>
      rw [List.forall_mem_cons] at h
      simp only [recordTexts, strInt_of_printable h.1, ih h.2]
      rfl

theorem recordTexts_of_not_printable {ss : List Settlement} (h : ¬ ∀ s ∈ ss, Printable s.amountCents) :
    ∃ message, recordTexts ss = .error (.valueError message) := by
  induction ss with
  | nil => exact absurd (by simp) h
  | cons s ss ih =>
      rw [List.forall_mem_cons, not_and_or] at h
      by_cases hs : Printable s.amountCents
      · obtain ⟨message, he⟩ := ih (h.resolve_left (not_not.mpr hs))
        exact ⟨message, by simp only [recordTexts, strInt_of_printable hs, he]⟩
      · obtain ⟨message, he⟩ := strInt_of_not_printable hs
        exact ⟨message, by simp only [recordTexts, he]⟩

theorem encodes_text_iff {s : Settlement} :
    R.encodes s.text = true ↔ R.encodes s.payerId = true ∧ R.encodes s.payeeId = true := by
  have hcolon : R.encodes ":" = true := R.encodes_ascii _ (by decide)
  have htext : s.text = s.payerId ++ ":" ++ s.payeeId ++ ":" ++ toString s.amountCents := rfl
  simp only [htext, Runtime.encodes_append_iff, hcolon, Runtime.encodes_toString_int, and_true]

theorem encodes_intercalate_iff {texts : List String} :
    R.encodes (String.intercalate "|" texts) = true ↔ ∀ t ∈ texts, R.encodes t = true := by
  have hbar : R.encodes "|" = true := R.encodes_ascii _ (by decide)
  induction texts with
  | nil => simpa using R.encodes_ascii "" (by decide)
  | cons t texts ih =>
      cases texts with
      | nil => simp
      | cons u texts =>
          rw [String.intercalate_cons_cons, Runtime.encodes_append_iff, Runtime.encodes_append_iff,
            List.forall_mem_cons, and_assoc]
          simp only [hbar, true_and]
          exact and_congr_right' ih

theorem encodes_checksumText_iff {ss : List Settlement} : R.encodes (checksumText ss) = true ↔
    ∀ s ∈ ss, R.encodes s.payerId = true ∧ R.encodes s.payeeId = true := by
  simp only [checksumText, encodes_intercalate_iff, List.forall_mem_map, encodes_text_iff,
    List.mem_insertionSort]

theorem checksum_cases (R : Runtime) (ss : List Settlement) :
    ((∀ s ∈ ss, s.Hashable R) ∧ checksum R ss = .ok (R.sha256 (checksumText ss))) ∨
    (¬ (∀ s ∈ ss, s.Hashable R) ∧ ∃ e, IsTextError e ∧ checksum R ss = .error e) := by
  have hsort : ∀ s, s ∈ ss.insertionSort byPair ↔ s ∈ ss := fun s => List.mem_insertionSort _
  have hencodes := @encodes_checksumText_iff R ss
  by_cases hp : ∀ s ∈ ss, Printable s.amountCents
  · have hinput : checksumInput ss = .ok (checksumText ss) := by
      rw [checksumInput, recordTexts_of_printable fun s hs => hp s ((hsort s).mp hs)]
      rfl
    rw [checksum, hinput]
    by_cases he : R.encodes (checksumText ss) = true
    · exact .inl ⟨fun s hs => ⟨(hencodes.mp he s hs).1, (hencodes.mp he s hs).2, hp s hs⟩, if_pos he⟩
    · exact .inr ⟨fun h => he (hencodes.mpr fun s hs => ⟨(h s hs).payer, (h s hs).payee⟩),
        .unicodeEncodeError, trivial, if_neg he⟩
  · have hsorted : ¬ ∀ s ∈ ss.insertionSort byPair, Printable s.amountCents :=
      fun h => hp fun s hs => h s ((hsort s).mpr hs)
    obtain ⟨message, he⟩ := recordTexts_of_not_printable hsorted
    refine .inr ⟨fun h => hp fun s hs => (h s hs).amount, .valueError message, trivial, ?_⟩
    rw [checksum, checksumInput, he]

theorem checksum_congr {ss ts : List Settlement} (h : ss.insertionSort byPair = ts.insertionSort byPair) :
    checksum R ss = checksum R ts := by
  rw [checksum, checksum, checksumInput, checksumInput, h]

variable {netBalances : Dict String ℤ}

/-- On balances that sum to zero `simplify` comes to its plan, and returns it if the checksum is there. -/
theorem simplify_cases (R : Runtime) (hz : netBalances.values.sum = 0) (originalTxCount : ℤ) :
    (∃ result, simplify R netBalances originalTxCount = .ok result ∧
      result.settlements = settle netBalances ∧
      checksum R (settle netBalances) = .ok result.checksum) ∨
    ∃ e, simplify R netBalances originalTxCount = .error e ∧ checksum R (settle netBalances) = .error e := by
  have hnot : ¬ netBalances.values.sum ≠ 0 := not_not.mpr hz
  cases hsum : checksum R (settle netBalances) with
  | error e => exact .inr ⟨e, by simp only [simplify, if_neg hnot, hsum], rfl⟩
  | ok checksum =>
      simp only [simplify, if_neg hnot, hsum]
      exact .inl ⟨_, rfl, rfl, rfl⟩

theorem simplify_ne_zeroSumViolation (hz : netBalances.values.sum = 0) (originalTxCount : ℤ)
    (message : String) :
    simplify R netBalances originalTxCount ≠ .error (.zeroSumViolationError message) := by
  intro h
  rcases simplify_cases R hz originalTxCount with ⟨result, hr, -⟩ | ⟨e, he, hc⟩
  · rw [hr] at h
    cases h
  · obtain rfl := Except.error.inj (he.symm.trans h)
    rcases checksum_cases R (settle netBalances) with ⟨-, hok⟩ | ⟨-, e, ht, hc'⟩
    · rw [hok] at hc
      cases hc
    · obtain rfl := Except.error.inj (hc'.symm.trans hc)
      cases ht

/-! ## What the balances say of it -/

theorem exists_settlement (hz : netBalances.values.sum = 0) {u : String} (hu : netBalances.getD u 0 ≠ 0) :
    ∃ s ∈ settle netBalances, s.payerId = u ∨ s.payeeId = u := by
  by_contra hnone
  push Not at hnone
  apply hu
  rw [← settle_accounted hz u, received_eq_zero fun s hs => (hnone s hs).2,
    paid_eq_zero fun s hs => (hnone s hs).1, sub_zero]

theorem settle_amount_le (hz : netBalances.values.sum = 0) {s : Settlement} (hs : s ∈ settle netBalances) :
    s.amountCents ≤ -netBalances.getD s.payerId 0 ∧ s.amountCents ≤ netBalances.getD s.payeeId 0 :=
  (Greedy.settle_clears hz).amount_le s.toPayment (List.mem_map_of_mem hs)

theorem getD_mem_items {u : String} (hu : netBalances.getD u 0 ≠ 0) :
    (u, netBalances.getD u 0) ∈ netBalances.items := by
  rw [Dict.getD] at hu ⊢
  cases hg : netBalances.get? u with
  | none =>
      rw [hg] at hu
      exact absurd rfl hu
  | some n => exact Dict.get?_eq_some.mp hg

/-- The first payment is between the largest creditor and the largest debtor. -/
theorem exists_settlement_ge (hz : netBalances.values.sum = 0) {bound : ℤ} (hb : 0 < bound) {u v : String}
    (hu : bound ≤ netBalances.getD u 0) (hv : netBalances.getD v 0 ≤ -bound) :
    ∃ s ∈ settle netBalances, bound ≤ s.amountCents := by
  cases hs : Greedy.loop.step (Greedy.start netBalances) with
  | none =>
      have heven : netBalances.getD u 0 = 0 := Greedy.even_of_done hs hz u
      omega
  | some s =>
      obtain ⟨creditor, debtor, credit, debt, others, hp⟩ := Greedy.step_eq_some hs
      have hcredit : netBalances.getD u 0 ≤ credit := by
        refine Greedy.amount_le_of_scan hp.largestCredit (u, netBalances.getD u 0) ?_
        have hpos : 0 < netBalances.getD u 0 := by omega
        exact List.mem_filter.mpr ⟨getD_mem_items hpos.ne', decide_eq_true hpos⟩
      have hdebt : -netBalances.getD v 0 ≤ debt := by
        refine Greedy.amount_le_of_scan hp.largestDebt (v, -netBalances.getD v 0) ?_
        have hneg : netBalances.getD v 0 < 0 := by omega
        exact List.mem_map.mpr ⟨(v, netBalances.getD v 0),
          List.mem_filter.mpr ⟨getD_mem_items hneg.ne, decide_eq_true hneg⟩, rfl⟩
      obtain ⟨settlements, hrun, -, -⟩ := Greedy.run_clears s (hp.sum_eq.trans hz)
      refine ⟨⟨debtor, creditor, min credit debt⟩, ?_, le_min (hu.trans hcredit) (by omega)⟩
      rw [Greedy.settle_eq_plan, Greedy.plan, Greedy.loop.run_of_step hs, hrun, hp.settlements]
      simp

/-- What has to hold of the balances for the checksum of their plan. -/
structure Checksummable (R : Runtime) (netBalances : Dict String ℤ) : Prop where
  ids : ∀ u, netBalances.getD u 0 ≠ 0 → R.encodes u = true
  amounts : ¬ ((∃ u, 10 ^ maxStrDigits ≤ netBalances.getD u 0) ∧
    ∃ u, netBalances.getD u 0 ≤ -10 ^ maxStrDigits)

theorem Checksummable.of_printable (hids : ∀ u ∈ netBalances.keys, R.encodes u = true)
    (h : ∀ n ∈ netBalances.values, Printable n) : Checksummable R netBalances := by
  refine ⟨fun u hu => hids u (List.mem_map_of_mem (getD_mem_items hu)), ?_⟩
  rintro ⟨⟨u, hu⟩, -⟩
  have hbound : (0 : ℤ) < 10 ^ maxStrDigits := pow_pos (by decide) _
  have hpos : 0 < netBalances.getD u 0 := hbound.trans_le hu
  have hlt := (printable_iff hpos).mp (h _ (List.mem_map_of_mem (getD_mem_items hpos.ne')))
  omega

theorem Checksummable.of_even (h : ∀ u, netBalances.getD u 0 = 0) : Checksummable R netBalances := by
  refine ⟨fun u hu => absurd (h u) hu, ?_⟩
  rintro ⟨⟨u, hu⟩, -⟩
  have hbound : (0 : ℤ) < 10 ^ maxStrDigits := pow_pos (by decide) _
  rw [h u] at hu
  omega

theorem hashable_settle_iff (hz : netBalances.values.sum = 0) :
    (∀ s ∈ settle netBalances, s.Hashable R) ↔ Checksummable R netBalances := by
  have hbound : (0 : ℤ) < 10 ^ maxStrDigits := pow_pos (by decide) _
  constructor
  · intro h
    refine ⟨fun u hu => ?_, ?_⟩
    · obtain ⟨s, hs, rfl | rfl⟩ := exists_settlement hz hu
      · exact (h s hs).payer
      · exact (h s hs).payee
    · rintro ⟨⟨u, hu⟩, v, hv⟩
      obtain ⟨s, hs, hle⟩ := exists_settlement_ge hz hbound hu hv
      have hprintable := (printable_iff (settle_pos hz hs)).mp (h s hs).amount
      omega
  · intro h s hs
    obtain ⟨hpayer, hpayee, hpos⟩ := settle_sides hz hs
    obtain ⟨hdebt, hcredit⟩ := settle_amount_le hz hs
    refine ⟨h.ids _ hpayer.ne, h.ids _ hpayee.ne', (printable_iff hpos).mpr ?_⟩
    by_contra hlarge
    exact h.amounts ⟨⟨s.payeeId, by omega⟩, ⟨s.payerId, by omega⟩⟩

theorem simplify_returns_iff (hz : netBalances.values.sum = 0) (originalTxCount : ℤ) :
    (∃ result, simplify R netBalances originalTxCount = .ok result) ↔ Checksummable R netBalances := by
  rw [← hashable_settle_iff hz]
  rcases checksum_cases R (settle netBalances) with ⟨h, hc⟩ | ⟨h, e, -, hc⟩
  · rcases simplify_cases R hz originalTxCount with ⟨result, hr, -⟩ | ⟨e, -, he⟩
    · exact ⟨fun _ => h, fun _ => ⟨result, hr⟩⟩
    · rw [hc] at he
      cases he
  · rcases simplify_cases R hz originalTxCount with ⟨result, -, -, he⟩ | ⟨e, he, -⟩
    · rw [hc] at he
      cases he
    · rw [he]
      constructor
      · rintro ⟨_, hr⟩
        cases hr
      · intro hn
        exact absurd hn h

/-- The loop comes to the plan, and `simplify` returns it with its checksum unless that is missing. -/
structure SimplifiesTo (R : Runtime) (netBalances : Dict String ℤ) (originalTxCount : ℤ)
    (plan : List Settlement) : Prop where
  loop : matching.step (matching.run (initialState netBalances)) = none ∧
    (matching.run (initialState netBalances)).settlements = plan
  returns : Checksummable R netBalances → ∃ result, simplify R netBalances originalTxCount = .ok result
  settlements : ∀ result, simplify R netBalances originalTxCount = .ok result → result.settlements = plan
  checksum : ∀ result, simplify R netBalances originalTxCount = .ok result →
    checksum R plan = .ok result.checksum

theorem simplifiesTo_settle (R : Runtime) (hz : netBalances.values.sum = 0) (originalTxCount : ℤ) :
    SimplifiesTo R netBalances originalTxCount (settle netBalances) where
  loop := ⟨matching.run_done _, rfl⟩
  returns := (simplify_returns_iff hz originalTxCount).mpr
  settlements := by
    intro result hr
    rcases simplify_cases R hz originalTxCount with ⟨result', hr', hs, -⟩ | ⟨e, he, -⟩
    · obtain rfl := Except.ok.inj (hr.symm.trans hr')
      exact hs
    · rw [he] at hr
      cases hr
  checksum := by
    intro result hr
    rcases simplify_cases R hz originalTxCount with ⟨result', hr', -, hc⟩ | ⟨e, he, -⟩
    · obtain rfl := Except.ok.inj (hr.symm.trans hr')
      exact hc
    · rw [he] at hr
      cases hr

theorem SimplifiesTo.exists_result {originalTxCount : ℤ} {plan : List Settlement}
    (h : SimplifiesTo R netBalances originalTxCount plan) (hsum : Checksummable R netBalances) :
    ∃ result, simplify R netBalances originalTxCount = .ok result ∧ result.settlements = plan := by
  obtain ⟨result, hr⟩ := h.returns hsum
  exact ⟨result, hr, h.settlements result hr⟩

end ExpenseSettlement
