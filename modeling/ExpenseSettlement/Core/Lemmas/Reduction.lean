import ExpenseSettlement.Core.Lemmas.Returns
import Mathlib.Tactic.Positivity

/-!
# The reported reduction

A plan is compared with a number of original transactions that its caller counts. It has fewer payments
than there are users to pay or be paid, and no fewer than a division of these into zero-sum groups allows.
-/

namespace ExpenseSettlement

open Lib DebtSimplifier

/-- What is reported is a reduction: no more settlements than transactions, and a ratio between 0
and 1. -/
def Reduces (txCount settlementCount : ℤ) (ratio : ℚ) : Prop :=
  settlementCount ≤ txCount ∧ 0 ≤ ratio ∧ ratio ≤ 1

variable {netBalances : Dict String ℤ} {n : ℤ}

/-- Whether a report against `n` transactions is a reduction, as far as the balances alone say. -/
structure ReducesFor (netBalances : Dict String ℤ) (n settlementCount : ℤ) (ratio : ℚ) : Prop where
  /-- It is one where at most `n + 1` users have a balance. -/
  of_few : ((uneven netBalances).length : ℤ) ≤ n + 1 → Reduces n settlementCount ratio
  /-- It is one only where these are at most `n` more than the zero-sum groups they fall into. -/
  groups : Reduces n settlementCount ratio → ∃ g : String → ℕ,
    Balanced (uneven netBalances).toFinset (netBalances.getD · 0) g ∧
      ((uneven netBalances).length : ℤ) ≤ n + groupCount (uneven netBalances).toFinset g

theorem length_settle_le_of_few (hz : netBalances.values.sum = 0) (hn : 0 ≤ n)
    (h : ((uneven netBalances).length : ℤ) ≤ n + 1) : ((settle netBalances).length : ℤ) ≤ n := by
  rw [length_uneven] at h
  rcases Nat.eq_zero_or_pos (netBalances.values.countP (· ≠ 0)) with hk | hk
  · rw [settle_eq_nil hz hk]
    exact hn
  · have hlt := length_settle_lt hz hk
    omega

theorem exists_groups_of_length_settle_le (hz : netBalances.values.sum = 0)
    (h : ((settle netBalances).length : ℤ) ≤ n) : ∃ g : String → ℕ,
    Balanced (uneven netBalances).toFinset (netBalances.getD · 0) g ∧
      ((uneven netBalances).length : ℤ) ≤ n + groupCount (uneven netBalances).toFinset g := by
  have hV : ∀ u ∉ (uneven netBalances).toFinset, netBalances.getD u 0 = 0 :=
    fun u hu => getD_of_not_mem_uneven fun hm => hu (List.mem_toFinset.mpr hm)
  obtain ⟨g, hb, hcard⟩ := (Greedy.settle_clears hz).settles.exists_balanced hV
  rw [List.length_map, List.toFinset_card_of_nodup nodup_uneven] at hcard
  exact ⟨g, hb, by omega⟩

theorem reduces_iff (hn : 0 < n) {k : ℤ} (hk : 0 ≤ k) : Reduces n k (1 - (k : ℚ) / n) ↔ k ≤ n := by
  have hn' : (0 : ℚ) < n := by exact_mod_cast hn
  have hk' : (0 : ℚ) ≤ k := by exact_mod_cast hk
  rw [Reduces, sub_nonneg, div_le_one hn', sub_le_self_iff, Int.cast_le]
  exact ⟨fun h => h.1, fun h => ⟨h, h, by positivity⟩⟩

theorem simplify_ratio {R : Runtime} {result : DebtSimplifierResult} (hz : netBalances.values.sum = 0)
    (hn : 0 < n) (h : simplify R netBalances n = .ok result) :
    result.reductionRatio = 1 - ((result.settlements.length : ℤ) : ℚ) / n := by
  unfold simplify at h
  rw [if_neg (not_not.mpr hz)] at h
  cases hc : checksum R (settle netBalances) with
  | error e =>
      simp only [hc] at h
      cases h
  | ok text =>
      simp only [hc, gt_iff_lt, hn, ↓reduceIte, Except.ok.injEq] at h
      rw [← h]

theorem simplify_reducesFor {R : Runtime} {result : DebtSimplifierResult} (hz : netBalances.values.sum = 0)
    (hn : 0 < n) (h : simplify R netBalances n = .ok result) :
    ReducesFor netBalances n result.settlements.length result.reductionRatio := by
  have hiff := reduces_iff hn (Int.natCast_nonneg result.settlements.length)
  rw [simplify_ratio hz hn h, (simplifiesTo_settle R hz n).settlements result h] at *
  exact ⟨fun hfew => hiff.mpr (length_settle_le_of_few hz hn.le hfew),
    fun hr => exists_groups_of_length_settle_le hz (hiff.mp hr)⟩

end ExpenseSettlement
