import ExpenseSettlement.Lib.Rounding
import ExpenseSettlement.Services.Lemmas.Splits
import Mathlib.Data.Rat.Floor

/-!
# The shares of an exact percentage split

With exact percentages every share but the last is a percentage of the total rounded down. The last one is its own
percentage, and what rounding took off the others, less what the percentages exceed 100 by.
-/

namespace ExpenseSettlement

open Lib

theorem truncate_eq_floor {x : ℚ} (h : 0 ≤ x) : truncate x = ⌊x⌋ := by
  rw [truncate, Int.tdiv_eq_ediv_of_nonneg (Rat.num_nonneg.mpr h), Rat.floor_def']

/-- The exact share of a percentage, in cents. -/
def exactShare (totalCents : ℤ) (p : ℚ) : ℚ := totalCents * p / 100

theorem exactShare_nonneg {totalCents : ℤ} {p : ℚ} (ht : 1 ≤ totalCents) (hp : 0 ≤ p) :
    0 ≤ exactShare totalCents p := by
  have ht' : (1 : ℚ) ≤ totalCents := by exact_mod_cast ht
  unfold exactShare
  positivity

theorem percentShare_eq_floor {totalCents : ℤ} {p : ℚ} (ht : 1 ≤ totalCents) (hp : 0 ≤ p) :
    percentShare totalCents p = ⌊exactShare totalCents p⌋ :=
  truncate_eq_floor (exactShare_nonneg ht hp)

theorem cents_eq_percentShare (totalCents : ℤ) (s : SplitInput ℚ) :
    s.cents totalCents = percentShare totalCents (s.percentage.getD 0) := by
  unfold SplitInput.cents
  cases s.percentage with
  | none => simp [percentShare, truncate]
  | some p => rfl

/-! ## Non-negative percentages -/

/-- Every split has a percentage, and it is not negative. -/
def PercentagesOk (inputs : List (SplitInput ℚ)) : Prop :=
  ∀ s ∈ inputs, ∃ p, s.percentage = some p ∧ 0 ≤ p

def percentages (inputs : List (SplitInput ℚ)) : List ℚ := inputs.map fun s => s.percentage.getD 0

theorem PercentagesOk.getD_nonneg {inputs : List (SplitInput ℚ)} (h : PercentagesOk inputs)
    {s : SplitInput ℚ} (hs : s ∈ inputs) : 0 ≤ s.percentage.getD 0 := by
  obtain ⟨p, hp, hp0⟩ := h s hs
  rw [hp]
  exact hp0

theorem PercentagesOk.filterMap {inputs : List (SplitInput ℚ)} (h : PercentagesOk inputs) :
    inputs.filterMap (·.percentage) = percentages inputs := by
  rw [percentages, ← List.filterMap_eq_map]
  refine List.filterMap_congr fun s hs => ?_
  obtain ⟨p, hp, -⟩ := h s hs
  simp [hp]

/-- The cents by which the percentages miss the total. -/
def discrepancy (totalCents : ℤ) (pcts : List ℚ) : ℚ := totalCents * (pcts.sum - 100) / 100

theorem discrepancy_eq_zero {pcts : List ℚ} (totalCents : ℤ) (h : pcts.sum = 100) :
    discrepancy totalCents pcts = 0 := by
  rw [discrepancy, h, sub_self, mul_zero, zero_div]

/-- The fractions of a cent that rounding takes off the shares of these percentages. -/
def roundedOff (totalCents : ℤ) (pcts : List ℚ) : ℚ := fractSum (pcts.map (exactShare totalCents))

section Shares

variable {totalCents : ℤ} {pre : List (SplitInput ℚ)} {last : SplitInput ℚ}

/-- The last share as an integer, before it is compared with its percentage. -/
def lastShare (totalCents : ℤ) (pcts : List ℚ) : ℤ :=
  totalCents - floorSum (pcts.map (exactShare totalCents))

theorem sum_exactShare (totalCents : ℤ) (pcts : List ℚ) :
    (pcts.map (exactShare totalCents)).sum = totalCents * pcts.sum / 100 := by
  induction pcts with
  | nil => simp
  | cons p pcts ih =>
      rw [List.map_cons, List.sum_cons, ih, List.sum_cons, exactShare]
      ring

theorem lastShare_eq (totalCents : ℤ) (pcts : List ℚ) (p : ℚ) :
    (lastShare totalCents pcts : ℚ) =
      exactShare totalCents p + roundedOff totalCents pcts - discrepancy totalCents (pcts ++ [p]) := by
  have hsum := floorSum_add_fractSum (pcts.map (exactShare totalCents))
  rw [sum_exactShare] at hsum
  rw [lastShare, roundedOff, discrepancy, exactShare, List.sum_append, List.sum_singleton, Int.cast_sub]
  linarith only [hsum]

theorem splitPercentage_concat {R : Runtime} {splits : List Split} (ht : 1 ≤ totalCents)
    (hp : PercentagesOk (pre ++ [last]))
    (h : splitPercentage R (pre ++ [last]) totalCents = .ok splits) :
    splits = pre.map (fun s => ⟨s.userId, ⌊exactShare totalCents (s.percentage.getD 0)⌋⟩) ++
      [⟨last.userId, lastShare totalCents (percentages pre)⟩] := by
  have hfloor : ∀ s ∈ pre, s.cents totalCents = ⌊exactShare totalCents (s.percentage.getD 0)⌋ := by
    intro s hs
    rw [cents_eq_percentShare]
    exact percentShare_eq_floor ht (hp.getD_nonneg (List.mem_append_left _ hs))
  rw [(splitPercentage_eq_ok.mp h).2, percentSplits, lastShare, floorSum, percentages, List.map_map,
    List.map_map, List.map_congr_left hfloor]
  congr 1
  exact List.map_congr_left fun s hs => by rw [hfloor s hs]

end Shares

/-! ## Shares in proportion -/

/-- No share is negative, and each is less than as many cents as there are shares off its part of the
total. -/
def Proportional (totalCents : ℤ) (inputs : List (SplitInput ℚ)) (splits : List Split) : Prop :=
  List.Forall₂ (fun s share => 0 ≤ share.amountCents ∧
    |(share.amountCents : ℚ) - totalCents * s.percentage.getD 0 / (percentages inputs).sum| <
      inputs.length) inputs splits

/-- The last percentage and the fractions rounded off cover the discrepancy. The part of it that falls
on a percentage, and the part that the last share takes over from the others, stay within as many cents
as there are percentages of what is rounded off there. -/
structure Fits (totalCents : ℤ) (pre : List ℚ) (last : ℚ) : Prop where
  covered : discrepancy totalCents (pre ++ [last]) ≤
    exactShare totalCents last + roundedOff totalCents pre
  each : ∀ p ∈ pre, |p / (pre ++ [last]).sum * discrepancy totalCents (pre ++ [last]) -
    Int.fract (exactShare totalCents p)| < (pre ++ [last]).length
  rest : |pre.sum / (pre ++ [last]).sum * discrepancy totalCents (pre ++ [last]) -
    roundedOff totalCents pre| < (pre ++ [last]).length

def DiscrepancyFits (totalCents : ℤ) (pcts : List ℚ) : Prop :=
  ∀ pre last, pcts = pre ++ [last] → Fits totalCents pre last

section Proportional

variable {totalCents : ℤ} {pcts pre : List ℚ} {p last : ℚ}

theorem floor_sub_proportion (hsum : pcts.sum ≠ 0) :
    (⌊exactShare totalCents p⌋ : ℚ) - totalCents * p / pcts.sum =
      p / pcts.sum * discrepancy totalCents pcts - Int.fract (exactShare totalCents p) := by
  have hfloor := Int.floor_add_fract (exactShare totalCents p)
  have hexact : exactShare totalCents p - totalCents * p / pcts.sum =
      p / pcts.sum * discrepancy totalCents pcts := by
    rw [exactShare, discrepancy]
    field_simp
  linarith only [hfloor, hexact]

theorem lastShare_sub_proportion (hsum : (pre ++ [last]).sum ≠ 0) :
    (lastShare totalCents pre : ℚ) - totalCents * last / (pre ++ [last]).sum =
      roundedOff totalCents pre -
        pre.sum / (pre ++ [last]).sum * discrepancy totalCents (pre ++ [last]) := by
  have hexact : exactShare totalCents last - totalCents * last / (pre ++ [last]).sum =
      last / (pre ++ [last]).sum * discrepancy totalCents (pre ++ [last]) := by
    rw [exactShare, discrepancy]
    field_simp
  have hparts : last / (pre ++ [last]).sum = 1 - pre.sum / (pre ++ [last]).sum := by
    rw [eq_sub_iff_add_eq, ← add_div, div_eq_one_iff_eq hsum, List.sum_append, List.sum_singleton,
      add_comm]
  rw [hparts] at hexact
  rw [lastShare_eq totalCents pre last]
  linarith only [hexact]

/-- Percentages that add up to 100 exactly leave no discrepancy. -/
theorem DiscrepancyFits.of_sum (ht : 1 ≤ totalCents) (hp : ∀ p ∈ pcts, 0 ≤ p) (hsum : pcts.sum = 100) :
    DiscrepancyFits totalCents pcts := by
  have hzero := discrepancy_eq_zero totalCents hsum
  rintro pre last rfl
  refine ⟨?_, fun p _ => ?_, ?_⟩
  · rw [hzero]
    exact add_nonneg (exactShare_nonneg ht (hp last (by simp))) (fractSum_nonneg _)
  · rw [hzero, mul_zero, zero_sub, abs_neg, abs_of_nonneg (Int.fract_nonneg _)]
    have hlt := Int.fract_lt_one (exactShare totalCents p)
    have hlen : (1 : ℚ) ≤ (pre ++ [last]).length := by
      rw [List.length_append, List.length_singleton, Nat.cast_add_one]
      exact le_add_of_nonneg_left (Nat.cast_nonneg _)
    exact hlt.trans_le hlen
  · rw [hzero, mul_zero, zero_sub, abs_neg, abs_of_nonneg (fractSum_nonneg _)]
    have hle := fractSum_le_length (pre.map (exactShare totalCents))
    rw [List.length_map] at hle
    rw [List.length_append, List.length_singleton, Nat.cast_add_one]
    exact hle.trans_lt (lt_add_one _)

end Proportional

theorem forall₂_map_concat_iff {α β : Type} {r : α → β → Prop} {f : α → β} {pre : List α} {x : α}
    {y : β} : List.Forall₂ r (pre ++ [x]) (pre.map f ++ [y]) ↔ (∀ a ∈ pre, r a (f a)) ∧ r x y := by
  induction pre with
  | nil => simp
  | cons a pre ih =>
      rw [List.cons_append, List.map_cons, List.cons_append, List.forall₂_cons, ih,
        List.forall_mem_cons, and_assoc]

/-- What is accepted adds up to 100 within a hundredth. -/
theorem splitPercentage_sum {R : Runtime} {totalCents : ℤ} {splits : List Split} {pre : List (SplitInput ℚ)}
    {last : SplitInput ℚ} (hp : PercentagesOk (pre ++ [last]))
    (h : splitPercentage R (pre ++ [last]) totalCents = .ok splits) :
    |(percentages (pre ++ [last])).sum - 100| ≤ 1 / 100 := by
  have hsum := (splitPercentage_eq_ok.mp h).1.sum
  rw [hp.filterMap] at hsum
  exact not_lt.mp (of_decide_eq_false hsum)

theorem splitPercentage_sum_ne_zero {R : Runtime} {totalCents : ℤ} {splits : List Split}
    {pre : List (SplitInput ℚ)} {last : SplitInput ℚ} (hp : PercentagesOk (pre ++ [last]))
    (h : splitPercentage R (pre ++ [last]) totalCents = .ok splits) :
    (percentages (pre ++ [last])).sum ≠ 0 := by
  obtain ⟨hlow, -⟩ := abs_le.mp (splitPercentage_sum hp h)
  intro hzero
  rw [hzero] at hlow
  norm_num at hlow

theorem splitPercentage_nil (R : Runtime) (totalCents : ℤ) (splits : List Split) :
    splitPercentage R ([] : List (SplitInput ℚ)) totalCents ≠ .ok splits := by
  have hmisses : Percentage.missesHundred (Percentage.sum ([] : List ℚ)) = true := by decide +kernel
  simp only [splitPercentage, percentagesOf, List.map_nil, hmisses, ↓reduceIte]
  intro h
  cases h

theorem percentages_concat (pre : List (SplitInput ℚ)) (last : SplitInput ℚ) :
    percentages (pre ++ [last]) = percentages pre ++ [last.percentage.getD 0] := by
  rw [percentages, List.map_append, List.map_singleton]
  rfl

theorem lastShare_nonneg_iff (totalCents : ℤ) (pcts : List ℚ) (p : ℚ) :
    0 ≤ lastShare totalCents pcts ↔
      discrepancy totalCents (pcts ++ [p]) ≤ exactShare totalCents p + roundedOff totalCents pcts := by
  rw [← Int.cast_nonneg_iff (R := ℚ), lastShare_eq totalCents pcts p, sub_nonneg]

theorem proportional_concat_iff {R : Runtime} {totalCents : ℤ} {pre : List (SplitInput ℚ)}
    {last : SplitInput ℚ} {splits : List Split} (ht : 1 ≤ totalCents)
    (hp : PercentagesOk (pre ++ [last]))
    (h : splitPercentage R (pre ++ [last]) totalCents = .ok splits) :
    Proportional totalCents (pre ++ [last]) splits ↔
      Fits totalCents (percentages pre) (last.percentage.getD 0) := by
  have hsum := splitPercentage_sum_ne_zero hp h
  have hlen : (pre ++ [last]).length = (percentages pre ++ [last.percentage.getD 0]).length := by
    rw [← percentages_concat, percentages, List.length_map]
  have hfloor : ∀ s ∈ pre, 0 ≤ ⌊exactShare totalCents (s.percentage.getD 0)⌋ := fun s hs =>
    Int.floor_nonneg.mpr (exactShare_nonneg ht (hp.getD_nonneg (List.mem_append_left _ hs)))
  rw [Proportional, splitPercentage_concat ht hp h, forall₂_map_concat_iff, hlen,
    lastShare_nonneg_iff totalCents _ (last.percentage.getD 0)]
  simp only [floor_sub_proportion hsum]
  rw [percentages_concat] at hsum ⊢
  rw [lastShare_sub_proportion hsum, abs_sub_comm (roundedOff totalCents (percentages pre))]
  constructor
  · rintro ⟨hpre, hle, hdiff⟩
    refine ⟨hle, fun p hp => ?_, hdiff⟩
    obtain ⟨s, hs, rfl⟩ := List.mem_map.mp hp
    exact (hpre s hs).2
  · rintro ⟨hle, hpre, hdiff⟩
    exact ⟨fun s hs => ⟨hfloor s hs, hpre _ (List.mem_map_of_mem hs)⟩, hle, hdiff⟩

end ExpenseSettlement
