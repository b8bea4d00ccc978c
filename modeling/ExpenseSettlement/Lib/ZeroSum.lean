import Mathlib.Algebra.BigOperators.Group.Finset.Basic
import Mathlib.Algebra.BigOperators.Group.Finset.Piecewise
import Mathlib.Algebra.BigOperators.Ring.Finset
import Mathlib.Data.Finset.Sort
import Mathlib.Data.Finset.Lattice.Fold
import Mathlib.Algebra.Order.Ring.Int
import Mathlib.Order.Lattice.Nat
import Mathlib.Tactic.Ring

/-!
# Zero-sum groupings

Balances are grouped by labels so that every group adds up to zero. Groups can be merged, a balance
of zero can be split off, and some zero-sum grouping has as many groups as there can be.
-/

namespace Lib

open Finset

variable {U : Type} {V W : Finset U} {b : U → ℤ} {g : U → ℕ}

/-- The balances in `V` that have one label add up to zero. -/
def Balanced (V : Finset U) (b : U → ℤ) (g : U → ℕ) : Prop := ∀ k, ∑ u ∈ V.filter (g · = k), b u = 0

def groupCount (V : Finset U) (g : U → ℕ) : ℕ := (V.image g).card

/-- No grouping into zero-sum groups has more of them. -/
def Finest (V : Finset U) (b : U → ℤ) (g : U → ℕ) : Prop :=
  Balanced V b g ∧ ∀ g', Balanced V b g' → groupCount V g' ≤ groupCount V g

theorem groupCount_le (V : Finset U) (g : U → ℕ) : groupCount V g ≤ V.card := card_image_le

/-- A grouping is balanced if no weighting of its labels shows a difference. -/
theorem balanced_iff : Balanced V b g ↔ ∀ f : ℕ → ℤ, ∑ u ∈ V, f (g u) * b u = 0 := by
  constructor
  · intro h f
    rw [← sum_fiberwise_of_maps_to (t := V.image g) (g := g) fun u hu => mem_image_of_mem g hu]
    apply sum_eq_zero
    intro k _
    have hk : ∑ u ∈ V.filter (g · = k), f (g u) * b u = f k * ∑ u ∈ V.filter (g · = k), b u := by
      rw [mul_sum]
      apply sum_congr rfl
      intro u hu
      rw [(mem_filter.mp hu).2]
    rw [hk, h k, mul_zero]
  · intro h k
    have hk := h fun l => if l = k then 1 else 0
    simp only [ite_mul, one_mul, zero_mul] at hk
    rw [sum_filter]
    exact hk

theorem Balanced.of_zero (h : ∀ u ∈ V, b u = 0) (g : U → ℕ) : Balanced V b g := by
  intro k
  exact sum_eq_zero fun u hu => h u (mem_filter.mp hu).1

theorem Balanced.exists_finest (h : Balanced V b g) : ∃ g, Finest V b g := by
  obtain ⟨g₀, hg₀, hmin⟩ := (measure fun g : U → ℕ => V.card - groupCount V g).wf.has_min
    {g | Balanced V b g} ⟨g, h⟩
  refine ⟨g₀, hg₀, fun g' hg' => ?_⟩
  have hle := groupCount_le V g'
  have hnot : ¬ V.card - groupCount V g' < V.card - groupCount V g₀ := hmin g' hg'
  omega

/-- Balances of zero outside `V` do not count. -/
theorem Balanced.restrict (h : Balanced W b g) (hVW : V ⊆ W) (hb : ∀ u ∉ V, b u = 0) :
    Balanced V b g := by
  rw [balanced_iff] at h ⊢
  intro f
  rw [sum_subset hVW fun u _ hu => by rw [hb u hu, mul_zero]]
  exact h f

/-- A label that nobody has. -/
def freshLabel (V : Finset U) (g : U → ℕ) : ℕ := V.sup g + 1

theorem freshLabel_notMem : freshLabel V g ∉ V.image g := by
  intro h
  obtain ⟨u, hu, he⟩ := mem_image.mp h
  have hle : g u ≤ V.sup g := le_sup hu
  rw [he, freshLabel] at hle
  omega

/-! ## Merging -/

/-- The group of `x` joins that of `y`. -/
def merge (g : U → ℕ) (x y : U) : U → ℕ := fun u => if g u = g x then g y else g u

theorem merge_left (g : U → ℕ) (x y : U) : merge g x y x = g y := if_pos rfl

theorem merge_right (g : U → ℕ) (x y : U) : merge g x y y = g y := by
  rw [merge]
  split
  · rfl
  · rfl

theorem merge_congr {x y u v : U} (h : g u = g v) : merge g x y u = merge g x y v := by
  rw [merge, merge, h]

theorem groupCount_merge (V : Finset U) (g : U → ℕ) (x y : U) :
    groupCount V g ≤ groupCount V (merge g x y) + 1 := by
  rw [groupCount, groupCount]
  refine (card_le_card ?_).trans (card_insert_le (g x) _)
  intro k hk
  obtain ⟨u, hu, rfl⟩ := mem_image.mp hk
  rcases eq_or_ne (g u) (g x) with he | hne
  · rw [he]
    exact mem_insert_self _ _
  · exact mem_insert_of_mem (mem_image.mpr ⟨u, hu, if_neg hne⟩)

variable [DecidableEq U]

theorem groupCount_restrict (hVW : V ⊆ W) (g : U → ℕ) :
    groupCount W g ≤ groupCount V g + (W.card - V.card) := by
  rw [groupCount, groupCount, ← card_sdiff_of_subset hVW]
  calc (W.image g).card
      = (V.image g ∪ (W \ V).image g).card := by rw [← image_union, union_sdiff_of_subset hVW]
    _ ≤ (V.image g).card + ((W \ V).image g).card := card_union_le _ _
    _ ≤ (V.image g).card + (W \ V).card := Nat.add_le_add_left card_image_le _

/-! ## Labels of their own -/

theorem exists_groupCount_eq_card (V : Finset U) : ∃ g : U → ℕ, groupCount V g = V.card := by
  refine ⟨fun u => V.toList.idxOf u, card_image_of_injOn ?_⟩
  intro u hu v hv he
  exact (List.idxOf_inj (mem_toList.mpr hu)).mp he

def splitOff (V : Finset U) (g : U → ℕ) (x : U) : U → ℕ := Function.update g x (freshLabel V g)

theorem splitOff_of_ne {x u : U} (h : u ≠ x) : splitOff V g x u = g u := Function.update_of_ne h _ _

/-- Splitting a balance of zero off its group keeps the groups balanced. -/
theorem Balanced.splitOff (h : Balanced V b g) {x : U} (hx : b x = 0) :
    Balanced V b (splitOff V g x) := by
  rw [balanced_iff] at h ⊢
  intro f
  rw [← h f]
  apply sum_congr rfl
  intro u _
  rcases eq_or_ne u x with rfl | hne
  · rw [hx, mul_zero, mul_zero]
  · rw [splitOff_of_ne hne]

/-- It makes one group more where somebody else is left in the group. -/
theorem groupCount_splitOff {x y : U} (hx : x ∈ V) (hy : y ∈ V) (hne : y ≠ x) (hg : g y = g x) :
    groupCount V g + 1 ≤ groupCount V (splitOff V g x) := by
  rw [groupCount, groupCount, ← card_insert_of_notMem (freshLabel_notMem (V := V) (g := g))]
  apply card_le_card
  intro k hk
  rcases mem_insert.mp hk with rfl | hk
  · exact mem_image.mpr ⟨x, hx, Function.update_self x _ g⟩
  · obtain ⟨u, hu, rfl⟩ := mem_image.mp hk
    rcases eq_or_ne u x with rfl | hux
    · rw [← hg]
      exact mem_image.mpr ⟨y, hy, splitOff_of_ne hne⟩
    · exact mem_image.mpr ⟨u, hu, splitOff_of_ne hux⟩

/-! ## Moving an amount -/

/-- `amount` goes from `x` to `y`. -/
def transfer (x y : U) (amount : ℤ) (u : U) : ℤ :=
  (if y = u then amount else 0) - if x = u then amount else 0

theorem sum_transfer (f : U → ℤ) {x y : U} (hx : x ∈ V) (hy : y ∈ V) (amount : ℤ) :
    ∑ u ∈ V, f u * transfer x y amount u = f y * amount - f x * amount := by
  simp only [transfer, mul_sub, mul_ite, mul_zero, sum_sub_distrib, sum_ite_eq, hx, hy, ↓reduceIte]

/-- Within a group an amount can be moved. -/
theorem Balanced.add_transfer (h : Balanced V b g) {x y : U} (hx : x ∈ V) (hy : y ∈ V) (hg : g x = g y)
    (amount : ℤ) : Balanced V (fun u => b u + transfer x y amount u) g := by
  rw [balanced_iff] at h ⊢
  intro f
  simp only [mul_add, sum_add_distrib, h f, sum_transfer (fun u => f (g u)) hx hy, hg]
  ring

end Lib
