import ExpenseSettlement.Lib.Payments
import Mathlib.Algebra.Order.BigOperators.Group.List

/-!
# Money that moves

Payments that settle balances move what the creditors are to receive, and besides this only what passes
through users who both receive and pay. A clearing run has nobody in between. It is not much longer
than the shortest payments: every creditor has to be paid and every debtor has to pay, and a run has
fewer payments than there are creditors and debtors.
-/

namespace Lib

open Finset

variable {U : Type} [DecidableEq U] {V W : Finset U} {b : U → ℤ} {ps qs : List (Payment U)}

def turnover (ps : List (Payment U)) : ℤ := (ps.map (·.amount)).sum

/-- What moves in the payments that have the user on one side. -/
def flow (side : Payment U → U) (ps : List (Payment U)) (u : U) : ℤ :=
  (ps.map fun p => if side p = u then p.amount else 0).sum

def inflow (ps : List (Payment U)) : U → ℤ := flow (·.payee) ps

def outflow (ps : List (Payment U)) : U → ℤ := flow (·.payer) ps

/-- What passes through the user. -/
def throughflow (ps : List (Payment U)) (u : U) : ℤ := min (inflow ps u) (outflow ps u)

section Flow

variable {side : Payment U → U}

theorem flow_cons (p : Payment U) (u : U) :
    flow side (p :: ps) u = (if side p = u then p.amount else 0) + flow side ps u := by
  simp [flow]

theorem flow_nonneg (h : ∀ p ∈ ps, 1 ≤ p.amount) (u : U) : 0 ≤ flow side ps u := by
  induction ps with
  | nil => exact le_refl 0
  | cons p ps ih =>
      rw [List.forall_mem_cons] at h
      have hrest := ih h.2
      rw [flow_cons]
      split
      · omega
      · omega

theorem flow_eq_zero {u : U} (h : ∀ p ∈ ps, side p ≠ u) : flow side ps u = 0 := by
  induction ps with
  | nil => rfl
  | cons p ps ih =>
      rw [List.forall_mem_cons] at h
      rw [flow_cons, if_neg h.1, ih h.2, add_zero]

/-- Every payment has somebody on this side. -/
theorem sum_flow (hW : ∀ p ∈ ps, side p ∈ W) : ∑ u ∈ W, flow side ps u = turnover ps := by
  induction ps with
  | nil => exact sum_const_zero
  | cons p ps ih =>
      rw [List.forall_mem_cons] at hW
      simp only [flow_cons, sum_add_distrib, sum_ite_eq, if_pos hW.1, ih hW.2]
      rfl

theorem netFlow_eq (ps : List (Payment U)) (u : U) : netFlow ps u = inflow ps u - outflow ps u := by
  induction ps with
  | nil => rfl
  | cons p ps ih =>
      simp only [netFlow, List.map_cons, List.sum_cons, Payment.effect, transfer] at ih ⊢
      rw [ih, inflow, inflow, outflow, outflow, flow_cons, flow_cons]
      ring

end Flow

/-! ## How much money moves -/

theorem Settles.throughflow_nonneg (h : Settles b ps) (u : U) : 0 ≤ throughflow ps u :=
  le_min (flow_nonneg h.positive u) (flow_nonneg h.positive u)

/-- Money goes to those who are to receive it or passes through. -/
theorem Settles.inflow_eq (h : Settles b ps) (u : U) : inflow ps u = max (b u) 0 + throughflow ps u := by
  have hnet := h.net u
  rw [netFlow_eq] at hnet
  rw [throughflow]
  omega

theorem Settles.turnover_eq (h : Settles b ps) (hW : ∀ p ∈ ps, p.payee ∈ W) :
    turnover ps = ∑ u ∈ W, max (b u) 0 + ∑ u ∈ W, throughflow ps u := by
  rw [← sum_flow hW, ← sum_add_distrib]
  exact sum_congr rfl fun u _ => h.inflow_eq u

/-- Nobody is paid and pays in a clearing run. -/
theorem Clears.throughflow_eq_zero (h : Clears b ps) (u : U) : throughflow ps u = 0 := by
  have hin : 0 ≤ inflow ps u := flow_nonneg h.settles.positive u
  have hout : 0 ≤ outflow ps u := flow_nonneg h.settles.positive u
  rcases le_or_gt (b u) 0 with hdebt | hcredit
  · have hzero : inflow ps u = 0 := flow_eq_zero fun p hp hpu => by
      have hpayee := (h.sides p hp).2.1
      rw [hpu] at hpayee
      omega
    rw [throughflow, hzero, min_eq_left hout]
  · have hzero : outflow ps u = 0 := flow_eq_zero fun p hp hpu => by
      have hpayer := (h.sides p hp).1
      rw [hpu] at hpayer
      omega
    rw [throughflow, hzero, min_eq_right hin]

/-- What other payments move more is what passes through. -/
theorem Clears.turnover_add (h : Clears b ps) (hqs : Settles b qs) :
    turnover qs = turnover ps + ∑ u ∈ ((ps ++ qs).map (·.payee)).toFinset, throughflow qs u := by
  have hmem : ∀ p ∈ ps ++ qs, p.payee ∈ ((ps ++ qs).map (·.payee)).toFinset :=
    fun p hp => List.mem_toFinset.mpr (List.mem_map_of_mem hp)
  rw [hqs.turnover_eq fun q hq => hmem q (List.mem_append_right ps hq),
    h.settles.turnover_eq fun p hp => hmem p (List.mem_append_left qs hp),
    sum_eq_zero fun u _ => h.throughflow_eq_zero u, add_zero]

theorem Clears.turnover_le (h : Clears b ps) (hqs : Settles b qs) : turnover ps ≤ turnover qs := by
  have hmore := sum_nonneg fun u (_ : u ∈ ((ps ++ qs).map (·.payee)).toFinset) => hqs.throughflow_nonneg u
  rw [h.turnover_add hqs]
  omega

theorem Settles.throughflow_eq_zero_iff (h : Settles b ps) (u : U) :
    throughflow ps u = 0 ↔ inflow ps u = 0 ∨ outflow ps u = 0 := by
  have hin : 0 ≤ inflow ps u := flow_nonneg h.positive u
  have hout : 0 ≤ outflow ps u := flow_nonneg h.positive u
  rw [throughflow]
  omega

/-- Payments move as little as a clearing run exactly when nobody in them is paid and pays. -/
theorem Clears.turnover_eq_iff (h : Clears b ps) (hqs : Settles b qs) :
    turnover qs = turnover ps ↔ ∀ u, inflow qs u = 0 ∨ outflow qs u = 0 := by
  rw [h.turnover_add hqs, add_eq_left, sum_eq_zero_iff_of_nonneg fun u _ => hqs.throughflow_nonneg u]
  constructor
  · intro hall u
    rcases em (u ∈ ((ps ++ qs).map (·.payee)).toFinset) with hu | hu
    · exact (hqs.throughflow_eq_zero_iff u).mp (hall u hu)
    · refine .inl (flow_eq_zero fun q hq hqu => hu ?_)
      rw [← hqu]
      exact List.mem_toFinset.mpr (List.mem_map_of_mem (List.mem_append_right ps hq))
  · intro hall u _
    exact (hqs.throughflow_eq_zero_iff u).mpr (hall u)

/-! ## How many payments there are -/

def creditors (V : Finset U) (b : U → ℤ) : Finset U := V.filter (0 < b ·)

def debtors (V : Finset U) (b : U → ℤ) : Finset U := V.filter (b · < 0)

/-- A payment has one user on a side. -/
theorem card_le_length {side : Payment U → U} (h : ∀ u ∈ V, flow side ps u ≠ 0) : V.card ≤ ps.length := by
  have hsub : V ⊆ (ps.map side).toFinset := by
    intro u hu
    rw [List.mem_toFinset]
    by_contra hnot
    exact h u hu (flow_eq_zero fun p hp hpu => hnot (List.mem_map.mpr ⟨p, hp, hpu⟩))
  calc V.card ≤ (ps.map side).toFinset.card := card_le_card hsub
    _ ≤ (ps.map side).length := List.toFinset_card_le _
    _ = ps.length := List.length_map _

theorem Settles.creditors_le (h : Settles b ps) : (creditors V b).card ≤ ps.length := by
  have hpaid : ∀ u ∈ creditors V b, inflow ps u ≠ 0 := by
    intro u hu
    have hout : 0 ≤ outflow ps u := flow_nonneg h.positive u
    have hcredit := (mem_filter.mp hu).2
    rw [← h.net u, netFlow_eq] at hcredit
    omega
  exact card_le_length hpaid

theorem Settles.debtors_le (h : Settles b ps) : (debtors V b).card ≤ ps.length := by
  have hpay : ∀ u ∈ debtors V b, outflow ps u ≠ 0 := by
    intro u hu
    have hin : 0 ≤ inflow ps u := flow_nonneg h.positive u
    have hdebt := (mem_filter.mp hu).2
    rw [← h.net u, netFlow_eq] at hdebt
    omega
  exact card_le_length hpay

theorem Clears.length_lt_sides (h : Clears b ps) (hV : ∀ u ∉ V, b u = 0) (hne : ps ≠ []) :
    ps.length < (creditors V b).card + (debtors V b).card := by
  have hmem : ∀ u, u ∈ creditors V b ∪ debtors V b ↔ b u ≠ 0 := by
    intro u
    rw [mem_union, creditors, debtors, mem_filter, mem_filter, ← and_or_left, ← lt_or_lt_iff_ne, or_comm]
    exact and_iff_right_of_imp fun hu => mem_of_ne_zero hV (lt_or_lt_iff_ne.mp hu)
  have hlt := h.length_lt (V := creditors V b ∪ debtors V b)
    (fun u hu => not_not.mp fun hb => hu ((hmem u).mpr hb)) (by
      cases h with
      | nil => exact absurd rfl hne
      | @cons _ p ps hp hrest => exact ⟨p.payee, (hmem p.payee).mpr hp.credit.ne'⟩)
  have hunion := card_union_le (creditors V b) (debtors V b)
  omega

/-- A clearing run has too many payments by less than there are creditors, or debtors. -/
theorem Clears.length_le_of_settles (h : Clears b ps) (hqs : Settles b qs) (hV : ∀ u ∉ V, b u = 0) :
    ps.length ≤ qs.length + (min (creditors V b).card (debtors V b).card - 1) := by
  rcases eq_or_ne ps [] with rfl | hne
  · exact Nat.zero_le _
  · have hlt := h.length_lt_sides hV hne
    have hcreditors := hqs.creditors_le (V := V)
    have hdebtors := hqs.debtors_le (V := V)
    omega

end Lib
