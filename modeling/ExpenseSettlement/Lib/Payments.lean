import ExpenseSettlement.Lib.ZeroSum
import Mathlib.Algebra.Order.BigOperators.Group.Finset
import Mathlib.Algebra.BigOperators.Group.List.Basic

/-!
# Payments that settle balances

A balance is what somebody is still to receive. Payments clear balances when each moves the smaller of
a credit and a debt. The number of payments goes with the number of zero-sum groups: payments that
settle everything keep within such groups, one fewer than the users for each group.
-/

namespace Lib

open Finset

variable {U : Type}

structure Payment (U : Type) where
  payer : U
  payee : U
  amount : ℤ

/-- The payment takes the smaller of a credit and a debt. -/
structure Matches (b : U → ℤ) (p : Payment U) : Prop where
  credit : 0 < b p.payee
  debt : b p.payer < 0
  amount : p.amount = min (b p.payee) (-b p.payer)

variable {V : Finset U} {b : U → ℤ} {g : U → ℕ} {p : Payment U} {ps : List (Payment U)}

theorem mem_of_ne_zero (hV : ∀ u ∉ V, b u = 0) {u : U} (hu : b u ≠ 0) : u ∈ V := by
  rcases em (u ∈ V) with hm | hm
  · exact hm
  · exact absurd (hV u hm) hu

namespace Matches

theorem payer_ne_payee (h : Matches b p) : p.payer ≠ p.payee := by
  intro he
  have hcredit := h.credit
  have hdebt := h.debt
  rw [he] at hdebt
  omega

theorem amount_pos (h : Matches b p) : 1 ≤ p.amount := by
  have hcredit := h.credit
  have hdebt := h.debt
  have hamount := h.amount
  omega

theorem mem_of_zero (h : Matches b p) (hV : ∀ u ∉ V, b u = 0) : p.payer ∈ V ∧ p.payee ∈ V :=
  ⟨mem_of_ne_zero hV h.debt.ne, mem_of_ne_zero hV h.credit.ne'⟩

end Matches

/-- Balances that are not all even have a credit and a debt in one group. -/
theorem Balanced.exists_matches (hb : Balanced V b g) {u : U} (hu : u ∈ V) (hne : b u ≠ 0) :
    ∃ p, Matches b p ∧ g p.payer = g p.payee := by
  have hsum := hb (g u)
  have hmem : u ∈ V.filter (g · = g u) := mem_filter.mpr ⟨hu, rfl⟩
  obtain ⟨c, hc, hcredit⟩ := exists_pos_of_sum_zero_of_exists_nonzero b hsum ⟨u, hmem, hne⟩
  have hneg : ∑ v ∈ V.filter (g · = g u), -b v = 0 := by rw [sum_neg_distrib, hsum, neg_zero]
  obtain ⟨d, hd, hdebt⟩ := exists_pos_of_sum_zero_of_exists_nonzero (fun v => -b v) hneg
    ⟨u, hmem, neg_ne_zero.mpr hne⟩
  refine ⟨⟨d, c, min (b c) (-b d)⟩, ⟨hcredit, Int.neg_pos.mp hdebt, rfl⟩, ?_⟩
  exact (mem_filter.mp hd).2.trans (mem_filter.mp hc).2.symm

variable [DecidableEq U]

namespace Payment

/-- What the payment takes off the balances. -/
def effect (p : Payment U) : U → ℤ := transfer p.payer p.payee p.amount

/-- What is left of the balances. -/
def remaining (b : U → ℤ) (p : Payment U) : U → ℤ := fun u => b u - p.effect u

end Payment

/-- What the users receive less what they pay. -/
def netFlow (ps : List (Payment U)) (u : U) : ℤ := (ps.map (·.effect u)).sum

structure Settles (b : U → ℤ) (ps : List (Payment U)) : Prop where
  positive : ∀ p ∈ ps, 1 ≤ p.amount
  net : ∀ u, netFlow ps u = b u

/-- Such payments one after another, until nothing is left. -/
inductive Clears : (U → ℤ) → List (Payment U) → Prop
  | nil {b : U → ℤ} (zero : ∀ u, b u = 0) : Clears b []
  | cons {b : U → ℤ} {p : Payment U} {ps : List (Payment U)} (first : Matches b p)
      (rest : Clears (p.remaining b) ps) : Clears b (p :: ps)

/-! ## One payment -/

namespace Matches

theorem remaining_payee (h : Matches b p) : p.remaining b p.payee = b p.payee - p.amount := by
  simp [Payment.remaining, Payment.effect, transfer, h.payer_ne_payee]

theorem remaining_payer (h : Matches b p) : p.remaining b p.payer = b p.payer + p.amount := by
  simp [Payment.remaining, Payment.effect, transfer, h.payer_ne_payee.symm]

end Matches

theorem remaining_of_ne {u : U} (hpayer : p.payer ≠ u) (hpayee : p.payee ≠ u) :
    p.remaining b u = b u := by
  simp [Payment.remaining, Payment.effect, transfer, hpayer, hpayee]

namespace Matches

/-- Balances only move towards zero. -/
theorem shrinks (h : Matches b p) (u : U) :
    (0 ≤ p.remaining b u ∧ p.remaining b u ≤ b u) ∨ (b u ≤ p.remaining b u ∧ p.remaining b u ≤ 0) := by
  have hcredit := h.credit
  have hdebt := h.debt
  have hamount := h.amount
  rcases eq_or_ne p.payee u with rfl | hpayee
  · rw [h.remaining_payee]
    omega
  · rcases eq_or_ne p.payer u with rfl | hpayer
    · rw [h.remaining_payer]
      omega
    · rw [remaining_of_ne hpayer hpayee]
      omega

/-- One of the two is even afterwards. -/
theorem cleared (h : Matches b p) : p.remaining b p.payee = 0 ∨ p.remaining b p.payer = 0 := by
  have hcredit := h.credit
  have hdebt := h.debt
  have hamount := h.amount
  rw [h.remaining_payee, h.remaining_payer]
  omega

theorem remaining_eq_zero (h : Matches b p) {u : U} (hu : b u = 0) : p.remaining b u = 0 := by
  have hshrinks := h.shrinks u
  omega

end Matches

/-! ## Clearing runs -/

theorem Clears.settles (h : Clears b ps) : Settles b ps := by
  induction h with
  | nil hzero => exact ⟨fun _ hp => (List.not_mem_nil hp).elim, fun u => (hzero u).symm⟩
  | cons hmatches hrest ih =>
      constructor
      · intro q hq
        rcases List.mem_cons.mp hq with rfl | hq
        · exact hmatches.amount_pos
        · exact ih.positive q hq
      · intro u
        have hnet := ih.net u
        rw [netFlow] at hnet ⊢
        rw [List.map_cons, List.sum_cons, hnet, Payment.remaining]
        omega

/-- Who pays had a debt, and who is paid had a credit. -/
theorem Clears.sides (h : Clears b ps) : ∀ q ∈ ps, b q.payer < 0 ∧ 0 < b q.payee ∧ 1 ≤ q.amount := by
  induction h with
  | nil => exact fun _ hq => (List.not_mem_nil hq).elim
  | cons hmatches hrest ih =>
      intro q hq
      rcases List.mem_cons.mp hq with rfl | hq
      · exact ⟨hmatches.debt, hmatches.credit, hmatches.amount_pos⟩
      · obtain ⟨hpayer, hpayee, hpos⟩ := ih q hq
        have hshrinks := hmatches.shrinks q.payer
        have hshrinks' := hmatches.shrinks q.payee
        omega

/-- Nobody pays more than was owed, nor is paid more than was due. -/
theorem Clears.amount_le (h : Clears b ps) : ∀ q ∈ ps, q.amount ≤ -b q.payer ∧ q.amount ≤ b q.payee := by
  induction h with
  | nil => exact fun _ hq => (List.not_mem_nil hq).elim
  | cons hmatches hrest ih =>
      intro q hq
      rcases List.mem_cons.mp hq with rfl | hq
      · have hamount := hmatches.amount
        omega
      · obtain ⟨hpayer, hpayee⟩ := ih q hq
        have hpos := hrest.settles.positive q hq
        have hshrinks := hmatches.shrinks q.payer
        have hshrinks' := hmatches.shrinks q.payee
        omega

/-- One of the two that a payment is between takes no part any more, so they never meet again. -/
theorem Clears.pairs_nodup (h : Clears b ps) : (ps.map fun q => (q.payer, q.payee)).Nodup := by
  induction h with
  | nil => exact List.nodup_nil
  | cons hmatches hrest ih =>
      rw [List.map_cons, List.nodup_cons]
      refine ⟨fun hm => ?_, ih⟩
      obtain ⟨q, hq, he⟩ := List.mem_map.mp hm
      obtain ⟨hpayer, hpayee, -⟩ := hrest.sides q hq
      rw [Prod.mk.injEq] at he
      rw [he.1] at hpayer
      rw [he.2] at hpayee
      have hcleared := hmatches.cleared
      omega

/-! ## Clearing runs within groups -/

theorem Balanced.remaining (h : Balanced V b g) (hp : Matches b p) (hV : ∀ u ∉ V, b u = 0)
    (hg : g p.payer = g p.payee) : Balanced V (p.remaining b) g := by
  obtain ⟨hpayer, hpayee⟩ := hp.mem_of_zero hV
  have hmoved := h.add_transfer hpayee hpayer hg.symm p.amount
  have heq : p.remaining b = fun u => b u + transfer p.payee p.payer p.amount u := by
    funext u
    simp only [Payment.remaining, Payment.effect, transfer]
    omega
  rw [heq]
  exact hmoved

/-- A run that stays within the groups has one payment less than there are users for each group. -/
theorem Clears.length_le (h : Clears b ps) (hV : ∀ u ∉ V, b u = 0) (hb : Balanced V b g)
    (hg : ∀ q ∈ ps, g q.payer = g q.payee) : ps.length + groupCount V g ≤ V.card := by
  induction h generalizing g with
  | nil => simpa using groupCount_le V g
  | @cons b p ps hp hrest ih =>
      obtain ⟨hpayer, hpayee⟩ := hp.mem_of_zero hV
      have hpg := hg p List.mem_cons_self
      have hbalanced := hb.remaining hp hV hpg
      -- whoever is even now is in nobody's group for the rest of the run
      have hsplit : ∀ x y, x ∈ V → y ∈ V → y ≠ x → g y = g x → p.remaining b x = 0 →
          ps.length + (groupCount V g + 1) ≤ V.card := by
        intro x y hx hy hne hxy hzero
        have hrun := ih (g := splitOff V g x) (fun u hu => hp.remaining_eq_zero (hV u hu))
          (hbalanced.splitOff hzero) fun q hq => by
            obtain ⟨hqpayer, hqpayee, -⟩ := hrest.sides q hq
            have hpayerx : q.payer ≠ x := by
              rintro rfl
              omega
            have hpayeex : q.payee ≠ x := by
              rintro rfl
              omega
            rw [splitOff_of_ne hpayerx, splitOff_of_ne hpayeex]
            exact hg q (List.mem_cons_of_mem _ hq)
        have hcount := groupCount_splitOff hx hy hne hxy
        omega
      rw [List.length_cons]
      rcases hp.cleared with hzero | hzero
      · have hlen := hsplit p.payee p.payer hpayee hpayer hp.payer_ne_payee hpg hzero
        omega
      · have hlen := hsplit p.payer p.payee hpayer hpayee hp.payer_ne_payee.symm hpg.symm hzero
        omega

/-- Every zero-sum grouping has a run within it. -/
theorem Balanced.exists_clears (hb : Balanced V b g) (hV : ∀ u ∉ V, b u = 0) :
    ∃ ps, Clears b ps ∧ ∀ q ∈ ps, g q.payer = g q.payee := by
  induction hn : (V.filter (b · ≠ 0)).card using Nat.strong_induction_on generalizing b with
  | _ n ih =>
      rcases (V.filter (b · ≠ 0)).eq_empty_or_nonempty with hempty | ⟨u, hu⟩
      · refine ⟨[], .nil fun u => ?_, fun _ hq => (List.not_mem_nil hq).elim⟩
        rcases em (u ∈ V) with hu | hu
        · exact not_not.mp (filter_eq_empty_iff.mp hempty hu)
        · exact hV u hu
      · obtain ⟨huV, hne⟩ := mem_filter.mp hu
        obtain ⟨p, hp, hpg⟩ := hb.exists_matches huV hne
        obtain ⟨hpayer, hpayee⟩ := hp.mem_of_zero hV
        have hfewer : (V.filter (p.remaining b · ≠ 0)).card < n := by
          rw [← hn]
          apply card_lt_card
          rw [ssubset_iff_of_subset]
          · rcases hp.cleared with hzero | hzero
            · refine ⟨p.payee, mem_filter.mpr ⟨hpayee, hp.credit.ne'⟩, fun hm => ?_⟩
              exact (mem_filter.mp hm).2 hzero
            · refine ⟨p.payer, mem_filter.mpr ⟨hpayer, hp.debt.ne⟩, fun hm => ?_⟩
              exact (mem_filter.mp hm).2 hzero
          · intro v hv
            obtain ⟨hvV, hv⟩ := mem_filter.mp hv
            exact mem_filter.mpr ⟨hvV, fun hzero => hv (hp.remaining_eq_zero hzero)⟩
        obtain ⟨ps, hps, hpsg⟩ := ih _ hfewer (hb.remaining hp hV hpg)
          (fun v hv => hp.remaining_eq_zero (hV v hv)) rfl
        refine ⟨p :: ps, .cons hp hps, fun q hq => ?_⟩
        rcases List.mem_cons.mp hq with rfl | hq
        · exact hpg
        · exact hpsg q hq

/-! ## All payments -/

/-- Payments link users to groups, of which there are few only if the payments are many. -/
theorem exists_grouping (V : Finset U) (ps : List (Payment U)) :
    ∃ g : U → ℕ, (∀ q ∈ ps, g q.payer = g q.payee) ∧ V.card ≤ ps.length + groupCount V g := by
  induction ps with
  | nil =>
      obtain ⟨g, hg⟩ := exists_groupCount_eq_card V
      refine ⟨g, fun _ hq => (List.not_mem_nil hq).elim, ?_⟩
      rw [hg]
      exact Nat.le_add_left _ _
  | cons p ps ih =>
      obtain ⟨g, hg, hcard⟩ := ih
      refine ⟨merge g p.payer p.payee, ?_, ?_⟩
      · intro q hq
        rcases List.mem_cons.mp hq with rfl | hq
        · rw [merge_left, merge_right]
        · exact merge_congr (hg q hq)
      · have hcount := groupCount_merge V g p.payer p.payee
        rw [List.length_cons]
        omega

/-- Groups that no payment leaves are zero-sum. -/
theorem Balanced.of_netFlow (hps : ∀ q ∈ ps, q.payer ∈ V ∧ q.payee ∈ V) (hnet : ∀ u, netFlow ps u = b u)
    (hg : ∀ q ∈ ps, g q.payer = g q.payee) : Balanced V b g := by
  induction ps generalizing b with
  | nil => exact .of_zero (fun u _ => (hnet u).symm) g
  | cons p ps ih =>
      rw [List.forall_mem_cons] at hps hg
      have hb := ih (b := fun u => b u - p.effect u) hps.2 (fun u => by
        rw [← hnet u]
        simp only [netFlow, List.map_cons, List.sum_cons]
        omega) hg.2
      have hback := hb.add_transfer hps.1.1 hps.1.2 hg.1 p.amount
      simp only [Payment.effect, sub_add_cancel] at hback
      exact hback

/-- Payments among the users of `V` link them to zero-sum groups. -/
theorem exists_balanced_of_netFlow (hps : ∀ q ∈ ps, q.payer ∈ V ∧ q.payee ∈ V)
    (hnet : ∀ u, netFlow ps u = b u) :
    ∃ g, Balanced V b g ∧ (∀ q ∈ ps, g q.payer = g q.payee) ∧ V.card ≤ ps.length + groupCount V g := by
  obtain ⟨g, hg, hcard⟩ := exists_grouping V ps
  exact ⟨g, .of_netFlow hps hnet hg, hg, hcard⟩

/-- Payments that settle balances may go through others, but this saves none. -/
theorem Settles.exists_balanced (h : Settles b ps) (hV : ∀ u ∉ V, b u = 0) :
    ∃ g, Balanced V b g ∧ V.card ≤ ps.length + groupCount V g := by
  obtain ⟨W, hW⟩ : ∃ W, W = V ∪ (ps.map (·.payer)).toFinset ∪ (ps.map (·.payee)).toFinset := ⟨_, rfl⟩
  have hVW : V ⊆ W := by
    rw [hW, union_assoc]
    exact subset_union_left
  have hps : ∀ q ∈ ps, q.payer ∈ W ∧ q.payee ∈ W := by
    intro q hq
    rw [hW]
    simp only [mem_union, List.mem_toFinset]
    exact ⟨.inl (.inr (List.mem_map_of_mem hq)), .inr (List.mem_map_of_mem hq)⟩
  obtain ⟨g, hb, -, hcard⟩ := exists_balanced_of_netFlow hps h.net
  refine ⟨g, hb.restrict hVW hV, ?_⟩
  have hcount := groupCount_restrict hVW g
  have hle := card_le_card hVW
  omega

theorem Clears.users_mem (h : Clears b ps) (hV : ∀ u ∉ V, b u = 0) :
    ∀ q ∈ ps, q.payer ∈ V ∧ q.payee ∈ V := by
  intro q hq
  obtain ⟨hpayer, hpayee, -⟩ := h.sides q hq
  exact ⟨mem_of_ne_zero hV hpayer.ne, mem_of_ne_zero hV hpayee.ne'⟩

/-- A clearing run has fewer payments than there are users. -/
theorem Clears.length_lt (h : Clears b ps) (hV : ∀ u ∉ V, b u = 0) (hne : V.Nonempty) :
    ps.length < V.card := by
  obtain ⟨g, hb, hg, -⟩ := exists_balanced_of_netFlow (h.users_mem hV) h.settles.net
  have hlen := h.length_le hV hb hg
  have hpos : 0 < groupCount V g := card_pos.mpr (hne.image g)
  omega

/-- A clearing run is as short as payments can be, exactly when it stays within the groups of some
finest zero-sum grouping. -/
theorem Clears.minimal_iff (h : Clears b ps) (hV : ∀ u ∉ V, b u = 0) :
    (∀ qs, Settles b qs → ps.length ≤ qs.length) ↔
      ∃ g, Finest V b g ∧ ∀ q ∈ ps, g q.payer = g q.payee := by
  constructor
  · intro hmin
    obtain ⟨g, hb, hg, hcard⟩ := exists_balanced_of_netFlow (h.users_mem hV) h.settles.net
    obtain ⟨g₀, hfinest⟩ := hb.exists_finest
    obtain ⟨qs, hqs, hqg⟩ := hfinest.1.exists_clears hV
    have hshort := hqs.length_le hV hfinest.1 hqg
    have hle := hmin qs hqs.settles
    refine ⟨g, ⟨hb, fun g' hg' => ?_⟩, hg⟩
    have hmost := hfinest.2 g' hg'
    omega
  · rintro ⟨g, hfinest, hg⟩ qs hqs
    have hshort := h.length_le hV hfinest.1 hg
    obtain ⟨g', hb', hcard⟩ := hqs.exists_balanced hV
    have hmost := hfinest.2 g' hb'
    omega

end Lib
