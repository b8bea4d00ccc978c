import Mathlib.Algebra.BigOperators.Group.Finset.Basic
import Mathlib.Algebra.BigOperators.Group.Finset.Piecewise
import Mathlib.Algebra.BigOperators.Group.List.Basic
import Mathlib.Data.Int.Basic
import Mathlib.Tactic.Ring

/-!
# Double-entry books

A book is a list of postings to accounts of any kind. A credit raises the balance of its account and
a debit lowers it, so in a book whose debits equal its credits the balances cancel.
-/

namespace Lib

inductive Side
  | debit
  | credit
deriving DecidableEq

structure Posting (α : Type) where
  account : α
  side : Side
  amount : ℤ

variable {α : Type}

def Posting.signed (p : Posting α) : ℤ :=
  match p.side with
  | .credit => p.amount
  | .debit => -p.amount

def total (s : Side) (ps : List (Posting α)) : ℤ := ((ps.filter (·.side = s)).map (·.amount)).sum

def InBalance (ps : List (Posting α)) : Prop := total .debit ps = total .credit ps

@[simp] theorem total_nil (s : Side) : total s ([] : List (Posting α)) = 0 := rfl

@[simp] theorem total_append (s : Side) (ps qs : List (Posting α)) :
    total s (ps ++ qs) = total s ps + total s qs := by
  simp [total]

theorem total_cons (s : Side) (p : Posting α) (ps : List (Posting α)) :
    total s (p :: ps) = (if p.side = s then p.amount else 0) + total s ps := by
  by_cases h : p.side = s <;> simp [total, h]

theorem InBalance.append {ps qs : List (Posting α)} (hp : InBalance ps) (hq : InBalance qs) :
    InBalance (ps ++ qs) := by
  unfold InBalance at hp hq ⊢
  rw [total_append, total_append, hp, hq]

theorem sum_signed (ps : List (Posting α)) :
    (ps.map (·.signed)).sum = total .credit ps - total .debit ps := by
  induction ps with
  | nil => rfl
  | cons p ps ih =>
      obtain ⟨a, s, x⟩ := p
      rw [List.map_cons, List.sum_cons, ih, total_cons, total_cons]
      cases s with
      | debit => simp [Posting.signed]; ring
      | credit => simp [Posting.signed]; ring

/-! ## Balances -/

variable [DecidableEq α]

def balance (a : α) (ps : List (Posting α)) : ℤ :=
  (ps.map fun p => if p.account = a then p.signed else 0).sum

@[simp] theorem balance_nil (a : α) : balance a [] = 0 := rfl

theorem balance_cons (a : α) (p : Posting α) (ps : List (Posting α)) :
    balance a (p :: ps) = (if p.account = a then p.signed else 0) + balance a ps := rfl

@[simp] theorem balance_append (a : α) (ps qs : List (Posting α)) :
    balance a (ps ++ qs) = balance a ps + balance a qs := by
  simp [balance]

theorem balance_eq_zero {a : α} {ps : List (Posting α)} (h : ∀ p ∈ ps, p.account ≠ a) :
    balance a ps = 0 := by
  induction ps with
  | nil => rfl
  | cons p ps ih =>
      rw [balance_cons, if_neg (h p (by simp)), ih fun q hq => h q (by simp [hq]), zero_add]

/-- Over accounts that include all those posted to, the balances add up to credits less debits. -/
theorem sum_balance {A : Finset α} {ps : List (Posting α)} (h : ∀ p ∈ ps, p.account ∈ A) :
    ∑ a ∈ A, balance a ps = total .credit ps - total .debit ps := by
  rw [← sum_signed]
  induction ps with
  | nil => simp
  | cons p ps ih =>
      have hp : p.account ∈ A := h p (by simp)
      simp only [balance_cons, Finset.sum_add_distrib, Finset.sum_ite_eq, hp, ↓reduceIte,
        List.map_cons, List.sum_cons]
      rw [ih fun q hq => h q (by simp [hq])]

/-- In a balanced book, if every account outside `W` is cleared, then the accounts in `W` cancel. -/
theorem sum_balance_eq_zero {W : Finset α} {ps : List (Posting α)} (hb : InBalance ps)
    (hclear : ∀ a ∉ W, balance a ps = 0) : ∑ a ∈ W, balance a ps = 0 := by
  let A : Finset α := W ∪ (ps.map (·.account)).toFinset
  have hA : ∑ a ∈ A, balance a ps = 0 := by
    rw [sum_balance]
    · unfold InBalance at hb; omega
    · intro p hp
      exact Finset.mem_union_right _ (List.mem_toFinset.mpr (List.mem_map_of_mem hp))
  rw [← hA]
  exact Finset.sum_subset Finset.subset_union_left fun a _ ha => hclear a ha

end Lib
