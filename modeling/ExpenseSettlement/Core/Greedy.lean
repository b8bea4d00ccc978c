import ExpenseSettlement.Core.DebtSimplifier

/-!
# The plain greedy procedure

What the heap loop is meant to do, on a map of remaining balances: scan for the largest credit and for
the largest debt, pay the smaller of the two, and go on until one side is empty.
-/

namespace ExpenseSettlement.Greedy

open Lib

/-- The user with the largest amount, the smaller id among equals. -/
def scan : List (String × ℤ) → Option (String × ℤ)
  | [] => none
  | p :: rest =>
      match scan rest with
      | none => some p
      | some q => if q.2 < p.2 ∨ (p.2 = q.2 ∧ p.1 < q.1) then some p else some q

def credits (balances : List (String × ℤ)) : List (String × ℤ) := balances.filter fun p => 0 < p.2

def debts (balances : List (String × ℤ)) : List (String × ℤ) :=
  (balances.filter fun p => p.2 < 0).map fun p => (p.1, -p.2)

structure State where
  remaining : Dict String ℤ
  settlements : List Settlement

def State.largestCredit (s : State) : Option (String × ℤ) := scan (credits s.remaining.items)

def State.largestDebt (s : State) : Option (String × ℤ) := scan (debts s.remaining.items)

def step (s : State) : Option State :=
  match s.largestCredit, s.largestDebt with
  | some (creditor, credit), some (debtor, debt) =>
      let amount := min credit debt
      some
        { remaining := (s.remaining.set creditor (credit - amount)).set debtor (amount - debt)
          settlements := s.settlements ++ [⟨debtor, creditor, amount⟩] }
  | _, _ => none

/-! ## One step -/

theorem mem_of_scan {l : List (String × ℤ)} {p : String × ℤ} (h : scan l = some p) : p ∈ l := by
  induction l generalizing p with
  | nil => cases h
  | cons q rest ih =>
      rw [scan] at h
      cases hr : scan rest with
      | none =>
          simp only [hr] at h
          cases h
          exact List.mem_cons_self
      | some q' =>
          simp only [hr] at h
          split at h
          · cases h
            exact List.mem_cons_self
          · cases h
            exact List.mem_cons_of_mem _ (ih hr)

/-- What a step finds: a creditor and a debtor, the rest of the balances, and what it makes of them. -/
structure Paid (s s' : State) (creditor debtor : String) (credit debt : ℤ)
    (others : List (String × ℤ)) : Prop where
  largestCredit : s.largestCredit = some (creditor, credit)
  largestDebt : s.largestDebt = some (debtor, debt)
  credit_pos : 0 < credit
  debt_pos : 0 < debt
  credit_eq : s.remaining.get? creditor = some credit
  debt_eq : s.remaining.get? debtor = some (-debt)
  remaining : s'.remaining =
    (s.remaining.set creditor (credit - min credit debt)).set debtor (min credit debt - debt)
  settlements : s'.settlements = s.settlements ++ [⟨debtor, creditor, min credit debt⟩]
  before : s.remaining.items.Perm ((creditor, credit) :: (debtor, -debt) :: others)
  after : s'.remaining.items.Perm
    ((creditor, credit - min credit debt) :: (debtor, min credit debt - debt) :: others)

theorem step_eq_some {s s' : State} (h : step s = some s') :
    ∃ creditor debtor credit debt others, Paid s s' creditor debtor credit debt others := by
  rw [step] at h
  cases hc : s.largestCredit with
  | none =>
      rw [hc] at h
      cases h
  | some c =>
      cases hd : s.largestDebt with
      | none =>
          rw [hc, hd] at h
          cases h
      | some d =>
          obtain ⟨creditor, credit⟩ := c
          obtain ⟨debtor, debt⟩ := d
          rw [hc, hd] at h
          obtain rfl := Option.some.inj h
          have hcredits := mem_of_scan hc
          have hdebts := mem_of_scan hd
          simp only [credits, debts, List.mem_filter, List.mem_map, decide_eq_true_eq, Prod.mk.injEq,
            Prod.exists] at hcredits hdebts
          obtain ⟨hcredit, hpos⟩ := hcredits
          obtain ⟨debtor', net, ⟨hdebt, hneg⟩, rfl, rfl⟩ := hdebts
          have hcget := Dict.get?_eq_some.mpr hcredit
          have hdget := Dict.get?_eq_some.mpr hdebt
          have hne : creditor ≠ debtor' := by
            rintro rfl
            rw [hcget] at hdget
            cases hdget
            omega
          obtain ⟨others, hbefore, hafter⟩ := Dict.items_set_set hne hcget hdget
          exact ⟨creditor, debtor', credit, -net, others, hc, hd, hpos, by omega, hcget,
            by rw [neg_neg]; exact hdget, rfl, rfl, by rw [neg_neg]; exact hbefore, hafter _ _⟩

/-! ## The loop -/

/-- How many balances are not even. -/
def State.size (s : State) : Nat := (s.remaining.items.filter fun p => p.2 ≠ 0).length

theorem step_size_lt {s s' : State} (h : step s = some s') : s'.size < s.size := by
  obtain ⟨creditor, debtor, credit, debt, others, hp⟩ := step_eq_some h
  have hcredit := hp.credit_pos
  have hdebt := hp.debt_pos
  rw [State.size, State.size, (hp.before.filter _).length_eq, (hp.after.filter _).length_eq]
  simp only [List.filter_cons, decide_eq_true_eq]
  -- the smaller of the two amounts is cleared
  have hcleared : credit - min credit debt = 0 ∨ min credit debt - debt = 0 := by omega
  rw [if_pos hcredit.ne', if_pos (by omega : -debt ≠ 0)]
  rcases hcleared with hzero | hzero
  · simp only [hzero, ne_eq, not_true_eq_false, ↓reduceIte]
    split
    · simp only [List.length_cons]
      omega
    · simp only [List.length_cons]
      omega
  · simp only [hzero, ne_eq, not_true_eq_false, ↓reduceIte]
    split
    · simp only [List.length_cons]
      omega
    · simp only [List.length_cons]
      omega

def loop : Loop State where
  step := step
  size := State.size
  size_lt := step_size_lt

def start (netBalances : Dict String ℤ) : State := ⟨netBalances, []⟩

def plan (netBalances : Dict String ℤ) : List Settlement := (loop.run (start netBalances)).settlements

end ExpenseSettlement.Greedy
