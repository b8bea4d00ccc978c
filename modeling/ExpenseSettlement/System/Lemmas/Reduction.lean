import ExpenseSettlement.Core.Lemmas.Reduction
import ExpenseSettlement.System.Lemmas.WellFormed

/-!
# What the two callers report

The service counts a debt for every split but one of an expense, and the worker counts the expenses.
-/

namespace ExpenseSettlement

open Lib LedgerEngine DebtSimplifier

variable {R : Runtime} {w : World} {groupId : String} {expenses : List ExpenseRecord}

/-- What the service passes to `simplify` as the number of original transactions. -/
def debtEdges (expenses : List ExpenseRecord) : ℤ :=
  max (expenses.map fun e => max 0 ((e.splits.length : ℤ) - 1)).sum expenses.length

theorem length_pos_of_expenses (h : expenses ≠ []) : (0 : ℤ) < expenses.length := by
  exact_mod_cast List.length_pos_iff.mpr h

theorem debtEdges_pos (h : expenses ≠ []) : 0 < debtEdges expenses :=
  lt_max_of_lt_right (length_pos_of_expenses h)

/-! ## Expenses that hang together -/

def ExpenseRecord.sharers (e : ExpenseRecord) : List String := e.splits.map (·.userId)

/-- Every payer has a split, and every expense but the first has one for somebody who has one before. -/
structure HangTogether (expenses : List ExpenseRecord) : Prop where
  payer : ∀ e ∈ expenses, e.payerId ∈ e.sharers
  shared : ∀ pre e post, expenses = pre ++ e :: post → pre ≠ [] →
    ∃ u ∈ e.sharers, ∃ e' ∈ pre, u ∈ e'.sharers

theorem HangTogether.init {e : ExpenseRecord} (h : HangTogether (expenses ++ [e])) :
    HangTogether expenses where
  payer := fun e' he' => h.payer e' (List.mem_append_left _ he')
  shared := fun pre e' post hsplit => h.shared pre e' (post ++ [e]) (by simp [hsplit])

/-- Each expense brings in at most one user fewer than it has splits. -/
theorem HangTogether.card_sharers_le (h : HangTogether expenses) :
    ((expenses.flatMap (·.sharers)).toFinset.card : ℤ) ≤
      1 + (expenses.map fun e => max 0 ((e.splits.length : ℤ) - 1)).sum := by
  induction expenses using List.reverseRecOn with
  | nil => simp
  | append_singleton pre e ih =>
      have hpre := ih h.init
      have hpayer := h.payer e (List.mem_append_right _ (List.mem_singleton_self _))
      have hlen : e.sharers.toFinset.card ≤ e.splits.length := by
        rw [← List.length_map (·.userId)]
        exact List.toFinset_card_le _
      rw [List.flatMap_append, List.toFinset_append, List.flatMap_singleton, List.map_append, List.sum_append,
        List.map_singleton, List.sum_singleton]
      rcases List.eq_nil_or_concat pre with rfl | ⟨front, e', rfl⟩
      · simp only [List.flatMap_nil, List.toFinset_nil, Finset.empty_union, List.map_nil, List.sum_nil]
        omega
      · -- somebody is counted on both sides
        obtain ⟨u, hu, e'', he'', hu'⟩ := h.shared _ e [] rfl (by simp)
        have hcommon :
            0 < (((front.concat e').flatMap (·.sharers)).toFinset ∩ e.sharers.toFinset).card := by
          refine Finset.card_pos.mpr ⟨u, Finset.mem_inter.mpr ⟨?_, List.mem_toFinset.mpr hu⟩⟩
          exact List.mem_toFinset.mpr (List.mem_flatMap.mpr ⟨e'', he'', hu'⟩)
        have hcard := Finset.card_union_add_card_inter ((front.concat e').flatMap (·.sharers)).toFinset
          e.sharers.toFinset
        omega

/-- Only those who have a split can have a balance. -/
theorem HangTogether.few (h : HangTogether expenses) :
    ((uneven (computeNetBalances (transactionsOf expenses))).length : ℤ) ≤ debtEdges expenses + 1 := by
  have hsub : (uneven (computeNetBalances (transactionsOf expenses))).toFinset ⊆
      (expenses.flatMap (·.sharers)).toFinset := by
    intro u hu
    obtain ⟨p, hp, rfl⟩ := List.mem_map.mp (List.mem_toFinset.mp hu)
    have hkey := (mem_keys_computeNetBalances _).mp (List.mem_map_of_mem (List.mem_filter.mp hp).1)
    obtain ⟨tx, htx, hinvolved⟩ := List.mem_flatMap.mp hkey
    obtain ⟨e, he, rfl⟩ := List.mem_map.mp htx
    obtain ⟨s, hs, hmem⟩ := List.mem_flatMap.mp hinvolved
    refine List.mem_toFinset.mpr (List.mem_flatMap.mpr ⟨e, he, ?_⟩)
    rcases List.mem_cons.mp hmem with heq | hmem
    · rw [heq]
      exact h.payer e he
    · rw [List.mem_singleton.mp hmem]
      exact List.mem_map_of_mem hs
  have hcard := Finset.card_le_card hsub
  rw [List.toFinset_card_of_nodup nodup_uneven] at hcard
  have hle := h.card_sharers_le
  have hmax : (expenses.map fun e => max 0 ((e.splits.length : ℤ) - 1)).sum ≤ debtEdges expenses :=
    le_max_left _ _
  omega

/-! ## The reports -/

theorem getSimplifiedDebts_reducesFor (h : w.store.getExpensesForGroup groupId ≠ [])
    {result : DebtSimplifierResult} (hr : getSimplifiedDebts R groupId w = .ok result) :
    ReducesFor (getGroupNetBalances groupId w) (debtEdges (w.store.getExpensesForGroup groupId))
      result.settlements.length result.reductionRatio :=
  simplify_reducesFor (sum_values_computeNetBalances _) (debtEdges_pos h) hr

theorem Planned.reducesFor {result : DebtSimplifierResult} {acc : SettleLoop}
    (h : Planned R groupId w result acc) : ReducesFor (getGroupNetBalances groupId w)
      (w.store.getExpensesForGroup groupId).length result.settlements.length result.reductionRatio :=
  simplify_reducesFor (sum_values_computeNetBalances _) (length_pos_of_expenses h.expenses) h.simplified

end ExpenseSettlement
