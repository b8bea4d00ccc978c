import ExpenseSettlement.Core.Lemmas.Greedy
import ExpenseSettlement.Lib.Flow

/-!
# The payments of the plan

The plain procedure takes the smaller of a credit and a debt at every step, so its payments clear the
balances one after another.
-/

namespace ExpenseSettlement

open Lib DebtSimplifier

def Settlement.toPayment (s : Settlement) : Payment String := ⟨s.payerId, s.payeeId, s.amountCents⟩

theorem netFlow_toPayment (settlements : List Settlement) (u : String) :
    netFlow (settlements.map (·.toPayment)) u = received u settlements - paid u settlements := by
  induction settlements with
  | nil => rfl
  | cons s settlements ih =>
      have heffect : s.toPayment.effect u = (if s.payeeId = u then s.amountCents else 0) -
          if s.payerId = u then s.amountCents else 0 := rfl
      simp only [netFlow, received, paid, List.map_cons, List.sum_cons] at ih ⊢
      rw [ih, heffect]
      ring

theorem settles_toPayment {b : String → ℤ} {settlements : List Settlement} :
    Settles b (settlements.map (·.toPayment)) ↔ (∀ s ∈ settlements, 1 ≤ s.amountCents) ∧
      ∀ u, received u settlements - paid u settlements = b u := by
  constructor
  · rintro ⟨hpos, hnet⟩
    refine ⟨fun s hs => hpos _ (List.mem_map_of_mem hs), fun u => ?_⟩
    rw [← netFlow_toPayment, hnet]
  · rintro ⟨hpos, hnet⟩
    refine ⟨?_, fun u => ?_⟩
    · intro p hp
      obtain ⟨s, hs, rfl⟩ := List.mem_map.mp hp
      exact hpos s hs
    · rw [netFlow_toPayment, hnet]

namespace Greedy

/-! ## One step -/

section Step

variable {s s' : State} {creditor debtor : String} {credit debt : ℤ} {others : List (String × ℤ)}

theorem Paid.getD_creditor (hp : Paid s s' creditor debtor credit debt others) :
    s.remaining.getD creditor 0 = credit := by
  rw [Dict.getD, hp.credit_eq]
  rfl

theorem Paid.getD_debtor (hp : Paid s s' creditor debtor credit debt others) :
    s.remaining.getD debtor 0 = -debt := by
  rw [Dict.getD, hp.debt_eq]
  rfl

theorem Paid.matches (hp : Paid s s' creditor debtor credit debt others) :
    Matches (s.remaining.getD · 0) ⟨debtor, creditor, min credit debt⟩ where
  credit := by
    dsimp only
    rw [hp.getD_creditor]
    exact hp.credit_pos
  debt := by
    have hdebt := hp.debt_pos
    dsimp only
    rw [hp.getD_debtor]
    omega
  amount := by
    dsimp only
    rw [hp.getD_creditor, hp.getD_debtor, neg_neg]

theorem Paid.remaining_eq (hp : Paid s s' creditor debtor credit debt others) :
    (s'.remaining.getD · 0) =
      Payment.remaining (s.remaining.getD · 0) ⟨debtor, creditor, min credit debt⟩ := by
  funext u
  have hne := hp.matches.payer_ne_payee
  rw [hp.remaining, Dict.getD_set, Dict.getD_set, Payment.remaining, Payment.effect, transfer]
  dsimp only at hne ⊢
  rcases eq_or_ne debtor u with rfl | hdebtor
  · rw [if_pos rfl, if_pos rfl, if_neg hne.symm, hp.getD_debtor]
    omega
  · rw [if_neg hdebtor, if_neg hdebtor]
    rcases eq_or_ne creditor u with rfl | hcreditor
    · rw [if_pos rfl, if_pos rfl, hp.getD_creditor]
      omega
    · rw [if_neg hcreditor, if_neg hcreditor]
      omega

theorem Paid.sum_eq (hp : Paid s s' creditor debtor credit debt others) :
    s'.remaining.values.sum = s.remaining.values.sum := by
  rw [Dict.values, Dict.values, (hp.before.map _).sum_eq, (hp.after.map _).sum_eq]
  simp only [List.map_cons, List.sum_cons]
  omega

theorem side_empty_of_done (hs : step s = none) :
    credits s.remaining.items = [] ∨ debts s.remaining.items = [] := by
  rw [← scan_eq_none, ← scan_eq_none]
  rw [step] at hs
  cases hc : s.largestCredit with
  | none => exact .inl hc
  | some c =>
      cases hd : s.largestDebt with
      | none => exact .inr hd
      | some d =>
          rw [hc, hd] at hs
          cases hs

theorem values_nonpos {d : Dict String ℤ} (h : credits d.items = []) : ∀ n ∈ d.values, n ≤ 0 := by
  intro n hn
  obtain ⟨p, hp, rfl⟩ := List.mem_map.mp hn
  have hnot := List.filter_eq_nil_iff.mp h p hp
  simp only [decide_eq_true_eq] at hnot
  omega

theorem values_nonneg {d : Dict String ℤ} (h : debts d.items = []) : ∀ n ∈ d.values, 0 ≤ n := by
  intro n hn
  obtain ⟨p, hp, rfl⟩ := List.mem_map.mp hn
  have hnot := List.filter_eq_nil_iff.mp (List.map_eq_nil_iff.mp h) p hp
  simp only [decide_eq_true_eq] at hnot
  omega

/-- One side is empty where the procedure stops, so that nothing is left on the other. -/
theorem even_of_done (hs : step s = none) (hz : s.remaining.values.sum = 0) (u : String) :
    s.remaining.getD u 0 = 0 := by
  rw [Dict.getD]
  cases hu : s.remaining.get? u with
  | none => rfl
  | some n =>
      have hmem : n ∈ s.remaining.values := Dict.mem_values.mpr ⟨u, hu⟩
      rw [Option.getD_some]
      rcases side_empty_of_done hs with hcredits | hdebts
      · have hall : ∀ n ∈ s.remaining.values.map (-·), 0 ≤ n := by
          intro n hn
          obtain ⟨m, hm, rfl⟩ := List.mem_map.mp hn
          exact neg_nonneg.mpr (values_nonpos hcredits m hm)
        have hsum : (s.remaining.values.map (-·)).sum = 0 := by
          rw [← List.sum_neg, hz, neg_zero]
        have hzero := List.all_zero_of_le_zero_le_of_sum_eq_zero hall hsum (List.mem_map_of_mem hmem)
        omega
      · exact List.all_zero_of_le_zero_le_of_sum_eq_zero (values_nonneg hdebts) hz hmem

end Step

/-! ## The run -/

/-- The users whom the next step pairs have one label. -/
def PairsWithin (g : String → ℕ) (s : State) : Prop :=
  ∀ creditor debtor, s.largestCredit = some creditor → s.largestDebt = some debtor →
    g debtor.1 = g creditor.1

theorem pairsWithin_of_done {g : String → ℕ} {s : State} (hs : step s = none) : PairsWithin g s := by
  intro creditor debtor hc hd
  rw [step, hc, hd] at hs
  cases hs

/-- The payments that are still to come clear what remains, and they are between the users whom the
steps pair. -/
theorem run_clears (s : State) (hz : s.remaining.values.sum = 0) :
    ∃ settlements, (loop.run s).settlements = s.settlements ++ settlements ∧
      Clears (s.remaining.getD · 0) (settlements.map (·.toPayment)) ∧
      ∀ g : String → ℕ, (∀ s', loop.Visits s s' → PairsWithin g s') ↔
        ∀ p ∈ settlements.map (·.toPayment), g p.payer = g p.payee := by
  induction s using loop.run_induction with
  | hdone s hs =>
      refine ⟨[], ?_, .nil (even_of_done hs hz), fun g => ⟨fun _ _ hp => ?_, fun _ s' hv => ?_⟩⟩
      · rw [loop.run_of_stuck hs, List.append_nil]
      · exact (List.not_mem_nil hp).elim
      · rw [Loop.visits_of_stuck hs hv]
        exact pairsWithin_of_done hs
  | hstep s s₁ hs ih =>
      obtain ⟨creditor, debtor, credit, debt, others, hp⟩ := step_eq_some hs
      obtain ⟨settlements, hrun, hclears, hpairs⟩ := ih (hp.sum_eq.trans hz)
      refine ⟨⟨debtor, creditor, min credit debt⟩ :: settlements, ?_, ?_, fun g => ?_⟩
      · rw [loop.run_of_step hs, hrun, hp.settlements, List.append_assoc, List.singleton_append]
      · rw [hp.remaining_eq] at hclears
        exact .cons hp.matches hclears
      · rw [List.map_cons, List.forall_mem_cons, ← hpairs g]
        constructor
        · intro hall
          refine ⟨?_, fun s' hv => hall s' (.head hs hv)⟩
          exact hall s .refl _ _ hp.largestCredit hp.largestDebt
        · rintro ⟨hfirst, hall⟩ s' hv
          rcases Loop.visits_of_step hs hv with rfl | hv
          · intro c d hc hd
            obtain rfl := Option.some.inj (hp.largestCredit.symm.trans hc)
            obtain rfl := Option.some.inj (hp.largestDebt.symm.trans hd)
            exact hfirst
          · exact hall s' hv

variable {netBalances : Dict String ℤ}

theorem settle_clears (hz : netBalances.values.sum = 0) :
    Clears (netBalances.getD · 0) ((settle netBalances).map (·.toPayment)) := by
  obtain ⟨settlements, hrun, hclears, -⟩ := run_clears (start netBalances) hz
  rw [settle_eq_plan, plan, hrun]
  exact hclears

theorem settle_within_iff (hz : netBalances.values.sum = 0) (g : String → ℕ) :
    (∀ s, loop.Visits (start netBalances) s → PairsWithin g s) ↔
      ∀ p ∈ (settle netBalances).map (·.toPayment), g p.payer = g p.payee := by
  obtain ⟨settlements, hrun, -, hpairs⟩ := run_clears (start netBalances) hz
  rw [settle_eq_plan, plan, hrun]
  exact hpairs g

end Greedy

/-! ## The users of the plan -/

variable {netBalances : Dict String ℤ}

theorem getD_of_not_mem_keys {u : String} (h : u ∉ netBalances.keys) : netBalances.getD u 0 = 0 := by
  rw [Dict.getD, Dict.get?_eq_none.mpr h]
  rfl

/-- The users whose balances are not zero. -/
def uneven (netBalances : Dict String ℤ) : List String :=
  (netBalances.items.filter (·.2 ≠ 0)).map Prod.fst

theorem nodup_uneven : (uneven netBalances).Nodup :=
  netBalances.nodup.sublist (List.filter_sublist.map Prod.fst)

theorem length_uneven : (uneven netBalances).length = netBalances.values.countP (· ≠ 0) := by
  rw [uneven, List.length_map, Dict.values, List.countP_map, List.countP_eq_length_filter]
  rfl

theorem getD_of_not_mem_uneven {u : String} (h : u ∉ uneven netBalances) :
    netBalances.getD u 0 = 0 := by
  rw [Dict.getD]
  cases hu : netBalances.get? u with
  | none => rfl
  | some n =>
      rw [Option.getD_some]
      by_contra hn
      apply h
      exact List.mem_map.mpr ⟨(u, n), List.mem_filter.mpr ⟨Dict.get?_eq_some.mp hu, by simpa using hn⟩, rfl⟩

theorem length_settle_lt (hz : netBalances.values.sum = 0)
    (hk : 0 < netBalances.values.countP (· ≠ 0)) :
    (settle netBalances).length < netBalances.values.countP (· ≠ 0) := by
  have hlt := (Greedy.settle_clears hz).length_lt (V := (uneven netBalances).toFinset)
    (fun u hu => getD_of_not_mem_uneven fun hm => hu (List.mem_toFinset.mpr hm))
    (List.toFinset_nonempty_iff _ |>.mpr (List.length_pos_iff.mp (length_uneven ▸ hk)))
  rw [List.length_map, List.toFinset_card_of_nodup nodup_uneven, length_uneven] at hlt
  exact hlt

theorem settle_eq_nil (hz : netBalances.values.sum = 0)
    (hk : netBalances.values.countP (· ≠ 0) = 0) : settle netBalances = [] := by
  rw [settle_eq_nil_iff hz]
  intro u
  apply getD_of_not_mem_uneven
  rw [← length_uneven, List.length_eq_zero_iff] at hk
  rw [hk]
  exact List.not_mem_nil

theorem settle_sides (hz : netBalances.values.sum = 0) {s : Settlement} (hs : s ∈ settle netBalances) :
    netBalances.getD s.payerId 0 < 0 ∧ 0 < netBalances.getD s.payeeId 0 ∧ 1 ≤ s.amountCents :=
  (Greedy.settle_clears hz).sides s.toPayment (List.mem_map_of_mem hs)

theorem settle_pairs_nodup (hz : netBalances.values.sum = 0) :
    ((settle netBalances).map fun s => (s.payerId, s.payeeId)).Nodup := by
  have hpairs := (Greedy.settle_clears hz).pairs_nodup
  rw [List.map_map] at hpairs
  exact hpairs

/-! ## What moves -/

theorem turnover_toPayment (settlements : List Settlement) :
    turnover (settlements.map (·.toPayment)) = (settlements.map (·.amountCents)).sum := by
  rw [turnover, List.map_map]
  rfl

theorem inflow_toPayment (settlements : List Settlement) (u : String) :
    inflow (settlements.map (·.toPayment)) u = received u settlements := by
  rw [inflow, flow, List.map_map]
  rfl

theorem outflow_toPayment (settlements : List Settlement) (u : String) :
    outflow (settlements.map (·.toPayment)) u = paid u settlements := by
  rw [outflow, flow, List.map_map]
  rfl

theorem values_eq_map_getD (netBalances : Dict String ℤ) :
    netBalances.values = netBalances.keys.map (netBalances.getD · 0) := by
  conv_lhs => rw [Dict.values, netBalances.items_eq_map_getD 0]
  rw [List.map_map]
  rfl

theorem card_filter_keys (netBalances : Dict String ℤ) (p : ℤ → Prop) [DecidablePred p] :
    (netBalances.keys.toFinset.filter fun u => p (netBalances.getD u 0)).card =
      netBalances.values.countP (p ·) := by
  have hnodup : netBalances.keys.Nodup := netBalances.nodup
  rw [values_eq_map_getD, List.countP_map, List.countP_eq_length_filter,
    ← List.toFinset_card_of_nodup (hnodup.filter _), List.toFinset_filter]
  simp

theorem even_outside_keys (netBalances : Dict String ℤ) :
    ∀ u ∉ netBalances.keys.toFinset, netBalances.getD u 0 = 0 :=
  fun _ hu => getD_of_not_mem_keys fun hm => hu (List.mem_toFinset.mpr hm)

/-- The plan moves what the creditors are to receive. -/
theorem turnover_settle (hz : netBalances.values.sum = 0) :
    ((settle netBalances).map (·.amountCents)).sum = (netBalances.values.map (max · 0)).sum := by
  have hnodup : netBalances.keys.Nodup := netBalances.nodup
  have hclears := Greedy.settle_clears hz
  have hmem : ∀ p ∈ (settle netBalances).map (·.toPayment), p.payee ∈ netBalances.keys.toFinset :=
    fun p hp => (hclears.users_mem (even_outside_keys netBalances) p hp).2
  rw [← turnover_toPayment, hclears.settles.turnover_eq hmem,
    Finset.sum_eq_zero fun u _ => hclears.throughflow_eq_zero u, add_zero,
    List.sum_toFinset _ hnodup, values_eq_map_getD, List.map_map]
  rfl

/-! ## The order of the checksum -/

/-- The order in which the checksum takes the settlements. -/
abbrev byPair (a b : Settlement) : Prop := toLex (a.payerId, a.payeeId) ≤ toLex (b.payerId, b.payeeId)

/-- Settlements between different pairs are sorted in one way only. -/
theorem insertionSort_eq_of_perm {ss ts : List Settlement} (h : ss.Perm ts)
    (hnodup : (ts.map fun s => (s.payerId, s.payeeId)).Nodup) :
    ss.insertionSort byPair = ts.insertionSort byPair := by
  have hss := ss.perm_insertionSort byPair
  have hts := ts.perm_insertionSort byPair
  apply (hss.trans (h.trans hts.symm)).eq_of_pairwise
  · intro a b ha hb hab hba
    have hpair : (a.payerId, a.payeeId) = (b.payerId, b.payeeId) := toLex.injective (le_antisymm hab hba)
    exact List.inj_on_of_nodup_map hnodup (h.mem_iff.mp (hss.mem_iff.mp ha)) (hts.mem_iff.mp hb) hpair
  · exact List.pairwise_insertionSort byPair ss
  · exact List.pairwise_insertionSort byPair ts

end ExpenseSettlement
