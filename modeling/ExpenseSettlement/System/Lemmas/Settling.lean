import ExpenseSettlement.System.Lemmas.WellFormed

/-!
# Payments against balances

A settlement request saves a plan for the whole net balance of the group, whatever has been saved
before.
-/

namespace ExpenseSettlement

open Lib DebtSimplifier

def World.payments (groupId : String) (w : World) : List Settlement :=
  (w.store.getSettlementsForGroup groupId).map (·.payment)

/-- The payments saved for the group make up exactly for its net balances. -/
def SettledUp (groupId : String) (w : World) : Prop :=
  ∀ u, (getGroupNetBalances groupId w).getD u 0 + paid u (w.payments groupId) -
    received u (w.payments groupId) = 0

variable {R : Runtime} {w w' : World} {groupId : String}

theorem payments_congr (h : w'.store.settlements = w.store.settlements) :
    w'.payments groupId = w.payments groupId := by
  unfold World.payments InMemoryStore.getSettlementsForGroup
  rw [h]

theorem payments_eq_nil : w.payments groupId = [] ↔ w.store.getSettlementsForGroup groupId = [] :=
  List.map_eq_nil_iff

theorem payments_settled (h : WellFormed R w) {plan : List Settlement} {result : DebtSimplifierResult}
    {acc : SettleLoop} {hi : Nat} (hr : PlanRecords R groupId plan w.draws.uuids hi acc.records) :
    (w.settled R groupId result acc).payments groupId = w.payments groupId ++ plan := by
  unfold World.payments InMemoryStore.getSettlementsForGroup Dict.values
  rw [h.settled_items hr, List.map_append, List.filter_append, List.map_append, List.map_map]
  have hall : acc.records.filter (·.groupId = groupId) = acc.records :=
    List.filter_eq_self.mpr fun r hm => by simpa using hr.group r hm
  have hid : (Prod.snd ∘ fun r : SettlementRecord => (r.id, r)) = id := rfl
  rw [hid, List.map_id, hall, hr.payments]

theorem payments_settled_of_ne (h : WellFormed R w) {plan : List Settlement}
    {result : DebtSimplifierResult} {acc : SettleLoop} {hi : Nat} {groupId' : String}
    (hr : PlanRecords R groupId' plan w.draws.uuids hi acc.records) (hne : groupId' ≠ groupId) :
    (w.settled R groupId' result acc).payments groupId = w.payments groupId := by
  unfold World.payments InMemoryStore.getSettlementsForGroup Dict.values
  rw [h.settled_items hr, List.map_append, List.filter_append, List.map_append, List.map_map]
  have hnone : acc.records.filter (·.groupId = groupId) = [] :=
    List.filter_eq_nil_iff.mpr fun r hm => by simpa [hr.group r hm] using hne
  have hid : (Prod.snd ∘ fun r : SettlementRecord => (r.id, r)) = id := rfl
  rw [hid, List.map_id, hnone, List.map_nil, List.append_nil]

theorem WellFormed.payments_of_no_expenses (h : WellFormed R w)
    (hn : groupId = "" ∨ w.store.getExpensesForGroup groupId = []) :
    w.store.getExpensesForGroup groupId = [] ∧ w.payments groupId = [] := by
  have hx : w.store.getExpensesForGroup groupId = [] := by
    rcases hn with rfl | hn
    · exact h.getExpensesForGroup_empty
    · exact hn
  refine ⟨hx, payments_eq_nil.mpr ?_⟩
  rw [InMemoryStore.getSettlementsForGroup, List.filter_eq_nil_iff]
  intro r hr hg
  have hne := h.settlement_group r hr
  rw [of_decide_eq_true hg] at hne
  exact hne hx

theorem settledUp_of_no_expenses (hx : w.store.getExpensesForGroup groupId = [])
    (hp : w.payments groupId = []) : SettledUp groupId w := by
  intro u
  rw [getGroupNetBalances, hx, hp]
  rfl

/-! ## The first plan and the ones after it -/

/-- Right after a request is handled the group is settled up exactly when the payments that were
there before cancel out. -/
theorem settledUp_settled_iff (h : WellFormed R w) {result : DebtSimplifierResult} {acc : SettleLoop}
    {hi : Nat} (hr : PlanRecords R groupId (settle (getGroupNetBalances groupId w)) w.draws.uuids hi
      acc.records) :
    SettledUp groupId (w.settled R groupId result acc) ↔
      ∀ u, paid u (w.payments groupId) = received u (w.payments groupId) := by
  have hz : (getGroupNetBalances groupId w).values.sum = 0 := sum_values_computeNetBalances _
  have hnet : getGroupNetBalances groupId (w.settled R groupId result acc) =
      getGroupNetBalances groupId w := rfl
  refine forall_congr' fun u => ?_
  have hu := settle_accounted hz u
  rw [hnet, payments_settled h hr, paid_append, received_append]
  omega

/-- Nothing has been paid so far, or somebody has paid more than they received or less. -/
def FirstPlan (groupId : String) (w : World) : Prop :=
  w.payments groupId = [] ∨ ∃ u, paid u (w.payments groupId) ≠ received u (w.payments groupId)

theorem FirstPlan.cancel_iff (h : FirstPlan groupId w) :
    (∀ u, paid u (w.payments groupId) = received u (w.payments groupId)) ↔
      w.payments groupId = [] := by
  constructor
  · intro hc
    rcases h with h | ⟨u, hu⟩
    · exact h
    · exact absurd (hc u) hu
  · intro hn u
    rw [hn]
    rfl

theorem FirstPlan.of_plan {netBalances : Dict String ℤ} (hz : netBalances.values.sum = 0)
    (hp : w.payments groupId = settle netBalances) : FirstPlan groupId w := by
  rw [FirstPlan, hp]
  by_cases hn : ∀ u, netBalances.getD u 0 = 0
  · exact Or.inl ((settle_eq_nil_iff hz).mpr hn)
  · obtain ⟨u, hu⟩ := not_forall.mp hn
    refine Or.inr ⟨u, fun he => hu ?_⟩
    rw [← settle_accounted hz u, he]
    exact sub_self _

end ExpenseSettlement
