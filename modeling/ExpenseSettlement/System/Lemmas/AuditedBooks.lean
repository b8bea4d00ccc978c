import ExpenseSettlement.System.Lemmas.WellFormed

/-!
# Settlements in the audited books

The worker posts its journals to a ledger of its own. The ledger of the expense service, which the
audit reports on, has expense journals only.
-/

namespace ExpenseSettlement

open Lib LedgerEngine DebtSimplifier

variable {R : Runtime} {w w' : World}

/-- A settlement journal that moves the record's amount from its payer's wallet to its payee's. -/
def Moves (r : SettlementRecord) (j : Journal) : Prop :=
  ∃ id, j.entries.map (·.posting) =
    specBooks (settlementSpecs (settlementClearing id) r.payerId r.payeeId r.amountCents)

/-- Every executed settlement has a journal of its own in the audited ledger. -/
def SettlementsAudited (w : World) : Prop :=
  ∃ journalOf : SettlementRecord → String,
    (∀ r ∈ w.store.settlements.values, r.isExecuted = true →
      ∃ j, w.serviceLedger.journals.get? (journalOf r) = some j ∧ Moves r j) ∧
    ∀ r ∈ w.store.settlements.values, ∀ r' ∈ w.store.settlements.values,
      r.isExecuted = true → r'.isExecuted = true → journalOf r = journalOf r' → r = r'

theorem settlementsAudited_of_nil (h : w.store.settlements.values = []) : SettlementsAudited w :=
  ⟨fun _ => "", by simp [h], by simp [h]⟩

/-! ## The service's journals -/

def NoSettlementJournal (L : LedgerEngine) : Prop :=
  ∀ j ∈ L.journals.values, ∀ r, ¬ Moves r j

theorem newJournal_not_moves {req : CreateExpense} {splits : List Split} (r : SettlementRecord) :
    ¬ Moves r (w.newJournal R req splits) := by
  rintro ⟨id, h⟩
  rw [World.newJournal, newJournal_postings] at h
  have hm : (⟨settlementClearing id, .credit, r.amountCents⟩ : Posting String) ∈
      (w.journalSpecs R req splits).map (·.posting) := by
    rw [h]
    simp [settlementSpecs, EntrySpec.posting, EntryType.side]
  obtain ⟨spec, hs, hspec⟩ := List.mem_map.mp hm
  have hacc : spec.accountId = settlementClearing id := congrArg Posting.account hspec
  cases expenseSpecs_account hs with
  | inl hc => exact settlementClearing_ne_expenseClearing _ _ (hacc.symm.trans hc)
  | inr hu =>
      obtain ⟨u, hu⟩ := hu
      exact userWallet_ne_settlementClearing u id (hu.symm.trans hacc)

theorem NoSettlementJournal.accept {req : CreateExpense} {splits : List Split}
    (h : NoSettlementJournal w.serviceLedger) :
    NoSettlementJournal (w.accept R req splits).serviceLedger := by
  intro j hj r
  obtain ⟨id, hid⟩ := Dict.mem_values.mp hj
  rw [accept_journals] at hid
  rcases Dict.of_get?_set hid with ⟨-, rfl⟩ | hold
  · exact newJournal_not_moves r
  · exact h j (Dict.mem_values.mpr ⟨id, hold⟩) r

theorem NoSettlementJournal.step (hw : WellFormed R w) (h : NoSettlementJournal w.serviceLedger)
    (op : Operation) : NoSettlementJournal (w.step R op).serviceLedger := by
  rcases World.step_cases hw.worker_heads op with hq | ⟨req, splits, ha⟩ | ⟨groupId, result, acc, hs⟩
  · rw [NoSettlementJournal, hq.quiet.journals]
    exact h
  · rw [ha.step]
    exact h.accept
  · rw [hs.step]
    exact h

theorem NoSettlementJournal.run (ops : List Operation) :
    NoSettlementJournal (World.run R ops).serviceLedger :=
  WellFormed.run_invariant (P := fun w => NoSettlementJournal w.serviceLedger) (fun _ op hw h => h.step hw op)
    (fun _ hj => absurd hj List.not_mem_nil) ops

/-! ## Settled groups -/

variable {groupId : String} {result : DebtSimplifierResult} {acc : SettleLoop}

theorem values_settled (hw : WellFormed R w) {plan : List Settlement} {hi : Nat}
    (hr : PlanRecords R groupId plan w.draws.uuids hi acc.records) :
    (w.settled R groupId result acc).store.settlements.values =
      w.store.settlements.values ++ acc.records := by
  rw [Dict.values, hw.settled_items hr, List.map_append, List.map_map]
  exact congrArg (w.store.settlements.values ++ ·) (List.map_id _)

/-- The handler only saves records of payments it has executed. -/
theorem SettleStep.executed (hw : WellFormed R w) {op : Operation} (hs : SettleStep R w op groupId result acc)
    (h : ∀ r ∈ w.store.settlements.values, r.isExecuted = true) :
    ∀ r ∈ (w.step R op).store.settlements.values, r.isExecuted = true := by
  intro r hr
  rw [hs.step, values_settled hw hs.planned.records, List.mem_append] at hr
  rcases hr with hold | hnew
  · exact h r hold
  · exact (hs.planned.executed r hnew).1

theorem settlementsAudited_iff_nil (h : NoSettlementJournal w.serviceLedger)
    (hx : ∀ r ∈ w.store.settlements.values, r.isExecuted = true) :
    SettlementsAudited w ↔ w.store.settlements.values = [] := by
  constructor
  · rintro ⟨journalOf, hj, -⟩
    refine List.eq_nil_iff_forall_not_mem.mpr fun r hr => ?_
    obtain ⟨j, hget, hmoves⟩ := hj r hr (hx r hr)
    exact h j (Dict.mem_values.mpr ⟨_, hget⟩) r hmoves
  · exact settlementsAudited_of_nil

/-- A request leaves no record exactly when everybody's balance in the group is zero. -/
theorem SettleStep.values_eq_nil_iff (hw : WellFormed R w) {op : Operation}
    (hs : SettleStep R w op groupId result acc) (hn : w.store.settlements.values = []) :
    (w.step R op).store.settlements.values = [] ↔
      ∀ u, (getGroupNetBalances groupId w).getD u 0 = 0 := by
  have hz : (getGroupNetBalances groupId w).values.sum = 0 := sum_values_computeNetBalances _
  rw [hs.step, values_settled hw hs.planned.records, hn, List.nil_append, ← settle_eq_nil_iff hz,
    ← hs.planned.records.payments, List.map_eq_nil_iff]

end ExpenseSettlement
