import ExpenseSettlement.System.Lemmas.Steps

/-!
# Well-formed worlds

Everything in the store and the service's ledger is filed under an id that has been drawn, expenses and
settlements belong to groups that exist, and the heads of both ledgers can be hashed.
-/

namespace ExpenseSettlement

open Lib LedgerEngine DebtSimplifier

variable {R : Runtime} {w w' : World}

structure WellFormed (R : Runtime) (w : World) : Prop where
  group_issued : ∀ id ∈ w.store.groups.keys, R.Issued 0 w.draws.uuids id
  expense_issued : ∀ id ∈ w.store.expenses.keys, R.Issued 0 w.draws.uuids id
  expense_id : ∀ id e, w.store.expenses.get? id = some e → e.id = id
  expense_group : ∀ e ∈ w.store.expenses.values, e.groupId ∈ w.store.groups.keys
  key_stored : ∀ key id, w.store.idempotencyKeys.get? key = some id →
    ∃ e, w.store.expenses.get? id = some e ∧ e.idempotencyKey = some key
  settlement_issued : ∀ id ∈ w.store.settlements.keys, R.Issued 0 w.draws.uuids id
  settlement_group : ∀ r ∈ w.store.settlements.values, w.store.getExpensesForGroup r.groupId ≠ []
  journal_issued : ∀ id ∈ w.serviceLedger.journals.keys, R.Issued 0 w.draws.uuids id
  service_heads : HeadsIssued R w.draws.uuids w.serviceLedger.accountHeads
  worker_heads : HeadsEncode R w.workerLedger.accountHeads

theorem existing_stored {S : InMemoryStore} {key : Option String} {e : ExpenseRecord}
    (h : S.existing key = some e) : ∃ id, S.expenses.get? id = some e := by
  unfold InMemoryStore.existing at h
  cases hk : truthy key with
  | none => rw [hk] at h; cases h
  | some k =>
      simp only [hk, Option.bind_eq_some_iff] at h
      obtain ⟨id, _, hid⟩ := h
      exact ⟨id, hid⟩

theorem getExpensesForGroup_ne_nil {S : InMemoryStore} {groupId : String} :
    S.getExpensesForGroup groupId ≠ [] ↔
      ∃ id e, S.expenses.get? id = some e ∧ e.groupId = groupId := by
  unfold InMemoryStore.getExpensesForGroup
  constructor
  · intro hne
    obtain ⟨e, he⟩ := List.exists_mem_of_ne_nil _ hne
    obtain ⟨hm, hg⟩ := List.mem_filter.mp he
    obtain ⟨id, hid⟩ := Dict.mem_values.mp hm
    exact ⟨id, e, hid, by simpa using hg⟩
  · rintro ⟨id, e, hid, hg⟩
    have hm : e ∈ S.expenses.values := Dict.mem_values.mpr ⟨id, hid⟩
    exact List.ne_nil_of_mem (List.mem_filter.mpr ⟨hm, by simpa using hg⟩)

theorem WellFormed.init : WellFormed R .init where
  group_issued := fun _ h => by cases h
  expense_issued := fun _ h => by cases h
  expense_id := fun _ _ h => by cases h
  expense_group := fun _ h => by cases h
  key_stored := fun _ _ h => by cases h
  settlement_issued := fun _ h => by cases h
  settlement_group := fun _ h => by cases h
  journal_issued := fun _ h => by cases h
  service_heads := .empty R _
  worker_heads := fun _ _ h => by cases h

namespace WellFormed

theorem getExpensesForGroup_empty (h : WellFormed R w) : w.store.getExpensesForGroup "" = [] := by
  rw [InMemoryStore.getExpensesForGroup, List.filter_eq_nil_iff]
  intro e he hg
  exact (h.group_issued _ (h.expense_group e he)).ne_empty (by simpa using hg)

theorem fresh {keys : List String} (h : ∀ id ∈ keys, R.Issued 0 w.draws.uuids id) {n : Nat}
    (hn : w.draws.uuids ≤ n) : R.uuid4 n ∉ keys := by
  intro hm
  have hnext : R.Issued w.draws.uuids (n + 1) (R.uuid4 n) := ⟨n, hn, Nat.lt_succ_self n, rfl⟩
  exact (h _ hm).ne hnext rfl

theorem of_quiet (h : WellFormed R w) (hq : Quiet R w w') : WellFormed R w' where
  group_issued := by
    intro id hid
    rcases hq.groups_new id hid with hid | hid
    · exact (h.group_issued id hid).mono (Nat.le_refl _) hq.draws
    · exact hid.mono (Nat.zero_le _) (Nat.le_refl _)
  expense_issued := by
    rw [hq.expenses]
    exact .all_mono h.expense_issued hq.draws
  expense_id := by rw [hq.expenses]; exact h.expense_id
  expense_group := by
    rw [hq.expenses]
    exact fun e he => hq.groups_kept _ (h.expense_group e he)
  key_stored := by
    rw [hq.idempotencyKeys, hq.expenses]
    exact h.key_stored
  settlement_issued := by
    rw [hq.settlements]
    exact .all_mono h.settlement_issued hq.draws
  settlement_group := by
    rw [hq.settlements]
    unfold InMemoryStore.getExpensesForGroup
    rw [hq.expenses]
    exact h.settlement_group
  journal_issued := by
    rw [hq.journals]
    exact .all_mono h.journal_issued hq.draws
  service_heads := hq.heads h.service_heads
  worker_heads := by
    rw [hq.workerLedger]
    exact h.worker_heads

theorem existing_eq_none (h : WellFormed R w) {key : String}
    (hu : ∀ e ∈ w.store.expenses.values, e.idempotencyKey ≠ some key) :
    w.store.existing (some key) = none := by
  unfold InMemoryStore.existing
  cases hk : truthy (some key) with
  | none => rfl
  | some k =>
      obtain ⟨rfl⟩ := (truthy_eq_some.mp hk).1
      dsimp only
      cases hi : w.store.idempotencyKeys.get? key with
      | none => rfl
      | some id =>
          obtain ⟨e, he, hek⟩ := h.key_stored key id hi
          exact absurd hek (hu e (Dict.mem_values.mpr ⟨id, he⟩))

theorem withCache (h : WellFormed R w) (cache : InMemoryCache CacheValue) :
    WellFormed R { w with cache } :=
  ⟨h.group_issued, h.expense_issued, h.expense_id, h.expense_group, h.key_stored,
    h.settlement_issued, h.settlement_group, h.journal_issued, h.service_heads, h.worker_heads⟩

/-! ## Accepted expenses -/

variable {req : CreateExpense} {splits : List Split}

theorem existing_id (h : WellFormed R w) {e : ExpenseRecord}
    (he : w.store.existing req.idempotencyKey = some e) : w.store.expenses.get? e.id = some e := by
  obtain ⟨id, hid⟩ := existing_stored he
  rw [h.expense_id id e hid]
  exact hid

/-- A new expense replaces none. -/
theorem newExpense_fresh (h : WellFormed R w) (hf : w.store.existing req.idempotencyKey = none) :
    (w.newExpense R req splits).id ∉ w.store.expenses.keys := by
  rw [newExpense_id hf]
  exact fresh h.expense_issued draws_lt_expenseIndex.le

theorem newExpense_issued (h : WellFormed R w) :
    R.Issued 0 (w.accept R req splits).draws.uuids (w.newExpense R req splits).id := by
  cases he : w.store.existing req.idempotencyKey with
  | none =>
      rw [newExpense_id he]
      exact ⟨_, Nat.zero_le _, accept_draws_ge, rfl⟩
  | some e =>
      rw [newExpense_of_existing he]
      exact (h.expense_issued _ (Dict.mem_keys.mpr ⟨e, h.existing_id he⟩)).mono (Nat.le_refl _)
        accept_draws_mono

theorem newExpense_group (h : WellFormed R w) (ha : Accepts R req w splits) :
    (w.newExpense R req splits).groupId ∈ w.store.groups.keys := by
  cases he : w.store.existing req.idempotencyKey with
  | none =>
      obtain ⟨_, group, hg, _⟩ := validate_ok ha.1
      rw [newExpense_groupId he]
      exact Dict.mem_keys_of_get? hg
  | some e =>
      rw [newExpense_of_existing he]
      exact h.expense_group e (Dict.mem_values.mpr ⟨_, h.existing_id he⟩)

/-- An expense that is filed keeps its id, its group and its key. -/
theorem accept_keeps (h : WellFormed R w) {id : String} {e : ExpenseRecord}
    (he : w.store.expenses.get? id = some e) :
    ∃ e', (w.accept R req splits).store.expenses.get? id = some e' ∧ e'.groupId = e.groupId ∧
      e'.idempotencyKey = e.idempotencyKey := by
  rw [accept_expenses, Dict.get?_set]
  by_cases hid : (w.newExpense R req splits).id = id
  · rw [if_pos hid]
    refine ⟨_, rfl, ?_⟩
    cases hx : w.store.existing req.idempotencyKey with
    | none =>
        apply absurd (Dict.mem_keys_of_get? he)
        rw [← hid]
        exact h.newExpense_fresh hx
    | some x =>
        rw [newExpense_of_existing hx] at hid ⊢
        have hxe := h.existing_id hx
        dsimp only at hid
        rw [hid, he] at hxe
        cases hxe
        exact ⟨rfl, rfl⟩
  · rw [if_neg hid]
    exact ⟨e, he, rfl, rfl⟩

theorem accept (h : WellFormed R w) (ha : Accepts R req w splits) :
    WellFormed R (w.accept R req splits) where
  group_issued := by
    rw [accept_groups]
    exact .all_mono h.group_issued accept_draws_mono
  expense_issued := by
    intro id hid
    rw [accept_expenses] at hid
    rcases Dict.mem_keys_set.mp hid with rfl | hid
    · exact h.newExpense_issued
    · exact (h.expense_issued id hid).mono (Nat.le_refl _) accept_draws_mono
  expense_id := by
    intro id e he
    rw [accept_expenses] at he
    rcases Dict.of_get?_set he with ⟨hid, rfl⟩ | hold
    · exact hid
    · exact h.expense_id id e hold
  expense_group := by
    intro e he
    rw [accept_groups]
    obtain ⟨id, hid⟩ := Dict.mem_values.mp he
    rw [accept_expenses] at hid
    rcases Dict.of_get?_set hid with ⟨_, rfl⟩ | hold
    · exact h.newExpense_group ha
    · exact h.expense_group e (Dict.mem_values.mpr ⟨id, hold⟩)
  key_stored := by
    intro key id hk
    rcases accept_key hk with hk | ⟨hf, hkey, rfl⟩
    · obtain ⟨e, he, hek⟩ := h.key_stored key id hk
      obtain ⟨e', he', _, hek'⟩ := h.accept_keeps he
      exact ⟨e', he', hek'.trans hek⟩
    · refine ⟨w.newExpense R req splits, ?_, (newExpense_idempotencyKey hf).trans hkey⟩
      rw [accept_expenses]
      exact Dict.get?_set_self _ _ _
  settlement_issued := by
    rw [accept_settlements]
    exact .all_mono h.settlement_issued accept_draws_mono
  settlement_group := by
    intro r hr
    rw [accept_settlements] at hr
    obtain ⟨id, e, he, hg⟩ := getExpensesForGroup_ne_nil.mp (h.settlement_group r hr)
    obtain ⟨e', he', hg', _⟩ := h.accept_keeps he
    exact getExpensesForGroup_ne_nil.mpr ⟨id, e', he', hg'.trans hg⟩
  journal_issued := by
    intro id hid
    rw [accept_journals] at hid
    rcases Dict.mem_keys_set.mp hid with rfl | hid
    · exact ⟨_, Nat.zero_le _, journalIndex_lt_expenseIndex.trans accept_draws_ge, rfl⟩
    · exact (h.journal_issued id hid).mono (Nat.le_refl _) accept_draws_mono
  service_heads := by
    obtain ⟨-, j, hj⟩ := ha
    have hissued := LedgerCall.exec_headsIssued h.service_heads (req.call splits)
    rw [(LedgerCall.exec_ok hj).2.2] at hissued
    exact hissued.mono accept_draws_ge.le
  worker_heads := h.worker_heads

theorem keys_journals_accept (h : WellFormed R w) :
    (w.accept R req splits).serviceLedger.journals.keys =
      w.serviceLedger.journals.keys ++ [R.uuid4 w.journalIndex] := by
  rw [accept_journals]
  exact Dict.keys_set_of_not_mem _ (fresh h.journal_issued (Nat.le_succ _))

/-! ## Settled groups -/

variable {groupId : String} {plan : List Settlement} {result : DebtSimplifierResult} {acc : SettleLoop}

theorem settled_items (h : WellFormed R w) {hi : Nat}
    (hr : PlanRecords R groupId plan w.draws.uuids hi acc.records) :
    (w.settled R groupId result acc).store.settlements.items =
      w.store.settlements.items ++ acc.records.map fun r => (r.id, r) :=
  Dict.items_foldl_set (fun r : SettlementRecord => r.id)
    (fun r hm hk => (h.settlement_issued _ hk).ne (hr.issued r hm) rfl) hr.distinct

theorem settled (h : WellFormed R w) (hp : Planned R groupId w result acc) :
    WellFormed R (w.settled R groupId result acc) := by
  have hr := hp.records
  have hd' : w.draws.uuids ≤ (w.settled R groupId result acc).draws.uuids :=
    hp.draws.trans (Nat.le_succ _)
  have hitems : (w.settled R groupId result acc).store.settlements.items =
      w.store.settlements.items ++ acc.records.map fun r => (r.id, r) := h.settled_items hr
  refine ⟨?_, ?_, h.expense_id, h.expense_group, h.key_stored, ?_, ?_, ?_, ?_, hp.encoded h.worker_heads⟩
  · exact .all_mono h.group_issued hd'
  · exact .all_mono h.expense_issued hd'
  · intro id hid
    rw [Dict.keys, hitems, List.map_append, List.mem_append] at hid
    rcases hid with hid | hid
    · exact (h.settlement_issued id hid).mono (Nat.le_refl _) hd'
    · simp only [List.map_map, List.mem_map, Function.comp_apply] at hid
      obtain ⟨r, hm, rfl⟩ := hid
      exact (hr.issued r hm).mono (Nat.zero_le _) (Nat.le_succ _)
  · intro r hm
    rw [Dict.values, hitems, List.map_append, List.mem_append] at hm
    rcases hm with hm | hm
    · exact h.settlement_group r hm
    · simp only [List.map_map, List.mem_map, Function.comp_apply] at hm
      obtain ⟨r', hm', rfl⟩ := hm
      rw [hr.group r' hm']
      exact hp.expenses
  · exact .all_mono h.journal_issued hd'
  · exact h.service_heads.mono hd'

/-! ## Runs -/

theorem step (h : WellFormed R w) (op : Operation) : WellFormed R (w.step R op) := by
  rcases World.step_cases h.worker_heads op with hq | ⟨req, splits, ha⟩ | ⟨groupId, result, acc, hs⟩
  · exact h.of_quiet hq.quiet
  · rw [ha.step]
    exact h.accept ha.accepts
  · rw [hs.step]
    exact h.settled hs.planned

theorem run (ops : List Operation) : WellFormed R (World.run R ops) :=
  Lib.run_invariant (WellFormed R) (fun _ op h => h.step op) .init ops

/-- What the steps of well-formed worlds keep holds after every run. -/
theorem run_invariant {P : World → Prop} (hstep : ∀ w op, WellFormed R w → P w → P (w.step R op))
    (hinit : P .init) (ops : List Operation) : P (World.run R ops) := by
  have hrun : WellFormed R (World.run R ops) ∧ P (World.run R ops) :=
    Lib.run_invariant (fun w => WellFormed R w ∧ P w)
      (fun w op h => ⟨h.1.step op, hstep w op h.1 h.2⟩) ⟨.init, hinit⟩ ops
  exact hrun.2

end WellFormed

end ExpenseSettlement
