import ExpenseSettlement.Core.Lemmas.Heads
import ExpenseSettlement.Services.ExpenseService

/-!
# The two outcomes of `create_expense`

A call that raises has changed nothing but the ids drawn and heads of the ledger. A call that returns
has posted one journal, stored or found one expense, and emitted one event.
-/

namespace ExpenseSettlement

open Lib LedgerEngine

variable {R : Runtime}

def CreateExpense.call (req : CreateExpense) (splits : List Split) : LedgerCall :=
  .expense req.payerId splits req.title

/-- The draws when the journal has its clearing account. -/
def World.clearingDraws (w : World) : Draws := { w.draws with uuids := w.draws.uuids + 1 }

def World.journalSpecs (R : Runtime) (req : CreateExpense) (splits : List Split) (w : World) :
    List EntrySpec := (req.call splits).specs R w.draws

def World.newJournal (R : Runtime) (req : CreateExpense) (splits : List Split) (w : World) : Journal :=
  LedgerEngine.newJournal R (w.journalSpecs R req splits) req.title w.clearingDraws w.serviceLedger

def World.storing (R : Runtime) (req : CreateExpense) (splits : List Split) (w : World) :
    ExpenseRecord × Draws × InMemoryStore :=
  w.store.createExpense R req.groupId req.payerId req.title req.totalCents req.splitType splits
    req.idempotencyKey (drawn (w.journalSpecs R req splits) w.clearingDraws)

def World.newExpense (R : Runtime) (req : CreateExpense) (splits : List Split) (w : World) :
    ExpenseRecord :=
  { (w.storing R req splits).1 with journalId := some (w.newJournal R req splits).journalId }

def World.accept (R : Runtime) (req : CreateExpense) (splits : List Split) (w : World) : World :=
  let expense := w.newExpense R req splits
  let S := (w.storing R req splits).2.2
  let appended := w.outbox.append R EventType.expenseCreated.value expense.id
    (.expenseCreated expense.id req.groupId req.payerId req.totalCents req.title splits
      req.idempotencyKey) (w.storing R req splits).2.1
  { w with
    draws := appended.2.1
    store := { S with expenses := S.expenses.set expense.id expense }
    serviceLedger := commit R (w.journalSpecs R req splits) req.title w.clearingDraws w.serviceLedger
    outbox := appended.2.2 }

theorem validate_ok {req : CreateExpense} {S : InMemoryStore} {splits : List Split}
    (h : validate R req S = .ok splits) :
    1 ≤ req.totalCents ∧ ∃ group, S.groups.get? req.groupId = some group ∧
      req.payerId ∈ group.memberIds ∧ computeSplits R req group.memberIds = .ok splits := by
  unfold validate at h
  by_cases ht : req.totalCents < 1
  · rw [if_pos ht] at h
    cases h
  · rw [if_neg ht] at h
    cases hg : S.groups.get? req.groupId with
    | none => simp only [hg] at h; cases h
    | some group =>
        simp only [hg] at h
        by_cases hm : group.memberIds = []
        · rw [if_pos hm] at h
          cases h
        · rw [if_neg hm] at h
          by_cases hp : req.payerId ∈ group.memberIds
          · rw [if_neg (not_not.mpr hp)] at h
            exact ⟨by omega, group, rfl, hp, h⟩
          · rw [if_pos hp] at h
            cases h

/-- A request passes the checks with these splits, and the ledger posts their journal. -/
structure Accepts (R : Runtime) (req : CreateExpense) (w : World) (splits : List Split) : Prop where
  valid : validate R req w.store = .ok splits
  posted : ∃ j, ((req.call splits).exec R w.draws w.serviceLedger).1 = .ok j

theorem Accepts.positive {req : CreateExpense} {w : World} {splits : List Split}
    (h : Accepts R req w splits) : (req.call splits).Positive := by
  obtain ⟨-, j, hj⟩ := h
  exact (LedgerCall.exec_ok hj).1

theorem createExpense_of_accepts {req : CreateExpense} {w : World} {splits : List Split}
    (h : Accepts R req w splits) :
    createExpense R req w = (.ok (w.newExpense R req splits), w.accept R req splits) := by
  obtain ⟨hv, j, hj⟩ := h
  have hpost : w.serviceLedger.postExpenseJournal R req.payerId splits req.title w.draws =
      (.ok (w.newJournal R req splits), drawn (w.journalSpecs R req splits) w.clearingDraws,
        commit R (w.journalSpecs R req splits) req.title w.clearingDraws w.serviceLedger) :=
    (LedgerCall.exec_ok hj).2.2
  simp only [createExpense, hv, hpost]
  rfl

/-- What a request that raises leaves: at most draws, and heads of the service's ledger. -/
structure Rejects (R : Runtime) (w w' : World) : Prop where
  draws : w.draws.Later w'.draws
  eq : w' = { w with
    draws := w'.draws
    serviceLedger := { w.serviceLedger with accountHeads := w'.serviceLedger.accountHeads } }
  heads : HeadsIssued R w.draws.uuids w.serviceLedger.accountHeads →
    HeadsIssued R w'.draws.uuids w'.serviceLedger.accountHeads

theorem createExpense_of_exec_error {req : CreateExpense} {w : World} {splits : List Split} {e : PyError}
    (hv : validate R req w.store = .ok splits)
    (hr : ((req.call splits).exec R w.draws w.serviceLedger).1 = .error e) :
    createExpense R req w = (.error e, { w with
      draws := ((req.call splits).exec R w.draws w.serviceLedger).2.1
      serviceLedger := ((req.call splits).exec R w.draws w.serviceLedger).2.2 }) := by
  have hpost : w.serviceLedger.postExpenseJournal R req.payerId splits req.title w.draws =
      (.error e, ((req.call splits).exec R w.draws w.serviceLedger).2) := Prod.ext hr rfl
  simp only [createExpense, hv, hpost]

theorem createExpense_of_not_accepts {req : CreateExpense} {w : World}
    (h : ∀ splits, ¬ Accepts R req w splits) :
    ∃ e w', createExpense R req w = (.error e, w') ∧ Rejects R w w' := by
  cases hv : validate R req w.store with
  | error e =>
      refine ⟨e, w, ?_, .refl _, rfl, id⟩
      simp only [createExpense, hv]
  | ok splits =>
      cases hr : ((req.call splits).exec R w.draws w.serviceLedger).1 with
      | ok j => exact absurd ⟨hv, j, hr⟩ (h splits)
      | error e =>
          obtain ⟨-, hd, heads, hL⟩ := LedgerCall.exec_error hr
          refine ⟨e, _, createExpense_of_exec_error hv hr, hd, ?_,
            fun hi => LedgerCall.exec_headsIssued hi (req.call splits)⟩
          simp only [hL]

theorem createExpense_cases (R : Runtime) (req : CreateExpense) (w : World) :
    (∃ e w', createExpense R req w = (.error e, w') ∧ Rejects R w w') ∨
    ∃ splits, Accepts R req w splits ∧
      createExpense R req w = (.ok (w.newExpense R req splits), w.accept R req splits) := by
  by_cases h : ∃ splits, Accepts R req w splits
  · obtain ⟨splits, ha⟩ := h
    exact Or.inr ⟨splits, ha, createExpense_of_accepts ha⟩
  · exact Or.inl (createExpense_of_not_accepts fun splits ha => h ⟨splits, ha⟩)

theorem createExpense_ok {req : CreateExpense} {w w' : World} {e : ExpenseRecord}
    (h : createExpense R req w = (.ok e, w')) : ∃ splits, Accepts R req w splits ∧
      e = w.newExpense R req splits ∧ w' = w.accept R req splits := by
  rcases createExpense_cases R req w with ⟨x, w'', he, -⟩ | ⟨splits, ha, he⟩
  · rw [he] at h
    cases h
  · rw [he] at h
    cases h
    exact ⟨splits, ha, rfl, rfl⟩

theorem createExpense_error {req : CreateExpense} {w w' : World} {e : PyError}
    (h : createExpense R req w = (.error e, w')) : Rejects R w w' := by
  rcases createExpense_cases R req w with ⟨e', w'', he, hr⟩ | ⟨splits, -, he⟩
  · obtain ⟨-, rfl⟩ := Prod.mk.inj (he.symm.trans h)
    exact hr
  · rw [he] at h
    cases h

/-- A request that raises leaves the ledger alone unless its posting breaks off between two entries. -/
theorem createExpense_unchanged_iff {req : CreateExpense} {w : World}
    (hheads : HeadsIssued R w.draws.uuids w.serviceLedger.accountHeads) :
    (∀ e w', createExpense R req w = (.error e, w') → w'.serviceLedger = w.serviceLedger) ↔
      ∀ splits, validate R req w.store = .ok splits → (req.call splits).Guarded R := by
  constructor
  · intro hsame splits hv
    by_contra hnot
    obtain ⟨e, hr, a, ha, hnew⟩ := LedgerCall.exec_changed hheads hnot
    have hledger := hsame e _ (createExpense_of_exec_error hv hr)
    dsimp only at hledger
    rw [hledger] at ha
    exact hnew ha
  · intro hguarded e w' he
    cases hv : validate R req w.store with
    | error e' =>
        rw [createExpense, hv] at he
        obtain ⟨-, rfl⟩ := Prod.mk.inj he
        rfl
    | ok splits =>
        cases hr : ((req.call splits).exec R w.draws w.serviceLedger).1 with
        | ok j =>
            rw [createExpense_of_accepts ⟨hv, j, hr⟩] at he
            cases he
        | error e' =>
            obtain ⟨-, rfl⟩ := Prod.mk.inj ((createExpense_of_exec_error hv hr).symm.trans he)
            exact LedgerCall.exec_unchanged hheads.encoded (hguarded splits hv) hr

/-! ## The parts of the new world -/

def World.journalIndex (w : World) : Nat := w.draws.uuids + 1

def World.expenseIndex (R : Runtime) (req : CreateExpense) (splits : List Split) (w : World) : Nat :=
  (drawn (w.journalSpecs R req splits) w.clearingDraws).uuids

variable {req : CreateExpense} {w : World} {splits : List Split}

theorem newJournal_id : (w.newJournal R req splits).journalId = R.uuid4 w.journalIndex := rfl

theorem journalIndex_lt_expenseIndex : w.journalIndex < w.expenseIndex R req splits := by
  simp only [World.journalIndex, World.expenseIndex, drawn, World.clearingDraws]
  omega

theorem accept_journals :
    (w.accept R req splits).serviceLedger.journals =
      w.serviceLedger.journals.set (R.uuid4 w.journalIndex) (w.newJournal R req splits) := rfl

theorem accept_events :
    (w.accept R req splits).outbox.events.map (fun e => (e.eventType, e.aggregateId)) =
      w.outbox.events.map (fun e => (e.eventType, e.aggregateId)) ++
        [(EventType.expenseCreated.value, (w.newExpense R req splits).id)] := by
  simp [World.accept, InMemoryOutbox.append]

section Fresh

variable (hf : w.store.existing req.idempotencyKey = none)

include hf

theorem newExpense_id : (w.newExpense R req splits).id = R.uuid4 (w.expenseIndex R req splits) := by
  simp only [World.newExpense, World.storing, InMemoryStore.createExpense, hf]
  rfl

theorem newExpense_groupId : (w.newExpense R req splits).groupId = req.groupId := by
  simp only [World.newExpense, World.storing, InMemoryStore.createExpense, hf]

theorem newExpense_payerId : (w.newExpense R req splits).payerId = req.payerId := by
  simp only [World.newExpense, World.storing, InMemoryStore.createExpense, hf]

theorem newExpense_totalCents : (w.newExpense R req splits).totalCents = req.totalCents := by
  simp only [World.newExpense, World.storing, InMemoryStore.createExpense, hf]

theorem newExpense_splitType : (w.newExpense R req splits).splitType = req.splitType := by
  simp only [World.newExpense, World.storing, InMemoryStore.createExpense, hf]

theorem newExpense_idempotencyKey :
    (w.newExpense R req splits).idempotencyKey = req.idempotencyKey := by
  simp only [World.newExpense, World.storing, InMemoryStore.createExpense, hf]

theorem newExpense_splits : (w.newExpense R req splits).splits = splits := by
  simp only [World.newExpense, World.storing, InMemoryStore.createExpense, hf]

/-- Under an unused key the expense is stored once, with its journal. -/
theorem accept_store :
    (w.accept R req splits).store =
      { w.store with
        expenses := w.store.expenses.set (R.uuid4 (w.expenseIndex R req splits))
          (w.newExpense R req splits)
        idempotencyKeys := match truthy req.idempotencyKey with
          | none => w.store.idempotencyKeys
          | some key => w.store.idempotencyKeys.set key (R.uuid4 (w.expenseIndex R req splits)) } := by
  cases hk : truthy req.idempotencyKey <;>
    simp only [World.accept, World.newExpense, World.storing, InMemoryStore.createExpense, hf, hk,
      World.expenseIndex, Dict.set_set]

theorem accept_draws :
    (w.accept R req splits).draws.uuids = w.expenseIndex R req splits + 2 := by
  simp only [World.accept, World.storing, InMemoryStore.createExpense, hf, InMemoryOutbox.append]
  rfl

end Fresh

section Repeated

variable {e : ExpenseRecord} (he : w.store.existing req.idempotencyKey = some e)

include he

theorem newExpense_of_existing :
    w.newExpense R req splits = { e with journalId := some (R.uuid4 w.journalIndex) } := by
  simp only [World.newExpense, World.storing, InMemoryStore.createExpense, he]
  rfl

/-- Under a used key the old expense stays, with the new journal in place of its own. -/
theorem accept_store_of_existing :
    (w.accept R req splits).store =
      { w.store with
        expenses := w.store.expenses.set e.id
          { e with journalId := some (R.uuid4 w.journalIndex) } } := by
  simp only [World.accept, World.newExpense, World.storing, InMemoryStore.createExpense, he]
  rfl

theorem accept_draws_of_existing :
    (w.accept R req splits).draws.uuids = w.expenseIndex R req splits + 1 := by
  simp only [World.accept, World.storing, InMemoryStore.createExpense, he, InMemoryOutbox.append]
  rfl

end Repeated

theorem accept_expenses :
    (w.accept R req splits).store.expenses =
      w.store.expenses.set (w.newExpense R req splits).id (w.newExpense R req splits) := by
  cases he : w.store.existing req.idempotencyKey with
  | none => rw [accept_store he, newExpense_id he]
  | some e => rw [accept_store_of_existing he, newExpense_of_existing he]

theorem truthy_eq_some {key : Option String} {k : String} :
    truthy key = some k ↔ key = some k ∧ k ≠ "" := by
  rw [truthy, Option.filter_eq_some_iff]
  simp

theorem accept_key {key id : String}
    (h : (w.accept R req splits).store.idempotencyKeys.get? key = some id) :
    w.store.idempotencyKeys.get? key = some id ∨
      (w.store.existing req.idempotencyKey = none ∧ req.idempotencyKey = some key ∧
        (w.newExpense R req splits).id = id) := by
  cases he : w.store.existing req.idempotencyKey with
  | some e =>
      rw [accept_store_of_existing he] at h
      exact Or.inl h
  | none =>
      rw [accept_store he] at h
      cases hk : truthy req.idempotencyKey with
      | none =>
          simp only [hk] at h
          exact Or.inl h
      | some k =>
          simp only [hk] at h
          rcases Dict.of_get?_set h with ⟨rfl, hid⟩ | hold
          · exact Or.inr ⟨rfl, (truthy_eq_some.mp hk).1, (newExpense_id he).trans hid⟩
          · exact Or.inl hold

theorem accept_users : (w.accept R req splits).store.users = w.store.users := by
  cases he : w.store.existing req.idempotencyKey with
  | none => rw [accept_store he]
  | some e => rw [accept_store_of_existing he]

@[simp] theorem accept_groups : (w.accept R req splits).store.groups = w.store.groups := by
  cases he : w.store.existing req.idempotencyKey with
  | none => rw [accept_store he]
  | some e => rw [accept_store_of_existing he]

@[simp] theorem accept_settlements :
    (w.accept R req splits).store.settlements = w.store.settlements := by
  cases he : w.store.existing req.idempotencyKey with
  | none => rw [accept_store he]
  | some e => rw [accept_store_of_existing he]

theorem draws_lt_expenseIndex : w.draws.uuids < w.expenseIndex R req splits :=
  (Nat.lt_succ_self _).trans journalIndex_lt_expenseIndex

theorem accept_draws_ge : w.expenseIndex R req splits < (w.accept R req splits).draws.uuids := by
  cases he : w.store.existing req.idempotencyKey with
  | none => rw [accept_draws he]; omega
  | some e => rw [accept_draws_of_existing he]; omega

theorem accept_draws_mono : w.draws.uuids ≤ (w.accept R req splits).draws.uuids :=
  (draws_lt_expenseIndex.trans accept_draws_ge).le

end ExpenseSettlement
