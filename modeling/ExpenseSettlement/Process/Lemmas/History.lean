import ExpenseSettlement.Process.Lemmas.Audits

/-!
# What has been recorded stays

Tables, ledgers and the outbox grow at their ends. Of an expense only the journal is replaced, where its
key is used again, and of an event only whether it is published.
-/

namespace ExpenseSettlement

open Lib LedgerEngine

variable {R : Runtime} {w w' w'' : World}

/-! ## Ledgers -/

structure LedgerExtends (L L' : LedgerEngine) : Prop where
  entries : L.entries <+: L'.entries
  journals : L.journals.values <+: L'.journals.values

namespace LedgerExtends

variable {L L' L'' : LedgerEngine}

theorem refl (L : LedgerEngine) : LedgerExtends L L := ⟨List.prefix_refl _, List.prefix_refl _⟩

theorem trans (h : LedgerExtends L L') (h' : LedgerExtends L' L'') : LedgerExtends L L'' :=
  ⟨h.entries.trans h'.entries, h.journals.trans h'.journals⟩

end LedgerExtends

theorem LedgerState.step_entries (s : LedgerState) (c : LedgerCall) :
    s.engine.entries <+: (s.step R c).engine.entries := by
  rw [step_engine]
  cases hr : (c.exec R s.draws s.engine).1 with
  | error e =>
      obtain ⟨-, -, heads, he⟩ := LedgerCall.exec_error hr
      rw [he]
  | ok j =>
      rw [(LedgerCall.exec_ok hr).2.2]
      exact List.prefix_append _ _

/-- The journal of a call has an id that no journal has. -/
theorem LedgerState.step_extends {s : LedgerState}
    (hf : ∀ id ∈ s.engine.journals.keys, R.Issued 0 s.draws.uuids id) (c : LedgerCall) :
    LedgerExtends s.engine (s.step R c).engine := by
  refine ⟨s.step_entries c, ?_⟩
  rw [step_engine]
  cases hr : (c.exec R s.draws s.engine).1 with
  | error e =>
      obtain ⟨-, -, heads, he⟩ := LedgerCall.exec_error hr
      rw [he]
  | ok j =>
      have hissued : R.Issued s.draws.uuids (s.draws.uuids + 2) (R.uuid4 (s.draws.uuids + 1)) :=
        ⟨_, Nat.le_succ _, Nat.lt_succ_self _, rfl⟩
      have hfresh : R.uuid4 (s.draws.uuids + 1) ∉ s.engine.journals.keys := fun hm => (hf _ hm).ne hissued rfl
      rw [(LedgerCall.exec_ok hr).2.2, commit]
      exact (Dict.values_set_of_not_mem _ hfresh) ▸ List.prefix_append _ _

theorem Planned.ledger_extends {groupId : String} {result : DebtSimplifierResult} {acc : SettleLoop}
    (h : Planned R groupId w result acc) (hf : Filed R w.draws w.workerLedger) :
    LedgerExtends w.workerLedger acc.ledger := by
  obtain ⟨journals, hpay⟩ := h.payments hf
  refine ⟨?_, ?_⟩
  · rw [← h.paid]
    refine run_invariant (fun acc : SettleLoop => w.workerLedger.entries <+: acc.ledger.entries) ?_
      (List.prefix_refl _) _
    exact fun acc' s hprefix => hprefix.trans (LedgerState.step_entries ⟨acc'.draws, acc'.ledger⟩ s.call)
  · rw [hpay.posted]
    exact List.prefix_append _ _

/-! ## The whole record -/

/-- An expense without its journal. -/
def ExpenseRecord.unjournaled (e : ExpenseRecord) : ExpenseRecord := { e with journalId := none }

structure History (w w' : World) : Prop where
  expenses : w.store.expenses.values.map (·.unjournaled) <+: w'.store.expenses.values.map (·.unjournaled)
  settlements : w.store.settlements.values <+: w'.store.settlements.values
  events : w.outbox.events.map OutboxEvent.content <+: w'.outbox.events.map OutboxEvent.content
  service : LedgerExtends w.serviceLedger w'.serviceLedger
  worker : LedgerExtends w.workerLedger w'.workerLedger

namespace History

theorem refl (w : World) : History w w :=
  ⟨List.prefix_refl _, List.prefix_refl _, List.prefix_refl _, .refl _, .refl _⟩

theorem trans (h : History w w') (h' : History w' w'') : History w w'' :=
  ⟨h.expenses.trans h'.expenses, h.settlements.trans h'.settlements, h.events.trans h'.events,
    h.service.trans h'.service, h.worker.trans h'.worker⟩

end History

theorem Emits.events (h : Emits R w w') :
    w.outbox.events.map OutboxEvent.content <+: w'.outbox.events.map OutboxEvent.content := by
  cases h with
  | nothing _ ho => rw [ho]
  | event _ ha =>
      have houtbox := (Prod.mk.inj ha).2
      rw [houtbox]
      simp

theorem ServiceBooks.extends_ledger {call : Option LedgerCall} (h : ServiceBooks R w w' call)
    (hw : WellFormed R w) :
    LedgerExtends w.serviceLedger w'.serviceLedger := by
  cases h with
  | kept _ hl =>
      rw [hl]
      exact .refl _
  | posted _ hl =>
      rw [hl]
      exact LedgerState.step_extends (s := ⟨w.draws, w.serviceLedger⟩) hw.journal_issued _

/-- A new expense comes last, and a repeated one gets another journal. -/
theorem WellFormed.accept_expenses_kept {req : CreateExpense} {splits : List Split} (hw : WellFormed R w) :
    w.store.expenses.values.map (·.unjournaled) <+:
      (w.accept R req splits).store.expenses.values.map (·.unjournaled) := by
  rw [accept_expenses]
  cases he : w.store.existing req.idempotencyKey with
  | none =>
      rw [Dict.values_set_of_not_mem _ (hw.newExpense_fresh he), List.map_append]
      exact List.prefix_append _ _
  | some e =>
      have hsame : (w.newExpense R req splits).unjournaled = e.unjournaled := by
        rw [newExpense_of_existing he]
        rfl
      have hid : (w.newExpense R req splits).id = e.id := by rw [newExpense_of_existing he]
      rw [hid, Dict.map_values_set (hw.existing_id he) hsame]

theorem WellFormed.createExpense_expenses_kept (hw : WellFormed R w) (req : CreateExpense) :
    w.store.expenses.values.map (·.unjournaled) <+:
      (createExpense R req w).2.store.expenses.values.map (·.unjournaled) := by
  rcases createExpense_cases R req w with ⟨e, w', he, hr⟩ | ⟨splits, -, he⟩
  · rw [he, hr.eq]
  · rw [he]
    exact hw.accept_expenses_kept

namespace History

/-- What a route does to the record, apart from the expenses. -/
theorem of_routes (hw : WellFormed R w) (he : Emits R w w') {call : Option LedgerCall}
    (hb : ServiceBooks R w w' call) (hu : Untouched w w')
    (hx : w.store.expenses.values.map (·.unjournaled) <+: w'.store.expenses.values.map (·.unjournaled)) :
    History w w' where
  expenses := hx
  settlements := by rw [hu.settlements]
  events := he.events
  service := hb.extends_ledger hw
  worker := by
    rw [hu.workerLedger]
    exact .refl _

theorem handle (hw : WellFormed R w) (hf : Filed R w.draws w.workerLedger) {groupId : String}
    {fails : Option HandlerCall} {ok : Bool} (hstep : HandleStep R groupId w fails ok w') : History w w' := by
  have hevents := (Emits.handle hstep).events
  cases hstep with
  | nothing | unread | unsummed => exact .refl w
  | posted hp => exact ⟨List.prefix_refl _, List.prefix_refl _, hevents, .refl _, hp.ledger_extends hf⟩
  | @saved result acc call hp _ =>
      refine ⟨List.prefix_refl _, ?_, hevents, .refl _, hp.ledger_extends hf⟩
      have hsaved : (w.settled R groupId result acc).store.settlements.values =
          w.store.settlements.values ++ acc.records := values_settled hw hp.records
      change (w.saved groupId acc call).store.settlements.values = _ at hsaved
      rw [hsaved]
      exact List.prefix_append _ _
  | completed hp =>
      refine ⟨List.prefix_refl _, ?_, hevents, .refl _, hp.ledger_extends hf⟩
      rw [values_settled hw hp.records]
      exact List.prefix_append _ _

end History

/-! ## The listed expenses -/

def ExpenseResponse.unjournaled (response : ExpenseResponse) : ExpenseResponse :=
  { response with journalId := none }

theorem fmtExpense_unjournaled (R : Runtime) (e : ExpenseRecord) :
    fmtExpense R e.unjournaled = (fmtExpense R e).map (·.unjournaled) := by
  have htotal : e.unjournaled.totalCents = e.totalCents := rfl
  rw [fmtExpense, fmtExpense, htotal]
  split
  · rfl
  · split <;> rfl

theorem mapM_fmtExpense_unjournaled (R : Runtime) (expenses : List ExpenseRecord) :
    (expenses.map (·.unjournaled)).mapM (fmtExpense R) =
      (expenses.mapM (fmtExpense R)).map (List.map (·.unjournaled)) := by
  induction expenses with
  | nil => rfl
  | cons e expenses ih =>
      rw [List.map_cons, List.mapM_cons, List.mapM_cons, ih, fmtExpense_unjournaled]
      cases fmtExpense R e with
      | error err => rfl
      | ok response =>
          cases expenses.mapM (fmtExpense R) with
          | error err => rfl
          | ok responses => rfl

/-- Where the longer list can be formatted, its front can. -/
theorem mapM_ok_of_prefix {α β ε : Type} {f : α → Except ε β} {l l' : List α} {results : List β}
    (h : l <+: l')
    (hok : l'.mapM f = .ok results) : ∃ front, l.mapM f = .ok front ∧ front <+: results := by
  obtain ⟨rest, rfl⟩ := h
  rw [List.mapM_append] at hok
  cases hfront : l.mapM f with
  | error err =>
      rw [hfront] at hok
      cases hok
  | ok front =>
      rw [hfront] at hok
      cases hrest : rest.mapM f with
      | error err =>
          rw [hrest] at hok
          cases hok
      | ok results' =>
          rw [hrest] at hok
          cases hok
          exact ⟨front, rfl, List.prefix_append _ _⟩

theorem History.listed (h : History w w') {groupId : String} {responses' : List ExpenseResponse}
    (hok : listExpenses R groupId w' = .ok responses') :
    ∃ responses, listExpenses R groupId w = .ok responses ∧
      responses.map (·.unjournaled) <+: responses'.map (·.unjournaled) := by
  have hgroup : ∀ S : InMemoryStore, (S.getExpensesForGroup groupId).map (·.unjournaled) =
      (S.expenses.values.map (·.unjournaled)).filter (·.groupId = groupId) := by
    intro S
    rw [List.filter_map]
    rfl
  have hfront : (w.store.getExpensesForGroup groupId).map (·.unjournaled) <+:
      (w'.store.getExpensesForGroup groupId).map (·.unjournaled) := by
    rw [hgroup, hgroup]
    exact h.expenses.filter _
  have hbare : ((w'.store.getExpensesForGroup groupId).map (·.unjournaled)).mapM (fmtExpense R) =
      .ok (responses'.map (·.unjournaled)) := by
    rw [listExpenses] at hok
    rw [mapM_fmtExpense_unjournaled, hok]
    rfl
  obtain ⟨front, hformatted, hprefix⟩ := mapM_ok_of_prefix hfront hbare
  rw [mapM_fmtExpense_unjournaled] at hformatted
  cases hlisted : listExpenses R groupId w with
  | error err =>
      rw [listExpenses] at hlisted
      rw [hlisted] at hformatted
      cases hformatted
  | ok responses =>
      rw [listExpenses] at hlisted
      rw [hlisted] at hformatted
      cases hformatted
      exact ⟨responses, rfl, hprefix⟩

/-! ## Runs -/

namespace Process

variable {ι : Type} [DecidableEq ι] {p : ι → PostExpense} {s : Process ι}

theorem Consistent.history_step (h : s.Consistent R) (c : ProcessStep ι) :
    History s.world (s.step R p c).world := by
  cases c with
  | post i now now' =>
      refine .of_routes h.wellFormed (.advance s.route i now now')
        (h.serviceBooks (p := p) (.post i now now'))
        (Untouched.advance (R := R) (p := p i) s.route i now now') ?_
      change _ <+: (s.route.advance R (p i) i now now').world.store.expenses.values.map (·.unjournaled)
      rcases advance_world (R := R) (p := p i) s.route i now now' with he | ⟨cache, he, -⟩
      · rw [he]
        exact h.wellFormed.createExpense_expenses_kept (p i).args
      · rw [he]
        exact List.prefix_refl _
  | client call =>
      refine .of_routes h.wellFormed (.client call s.world) (.client call s.world) (.client call s.world) ?_
      exact (call.exec_expenses R s.world) ▸ List.prefix_refl _
  | balances groupId now now' now'' =>
      obtain ⟨cache, he, -⟩ := getBalances_world (R := R) groupId now now' now'' s.world
      have hworld : (s.step R p (.balances groupId now now' now'')).world = { s.world with cache } := he
      rw [hworld]
      exact ⟨List.prefix_refl _, List.prefix_refl _, List.prefix_refl _, .refl _, .refl _⟩
  | wake =>
      have hevents := (h.toOrderly.step (p := p) .wake).2.contents
      exact ⟨List.prefix_refl _, List.prefix_refl _, hevents, .refl _, .refl _⟩
  | put =>
      have hevents := (h.toOrderly.step (p := p) .put).2.contents
      exact ⟨List.prefix_refl _, List.prefix_refl _, hevents, .refl _, .refl _⟩
  | consume =>
      rcases consume_cases R p s with ⟨he, -⟩ | ⟨m, rest, -, -, he⟩
      · rw [he]
        exact .refl _
      · rw [he]
        exact .refl _
  | handle fails =>
      rcases handle_world_cases h.toOrderly p fails with ⟨he, -⟩ | ⟨m, ok, -, -, hstep⟩
      · rw [he]
        exact .refl _
      · exact .handle h.wellFormed h.filed hstep

theorem Consistent.history_run (h : s.Consistent R) (steps : List (ProcessStep ι)) :
    History s.world (run (Process.step R p) s steps).world := by
  have hinv : (run (Process.step R p) s steps).Consistent R ∧
      History s.world (run (Process.step R p) s steps).world := by
    apply run_invariant fun s' : Process ι => s'.Consistent R ∧ History s.world s'.world
    · rintro s' c ⟨h', hkept⟩
      exact ⟨h'.step c, hkept.trans (h'.history_step c)⟩
    · exact ⟨h, .refl _⟩
  exact hinv.2

end Process

end ExpenseSettlement
