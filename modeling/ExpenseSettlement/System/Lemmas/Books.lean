import ExpenseSettlement.System.Lemmas.WellFormed

/-!
# Expenses, journals and events

The service posts a journal and emits an event for every expense it accepts. The store alone looks
at the idempotency key.
-/

namespace ExpenseSettlement

open Lib DebtSimplifier

variable {R : Runtime} {w w' : World}

/-- The expenses that the outbox has announced, in its order. -/
def World.announced (w : World) : List String :=
  (w.outbox.events.filter (·.eventType = EventType.expenseCreated.value)).map (·.aggregateId)

/-- Journals and announcements correspond one to one to the stored expenses. -/
structure BooksMatch (w : World) : Prop where
  journals : (w.serviceLedger.journals.keys.map some).Perm (w.store.expenses.values.map (·.journalId))
  events : w.announced.Perm w.store.expenses.keys

theorem BooksMatch.init : BooksMatch .init := ⟨.nil, .nil⟩

theorem BooksMatch.length_eq (h : BooksMatch w) :
    w.serviceLedger.journals.keys.length = w.store.expenses.keys.length := by
  have hl := h.journals.length_eq
  simpa [Dict.keys, Dict.values] using hl

theorem announced_eq (w : World) :
    w.announced = ((w.outbox.events.map fun e => (e.eventType, e.aggregateId)).filter
      (·.1 = EventType.expenseCreated.value)).map (·.2) := by
  rw [World.announced, List.filter_map, List.map_map]
  rfl

theorem announced_append {eventType aggregateId : String}
    (h : w'.outbox.events.map (fun e => (e.eventType, e.aggregateId)) =
      w.outbox.events.map (fun e => (e.eventType, e.aggregateId)) ++ [(eventType, aggregateId)]) :
    w'.announced = w.announced ++
      if eventType = EventType.expenseCreated.value then [aggregateId] else [] := by
  rw [announced_eq, announced_eq, h, List.filter_append, List.map_append]
  by_cases ht : eventType = EventType.expenseCreated.value <;> simp [ht]

/-! ## What the steps do to the books -/

theorem BooksMatch.of_quiet (hq : Quiet R w w') : BooksMatch w' ↔ BooksMatch w := by
  have ha : w'.announced = w.announced := by
    unfold World.announced
    rw [hq.outbox]
  constructor
  · rintro ⟨hj, he⟩
    rw [hq.journals, hq.expenses] at hj
    rw [ha, hq.expenses] at he
    exact ⟨hj, he⟩
  · rintro ⟨hj, he⟩
    refine ⟨?_, ?_⟩
    · rw [hq.journals, hq.expenses]
      exact hj
    · rw [ha, hq.expenses]
      exact he

theorem BooksMatch.of_settled {groupId : String} {result : DebtSimplifierResult} {acc : SettleLoop} :
    BooksMatch (w.settled R groupId result acc) ↔ BooksMatch w := by
  have ha : (w.settled R groupId result acc).announced = w.announced := by
    rw [announced_append (settled_events groupId result acc w), if_neg (by decide), List.append_nil]
  constructor
  · rintro ⟨hj, he⟩
    rw [ha] at he
    exact ⟨hj, he⟩
  · rintro ⟨hj, he⟩
    refine ⟨hj, ?_⟩
    rw [ha]
    exact he

section Accept

variable {req : CreateExpense} {splits : List Split}

theorem announced_accept :
    (w.accept R req splits).announced = w.announced ++ [(w.newExpense R req splits).id] := by
  rw [announced_append accept_events, if_pos rfl]

theorem BooksMatch.accept (hb : BooksMatch w) (h : WellFormed R w)
    (hf : w.store.existing req.idempotencyKey = none) : BooksMatch (w.accept R req splits) := by
  have hid : (w.newExpense R req splits).id ∉ w.store.expenses.keys := h.newExpense_fresh hf
  refine ⟨?_, ?_⟩
  · rw [h.keys_journals_accept, accept_expenses, Dict.values_set_of_not_mem _ hid, List.map_append,
      List.map_append]
    exact hb.journals.append (.refl _)
  · rw [announced_accept, accept_expenses, Dict.keys_set_of_not_mem _ hid]
    exact hb.events.append (.refl _)

/-- Under a used key, the journal is one too many. -/
theorem BooksMatch.not_accept (hb : BooksMatch w) (h : WellFormed R w) {e : ExpenseRecord}
    (he : w.store.existing req.idempotencyKey = some e) : ¬ BooksMatch (w.accept R req splits) := by
  intro hb'
  have hmem : (w.newExpense R req splits).id ∈ w.store.expenses.keys := by
    have hid := Dict.mem_keys_of_get? (h.existing_id he)
    rw [newExpense_of_existing he]
    exact hid
  have hl := hb'.length_eq
  rw [h.keys_journals_accept, accept_expenses, Dict.keys_set_of_mem _ hmem, List.length_append,
    List.length_singleton, hb.length_eq] at hl
  omega

end Accept

end ExpenseSettlement
