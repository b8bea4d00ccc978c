import ExpenseSettlement.Messaging.Pipeline
import ExpenseSettlement.Process.Lemmas.Emits
import ExpenseSettlement.Worker.Lemmas.Payments

/-!
# What the steps do to the modules

Only the handler writes settlements, the worker's ledger and completion events. Everything stays
well-formed also where it fails.
-/

namespace ExpenseSettlement

open Lib DebtSimplifier

variable {R : Runtime} {w w' : World}

/-! ## Events of a type -/

/-- The payloads of the events of a type, in the order of the outbox. -/
def World.payloads (type : EventType) (w : World) : List EventPayload :=
  (w.outbox.events.filter (·.eventType = type.value)).map (·.payload)

theorem payloads_append {type : EventType} {eventType aggregateId : String} {payload : EventPayload}
    {d : Draws}
    (h : w'.outbox = (w.outbox.append R eventType aggregateId payload d).2.2) :
    w'.payloads type = w.payloads type ++ if eventType = type.value then [payload] else [] := by
  rw [World.payloads, World.payloads, h, InMemoryOutbox.append, List.filter_append, List.map_append]
  by_cases ht : eventType = type.value
  · simp [ht]
  · simp [ht]

theorem payloads_eq (type : EventType) (w : World) :
    w.payloads type =
      ((w.outbox.events.map OutboxEvent.content).filter (·.1 = type.value)).map Prod.snd := by
  rw [World.payloads, List.filter_map, List.map_map]
  rfl

/-! ## The worker's side -/

/-- The number of settlements and their total, as a completion event reports them. -/
def EventPayload.report : EventPayload → Option (ℤ × ℤ)
  | .settlementCompleted _ settlementCount totalSettledCents _ _ _ =>
      some (settlementCount, totalSettledCents)
  | .expenseCreated .. | .settlementRequested .. => none

def World.reports (w : World) : List (ℤ × ℤ) := (w.payloads .settlementCompleted).filterMap (·.report)

/-- At most ids are drawn. -/
structure Untouched (w w' : World) : Prop where
  draws : w.draws.uuids ≤ w'.draws.uuids
  settlements : w'.store.settlements = w.store.settlements
  workerLedger : w'.workerLedger = w.workerLedger
  completions : w'.payloads .settlementCompleted = w.payloads .settlementCompleted

namespace Untouched

theorem of_quiet (h : Quiet R w w') : Untouched w w' where
  draws := h.draws
  settlements := h.settlements
  workerLedger := h.workerLedger
  completions := by rw [World.payloads, World.payloads, h.outbox]

theorem reports (h : Untouched w w') : w'.reports = w.reports := by
  rw [World.reports, World.reports, h.completions]

theorem withCache (w : World) (cache : InMemoryCache CacheValue) : Untouched w { w with cache } :=
  ⟨Nat.le_refl _, rfl, rfl, rfl⟩

theorem accept (req : CreateExpense) (splits : List Split) (w : World) :
    Untouched w (w.accept R req splits) where
  draws := accept_draws_mono
  settlements := accept_settlements
  workerLedger := rfl
  completions := by
    rw [payloads_append (R := R) (w := w) rfl, if_neg (by decide), List.append_nil]

theorem createExpense (req : CreateExpense) (w : World) : Untouched w (createExpense R req w).2 := by
  rcases createExpense_cases R req w with ⟨e, w', he, hr⟩ | ⟨splits, ha, he⟩
  · rw [he]
    exact of_quiet (.of_rejects hr)
  · rw [he]
    exact accept req splits w

theorem client (call : ClientCall) (w : World) : Untouched w (call.exec R w) := by
  cases call with
  | createUser name email => exact of_quiet (GroupService.createUser_quiet name email w)
  | createGroup name => exact of_quiet (GroupService.createGroup_quiet name w)
  | addMember groupId userId => exact of_quiet (GroupService.addMember_quiet groupId userId w)
  | settle groupId requestedBy =>
      rw [ClientCall.exec, settleGroup]
      cases w.store.groups.get? groupId with
      | none => exact ⟨Nat.le_refl _, rfl, rfl, rfl⟩
      | some group =>
          refine ⟨Nat.le_succ _, rfl, rfl, ?_⟩
          rw [payloads_append (R := R) (w := w) rfl, if_neg (by decide), List.append_nil]

theorem advance {ι : Type} [DecidableEq ι] {p : PostExpense} (s : RouteState ι) (i : ι) (now now' : ℚ) :
    Untouched s.world (s.advance R p i now now').world := by
  rcases advance_world (R := R) (p := p) s i now now' with he | ⟨cache, he, -⟩
  · rw [he]
    exact createExpense p.args s.world
  · rw [he]
    exact withCache s.world cache

theorem balances (groupId : String) (now now' now'' : ℚ) (w : World) :
    Untouched w (getBalances R groupId now now' now'' w).2 := by
  obtain ⟨cache, he, -⟩ := getBalances_world (R := R) groupId now now' now'' w
  rw [he]
  exact withCache w cache

end Untouched

theorem ClientCall.exec_expenses (R : Runtime) (call : ClientCall) (w : World) :
    (call.exec R w).store.expenses = w.store.expenses := by
  cases call with
  | createUser name email => exact (GroupService.createUser_quiet (R := R) name email w).expenses
  | createGroup name => exact (GroupService.createGroup_quiet (R := R) name w).expenses
  | addMember groupId userId => exact (GroupService.addMember_quiet (R := R) groupId userId w).expenses
  | settle groupId requestedBy =>
      rw [ClientCall.exec, settleGroup]
      cases w.store.groups.get? groupId with
      | none => rfl
      | some group => rfl

/-! ## Requests for expenses -/

section Advance

variable {ι : Type} [DecidableEq ι] {p : PostExpense} {s : RouteState ι} {i : ι} {now now' : ℚ}

theorem advance_creating (h : s.phase i = .creating) :
    (s.advance R p i now now').world = (createExpense R p.args s.world).2 := by
  obtain ⟨phase, w, hstep, he⟩ := s.advance_step R p i now now'
  rw [he, h] at *
  cases hstep with
  | raised hr => rw [hr]; rfl
  | crashed ha hf | created ha hf => rw [createExpense_of_accepts ha]; rfl

/-- All other steps of a request use the cache alone. -/
theorem advance_of_ne_creating (h : s.phase i ≠ .creating) (now now' : ℚ) :
    ∃ cache, (s.advance R p i now now').world = { s.world with cache } := by
  obtain ⟨phase, w, hstep, he⟩ := s.advance_step R p i now now'
  rw [he, move_world]
  generalize s.phase i = before at h hstep
  cases hstep with
  | raised | crashed | created => exact absurd rfl h
  | unlocked | keyless | rejected | answered | idle => exact ⟨s.world.cache, rfl⟩
  | locked | refused | looked | released | stored => exact ⟨_, rfl⟩

end Advance

/-! ## Well-formed worlds -/

namespace WellFormed

theorem congr (h : WellFormed R w) (hd : w.draws.uuids ≤ w'.draws.uuids) (hs : w'.store = w.store)
    (hl : w'.serviceLedger = w.serviceLedger) (hh : HeadsEncode R w'.workerLedger.accountHeads) :
    WellFormed R w' where
  group_issued := by rw [hs]; exact .all_mono h.group_issued hd
  expense_issued := by rw [hs]; exact .all_mono h.expense_issued hd
  expense_id := by rw [hs]; exact h.expense_id
  expense_group := by rw [hs]; exact h.expense_group
  key_stored := by rw [hs]; exact h.key_stored
  settlement_issued := by rw [hs]; exact .all_mono h.settlement_issued hd
  settlement_group := by rw [hs]; exact h.settlement_group
  journal_issued := by rw [hl]; exact .all_mono h.journal_issued hd
  service_heads := by rw [hl]; exact h.service_heads.mono hd
  worker_heads := hh

theorem client (h : WellFormed R w) (call : ClientCall) : WellFormed R (call.exec R w) := by
  cases call with
  | createUser name email => exact h.of_quiet (GroupService.createUser_quiet name email w)
  | createGroup name => exact h.of_quiet (GroupService.createGroup_quiet name w)
  | addMember groupId userId => exact h.of_quiet (GroupService.addMember_quiet groupId userId w)
  | settle groupId requestedBy =>
      rw [ClientCall.exec, settleGroup]
      cases w.store.groups.get? groupId with
      | none => exact h
      | some group => exact h.congr (Nat.le_succ _) rfl rfl h.worker_heads

theorem advance {ι : Type} [DecidableEq ι] {p : PostExpense} {s : RouteState ι}
    (h : WellFormed R s.world) (i : ι) (now now' : ℚ) : WellFormed R (s.advance R p i now now').world := by
  rcases advance_world (R := R) (p := p) s i now now' with he | ⟨cache, he, -⟩
  · rw [he]
    exact h.step _
  · rw [he]
    exact h.withCache cache

theorem balances (h : WellFormed R w) (groupId : String) (now now' now'' : ℚ) :
    WellFormed R (getBalances R groupId now now' now'' w).2 := by
  obtain ⟨cache, he, -⟩ := getBalances_world (R := R) groupId now now' now'' w
  rw [he]
  exact h.withCache cache

/-- Records are saved as they are by a request that is handled to completion. -/
theorem saved (h : WellFormed R w) {groupId : String} {result : DebtSimplifierResult} {acc : SettleLoop}
    (hp : Planned R groupId w result acc) (call : HandlerCall) :
    WellFormed R (w.saved groupId acc call) := by
  have hs : WellFormed R (w.settled R groupId result acc) := h.settled hp
  refine ⟨.all_mono h.group_issued hp.draws, .all_mono h.expense_issued hp.draws, hs.expense_id,
    hs.expense_group, hs.key_stored, ?_, hs.settlement_group, .all_mono h.journal_issued hp.draws,
    h.service_heads.mono hp.draws, hs.worker_heads⟩
  intro id hid
  have hitems : (w.settled R groupId result acc).store.settlements.items =
      w.store.settlements.items ++ acc.records.map fun r => (r.id, r) := h.settled_items hp.records
  change (w.saved groupId acc call).store.settlements.items = _ at hitems
  rw [Dict.keys, hitems, List.map_append, List.mem_append] at hid
  rcases hid with hid | hid
  · exact (h.settlement_issued id hid).mono (Nat.le_refl _) hp.draws
  · simp only [List.map_map, List.mem_map, Function.comp_apply] at hid
    obtain ⟨r, hr, rfl⟩ := hid
    exact (hp.records.issued r hr).mono (Nat.zero_le _) (Nat.le_refl _)

theorem handle (h : WellFormed R w) {groupId : String} {fails : Option HandlerCall} {ok : Bool}
    (hstep : HandleStep R groupId w fails ok w') : WellFormed R w' := by
  cases hstep with
  | nothing | unread | unsummed => exact h
  | posted hp => exact h.congr hp.draws rfl rfl (hp.encoded h.worker_heads)
  | saved hp => exact h.saved hp _
  | completed hp => exact h.settled hp

end WellFormed

end ExpenseSettlement
