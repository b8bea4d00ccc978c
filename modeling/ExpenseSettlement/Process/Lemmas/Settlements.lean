import ExpenseSettlement.Process.Lemmas.Flow
import ExpenseSettlement.System.Lemmas.Settling

/-!
# Journals, records and reports

A request that is handled to completion posts its journals, saves its records and reports them. One
that breaks off in between leaves them apart, unless there is nothing to pay.
-/

namespace ExpenseSettlement

open Lib DebtSimplifier

variable {R : Runtime} {w w' : World}

/-- There is a journal for each record, in order, and the completion events report the records. -/
structure SettlementsAgree (w : World) : Prop where
  journals : List.Forall₂ Moves w.store.settlements.values w.workerLedger.journals.values
  counted : (w.reports.map Prod.fst).sum = w.store.settlements.values.length
  totalled : (w.reports.map Prod.snd).sum = (w.store.settlements.values.map (·.amountCents)).sum

namespace SettlementsAgree

theorem init : SettlementsAgree .init := ⟨.nil, rfl, rfl⟩

theorem of_untouched (h : SettlementsAgree w) (hu : Untouched w w') : SettlementsAgree w' := by
  obtain ⟨hj, hc, ht⟩ := h
  rw [← hu.settlements, ← hu.workerLedger] at hj
  rw [← hu.settlements, ← hu.reports] at hc ht
  exact ⟨hj, hc, ht⟩

section Handler

variable {groupId : String} {result : DebtSimplifierResult} {acc : SettleLoop}

theorem posted_iff (h : SettlementsAgree w) (hf : Filed R w.draws w.workerLedger)
    (hp : Planned R groupId w result acc) : SettlementsAgree (w.posted acc) ↔ result.settlements = [] := by
  obtain ⟨journals, hpay⟩ := hp.payments hf
  have hposted : (w.posted acc).workerLedger.journals.values =
      w.workerLedger.journals.values ++ journals := hpay.posted
  have hlen : result.settlements.length = journals.length := by
    rw [← hpay.payments, List.length_map]
    exact hpay.moves.length_eq
  constructor
  · rintro ⟨hj, -, -⟩
    have heq := hj.length_eq
    rw [hposted, List.length_append] at heq
    have hold := h.journals.length_eq
    have hsame : (w.posted acc).store.settlements.values.length =
      w.store.settlements.values.length := rfl
    exact List.length_eq_zero_iff.mp (by omega)
  · intro hnil
    rw [hnil, List.length_nil] at hlen
    obtain rfl := List.length_eq_zero_iff.mp hlen.symm
    refine ⟨?_, h.counted, h.totalled⟩
    rw [hposted, List.append_nil]
    exact h.journals

theorem saved_iff (h : SettlementsAgree w) (hw : WellFormed R w) (hf : Filed R w.draws w.workerLedger)
    (hp : Planned R groupId w result acc) (call : HandlerCall) :
    SettlementsAgree (w.saved groupId acc call) ↔ result.settlements = [] := by
  obtain ⟨journals, hpay⟩ := hp.payments hf
  have hposted : (w.saved groupId acc call).workerLedger.journals.values =
      w.workerLedger.journals.values ++ journals := hpay.posted
  have hsaved : (w.settled R groupId result acc).store.settlements.values =
      w.store.settlements.values ++ acc.records := values_settled hw hp.records
  change (w.saved groupId acc call).store.settlements.values = _ at hsaved
  have hreports : (w.saved groupId acc call).reports = w.reports := rfl
  have hlen : acc.records.length = result.settlements.length := by
    rw [← hpay.payments, List.length_map]
  constructor
  · rintro ⟨-, hcounted, -⟩
    rw [hreports, h.counted, hsaved, List.length_append] at hcounted
    exact List.length_eq_zero_iff.mp (by omega)
  · intro hnil
    rw [hnil, List.length_nil] at hlen
    have hnone := List.length_eq_zero_iff.mp hlen
    have hmoves := hpay.moves
    rw [hnone] at hmoves
    cases hmoves
    constructor
    · rw [hsaved, hposted, hnone, List.append_nil, List.append_nil]
      exact h.journals
    · rw [hreports, hsaved, hnone, List.append_nil]
      exact h.counted
    · rw [hreports, hsaved, hnone, List.append_nil]
      exact h.totalled

theorem settled (h : SettlementsAgree w) (hw : WellFormed R w) (hf : Filed R w.draws w.workerLedger)
    (hp : Planned R groupId w result acc) : SettlementsAgree (w.settled R groupId result acc) := by
  obtain ⟨journals, hpay⟩ := hp.payments hf
  have hposted : (w.settled R groupId result acc).workerLedger.journals.values =
      w.workerLedger.journals.values ++ journals := hpay.posted
  have hsaved : (w.settled R groupId result acc).store.settlements.values =
      w.store.settlements.values ++ acc.records := values_settled hw hp.records
  have hreports : (w.settled R groupId result acc).reports =
      w.reports ++ [((result.settlements.length : ℤ), acc.totalSettled)] := by
    rw [World.reports, payloads_append (R := R) (w := w) rfl, if_pos rfl, List.filterMap_append]
    rfl
  have htotal : acc.totalSettled = (acc.records.map (·.amountCents)).sum := by
    rw [hpay.totalSettled, ← hpay.payments, List.map_map, zero_add]
    rfl
  have hlen : result.settlements.length = acc.records.length := by
    rw [← hpay.payments, List.length_map]
  constructor
  · rw [hsaved, hposted]
    exact List.rel_append h.journals hpay.moves
  · rw [hreports, hsaved, List.map_append, List.sum_append, h.counted, List.length_append, hlen]
    simp
  · rw [hreports, hsaved, List.map_append, List.sum_append, h.totalled, List.map_append,
      List.sum_append, htotal]
    simp

end Handler

end SettlementsAgree

/-! ## The process -/

theorem Filed.handle (h : Filed R w.draws w.workerLedger) {groupId : String} {fails : Option HandlerCall}
    {ok : Bool} (hstep : HandleStep R groupId w fails ok w') : Filed R w'.draws w'.workerLedger := by
  cases hstep with
  | nothing | unread | unsummed => exact h
  | posted hp | saved hp =>
      obtain ⟨journals, hpay⟩ := hp.payments h
      exact hpay.filed
  | completed hp =>
      obtain ⟨journals, hpay⟩ := hp.payments h
      exact hpay.filed.mono (Nat.le_succ _)

namespace Process

variable {ι : Type} [DecidableEq ι] {p : ι → PostExpense} {s : Process ι}

structure Consistent (R : Runtime) (s : Process ι) : Prop extends Orderly R s where
  wellFormed : WellFormed R s.world
  filed : Filed R s.world.draws s.world.workerLedger

omit [DecidableEq ι] in
theorem Consistent.start : Consistent R (.start : Process ι) where
  toOrderly := .start
  wellFormed := .init
  filed.issued := fun _ hid => by cases hid
  filed.encoded := fun _ _ hh => by cases hh

omit [DecidableEq ι] in
/-- A step of the daemon marks events and draws ids. -/
theorem untouched_withPipeline {q : Pipeline EventPayload} (hd : s.world.draws.uuids ≤ q.relays.draws.uuids)
    (hc : q.contents = s.pipeline.contents) : Untouched s.world (s.withPipeline q).world := by
  have hcontents : (s.withPipeline q).world.outbox.events.map OutboxEvent.content =
      s.world.outbox.events.map OutboxEvent.content := hc
  refine ⟨hd, rfl, rfl, ?_⟩
  rw [payloads_eq, payloads_eq, hcontents]

theorem Consistent.untouched (h : s.Consistent R) {c : ProcessStep ι} (hc : ∀ fails, c ≠ .handle fails) :
    Untouched s.world (s.step R p c).world := by
  cases c with
  | post i now now' => exact Untouched.advance (R := R) (p := p i) s.route i now now'
  | client call => exact .client call s.world
  | balances groupId now now' now'' => exact Untouched.balances (R := R) groupId now now' now'' s.world
  | wake =>
      exact untouched_withPipeline (h.flowing.woken h.engaged).draws.uuids (Pipeline.wake_contents _)
  | put => exact untouched_withPipeline (h.flowing.puts h.engaged).draws.uuids h.flowing.put_contents
  | consume =>
      rcases consume_cases R p s with ⟨he, -⟩ | ⟨m, rest, -, -, he⟩
      · rw [he]
        exact ⟨Nat.le_refl _, rfl, rfl, rfl⟩
      · rw [he]
        exact ⟨Nat.le_refl _, rfl, rfl, rfl⟩
  | handle fails => exact absurd rfl (hc fails)

/-- The world after an iteration of the worker. -/
theorem handle_world_cases (h : s.Orderly R) (p : ι → PostExpense) (fails : Option HandlerCall) :
    (s.step R p (.handle fails)).world = s.world ∧
      (∀ m, s.current = some m → m.eventType ≠ EventType.settlementRequested.value) ∨
    ∃ m ok, s.current = some m ∧ m.eventType = EventType.settlementRequested.value ∧
      HandleStep R m.payload.groupId s.world fails ok (s.step R p (.handle fails)).world := by
  rcases handle_cases R p s fails with ⟨hc, he⟩ | ⟨m, ok, w, hm⟩
  · refine .inl ⟨by rw [he], fun m hm => ?_⟩
    cases hc.symm.trans hm
  · have hw : (s.step R p (.handle fails)).world = w := by
      rw [hm.result]
      rfl
    obtain ⟨outcome, hd, -⟩ := hm.dispatched
    rw [LoopState.dispatch] at hd
    split at hd
    · rename_i htype
      obtain ⟨outcome', w', he, hstep⟩ := handleSettlementFailing_step h.heads fails m.payload.groupId
      rw [he] at hd
      obtain ⟨-, rfl⟩ := Prod.mk.inj hd
      rw [hw]
      exact .inr ⟨m, _, hm.current, htype, hstep⟩
    · rename_i htype
      refine .inl ⟨hw.trans (Prod.mk.inj hd).2.symm, fun m' hm' => ?_⟩
      obtain rfl := Option.some.inj (hm.current.symm.trans hm')
      exact htype

theorem Consistent.step (h : s.Consistent R) (c : ProcessStep ι) : (s.step R p c).Consistent R := by
  refine ⟨(h.toOrderly.step c).1, ?_, ?_⟩
  · cases c with
    | post i now now' => exact h.wellFormed.advance i now now'
    | client call => exact h.wellFormed.client call
    | balances groupId now now' now'' => exact h.wellFormed.balances groupId now now' now''
    | wake => exact h.wellFormed.congr (h.untouched (p := p) (c := .wake) nofun).draws rfl rfl h.heads
    | put => exact h.wellFormed.congr (h.untouched (p := p) (c := .put) nofun).draws rfl rfl h.heads
    | consume =>
        rcases consume_cases R p s with ⟨he, -⟩ | ⟨m, rest, -, -, he⟩
        · rw [he]
          exact h.wellFormed
        · rw [he]
          exact h.wellFormed
    | handle fails =>
        rcases handle_world_cases h.toOrderly p fails with ⟨he, -⟩ | ⟨m, ok, -, -, hstep⟩
        · rw [he]
          exact h.wellFormed
        · exact h.wellFormed.handle hstep
  · by_cases hc : ∃ fails, c = .handle fails
    · obtain ⟨fails, rfl⟩ := hc
      rcases handle_world_cases h.toOrderly p fails with ⟨he, -⟩ | ⟨m, ok, -, -, hstep⟩
      · rw [he]
        exact h.filed
      · exact h.filed.handle hstep
    · have hu := h.untouched (p := p) (c := c) fun fails he => hc ⟨fails, he⟩
      rw [hu.workerLedger]
      exact h.filed.mono hu.draws

theorem run_consistent (steps : List (ProcessStep ι)) :
    (run (Process.step R p) .start steps).Consistent R :=
  run_invariant (Consistent R) (fun _ c h => h.step c) .start steps

/-- A request with something to pay fails after its journals have been posted. -/
def BreaksOff (R : Runtime) (s : Process ι) (c : ProcessStep ι) : Prop :=
  ∃ m call, s.current = some m ∧ c = .handle (some call) ∧ call ≠ .getExpensesForGroup ∧
    m.eventType = EventType.settlementRequested.value ∧
    Checksummable R (getGroupNetBalances m.payload.groupId s.world) ∧
    ∃ u, (getGroupNetBalances m.payload.groupId s.world).getD u 0 ≠ 0

omit [DecidableEq ι] in
/-- What is to be paid decides whether a call that fails in between matters. -/
theorem breaksOff_handle_iff {m : Message EventPayload} {fails : Option HandlerCall} (hm : s.current = some m)
    (htype : m.eventType = EventType.settlementRequested.value) :
    s.BreaksOff R (.handle fails) ↔
      (∃ call, fails = some call ∧ call ≠ .getExpensesForGroup) ∧
      Checksummable R (getGroupNetBalances m.payload.groupId s.world) ∧
      settle (getGroupNetBalances m.payload.groupId s.world) ≠ [] := by
  have hz : (getGroupNetBalances m.payload.groupId s.world).values.sum = 0 := sum_values_computeNetBalances _
  rw [Ne, settle_eq_nil_iff hz, not_forall]
  constructor
  · rintro ⟨m', call, hm', hcall, hget, -, hu⟩
    obtain rfl := Option.some.inj (hm.symm.trans hm')
    cases hcall
    exact ⟨⟨call, rfl, hget⟩, hu⟩
  · rintro ⟨⟨call, rfl, hget⟩, hu⟩
    exact ⟨m, call, hm, rfl, hget, htype, hu⟩

theorem Consistent.agree_iff (h : s.Consistent R) (ha : SettlementsAgree s.world) (c : ProcessStep ι) :
    SettlementsAgree (s.step R p c).world ↔ ¬ s.BreaksOff R c := by
  by_cases hc : ∃ fails, c = .handle fails
  · obtain ⟨fails, rfl⟩ := hc
    rcases handle_world_cases h.toOrderly p fails with ⟨he, hother⟩ | ⟨m, ok, hm, htype, hstep⟩
    · rw [he]
      refine iff_of_true ha ?_
      rintro ⟨m, call, hm, -, -, htype, -⟩
      exact hother m hm htype
    · rw [breaksOff_handle_iff hm htype]
      generalize (s.step R p (.handle fails)).world = w' at hstep ⊢
      cases hstep with
      | nothing hn =>
          refine iff_of_true ha ?_
          rintro ⟨-, -, hsettle⟩
          have hx := (h.wellFormed.payments_of_no_expenses hn).1
          rw [getGroupNetBalances, hx] at hsettle
          exact hsettle rfl
      | unread =>
          refine iff_of_true ha ?_
          rintro ⟨⟨call, hcall, hget⟩, -⟩
          cases hcall
          exact hget rfl
      | unsummed hu => exact iff_of_true ha fun hb => hu.unsummed hb.2.1
      | posted hp =>
          rw [ha.posted_iff h.filed hp, hp.plan]
          refine ⟨fun hnil hb => hb.2.2 hnil, fun hnot => by_contra fun hne => ?_⟩
          exact hnot ⟨⟨_, rfl, by simp⟩, hp.checksummable, hne⟩
      | @saved result acc call hp hcall =>
          rw [ha.saved_iff h.wellFormed h.filed hp, hp.plan]
          have hget : call ≠ .getExpensesForGroup := by
            rcases hcall with rfl | rfl | rfl
            · simp
            · simp
            · simp
          refine ⟨fun hnil hb => hb.2.2 hnil, fun hnot => by_contra fun hne => ?_⟩
          exact hnot ⟨⟨_, rfl, hget⟩, hp.checksummable, hne⟩
      | completed hp =>
          refine iff_of_true (ha.settled h.wellFormed h.filed hp) ?_
          rintro ⟨⟨call, hcall, -⟩, -⟩
          cases hcall
  · refine iff_of_true (ha.of_untouched (h.untouched fun fails he => hc ⟨fails, he⟩)) ?_
    rintro ⟨m, call, -, rfl, -⟩
    exact hc ⟨_, rfl⟩

end Process

end ExpenseSettlement
