import ExpenseSettlement.Process.Lemmas.Settlements

/-!
# The ledgers of the process

Between the journals of a ledger the rest of the process draws ids and reads the clock. With a clock that
does not step back, the worker's ledger is sound whatever calls of the handler fail, and the service's as
long as no posting breaks off between two entries.
-/

namespace ExpenseSettlement

open Lib LedgerEngine

variable {R : Runtime} {w w' : World}

/-- A ledger that only `post_expense_journal` and `post_settlement_journal` have posted to. -/
structure Booked (R : Runtime) (d : Draws) (L : LedgerEngine) : Prop where
  kept : Kept R d L
  cleared : Cleared L
  hashable : ∀ e ∈ L.entries, e.hashedFields.Hashable R

namespace Booked

variable {d d' : Draws} {L : LedgerEngine}

theorem init (R : Runtime) (d : Draws) : Booked R d .init := ⟨.init R d, .init, fun _ h => by cases h⟩

theorem mono (h : Booked R d L) (hd : d.Later d') : Booked R d' L :=
  ⟨h.kept.mono hd.uuids, h.cleared, h.hashable⟩

theorem step (h : Booked R d L) (c : LedgerCall) :
    Booked R (LedgerState.step R ⟨d, L⟩ c).draws (LedgerState.step R ⟨d, L⟩ c).engine := by
  refine ⟨LedgerState.step_kept (s := ⟨d, L⟩) h.kept c,
    LedgerState.step_cleared (s := ⟨d, L⟩) h.cleared c, ?_⟩
  rw [LedgerState.step_engine]
  cases hr : (c.exec R d L).1 with
  | error e =>
      obtain ⟨-, -, heads, he⟩ := LedgerCall.exec_error hr
      rw [he]
      exact h.hashable
  | ok j =>
      obtain ⟨-, hhashed, he⟩ := LedgerCall.exec_ok hr
      rw [he]
      intro e hm
      rcases List.mem_append.mp hm with hm | hm
      · exact h.hashable e hm
      · exact hhashed e hm

end Booked

/-! ## Audits -/

/-- What the audit route reports of the amounts, and what it does not look at. -/
structure AuditsBalance (R : Runtime) (L : LedgerEngine) (report : AuditReport) : Prop where
  returned : auditReport R L = .ok report
  balanced : report.isBalanced = true
  entries : report.totalEntries = (L.journals.values.map (·.entries.length)).sum
  clearing : ∀ a, IsClearing a → L.getAccountBalance a = 0
  wallets : ∀ S : Finset String, (∀ e ∈ L.entries, ∀ u, e.accountId = userWallet u → u ∈ S) →
    ∑ u ∈ S, L.getAccountBalance (userWallet u) = 0

structure AuditsClean (R : Runtime) (L : LedgerEngine) (report : AuditReport) : Prop
    extends AuditsBalance R L report where
  chain : report.chainIntegrityOk = true
  errors : report.chainErrors = []

/-- The head of every account is the hash of its last entry. -/
def HeadsCurrent (L : LedgerEngine) : Prop :=
  ∀ a, L.accountHeads.get? a = (onAccount a L.entries).getLast?.map (·.entryHash)

theorem Booked.auditsBalance {d : Draws} {L : LedgerEngine} (h : Booked R d L) :
    ∃ report, AuditsBalance R L report := by
  obtain ⟨⟨ok, errors⟩, hv⟩ := verifyChainIntegrity_returns.mpr h.hashable
  have hreturned : auditReport R L = .ok ⟨L.entries.length, L.journals.items.length, sumOf .debit L.entries,
      sumOf .credit L.entries, sumOf .debit L.entries = sumOf .credit L.entries, ok, errors⟩ := by
    rw [auditReport, hv]
  refine ⟨_, hreturned, decide_eq_true h.kept.sumOf_eq, ?_, ?_, ?_⟩
  · dsimp only
    rw [h.kept.recorded, List.length_flatMap]
  · exact fun a ha => (getAccountBalance_eq L a).trans (h.cleared.cleared a ha)
  · intro S hS
    refine h.cleared.wallets h.kept.balanced fun p hp u hu => ?_
    obtain ⟨e, he, rfl⟩ := List.mem_map.mp hp
    exact hS e he u hu

theorem Booked.auditsClean {d : Draws} {L : LedgerEngine} (h : Booked R d L)
    (hv : verifyChainIntegrity R L = .ok (true, [])) : ∃ report, AuditsClean R L report := by
  obtain ⟨report, hbalance⟩ := h.auditsBalance
  have hreturned := hbalance.returned
  rw [auditReport, hv] at hreturned
  refine ⟨report, hbalance, ?_, ?_⟩
  · rw [← Except.ok.inj hreturned]
  · rw [← Except.ok.inj hreturned]

/-! ## The service's ledger -/

/-- The call that the service makes on its ledger for a request that passes the checks. -/
def CreateExpense.posting (R : Runtime) (req : CreateExpense) (w : World) : Option LedgerCall :=
  (validate R req w.store).toOption.map req.call

/-- What becomes of the draws and of the service's ledger, by the call that the ledger takes. -/
inductive ServiceBooks (R : Runtime) (w w' : World) : Option LedgerCall → Prop
  | kept (draws : w.draws.Later w'.draws) (ledger : w'.serviceLedger = w.serviceLedger) :
      ServiceBooks R w w' none
  | posted {c : LedgerCall}
      (draws : (LedgerState.step R ⟨w.draws, w.serviceLedger⟩ c).draws.Later w'.draws)
      (ledger : w'.serviceLedger = (LedgerState.step R ⟨w.draws, w.serviceLedger⟩ c).engine) :
      ServiceBooks R w w' (some c)

namespace ServiceBooks

variable {call : Option LedgerCall}

theorem booked (h : ServiceBooks R w w' call) (hb : Booked R w.draws w.serviceLedger) :
    Booked R w'.draws w'.serviceLedger := by
  cases h with
  | kept hd hl =>
      rw [hl]
      exact hb.mono hd
  | posted hd hl =>
      rw [hl]
      exact (hb.step _).mono hd

theorem sound (h : ServiceBooks R w w' call) (hm : Monotone R.time) (hs : Sound R w.draws w.serviceLedger)
    (hguarded : ∀ c ∈ call, c.Guarded R) : Sound R w'.draws w'.serviceLedger := by
  cases h with
  | kept hd hl =>
      rw [hl]
      exact hs.mono hm hd.uuids hd.times
  | @posted c hd hl =>
      rw [hl]
      exact (LedgerState.step_sound (s := ⟨w.draws, w.serviceLedger⟩) hm hs (hguarded c rfl)).mono hm
        hd.uuids hd.times

/-- A call that breaks off leaves a head on an account that has no entries. -/
theorem not_headsCurrent (h : ServiceBooks R w w' call)
    (hw : HeadsIssued R w.draws.uuids w.serviceLedger.accountHeads) (hs : Sound R w.draws w.serviceLedger) {c : LedgerCall} (hc : c ∈ call) (hnot : ¬ c.Guarded R) :
    ¬ HeadsCurrent w'.serviceLedger := by
  cases h with
  | kept => cases hc
  | posted hd hl =>
      obtain rfl := Option.some.inj hc
      obtain ⟨e, hr, a, ha, hnew⟩ := LedgerCall.exec_changed hw hnot
      obtain ⟨-, -, heads, he⟩ := LedgerCall.exec_error hr
      rw [hl, LedgerState.step_engine]
      intro hcurrent
      have hnone : w.serviceLedger.accountHeads.get? a = none := Dict.get?_eq_none.mpr hnew
      obtain ⟨hash, hsome⟩ := Dict.mem_keys.mp ha
      have hlast := hcurrent a
      rw [hsome, he] at hlast
      rw [hs.linked.head a, ← hlast] at hnone
      cases hnone

theorem later (h : ServiceBooks R w w' call) : w.draws.Later w'.draws := by
  cases h with
  | kept hd => exact hd
  | posted hd => exact (LedgerState.step_later ⟨w.draws, w.serviceLedger⟩ _).trans hd

theorem storing_later {req : CreateExpense} {splits : List Split} :
    (drawn (w.journalSpecs R req splits) w.clearingDraws).Later (w.storing R req splits).2.1 := by
  rw [World.storing, InMemoryStore.createExpense]
  cases w.store.existing req.idempotencyKey with
  | none => exact .next _
  | some e => exact .refl _

theorem createExpense (req : CreateExpense) (w : World) :
    ServiceBooks R w (createExpense R req w).2 (req.posting R w) := by
  rw [CreateExpense.posting]
  cases hv : validate R req w.store with
  | error e =>
      simp only [ExpenseSettlement.createExpense, hv]
      exact .kept (.refl _) rfl
  | ok splits =>
      change ServiceBooks R w (ExpenseSettlement.createExpense R req w).2 (some (req.call splits))
      cases hr : ((req.call splits).exec R w.draws w.serviceLedger).1 with
      | error e =>
          rw [createExpense_of_exec_error hv hr]
          exact .posted (.refl _) rfl
      | ok j =>
          have hstep : LedgerState.step R ⟨w.draws, w.serviceLedger⟩ (req.call splits) =
              ⟨drawn (w.journalSpecs R req splits) w.clearingDraws, (w.accept R req splits).serviceLedger⟩ := by
            rw [LedgerState.step, (LedgerCall.exec_ok hr).2.2]
            rfl
          rw [createExpense_of_accepts ⟨hv, j, hr⟩]
          refine .posted ?_ ?_
          · rw [hstep]
            exact storing_later.trans (.next _)
          · rw [hstep]

theorem client (call : ClientCall) (w : World) : ServiceBooks R w (call.exec R w) none := by
  cases call with
  | createUser name email =>
      rw [ClientCall.exec, GroupService.createUser, InMemoryStore.createUser]
      by_cases hm : w.store.users.values.any (·.email = email)
      · rw [if_pos hm]
        exact .kept (.refl _) rfl
      · rw [if_neg hm]
        exact .kept (.nextId _) rfl
  | createGroup name => exact .kept (.nextId _) rfl
  | addMember groupId userId =>
      rw [ClientCall.exec, GroupService.addMember]
      cases w.store.groups.get? groupId with
      | none => exact .kept (.refl _) rfl
      | some group =>
          cases w.store.users.get? userId with
          | none => exact .kept (.refl _) rfl
          | some user => exact .kept (.refl _) rfl
  | settle groupId requestedBy =>
      rw [ClientCall.exec, settleGroup]
      cases w.store.groups.get? groupId with
      | none => exact .kept (.refl _) rfl
      | some group => exact .kept (.next _) rfl

end ServiceBooks

/-! ## The worker's ledger -/

structure WorkerBooks (R : Runtime) (d : Draws) (L : LedgerEngine) : Prop where
  sound : Sound R d L
  cleared : Cleared L

namespace WorkerBooks

variable {d d' : Draws} {L : LedgerEngine}

theorem mono (h : WorkerBooks R d L) (hm : Monotone R.time) (hd : d.Later d') : WorkerBooks R d' L :=
  ⟨h.sound.mono hm hd.uuids hd.times, h.cleared⟩

theorem step (h : WorkerBooks R d L) (hm : Monotone R.time) {c : LedgerCall} (hc : c.Guarded R) :
    WorkerBooks R (LedgerState.step R ⟨d, L⟩ c).draws (LedgerState.step R ⟨d, L⟩ c).engine :=
  ⟨LedgerState.step_sound (s := ⟨d, L⟩) hm h.sound hc, LedgerState.step_cleared (s := ⟨d, L⟩) h.cleared c⟩

theorem auditsClean (h : WorkerBooks R d L) : ∃ report, AuditsClean R L report := by
  have hbooked : Booked R d L :=
    ⟨h.sound.toKept, h.cleared, verifyChainIntegrity_returns.mp ⟨_, h.sound.verifies⟩⟩
  exact hbooked.auditsClean h.sound.verifies

end WorkerBooks

/-- The ledger takes one call for each payment. -/
theorem Planned.workerBooks {groupId : String} {result : DebtSimplifierResult} {acc : SettleLoop}
    (h : Planned R groupId w result acc) (hm : Monotone R.time) (hb : WorkerBooks R w.draws w.workerLedger) :
    WorkerBooks R acc.draws acc.ledger := by
  have hpay : AtEach (SettleLoop.pay R groupId result.checksum) ⟨w.draws, w.workerLedger, [], 0⟩
      result.settlements fun _ s => s.Payable R :=
    fun pre s post hp => h.payable s (by rw [hp]; simp)
  rw [← h.paid]
  refine run_invariant_of_atEach (fun acc : SettleLoop => WorkerBooks R acc.draws acc.ledger) ?_ hb hpay
  exact fun acc' s hb' hs => (hb'.step hm (.inr (.inr hs.call_hashable))).mono hm (.next _)

theorem Planned.later {groupId : String} {result : DebtSimplifierResult} {acc : SettleLoop}
    (h : Planned R groupId w result acc) : w.draws.Later acc.draws := by
  rw [← h.paid]
  refine run_invariant (fun acc : SettleLoop => w.draws.Later acc.draws) ?_ (.refl _) _
  intro acc' s hd
  exact hd.trans ((LedgerState.step_later ⟨acc'.draws, acc'.ledger⟩ s.call).trans (.next _))

theorem WorkerBooks.handle (h : WorkerBooks R w.draws w.workerLedger) (hm : Monotone R.time)
    {groupId : String} {fails : Option HandlerCall} {ok : Bool} (hstep : HandleStep R groupId w fails ok w') :
    WorkerBooks R w'.draws w'.workerLedger := by
  cases hstep with
  | nothing | unread | unsummed => exact h
  | posted hp | saved hp => exact hp.workerBooks hm h
  | completed hp => exact (hp.workerBooks hm h).mono hm (.next _)

theorem ServiceBooks.handle {groupId : String} {fails : Option HandlerCall} {ok : Bool}
    (hstep : HandleStep R groupId w fails ok w') : ServiceBooks R w w' none := by
  cases hstep with
  | nothing | unread | unsummed => exact .kept (.refl _) rfl
  | posted hp | saved hp => exact .kept hp.later rfl
  | completed hp => exact .kept (hp.later.trans (.next _)) rfl

/-! ## Runs -/

namespace Process

variable {ι : Type} [DecidableEq ι] {p : ι → PostExpense} {s : Process ι}

/-- The call that a step makes on the service's ledger. -/
def posting (R : Runtime) (p : ι → PostExpense) (s : Process ι) : ProcessStep ι → Option LedgerCall
  | .post i _ _ =>
      match s.route.phase i with
      | .creating => (p i).args.posting R s.world
      | .arrived | .refused | .created _ | .failed _ | .done _ => none
  | .client _ | .balances .. | .wake | .put | .consume | .handle _ => none

/-- The posting of a request breaks off between two entries. -/
def LeavesHeads (R : Runtime) (p : ι → PostExpense) (s : Process ι) (c : ProcessStep ι) : Prop :=
  ∃ call ∈ s.posting R p c, ¬ call.Guarded R

theorem Consistent.serviceBooks (h : s.Consistent R) (c : ProcessStep ι) :
    ServiceBooks R s.world (s.step R p c).world (s.posting R p c) := by
  cases c with
  | post i now now' =>
      have hworld : (s.step R p (.post i now now')).world = (s.route.advance R (p i) i now now').world := rfl
      rw [hworld]
      by_cases hi : s.route.phase i = .creating
      · rw [advance_creating hi, posting, hi]
        exact .createExpense (p i).args s.world
      · obtain ⟨cache, he⟩ := advance_of_ne_creating (R := R) (p := p i) hi now now'
        have hnone : s.posting R p (.post i now now') = none := by
          cases hphase : s.route.phase i with
          | creating => exact absurd hphase hi
          | arrived | refused | created | failed | done => simp only [posting, hphase]
        rw [he, hnone]
        exact .kept (.refl _) rfl
  | client call => exact .client call s.world
  | balances groupId now now' now'' =>
      obtain ⟨cache, he, -⟩ := getBalances_world (R := R) groupId now now' now'' s.world
      have hworld : (s.step R p (.balances groupId now now' now'')).world = { s.world with cache } := he
      rw [hworld]
      exact .kept (.refl _) rfl
  | wake => exact .kept (h.flowing.woken h.engaged).draws rfl
  | put => exact .kept (h.flowing.puts h.engaged).draws rfl
  | consume =>
      rcases consume_cases R p s with ⟨he, -⟩ | ⟨m, rest, -, -, he⟩
      · rw [he]
        exact .kept (.refl _) rfl
      · rw [he]
        exact .kept (.refl _) rfl
  | handle fails =>
      rcases handle_world_cases h.toOrderly p fails with ⟨he, -⟩ | ⟨m, ok, -, -, hstep⟩
      · rw [he]
        exact .kept (.refl _) rfl
      · exact .handle hstep

theorem Consistent.step_sound (h : s.Consistent R) (hm : Monotone R.time)
    (hs : Sound R s.world.draws s.world.serviceLedger) {c : ProcessStep ι} (hc : ¬ s.LeavesHeads R p c) :
    Sound R (s.step R p c).world.draws (s.step R p c).world.serviceLedger :=
  (h.serviceBooks c).sound hm hs fun call hcall => by_contra fun hnot => hc ⟨call, hcall, hnot⟩

/-- Whether the service's ledger stays sound can be told from its heads. -/
theorem Consistent.headsCurrent_iff (h : s.Consistent R) (hm : Monotone R.time)
    (hs : Sound R s.world.draws s.world.serviceLedger) (c : ProcessStep ι) :
    HeadsCurrent (s.step R p c).world.serviceLedger ↔ ¬ s.LeavesHeads R p c := by
  constructor
  · rintro hcurrent ⟨call, hcall, hnot⟩
    exact (h.serviceBooks c).not_headsCurrent h.wellFormed.service_heads hs hcall hnot hcurrent
  · exact fun hc => (h.step_sound hm hs hc).linked.head

end Process

/-- Both ledgers, the service's as far as it never suffers. -/
structure Audited (R : Runtime) (w : World) : Prop where
  service : Booked R w.draws w.serviceLedger
  worker : WorkerBooks R w.draws w.workerLedger

namespace Audited

theorem init (R : Runtime) : Audited R .init := ⟨.init R _, .init R _, .init⟩

variable {ι : Type} [DecidableEq ι] {p : ι → PostExpense} {s : Process ι}

theorem step (hm : Monotone R.time) (hs : s.Consistent R) (h : Audited R s.world) (c : ProcessStep ι) :
    Audited R (s.step R p c).world := by
  have hbooks := hs.serviceBooks (p := p) c
  refine ⟨hbooks.booked h.service, ?_⟩
  by_cases hc : ∃ fails, c = .handle fails
  · obtain ⟨fails, rfl⟩ := hc
    rcases Process.handle_world_cases hs.toOrderly p fails with ⟨he, -⟩ | ⟨m, ok, -, -, hstep⟩
    · rw [he]
      exact h.worker
    · exact h.worker.handle hm hstep
  · rw [(hs.untouched (p := p) fun fails he => hc ⟨fails, he⟩).workerLedger]
    exact h.worker.mono hm hbooks.later

theorem run (hm : Monotone R.time) (steps : List (ProcessStep ι)) :
    Audited R (run (Process.step R p) .start steps).world := by
  have hinv : (Lib.run (Process.step R p) .start steps).Consistent R ∧
      Audited R (Lib.run (Process.step R p) .start steps).world := by
    apply run_invariant fun s : Process ι => s.Consistent R ∧ Audited R s.world
    · rintro s c ⟨hs, h⟩
      exact ⟨hs.step c, h.step hm hs c⟩
    · exact ⟨.start, .init R⟩
  exact hinv.2

end Audited

end ExpenseSettlement
