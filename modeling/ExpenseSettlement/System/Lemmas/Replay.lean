import ExpenseSettlement.Core.Reindex
import ExpenseSettlement.System.Lemmas.Steps
import ExpenseSettlement.Worker.Lemmas.Payments

/-!
# Operations done again

An operation does the same to the same store and books where it draws the same ids and readings. It needs
none of those that its event gets.
-/

namespace ExpenseSettlement

open Lib LedgerEngine DebtSimplifier

variable {R : Runtime} {w w' w₁ w₁' : World}

/-! ## The store -/

namespace InMemoryStore

theorem createUser_reads (S : InMemoryStore) (name email : String) (d : Draws) :
    Reads R (fun R d => S.createUser R name email d) d := by
  by_cases hm : S.users.values.any (·.email = email)
  · refine ⟨0, 0, ?_, fun σ τ e h => ?_⟩
    · simp only [createUser, if_pos hm]
      rfl
    · simp only [createUser, if_pos hm]
      rfl
  · refine ⟨1, 0, ?_, fun σ τ e h => ?_⟩
    · simp only [createUser, if_neg hm]
      rfl
    · simp only [createUser, if_neg hm, h.uuid4 R Nat.one_pos]
      rfl

theorem createGroup_reads (S : InMemoryStore) (name : String) (d : Draws) :
    Reads R (fun R d => S.createGroup R name d) d := by
  refine ⟨1, 0, rfl, fun σ τ e h => ?_⟩
  simp only [createGroup, h.uuid4 R Nat.one_pos]
  rfl

theorem createExpense_reads (S : InMemoryStore) (groupId payerId title : String) (totalCents : ℤ)
    (splitType : String) (splits : List Split) (idempotencyKey : Option String) (d : Draws) :
    Reads R (fun R d => S.createExpense R groupId payerId title totalCents splitType splits idempotencyKey d)
      d := by
  cases he : S.existing idempotencyKey with
  | some expense =>
      simp only [createExpense, he]
      exact ⟨0, 0, rfl, fun _ _ _ _ => rfl⟩
  | none =>
      simp only [createExpense, he]
      refine ⟨1, 1, rfl, fun σ τ e h => ?_⟩
      simp only [h.uuid4 R Nat.one_pos, h.time R Nat.one_pos]
      rfl

end InMemoryStore

/-! ## The payments of a plan -/

section Payments

variable {groupId checksum : String} {s : Settlement} {plan : List Settlement} {acc acc' : SettleLoop}
  {σ : ℕ ↪ ℕ} {τ : ℕ →o ℕ}

theorem Settlement.Payable.reindex (h : s.Payable R) : s.Payable (R.reindex σ τ) :=
  ⟨h.positive, h.hashable.payer, h.hashable.payee, h.hashable.amount⟩

theorem LedgerState.step_payment (h : s.Payable R) (d : Draws) {L : LedgerEngine}
    (hh : HeadsEncode R L.accountHeads) :
    (LedgerState.step R ⟨d, L⟩ s.call).draws = d.skip 6 1 ∧
      (LedgerState.step R ⟨d, L⟩ s.call).engine.entries.length = L.entries.length + 4 := by
  obtain ⟨j, hj⟩ := h.exec d hh
  obtain ⟨-, -, he⟩ := LedgerCall.exec_ok (congrArg Prod.fst hj)
  have hentries : (newJournal R (s.call.specs R d) s.call.description
      { d with uuids := d.uuids + 1 } L).entries.length = 4 := by
    rw [← List.length_map, newJournal_postings, List.length_map]
    rfl
  simp only [LedgerState.step, he]
  exact ⟨rfl, by rw [commit, List.length_append, hentries]⟩

/-- A payment draws seven ids and two readings, and posts four entries. -/
theorem SettleLoop.pay_drawn (groupId checksum : String) (h : s.Payable R)
    (hh : HeadsEncode R acc.ledger.accountHeads) :
    (acc.pay R groupId checksum s).draws = acc.draws.skip 7 2 ∧
      (acc.pay R groupId checksum s).ledger.entries.length = acc.ledger.entries.length + 4 := by
  obtain ⟨hdraws, hentries⟩ := LedgerState.step_payment h acc.draws hh
  refine ⟨?_, hentries⟩
  rw [pay, hdraws]
  rfl

theorem run_pay_drawn (groupId checksum : String) (acc : SettleLoop) (h : ∀ s ∈ plan, s.Payable R)
    (hh : HeadsEncode R acc.ledger.accountHeads) :
    (run (SettleLoop.pay R groupId checksum) acc plan).draws =
        acc.draws.skip (7 * plan.length) (2 * plan.length) ∧
      (run (SettleLoop.pay R groupId checksum) acc plan).ledger.entries.length =
        acc.ledger.entries.length + 4 * plan.length := by
  induction plan generalizing acc with
  | nil => exact ⟨rfl, rfl⟩
  | cons s plan ih =>
      rw [List.forall_mem_cons] at h
      obtain ⟨hdraws, hentries⟩ := SettleLoop.pay_drawn groupId checksum h.1 hh
      obtain ⟨hdraws', hentries'⟩ := ih (acc.pay R groupId checksum s) h.2
        (SettleLoop.pay_headsEncode groupId checksum hh s)
      constructor
      · refine hdraws'.trans ?_
        rw [hdraws, Draws.skip_skip, List.length_cons]
        congr 1 <;> omega
      · refine hentries'.trans ?_
        rw [hentries, List.length_cons]
        omega

/-- The loops have made the same payments, to ledgers that need not be the same. -/
structure SettleLoop.Alike (R : Runtime) (acc acc' : SettleLoop) : Prop where
  records : acc'.records = acc.records
  totalSettled : acc'.totalSettled = acc.totalSettled
  encoded : HeadsEncode R acc.ledger.accountHeads
  encoded' : HeadsEncode R acc'.ledger.accountHeads

theorem SettleLoop.Alike.pay (groupId checksum : String) (ha : Alike R acc acc') (h : s.Payable R)
    (hd : Draws.Aligned σ τ 7 2 acc.draws acc'.draws) :
    Alike R (acc.pay R groupId checksum s) (acc'.pay (R.reindex σ τ) groupId checksum s) ∧
      (acc'.ledger = acc.ledger → (acc'.pay (R.reindex σ τ) groupId checksum s).ledger =
        (acc.pay R groupId checksum s).ledger) := by
  have hparts : Draws.Aligned σ τ (6 + 1) (1 + 1) acc.draws acc'.draws := hd
  have hh' : HeadsEncode (R.reindex σ τ) acc'.ledger.accountHeads := ha.encoded'
  obtain ⟨hposting, hrecord⟩ := Draws.Aligned.add_iff.mp hparts
  obtain ⟨hdraws, -⟩ := LedgerState.step_payment h acc.draws ha.encoded
  obtain ⟨hdraws', -⟩ := LedgerState.step_payment h.reindex acc'.draws hh'
  refine ⟨⟨?_, ?_, pay_headsEncode _ _ ha.encoded s, pay_headsEncode _ _ hh' s⟩, ?_⟩
  · simp only [SettleLoop.pay, Settlement.record, hdraws, hdraws', ha.records,
      hrecord.uuid4 R Nat.one_pos, hrecord.time R Nat.one_pos]
  · simp only [SettleLoop.pay, ha.totalSettled]
  · intro hledger
    obtain ⟨k, l, hkl, hsame⟩ := s.call.exec_reads (R := R) acc.ledger acc.draws
    have hskip : acc.draws.skip k l = acc.draws.skip 6 1 := hkl.symm.trans hdraws
    simp only [Draws.skip, Draws.mk.injEq, Nat.add_left_cancel_iff] at hskip
    obtain ⟨rfl, rfl⟩ := hskip
    simp only [SettleLoop.pay, LedgerState.step, hledger, hsame σ τ _ hposting]

theorem run_pay_alike (groupId checksum : String) (ha : SettleLoop.Alike R acc acc')
    (h : ∀ s ∈ plan, s.Payable R)
    (hd : Draws.Aligned σ τ (7 * plan.length) (2 * plan.length) acc.draws acc'.draws) :
    SettleLoop.Alike R (run (SettleLoop.pay R groupId checksum) acc plan)
        (run (SettleLoop.pay (R.reindex σ τ) groupId checksum) acc' plan) ∧
      (acc'.ledger = acc.ledger → (run (SettleLoop.pay (R.reindex σ τ) groupId checksum) acc' plan).ledger =
        (run (SettleLoop.pay R groupId checksum) acc plan).ledger) := by
  induction plan generalizing acc acc' with
  | nil => exact ⟨ha, fun hledger => hledger⟩
  | cons s plan ih =>
      rw [List.forall_mem_cons] at h
      rw [List.length_cons, Nat.mul_succ, Nat.mul_succ, Nat.add_comm, Nat.add_comm (2 * plan.length),
        Draws.Aligned.add_iff] at hd
      obtain ⟨hpay, hrest⟩ := hd
      have hh' : HeadsEncode (R.reindex σ τ) acc'.ledger.accountHeads := ha.encoded'
      obtain ⟨hdraws, -⟩ := SettleLoop.pay_drawn groupId checksum h.1 ha.encoded
      obtain ⟨hdraws', -⟩ := SettleLoop.pay_drawn groupId checksum h.1.reindex hh'
      rw [← hdraws, ← hdraws'] at hrest
      obtain ⟨halike, hledger⟩ := ha.pay groupId checksum h.1 hpay
      obtain ⟨halike', hledger'⟩ := ih halike h.2 hrest
      exact ⟨halike', fun he => hledger' (hledger he)⟩

end Payments

/-! ## Operations -/

structure SameBooks (w w' : World) : Prop where
  store : w'.store = w.store
  serviceLedger : w'.serviceLedger = w.serviceLedger

theorem SameBooks.balances (h : SameBooks w w') (groupId : String) :
    getGroupNetBalances groupId w' = getGroupNetBalances groupId w := by
  rw [getGroupNetBalances, getGroupNetBalances, h.store]

/-- What leads from `w` to `w₁` leads from `w'` to `w₁'`. The worker's ledgers may have differed before. -/
structure Replay (w w₁ w' w₁' : World) : Prop where
  books : SameBooks w₁ w₁'
  workerLedger : w'.workerLedger = w.workerLedger → w₁'.workerLedger = w₁.workerLedger
  posted : w₁'.workerLedger.entries.length + w.workerLedger.entries.length =
    w₁.workerLedger.entries.length + w'.workerLedger.entries.length

theorem Replay.of_routes (hb : SameBooks w₁ w₁') (h : w₁.workerLedger = w.workerLedger)
    (h' : w₁'.workerLedger = w'.workerLedger) : Replay w w₁ w' w₁' := by
  refine ⟨hb, fun he => ?_, ?_⟩
  · rw [h, h', he]
  · rw [h, h', Nat.add_comm]

/-- The operation answers the same and does to the same books what leads from `w` to `w₁`, where it gets
the same `k` ids and `l` readings. Those that come after them are for its events. -/
def Replays (R : Runtime) (op : Operation) (w w₁ : World) : Prop :=
  ∃ k l events, (w.draws.skip k l).Later w₁.draws ∧ ∀ (σ : ℕ ↪ ℕ) (τ : ℕ →o ℕ) (w' : World),
    SameBooks w w' → HeadsEncode R w'.workerLedger.accountHeads → Draws.Aligned σ τ k l w.draws w'.draws →
      Replay w w₁ w' (w'.step (R.reindex σ τ) op) ∧
        w'.answer (R.reindex σ τ) op = w.answer R op ∧
        (w'.step (R.reindex σ τ) op).draws = w'.draws.skip (k + events) (l + events)

namespace Replays

theorem createUser (name email : String) (w : World) :
    Replays R (.createUser name email) w (GroupService.createUser R name email w).2 := by
  obtain ⟨k, l, hd, hsame⟩ := w.store.createUser_reads (R := R) name email w.draws
  refine ⟨k, l, 0, ?_, fun σ τ w' hb hh ha => ?_⟩
  · rw [← hd]
    exact .refl _
  · have hstep := hsame σ τ w'.draws ha
    simp only [World.step, World.answer, GroupService.createUser, hb.store, hstep]
    exact ⟨.of_routes ⟨rfl, hb.serviceLedger⟩ rfl rfl, trivial, rfl⟩

theorem createGroup (name : String) (w : World) :
    Replays R (.createGroup name) w (GroupService.createGroup R name w).2 := by
  obtain ⟨k, l, hd, hsame⟩ := w.store.createGroup_reads (R := R) name w.draws
  refine ⟨k, l, 0, ?_, fun σ τ w' hb hh ha => ?_⟩
  · rw [← hd]
    exact .refl _
  · have hstep := hsame σ τ w'.draws ha
    simp only [World.step, World.answer, GroupService.createGroup, hb.store, hstep]
    exact ⟨.of_routes ⟨rfl, hb.serviceLedger⟩ rfl rfl, trivial, rfl⟩

theorem addMember (groupId userId : String) (w : World) :
    Replays R (.addMember groupId userId) w (GroupService.addMember R groupId userId w).2 := by
  refine ⟨0, 0, 0, ?_, fun σ τ w' hb hh ha => ?_⟩
  · rw [GroupService.addMember]
    cases w.store.groups.get? groupId with
    | none => exact .refl _
    | some group =>
        cases w.store.users.get? userId with
        | none => exact .refl _
        | some user => exact .refl _
  · simp only [World.step, World.answer, GroupService.addMember, hb.store]
    cases w.store.groups.get? groupId with
    | none => exact ⟨.of_routes hb rfl rfl, rfl, rfl⟩
    | some group =>
        cases w.store.users.get? userId with
        | none => exact ⟨.of_routes hb rfl rfl, rfl, rfl⟩
        | some user => exact ⟨.of_routes ⟨rfl, hb.serviceLedger⟩ rfl rfl, rfl, rfl⟩

theorem createExpense (req : CreateExpense) (w : World) :
    Replays R (.createExpense req) w (createExpense R req w).2 := by
  cases hv : validate R req w.store with
  | error e =>
      refine ⟨0, 0, 0, ?_, fun σ τ w' hb hh ha => ?_⟩
      · simp only [ExpenseSettlement.createExpense, hv]
        exact .refl _
      · have hv' : validate (R.reindex σ τ) req w.store = .error e := hv
        simp only [World.step, World.answer, ExpenseSettlement.createExpense, hv, hb.store, hv']
        exact ⟨.of_routes hb rfl rfl, trivial, rfl⟩
  | ok splits =>
      obtain ⟨k, l, hd, hsame⟩ := (req.call splits).exec_reads (R := R) w.serviceLedger w.draws
      rcases hr : (req.call splits).exec R w.draws w.serviceLedger with ⟨posted, d, L⟩
      simp only [hr] at hd hsame
      have hpost : w.serviceLedger.postExpenseJournal R req.payerId splits req.title w.draws =
        (posted, d, L) := hr
      have hpost' : ∀ (σ : ℕ ↪ ℕ) (τ : ℕ →o ℕ) (e : Draws), Draws.Aligned σ τ k l w.draws e →
        w.serviceLedger.postExpenseJournal (R.reindex σ τ) req.payerId splits req.title e =
          (posted, e.skip k l, L) := hsame
      cases posted with
      | error err =>
          refine ⟨k, l, 0, ?_, fun σ τ w' hb hh ha => ?_⟩
          · simp only [ExpenseSettlement.createExpense, hv, hpost]
            rw [← hd]
            exact .refl _
          · have hv' : validate (R.reindex σ τ) req w.store = .ok splits := hv
            simp only [World.step, World.answer, ExpenseSettlement.createExpense, hv, hpost, hb.store,
              hb.serviceLedger, hv', hpost' σ τ _ ha]
            exact ⟨.of_routes ⟨rfl, rfl⟩ rfl rfl, trivial, rfl⟩
      | ok journal =>
          obtain ⟨k', l', hd', hsame'⟩ := w.store.createExpense_reads (R := R) req.groupId req.payerId
            req.title req.totalCents req.splitType splits req.idempotencyKey d
          refine ⟨k + k', l + l', 1, ?_, fun σ τ w' hb hh ha => ?_⟩
          · simp only [ExpenseSettlement.createExpense, hv, hpost]
            rw [← Draws.skip_skip, ← hd, ← hd']
            exact .next _
          · obtain ⟨ha₁, ha₂⟩ := Draws.Aligned.add_iff.mp ha
            rw [← hd] at ha₂
            have hv' : validate (R.reindex σ τ) req w.store = .ok splits := hv
            simp only [World.step, World.answer, ExpenseSettlement.createExpense, hv, hv', hpost,
              hb.serviceLedger, hpost' σ τ _ ha₁, hb.store, hsame' σ τ _ ha₂]
            refine ⟨.of_routes ⟨rfl, rfl⟩ rfl rfl, trivial, ?_⟩
            rw [← Draws.skip_skip, ← Draws.skip_skip]
            rfl

theorem nothing {groupId : String} (hn : groupId = "" ∨ w.store.getExpensesForGroup groupId = []) :
    Replays R (.settlementRequested groupId) w w := by
  refine ⟨0, 0, 0, .refl _, fun σ τ w' hb hh ha => ?_⟩
  have hsame : handleSettlement (R.reindex σ τ) groupId w' = (.ok (), w') := by
    have hnot : ¬ (groupId ≠ "" ∧ w'.store.getExpensesForGroup groupId ≠ []) := by
      rw [hb.store, ← not_or]
      exact not_not.mpr hn
    rcases handleSettlement_cases (R := R.reindex σ τ) hh groupId with ⟨-, he⟩ | ⟨hu, -⟩ | ⟨_, _, hp, -⟩
    · exact he
    · exact absurd ⟨hu.named, hu.expenses⟩ hnot
    · exact absurd ⟨hp.named, hp.expenses⟩ hnot
  simp only [World.step, hsame]
  exact ⟨.of_routes hb rfl rfl, rfl, rfl⟩

/-- The checksum is missing again. -/
theorem unsummed {groupId : String} (hu : Unsummed R groupId w) :
    Replays R (.settlementRequested groupId) w w := by
  refine ⟨0, 0, 0, .refl _, fun σ τ w' hb hh ha => ?_⟩
  have hu' : Unsummed (R.reindex σ τ) groupId w' := by
    refine ⟨hu.named, by rw [hb.store]; exact hu.expenses, fun hc => hu.unsummed ?_⟩
    rw [hb.balances] at hc
    exact ⟨hc.ids, hc.amounts⟩
  obtain ⟨e, he⟩ := hu'.raises none nofun
  have hsame : handleSettlement (R.reindex σ τ) groupId w' = (.error (.python e), w') := he
  simp only [World.step, hsame]
  exact ⟨.of_routes hb rfl rfl, rfl, rfl⟩

/-- The request saves the records of its payments. -/
theorem planned {groupId : String} {result : DebtSimplifierResult} {acc : SettleLoop}
    (h : Planned R groupId w result acc) (hencoded : HeadsEncode R w.workerLedger.accountHeads)
    (hs : w₁.store = w.store.saveSettlements acc.records)
    (hl : w₁.serviceLedger = w.serviceLedger) (hw : w₁.workerLedger = acc.ledger)
    (hd : acc.draws.Later w₁.draws) : Replays R (.settlementRequested groupId) w w₁ := by
  obtain ⟨hdraws, hentries⟩ := run_pay_drawn groupId result.checksum
    ⟨w.draws, w.workerLedger, [], 0⟩ h.payable hencoded
  rw [h.paid] at hdraws hentries
  refine ⟨7 * result.settlements.length, 2 * result.settlements.length, 1, ?_, fun σ τ w' hb hh ha => ?_⟩
  · rw [← hdraws]
    exact hd
  · let loop : SettleLoop := run (SettleLoop.pay (R.reindex σ τ) groupId result.checksum)
      ⟨w'.draws, w'.workerLedger, [], 0⟩ result.settlements
    have hpayable : ∀ s ∈ result.settlements, s.Payable (R.reindex σ τ) :=
      fun s hs => (h.payable s hs).reindex
    have hloop : settleLoop (R.reindex σ τ) groupId result.checksum result.settlements
      ⟨w'.draws, w'.workerLedger, [], 0⟩ = (.ok (), loop) := settleLoop_eq_run _ _ _ hpayable hh
    obtain ⟨hdraws', hentries'⟩ := run_pay_drawn groupId result.checksum
      ⟨w'.draws, w'.workerLedger, [], 0⟩ hpayable hh
    have hstart : SettleLoop.Alike R ⟨w.draws, w.workerLedger, [], 0⟩ ⟨w'.draws, w'.workerLedger, [], 0⟩ :=
      ⟨rfl, rfl, hencoded, hh⟩
    obtain ⟨halike, hledger⟩ := run_pay_alike groupId result.checksum hstart h.payable ha
    rw [h.paid] at halike hledger
    have hsimplified : simplify (R.reindex σ τ)
        (computeNetBalances (transactionsOf (w.store.getExpensesForGroup groupId)))
        (w.store.getExpensesForGroup groupId).length = .ok result := h.simplified
    simp only [World.step, handleSettlement, handleSettlementFailing, if_neg h.named, hb.store, h.expenses,
      reduceCtorEq, ↓reduceIte, hsimplified, hloop]
    refine ⟨⟨⟨?_, ?_⟩, fun he => ?_, ?_⟩, rfl, ?_⟩
    · rw [hs, halike.records]
    · rw [hl, hb.serviceLedger]
    · rw [hw]
      exact hledger he
    · rw [hw, hentries]
      exact (congrArg (· + _) hentries').trans (by dsimp only; omega)
    · rw [← Draws.skip_skip, ← hdraws']
      rfl

end Replays

end ExpenseSettlement
