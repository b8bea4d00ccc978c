import ExpenseSettlement.Core.Lemmas.Ids
import ExpenseSettlement.Core.Lemmas.LedgerRun
import ExpenseSettlement.Core.Lemmas.Returns
import ExpenseSettlement.Worker.SettlementWorker

/-!
# The payments of a plan

A plan that has a checksum can be posted: its amounts are positive, and what the checksum hashes the
journals can hash too. So the handler's loop makes one payment after the other, each a call to the
worker's ledger and a record.
-/

namespace ExpenseSettlement

open Lib LedgerEngine DebtSimplifier

variable {R : Runtime} {groupId checksum : String} {plan : List Settlement} {acc : SettleLoop}

def SettlementRecord.payment (r : SettlementRecord) : Settlement := ⟨r.payerId, r.payeeId, r.amountCents⟩

/-! ## The records -/

/-- The records of a plan, with new ids of their own. -/
structure PlanRecords (R : Runtime) (groupId : String) (plan : List Settlement) (lo hi : Nat)
    (records : List SettlementRecord) : Prop where
  payments : records.map (·.payment) = plan
  group : ∀ r ∈ records, r.groupId = groupId
  issued : ∀ r ∈ records, R.Issued lo hi r.id
  distinct : (records.map (·.id)).Nodup

theorem PlanRecords.nil (R : Runtime) (groupId : String) (lo hi : Nat) :
    PlanRecords R groupId [] lo hi [] :=
  ⟨rfl, nofun, nofun, List.nodup_nil⟩

/-- A record that is made before the others has the older id. -/
theorem PlanRecords.cons {lo mid hi : Nat} {record : SettlementRecord}
    {records : List SettlementRecord} (h : PlanRecords R groupId plan mid hi records)
    (hi' : R.Issued lo mid record.id) (hlo : lo ≤ mid) (hhi : mid ≤ hi) (hg : record.groupId = groupId) :
    PlanRecords R groupId (record.payment :: plan) lo hi (record :: records) where
  payments := by rw [List.map_cons, h.payments]
  group := by
    intro r hr
    rcases List.mem_cons.mp hr with rfl | hr
    · exact hg
    · exact h.group r hr
  issued := by
    intro r hr
    rcases List.mem_cons.mp hr with rfl | hr
    · exact hi'.mono (Nat.le_refl _) hhi
    · exact (h.issued r hr).mono hlo (Nat.le_refl _)
  distinct := by
    rw [List.map_cons, List.nodup_cons]
    refine ⟨fun hm => ?_, h.distinct⟩
    obtain ⟨r, hr, he⟩ := List.mem_map.mp hm
    exact hi'.ne (h.issued r hr) he.symm

/-! ## One payment -/

def Settlement.call (s : Settlement) : LedgerCall :=
  .settlement s.payerId s.payeeId s.amountCents s!"Settlement: {s.payerId} -> {s.payeeId}"

def Settlement.record (R : Runtime) (groupId checksum : String) (d : Draws) (s : Settlement) :
    SettlementRecord where
  id := R.uuid4 d.uuids
  groupId := groupId
  payerId := s.payerId
  payeeId := s.payeeId
  amountCents := s.amountCents
  isExecuted := true
  algorithm := settlementAlgorithm
  checksum := checksum
  executedAt := some (R.time d.times)

/-- One round of the loop. -/
def SettleLoop.pay (R : Runtime) (groupId checksum : String) (acc : SettleLoop) (s : Settlement) :
    SettleLoop :=
  let posted := LedgerState.step R ⟨acc.draws, acc.ledger⟩ s.call
  { draws := ⟨posted.draws.uuids + 1, posted.draws.times + 1⟩
    ledger := posted.engine
    records := acc.records ++ [s.record R groupId checksum posted.draws]
    totalSettled := acc.totalSettled + s.amountCents }

/-- The ledger takes the payment. -/
structure Settlement.Payable (R : Runtime) (s : Settlement) : Prop where
  positive : 1 ≤ s.amountCents
  hashable : s.Hashable R

theorem settle_payable {netBalances : Dict String ℤ} (hz : netBalances.values.sum = 0)
    (h : Checksummable R netBalances) : ∀ s ∈ settle netBalances, s.Payable R := fun s hs =>
  ⟨settle_pos hz hs, (hashable_settle_iff hz).mpr h s hs⟩

theorem Settlement.Payable.call_hashable {s : Settlement} (h : s.Payable R) : s.call.Hashable R :=
  ⟨⟨h.hashable.payer, h.hashable.amount⟩, ⟨h.hashable.payee, h.hashable.amount⟩⟩

theorem Settlement.Payable.exec {s : Settlement} (h : s.Payable R) (d : Draws) {L : LedgerEngine}
    (hh : HeadsEncode R L.accountHeads) : ∃ j, s.call.exec R d L =
      (.ok j, (LedgerState.step R ⟨d, L⟩ s.call).draws, (LedgerState.step R ⟨d, L⟩ s.call).engine) := by
  have hp : s.call.Positive := h.positive
  obtain ⟨j, hj⟩ := LedgerCall.exec_of_hashable (d := d) hh hp h.call_hashable
  exact ⟨j, Prod.ext hj rfl⟩

namespace SettleLoop

theorem pay_headsEncode (groupId checksum : String) (h : HeadsEncode R acc.ledger.accountHeads)
    (s : Settlement) :
    HeadsEncode R (acc.pay R groupId checksum s).ledger.accountHeads := by
  have hstep : (acc.pay R groupId checksum s).ledger = (s.call.exec R acc.draws acc.ledger).2.2 := rfl
  rw [hstep, LedgerCall.exec_eq]
  exact postJournal_headsEncode h

end SettleLoop

/-! ## The loop -/

theorem settleLoop_eq_run (R : Runtime) (groupId checksum : String) (h : ∀ s ∈ plan, s.Payable R)
    (hh : HeadsEncode R acc.ledger.accountHeads) :
    settleLoop R groupId checksum plan acc = (.ok (), run (SettleLoop.pay R groupId checksum) acc plan) := by
  induction plan generalizing acc with
  | nil => rfl
  | cons s plan ih =>
      rw [List.forall_mem_cons] at h
      obtain ⟨j, hcall⟩ := h.1.exec acc.draws hh
      have hpost : acc.ledger.postSettlementJournal R s.payerId s.payeeId s.amountCents
          s!"Settlement: {s.payerId} -> {s.payeeId}" acc.draws = _ := hcall
      simp only [settleLoop, hpost]
      exact ih h.2 (SettleLoop.pay_headsEncode groupId checksum hh s)

theorem run_pay_headsEncode (hh : HeadsEncode R acc.ledger.accountHeads) (plan : List Settlement) :
    HeadsEncode R (run (SettleLoop.pay R groupId checksum) acc plan).ledger.accountHeads :=
  run_invariant (fun acc : SettleLoop => HeadsEncode R acc.ledger.accountHeads)
    (fun _ s h => SettleLoop.pay_headsEncode groupId checksum h s) hh plan

theorem run_pay_records (R : Runtime) (groupId checksum : String) (plan : List Settlement)
    (acc : SettleLoop) :
    ∃ records, (run (SettleLoop.pay R groupId checksum) acc plan).records = acc.records ++ records ∧
      acc.draws.uuids ≤ (run (SettleLoop.pay R groupId checksum) acc plan).draws.uuids ∧
      PlanRecords R groupId plan acc.draws.uuids
        (run (SettleLoop.pay R groupId checksum) acc plan).draws.uuids records := by
  induction plan generalizing acc with
  | nil => exact ⟨[], (List.append_nil _).symm, Nat.le_refl _, .nil R groupId _ _⟩
  | cons s plan ih =>
      have hd := (LedgerState.step_later (R := R) ⟨acc.draws, acc.ledger⟩ s.call).uuids
      let record := s.record R groupId checksum (LedgerState.step R ⟨acc.draws, acc.ledger⟩ s.call).draws
      obtain ⟨records, hrecords, hle, hplan⟩ := ih (acc.pay R groupId checksum s)
      have hmid : acc.draws.uuids ≤ (acc.pay R groupId checksum s).draws.uuids := hd.trans (Nat.le_succ _)
      have hrecord : R.Issued acc.draws.uuids (acc.pay R groupId checksum s).draws.uuids record.id :=
        ⟨_, hd, Nat.lt_succ_self _, rfl⟩
      exact ⟨record :: records, hrecords.trans (by simp [SettleLoop.pay, record]), hmid.trans hle,
        hplan.cons hrecord hmid hle rfl⟩

theorem run_pay_executed {records : List SettlementRecord} (h : acc.records = records) :
    ∀ r ∈ (run (SettleLoop.pay R groupId checksum) acc plan).records,
      r ∈ records ∨ r.isExecuted = true ∧ r.checksum = checksum := by
  apply run_invariant fun acc : SettleLoop => ∀ r ∈ acc.records,
    r ∈ records ∨ r.isExecuted = true ∧ r.checksum = checksum
  · intro acc s hacc r hr
    rcases List.mem_append.mp hr with hr | hr
    · exact hacc r hr
    · obtain rfl := List.mem_singleton.mp hr
      exact .inr ⟨rfl, rfl⟩
  · rintro r hr
    exact .inl (h ▸ hr)

/-! ## The handler -/

/-- The world that the handler leaves when its loop has ended with `acc`. -/
def World.settled (R : Runtime) (groupId : String) (result : DebtSimplifierResult) (acc : SettleLoop)
    (w : World) : World :=
  let appended := w.outbox.append R EventType.settlementCompleted.value groupId
    (.settlementCompleted groupId result.settlements.length acc.totalSettled settlementAlgorithm
      result.reductionRatio result.checksum) acc.draws
  { w with
    draws := appended.2.1
    store := w.store.saveSettlements acc.records
    workerLedger := acc.ledger
    outbox := appended.2.2
    cache := ((w.cache.delete s!"group:{groupId}:balances").2.delete s!"group:{groupId}:debts").2 }

theorem settled_events (groupId : String) (result : DebtSimplifierResult) (acc : SettleLoop)
    (w : World) :
    (w.settled R groupId result acc).outbox.events.map (fun e => (e.eventType, e.aggregateId)) =
      w.outbox.events.map (fun e => (e.eventType, e.aggregateId)) ++
        [(EventType.settlementCompleted.value, groupId)] := by
  simp [World.settled, InMemoryOutbox.append]

/-- The number of settlements and the ratio that a completion event reports. -/
def EventPayload.reduction : EventPayload → Option (ℤ × ℚ)
  | .settlementCompleted _ settlementCount _ _ reductionRatio _ => some (settlementCount, reductionRatio)
  | .expenseCreated .. | .settlementRequested .. => none

theorem settled_report (groupId : String) (result : DebtSimplifierResult) (acc : SettleLoop) (w : World) :
    ∃ e, (w.settled R groupId result acc).outbox.events = w.outbox.events ++ [e] ∧
      e.eventType = EventType.settlementCompleted.value ∧
      e.payload.reduction = some ((result.settlements.length : ℤ), result.reductionRatio) :=
  ⟨_, rfl, rfl, rfl⟩

end ExpenseSettlement
