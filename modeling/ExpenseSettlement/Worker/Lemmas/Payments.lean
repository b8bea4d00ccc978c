import ExpenseSettlement.System.Lemmas.AuditedBooks

/-!
# The journals of a plan

Each payment of the handler's loop files one journal, which moves what its record says.
-/

namespace ExpenseSettlement

open Lib LedgerEngine DebtSimplifier

variable {R : Runtime} {groupId checksum : String} {plan : List Settlement} {acc : SettleLoop}

/-- The ids of the journals have been drawn, and the heads can be hashed. -/
structure Filed (R : Runtime) (d : Draws) (L : LedgerEngine) : Prop where
  issued : ∀ id ∈ L.journals.keys, R.Issued 0 d.uuids id
  encoded : HeadsEncode R L.accountHeads

theorem Filed.mono {d d' : Draws} {L : LedgerEngine} (h : Filed R d L) (hd : d.uuids ≤ d'.uuids) :
    Filed R d' L where
  issued := .all_mono h.issued hd
  encoded := h.encoded

/-- What a payment leaves in the ledger, and the draws. -/
structure SettleLoop.Paid (R : Runtime) (groupId checksum : String) (acc : SettleLoop) (s : Settlement)
    (j : Journal) : Prop where
  filed : Filed R (acc.pay R groupId checksum s).draws (acc.pay R groupId checksum s).ledger
  journals : (acc.pay R groupId checksum s).ledger.journals.values = acc.ledger.journals.values ++ [j]
  moves : ∀ r : SettlementRecord, r.payment = s → Moves r j

theorem SettleLoop.exists_paid {s : Settlement} (h : s.Payable R) (hf : Filed R acc.draws acc.ledger) :
    ∃ j, Paid R groupId checksum acc s j := by
  obtain ⟨j, hj⟩ := h.exec acc.draws hf.encoded
  obtain ⟨-, -, he⟩ := LedgerCall.exec_ok (congrArg Prod.fst hj)
  have hissued : R.Issued acc.draws.uuids (acc.draws.uuids + 2) (R.uuid4 (acc.draws.uuids + 1)) :=
    ⟨_, Nat.le_succ _, Nat.lt_succ_self _, rfl⟩
  have hfresh : R.uuid4 (acc.draws.uuids + 1) ∉ acc.ledger.journals.keys :=
    fun hm => (hf.issued _ hm).ne hissued rfl
  refine ⟨newJournal R (s.call.specs R acc.draws) s.call.description
    { acc.draws with uuids := acc.draws.uuids + 1 } acc.ledger,
    ⟨?_, pay_headsEncode groupId checksum hf.encoded s⟩, ?_, ?_⟩
  · simp only [SettleLoop.pay, LedgerState.step, he]
    intro id hid
    rcases Dict.mem_keys_set.mp hid with rfl | hid
    · exact hissued.mono (Nat.zero_le _) (by simp only [drawn]; omega)
    · exact (hf.issued id hid).mono (Nat.le_refl _) (by simp only [drawn]; omega)
  · simp only [SettleLoop.pay, LedgerState.step, he]
    exact Dict.values_set_of_not_mem _ hfresh
  · rintro r rfl
    exact ⟨R.uuid4 acc.draws.uuids, newJournal_postings _ _ _ _⟩

/-- The payments of a plan, each with its record and its journal. -/
structure Payments (R : Runtime) (plan : List Settlement) (acc acc' : SettleLoop)
    (records : List SettlementRecord) (journals : List Journal) : Prop where
  filed : Filed R acc'.draws acc'.ledger
  recorded : acc'.records = acc.records ++ records
  payments : records.map (·.payment) = plan
  posted : acc'.ledger.journals.values = acc.ledger.journals.values ++ journals
  moves : List.Forall₂ Moves records journals
  totalSettled : acc'.totalSettled = acc.totalSettled + (plan.map (·.amountCents)).sum

theorem run_pay (groupId checksum : String) (acc : SettleLoop) (h : ∀ s ∈ plan, s.Payable R)
    (hf : Filed R acc.draws acc.ledger) :
    ∃ records journals, Payments R plan acc (run (SettleLoop.pay R groupId checksum) acc plan) records
      journals := by
  induction plan generalizing acc with
  | nil => exact ⟨[], [], hf, by simp, rfl, by simp, .nil, by simp⟩
  | cons s plan ih =>
      rw [List.forall_mem_cons] at h
      obtain ⟨j, hj⟩ : ∃ j, acc.Paid R groupId checksum s j := SettleLoop.exists_paid h.1 hf
      obtain ⟨records, journals, hp⟩ := ih _ h.2 hj.filed
      let record := s.record R groupId checksum (LedgerState.step R ⟨acc.draws, acc.ledger⟩ s.call).draws
      refine ⟨record :: records, j :: journals, hp.filed, ?_, ?_, ?_, .cons (hj.moves record rfl) hp.moves, ?_⟩
      · exact hp.recorded.trans (by simp [SettleLoop.pay, record])
      · rw [List.map_cons, hp.payments]
        rfl
      · exact hp.posted.trans (by simp [hj.journals])
      · exact hp.totalSettled.trans (by simp [SettleLoop.pay, add_assoc])

theorem Planned.payments {w : World} {result : DebtSimplifierResult} (h : Planned R groupId w result acc)
    (hf : Filed R w.draws w.workerLedger) :
    ∃ journals, Payments R result.settlements ⟨w.draws, w.workerLedger, [], 0⟩ acc acc.records journals := by
  obtain ⟨records, journals, hp⟩ := run_pay groupId result.checksum ⟨w.draws, w.workerLedger, [], 0⟩
    h.payable hf
  rw [h.paid] at hp
  obtain rfl : acc.records = records := hp.recorded
  exact ⟨journals, hp⟩

end ExpenseSettlement
