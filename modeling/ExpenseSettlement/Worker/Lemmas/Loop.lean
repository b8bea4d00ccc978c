import ExpenseSettlement.System.Lemmas.WellFormed
import ExpenseSettlement.Worker.Loop

/-!
# Where a message is

Nothing puts a message back, so a message is waiting, under way or over, and never twice in these.
-/

namespace ExpenseSettlement

open Lib DebtSimplifier

variable {R : Runtime}

/-! ## The handler -/

variable {groupId : String} {w : World} {fails : Option HandlerCall}

theorem handleSettlementFailing_of_raises (hh : HeadsEncode R w.workerLedger.accountHeads)
    (h : Raises R fails groupId w) : ∃ e w', handleSettlementFailing R fails groupId w = (.error e, w') ∧
      HandleStep R groupId w fails false w' := by
  obtain ⟨hg, hcall⟩ := h
  by_cases hget : fails = some .getExpensesForGroup
  · subst hget
    exact ⟨.failed .getExpensesForGroup, w,
      by simp only [handleSettlementFailing, if_neg hg, ↓reduceIte], .unread hg⟩
  · obtain ⟨hx, hfails⟩ := hcall.resolve_left hget
    obtain ⟨outcome, w', he, hstep⟩ := handleSettlementFailing_step hh fails groupId
    cases outcome with
    | error e => exact ⟨e, w', he, hstep⟩
    | ok u =>
        cases hstep with
        | nothing hn => exact (hn.elim hg hx).elim
        | completed hp => exact absurd hp.checksummable (hfails.resolve_left (not_not.mpr rfl))

theorem handleSettlementFailing_of_not_raises (hh : HeadsEncode R w.workerLedger.accountHeads)
    (h : ¬ Raises R fails groupId w) : ∃ w', handleSettlementFailing R fails groupId w = (.ok (), w') ∧
      HandleStep R groupId w fails true w' := by
  obtain ⟨outcome, w', he, hstep⟩ := handleSettlementFailing_step hh fails groupId
  cases outcome with
  | ok u => exact ⟨w', he, hstep⟩
  | error e =>
      apply (h _).elim
      cases hstep with
      | unread hg => exact ⟨hg, .inl rfl⟩
      | unsummed hu => exact ⟨hu.named, .inr ⟨hu.expenses, .inr hu.unsummed⟩⟩
      | posted hp | saved hp => exact ⟨hp.named, .inr ⟨hp.expenses, .inl nofun⟩⟩

/-! ## The steps of the loop -/

namespace LoopState

variable {s : LoopState} {event : LoopEvent} {msg : Message EventPayload}

/-- Every message that was ever put, by where it is now. -/
def messages (s : LoopState) : List (Message EventPayload) :=
  s.ended.map (·.1) ++ s.current.toList ++ s.queue.queue

structure Kept (R : Runtime) (s : LoopState) : Prop where
  issued : ∀ m ∈ s.messages, R.Issued 0 s.world.draws.uuids m.id
  distinct : (s.messages.map (·.id)).Nodup
  dlq : s.queue.dlq = []
  handled : ∀ msg handled, (msg, handled) ∈ s.ended → handled = true
  heads : HeadsEncode R s.world.workerLedger.accountHeads

theorem Kept.start {w : World} (hh : HeadsEncode R w.workerLedger.accountHeads) : Kept R (.start w) where
  issued := nofun
  distinct := .nil
  dlq := rfl
  handled := nofun
  heads := hh

theorem Kept.noneLost (h : Kept R s) : NoneLost s where
  kept := by
    intro msg handled hm
    obtain rfl := h.handled msg handled hm
    exact .inl hm
  retried := by
    rw [h.dlq]
    exact nofun

/-- Messages stay distinct while they only move and ids are only drawn. -/
theorem Kept.congr {s' : LoopState} (h : Kept R s) (hm : s'.messages = s.messages)
    (hd : s.world.draws.uuids ≤ s'.world.draws.uuids) (hdlq : s'.queue.dlq = s.queue.dlq)
    (hover : ∀ msg handled, (msg, handled) ∈ s'.ended → handled = true)
    (hh : HeadsEncode R s'.world.workerLedger.accountHeads) : Kept R s' where
  issued := by
    rw [hm]
    exact fun m hmem => (h.issued m hmem).mono (Nat.le_refl _) hd
  distinct := by
    rw [hm]
    exact h.distinct
  dlq := hdlq.trans h.dlq
  handled := hover
  heads := hh

/-- A message under a new id is added behind the others. -/
theorem Kept.add {s' : LoopState} (h : Kept R s) (hm : s'.messages = s.messages ++ [msg])
    (hnew : R.Issued s.world.draws.uuids s'.world.draws.uuids msg.id) (hdlq : s'.queue.dlq = s.queue.dlq)
    (hover : s'.ended = s.ended) (hl : s'.world.workerLedger = s.world.workerLedger) : Kept R s' where
  issued := by
    intro m hmem
    rw [hm] at hmem
    rcases List.mem_append.mp hmem with hmem | hmem
    · obtain ⟨n, hlo, hhi, -⟩ := hnew
      exact (h.issued m hmem).mono (Nat.le_refl _) (hlo.trans hhi.le)
    · rw [List.mem_singleton.mp hmem]
      exact hnew.mono (Nat.zero_le _) (Nat.le_refl _)
  distinct := by
    rw [hm, List.map_append, List.nodup_append]
    refine ⟨h.distinct, List.nodup_singleton _, fun id hid id' hid' => ?_⟩
    obtain ⟨m, hmem, rfl⟩ := List.mem_map.mp hid
    rw [List.mem_singleton.mp hid']
    exact (h.issued m hmem).ne hnew
  dlq := hdlq.trans h.dlq
  handled := by
    rw [hover]
    exact h.handled
  heads := by
    rw [hl]
    exact h.heads

theorem Kept.publish (h : Kept R s) (eventType : String) (payload : EventPayload) :
    Kept R (s.step R (.publish eventType payload)) := by
  simp only [step, InMemoryQueue.publish, InMemoryQueue.put]
  by_cases hroom : s.queue.queue.length < queueMaxsize
  · simp only [hroom, ↓reduceIte, Option.map_some]
    have hnew : R.Issued s.world.draws.uuids (s.world.draws.uuids + 1)
        (InMemoryQueue.newMessage R eventType payload s.world.draws).id :=
      ⟨_, Nat.le_refl _, Nat.lt_succ_self _, rfl⟩
    exact h.add (List.append_assoc _ _ _).symm hnew rfl rfl rfl
  · simp only [hroom, ↓reduceIte, Option.map_none]
    exact h

theorem Kept.other (h : Kept R s) (op : Operation) : Kept R (s.step R (.other op)) :=
  h.congr rfl (World.step_draws h.heads op) rfl h.handled (World.step_headsEncode h.heads op)

theorem Kept.consume (h : Kept R s) : Kept R (s.step R .consume) := by
  cases hc : s.current with
  | some msg =>
      simp only [step, hc]
      exact h
  | none =>
      simp only [step, hc, InMemoryQueue.consumeOne]
      cases hq : s.queue.queue with
      | nil => exact h.congr (by simp [messages, hc, hq]) (Nat.le_refl _) rfl h.handled h.heads
      | cons msg rest => exact h.congr (by simp [messages, hc, hq]) (Nat.le_refl _) rfl h.handled h.heads

/-! ## The end of an iteration -/

theorem dispatch_of_not_raises {fails : Option HandlerCall} {w : World}
    (hh : HeadsEncode R w.workerLedger.accountHeads)
    (h : msg.eventType = EventType.settlementRequested.value → ¬ Raises R fails msg.payload.groupId w) :
    ∃ w', dispatch R fails msg w = (.ok (), w') ∧ w.draws.uuids ≤ w'.draws.uuids ∧
      HeadsEncode R w'.workerLedger.accountHeads := by
  by_cases ht : msg.eventType = EventType.settlementRequested.value
  · obtain ⟨w', he, hstep⟩ := handleSettlementFailing_of_not_raises hh (h ht)
    exact ⟨w', by rw [dispatch, if_pos ht, he], hstep.draws, hstep.encoded hh⟩
  · exact ⟨w, by rw [dispatch, if_neg ht], Nat.le_refl _, hh⟩

/-- An iteration that meets no failing call completes its message. -/
theorem Kept.handle (h : Kept R s) {fails : Option HandlerCall} (hok : ¬ s.CallFails R (.handle fails)) :
    Kept R (s.step R (.handle fails)) := by
  cases hc : s.current with
  | none =>
      simp only [step, hc]
      exact h
  | some msg =>
      have hnot : msg.eventType = EventType.settlementRequested.value →
          ¬ Raises R fails msg.payload.groupId s.world :=
        fun ht hraises => hok ⟨msg, fails, hc, rfl, ht, hraises⟩
      obtain ⟨w', hd, hle, hh⟩ := dispatch_of_not_raises h.heads hnot
      simp only [step, hc, hd]
      refine h.congr (by simp [messages, hc]) hle rfl (fun m handled hm => ?_) hh
      rcases List.mem_append.mp hm with hm | hm
      · exact h.handled m handled hm
      · cases List.mem_singleton.mp hm
        rfl

/-- An iteration that fails leaves its message nowhere. -/
theorem Kept.lost (h : Kept R s) (hf : s.CallFails R event) : ¬ NoneLost (s.step R event) := by
  obtain ⟨msg, fails, hc, rfl, ht, hraises⟩ := hf
  obtain ⟨e, w', hd, -⟩ := handleSettlementFailing_of_raises h.heads hraises
  have hstep : s.step R (.handle fails) = { s with
      world := w', current := none, failed := s.failed + 1, ended := s.ended ++ [(msg, false)] } := by
    simp only [step, hc, dispatch, if_pos ht, hd]
  rw [hstep]
  rintro ⟨hkept, -⟩
  have hdistinct := h.distinct
  simp only [messages, hc, Option.toList_some, List.map_append, List.nodup_append] at hdistinct
  obtain ⟨⟨-, -, hover⟩, -, hqueue⟩ := hdistinct
  rcases hkept msg false (List.mem_append_right _ (List.mem_singleton_self _)) with hm | hm | hm
  · rcases List.mem_append.mp hm with hm | hm
    · exact hover msg.id (List.mem_map.mpr ⟨msg, List.mem_map.mpr ⟨_, hm, rfl⟩, rfl⟩) msg.id (by simp) rfl
    · cases List.mem_singleton.mp hm
  · exact hqueue msg.id (by simp) msg.id (List.mem_map_of_mem hm) rfl
  · rw [h.dlq] at hm
    cases hm

theorem Kept.step (h : Kept R s) (hok : ¬ s.CallFails R event) : Kept R (s.step R event) := by
  cases event with
  | publish eventType payload => exact h.publish eventType payload
  | other op => exact h.other op
  | consume => exact h.consume
  | handle fails => exact h.handle hok

end LoopState

end ExpenseSettlement
