import ExpenseSettlement.Core.Lemmas.Ids
import ExpenseSettlement.Messaging.Deliveries
import Mathlib.Data.List.Perm.Basic

/-!
# Where the messages of the queue are

The queue, the consumers and the dead-letter list share the published messages out among them. The
retry table counts the nacks, and a message is delivered once more than it is nacked while a consumer
holds it.
-/

namespace ExpenseSettlement

open Lib

variable {P : Type} {R : Runtime} {s : DeliveryState P}

/-! ## The calls of the queue -/

namespace InMemoryQueue

variable {Q Q' : InMemoryQueue P} {message : Message P}

theorem put_eq_some (h : Q.put message = some Q') : Q' = { Q with queue := Q.queue ++ [message] } := by
  rw [put] at h
  split at h
  · cases h
    rfl
  · cases h

theorem publish_eq_some {eventType : String} {payload : P} {d d' : Draws} {id : String}
    (h : Q.publish R eventType payload d = some (id, d', Q')) :
    d'.uuids = d.uuids + 1 ∧
      Q' = { Q with queue := Q.queue ++ [newMessage R eventType payload d] } := by
  simp only [publish, Option.map_eq_some_iff] at h
  obtain ⟨Q₀, hput, heq⟩ := h
  cases heq
  exact ⟨rfl, put_eq_some hput⟩

/-- The count after a nack decides whether the message dies or is put back, at once or later. -/
theorem nack_cases (message : Message P) (Q : InMemoryQueue P) :
    ∃ count, count = Q.retryCounts.getD message.id 0 + 1 ∧
      ((maxRetries ≤ count ∧ Q.nack message =
        (none, ⟨Q.queue, Q.dlq ++ [message], Q.retryCounts.set message.id count⟩)) ∨
      (count < maxRetries ∧ Q.nack message =
        (none, ⟨Q.queue ++ [message], Q.dlq, Q.retryCounts.set message.id count⟩)) ∨
      (count < maxRetries ∧ Q.nack message =
        (some message, ⟨Q.queue, Q.dlq, Q.retryCounts.set message.id count⟩))) := by
  refine ⟨_, rfl, ?_⟩
  rcases Nat.lt_or_ge (Q.retryCounts.getD message.id 0 + 1) maxRetries with hlt | hge
  · refine .inr ?_
    simp only [nack, put, if_neg (Nat.not_le.mpr hlt)]
    split
    · exact .inl ⟨hlt, by simp_all⟩
    · exact .inr ⟨hlt, by simp_all⟩
  · refine .inl ⟨hge, ?_⟩
    simp only [nack, if_pos hge]

end InMemoryQueue

/-! ## The invariant -/

namespace DeliveryState

structure Accounted (R : Runtime) (s : DeliveryState P) : Prop where
  issued : ∀ m ∈ s.published, R.Issued 0 s.draws.uuids m.id
  distinct : (s.published.map (·.id)).Nodup
  shared : (s.queue.queue ++ s.delivered ++ s.queue.dlq).Perm s.published
  nacked : ∀ id ∈ s.nacks, id ∈ s.published.map (·.id)
  counted : ∀ id, s.queue.retryCounts.getD id 0 = s.nacks.count id
  delivered : ∀ id, s.deliveries.count id = s.nacks.count id + (s.held.map (·.id)).count id
  live : ∀ m ∈ s.queue.queue ++ s.delivered, s.nacks.count m.id < maxRetries
  dead : ∀ m ∈ s.queue.dlq, s.nacks.count m.id = maxRetries

theorem Accounted.init (d : Draws) : Accounted R (.init d : DeliveryState P) where
  issued := fun _ h => by cases h
  distinct := List.nodup_nil
  shared := .refl _
  nacked := fun _ h => by cases h
  counted := fun _ => rfl
  delivered := fun _ => rfl
  live := fun _ h => by cases h
  dead := fun _ h => by cases h

/-- The messages of the queue, the consumers and the dead-letter list, counted. -/
theorem Accounted.count (h : Accounted R s) [DecidableEq (Message P)] (m : Message P) :
    s.queue.queue.count m + (s.held.count m + s.putting.count m) + s.queue.dlq.count m =
      s.published.count m := by
  rw [← h.shared.count_eq m]
  simp only [DeliveryState.delivered, List.count_append]

namespace Accounted

theorem publish (h : Accounted R s) (eventType : String) (payload : P) :
    Accounted R (s.step R (.publish eventType payload)) := by
  simp only [step]
  cases hp : s.queue.publish R eventType payload s.draws with
  | none => exact h
  | some out =>
      obtain ⟨id, d, Q⟩ := out
      obtain ⟨hd, rfl⟩ := InMemoryQueue.publish_eq_some hp
      have hnew : R.uuid4 s.draws.uuids ∉ s.published.map (·.id) := by
        intro hm
        obtain ⟨m, hm, he⟩ := List.mem_map.mp hm
        exact (h.issued m hm).ne ⟨s.draws.uuids, Nat.le_refl _, Nat.lt_succ_self _, rfl⟩ he
      refine ⟨?_, ?_, ?_, ?_, h.counted, h.delivered, ?_, h.dead⟩
      · intro m hm
        dsimp only
        rw [hd]
        rcases List.mem_append.mp hm with hm | hm
        · exact (h.issued m hm).mono (Nat.le_refl _) (Nat.le_succ _)
        · rw [List.mem_singleton.mp hm]
          exact ⟨s.draws.uuids, Nat.zero_le _, Nat.lt_succ_self _, rfl⟩
      · rw [List.map_append, List.map_singleton, ← List.concat_eq_append]
        exact h.distinct.concat hnew
      · classical
        refine List.perm_iff_count.mpr fun m => ?_
        simp only [DeliveryState.delivered, List.count_append, ← h.count m]
        omega
      · intro id hid
        rw [List.map_append]
        exact List.mem_append_left _ (h.nacked id hid)
      · intro m hm
        simp only [DeliveryState.delivered, List.mem_append, List.mem_singleton] at hm
        rcases hm with (hm | rfl) | hm
        · exact h.live m (List.mem_append_left _ hm)
        · have hzero : s.nacks.count (R.uuid4 s.draws.uuids) = 0 :=
            List.count_eq_zero.mpr fun hn => hnew (h.nacked _ hn)
          dsimp only [InMemoryQueue.newMessage]
          rw [hzero]
          decide
        · exact h.live m (List.mem_append_right _ (List.mem_append.mpr hm))

theorem consumeOne (h : Accounted R s) : Accounted R (s.step R .consumeOne) := by
  simp only [step, InMemoryQueue.consumeOne]
  cases hq : s.queue.queue with
  | nil => exact h
  | cons message rest =>
      dsimp only
      refine ⟨h.issued, h.distinct, ?_, h.nacked, h.counted, ?_, ?_, h.dead⟩
      · classical
        refine List.perm_iff_count.mpr fun m => ?_
        simp only [DeliveryState.delivered, List.count_append, ← h.count m, hq, List.count_cons,
          List.count_nil]
        omega
      · intro id
        simp only [List.count_append, List.map_append, List.map_singleton, h.delivered]
        omega
      · intro m hm
        apply h.live m
        simp only [DeliveryState.delivered, hq, List.mem_append, List.mem_cons, List.not_mem_nil,
          or_false] at hm ⊢
        tauto

theorem resume (h : Accounted R s) : Accounted R (s.step R .resume) := by
  simp only [step]
  split
  · exact h
  · rename_i message rest hw
    cases hp : s.queue.put message with
    | none => exact h
    | some Q =>
        obtain rfl := InMemoryQueue.put_eq_some hp
        dsimp only
        refine ⟨h.issued, h.distinct, ?_, h.nacked, h.counted, h.delivered, ?_, h.dead⟩
        · classical
          refine List.perm_iff_count.mpr fun m => ?_
          simp only [DeliveryState.delivered, List.count_append, ← h.count m, hw, List.count_cons,
            List.count_nil]
          omega
        · intro m hm
          apply h.live m
          simp only [DeliveryState.delivered, hw, List.mem_append, List.mem_cons, List.not_mem_nil,
            or_false] at hm ⊢
          tauto

/-! ## A nack -/

variable {message : Message P}

theorem mem_published (h : Accounted R s) (hm : message ∈ s.held) : message ∈ s.published := by
  rw [← h.shared.mem_iff]
  simp only [DeliveryState.delivered, List.mem_append, hm]
  tauto

/-- Ids tell messages apart, so it is the nacked message that its consumer gives back. -/
theorem held_perm (h : Accounted R s) (hm : message ∈ s.held) :
    s.held.Perm (message :: s.held.eraseP (·.id = message.id)) := by
  obtain ⟨m, before, after, -, hid, hheld, herase⟩ :=
    List.exists_of_eraseP hm (p := (·.id = message.id)) (by simp)
  have hmem : m ∈ s.held := by
    rw [hheld]
    exact List.mem_append_right _ List.mem_cons_self
  obtain rfl : m = message :=
    List.inj_on_of_nodup_map h.distinct (h.mem_published hmem) (h.mem_published hm) (by simpa using hid)
  rw [herase]
  conv_lhs => rw [hheld]
  exact List.perm_middle

theorem alone (h : Accounted R s) (hm : message ∈ s.held) {m : Message P}
    (hmem : m ∈ s.queue.queue ++ (s.held.eraseP (·.id = message.id) ++ s.putting)) :
    m.id ≠ message.id := by
  classical
  have hperm : (message :: (s.queue.queue ++ (s.held.eraseP (·.id = message.id) ++ s.putting) ++
      s.queue.dlq)).Perm s.published := by
    refine List.perm_iff_count.mpr fun m => ?_
    rw [← h.count m, (h.held_perm hm).count_eq m]
    simp only [List.count_append, List.count_cons]
    omega
  have hnodup := (hperm.map (·.id)).nodup_iff.mpr h.distinct
  rw [List.map_cons, List.nodup_cons] at hnodup
  intro he
  apply hnodup.1
  have hmem' : m.id ∈ (s.queue.queue ++ (s.held.eraseP (·.id = message.id) ++ s.putting) ++
      s.queue.dlq).map (·.id) := List.mem_map_of_mem (List.mem_append_left _ hmem)
  rw [he] at hmem'
  exact hmem'

theorem count_held (h : Accounted R s) (hm : message ∈ s.held) :
    s.nacks.count message.id < maxRetries := by
  apply h.live message
  simp only [DeliveryState.delivered, List.mem_append, hm]
  tauto

theorem count_nacks_of_ne (s : DeliveryState P) {m : Message P} (hne : m.id ≠ message.id) :
    (s.nacks ++ [message.id]).count m.id = s.nacks.count m.id := by
  simp [List.count_append, hne.symm]

theorem count_nacks_self (s : DeliveryState P) (message : Message P) :
    (s.nacks ++ [message.id]).count message.id = s.nacks.count message.id + 1 := by
  simp [List.count_append]

/-- What a nack keeps, whatever becomes of the message: it goes to one place, and to the dead-letter
list if its count has reached the bound. -/
theorem of_nack (h : Accounted R s) (hm : message ∈ s.held) {queue dlq putting : List (Message P)}
    {retryCounts : Dict String Nat}
    (hcounts : retryCounts = s.queue.retryCounts.set message.id (s.queue.retryCounts.getD message.id 0 + 1))
    (hperm : (queue ++ putting ++ dlq).Perm (message :: (s.queue.queue ++ s.putting ++ s.queue.dlq)))
    (hlive : ∀ m ∈ queue ++ putting, m ∈ s.queue.queue ++ s.putting ∨
      m = message ∧ s.nacks.count message.id + 1 < maxRetries)
    (hdead : ∀ m ∈ dlq, m ∈ s.queue.dlq ∨ m = message ∧ maxRetries ≤ s.nacks.count message.id + 1) :
    Accounted R { s with
      queue := ⟨queue, dlq, retryCounts⟩
      held := s.held.eraseP (·.id = message.id)
      putting
      nacks := s.nacks ++ [message.id] } where
  issued := h.issued
  distinct := h.distinct
  shared := by
    classical
    refine List.perm_iff_count.mpr fun m => ?_
    have hmoved := hperm.count_eq m
    rw [← h.count m, (h.held_perm hm).count_eq m]
    simp only [DeliveryState.delivered, List.count_append, List.count_cons] at hmoved ⊢
    omega
  nacked := by
    intro id hid
    rcases List.mem_append.mp hid with hid | hid
    · exact h.nacked id hid
    · rw [List.mem_singleton.mp hid]
      exact List.mem_map_of_mem (h.mem_published hm)
  counted := by
    intro id
    dsimp only
    rw [hcounts, Dict.getD_set, List.count_append, h.counted, h.counted]
    split
    · rename_i hid
      simp [hid]
    · rename_i hid
      simp [hid]
  delivered := by
    intro id
    dsimp only
    rw [h.delivered, ((h.held_perm hm).map (·.id)).count_eq id, List.map_cons, List.count_cons,
      List.count_append, List.count_singleton]
    omega
  live := by
    intro m hmem
    have hcases : (m = message ∧ s.nacks.count message.id + 1 < maxRetries) ∨
        m ∈ s.queue.queue ++ (s.held.eraseP (·.id = message.id) ++ s.putting) := by
      have hm' := hlive m
      simp only [DeliveryState.delivered, List.mem_append] at hmem hm' ⊢
      tauto
    rcases hcases with ⟨rfl, hlt⟩ | hrest
    · rw [← count_nacks_self] at hlt
      exact hlt
    · dsimp only
      rw [count_nacks_of_ne s (h.alone hm hrest)]
      apply h.live m
      have herase : m ∈ s.held.eraseP (·.id = message.id) → m ∈ s.held := List.mem_of_mem_eraseP
      simp only [DeliveryState.delivered, List.mem_append] at hrest ⊢
      tauto
  dead := by
    intro m hmem
    have hcount := h.count_held hm
    dsimp only
    rcases hdead m hmem with hold | ⟨rfl, hge⟩
    · have hmax := h.dead m hold
      have hne : m.id ≠ message.id := by
        intro he
        rw [he] at hmax
        omega
      rw [count_nacks_of_ne s hne, hmax]
    · rw [count_nacks_self]
      omega

theorem nack (h : Accounted R s) (hm : message ∈ s.held) : Accounted R (s.step R (.nack message)) := by
  obtain ⟨count, hcount, hcases⟩ := s.queue.nack_cases message
  have htable := h.counted message.id
  rcases hcases with ⟨hge, he⟩ | ⟨hlt, he⟩ | ⟨hlt, he⟩
  · simp only [step, he, Option.toList_none, List.append_nil]
    apply h.of_nack hm (by rw [hcount])
    · rw [← List.append_assoc]
      exact List.perm_append_singleton _ _
    · exact fun m hmem => .inl hmem
    · intro m hmem
      rcases List.mem_append.mp hmem with hmem | hmem
      · exact .inl hmem
      · exact .inr ⟨List.mem_singleton.mp hmem, by omega⟩
  · simp only [step, he, Option.toList_none, List.append_nil]
    apply h.of_nack hm (by rw [hcount])
    · simp only [List.append_assoc, List.cons_append, List.nil_append]
      exact List.perm_middle
    · intro m hmem
      simp only [List.mem_append, List.mem_singleton] at hmem ⊢
      rcases hmem with (hmem | hmem) | hmem
      · exact .inl (.inl hmem)
      · exact .inr ⟨hmem, by omega⟩
      · exact .inl (.inr hmem)
    · exact fun m hmem => .inl hmem
  · simp only [step, he, Option.toList_some]
    apply h.of_nack hm (by rw [hcount])
    · rw [← List.append_assoc, List.append_assoc, List.singleton_append]
      exact List.perm_middle
    · intro m hmem
      simp only [List.mem_append, List.mem_singleton] at hmem ⊢
      rcases hmem with hmem | hmem | hmem
      · exact .inl (.inl hmem)
      · exact .inl (.inr hmem)
      · exact .inr ⟨hmem, by omega⟩
    · exact fun m hmem => .inl hmem

theorem step (h : Accounted R s) {call : QueueCall P} (hc : s.NacksHeld call) :
    Accounted R (s.step R call) := by
  cases call with
  | publish eventType payload => exact h.publish eventType payload
  | consumeOne => exact h.consumeOne
  | ack messageId => exact h
  | nack message => exact h.nack hc
  | resume => exact h.resume

/-! ## What a message has been through -/

/-- A message in a consumer's hands has been nacked less often than the bound, so its last delivery
still counts. -/
theorem deliveries_le (h : Accounted R s) {m : Message P} (hm : m ∈ s.published) :
    s.deliveries.count m.id ≤ maxRetries := by
  rw [h.delivered]
  have hids : (s.held.map (·.id)).Nodup := by
    have hsub : (s.held.map (·.id)).Sublist
        ((s.queue.queue ++ s.delivered ++ s.queue.dlq).map (·.id)) := by
      apply List.Sublist.map
      rw [DeliveryState.delivered]
      exact ((List.sublist_append_left _ _).trans (List.sublist_append_right _ _)).trans
        (List.sublist_append_left _ _)
    exact ((h.shared.map (·.id)).nodup_iff.mpr h.distinct).sublist hsub
  rcases em (m ∈ s.held) with hheld | hheld
  · have hlt := h.count_held hheld
    rw [hids.count, if_pos (List.mem_map_of_mem hheld)]
    omega
  · have hzero : (s.held.map (·.id)).count m.id = 0 := by
      rw [List.count_eq_zero]
      intro hid
      obtain ⟨m', hm', he⟩ := List.mem_map.mp hid
      apply hheld
      rw [← List.inj_on_of_nodup_map h.distinct (h.mem_published hm') hm he]
      exact hm'
    rw [hzero]
    rcases List.mem_append.mp (h.shared.mem_iff.mpr hm) with hlive | hdead
    · have hlt := h.live m hlive
      omega
    · have hmax := h.dead m hdead
      omega

theorem mem_dlq_iff (h : Accounted R s) {m : Message P} (hm : m ∈ s.published) :
    m ∈ s.queue.dlq ↔ s.nacks.count m.id = maxRetries := by
  refine ⟨h.dead m, ?_⟩
  intro hmax
  rcases List.mem_append.mp (h.shared.mem_iff.mpr hm) with hlive | hdead
  · have hlt := h.live m hlive
    omega
  · exact hdead

end Accounted

end DeliveryState

end ExpenseSettlement
