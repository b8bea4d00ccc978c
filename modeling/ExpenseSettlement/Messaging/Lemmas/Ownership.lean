import ExpenseSettlement.Lib.Run
import ExpenseSettlement.Messaging.Relay

/-!
# Who has an event

An event is with the pending queue, with one relay, or with the queue of messages, and never with two
of them. When a relay gives it up without the queue having it, nobody has it any more.
-/

namespace ExpenseSettlement.RelayState

open Lib

variable {ι P : Type} {R : Runtime} {s : RelayState ι P} {r : ι} {position count : Nat}

structure Owned (s : RelayState ι P) : Prop where
  pending_lt : ∀ n ∈ s.outbox.pending, n < s.outbox.events.length
  accepted_lt : ∀ n ∈ s.accepted, n < s.outbox.events.length
  busy_lt : ∀ r n count, s.relay r = .publishing n count → n < s.outbox.events.length
  pending_nodup : s.outbox.pending.Nodup
  pending_accepted : ∀ n ∈ s.outbox.pending, n ∉ s.accepted
  busy_free : ∀ r n count, s.relay r = .publishing n count → n ∉ s.outbox.pending ∧ n ∉ s.accepted
  busy_unique : ∀ r r' n count count', s.relay r = .publishing n count →
    s.relay r' = .publishing n count' → r = r'

/-- The event is with nobody. -/
structure Lost (position : Nat) (s : RelayState ι P) : Prop where
  appended : position < s.outbox.events.length
  not_pending : position ∉ s.outbox.pending
  not_busy : ∀ r count, s.relay r ≠ .publishing position count
  not_accepted : position ∉ s.accepted

/-- Every event is with somebody. -/
def Tracked (s : RelayState ι P) : Prop :=
  ∀ position e, s.outbox.events[position]? = some e →
    position ∈ s.outbox.pending ∨ (∃ r count, s.relay r = .publishing position count) ∨
      e.isPublished = true ∧ position ∈ s.accepted

theorem Lost.not_kept (h : Lost position s) : ¬ s.Kept := by
  intro hk
  rcases hk position _ (List.getElem?_eq_getElem h.appended) with hp | ⟨_, ha⟩
  · exact h.not_pending hp
  · exact h.not_accepted ha

theorem Tracked.kept (h : Tracked s) (hq : s.Quiescent) : s.Kept := by
  intro position e he
  rcases h position e he with hp | ⟨r, count, hr⟩ | ha
  · exact Or.inl hp
  · exact absurd hr (hq r position count)
  · exact Or.inr ha

theorem init_owned (d : Draws) : Owned (init d : RelayState ι P) where
  pending_lt := nofun
  accepted_lt := nofun
  busy_lt := nofun
  pending_nodup := List.nodup_nil
  pending_accepted := nofun
  busy_free := nofun
  busy_unique := nofun

theorem init_tracked (d : Draws) : Tracked (init d : RelayState ι P) := nofun

/-! ## The parts of a step -/

section Parts

variable [DecidableEq ι] {relay : ι → Relay} {phase : Relay}

theorem idle_ne (n count : Nat) : Relay.idle ≠ .publishing n count := nofun

theorem returned_ne (c n count : Nat) : Relay.returned c ≠ .publishing n count := nofun

theorem busy_of_update (hphase : ∀ n count, phase ≠ .publishing n count) {r' : ι} {n count : Nat}
    (h : Function.update relay r phase r' = .publishing n count) :
    r' ≠ r ∧ relay r' = .publishing n count := by
  by_cases hr : r' = r
  · rw [hr, Function.update_self] at h
    exact absurd h (hphase n count)
  · rw [Function.update_of_ne hr] at h
    exact ⟨hr, h⟩

theorem busy_of_take {r' : ι} {position count n count' : Nat}
    (h : Function.update relay r (.publishing position count) r' = .publishing n count') :
    (r' = r ∧ n = position) ∨ relay r' = .publishing n count' := by
  by_cases hr : r' = r
  · rw [hr, Function.update_self] at h
    cases h
    exact Or.inl ⟨hr, rfl⟩
  · rw [Function.update_of_ne hr] at h
    exact Or.inr h

theorem next_cases (r : ι) (count : Nat) (s : RelayState ι P) :
    (s.outbox.pending = [] ∧
      s.next r count = { s with relay := Function.update s.relay r (.returned count) }) ∨
    ∃ position rest, s.outbox.pending = position :: rest ∧
      s.next r count =
        { s with
          outbox := { s.outbox with pending := rest }
          relay := Function.update s.relay r (.publishing position count) } := by
  unfold next
  cases hp : s.outbox.pending with
  | nil => exact Or.inl ⟨rfl, rfl⟩
  | cons position rest => exact Or.inr ⟨position, rest, rfl, rfl⟩

theorem step_induction {Inv : RelayState ι P → Prop} {c : RelayCall ι P} (h : Inv s)
    (happend : ∀ eventType aggregateId payload, c = .append eventType aggregateId payload →
      Inv (s.step R c))
    (hnext : ∀ s r count, Inv s → (∀ n count, s.relay r ≠ .publishing n count) → Inv (s.next r count))
    (haccept : ∀ r position count, s.relay r = .publishing position count → Inv (s.accept r position))
    (hdrop : ∀ r position count, c = .raised r → s.relay r = .publishing position count →
      Inv (s.drop r)) : Inv (s.step R c) := by
  have hidle : ∀ r n count, Function.update s.relay r .idle r ≠ .publishing n count := by
    intro r n count he
    rw [Function.update_self] at he
    cases he
  cases c with
  | append eventType aggregateId payload => exact happend _ _ _ rfl
  | relay r =>
      cases hr : s.relay r with
      | idle =>
          simp only [step, hr]
          exact hnext s r 0 h (by rw [hr]; nofun)
      | publishing position count =>
          simp only [step, hr]
          exact h
      | returned count =>
          simp only [step, hr]
          exact hnext s r 0 h (by rw [hr]; nofun)
  | published r =>
      cases hr : s.relay r with
      | idle =>
          simp only [step, hr]
          exact h
      | publishing position count =>
          simp only [step, hr]
          exact hnext _ r _ (haccept r position count hr) (hidle r)
      | returned count =>
          simp only [step, hr]
          exact h
  | raised r =>
      cases hr : s.relay r with
      | idle =>
          simp only [step, hr]
          exact h
      | publishing position count =>
          simp only [step, hr]
          exact hnext _ r _ (hdrop r position count rfl hr) (hidle r)
      | returned count =>
          simp only [step, hr]
          exact h

end Parts

variable [DecidableEq ι]

section Append

variable (eventType aggregateId : String) (payload : P)

theorem append_events :
    ∃ e, (s.step R (.append eventType aggregateId payload)).outbox.events = s.outbox.events ++ [e] ∧
      (s.step R (.append eventType aggregateId payload)).outbox.pending =
        s.outbox.pending ++ [s.outbox.events.length] := ⟨_, rfl, rfl⟩

end Append

/-! ## One owner -/

namespace Owned

theorem append (h : Owned s) (eventType aggregateId : String) (payload : P) :
    Owned (s.step R (.append eventType aggregateId payload)) := by
  obtain ⟨e, he, hp⟩ := append_events (R := R) (s := s) eventType aggregateId payload
  refine ⟨?_, ?_, ?_, ?_, ?_, ?_, h.busy_unique⟩
  · intro n hn
    rw [hp, List.mem_append, List.mem_singleton] at hn
    rw [he, List.length_append, List.length_singleton]
    rcases hn with hn | rfl
    · exact (h.pending_lt n hn).trans (Nat.lt_succ_self _)
    · exact Nat.lt_succ_self _
  · intro n hn
    rw [he, List.length_append, List.length_singleton]
    exact (h.accepted_lt n hn).trans (Nat.lt_succ_self _)
  · intro r n count hr
    rw [he, List.length_append, List.length_singleton]
    exact (h.busy_lt r n count hr).trans (Nat.lt_succ_self _)
  · rw [hp, List.nodup_append]
    refine ⟨h.pending_nodup, List.pairwise_singleton _ _, fun n hn m hm hnm => ?_⟩
    have hlt := h.pending_lt n hn
    rw [hnm, List.mem_singleton.mp hm] at hlt
    exact Nat.lt_irrefl _ hlt
  · intro n hn ha
    rw [hp, List.mem_append, List.mem_singleton] at hn
    rcases hn with hn | rfl
    · exact h.pending_accepted n hn ha
    · exact Nat.lt_irrefl _ (h.accepted_lt _ ha)
  · intro r n count hr
    rw [hp, List.mem_append, List.mem_singleton, not_or]
    obtain ⟨hn, ha⟩ := h.busy_free r n count hr
    exact ⟨⟨hn, (h.busy_lt r n count hr).ne⟩, ha⟩

theorem without (h : Owned s) {phase : Relay} (hphase : ∀ n count, phase ≠ .publishing n count) (r : ι) :
    Owned { s with relay := Function.update s.relay r phase } where
  pending_lt := h.pending_lt
  accepted_lt := h.accepted_lt
  busy_lt := fun r' n count hr' => h.busy_lt r' n count (busy_of_update hphase hr').2
  pending_nodup := h.pending_nodup
  pending_accepted := h.pending_accepted
  busy_free := fun r' n count hr' => h.busy_free r' n count (busy_of_update hphase hr').2
  busy_unique := fun r' r'' n count count' hr' hr'' =>
    h.busy_unique r' r'' n count count' (busy_of_update hphase hr').2 (busy_of_update hphase hr'').2

/-- A relay that has no event takes one from the pending queue. -/
theorem next (h : Owned s) (r : ι) (count : Nat) : Owned (s.next r count) := by
  rcases next_cases r count s with ⟨_, he⟩ | ⟨position, rest, hp, he⟩
  · rw [he]
    exact h.without (returned_ne count) r
  · rw [he]
    have hmem : ∀ n ∈ rest, n ∈ s.outbox.pending := fun n hn => by
      rw [hp]
      exact List.mem_cons_of_mem _ hn
    have hpos : position ∈ s.outbox.pending := by rw [hp]; exact List.mem_cons_self
    have hnodup := h.pending_nodup
    rw [hp, List.nodup_cons] at hnodup
    refine ⟨fun n hn => h.pending_lt n (hmem n hn), h.accepted_lt, ?_, hnodup.2,
      fun n hn => h.pending_accepted n (hmem n hn), ?_, ?_⟩
    · intro r' n count' hr'
      rcases busy_of_take hr' with ⟨_, rfl⟩ | hold
      · exact h.pending_lt n hpos
      · exact h.busy_lt r' n count' hold
    · intro r' n count' hr'
      rcases busy_of_take hr' with ⟨_, rfl⟩ | hold
      · exact ⟨hnodup.1, h.pending_accepted n hpos⟩
      · obtain ⟨hn, ha⟩ := h.busy_free r' n count' hold
        exact ⟨fun hr => hn (hmem n hr), ha⟩
    · intro r' r'' n count' count'' hr' hr''
      rcases busy_of_take hr' with ⟨rfl, rfl⟩ | hold <;>
        rcases busy_of_take hr'' with ⟨rfl, hn⟩ | hold'
      · rfl
      · exact absurd hpos (h.busy_free r'' n count'' hold').1
      · rw [hn] at hold
        exact absurd hpos (h.busy_free r' position count' hold).1
      · exact h.busy_unique r' r'' n count' count'' hold hold'

theorem accept (h : Owned s) (hr : s.relay r = .publishing position count) :
    Owned (s.accept r position) := by
  have hlen : (s.accept r position).outbox.events.length = s.outbox.events.length :=
    List.length_modify _ _ _
  refine ⟨?_, ?_, ?_, h.pending_nodup, ?_, ?_, (h.without idle_ne r).busy_unique⟩
  · rw [hlen]
    exact h.pending_lt
  · intro n hn
    rw [hlen]
    rcases List.mem_append.mp hn with hn | hn
    · exact h.accepted_lt n hn
    · rw [List.mem_singleton.mp hn]
      exact h.busy_lt r position count hr
  · intro r' n count' hr'
    rw [hlen]
    exact (h.without idle_ne r).busy_lt r' n count' hr'
  · intro n hn ha
    rcases List.mem_append.mp ha with ha | ha
    · exact h.pending_accepted n hn ha
    · rw [List.mem_singleton.mp ha] at hn
      exact (h.busy_free r position count hr).1 hn
  · intro r' n count' hr'
    obtain ⟨hne, hold⟩ := busy_of_update idle_ne hr'
    obtain ⟨hn, ha⟩ := h.busy_free r' n count' hold
    refine ⟨hn, fun hm => ?_⟩
    rcases List.mem_append.mp hm with hm | hm
    · exact ha hm
    · rw [List.mem_singleton.mp hm] at hold
      exact hne (h.busy_unique r' r position count' count hold hr)

theorem step (h : Owned s) (c : RelayCall ι P) : Owned (s.step R c) := by
  refine step_induction h ?_ (fun _ r count h _ => h.next r count) (fun _ _ _ hr => h.accept hr)
    (fun r _ _ _ _ => h.without idle_ne r)
  rintro eventType aggregateId payload rfl
  exact h.append eventType aggregateId payload

end Owned

/-! ## No owner -/

namespace Lost

theorem without (h : Lost position s) {phase : Relay} (hphase : ∀ n count, phase ≠ .publishing n count)
    (r : ι) : Lost position { s with relay := Function.update s.relay r phase } :=
  ⟨h.appended, h.not_pending, fun r' count hr' => h.not_busy r' count (busy_of_update hphase hr').2,
    h.not_accepted⟩

theorem next (h : Lost position s) (r : ι) (count : Nat) : Lost position (s.next r count) := by
  rcases next_cases r count s with ⟨_, he⟩ | ⟨head, rest, hp, he⟩
  · rw [he]
    exact h.without (returned_ne count) r
  · rw [he]
    have hnot := h.not_pending
    rw [hp, List.mem_cons, not_or] at hnot
    refine ⟨h.appended, hnot.2, fun r' count' hr' => ?_, h.not_accepted⟩
    rcases busy_of_take hr' with ⟨_, hn⟩ | hold
    · exact hnot.1 hn
    · exact h.not_busy r' count' hold

theorem step (h : Lost position s) (c : RelayCall ι P) : Lost position (s.step R c) := by
  refine step_induction h ?_ (fun _ r count h _ => h.next r count) ?_ ?_
  · rintro eventType aggregateId payload rfl
    obtain ⟨e, he, hp⟩ := append_events (R := R) (s := s) eventType aggregateId payload
    refine ⟨?_, ?_, h.not_busy, h.not_accepted⟩
    · rw [he, List.length_append, List.length_singleton]
      exact h.appended.trans (Nat.lt_succ_self _)
    · rw [hp, List.mem_append, List.mem_singleton, not_or]
      exact ⟨h.not_pending, h.appended.ne⟩
  · intro r n count hr
    refine ⟨?_, h.not_pending, (h.without idle_ne r).not_busy, ?_⟩
    · exact h.appended.trans_eq (List.length_modify _ _ _).symm
    · intro hm
      rcases List.mem_append.mp hm with hm | hm
      · exact h.not_accepted hm
      · rw [List.mem_singleton.mp hm] at h
        exact h.not_busy r count hr
  · intro r n count _ _
    exact h.without idle_ne r

theorem of_raises {c : RelayCall ι P} (h : Owned s) (hc : Raises s c) :
    ∃ position, Lost position (s.step R c) := by
  obtain ⟨r, position, count, rfl, hr⟩ := hc
  have hlost : Lost position (s.drop r) := by
    obtain ⟨hn, ha⟩ := h.busy_free r position count hr
    refine ⟨h.busy_lt r position count hr, hn, fun r' count' hr' => ?_, ha⟩
    obtain ⟨hne, hold⟩ := busy_of_update idle_ne hr'
    exact hne (h.busy_unique r' r position count' count hold hr)
  refine ⟨position, ?_⟩
  simp only [RelayState.step, hr]
  exact hlost.next r count

end Lost

/-! ## Some owner -/

theorem Tracked.next (h : Tracked s) (hr : ∀ n count, s.relay r ≠ .publishing n count) (count : Nat) :
    Tracked (s.next r count) := by
  intro position e he
  have hkeep : ∀ {r'} {count'} (phase : Relay), s.relay r' = .publishing position count' →
      Function.update s.relay r phase r' = .publishing position count' := by
    intro r' count' phase hb
    have hne : r' ≠ r := by
      rintro rfl
      exact hr position count' hb
    exact (Function.update_of_ne hne _ _).trans hb
  rcases next_cases r count s with ⟨_, hs⟩ | ⟨head, rest, hp, hs⟩
  · rw [hs] at he ⊢
    rcases h position e he with hpend | ⟨r', count', hb⟩ | ha
    · exact Or.inl hpend
    · exact Or.inr (Or.inl ⟨r', count', hkeep _ hb⟩)
    · exact Or.inr (Or.inr ha)
  · rw [hs] at he ⊢
    rcases h position e he with hpend | ⟨r', count', hb⟩ | ha
    · rw [hp] at hpend
      rcases List.mem_cons.mp hpend with rfl | hpend
      · exact Or.inr (Or.inl ⟨r, count, Function.update_self _ _ _⟩)
      · exact Or.inl hpend
    · exact Or.inr (Or.inl ⟨r', count', hkeep _ hb⟩)
    · exact Or.inr (Or.inr ha)

theorem Tracked.accept (h : Tracked s) (hr : s.relay r = .publishing position count) :
    Tracked (s.accept r position) := by
  intro n e he
  have hmod : (s.outbox.events.modify position fun e => { e with isPublished := true })[n]? = some e := he
  rw [List.getElem?_modify] at hmod
  cases hold : s.outbox.events[n]? with
  | none =>
      rw [hold] at hmod
      cases hmod
  | some e₀ =>
      rw [hold] at hmod
      simp only [Option.map_eq_map, Option.map_some, Option.some.injEq] at hmod
      by_cases hn : position = n
      · rw [if_pos hn] at hmod
        refine Or.inr (Or.inr ⟨?_, ?_⟩)
        · rw [← hmod]
        · rw [← hn]
          exact List.mem_append_right _ (List.mem_singleton_self _)
      · rw [if_neg hn] at hmod
        subst hmod
        rcases h n e₀ hold with hpend | ⟨r', count', hb⟩ | ⟨hpub, ha⟩
        · exact Or.inl hpend
        · refine Or.inr (Or.inl ⟨r', count', ?_⟩)
          have hne : r' ≠ r := by
            rintro rfl
            rw [hr] at hb
            cases hb
            exact hn rfl
          exact (Function.update_of_ne hne _ _).trans hb
        · exact Or.inr (Or.inr ⟨hpub, List.mem_append_left _ ha⟩)

theorem Tracked.step {c : RelayCall ι P} (h : Tracked s) (hc : ¬ Raises s c) : Tracked (s.step R c) := by
  refine step_induction h ?_ (fun _ _ count h hr => h.next hr count) (fun _ _ _ hr => h.accept hr)
    (fun r position count he hr => absurd ⟨r, position, count, he, hr⟩ hc)
  rintro eventType aggregateId payload rfl position e he
  obtain ⟨e', he', hp⟩ := append_events (R := R) (s := s) eventType aggregateId payload
  rw [he'] at he
  rw [hp]
  rcases Nat.lt_or_ge position s.outbox.events.length with hlt | hge
  · rw [List.getElem?_append_left hlt] at he
    rcases h position e he with hpend | hb | ha
    · exact Or.inl (List.mem_append_left _ hpend)
    · exact Or.inr (Or.inl hb)
    · exact Or.inr (Or.inr ha)
  · have hlt : position < (s.outbox.events ++ [e']).length := (List.getElem?_eq_some_iff.mp he).1
    rw [List.length_append, List.length_singleton] at hlt
    have hpos : position = s.outbox.events.length := by omega
    rw [hpos]
    exact Or.inl (List.mem_append_right _ (List.mem_singleton_self _))

end ExpenseSettlement.RelayState
