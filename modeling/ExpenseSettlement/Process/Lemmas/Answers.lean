import ExpenseSettlement.Process.Lemmas.Progress
import ExpenseSettlement.Process.Lemmas.Settlements

/-!
# Requests and their completion events

The worker completes a request only while it handles it, and it always does when nothing fails and the
group has expenses.
-/

namespace ExpenseSettlement

open Lib

variable {R : Runtime} {w w' : World} {groupId : String}

/-- The group that an event asks to settle. -/
def asked (content : String × EventPayload) : Option String :=
  if content.1 = EventType.settlementRequested.value then some content.2.groupId else none

/-- The groups of the events of a type. -/
def World.groupsOf (type : EventType) (w : World) : List String := (w.payloads type).map (·.groupId)

theorem groupsOf_requested (w : World) :
    w.groupsOf .settlementRequested = (w.outbox.events.map OutboxEvent.content).filterMap asked := by
  rw [World.groupsOf, World.payloads, List.map_map]
  induction w.outbox.events with
  | nil => rfl
  | cons e events ih =>
      rw [List.map_cons, List.filterMap_cons, ← ih, asked, OutboxEvent.content]
      dsimp only
      by_cases htype : e.eventType = EventType.settlementRequested.value
      · rw [List.filter_cons_of_pos (by simpa using htype), if_pos htype]
        rfl
      · rw [List.filter_cons_of_neg (by simpa using htype), if_neg htype]

/-! ## The handler -/

theorem HandleStep.completions {fails : Option HandlerCall} {ok : Bool}
    (h : HandleStep R groupId w fails ok w') :
    w'.groupsOf .settlementCompleted = w.groupsOf .settlementCompleted ∨
      w'.groupsOf .settlementCompleted = w.groupsOf .settlementCompleted ++ [groupId] := by
  cases h with
  | nothing | unread | unsummed | posted hp | saved hp => exact .inl rfl
  | completed hp =>
      refine .inr ?_
      rw [World.groupsOf, payloads_append (R := R) (w := w) rfl, if_pos rfl, List.map_append]
      rfl

/-- Where the handler does not raise and there are expenses, the request is completed. -/
theorem HandleStep.completes {fails : Option HandlerCall} {ok : Bool} (h : HandleStep R groupId w fails ok w')
    (hg : groupId ≠ "") (hx : w.store.getExpensesForGroup groupId ≠ []) (hr : ¬ Raises R fails groupId w) :
    w'.groupsOf .settlementCompleted = w.groupsOf .settlementCompleted ++ [groupId] := by
  cases h with
  | nothing hn => exact absurd hn (not_or.mpr ⟨hg, hx⟩)
  | unread => exact absurd ⟨hg, .inl rfl⟩ hr
  | unsummed hu => exact absurd ⟨hg, .inr ⟨hx, .inr hu.unsummed⟩⟩ hr
  | posted | saved => exact absurd ⟨hg, .inr ⟨hx, .inl nofun⟩⟩ hr
  | completed hp =>
      rw [World.groupsOf, payloads_append (R := R) (w := w) rfl, if_pos rfl, List.map_append]
      rfl

theorem HandleStep.expenses {fails : Option HandlerCall} {ok : Bool}
    (h : HandleStep R groupId w fails ok w') : w'.store.expenses = w.store.expenses := by
  cases h with
  | nothing | unread | unsummed | posted hp | saved hp | completed hp => rfl

theorem Untouched.groupsOf_completed (h : Untouched w w') :
    w'.groupsOf .settlementCompleted = w.groupsOf .settlementCompleted := by
  rw [World.groupsOf, h.completions, World.groupsOf]

namespace Process

variable {ι : Type} [DecidableEq ι] {p : ι → PostExpense} {s s₀ : Process ι} {n : ℕ}

/-- The groups of the requests that the worker is done with. -/
def answered (s : Process ι) : List String := (s.ended.map (·.1.content)).filterMap asked

/-- What a step other than the handler's leaves as it was. -/
theorem Consistent.unanswered (h : s.Consistent R) {c : ProcessStep ι} (hc : ∀ fails, c ≠ .handle fails) :
    (s.step R p c).answered = s.answered ∧
      (s.step R p c).world.groupsOf .settlementCompleted = s.world.groupsOf .settlementCompleted := by
  refine ⟨?_, (h.untouched hc).groupsOf_completed⟩
  have hended : (s.step R p c).ended = s.ended := by
    cases c with
    | consume =>
        rcases consume_cases R p s with ⟨he, -⟩ | ⟨m, rest, -, -, he⟩
        · rw [he]
        · rw [he]
    | handle fails => exact absurd rfl (hc fails)
    | post | client | balances | wake | put => rfl
  rw [answered, answered, hended]

omit [DecidableEq ι] in
theorem Handles.answered {fails : Option HandlerCall} {s' : Process ι} {m : Message EventPayload} {ok : Bool}
    (h : Handles R fails s s' m ok w) : s'.answered = s.answered ++ (asked m.content).toList := by
  rw [Process.answered, Process.answered, h.result, List.map_append, List.filterMap_append]
  cases hasked : asked m.content with
  | none => simp [hasked]
  | some groupId => simp [hasked]

/-- What the handler does with the message in the worker's hands. -/
theorem handle_answers (h : s.Orderly R) (p : ι → PostExpense) (fails : Option HandlerCall) :
    s.step R p (.handle fails) = s ∨
    ∃ m, s.current = some m ∧ (s.step R p (.handle fails)).answered = s.answered ++ (asked m.content).toList ∧
      ((asked m.content = none ∧ (s.step R p (.handle fails)).world = s.world) ∨
        ∃ ok, m.eventType = EventType.settlementRequested.value ∧ asked m.content = some m.payload.groupId ∧
          HandleStep R m.payload.groupId s.world fails ok (s.step R p (.handle fails)).world) := by
  rcases handle_cases R p s fails with ⟨-, he⟩ | ⟨m, ok, w, hm⟩
  · exact .inl he
  · refine .inr ⟨m, hm.current, hm.answered, ?_⟩
    rcases handle_world_cases h p fails with ⟨hw, hother⟩ | ⟨m', ok', hm', htype, hstep⟩
    · exact .inl ⟨if_neg (hother m hm.current), hw⟩
    · obtain rfl := Option.some.inj (hm.current.symm.trans hm')
      exact .inr ⟨ok', htype, if_pos htype, hstep⟩

/-! ## No completion without a request -/

theorem Consistent.completions_sublist (h : s.Consistent R)
    (hs : (s.world.groupsOf .settlementCompleted).Sublist s.answered) (c : ProcessStep ι) :
    ((s.step R p c).world.groupsOf .settlementCompleted).Sublist (s.step R p c).answered := by
  by_cases hc : ∃ fails, c = .handle fails
  · obtain ⟨fails, rfl⟩ := hc
    rcases handle_answers h.toOrderly p fails with
      he | ⟨m, -, hanswered, ⟨hnone, hw⟩ | ⟨ok, -, hsome, hstep⟩⟩
    · rw [he]
      exact hs
    · rw [hanswered, hnone, hw, Option.toList_none, List.append_nil]
      exact hs
    · rw [hanswered, hsome, Option.toList_some]
      rcases hstep.completions with he | he
      · rw [he]
        exact hs.trans (List.sublist_append_left _ _)
      · rw [he]
        exact hs.append (.refl _)
  · obtain ⟨hanswered, hcompleted⟩ := h.unanswered (p := p) fun fails he => hc ⟨fails, he⟩
    rw [hanswered, hcompleted]
    exact hs

theorem run_completions_sublist (steps : List (ProcessStep ι)) :
    ((run (Process.step R p) .start steps).world.groupsOf .settlementCompleted).Sublist
      (run (Process.step R p) .start steps).answered := by
  have hinv : (run (Process.step R p) .start steps).Consistent R ∧
      ((run (Process.step R p) .start steps).world.groupsOf .settlementCompleted).Sublist
        (run (Process.step R p) .start steps).answered := by
    apply run_invariant fun s : Process ι =>
      s.Consistent R ∧ (s.world.groupsOf .settlementCompleted).Sublist s.answered
    · rintro s c ⟨h, hs⟩
      exact ⟨h.step c, h.completions_sublist hs c⟩
    · exact ⟨.start, List.Sublist.refl _⟩
  exact hinv.2

/-! ## Every request is completed -/

theorem Consistent.grows (h : s.Consistent R) (c : ProcessStep ι) : Grows s.world (s.step R p c).world := by
  cases c with
  | post i now now' =>
      rcases advance_world (R := R) (p := p i) s.route i now now' with he | ⟨cache, he, -⟩
      · have hgrows : Grows s.world (s.route.world.step R (.createExpense (p i).args)) := h.wellFormed.grows _
        rw [← he] at hgrows
        exact hgrows
      · exact .of_expenses (congrArg (·.store.expenses) he)
  | client call => exact .of_expenses (call.exec_expenses R s.world)
  | balances groupId now now' now'' =>
      obtain ⟨cache, he, -⟩ := getBalances_world (R := R) groupId now now' now'' s.world
      exact .of_expenses (congrArg (·.store.expenses) he)
  | wake | put => exact .of_expenses rfl
  | consume =>
      rcases consume_cases R p s with ⟨he, -⟩ | ⟨m, rest, -, -, he⟩
      · rw [he]
        exact .of_expenses rfl
      · rw [he]
        exact .of_expenses rfl
  | handle fails =>
      rcases handle_world_cases h.toOrderly p fails with ⟨he, -⟩ | ⟨m, ok, -, -, hstep⟩
      · rw [he]
        exact .of_expenses rfl
      · exact .of_expenses hstep.expenses

/-- Two front parts of a list make up one. -/
theorem prefix_append_drop {α : Type} {front front' l : List α} (h : front <+: l) (h' : front' <+: l) :
    front ++ front'.drop front.length <+: l := by
  rcases List.prefix_or_prefix_of_prefix h h' with ⟨rest, rfl⟩ | hle
  · rw [List.drop_left]
    exact h'
  · rw [List.drop_eq_nil_of_le hle.length_le, List.append_nil]
    exact h

/-- Since `s₀`, as many requests of the group have been completed as have been handled. -/
structure Answering (R : Runtime) (groupId : String) (s₀ s : Process ι) : Prop where
  consistent : s.Consistent R
  spent : s.world.transactionsFor groupId ≠ []
  kept : s.answered.count groupId + (s₀.world.groupsOf .settlementCompleted).count groupId ≤
    s₀.answered.count groupId + (s.world.groupsOf .settlementCompleted).count groupId

/-- The worker handles a request of the group, and the handler raises. -/
def HandlerRaises (R : Runtime) (groupId : String) (s : Process ι) (c : ProcessStep ι) : Prop :=
  ∃ m fails, s.current = some m ∧ c = .handle fails ∧ m.eventType = EventType.settlementRequested.value ∧
    m.payload.groupId = groupId ∧ Raises R fails groupId s.world

theorem Answering.step (h : Answering R groupId s₀ s) (hg : groupId ≠ "") {c : ProcessStep ι}
    (hc : ¬ s.HandlerRaises R groupId c) : Answering R groupId s₀ (s.step R p c) := by
  refine ⟨h.consistent.step c, ?_, ?_⟩
  · obtain ⟨txs, htxs⟩ := h.consistent.grows (p := p) c groupId
    rw [← htxs]
    exact List.append_ne_nil_of_left_ne_nil h.spent txs
  · have hkept := h.kept
    by_cases hhandle : ∃ fails, c = .handle fails
    · obtain ⟨fails, rfl⟩ := hhandle
      rcases handle_answers h.consistent.toOrderly p fails with
        he | ⟨m, hcurrent, hanswered, ⟨hnone, hw⟩ | ⟨ok, htype, hsome, hstep⟩⟩
      · rw [he]
        exact hkept
      · rw [hanswered, hnone, hw, Option.toList_none, List.append_nil]
        exact hkept
      · rw [hanswered, hsome, Option.toList_some, List.count_append]
        by_cases hm : m.payload.groupId = groupId
        · rw [hm] at hstep ⊢
          have hx : s.world.store.getExpensesForGroup groupId ≠ [] := fun hnil =>
            h.spent (by rw [World.transactionsFor, hnil]; rfl)
          have hreturns : ¬ Raises R fails groupId s.world := fun hraises =>
            hc ⟨m, fails, hcurrent, rfl, htype, hm, hraises⟩
          rw [hstep.completes hg hx hreturns, List.count_append]
          omega
        · have hother : List.count groupId [m.payload.groupId] = 0 :=
            List.count_eq_zero.mpr fun hmem => hm (List.mem_singleton.mp hmem).symm
          have hmore : (s.world.groupsOf .settlementCompleted).count groupId ≤
              ((s.step R p (.handle fails)).world.groupsOf .settlementCompleted).count groupId := by
            rcases hstep.completions with he | he
            · rw [he]
            · rw [he]
              exact (List.sublist_append_left _ _).count_le _
          omega
    · obtain ⟨hanswered, hcompleted⟩ := h.consistent.unanswered (p := p) fun fails he => hhandle ⟨fails, he⟩
      rw [hanswered, hcompleted]
      exact hkept

end Process

end ExpenseSettlement
