import ExpenseSettlement.Process.Lemmas.Locks
import ExpenseSettlement.Process.Lemmas.Serial

/-!
# Requests and the operations that take effect

An operation takes effect for one request, in the step in which the request leaves the service. What a
repeated request gets instead is the answer of the one that went through.
-/

namespace ExpenseSettlement

open Lib IdempotencyManager InMemoryCache

def Operation.request : Operation → Option CreateExpense
  | .createExpense req => some req
  | .createUser _ _ | .createGroup _ | .addMember _ _ | .settlementRequested _ => none

def Operation.settledGroup : Operation → Option String
  | .settlementRequested groupId => some groupId
  | .createUser _ _ | .createGroup _ | .addMember _ _ | .createExpense _ => none

/-- The service has been called for the request. -/
def Phase.TookEffect : Phase → Prop
  | .created _ | .failed _ | .done (.success _) | .done (.rejected _) | .done .crashed => True
  | .arrived | .refused | .creating | .done (.replayed _) | .done .conflict => False

namespace Process

variable {ι : Type} [DecidableEq ι] {R : Runtime} {p : ι → PostExpense} {s s' : Process ι} {c : ProcessStep ι}
  {i : ι} {now now' : ℚ} {key : String} {body : ExpenseResponse}

/-! ## Replayed responses -/

/-- A request under the key has been answered with the response. -/
def Origin (p : ι → PostExpense) (s : Process ι) (key : String) (body : ExpenseResponse) : Prop :=
  ∃ j, truthy (p j).idemKey = some key ∧ s.route.phase j = .done (.success body)

/-- The responses in the cache, and those that are replayed, are answers to requests under their keys. -/
structure Replies (p : ι → PostExpense) (s : Process ι) : Prop where
  cached : ∀ key value, s.world.cache.store.get? (makeKey key) = some value →
    value = .processing ∨ ∃ body, value = .response body ∧ Origin p s key body
  replayed : ∀ i body, s.route.phase i = .done (.replayed body) →
    ∃ key, truthy (p i).idemKey = some key ∧ Origin p s key body

omit [DecidableEq ι] in
theorem Replies.start (p : ι → PostExpense) : Replies p .start where
  cached := fun _ _ h => by cases h
  replayed := fun _ _ h => by cases h

omit [DecidableEq ι] in
theorem Replies.of_kept (h : s.Replies p) (hphase : s'.route.phase = s.route.phase)
    (hcache : ∀ key value, s'.world.cache.store.get? (makeKey key) = some value →
      s.world.cache.store.get? (makeKey key) = some value) : s'.Replies p := by
  have horigin : ∀ key body, Origin p s key body → Origin p s' key body := by
    rintro key body ⟨j, hj, hdone⟩
    exact ⟨j, hj, (congrFun hphase j).trans hdone⟩
  constructor
  · intro key value hv
    rcases h.cached key value (hcache key value hv) with hp | ⟨body, hb, ho⟩
    · exact .inl hp
    · exact .inr ⟨body, hb, horigin key body ho⟩
  · intro i body hi
    rw [hphase] at hi
    obtain ⟨key, hk, ho⟩ := h.replayed i body hi
    exact ⟨key, hk, horigin key body ho⟩

section Move

variable {before phase : Phase} {w : World}

/-- An answer is final. -/
theorem Origin.move (h : Origin p s key body) (hstep : RequestStep R (p i) now now' s.world before phase w)
    (hbefore : s.route.phase i = before) :
    Origin p { s with route := s.route.move i phase w } key body := by
  obtain ⟨j, hj, hdone⟩ := h
  refine ⟨j, hj, ?_⟩
  rw [RouteState.move_phase]
  by_cases hij : j = i
  · subst hij
    rw [hdone] at hbefore
    subst hbefore
    cases hstep with
    | idle => rw [Function.update_self]
  · rw [Function.update_of_ne hij]
    exact hdone

theorem Replies.move_cached (h : s.Replies p)
    (hstep : RequestStep R (p i) now now' s.world before phase w) (hbefore : s.route.phase i = before) :
    ∀ key value, w.cache.store.get? (makeKey key) = some value →
      value = .processing ∨
        ∃ body, value = .response body ∧ Origin p { s with route := s.route.move i phase w } key body := by
  have hkept : ∀ key value, s.world.cache.store.get? (makeKey key) = some value →
      value = .processing ∨
        ∃ body, value = .response body ∧ Origin p { s with route := s.route.move i phase w } key body := by
    intro key value hv
    rcases h.cached key value hv with hp | ⟨body, hb, ho⟩
    · exact .inl hp
    · exact .inr ⟨body, hb, ho.move hstep hbefore⟩
  intro key value hv
  by_cases hi : truthy (p i).idemKey = some key
  · cases hstep with
    | unlocked | keyless | rejected | answered | idle => exact hkept key value hv
    | raised he hr =>
        rw [hr.eq] at hv
        exact hkept key value hv
    | crashed | created => exact hkept key value hv
    | @locked key' cache hk ht =>
        obtain rfl : (tryLock now now' key' s.world.cache).2 = cache := congrArg Prod.snd ht
        rcases of_get?_set_or hv with ⟨-, rfl⟩ | hold
        · exact .inl rfl
        · exact hkept key value hold
    | refused hk ht => exact hkept key value (of_get?_set_false ht hv)
    | @looked key' raw cache hk hl =>
        obtain rfl : (lookUp now key' s.world.cache).2 = cache := congrArg Prod.snd hl
        exact hkept key value (of_get?_get hv)
    | released hk => exact hkept key value (of_get?_delete hv)
    | @stored response key' hk =>
        rcases of_get?_set_or hv with ⟨-, rfl⟩ | hold
        · refine .inr ⟨response, rfl, i, hi, ?_⟩
          rw [RouteState.move_phase, Function.update_self]
        · exact hkept key value hold
  · refine hkept key value (hstep.evolves.of_get? ?_ hv)
    rintro ⟨key', hkey', he⟩
    rw [makeKey_inj he] at hi
    exact hi hkey'

theorem Replies.move_replayed (h : s.Replies p)
    (hstep : RequestStep R (p i) now now' s.world before phase w) (hbefore : s.route.phase i = before) :
    ∀ j body, (s.route.move i phase w).phase j = .done (.replayed body) →
      ∃ key, truthy (p j).idemKey = some key ∧
        Origin p { s with route := s.route.move i phase w } key body := by
  intro j body hj
  rw [RouteState.move_phase] at hj
  by_cases hij : j = i
  · subst hij
    rw [Function.update_self] at hj
    have hstep' := hstep
    cases hstep with
    | @looked key raw cache hk hl =>
        cases raw with
        | none => cases hj
        | some value =>
            obtain ⟨hfound, -⟩ := get_eq_some hl
            rcases h.cached key value hfound with rfl | ⟨body', rfl, ho⟩
            · cases hj
            · cases hj
              exact ⟨key, hk, ho.move hstep' hbefore⟩
    | idle =>
        cases hj
        obtain ⟨key, hk, ho⟩ := h.replayed j body hbefore
        exact ⟨key, hk, ho.move hstep' hbefore⟩
    | unlocked | locked | refused | keyless | raised | crashed | created => cases hj
    | rejected | released | answered | stored => cases hj
  · rw [Function.update_of_ne hij] at hj
    obtain ⟨key, hk, ho⟩ := h.replayed j body hj
    exact ⟨key, hk, ho.move hstep hbefore⟩

theorem Replies.move (h : s.Replies p) (hstep : RequestStep R (p i) now now' s.world before phase w)
    (hbefore : s.route.phase i = before) : Replies p { s with route := s.route.move i phase w } where
  cached := h.move_cached hstep hbefore
  replayed := h.move_replayed hstep hbefore

end Move

theorem Replies.step (h : s.Replies p) (ho : s.Orderly R) (c : ProcessStep ι) : (s.step R p c).Replies p := by
  by_cases hc : ∃ i now now', c = .post i now now'
  · obtain ⟨i, now, now', rfl⟩ := hc
    obtain ⟨phase, w, hstep, he⟩ := s.route.advance_step R (p i) i now now'
    have hmoved : s.step R p (.post i now now') = { s with route := s.route.move i phase w } := by
      rw [Process.step, he]
    rw [hmoved]
    exact h.move hstep rfl
  · obtain ⟨hphase, hcache⟩ := requestEntries_of_ne (p := p) ho fun i now now' he => hc ⟨i, now, now', he⟩
    exact h.of_kept hphase hcache

/-! ## Requests that went through -/

theorem operations_concat (s : Process ι) (pre : List (ProcessStep ι)) (c : ProcessStep ι) :
    operations R p s (pre ++ [c]) =
      operations R p s pre ++ ((run (Process.step R p) s pre).operation p c).toList := by
  induction pre generalizing s with
  | nil => simp [operations]
  | cons c' pre ih =>
      rw [List.cons_append, operations, operations, ih, List.append_assoc]
      rfl

/-- The operations that create expenses are those of the requests, each its own. -/
structure Served (p : ι → PostExpense) (s : Process ι) (ops : List Operation) (requests : List ι) : Prop where
  distinct : requests.Nodup
  tookEffect : ∀ i, i ∈ requests ↔ (s.route.phase i).TookEffect
  created : ops.filterMap Operation.request = requests.map fun i => (p i).args

variable {ops : List Operation} {requests : List ι}

omit [DecidableEq ι] in
theorem Served.start (p : ι → PostExpense) : Served p .start [] [] where
  distinct := .nil
  tookEffect := fun i => by simp [Process.start, RouteState.start, Phase.TookEffect]
  created := rfl

omit [DecidableEq ι] in
/-- Only the step that calls the service makes the request one of those. -/
theorem Replies.tookEffect_iff (h : s.Replies p) {before phase : Phase} {w : World}
    (hstep : RequestStep R (p i) now now' s.world before phase w) (hbefore : before ≠ .creating) :
    phase.TookEffect ↔ before.TookEffect := by
  cases hstep with
  | raised | crashed | created => exact absurd rfl hbefore
  | unlocked | locked | refused | keyless | idle => exact Iff.rfl
  | rejected | released | answered | stored => exact Iff.rfl
  | @looked key raw cache hk hl =>
      cases raw with
      | none => exact Iff.rfl
      | some value =>
          obtain ⟨hfound, -⟩ := get_eq_some hl
          rcases h.cached key value hfound with rfl | ⟨body, rfl, -⟩
          · exact Iff.rfl
          · exact Iff.rfl

theorem Served.post (h : Served p s ops requests) (hr : s.Replies p) (i : ι) (now now' : ℚ) :
    ∃ requests', Served p (s.step R p (.post i now now'))
      (ops ++ (s.operation p (.post i now now')).toList) requests' := by
  obtain ⟨phase, w, hstep, he⟩ := s.route.advance_step R (p i) i now now'
  have hphase : (s.step R p (.post i now now')).route.phase = Function.update s.route.phase i phase := by
    rw [step, he]
    rfl
  by_cases hcreating : s.route.phase i = .creating
  · have hnew : i ∉ requests := by
      rw [h.tookEffect, hcreating]
      exact not_false
    have htook : phase.TookEffect := by
      rw [hcreating] at hstep
      cases hstep with
      | raised | crashed | created => trivial
    refine ⟨requests ++ [i], ?_, fun j => ?_, ?_⟩
    · rw [List.nodup_append]
      exact ⟨h.distinct, List.nodup_singleton i, fun j hj k hk => by
        rintro rfl
        exact hnew (List.mem_singleton.mp hk ▸ hj)⟩
    · rw [hphase, List.mem_append, List.mem_singleton]
      by_cases hij : j = i
      · subst hij
        rw [Function.update_self]
        exact iff_of_true (.inr rfl) htook
      · rw [Function.update_of_ne hij, ← h.tookEffect]
        exact or_iff_left hij
    · simp only [operation, hcreating, Option.toList_some, List.filterMap_append, h.created, List.map_append]
      rfl
  · have hnone : s.operation p (.post i now now') = none := by
      cases hbefore : s.route.phase i with
      | creating => exact absurd hbefore hcreating
      | arrived | refused | created | failed | done => simp only [operation, hbefore]
    refine ⟨requests, h.distinct, fun j => ?_, ?_⟩
    · rw [hphase]
      by_cases hij : j = i
      · subst hij
        rw [Function.update_self, hr.tookEffect_iff hstep hcreating]
        exact h.tookEffect j
      · rw [Function.update_of_ne hij]
        exact h.tookEffect j
    · rw [hnone, Option.toList_none, List.append_nil]
      exact h.created

omit [DecidableEq ι] in
theorem request_of_ne (hc : ∀ i now now', c ≠ .post i now now') :
    (s.operation p c).toList.filterMap Operation.request = [] := by
  cases c with
  | post i now now' => exact absurd rfl (hc i now now')
  | client call =>
      cases call with
      | createUser | createGroup | addMember | settle => rfl
  | balances | wake | put | consume => rfl
  | handle fails =>
      simp only [operation]
      split
      · rfl
      · split
        · rfl
        · rfl

theorem Served.step (h : Served p s ops requests) (hr : s.Replies p) (ho : s.Orderly R) (c : ProcessStep ι) :
    ∃ requests', Served p (s.step R p c) (ops ++ (s.operation p c).toList) requests' := by
  by_cases hc : ∃ i now now', c = .post i now now'
  · obtain ⟨i, now, now', rfl⟩ := hc
    exact h.post hr i now now'
  · have hne : ∀ i now now', c ≠ .post i now now' := fun i now now' he => hc ⟨i, now, now', he⟩
    obtain ⟨hphase, -⟩ := requestEntries_of_ne (p := p) ho hne
    refine ⟨requests, h.distinct, fun j => ?_, ?_⟩
    · rw [hphase]
      exact h.tookEffect j
    · rw [List.filterMap_append, request_of_ne hne, List.append_nil]
      exact h.created

theorem run_served (steps : List (ProcessStep ι)) :
    (run (Process.step R p) .start steps).Replies p ∧
      ∃ requests, Served p (run (Process.step R p) .start steps) (operations R p .start steps) requests := by
  induction steps using List.reverseRecOn with
  | nil => exact ⟨.start p, [], .start p⟩
  | append_singleton pre c ih =>
      obtain ⟨hr, requests, hserved⟩ := ih
      rw [run_concat, operations_concat]
      exact ⟨hr.step (run_orderly pre) c, hserved.step hr (run_orderly pre) c⟩

/-! ## Settlements -/

omit [DecidableEq ι] in
theorem settledGroup_of_ne (hc : ∀ fails, c ≠ .handle fails) :
    (s.operation p c).toList.filterMap Operation.settledGroup = [] := by
  cases c with
  | post i now now' =>
      cases hphase : s.route.phase i with
      | creating | arrived | refused | created | failed | done =>
          simp [operation, hphase, Operation.settledGroup]
  | client call =>
      cases call with
      | createUser | createGroup | addMember | settle => rfl
  | balances | wake | put | consume => rfl
  | handle fails => exact absurd rfl (hc fails)

/-- The worker settles a group for a message that asks for it. -/
theorem Consistent.settled_sublist (h : s.Consistent R)
    (hs : (ops.filterMap Operation.settledGroup).Sublist s.answered) (c : ProcessStep ι) :
    ((ops ++ (s.operation p c).toList).filterMap Operation.settledGroup).Sublist (s.step R p c).answered := by
  rw [List.filterMap_append]
  by_cases hc : ∃ fails, c = .handle fails
  · obtain ⟨fails, rfl⟩ := hc
    rcases handle_cases R p s fails with ⟨hcurrent, he⟩ | ⟨m, ok, w, hm⟩
    · rw [he]
      simpa [operation, hcurrent] using hs
    · rw [hm.answered]
      refine hs.append ?_
      simp only [operation, hm.current]
      split
      · rename_i hop
        rw [asked, if_pos (show m.content.1 = _ from hop.1)]
        exact List.Sublist.refl _
      · exact List.nil_sublist _
  · have hne : ∀ fails, c ≠ .handle fails := fun fails he => hc ⟨fails, he⟩
    rw [settledGroup_of_ne hne, List.append_nil, (h.unanswered hne).1]
    exact hs

theorem run_settled_sublist (steps : List (ProcessStep ι)) :
    ((operations R p .start steps).filterMap Operation.settledGroup).Sublist
      (run (Process.step R p) .start steps).answered := by
  induction steps using List.reverseRecOn with
  | nil => exact .slnil
  | append_singleton pre c ih =>
      rw [run_concat, operations_concat]
      exact (run_consistent pre).settled_sublist ih c

end Process

end ExpenseSettlement
