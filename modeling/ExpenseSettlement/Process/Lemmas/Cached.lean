import ExpenseSettlement.Api.Lemmas.Groups
import ExpenseSettlement.Cache.Lemmas.Evolves
import ExpenseSettlement.Process.Lemmas.Answers

/-!
# Where cached balances come from

Only a balances request writes the balances of its group, and it writes what it has just computed.
Completing a settlement of the group deletes them.
-/

namespace ExpenseSettlement

open Lib IdempotencyManager InMemoryCache

variable {R : Runtime} {w w' : World} {groupId : String}

/-! ## Who writes where -/

/-- The keys of the idempotency manager. -/
def IsRequestKey (key : String) : Prop := ∃ idempotencyKey, key = makeKey idempotencyKey

theorem not_isRequestKey (groupId : String) : ¬ IsRequestKey (balancesKey groupId) :=
  fun ⟨key, hk⟩ => makeKey_ne_balancesKey key groupId hk.symm

/-- A request writes under its own key. -/
theorem RequestStep.evolves {p : PostExpense} {now now' : ℚ} {before phase : Phase}
    (h : RequestStep R p now now' w before phase w') :
    Evolves
      (fun key => ∃ idempotencyKey, truthy p.idemKey = some idempotencyKey ∧ key = makeKey idempotencyKey)
      w.cache w'.cache := by
  cases h with
  | unlocked | keyless | rejected | answered | idle | crashed | created => exact .refl
  | raised hraised hr =>
      rw [hr.eq]
      exact .refl
  | @locked key cache hk ht | @refused key cache hk ht =>
      obtain rfl : (tryLock now now' key w.cache).2 = cache := congrArg Prod.snd ht
      exact .set .refl _ _ ⟨key, hk, rfl⟩ _ _ _
  | @looked key raw cache hk hl =>
      obtain rfl : (lookUp now key w.cache).2 = cache := congrArg Prod.snd hl
      exact .get .refl _ _
  | released hk => exact .delete .refl _
  | stored hk => exact .set .refl _ _ ⟨_, hk, rfl⟩ _ _ _

theorem advance_evolves {ι : Type} [DecidableEq ι] {p : PostExpense} (s : RouteState ι) (i : ι)
    (now now' : ℚ) : Evolves IsRequestKey s.world.cache (s.advance R p i now now').world.cache := by
  obtain ⟨phase, w, hstep, he⟩ := s.advance_step R p i now now'
  rw [he, move_world]
  exact hstep.evolves.mono fun key ⟨idempotencyKey, _, hkey⟩ => ⟨idempotencyKey, hkey⟩

theorem ClientCall.exec_cache (R : Runtime) (call : ClientCall) (w : World) :
    (call.exec R w).cache = w.cache := by
  cases call with
  | createUser name email => exact (GroupService.createUser_quiet (R := R) name email w).cache
  | createGroup name => exact (GroupService.createGroup_quiet (R := R) name w).cache
  | addMember groupId userId => exact (GroupService.addMember_quiet (R := R) groupId userId w).cache
  | settle groupId requestedBy =>
      rw [ClientCall.exec, settleGroup]
      cases w.store.groups.get? groupId with
      | none => rfl
      | some group => rfl

theorem HandleStep.evolves {fails : Option HandlerCall} {ok : Bool} (h : HandleStep R groupId w fails ok w') :
    Evolves (fun _ => False) w.cache w'.cache := by
  cases h with
  | nothing | unread | unsummed | posted hp => exact .refl
  | @saved result acc call hp hcall =>
      cases call with
      | getExpensesForGroup | saveSettlements | deleteBalances => exact .refl
      | deleteDebts => exact .delete .refl _
      | appendEvent => exact .delete (.delete .refl _) _
  | completed hp => exact .delete (.delete .refl _) _

/-- What the handler leaves of a group's cached balances, and of the count of its completions. -/
theorem HandleStep.cached {fails : Option HandlerCall} {ok : Bool} {group : String}
    (h : HandleStep R group w fails ok w') {e : TtlEntry CacheValue ℚ}
    (he : w'.cache.entry (balancesKey groupId) = some e) :
    w.cache.entry (balancesKey groupId) = some e ∧
      (w'.groupsOf .settlementCompleted).count groupId = (w.groupsOf .settlementCompleted).count groupId := by
  refine ⟨h.evolves.of_entry not_false he, ?_⟩
  rcases h.completions with hc | hc
  · rw [hc]
  · by_cases hg : group = groupId
    · subst hg
      cases h with
      | nothing | unread | unsummed | posted hp | saved hp => rfl
      | completed hp =>
          -- the balances are deleted before the event is appended
          have hrest : Evolves (fun _ => False) (w.cache.delete (balancesKey group)).2
              ((w.cache.delete (balancesKey group)).2.delete s!"group:{group}:debts").2 := .delete .refl _
          have hkept := hrest.of_entry not_false he
          rw [entry_delete_self] at hkept
          cases hkept
    · have hnot : List.count groupId [group] = 0 :=
        List.count_eq_zero.mpr fun hmem => hg (List.mem_singleton.mp hmem).symm
      rw [hc, List.count_append, hnot, Nat.add_zero]

/-! ## The balances route -/

/-- The response that a balances request computes, and the entry that it writes. -/
structure Computes (R : Runtime) (groupId : String) (now now' now'' : ℚ) (w : World)
    (body : GroupBalancesResponse) : Prop where
  answers : (getBalances R groupId now now' now'' w).1 = .success body
  computed : body.cached = false
  listed : body.listed = (getGroupNetBalances groupId w).items

theorem getBalances_entry (groupId group : String) (now now' now'' : ℚ) (w : World)
    {e : TtlEntry CacheValue ℚ}
    (he : (getBalances R group now now' now'' w).2.cache.entry (balancesKey groupId) = some e) :
    w.cache.entry (balancesKey groupId) = some e ∨
      group = groupId ∧ ∃ body, Computes R groupId now now' now'' w body ∧
        e = ⟨.balances body, some (now'' + balancesTtlSeconds)⟩ := by
  have hget : Evolves (fun _ => False) w.cache (w.cache.get now (balancesKey group)).2 := .get .refl _ _
  cases hfound : w.cache.get now (balancesKey group) with
  | mk found cache =>
      rw [hfound] at hget
      cases found with
      | some value =>
          refine .inl (hget.of_entry not_false ?_)
          rw [← he]
          cases value <;> simp only [getBalances, hfound]
      | none =>
          cases hg : w.store.groups.get? group with
          | none =>
              refine .inl (hget.of_entry not_false ?_)
              rw [← he]
              simp only [getBalances, hfound, hg]
          | some record =>
              cases hentries : balanceEntries (getGroupNetBalances group w).items with
              | error error =>
                  refine .inl (hget.of_entry not_false ?_)
                  rw [← he]
                  simp only [getBalances, hfound, hg, hentries]
              | ok entries =>
                  by_cases hd : (balancesResponse group entries).dumps R = true
                  · simp only [getBalances, hfound, hg, hentries, if_pos hd] at he
                    by_cases hkey : group = groupId
                    · subst hkey
                      refine .inr ⟨rfl, balancesResponse group entries, ⟨?_, rfl, ?_⟩, ?_⟩
                      · simp only [getBalances, hfound, hg, hentries, if_pos hd]
                      · exact listed_balanceEntries hentries
                      · rw [entry_set_self] at he
                        exact (Option.some.inj he).symm
                    · rw [entry_set_of_ne (mt balancesKey_inj.mp hkey)] at he
                      exact .inl (hget.of_entry not_false (of_entry_evict he))
                  · refine .inl (hget.of_entry not_false ?_)
                    rw [← he]
                    simp only [getBalances, hfound, hg, hentries, if_neg hd]

theorem getBalances_cached {now now' now'' : ℚ} {body : GroupBalancesResponse}
    (h : getBalances R groupId now now' now'' w = (.success body, w')) (hc : body.cached = true) :
    ∃ stored, (w.cache.get now (balancesKey groupId)).1 = some (.balances stored) ∧
      body = { stored with cached := true } := by
  rcases getBalances_cases R groupId now now' now'' w with ⟨value, hhit⟩ | ⟨computed, cache, hmiss⟩ |
    ⟨outcome, cache, hfailed⟩
  · cases value with
    | balances stored =>
        rw [hhit.result stored rfl] at h
        cases h
        exact ⟨stored, hhit.found, rfl⟩
    | processing | response stored =>
        have hfound := hhit.found
        cases hget : w.cache.get now (balancesKey groupId) with
        | mk found cache =>
            rw [hget] at hfound
            cases hfound
            simp only [getBalances, hget] at h
            cases h
  · rw [hmiss.result] at h
    cases h
    cases hc.symm.trans hmiss.cached
  · have hnone := hfailed.listed
    rw [hfailed.result] at h
    cases h
    cases hnone

/-! ## Runs -/

namespace Process

variable {ι : Type} [DecidableEq ι] {p : ι → PostExpense} {s : Process ι}

/-- How many settlements of the group have been completed. -/
def completedCount (groupId : String) (s : Process ι) : ℕ :=
  (s.world.groupsOf .settlementCompleted).count groupId

/-- An entry was there before the step, or the step is the request that has computed it. -/
theorem Consistent.entry_cases (h : s.Consistent R) (c : ProcessStep ι) {e : TtlEntry CacheValue ℚ}
    (he : (s.step R p c).world.cache.entry (balancesKey groupId) = some e) :
    (s.step R p c).completedCount groupId = s.completedCount groupId ∧
      (s.world.cache.entry (balancesKey groupId) = some e ∨
        ∃ now now' now'' body, c = .balances groupId now now' now'' ∧
          Computes R groupId now now' now'' s.world body ∧
          e = ⟨.balances body, some (now'' + balancesTtlSeconds)⟩) := by
  have hcount : (∀ fails, c ≠ .handle fails) →
      (s.step R p c).completedCount groupId = s.completedCount groupId := fun hc => by
    rw [completedCount, (h.untouched hc).groupsOf_completed, completedCount]
  cases c with
  | post i now now' =>
      have hevolves := advance_evolves (R := R) (p := p i) s.route i now now'
      exact ⟨hcount nofun, .inl (hevolves.of_entry (not_isRequestKey groupId) he)⟩
  | client call =>
      have hcache : (s.step R p (.client call)).world.cache = s.world.cache := call.exec_cache R s.world
      rw [hcache] at he
      exact ⟨hcount nofun, .inl he⟩
  | balances group now now' now'' =>
      refine ⟨hcount nofun, ?_⟩
      rcases getBalances_entry groupId group now now' now'' s.world he with hold | ⟨rfl, body, hbody, rfl⟩
      · exact .inl hold
      · exact .inr ⟨now, now', now'', body, rfl, hbody, rfl⟩
  | wake => exact ⟨hcount nofun, .inl he⟩
  | put => exact ⟨hcount nofun, .inl he⟩
  | consume =>
      refine ⟨hcount nofun, .inl ?_⟩
      rcases consume_cases R p s with ⟨hs, -⟩ | ⟨m, rest, -, -, hs⟩
      · rw [hs] at he
        exact he
      · rw [hs] at he
        exact he
  | handle fails =>
      rcases handle_world_cases h.toOrderly p fails with ⟨hw, -⟩ | ⟨m, ok, -, -, hstep⟩
      · rw [hw] at he
        rw [completedCount, hw]
        exact ⟨rfl, .inl he⟩
      · obtain ⟨hold, hkept⟩ := hstep.cached he
        exact ⟨hkept, .inl hold⟩

/-- Every entry has been written by a request in the run, and no settlement completed since. -/
theorem run_entry (steps : List (ProcessStep ι)) {e : TtlEntry CacheValue ℚ}
    (he : (run (Process.step R p) .start steps).world.cache.entry (balancesKey groupId) = some e) :
    ∃ pre now now' now'' post body, steps = pre ++ .balances groupId now now' now'' :: post ∧
      Computes R groupId now now' now'' (run (Process.step R p) .start pre).world body ∧
      e = ⟨.balances body, some (now'' + balancesTtlSeconds)⟩ ∧
      (run (Process.step R p) .start steps).completedCount groupId =
        (run (Process.step R p) .start pre).completedCount groupId := by
  induction steps using List.reverseRecOn with
  | nil => cases he
  | append_singleton steps c ih =>
      rw [run_concat] at he ⊢
      obtain ⟨hcount, hold | ⟨now, now', now'', body, rfl, hbody, rfl⟩⟩ :=
        (run_consistent steps).entry_cases c he
      · obtain ⟨pre, now, now', now'', post, body, rfl, hbody, rfl, hsame⟩ := ih hold
        exact ⟨pre, now, now', now'', post ++ [c], body, by simp, hbody, rfl, hcount.trans hsame⟩
      · exact ⟨steps, now, now', now'', [], body, rfl, hbody, rfl, hcount⟩

end Process

end ExpenseSettlement
