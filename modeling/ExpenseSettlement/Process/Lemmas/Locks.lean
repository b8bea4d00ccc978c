import ExpenseSettlement.Api.Lemmas.Gate
import ExpenseSettlement.Process.Lemmas.Cached

/-!
# Who holds an idempotency key

A key is marked as being processed by the request that goes on to create its expense. The mark is gone
when that request ends, unless it ends without its response.
-/

namespace ExpenseSettlement

open Lib IdempotencyManager InMemoryCache

variable {R : Runtime} {w w' : World}

theorem fmtExpense_error_iff {e : ExpenseRecord} :
    (∃ err, fmtExpense R e = .error err) ↔ floatLimit ≤ |e.totalCents| := by
  rw [fmtExpense]
  split
  · have hnonneg := abs_nonneg e.totalCents
    simp only [Except.error.injEq, exists_eq', true_iff]
    omega
  · split
    · simpa
    · simpa using lt_of_not_ge ‹_›

theorem getBalances_evolves (groupId : String) (now now' now'' : ℚ) (w : World) :
    Evolves (· = balancesKey groupId) w.cache (getBalances R groupId now now' now'' w).2.cache := by
  have hget : Evolves (· = balancesKey groupId) w.cache (w.cache.get now (balancesKey groupId)).2 :=
    .get .refl _ _
  rw [getBalances]
  cases hfound : w.cache.get now (balancesKey groupId) with
  | mk found cache =>
      rw [hfound] at hget
      cases found with
      | some value => cases value <;> exact hget
      | none =>
          dsimp only
          cases w.store.groups.get? groupId with
          | none => exact hget
          | some group =>
              dsimp only
              cases balanceEntries (getGroupNetBalances groupId w).items with
              | error e => exact hget
              | ok entries =>
                  dsimp only
                  split
                  · exact .set hget _ _ rfl _ _ _
                  · exact hget

namespace Process

variable {ι : Type} [DecidableEq ι] {p : ι → PostExpense} {s : Process ι} {i : ι} {now now' : ℚ}

/-- The request has the key, and has not ended since it was let through. -/
def UnderWay (p : ι → PostExpense) (key : String) (s : Process ι) (i : ι) : Prop :=
  truthy (p i).idemKey = some key ∧ (s.route.phase i).Holding

/-- Every key that is marked as being processed has a request under way. -/
def LocksHeld (p : ι → PostExpense) (s : Process ι) : Prop :=
  ∀ key, s.world.cache.store.get? (makeKey key) = some .processing → ∃ i, s.UnderWay p key i

/-- The only request under way for a marked key creates an expense whose total is out of a float's range. -/
def Overflows (R : Runtime) (p : ι → PostExpense) (s : Process ι) (c : ProcessStep ι) : Prop :=
  ∃ i now now' key, c = .post i now now' ∧ s.route.phase i = .creating ∧
    (∃ e w, createExpense R (p i).args s.world = (.ok e, w) ∧ floatLimit ≤ |e.totalCents|) ∧
    truthy (p i).idemKey = some key ∧ s.world.cache.store.get? (makeKey key) = some .processing ∧
    ∀ j, s.UnderWay p key j → j = i

omit [DecidableEq ι] in
theorem LocksHeld.start (p : ι → PostExpense) : LocksHeld p .start := fun _ h => by cases h

omit [DecidableEq ι] in
theorem LocksHeld.of_cache (h : s.LocksHeld p) {s' : Process ι} (hphase : s'.route.phase = s.route.phase)
    (hcache : ∀ key value, s'.world.cache.store.get? (makeKey key) = some value →
      s.world.cache.store.get? (makeKey key) = some value) : s'.LocksHeld p := by
  intro key hkey
  obtain ⟨i, hi, hholding⟩ := h key (hcache key _ hkey)
  refine ⟨i, hi, ?_⟩
  rw [hphase]
  exact hholding

/-! ## A request moves on -/

theorem underWay_move_of_ne {phase : Phase} {w : World} {key : String} {j : ι} (hj : j ≠ i) :
    UnderWay p key { s with route := s.route.move i phase w } j ↔ s.UnderWay p key j := by
  rw [UnderWay, UnderWay]
  dsimp only
  rw [RouteState.move_phase, Function.update_of_ne hj]

theorem underWay_move_self {phase : Phase} {w : World} {key : String} :
    UnderWay p key { s with route := s.route.move i phase w } i ↔
      truthy (p i).idemKey = some key ∧ phase.Holding := by
  rw [UnderWay]
  dsimp only
  rw [RouteState.move_phase, Function.update_self]

section Move

variable {before phase : Phase}

/-- The keys of other requests stay as they are. -/
theorem LocksHeld.move (h : s.LocksHeld p) (hstep : RequestStep R (p i) now now' s.world before phase w)
    (hown : ∀ key, truthy (p i).idemKey = some key → w.cache.store.get? (makeKey key) = some .processing →
      ∃ j, UnderWay p key { s with route := s.route.move i phase w } j) :
    LocksHeld p { s with route := s.route.move i phase w } := by
  intro key hkey
  by_cases hi : truthy (p i).idemKey = some key
  · exact hown key hi hkey
  · have hold : s.world.cache.store.get? (makeKey key) = some .processing := by
      refine hstep.evolves.of_get? ?_ hkey
      rintro ⟨key', hkey', he⟩
      rw [makeKey_inj he] at hi
      exact hi hkey'
    obtain ⟨j, hj⟩ := h key hold
    have hne : j ≠ i := by
      rintro rfl
      exact hi hj.1
    exact ⟨j, (underWay_move_of_ne hne).mpr hj⟩

/-- A key that the request does not mark itself is another one's. -/
theorem LocksHeld.others (h : s.LocksHeld p) (hi : ¬ (s.route.phase i).Holding) {key : String}
    (hkey : s.world.cache.store.get? (makeKey key) = some .processing) :
    ∃ j, UnderWay p key { s with route := s.route.move i phase w } j := by
  obtain ⟨j, hj⟩ := h key hkey
  have hne : j ≠ i := by
    rintro rfl
    exact hi hj.2
  exact ⟨j, (underWay_move_of_ne hne).mpr hj⟩

/-- All but a crash leave the keys to requests that are under way. -/
theorem LocksHeld.advance (h : s.LocksHeld p) (hstep : RequestStep R (p i) now now' s.world before phase w)
    (hbefore : s.route.phase i = before) (hcrash : before = .creating → phase ≠ .done .crashed) :
    LocksHeld p { s with route := s.route.move i phase w } := by
  refine h.move hstep fun key hkey hmarked => ?_
  have hself : phase.Holding → ∃ j, UnderWay p key { s with route := s.route.move i phase w } j :=
    fun hphase => ⟨i, underWay_move_self.mpr ⟨hkey, hphase⟩⟩
  have hothers : ¬ before.Holding → s.world.cache.store.get? (makeKey key) = some .processing →
      ∃ j, UnderWay p key { s with route := s.route.move i phase w } j := fun hnot hold =>
    h.others (by rw [hbefore]; exact hnot) hold
  cases hstep with
  | unlocked hk | keyless hk | rejected hk | answered hk =>
      rw [hkey] at hk
      cases hk
  | locked | raised | created => exact hself trivial
  | refused hk ht =>
      exact hothers id (of_get?_set_false ht hmarked)
  | @looked key' raw cache hk hl =>
      obtain rfl : (lookUp now key' s.world.cache).2 = cache := congrArg Prod.snd hl
      exact hothers id (of_get?_get hmarked)
  | crashed => exact absurd rfl (hcrash rfl)
  | released hk =>
      obtain rfl := Option.some.inj (hkey.symm.trans hk)
      cases (delete_absent (makeKey key) s.world.cache).symm.trans hmarked
  | stored hk =>
      obtain rfl := Option.some.inj (hkey.symm.trans hk)
      rw [storeResponse, set_get?] at hmarked
      cases hmarked
  | idle => exact hothers id hmarked

end Move

/-! ## Steps and runs -/

theorem LocksHeld.post_iff (h : s.LocksHeld p) (i : ι) (now now' : ℚ) :
    (s.step R p (.post i now now')).LocksHeld p ↔ ¬ s.Overflows R p (.post i now now') := by
  obtain ⟨phase, w, hstep, he⟩ := s.route.advance_step R (p i) i now now'
  have hmoved : s.step R p (.post i now now') = { s with route := s.route.move i phase w } := by
    rw [step, he]
  rw [hmoved]
  by_cases hcrash : s.route.phase i = .creating ∧ phase = .done .crashed
  · obtain ⟨hcreating, rfl⟩ := hcrash
    rw [hcreating] at hstep
    cases hstep with
    | @crashed splits err ha hf =>
        have hresult := createExpense_of_accepts ha
        have hlarge := fmtExpense_error_iff.mp ⟨err, hf⟩
        constructor
        · rintro hlocks ⟨i', now, now', key, hc, -, -, hkey, hmarked, honly⟩
          cases hc
          -- nobody is left for the key
          obtain ⟨j, hj⟩ := hlocks key hmarked
          by_cases hij : j = i
          · subst hij
            exact (underWay_move_self.mp hj).2
          · exact hij (honly j ((underWay_move_of_ne hij).mp hj))
        · intro hnot
          have hstep : RequestStep R (p i) now now' s.world .creating (.done .crashed) _ := .crashed ha hf
          refine h.move hstep fun key hkey hmarked => ?_
          by_contra hnone
          refine hnot ⟨i, now, now', key, rfl, hcreating, ⟨_, _, hresult, hlarge⟩, hkey, hmarked, ?_⟩
          intro j hj
          by_contra hij
          exact hnone ⟨j, (underWay_move_of_ne hij).mpr hj⟩
  · refine iff_of_true (h.advance hstep rfl fun hb hp => hcrash ⟨hb, hp⟩) ?_
    rintro ⟨i', now, now', key, hc, hcreating, ⟨e, w', hresult, hlarge⟩, -⟩
    cases hc
    obtain ⟨err, herr⟩ := fmtExpense_error_iff.mpr hlarge
    apply hcrash
    refine ⟨hcreating, ?_⟩
    rw [hcreating] at hstep
    cases hstep with
    | raised hraised => cases hraised.symm.trans hresult
    | crashed => rfl
    | created ha hf =>
        cases (createExpense_of_accepts ha).symm.trans hresult
        cases hf.symm.trans herr

/-- Only requests for expenses move on in the route and write under its keys. -/
theorem requestEntries_of_ne (ho : s.Orderly R) {c : ProcessStep ι}
    (hc : ∀ i now now', c ≠ .post i now now') :
    (s.step R p c).route.phase = s.route.phase ∧
      ∀ key value, (s.step R p c).world.cache.store.get? (makeKey key) = some value →
        s.world.cache.store.get? (makeKey key) = some value := by
  cases c with
  | post i now now' => exact absurd rfl (hc i now now')
  | client call =>
      refine ⟨rfl, fun key value hv => ?_⟩
      have hcache : (s.step R p (.client call)).world.cache = s.world.cache := call.exec_cache R s.world
      rwa [hcache] at hv
  | balances groupId now now' now'' =>
      refine ⟨rfl, fun key value hv => ?_⟩
      exact (getBalances_evolves groupId now now' now'' s.world).of_get?
        (makeKey_ne_balancesKey key groupId) hv
  | wake | put => exact ⟨rfl, fun _ _ hv => hv⟩
  | consume =>
      rcases consume_cases R p s with ⟨hs, -⟩ | ⟨m, rest, -, -, hs⟩
      · rw [hs]
        exact ⟨rfl, fun _ _ hv => hv⟩
      · rw [hs]
        exact ⟨rfl, fun _ _ hv => hv⟩
  | handle fails =>
      refine ⟨rfl, fun key value hv => ?_⟩
      rcases handle_world_cases ho p fails with ⟨hw, -⟩ | ⟨m, ok, -, -, hstep⟩
      · rwa [hw] at hv
      · exact hstep.evolves.of_get? not_false hv

theorem LocksHeld.step_iff (h : s.LocksHeld p) (ho : s.Orderly R) (c : ProcessStep ι) :
    (s.step R p c).LocksHeld p ↔ ¬ s.Overflows R p c := by
  by_cases hc : ∃ i now now', c = .post i now now'
  · obtain ⟨i, now, now', rfl⟩ := hc
    exact h.post_iff i now now'
  · obtain ⟨hphase, hcache⟩ := requestEntries_of_ne (p := p) (c := c) ho
      fun i now now' he => hc ⟨i, now, now', he⟩
    refine iff_of_true (h.of_cache hphase hcache) ?_
    rintro ⟨i, now, now', key, he, -⟩
    exact hc ⟨i, now, now', he⟩

end Process

end ExpenseSettlement
