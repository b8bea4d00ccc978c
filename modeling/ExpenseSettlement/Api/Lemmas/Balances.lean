import ExpenseSettlement.Api.Balances
import ExpenseSettlement.Api.Lemmas.Gate

/-!
# What the cached balances say

A cached response lists the net balances of the expenses it was computed from. Nothing but the route
itself writes under its keys, and the worker only deletes there.
-/

namespace ExpenseSettlement

open Lib IdempotencyManager

variable {R : Runtime}

theorem balancesKey_inj {groupId groupId' : String} :
    balancesKey groupId = balancesKey groupId' ↔ groupId = groupId' := by
  constructor
  · intro h
    have hlist := congrArg String.toList h
    simp only [balancesKey, String.toList_append] at hlist
    exact String.toList_inj.mp (List.append_cancel_left (List.append_cancel_right hlist))
  · exact congrArg balancesKey

theorem makeKey_ne_balancesKey (key groupId : String) : makeKey key ≠ balancesKey groupId :=
  (Guarded.makeKey_ne_group groupId ":balances" key).symm

/-- Nothing new answers a balances request. -/
def NoNewBalances (c c' : InMemoryCache CacheValue) : Prop :=
  ∀ groupId value, c'.store.get? (balancesKey groupId) = some value →
    c.store.get? (balancesKey groupId) = some value

namespace NoNewBalances

variable {c : InMemoryCache CacheValue}

theorem refl (c : InMemoryCache CacheValue) : NoNewBalances c c := fun _ _ hv => hv

theorem get (now : ℚ) (key : String) : NoNewBalances c (c.get now key).2 :=
  fun _ _ hv => InMemoryCache.of_get?_get hv

theorem delete (key : String) : NoNewBalances c (c.delete key).2 :=
  fun _ _ hv => InMemoryCache.of_get?_delete hv

/-- The keys of the idempotency manager are other keys. -/
theorem set (now now' : ℚ) (key : String) (value : CacheValue) (ex : Option ℤ) (nx : Bool) :
    NoNewBalances c (c.set now now' (makeKey key) value ex nx).2 :=
  fun groupId _ hv => InMemoryCache.of_get?_set (makeKey_ne_balancesKey key groupId) hv

theorem tryLock {now now' : ℚ} {key : String} {taken : Bool} {cache : InMemoryCache CacheValue}
    (h : IdempotencyManager.tryLock now now' key c = (taken, cache)) : NoNewBalances c cache := by
  obtain rfl : (IdempotencyManager.tryLock now now' key c).2 = cache := congrArg Prod.snd h
  exact .set _ _ _ _ _ _

theorem lookUp {now : ℚ} {key : String} {raw : Option CacheValue} {cache : InMemoryCache CacheValue}
    (h : IdempotencyManager.lookUp now key c = (raw, cache)) : NoNewBalances c cache := by
  obtain rfl : (IdempotencyManager.lookUp now key c).2 = cache := congrArg Prod.snd h
  exact .get _ _

end NoNewBalances

theorem listed_balanceEntries {items : List (String × ℤ)} {entries : List BalanceEntry}
    (h : balanceEntries items = .ok entries) :
    entries.map (fun e => (e.userId, e.netCents)) = items := by
  induction items generalizing entries with
  | nil => cases h; rfl
  | cons item items ih =>
      obtain ⟨uid, cents⟩ := item
      simp only [balanceEntries] at h
      split at h
      · cases hr : balanceEntries items with
        | error e => simp only [hr] at h; cases h
        | ok rest =>
            simp only [hr] at h
            cases h
            rw [List.map_cons, ih hr]
      · cases h

/-! ## The outcomes of a request -/

section Outcomes

variable (R : Runtime) (groupId : String) (now now' now'' : ℚ) (w : World)

structure BalancesHit (value : CacheValue) : Prop where
  found : (w.cache.get now (balancesKey groupId)).1 = some value
  stored : w.cache.store.get? (balancesKey groupId) = some value
  result : ∀ body, value = .balances body →
    getBalances R groupId now now' now'' w = (.success { body with cached := true }, w)

structure BalancesComputed (body : GroupBalancesResponse) (cache : InMemoryCache CacheValue) : Prop where
  missed : (w.cache.get now (balancesKey groupId)).1 = none
  listed : body.listed = (getGroupNetBalances groupId w).items
  cached : body.cached = false
  result : getBalances R groupId now now' now'' w = (.success body, { w with cache })
  stored : cache.store.get? (balancesKey groupId) = some (.balances body)
  others : ∀ groupId', groupId ≠ groupId' → ∀ value,
    cache.store.get? (balancesKey groupId') = some value →
    w.cache.store.get? (balancesKey groupId') = some value

structure BalancesFailed (outcome : BalancesOutcome) (cache : InMemoryCache CacheValue) : Prop where
  missed : (w.cache.get now (balancesKey groupId)).1 = none
  listed : outcome.listed? = none
  result : getBalances R groupId now now' now'' w = (outcome, { w with cache })
  cached : NoNewBalances w.cache cache

/-- A request answers from the cache, or it computes its answer and caches that, or it gives none and
caches nothing. -/
theorem getBalances_cases :
    (∃ value, BalancesHit R groupId now now' now'' w value) ∨
    (∃ body cache, BalancesComputed R groupId now now' now'' w body cache) ∨
    ∃ outcome cache, BalancesFailed R groupId now now' now'' w outcome cache := by
  cases hget : w.cache.get now (balancesKey groupId) with
  | mk found cache =>
      have hfound : (w.cache.get now (balancesKey groupId)).1 = found := by rw [hget]
      have hkeep : NoNewBalances w.cache cache := by
        have hnew := NoNewBalances.get (c := w.cache) now (balancesKey groupId)
        rw [hget] at hnew
        exact hnew
      cases found with
      | some value =>
          obtain ⟨hstored, rfl⟩ := InMemoryCache.get_eq_some hget
          refine .inl ⟨value, hfound, hstored, ?_⟩
          rintro body rfl
          simp only [getBalances, hget]
      | none =>
          refine .inr ?_
          cases hg : w.store.groups.get? groupId with
          | none =>
              refine .inr ⟨.notFound s!"Group {R.repr groupId} not found.", cache, hfound, rfl, ?_,
                hkeep⟩
              simp only [getBalances, hget, hg]
          | some group =>
              cases he : balanceEntries (getGroupNetBalances groupId w).items with
              | error e =>
                  refine .inr ⟨.crashed, cache, hfound, rfl, ?_, hkeep⟩
                  simp only [getBalances, hget, hg, he]
              | ok entries =>
                  by_cases hd : (balancesResponse groupId entries).dumps R = true
                  · refine .inl ⟨balancesResponse groupId entries,
                      (cache.set now' now'' (balancesKey groupId)
                        (.balances (balancesResponse groupId entries)) (some balancesTtlSeconds) false).2,
                      hfound, listed_balanceEntries he, rfl, ?_, ?_, ?_⟩
                    · simp only [getBalances, hget, hg, he, if_pos hd]
                    · apply InMemoryCache.set_get?
                    · intro groupId' hne value hv
                      exact hkeep _ _ (InMemoryCache.of_get?_set (mt balancesKey_inj.mp hne) hv)
                  · refine .inr ⟨.crashed, cache, hfound, rfl, ?_, hkeep⟩
                    simp only [getBalances, hget, hg, he, if_neg hd]

end Outcomes

/-! ## The expenses of a group -/

/-- All that the balances read of an expense, with its group. -/
def ExpenseRecord.filed (e : ExpenseRecord) : String × Transaction := (e.groupId, ⟨e.payerId, e.splits⟩)

def Grows (w w' : World) : Prop :=
  ∀ groupId, w.transactionsFor groupId <+: w'.transactionsFor groupId

theorem transactionsFor_eq (groupId : String) (w : World) :
    w.transactionsFor groupId =
      ((w.store.expenses.values.map ExpenseRecord.filed).filter (·.1 = groupId)).map Prod.snd := by
  rw [List.filter_map, List.map_map]
  rfl

theorem Grows.of_filed {w w' : World}
    (h : w.store.expenses.values.map ExpenseRecord.filed <+:
      w'.store.expenses.values.map ExpenseRecord.filed) : Grows w w' := by
  intro groupId
  rw [transactionsFor_eq, transactionsFor_eq]
  exact (h.filter _).map _

theorem Grows.of_expenses {w w' : World} (h : w'.store.expenses = w.store.expenses) : Grows w w' := by
  apply Grows.of_filed
  rw [h]

/-- A new expense comes last, and a repeated one stays where it is. -/
theorem WellFormed.accept_grows {w : World} {req : CreateExpense} {splits : List Split}
    (hw : WellFormed R w) : Grows w (w.accept R req splits) := by
  apply Grows.of_filed
  rw [accept_expenses]
  cases he : w.store.existing req.idempotencyKey with
  | none =>
      rw [Dict.values_set_of_not_mem _ (hw.newExpense_fresh he), List.map_append]
      exact List.prefix_append _ _
  | some e =>
      have hsame : (w.newExpense R req splits).filed = e.filed := by rw [newExpense_of_existing he]; rfl
      have hid : (w.newExpense R req splits).id = e.id := by rw [newExpense_of_existing he]
      rw [hid, Dict.map_values_set (hw.existing_id he) hsame]

/-! ## The invariant -/

/-- What is cached for a group are the net balances of some of its first expenses. -/
def CachedListed (cachedAt : String → ℕ) (w : World) : Prop :=
  ∀ groupId value, w.cache.store.get? (balancesKey groupId) = some value →
    cachedAt groupId ≤ (w.transactionsFor groupId).length ∧ ∃ body, value = .balances body ∧
      body.listed = (DebtSimplifier.computeNetBalances
        ((w.transactionsFor groupId).take (cachedAt groupId))).items

theorem CachedListed.mono {cachedAt : String → ℕ} {w w' : World} (h : CachedListed cachedAt w)
    (hgrows : Grows w w') (hcache : NoNewBalances w.cache w'.cache) : CachedListed cachedAt w' := by
  intro groupId value hv
  obtain ⟨hle, body, hbody, hlisted⟩ := h groupId value (hcache groupId value hv)
  obtain ⟨txs, htxs⟩ := hgrows groupId
  refine ⟨?_, body, hbody, ?_⟩
  · rw [← htxs, List.length_append]
    exact hle.trans (Nat.le_add_right _ _)
  · rw [← htxs, List.take_append_of_le_length hle]
    exact hlisted

/-! ## Steps -/

section Steps

variable {w : World}

theorem WellFormed.step_noNewBalances (hw : WellFormed R w) (op : Operation) :
    NoNewBalances w.cache (w.step R op).cache := by
  rcases World.step_cases hw.worker_heads op with hq | ⟨req, splits, ha⟩ | ⟨groupId, result, acc, hs⟩
  · rw [hq.quiet.cache]
    exact .refl _
  · rw [ha.step]
    exact .refl _
  · rw [hs.step]
    intro groupId' value hv
    exact NoNewBalances.delete _ groupId' value (NoNewBalances.delete _ groupId' value hv)

theorem WellFormed.grows (hw : WellFormed R w) (op : Operation) : Grows w (w.step R op) := by
  rcases World.step_cases hw.worker_heads op with hq | ⟨req, splits, ha⟩ | ⟨groupId, result, acc, hs⟩
  · exact .of_expenses hq.quiet.expenses
  · rw [ha.step]
    exact hw.accept_grows
  · rw [hs.step]
    exact .of_expenses rfl

variable {ι : Type} [DecidableEq ι] {p : PostExpense}

theorem move_world (i : ι) (phase : Phase) (world : World) (s : RouteState ι) :
    (s.move i phase world).world = world := rfl

/-- A request that creates expenses does to the world what the service does, or it uses the cache. -/
theorem advance_world (s : RouteState ι) (i : ι) (now now' : ℚ) :
    (s.advance R p i now now').world = s.world.step R (.createExpense p.args) ∨
    ∃ cache, (s.advance R p i now now').world = { s.world with cache } ∧
      NoNewBalances s.world.cache cache := by
  obtain ⟨phase, w, hstep, he⟩ := s.advance_step R p i now now'
  rw [he, move_world]
  generalize s.phase i = before at hstep
  cases hstep with
  | unlocked | keyless | rejected | answered | idle => exact .inr ⟨s.world.cache, rfl, .refl _⟩
  | locked hk ht | refused hk ht => exact .inr ⟨_, rfl, .tryLock ht⟩
  | looked hk hl => exact .inr ⟨_, rfl, .lookUp hl⟩
  | raised he' hr => exact .inl (by simp only [World.step, he'])
  | crashed ha hf | created ha hf => exact .inl (by simp only [World.step, createExpense_of_accepts ha])
  | released hk => exact .inr ⟨_, rfl, .delete _⟩
  | stored hk => exact .inr ⟨_, rfl, .set _ _ _ _ _ _⟩

end Steps

namespace ServerState

variable {ι : Type} [DecidableEq ι] {s : ServerState ι} {p : ι → PostExpense}

structure Coherent (R : Runtime) (s : ServerState ι) : Prop where
  wellFormed : WellFormed R s.route.world
  cached : CachedListed s.cachedAt s.route.world

omit [DecidableEq ι] in
theorem Coherent.start : Coherent R (.start : ServerState ι) := ⟨.init, nofun⟩

omit [DecidableEq ι] in
/-- Another part of the process takes a step of its own. -/
theorem Coherent.other (h : s.Coherent R) (op : Operation) :
    WellFormed R (s.route.world.step R op) ∧ CachedListed s.cachedAt (s.route.world.step R op) :=
  ⟨h.wellFormed.step op, h.cached.mono (h.wellFormed.grows op) (h.wellFormed.step_noNewBalances op)⟩

omit [DecidableEq ι] in
theorem Coherent.withCache (h : s.Coherent R) {cache : InMemoryCache CacheValue}
    (hcache : NoNewBalances s.route.world.cache cache) :
    WellFormed R { s.route.world with cache } ∧ CachedListed s.cachedAt { s.route.world with cache } :=
  ⟨h.wellFormed.withCache cache, h.cached.mono (.of_expenses rfl) hcache⟩

theorem Coherent.post (h : s.Coherent R) (i : ι) (now now' : ℚ) :
    (s.step R p (.post i now now')).Coherent R := by
  obtain ⟨hw, hc⟩ : WellFormed R (s.route.advance R (p i) i now now').world ∧
      CachedListed s.cachedAt (s.route.advance R (p i) i now now').world := by
    rcases advance_world (R := R) (p := p i) s.route i now now' with he | ⟨cache, he, hcache⟩
    · rw [he]
      exact h.other _
    · rw [he]
      exact h.withCache hcache
  exact ⟨hw, hc⟩

theorem Coherent.balances (h : s.Coherent R) (groupId : String) (now now' now'' : ℚ) :
    (s.step R p (.balances groupId now now' now'')).Coherent R := by
  rcases getBalances_cases R groupId now now' now'' s.route.world with
    ⟨value, hb⟩ | ⟨body, cache, hb⟩ | ⟨outcome, cache, hb⟩
  · obtain ⟨-, body, rfl, -⟩ := h.cached groupId value hb.stored
    simp only [step, hb.result body rfl, ↓reduceIte]
    exact h
  · simp only [step, hb.result, hb.cached, Bool.false_eq_true, ↓reduceIte]
    refine ⟨h.wellFormed.withCache cache, ?_⟩
    intro groupId' value hv
    rcases eq_or_ne groupId' groupId with rfl | hne
    · obtain rfl : CacheValue.balances body = value := Option.some.inj (hb.stored.symm.trans hv)
      dsimp only
      rw [Function.update_self]
      refine ⟨le_rfl, body, rfl, ?_⟩
      rw [hb.listed]
      exact congrArg (fun txs => (DebtSimplifier.computeNetBalances txs).items) (List.take_length).symm
    · dsimp only
      rw [Function.update_of_ne hne]
      exact h.cached groupId' value (hb.others groupId' hne.symm value hv)
  · obtain ⟨hw, hc⟩ := h.withCache hb.cached
    have hlisted := hb.listed
    cases outcome with
    | success body => cases hlisted
    | notFound detail =>
        simp only [step, hb.result]
        exact ⟨hw, hc⟩
    | crashed =>
        simp only [step, hb.result]
        exact ⟨hw, hc⟩

theorem Coherent.step (h : s.Coherent R) (event : ServerEvent ι) :
    (s.step R p event).Coherent R := by
  cases event with
  | post i now now' => exact h.post i now now'
  | other op =>
      obtain ⟨hw, hc⟩ := h.other op
      exact ⟨hw, hc⟩
  | balances groupId now now' now'' => exact h.balances groupId now now' now''

omit [DecidableEq ι] in
/-- A response from the cache is right exactly when nothing contradicts it. One that is computed is
right anyway. -/
theorem Coherent.fresh_iff (h : s.Coherent R) (event : ServerEvent ι) :
    s.Fresh R event ↔ s.Uncontradicted event := by
  refine forall_congr' fun groupId => forall_congr' fun now => forall_congr' fun now' =>
    forall_congr' fun now'' => forall_congr' fun _ => ?_
  rcases getBalances_cases R groupId now now' now'' s.route.world with
    ⟨value, hb⟩ | ⟨body, cache, hb⟩ | ⟨outcome, cache, hb⟩
  · obtain ⟨-, body, rfl, hlisted⟩ := h.cached groupId value hb.stored
    have hlisted' : GroupBalancesResponse.listed { body with cached := true } =
        (DebtSimplifier.computeNetBalances
          ((s.route.world.transactionsFor groupId).take (s.cachedAt groupId))).items := hlisted
    rw [hb.result body rfl, hb.found]
    simp only [BalancesOutcome.listed?, Option.mem_def, Option.some.injEq, forall_eq', ne_eq,
      reduceCtorEq, not_false_eq_true, forall_true_left]
    rw [hlisted', ← DebtSimplifier.computeNetBalances_append_eq, List.take_append_drop]
    exact ⟨fun he => Dict.ext he.symm, fun he => congrArg Dict.items he.symm⟩
  · rw [hb.result, hb.missed]
    simp [BalancesOutcome.listed?, hb.listed]
  · rw [hb.result, hb.missed, hb.listed]
    simp

end ServerState

end ExpenseSettlement
