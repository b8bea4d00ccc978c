import ExpenseSettlement.Api.Lemmas.Balances

/-!
# One key in two groups

The cache and the store look a key up without its group. A request may find there what a request in
another group has left under the same key.
-/

namespace ExpenseSettlement

open Lib IdempotencyManager

variable {R : Runtime}

/-! ## Journals -/

/-- The journals that expenses name have been drawn, so no new one is among them. -/
def JournalsDrawn (R : Runtime) (w : World) : Prop :=
  ∀ e ∈ w.store.expenses.values, ∀ id, e.journalId = some id → R.Issued 0 w.draws.uuids id

namespace JournalsDrawn

variable {w w' : World}

theorem init : JournalsDrawn R .init := fun _ he => by cases he

theorem of_expenses (h : JournalsDrawn R w) (he : w'.store.expenses = w.store.expenses)
    (hd : w.draws.uuids ≤ w'.draws.uuids) : JournalsDrawn R w' := by
  intro e hm id hid
  rw [he] at hm
  exact (h e hm id hid).mono (Nat.le_refl _) hd

theorem accept {req : CreateExpense} {splits : List Split} (h : JournalsDrawn R w) :
    JournalsDrawn R (w.accept R req splits) := by
  intro e hm id hid
  obtain ⟨k, hk⟩ := Dict.mem_values.mp hm
  rw [accept_expenses] at hk
  rcases Dict.of_get?_set hk with ⟨-, rfl⟩ | hold
  · cases hid
    exact ⟨_, Nat.zero_le _, journalIndex_lt_expenseIndex.trans accept_draws_ge, rfl⟩
  · exact (h e (Dict.mem_values.mpr ⟨k, hold⟩) id hid).mono (Nat.le_refl _) accept_draws_mono

theorem step (h : JournalsDrawn R w) (hw : WellFormed R w) (op : Operation) :
    JournalsDrawn R (w.step R op) := by
  rcases World.step_cases hw.worker_heads op with hq | ⟨req, splits, ha⟩ | ⟨groupId, result, acc, hs⟩
  · exact h.of_expenses hq.quiet.expenses hq.quiet.draws
  · rw [ha.step]
    exact h.accept
  · rw [hs.step]
    exact h.of_expenses rfl (hs.planned.draws.trans (Nat.le_succ _))

theorem fresh (h : JournalsDrawn R w) {id : String} {e : ExpenseRecord}
    (he : w.store.expenses.get? id = some e) : e.journalId ≠ some (R.uuid4 w.journalIndex) := by
  intro hid
  have hold := h e (Dict.mem_values.mpr ⟨id, he⟩) _ hid
  have hnew : R.Issued w.draws.uuids (w.journalIndex + 1) (R.uuid4 w.journalIndex) :=
    ⟨_, Nat.le_succ _, Nat.lt_succ_self _, rfl⟩
  exact hold.ne hnew rfl

end JournalsDrawn

section Accept

variable {w : World} {req : CreateExpense} {splits : List Split}

/-- Accepting an expense changes nothing in another group, unless the key's expense is of that group. -/
theorem accept_kept_iff (hw : WellFormed R w) (hj : JournalsDrawn R w) (req : CreateExpense)
    (splits : List Split) (groupId : String) :
    (∀ id e, w.store.expenses.get? id = some e → e.groupId ≠ groupId →
      (w.accept R req splits).store.expenses.get? id = some e) ↔
    ∀ e, w.store.existing req.idempotencyKey = some e → e.groupId = groupId := by
  constructor
  · intro hkept e he
    by_contra hne
    have hsame := hkept e.id e (hw.existing_id he) hne
    have hid : (w.newExpense R req splits).id = e.id := by rw [newExpense_of_existing he]
    rw [accept_expenses, ← hid, Dict.get?_set_self] at hsame
    -- the same expense would have both its old journal and the new one
    have hjournal : (w.newExpense R req splits).journalId = some (R.uuid4 w.journalIndex) := rfl
    rw [Option.some.inj hsame] at hjournal
    exact hj.fresh (hw.existing_id he) hjournal
  · intro hown id e he hne
    have hid : (w.newExpense R req splits).id ≠ id := by
      intro hid
      cases hx : w.store.existing req.idempotencyKey with
      | none =>
          apply hw.newExpense_fresh hx
          rw [hid]
          exact Dict.mem_keys_of_get? he
      | some x =>
          rw [newExpense_of_existing hx] at hid
          dsimp only at hid
          have hxe : w.store.expenses.get? id = some x := by
            rw [← hid]
            exact hw.existing_id hx
          rw [Option.some.inj (he.symm.trans hxe)] at hne
          exact hne (hown x hx)
    rw [accept_expenses, Dict.get?_set, if_neg hid]
    exact he

theorem newExpense_groupId_of (hown : ∀ e, w.store.existing req.idempotencyKey = some e →
    e.groupId = req.groupId) : (w.newExpense R req splits).groupId = req.groupId := by
  cases he : w.store.existing req.idempotencyKey with
  | none => exact newExpense_groupId he
  | some e =>
      rw [newExpense_of_existing he]
      exact hown e he

theorem fmtExpense_groupId {e : ExpenseRecord} {response : ExpenseResponse}
    (h : fmtExpense R e = .ok response) : response.groupId = e.groupId := by
  unfold fmtExpense at h
  split at h
  · cases h
  · split at h
    · cases h
    · cases h
      rfl

end Accept

/-! ## What a request may do to other groups -/

/-- A response that the request has, sent or not, describes an expense of the group. -/
def Phase.Describes (groupId : String) : Phase → Prop
  | .created response | .done (.success response) | .done (.replayed response) =>
      response.groupId = groupId
  | .arrived | .refused | .creating | .failed _ | .done _ => True

theorem Phase.Describes.body {groupId : String} {phase : Phase} {response : ExpenseResponse}
    (h : phase.Describes groupId) (hr : phase.body? = some response) : response.groupId = groupId := by
  cases phase with
  | done outcome =>
      cases outcome with
      | success body => cases hr; exact h
      | replayed body => cases hr; exact h
      | conflict => cases hr
      | rejected e => cases hr
      | crashed => cases hr
  | arrived => cases hr
  | refused => cases hr
  | creating => cases hr
  | created body => cases hr
  | failed e => cases hr

namespace RouteState

variable {ι : Type}

/-- A successful response describes an expense of the request's group, and the step changes nothing in
an expense of another group. -/
structure Isolated (s : RouteState ι) (p : PostExpense) (i : ι) (s' : RouteState ι) : Prop where
  answered : ∀ response, (s'.phase i).body? = some response → response.groupId = p.groupId
  kept : ∀ id e, s.world.store.expenses.get? id = some e → e.groupId ≠ p.groupId →
    s'.world.store.expenses.get? id = some e

/-- A request that did not get its lock does not meet the response to a request in another group, and
one that got it and passes the checks does not meet an expense of another group. -/
structure FindsOwn (s : RouteState ι) (R : Runtime) (p : ι → PostExpense) (i : ι) (now : ℚ) :
    Prop where
  cached : s.phase i = .refused → ∀ key, truthy (p i).idemKey = some key → ∀ j response,
    truthy (p j).idemKey = some key → s.phase j = .done (.success response) →
    (lookUp now key s.world.cache).1 = some (.response response) → (p j).groupId = (p i).groupId
  stored : s.phase i = .creating → ∀ splits, Accepts R (p i).args s.world splits → ∀ e,
    s.world.store.existing (p i).idemKey = some e → e.groupId = (p i).groupId

end RouteState

/-! ## The invariant -/

/-- No response is new. -/
def NoNewResponses (c c' : InMemoryCache CacheValue) : Prop :=
  ∀ key response, c'.store.get? (makeKey key) = some (.response response) →
    c.store.get? (makeKey key) = some (.response response)

namespace NoNewResponses

variable {c cache : InMemoryCache CacheValue} {now now' : ℚ} {key : String}

theorem refl (c : InMemoryCache CacheValue) : NoNewResponses c c := fun _ _ hr => hr

theorem get (now : ℚ) (key : String) : NoNewResponses c (c.get now key).2 :=
  fun _ _ hr => InMemoryCache.of_get?_get hr

theorem delete (key : String) : NoNewResponses c (c.delete key).2 :=
  fun _ _ hr => InMemoryCache.of_get?_delete hr

theorem setBalances (now now' : ℚ) (groupId : String) (value : CacheValue) (ex : Option ℤ) (nx : Bool) :
    NoNewResponses c (c.set now now' (balancesKey groupId) value ex nx).2 :=
  fun key _ hr => InMemoryCache.of_get?_set (makeKey_ne_balancesKey key groupId).symm hr

theorem tryLock {taken : Bool} (h : IdempotencyManager.tryLock now now' key c = (taken, cache)) :
    NoNewResponses c cache := by
  obtain rfl : (IdempotencyManager.tryLock now now' key c).2 = cache := congrArg Prod.snd h
  intro key' response hr
  rcases InMemoryCache.of_get?_set_or hr with ⟨-, hv⟩ | hold
  · cases hv
  · exact hold

theorem lookUp {raw : Option CacheValue} (h : IdempotencyManager.lookUp now key c = (raw, cache)) :
    NoNewResponses c cache := by
  obtain rfl : (IdempotencyManager.lookUp now key c).2 = cache := congrArg Prod.snd h
  exact .get _ _

end NoNewResponses

theorem makeKey_inj {key key' : String} (h : makeKey key = makeKey key') : key = key' := by
  have hlist := congrArg String.toList h
  simp only [makeKey, String.toList_append] at hlist
  exact String.toList_inj.mp (List.append_cancel_left hlist)

variable {ι : Type}

/-- The requests so far have kept to their groups, and every cached response is one that a request
with the same key has got. -/
structure Apart (R : Runtime) (p : ι → PostExpense) (s : RouteState ι) : Prop where
  wellFormed : WellFormed R s.world
  journals : JournalsDrawn R s.world
  described : ∀ i, (s.phase i).Describes (p i).groupId
  cached : ∀ key response, s.world.cache.store.get? (makeKey key) = some (.response response) →
    ∃ j, truthy (p j).idemKey = some key ∧ s.phase j = .done (.success response)

namespace Apart

open RouteState

variable {p : ι → PostExpense} {s s' : RouteState ι} {i : ι} {now now' : ℚ}

theorem start (p : ι → PostExpense) : Apart R p (.start .init) where
  wellFormed := .init
  journals := .init
  described := fun _ => trivial
  cached := fun _ _ h => by cases h

theorem isolated (h : Apart R p s')
    (hkept : ∀ id e, s.world.store.expenses.get? id = some e → e.groupId ≠ (p i).groupId →
      s'.world.store.expenses.get? id = some e) : s.Isolated (p i) i s' :=
  ⟨fun _ hr => (h.described i).body hr, hkept⟩

/-- A step that keeps the invariant and the expenses keeps to the group. -/
theorem quiet (hf : s.FindsOwn R p i now) (hexpenses : s'.world.store.expenses = s.world.store.expenses)
    (h : Apart R p s') :
    (s.Isolated (p i) i s' ↔ s.FindsOwn R p i now) ∧ (s.FindsOwn R p i now → Apart R p s') := by
  refine ⟨⟨fun _ => hf, fun _ => h.isolated ?_⟩, fun _ => h⟩
  rw [hexpenses]
  exact fun _ _ he _ => he

theorem success_groupId {response : ExpenseResponse} (h : Apart R p s)
    (hi : s.phase i = .done (.success response)) : response.groupId = (p i).groupId := by
  apply (h.described i).body
  rw [hi]
  rfl

/-- The rest of the process moves, or only the cache changes. -/
theorem withWorld {w : World} (h : Apart R p s) (hw : WellFormed R w) (hj : JournalsDrawn R w)
    (hcache : NoNewResponses s.world.cache w.cache) : Apart R p { s with world := w } :=
  ⟨hw, hj, h.described, fun key response hr => h.cached key response (hcache key response hr)⟩

variable [DecidableEq ι]

/-- One request moves on. A response that is new in the cache is the one that it has got. -/
theorem move {phase : Phase} {w : World} (h : Apart R p s) (hi : ∀ outcome, s.phase i ≠ .done outcome)
    (hw : WellFormed R w) (hj : JournalsDrawn R w) (hd : phase.Describes (p i).groupId)
    (hcache : ∀ key response, w.cache.store.get? (makeKey key) = some (.response response) →
      s.world.cache.store.get? (makeKey key) = some (.response response) ∨
      truthy (p i).idemKey = some key ∧ phase = .done (.success response)) :
    Apart R p (s.move i phase w) where
  wellFormed := hw
  journals := hj
  described := by
    intro j
    by_cases hij : j = i
    · subst hij
      rw [move_phase, Function.update_self]
      exact hd
    · rw [move_phase, Function.update_of_ne hij]
      exact h.described j
  cached := by
    intro key response hr
    rcases hcache key response hr with hold | ⟨hkey, hphase⟩
    · obtain ⟨j, hkey, hj⟩ := h.cached key response hold
      have hij : j ≠ i := by
        rintro rfl
        exact hi _ hj
      refine ⟨j, hkey, ?_⟩
      rw [move_phase, Function.update_of_ne hij]
      exact hj
    · refine ⟨i, hkey, ?_⟩
      rw [move_phase, Function.update_self]
      exact hphase

/-- Of the world only the cache changes. -/
theorem moveCache {phase : Phase} {cache : InMemoryCache CacheValue} (h : Apart R p s)
    (hi : ∀ outcome, s.phase i ≠ .done outcome) (hd : phase.Describes (p i).groupId)
    (hcache : NoNewResponses s.world.cache cache) :
    Apart R p (s.move i phase { s.world with cache }) :=
  h.move hi (h.wellFormed.withCache cache) (h.journals.of_expenses rfl (Nat.le_refl _)) hd
    fun key response hr => .inl (hcache key response hr)

/-! ## The steps of a request -/

/-- A response is put into the cache when the request has got it. -/
theorem answer {response : ExpenseResponse} {key : String} (h : Apart R p s)
    (hi : s.phase i = .created response) (hk : truthy (p i).idemKey = some key) :
    Apart R p (s.move i (.done (.success response))
      { s.world with cache := storeResponse now now' key response s.world.cache }) := by
  have hd : response.groupId = (p i).groupId := by
    have hdescribed := h.described i
    rw [hi] at hdescribed
    exact hdescribed
  refine h.move (by simp [hi]) (h.wellFormed.withCache _) (h.journals.of_expenses rfl (Nat.le_refl _))
    hd ?_
  intro key' response' hr
  rcases InMemoryCache.of_get?_set_or hr with ⟨hkey, hresponse⟩ | hold
  · cases hresponse
    exact .inr ⟨hk.trans (congrArg some (makeKey_inj hkey)), rfl⟩
  · exact .inl hold

/-- The response to a duplicate is the cached one, which another request has got. -/
theorem look {key : String} {raw : Option CacheValue} {cache : InMemoryCache CacheValue}
    (h : Apart R p s) (hi : s.phase i = .refused) (hk : truthy (p i).idemKey = some key)
    (hl : lookUp now key s.world.cache = (raw, cache)) (hf : s.FindsOwn R p i now) :
    Apart R p (s.move i (.done (.ofDuplicate raw)) { s.world with cache }) := by
  refine h.moveCache (by simp [hi]) ?_ (.lookUp hl)
  cases raw with
  | none => trivial
  | some value =>
      cases value with
      | processing => trivial
      | balances body => trivial
      | response response =>
          obtain ⟨hstored, -⟩ := InMemoryCache.get_eq_some hl
          obtain ⟨j, hkj, hj⟩ := h.cached key response hstored
          have hown : (p j).groupId = (p i).groupId :=
            hf.cached hi key hk j response hkj hj (by rw [hl])
          exact (h.success_groupId hj).trans hown

theorem findsOwn_of_look {key : String} {raw : Option CacheValue} {cache : InMemoryCache CacheValue}
    (h : Apart R p s) (hi : s.phase i = .refused) (hk : truthy (p i).idemKey = some key)
    (hl : lookUp now key s.world.cache = (raw, cache))
    (hs : s.Isolated (p i) i (s.move i (.done (.ofDuplicate raw)) { s.world with cache })) :
    s.FindsOwn R p i now := by
  refine ⟨?_, by simp [hi]⟩
  intro _ key' hk' j response hkj hj hraw
  obtain rfl : key = key' := Option.some.inj (hk.symm.trans hk')
  rw [hl] at hraw
  subst hraw
  have hown : response.groupId = (p i).groupId := by
    apply hs.answered
    rw [move_phase, Function.update_self]
    rfl
  exact (h.success_groupId hj).symm.trans hown

/-- An expense that is stored already gets the new journal in place of its own. -/
theorem create {splits : List Split} {phase : Phase} (h : Apart R p s) (hi : s.phase i = .creating)
    (ha : Accepts R (p i).args s.world splits) (hbody : phase.body? = none)
    (hd : (s.world.newExpense R (p i).args splits).groupId = (p i).groupId →
      phase.Describes (p i).groupId) :
    (s.Isolated (p i) i (s.move i phase (s.world.accept R (p i).args splits)) ↔
        s.FindsOwn R p i now) ∧
      (s.FindsOwn R p i now → Apart R p (s.move i phase (s.world.accept R (p i).args splits))) := by
  have hkept := accept_kept_iff h.wellFormed h.journals (p i).args splits (p i).groupId
  refine ⟨⟨fun hs => ⟨by simp [hi], fun _ _ _ => hkept.mp hs.kept⟩, fun hf => ⟨?_, ?_⟩⟩, fun hf => ?_⟩
  · intro response hr
    rw [move_phase, Function.update_self, hbody] at hr
    cases hr
  · exact hkept.mpr (hf.stored hi splits ha)
  · apply h.move (by simp [hi]) (h.wellFormed.accept ha) h.journals.accept
    · exact hd (newExpense_groupId_of (hf.stored hi splits ha))
    · exact fun _ _ hr => .inl hr

/-- A step of a request keeps to the group exactly when what it finds under its key does, and then the
invariant is kept. -/
theorem advance (h : Apart R p s) (i : ι) (now now' : ℚ) :
    (s.Isolated (p i) i (s.advance R (p i) i now now') ↔ s.FindsOwn R p i now) ∧
      (s.FindsOwn R p i now → Apart R p (s.advance R (p i) i now now')) := by
  obtain ⟨phase, w, hstep, he⟩ := s.advance_step R (p i) i now now'
  rw [he]
  generalize hi : s.phase i = before at hstep
  have hfinds : before ≠ .refused → before ≠ .creating → s.FindsOwn R p i now := by
    rw [← hi]
    exact fun hr hc => ⟨fun he => absurd he hr, fun he => absurd he hc⟩
  cases hstep with
  | unlocked hk =>
      exact quiet (hfinds (by simp) (by simp)) rfl (h.moveCache (by simp [hi]) trivial (.refl _))
  | locked hk ht | refused hk ht =>
      exact quiet (hfinds (by simp) (by simp)) rfl (h.moveCache (by simp [hi]) trivial (.tryLock ht))
  | keyless hk =>
      have hkeyless : s.FindsOwn R p i now := ⟨by simp [hk], by simp [hi]⟩
      exact quiet hkeyless rfl (h.moveCache (by simp [hi]) trivial (.refl _))
  | looked hk hl =>
      refine ⟨⟨h.findsOwn_of_look hi hk hl, fun hf => ?_⟩, h.look hi hk hl⟩
      exact (h.look hi hk hl hf).isolated fun _ _ hid _ => hid
  | raised hraise hr =>
      have hq : Quiet R s.world w := .of_rejects hr
      have hraised : s.FindsOwn R p i now := by
        refine ⟨by simp [hi], ?_⟩
        intro _ splits ha
        rw [createExpense_of_accepts ha] at hraise
        cases hraise
      refine quiet hraised (hq.expenses) (h.move (by simp [hi])
        (h.wellFormed.of_quiet hq) (h.journals.of_expenses hq.expenses hq.draws) trivial fun _ _ hb => .inl ?_)
      rwa [← hq.cache]
  | crashed ha hf => exact h.create hi ha rfl fun _ => trivial
  | created ha hf => exact h.create hi ha rfl fun hg => (fmtExpense_groupId hf).trans hg
  | rejected hk =>
      exact quiet (hfinds (by simp) (by simp)) rfl (h.moveCache (by simp [hi]) trivial (.refl _))
  | released hk =>
      exact quiet (hfinds (by simp) (by simp)) rfl (h.moveCache (by simp [hi]) trivial (.delete _))
  | answered hk =>
      have hd := h.described i
      rw [hi] at hd
      exact quiet (hfinds (by simp) (by simp)) rfl (h.moveCache (by simp [hi]) hd (.refl _))
  | stored hk => exact quiet (hfinds (by simp) (by simp)) rfl (h.answer hi hk)
  | idle =>
      rw [← hi, move_self]
      exact quiet (hfinds (by simp) (by simp)) rfl h

/-! ## The other steps -/

omit [DecidableEq ι] in
theorem other (h : Apart R p s) (op : Operation) :
    Apart R p { s with world := s.world.step R op } := by
  apply h.withWorld (h.wellFormed.step op) (h.journals.step h.wellFormed op)
  rcases World.step_cases h.wellFormed.worker_heads op with hq | ⟨req, splits, ha⟩ | ⟨groupId, result, acc, hs⟩
  · rw [hq.quiet.cache]
    exact .refl _
  · rw [ha.step]
    exact .refl _
  · rw [hs.step]
    intro key response hr
    exact NoNewResponses.delete _ key response (NoNewResponses.delete _ key response hr)

end Apart

/-- A balances request changes the cache alone. -/
theorem getBalances_world (groupId : String) (now now' now'' : ℚ) (w : World) :
    ∃ cache, (getBalances R groupId now now' now'' w).2 = { w with cache } ∧
      NoNewResponses w.cache cache := by
  have hget := NoNewResponses.get (c := w.cache) now (balancesKey groupId)
  cases hc : w.cache.get now (balancesKey groupId) with
  | mk found cache =>
      rw [hc] at hget
      cases found with
      | some value =>
          refine ⟨cache, ?_, hget⟩
          cases value <;> simp only [getBalances, hc]
      | none =>
          cases hg : w.store.groups.get? groupId with
          | none => exact ⟨cache, by simp only [getBalances, hc, hg], hget⟩
          | some group =>
              cases he : balanceEntries (getGroupNetBalances groupId w).items with
              | error e => exact ⟨cache, by simp only [getBalances, hc, hg, he], hget⟩
              | ok entries =>
                  by_cases hd : (balancesResponse groupId entries).dumps R = true
                  · have hset := NoNewResponses.setBalances (c := cache) now' now'' groupId
                      (.balances (balancesResponse groupId entries)) (some balancesTtlSeconds) false
                    exact ⟨_, by simp only [getBalances, hc, hg, he, if_pos hd],
                      fun key response hr => hget key response (hset key response hr)⟩
                  · exact ⟨cache, by simp only [getBalances, hc, hg, he, if_neg hd], hget⟩

namespace ServerState

variable [DecidableEq ι] {s : ServerState ι} {p : ι → PostExpense}

/-- A step of a request that creates expenses keeps to its group. -/
def Isolated (R : Runtime) (p : ι → PostExpense) (s : ServerState ι) (event : ServerEvent ι) : Prop :=
  ∀ i now now', event = .post i now now' → s.route.Isolated (p i) i (s.step R p event).route

def FindsOwn (R : Runtime) (p : ι → PostExpense) (s : ServerState ι) (event : ServerEvent ι) : Prop :=
  ∀ i now now', event = .post i now now' → s.route.FindsOwn R p i now

theorem apart_step (h : Apart R p s.route) (event : ServerEvent ι) (hf : s.FindsOwn R p event) :
    Apart R p (s.step R p event).route := by
  cases event with
  | post i now now' => exact (h.advance i now now').2 (hf i now now' rfl)
  | other op => exact h.other op
  | balances groupId now now' now'' =>
      obtain ⟨cache, hw, hcache⟩ := getBalances_world (R := R) groupId now now' now'' s.route.world
      have hroute : (s.step R p (.balances groupId now now' now'')).route =
          { s.route with world := { s.route.world with cache } } := by
        rw [← hw]
        rfl
      rw [hroute]
      exact h.withWorld (h.wellFormed.withCache cache) (h.journals.of_expenses rfl (Nat.le_refl _)) hcache

theorem isolated_iff (h : Apart R p s.route) (event : ServerEvent ι) :
    s.Isolated R p event ↔ s.FindsOwn R p event := by
  refine forall_congr' fun i => forall_congr' fun now => forall_congr' fun now' =>
    forall_congr' fun he => ?_
  subst he
  exact (h.advance i now now').1

end ServerState

end ExpenseSettlement
