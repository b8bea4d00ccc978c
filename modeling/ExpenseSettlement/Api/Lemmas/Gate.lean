import ExpenseSettlement.Api.Lemmas.RequestStep
import ExpenseSettlement.Cache.Lemmas.Entries
import ExpenseSettlement.System.Lemmas.WellFormed

/-!
# The gate of an idempotency key

Seen from outside, a key is free, held by one request, left behind by a request that broke off after
its expense was stored, or answered with a response. The cache entry, the requests' places in the
route and the books tell the same of it.
-/

namespace ExpenseSettlement

open Lib IdempotencyManager

inductive Gate (ι : Type)
  | free
  | held (i : ι)
  | abandoned
  | answered (response : ExpenseResponse)

/-- Between a successful lock and the store or the release. -/
def Phase.Holding : Phase → Prop
  | .creating | .created _ | .failed _ => True
  | .arrived | .refused | .done _ => False

def Phase.body? : Phase → Option ExpenseResponse
  | .done (.success response) | .done (.replayed response) => some response
  | .arrived | .refused | .creating | .created _ | .failed _ | .done _ => none

/-! ## The books of a key -/

def World.expensesFor (key : String) (w : World) : List ExpenseRecord :=
  w.store.expenses.values.filter (·.idempotencyKey = some key)

def World.journalCount (w : World) : Nat := w.serviceLedger.journals.keys.length

/-- There are `n` expenses stored for the key, and `n` journals more than `base`. -/
structure Recorded (key : String) (base n : Nat) (w : World) : Prop where
  expenses : (w.expensesFor key).length = n
  journals : w.journalCount = base + n

theorem Recorded.congr {key : String} {base n : Nat} {w w' : World} (h : Recorded key base n w)
    (he : w'.store.expenses = w.store.expenses)
    (hj : w'.serviceLedger.journals = w.serviceLedger.journals) :
    Recorded key base n w' := by
  obtain ⟨hexp, hjour⟩ := h
  refine ⟨?_, ?_⟩
  · rw [World.expensesFor, he]
    exact hexp
  · rw [World.journalCount, hj]
    exact hjour

section Accept

variable {R : Runtime} {w : World} {req : CreateExpense} {splits : List Split} {key : String}

theorem Recorded.existing_eq_none {base : Nat} (h : Recorded key base 0 w) (hw : WellFormed R w) :
    w.store.existing (some key) = none := by
  have hnil : w.expensesFor key = [] := List.length_eq_zero_iff.mp h.expenses
  rw [World.expensesFor, List.filter_eq_nil_iff] at hnil
  exact hw.existing_eq_none fun e he => by simpa using hnil e he

theorem Recorded.accept {base : Nat} (h : Recorded key base 0 w) (hw : WellFormed R w)
    (hkey : req.idempotencyKey = some key) : Recorded key base 1 (w.accept R req splits) := by
  have hf : w.store.existing req.idempotencyKey = none := by
    rw [hkey]
    exact h.existing_eq_none hw
  have hkey' : (w.newExpense R req splits).idempotencyKey = some key :=
    (newExpense_idempotencyKey hf).trans hkey
  obtain ⟨hexp, hjour⟩ := h
  refine ⟨?_, ?_⟩
  · rw [World.expensesFor] at hexp ⊢
    rw [accept_expenses, Dict.values_set_of_not_mem _ (hw.newExpense_fresh hf), List.filter_append,
      List.length_append, hexp]
    simp [hkey']
  · rw [World.journalCount] at hjour ⊢
    rw [hw.keys_journals_accept, List.length_append, hjour]
    rfl

end Accept

/-! ## The invariant -/

variable {ι : Type}

/-- What the gate says about the cache. Nothing under the key expires before `deadline`. -/
def Gate.Cached (key : String) (deadline : ℚ) (c : InMemoryCache CacheValue) : Gate ι → Prop
  | .free => c.store.get? (makeKey key) = none
  | .held _ | .abandoned => Live (makeKey key) .processing deadline c
  | .answered response => Live (makeKey key) (.response response) deadline c

/-- How many expenses the gate says are recorded. The holder records its own when it creates it. -/
def Gate.count (phase : ι → Phase) : Gate ι → Nat
  | .free => 0
  | .held i => match phase i with
    | .created _ => 1
    | .arrived | .refused | .creating | .failed _ | .done _ => 0
  | .abandoned | .answered _ => 1

structure Guarded (R : Runtime) (key : String) (base : Nat) (deadline : ℚ) (g : Gate ι)
    (s : RouteState ι) : Prop where
  wellFormed : WellFormed R s.world
  cached : g.Cached key deadline s.world.cache
  holder : ∀ i, (s.phase i).Holding ↔ g = .held i
  bodies : ∀ i response, (s.phase i).body? = some response → g = .answered response
  recorded : Recorded key base (g.count s.phase) s.world

namespace Guarded

variable {R : Runtime} {p : PostExpense} {key : String} {base : Nat} {deadline now now' : ℚ}
  {g g' : Gate ι} {s : RouteState ι} {i : ι}

theorem count_le_one (phase : ι → Phase) (g : Gate ι) : g.count phase ≤ 1 := by
  cases g with
  | free => exact Nat.zero_le 1
  | held i => unfold Gate.count; dsimp only; split <;> decide
  | abandoned => exact Nat.le_refl 1
  | answered response => exact Nat.le_refl 1

/-- Two requests are never both between their lock and its end. -/
theorem holder_unique (h : Guarded R key base deadline g s) {j : ι} (hi : (s.phase i).Holding)
    (hj : (s.phase j).Holding) : i = j := by
  have hij := ((h.holder i).mp hi).symm.trans ((h.holder j).mp hj)
  cases hij
  rfl

theorem bodies_eq (h : Guarded R key base deadline g s) {j : ι} {r r' : ExpenseResponse}
    (hi : (s.phase i).body? = some r) (hj : (s.phase j).body? = some r') : r = r' := by
  have hr := (h.bodies i r hi).symm.trans (h.bodies j r' hj)
  cases hr
  rfl

theorem cached_nonexpiring {c : InMemoryCache CacheValue}
    (h : g.Cached key deadline c) (hne : g ≠ .free) : ∃ value, Live (makeKey key) value deadline c := by
  cases g with
  | free => exact absurd rfl hne
  | held i => exact ⟨_, h⟩
  | abandoned => exact ⟨_, h⟩
  | answered response => exact ⟨_, h⟩

theorem cached_congr {c c' : InMemoryCache CacheValue} (h : g.Cached key deadline c)
    (hc : c'.store.get? (makeKey key) = c.store.get? (makeKey key) ∧
      c'.expiry.get? (makeKey key) = c.expiry.get? (makeKey key)) : g.Cached key deadline c' := by
  cases g with
  | free => exact hc.1.trans h
  | held i => exact h.congr hc
  | abandoned => exact h.congr hc
  | answered response => exact h.congr hc

theorem held_ne {i j : ι} (hj : j ≠ i) : Gate.held i ≠ .held j := by
  intro he
  cases he
  exact hj rfl

theorem not_held (h : Guarded R key base deadline g s) (hi : ¬ (s.phase i).Holding) : g ≠ .held i :=
  fun he => hi ((h.holder i).mpr he)

theorem held (h : Guarded R key base deadline g s) (hi : (s.phase i).Holding) : g = .held i :=
  (h.holder i).mp hi

/-! ## The rest of the process -/

theorem makeKey_ne_group (groupId suffix key : String) : "group:" ++ groupId ++ suffix ≠ makeKey key := by
  rw [String.append_assoc]
  exact append_ne_of_head (c := 'g') (d := 'i') (by decide) (by decide) (by decide) _ _

theorem other {op : Operation} (h : Guarded R key base deadline g s)
    (hop : ∀ req, op ≠ .createExpense req) :
    Guarded R key base deadline g { s with world := s.world.step R op } := by
  have hw := h.wellFormed.step op
  rcases World.step_cases h.wellFormed.worker_heads op with
    hq | ⟨req, splits, ha⟩ | ⟨groupId, result, acc, hs⟩
  · refine ⟨hw, ?_, h.holder, h.bodies, h.recorded.congr hq.quiet.expenses hq.quiet.journals⟩
    rw [hq.quiet.cache]
    exact h.cached
  · exact absurd ha.op_eq (hop req)
  · rw [hs.step] at hw ⊢
    refine ⟨hw, ?_, h.holder, h.bodies, h.recorded.congr rfl rfl⟩
    exact cached_congr
      (cached_congr h.cached (InMemoryCache.delete_of_ne (makeKey_ne_group groupId ":balances" key) _))
      (InMemoryCache.delete_of_ne (makeKey_ne_group groupId ":debts" key) _)

/-! ## Moves -/

variable [DecidableEq ι]

/-- One request moves on and the gate with it. The others see the holder and the answers unchanged. -/
theorem move {phase : Phase} {w : World} (h : Guarded R key base deadline g s)
    (hw : WellFormed R w) (hc : g'.Cached key deadline w.cache)
    (hhold : phase.Holding ↔ g' = .held i) (hothers : ∀ j, j ≠ i → (g' = .held j ↔ g = .held j))
    (hbody : ∀ response, phase.body? = some response → g' = .answered response)
    (hkept : ∀ response, g = .answered response → g' = .answered response)
    (hrec : Recorded key base (g'.count (Function.update s.phase i phase)) w) :
    Guarded R key base deadline g' (s.move i phase w) where
  wellFormed := hw
  cached := hc
  holder := by
    intro j
    by_cases hj : j = i
    · subst hj
      rw [RouteState.move_phase, Function.update_self]
      exact hhold
    · rw [RouteState.move_phase, Function.update_of_ne hj, hothers j hj]
      exact h.holder j
  bodies := by
    intro j response hr
    by_cases hj : j = i
    · subst hj
      rw [RouteState.move_phase, Function.update_self] at hr
      exact hbody response hr
    · rw [RouteState.move_phase, Function.update_of_ne hj] at hr
      exact hkept response (h.bodies j response hr)
  recorded := hrec

theorem count_update {g : Gate ι} {phase : ι → Phase} {next : Phase} (hg : g ≠ .held i) :
    g.count (Function.update phase i next) = g.count phase := by
  cases g with
  | free => rfl
  | held j =>
      have hj : j ≠ i := fun he => hg (by rw [he])
      simp only [Gate.count, Function.update_of_ne hj]
  | abandoned => rfl
  | answered response => rfl

theorem count_held {phase : ι → Phase} {next : Phase} :
    (Gate.held i).count (Function.update phase i next) = (Gate.held i).count fun _ => next := by
  simp only [Gate.count, Function.update_self]

theorem stay {phase : Phase} {cache : InMemoryCache CacheValue} (h : Guarded R key base deadline g s)
    (hg : g ≠ .held i) (hc : g.Cached key deadline cache) (hhold : ¬ phase.Holding)
    (hbody : ∀ response, phase.body? = some response → g = .answered response) :
    Guarded R key base deadline g (s.move i phase { s.world with cache }) := by
  refine h.move (h.wellFormed.withCache cache) hc ⟨fun hp => absurd hp hhold, fun he => absurd he hg⟩
    (fun _ _ => Iff.rfl) hbody (fun _ he => he) ?_
  rw [count_update hg]
  exact h.recorded.congr rfl rfl

/-! ## The steps of a request -/

theorem arrive (h : Guarded R key base deadline g s) (hi : s.phase i = .arrived)
    (hkey : truthy p.idemKey = some key) (hnow : now ≤ deadline)
    (hset : deadline ≤ now' + idempotencyTtlSeconds) :
    ∃ g', Guarded R key base deadline g' (s.advance R p i now now') := by
  have hg : g ≠ .held i := h.not_held (by rw [hi]; exact id)
  by_cases hfree : g = .free
  · subst hfree
    obtain ⟨c, hc, hlive⟩ : ∃ c, tryLock now now' key s.world.cache = (true, c) ∧
        Live (makeKey key) CacheValue.processing deadline c :=
      InMemoryCache.set_stores idempotencyTtlSeconds (fun _ => h.cached) hset
    have hstep : s.advance R p i now now' = s.move i .creating { s.world with cache := c } := by
      simp only [RouteState.advance, hi, hkey, hc]
    rw [hstep]
    refine ⟨.held i, h.move (h.wellFormed.withCache c) hlive ⟨fun _ => rfl, fun _ => trivial⟩ ?_
      (fun _ hr => by cases hr) (by simp) ?_⟩
    · exact fun j hj => iff_of_false (held_ne hj) (by simp)
    · rw [count_held]
      exact h.recorded.congr rfl rfl
  · obtain ⟨value, hlive⟩ := cached_nonexpiring h.cached hfree
    have hstep : s.advance R p i now now' = s.move i .refused { s.world with cache := s.world.cache } := by
      simp only [RouteState.advance, hi, hkey, tryLock, InMemoryCache.set_nx_live hlive hnow]
    rw [hstep]
    exact ⟨g, h.stay hg h.cached id fun _ hr => by cases hr⟩

/-- A refused request answers with what is stored, and only an answered key has a response. -/
theorem look (h : Guarded R key base deadline g s) (hi : s.phase i = .refused)
    (hkey : truthy p.idemKey = some key) (hnow : now ≤ deadline) :
    Guarded R key base deadline g (s.advance R p i now now') := by
  have hg : g ≠ .held i := h.not_held (by rw [hi]; exact id)
  have hstep : ∀ {raw : Option CacheValue} {c}, lookUp now key s.world.cache = (raw, c) →
      s.advance R p i now now' = s.move i (.done (.ofDuplicate raw)) { s.world with cache := c } := by
    intro raw c hl
    simp only [RouteState.advance, hi, hkey, hl]
  cases g with
  | free =>
      obtain ⟨c, hc, habsent⟩ : ∃ c, lookUp now key s.world.cache = (none, c) ∧
          c.store.get? (makeKey key) = none := InMemoryCache.get_absent h.cached now
      rw [hstep hc]
      exact h.stay hg habsent id fun _ hr => by cases hr
  | held j =>
      rw [hstep (InMemoryCache.get_live h.cached hnow)]
      exact h.stay hg h.cached id fun _ hr => by cases hr
  | abandoned =>
      rw [hstep (InMemoryCache.get_live h.cached hnow)]
      exact h.stay hg h.cached id fun _ hr => by cases hr
  | answered response =>
      rw [hstep (InMemoryCache.get_live h.cached hnow)]
      refine h.stay hg h.cached id fun response' hr => ?_
      cases hr
      rfl

/-- The holder creates the expense. The service takes no second one for a recorded key, because
there is none yet. -/
theorem create (h : Guarded R key base deadline g s) (hi : s.phase i = .creating)
    (hkey : truthy p.idemKey = some key) :
    ∃ g', Guarded R key base deadline g' (s.advance R p i now now') := by
  obtain rfl : g = .held i := h.held (by rw [hi]; exact trivial)
  have hkey' : p.args.idempotencyKey = some key := (truthy_eq_some.mp hkey).1
  have hnone : Recorded key base 0 s.world := by
    have hrec := h.recorded
    simp only [Gate.count, hi] at hrec
    exact hrec
  have hrec : ∀ splits, Recorded key base 1 (s.world.accept R p.args splits) :=
    fun _ => hnone.accept h.wellFormed hkey'
  obtain ⟨phase, w, hstep, he⟩ := s.advance_step R p i now now'
  rw [hi] at hstep
  rw [he]
  cases hstep with
  | raised he' hr =>
      have hq : Quiet R s.world w := .of_rejects hr
      refine ⟨.held i, h.move (h.wellFormed.of_quiet hq) ?_ ⟨fun _ => rfl, fun _ => trivial⟩
        (fun _ _ => Iff.rfl) (fun _ hb => by cases hb) (by simp) ?_⟩
      · rw [hq.cache]
        exact h.cached
      · rw [count_held]
        exact hnone.congr hq.expenses hq.journals
  | crashed ha hf =>
      -- the entry still says PROCESSING, so nobody else gets in before it expires
      exact ⟨.abandoned, h.move (h.wellFormed.accept ha) h.cached (iff_of_false id (by simp))
        (fun j hj => iff_of_false (by simp) (held_ne hj)) (fun _ hr => by cases hr) (by simp) (hrec _)⟩
  | created ha hf =>
      refine ⟨.held i, h.move (h.wellFormed.accept ha) h.cached ⟨fun _ => rfl, fun _ => trivial⟩
        (fun _ _ => Iff.rfl) (fun _ hr => by cases hr) (by simp) ?_⟩
      rw [count_held]
      exact hrec _

theorem answer {response : ExpenseResponse} (h : Guarded R key base deadline g s)
    (hi : s.phase i = .created response) (hkey : truthy p.idemKey = some key)
    (hset : deadline ≤ now' + idempotencyTtlSeconds) :
    Guarded R key base deadline (.answered response) (s.advance R p i now now') := by
  obtain rfl : g = .held i := h.held (by rw [hi]; exact trivial)
  have hrec := h.recorded
  simp only [Gate.count, hi] at hrec
  obtain ⟨c, hc, hlive⟩ : ∃ c, s.world.cache.set now now' (makeKey key) (.response response)
      (some idempotencyTtlSeconds) false = (true, c) ∧
      Live (makeKey key) (CacheValue.response response) deadline c :=
    InMemoryCache.set_stores idempotencyTtlSeconds (by simp) hset
  have hstep : s.advance R p i now now' =
      s.move i (.done (.success response)) { s.world with cache := c } := by
    simp only [RouteState.advance, hi, hkey, storeResponse, hc]
  rw [hstep]
  refine h.move (h.wellFormed.withCache c) hlive (iff_of_false id (by simp)) ?_ ?_ (by simp)
    (hrec.congr rfl rfl)
  · exact fun j hj => iff_of_false (by simp) (held_ne hj)
  · intro response' hr
    cases hr
    rfl

theorem fail {e : PyError} (h : Guarded R key base deadline g s) (hi : s.phase i = .failed e)
    (hkey : truthy p.idemKey = some key) :
    Guarded R key base deadline .free (s.advance R p i now now') := by
  obtain rfl : g = .held i := h.held (by rw [hi]; exact trivial)
  have hrec := h.recorded
  simp only [Gate.count, hi] at hrec
  have hstep : s.advance R p i now now' = s.move i (.done (.rejected e))
      { s.world with cache := release key s.world.cache } := by
    simp only [RouteState.advance, hi, hkey]
  rw [hstep]
  exact h.move (h.wellFormed.withCache _) (InMemoryCache.delete_absent _ _) (iff_of_false id (by simp))
    (fun j hj => iff_of_false (by simp) (held_ne hj)) (fun _ hr => by cases hr) (by simp)
    (hrec.congr rfl rfl)

theorem advance (h : Guarded R key base deadline g s) (i : ι) (hkey : truthy p.idemKey = some key)
    (hnow : now ≤ deadline) (hset : deadline ≤ now' + idempotencyTtlSeconds) :
    ∃ g', Guarded R key base deadline g' (s.advance R p i now now') := by
  cases hi : s.phase i with
  | arrived => exact h.arrive hi hkey hnow hset
  | refused => exact ⟨g, h.look hi hkey hnow⟩
  | creating => exact h.create hi hkey
  | created response => exact ⟨_, h.answer hi hkey hset⟩
  | failed e => exact ⟨_, h.fail hi hkey⟩
  | done outcome =>
      refine ⟨g, ?_⟩
      simp only [RouteState.advance, hi]
      exact h

end Guarded

end ExpenseSettlement
