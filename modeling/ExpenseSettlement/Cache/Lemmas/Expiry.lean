import ExpenseSettlement.Cache.Reference
import ExpenseSettlement.Lib.Run

/-!
# The cache against its reference

The two agree on the entries that are alive. A call keeps them so, and answers the same from both,
unless it meets an expired key and does not evict it.
-/

namespace ExpenseSettlement

open Lib

variable {V : Type} {c : InMemoryCache V} {m : TtlMap V} {now later t : ℚ} {key : String}

namespace InMemoryCache

/-- What is stored under the key, expired or not. -/
def entry (c : InMemoryCache V) (key : String) : Option (TtlEntry V ℚ) :=
  (c.store.get? key).map fun value => ⟨value, c.expiry.get? key⟩

def live (now : ℚ) (c : InMemoryCache V) (key : String) : Option (TtlEntry V ℚ) :=
  aliveAt now (c.entry key)

/-- Every key with an expiry is stored. -/
def Paired (c : InMemoryCache V) : Prop := ∀ key ∈ c.expiry.keys, key ∈ c.store.keys

theorem entry_eq_none : c.entry key = none ↔ key ∉ c.store.keys := by
  rw [entry, Option.map_eq_none_iff, Dict.get?_eq_none]

theorem live_of_not_expired (h : c.isExpired now key = false) : c.live now key = c.entry key := by
  rw [live, entry, isExpired] at *
  cases hs : c.store.get? key with
  | none => rfl
  | some value =>
      rw [Option.map_some, aliveAt, Option.filter_some, if_pos]
      cases he : c.expiry.get? key with
      | none => rfl
      | some exp => simpa [TtlEntry.alive, he] using h

theorem live_of_expired (h : c.isExpired now key = true) : c.live now key = none := by
  rw [live, entry, isExpired] at *
  cases hs : c.store.get? key with
  | none => rfl
  | some value =>
      rw [Option.map_some, aliveAt, Option.filter_some, if_neg]
      cases he : c.expiry.get? key with
      | none => simp [he] at h
      | some exp => simpa [TtlEntry.alive, he] using h

theorem Paired.mem_of_expired (hp : c.Paired) (h : c.isExpired now key = true) :
    ∃ exp, c.expiry.get? key = some exp ∧ exp < now ∧ key ∈ c.store.keys := by
  rw [isExpired] at h
  cases he : c.expiry.get? key with
  | none => simp [he] at h
  | some exp =>
      simp only [he, gt_iff_lt, decide_eq_true_eq] at h
      exact ⟨exp, rfl, h, hp key (Dict.mem_keys_of_get? he)⟩

/-! ## Eviction -/

theorem evictIfExpired_cases (now : ℚ) (key : String) (c : InMemoryCache V) :
    (c.isExpired now key = true ∧
      c.evictIfExpired now key = (true, ⟨c.store.pop key, c.expiry.pop key⟩)) ∨
    (c.isExpired now key = false ∧ c.evictIfExpired now key = (false, c)) := by
  rw [evictIfExpired]
  cases h : c.isExpired now key with
  | true => exact .inl ⟨rfl, rfl⟩
  | false => exact .inr ⟨rfl, rfl⟩

theorem entry_pop (key key' : String) (c : InMemoryCache V) :
    (⟨c.store.pop key, c.expiry.pop key⟩ : InMemoryCache V).entry key' =
      if key = key' then none else c.entry key' := by
  simp only [entry, Dict.get?_pop]
  split
  · rfl
  · rfl

theorem entry_evict (now : ℚ) (key key' : String) (c : InMemoryCache V) :
    (c.evictIfExpired now key).2.entry key' = if key = key' then c.live now key else c.entry key' := by
  rcases c.evictIfExpired_cases now key with ⟨hexp, he⟩ | ⟨hexp, he⟩
  · rw [he, entry_pop, live_of_expired hexp]
  · rw [he, live_of_not_expired hexp]
    split
    · rename_i hk
      rw [hk]
    · rfl

theorem live_evict (now : ℚ) (key key' : String) (c : InMemoryCache V) :
    (c.evictIfExpired now key).2.live now key' = c.live now key' := by
  rw [live, entry_evict]
  split
  · rename_i hk
    rw [← hk, live, aliveAt_aliveAt (le_refl now)]
  · rfl

/-! ## Keys with an expiry stay stored -/

theorem Paired.pop (hp : c.Paired) (key : String) :
    (⟨c.store.pop key, c.expiry.pop key⟩ : InMemoryCache V).Paired := by
  intro k hk
  rw [Dict.mem_keys_pop] at hk ⊢
  exact ⟨hk.1, hp k hk.2⟩

theorem Paired.evict (hp : c.Paired) (now : ℚ) (key : String) : (c.evictIfExpired now key).2.Paired := by
  rcases c.evictIfExpired_cases now key with ⟨-, he⟩ | ⟨-, he⟩
  · rw [he]
    exact hp.pop key
  · rw [he]
    exact hp

end InMemoryCache

/-! ## Agreement -/

structure Agrees (now : ℚ) (c : InMemoryCache V) (m : TtlMap V) : Prop where
  paired : c.Paired
  live : ∀ key, c.live now key = aliveAt now (m.get? key)

namespace Agrees

theorem init (now : ℚ) : Agrees now (.init : InMemoryCache V) Dict.empty where
  paired := fun _ h => by cases h
  live := fun _ => rfl

theorem mono (h : Agrees now c m) (hle : now ≤ later) : Agrees later c m where
  paired := h.paired
  live := fun key => aliveAt_congr hle (h.live key)

theorem get?_purge (h : Agrees now c m) (key : String) : (purge now m).get? key = c.live now key := by
  rw [Lib.get?_purge, h.live]

theorem mem_keys_purge (h : Agrees now c m) : key ∈ (purge now m).keys ↔ c.live now key ≠ none := by
  rw [← h.get?_purge key, ne_eq, Dict.get?_eq_none, not_not]

/-- A cache whose entries are those of the purged map, some of them expired since. -/
theorem of_purged (h : Agrees now c m) {c' : InMemoryCache V} (hp : c'.Paired)
    (he : ∀ key, c'.live now key = c.live now key) : Agrees now c' (purge now m) where
  paired := hp
  live := by
    intro key
    rw [he, h.get?_purge, InMemoryCache.live, aliveAt_aliveAt (le_refl now)]

theorem evict (h : Agrees now c m) (key : String) :
    Agrees now (c.evictIfExpired now key).2 (purge now m) :=
  h.of_purged (h.paired.evict now key) (InMemoryCache.live_evict now key · c)

theorem pop (h : Agrees now c m) (key : String) :
    Agrees now (⟨c.store.pop key, c.expiry.pop key⟩ : InMemoryCache V) (m.pop key) where
  paired := h.paired.pop key
  live := by
    intro k
    rw [InMemoryCache.live, InMemoryCache.entry_pop, Dict.get?_pop]
    split
    · rfl
    · exact h.live k

/-- The same entry is set in both. -/
theorem set (h : Agrees now c m) {c' : InMemoryCache V} {e : TtlEntry V ℚ} (hp : c'.Paired)
    (he : ∀ k, c'.entry k = if key = k then some e else c.entry k) : Agrees now c' (m.set key e) where
  paired := hp
  live := by
    intro k
    rw [InMemoryCache.live, he, Dict.get?_set]
    split
    · rfl
    · exact h.live k

/-! ## Calls that evict -/

variable {f : String → String → Bool}

theorem call_get (h : Agrees now c m) (key : String) :
    (c.call f (.get now key)).1 = (m.call f (.get now key)).1 ∧
      Agrees now (c.call f (.get now key)).2 (m.call f (.get now key)).2 := by
  simp only [InMemoryCache.call, InMemoryCache.get, TtlMap.call, TtlMap.answer, CacheCall.now,
    h.get?_purge]
  have hevict := h.evict key
  rcases c.evictIfExpired_cases now key with ⟨hexp, he⟩ | ⟨hexp, he⟩
  · rw [he] at hevict
    rw [he, InMemoryCache.live_of_expired hexp]
    exact ⟨rfl, hevict⟩
  · rw [he] at hevict
    rw [he, InMemoryCache.live_of_not_expired hexp]
    refine ⟨?_, hevict⟩
    simp only [InMemoryCache.entry, Option.map_map]
    exact congrArg CacheReply.value Option.map_id'.symm

theorem call_existsKey (h : Agrees now c m) (key : String) :
    (c.call f (.existsKey now key)).1 = (m.call f (.existsKey now key)).1 ∧
      Agrees now (c.call f (.existsKey now key)).2 (m.call f (.existsKey now key)).2 := by
  simp only [InMemoryCache.call, InMemoryCache.existsKey, TtlMap.call, TtlMap.answer, CacheCall.now,
    h.mem_keys_purge]
  have hevict := h.evict key
  rcases c.evictIfExpired_cases now key with ⟨hexp, he⟩ | ⟨hexp, he⟩
  · rw [he] at hevict
    rw [he, InMemoryCache.live_of_expired hexp, if_neg (not_not.mpr rfl)]
    exact ⟨rfl, hevict⟩
  · rw [he] at hevict
    rw [he, InMemoryCache.live_of_not_expired hexp]
    simp only [ne_eq, InMemoryCache.entry_eq_none, not_not]
    exact ⟨trivial, hevict⟩

theorem call_set (h : Agrees now c m) {now' : ℚ} (hle : now ≤ now') (key : String) (value : V)
    (ex : Option ℤ) (nx : Bool) :
    (c.call f (.set now now' key value ex nx)).1 = (m.call f (.set now now' key value ex nx)).1 ∧
      Agrees now' (c.call f (.set now now' key value ex nx)).2
        (m.call f (.set now now' key value ex nx)).2 := by
  have hevict := h.evict key
  have hmem : key ∈ (c.evictIfExpired now key).2.store.keys ↔ key ∈ (purge now m).keys := by
    rw [h.mem_keys_purge, ← not_iff_not, ← InMemoryCache.entry_eq_none, InMemoryCache.entry_evict,
      if_pos rfl, not_not]
  simp only [InMemoryCache.call, InMemoryCache.set, TtlMap.call, TtlMap.answer, CacheCall.now, hmem]
  rcases em (nx = true ∧ key ∈ (purge now m).keys) with htaken | hfree
  · simp only [htaken, and_self, ↓reduceIte]
    exact ⟨trivial, hevict.mono hle⟩
  · simp only [hfree, ↓reduceIte]
    refine ⟨trivial, (hevict.set ?_ ?_).mono hle⟩
    · cases ex with
      | none =>
          intro k hk
          exact Dict.mem_keys_set.mpr (.inr (hevict.paired k (Dict.mem_keys_pop.mp hk).2))
      | some seconds =>
          intro k hk
          rcases Dict.mem_keys_set.mp hk with rfl | hk
          · exact Dict.mem_keys_set.mpr (.inl rfl)
          · exact Dict.mem_keys_set.mpr (.inr (hevict.paired k hk))
    · intro k
      cases ex with
      | none =>
          simp only [InMemoryCache.entry, Dict.get?_set, Dict.get?_pop]
          split
          · rfl
          · rfl
      | some seconds =>
          simp only [InMemoryCache.entry, Dict.get?_set]
          split
          · rfl
          · rfl

/-- A key is listed if it has not expired, whether it has an expiry or none. -/
theorem mem_keys_iff (h : Agrees now c m) (pattern : String) :
    key ∈ c.keys f now pattern ↔
      key ∈ (purge now m).keys ∧ (pattern = "*" ∨ f key pattern = true) := by
  have hlisted : key ∈ (c.expiry.items.filter fun p => now ≤ p.2).map Prod.fst ++
      c.store.keys.filter (· ∉ c.expiry.keys) ↔ key ∈ (purge now m).keys := by
    rw [h.mem_keys_purge, List.mem_append]
    simp only [List.mem_map, List.mem_filter, decide_eq_true_eq, Prod.exists, exists_and_right,
      exists_eq_right]
    cases he : c.expiry.get? key with
    | none =>
        have hnot : ¬ ∃ exp, (key, exp) ∈ c.expiry.items ∧ now ≤ exp := by
          rintro ⟨exp, hm, -⟩
          rw [Dict.get?_eq_some.mpr hm] at he
          cases he
        have hexp : c.isExpired now key = false := by simp only [InMemoryCache.isExpired, he]
        rw [InMemoryCache.live_of_not_expired hexp, ne_eq, InMemoryCache.entry_eq_none, not_not]
        simp only [hnot, Dict.get?_eq_none.mp he, not_false_eq_true, and_true, false_or]
    | some exp =>
        have hkey := Dict.mem_keys_of_get? he
        have hitem : (∃ exp', (key, exp') ∈ c.expiry.items ∧ now ≤ exp') ↔ now ≤ exp := by
          simp only [← Dict.get?_eq_some, he, Option.some.injEq, exists_eq_left']
        simp only [hitem, hkey, not_true_eq_false, and_false, or_false]
        rcases le_or_gt now exp with hle | hgt
        · have hexp : c.isExpired now key = false := by simp [InMemoryCache.isExpired, he, hle]
          rw [InMemoryCache.live_of_not_expired hexp, ne_eq, InMemoryCache.entry_eq_none, not_not]
          exact ⟨fun _ => h.paired key hkey, fun _ => hle⟩
        · have hexp : c.isExpired now key = true := by simp [InMemoryCache.isExpired, he, hgt]
          rw [InMemoryCache.live_of_expired hexp]
          exact ⟨fun hle => absurd hgt (not_lt.mpr hle), fun hne => absurd rfl hne⟩
  rw [InMemoryCache.keys]
  split
  · rename_i hall
    rw [hlisted]
    simp only [hall, true_or, and_true]
  · rename_i hsome
    rw [List.mem_filter, hlisted]
    simp only [hsome, false_or]

theorem call_keys (h : Agrees now c m) (pattern : String) :
    (c.call f (.keys now pattern)).1 = (m.call f (.keys now pattern)).1 ∧
      Agrees now (c.call f (.keys now pattern)).2 (m.call f (.keys now pattern)).2 := by
  refine ⟨?_, h.of_purged h.paired fun _ => rfl⟩
  simp only [InMemoryCache.call, TtlMap.call, TtlMap.answer, CacheCall.now, CacheReply.names.injEq]
  apply Finset.ext
  intro key
  rw [List.mem_toFinset, List.mem_toFinset, h.mem_keys_iff]
  split
  · rename_i hall
    simp only [hall, true_or, and_true]
  · rename_i hsome
    simp only [hsome, false_or, List.mem_filter]

/-! ## Calls that do not evict -/

theorem call_delete (h : Agrees now c m) (key : String) :
    ((c.call f (.delete now key)).1 = (m.call f (.delete now key)).1 ↔ ¬ c.isExpired now key = true) ∧
      Agrees now (c.call f (.delete now key)).2 (m.call f (.delete now key)).2 := by
  have hpurge : Agrees now c (purge now m) := h.of_purged h.paired fun _ => rfl
  refine ⟨?_, hpurge.pop key⟩
  simp only [InMemoryCache.call, InMemoryCache.delete, TtlMap.call, TtlMap.answer, CacheCall.now,
    CacheReply.count.injEq, h.mem_keys_purge]
  cases hexp : c.isExpired now key with
  | true =>
      obtain ⟨-, -, -, hstored⟩ := h.paired.mem_of_expired hexp
      rw [InMemoryCache.live_of_expired hexp]
      simp [hstored]
  | false =>
      rw [InMemoryCache.live_of_not_expired hexp]
      simp [InMemoryCache.entry_eq_none]

theorem call_expire (h : Agrees now c m) (key : String) (seconds : ℤ) :
    ((c.call f (.expire now key seconds)).1 = (m.call f (.expire now key seconds)).1 ↔
        ¬ c.isExpired now key = true) ∧
      (¬ c.isExpired now key = true →
        Agrees now (c.call f (.expire now key seconds)).2 (m.call f (.expire now key seconds)).2) := by
  have hpurge : Agrees now c (purge now m) := h.of_purged h.paired fun _ => rfl
  simp only [InMemoryCache.call, InMemoryCache.expire, TtlMap.call, TtlMap.answer, CacheCall.now,
    h.get?_purge]
  cases hexp : c.isExpired now key with
  | true =>
      obtain ⟨-, -, -, hstored⟩ := h.paired.mem_of_expired hexp
      rw [InMemoryCache.live_of_expired hexp, if_pos hstored]
      simp
  | false =>
      rw [InMemoryCache.live_of_not_expired hexp]
      cases hs : c.store.get? key with
      | none =>
          rw [if_neg (Dict.get?_eq_none.mp hs), InMemoryCache.entry, hs]
          simpa using hpurge
      | some value =>
          have hstored := Dict.mem_keys_of_get? hs
          rw [if_pos hstored, InMemoryCache.entry, hs]
          simp only [Option.map_some, Bool.false_eq_true, not_false_eq_true, true_and, forall_const]
          refine hpurge.set ?_ ?_
          · intro k hk
            rcases Dict.mem_keys_set.mp hk with rfl | hk
            · exact hstored
            · exact h.paired k hk
          · intro k
            simp only [InMemoryCache.entry, Dict.get?_set]
            split
            · rename_i hk
              rw [← hk, hs]
              rfl
            · rfl

theorem call_ttl (h : Agrees now c m) (key : String) :
    ((c.call f (.ttl now key)).1 = (m.call f (.ttl now key)).1 ↔ ¬ c.isExpired now key = true) ∧
      Agrees now (c.call f (.ttl now key)).2 (m.call f (.ttl now key)).2 := by
  have hpurge : Agrees now c (purge now m) := h.of_purged h.paired fun _ => rfl
  simp only [InMemoryCache.call, InMemoryCache.ttl, TtlMap.call, TtlMap.answer, CacheCall.now,
    h.get?_purge]
  cases hexp : c.isExpired now key with
  | true =>
      obtain ⟨exp, he, -, -⟩ := h.paired.mem_of_expired hexp
      rw [InMemoryCache.live_of_expired hexp, he]
      refine ⟨?_, hpurge⟩
      simp only [Option.bind_none, CacheReply.count.injEq, not_true_eq_false, iff_false]
      omega
  | false =>
      rw [InMemoryCache.live_of_not_expired hexp]
      cases he : c.expiry.get? key with
      | none =>
          have hbind : (c.entry key).bind (·.expiry) = none := by
            rw [InMemoryCache.entry, he]
            cases c.store.get? key with
            | none => rfl
            | some value => rfl
          rw [hbind]
          exact ⟨by simp, hpurge⟩
      | some exp =>
          obtain ⟨value, hs⟩ := Dict.mem_keys.mp (h.paired key (Dict.mem_keys_of_get? he))
          rw [InMemoryCache.entry, hs, he]
          exact ⟨by simp, hpurge⟩

/-! ## Runs -/

/-- A call is answered alike unless it meets an expired key. -/
theorem call {call : CacheCall V} (h : Agrees call.now c m) (hsorted : call.readings.Pairwise (· ≤ ·)) :
    ((c.call f call).1 = (m.call f call).1 ↔ ¬ MeetsExpired c call) ∧
      (¬ MeetsExpired c call → ∃ t ∈ call.readings, Agrees t (c.call f call).2 (m.call f call).2) := by
  cases call with
  | get now key =>
      obtain ⟨hreply, hnext⟩ := h.call_get (f := f) key
      exact ⟨iff_of_true hreply id, fun _ => ⟨now, .head _, hnext⟩⟩
  | set now now' key value ex nx =>
      have hle : now ≤ now' := (List.pairwise_pair.mp hsorted)
      obtain ⟨hreply, hnext⟩ := h.call_set (f := f) hle key value ex nx
      exact ⟨iff_of_true hreply id, fun _ => ⟨now', .tail _ (.head _), hnext⟩⟩
  | delete now key =>
      obtain ⟨hreply, hnext⟩ := h.call_delete (f := f) key
      exact ⟨hreply, fun _ => ⟨now, .head _, hnext⟩⟩
  | existsKey now key =>
      obtain ⟨hreply, hnext⟩ := h.call_existsKey (f := f) key
      exact ⟨iff_of_true hreply id, fun _ => ⟨now, .head _, hnext⟩⟩
  | expire now key seconds =>
      obtain ⟨hreply, hnext⟩ := h.call_expire (f := f) key seconds
      exact ⟨hreply, fun hgood => ⟨now, .head _, hnext hgood⟩⟩
  | ttl now key =>
      obtain ⟨hreply, hnext⟩ := h.call_ttl (f := f) key
      exact ⟨hreply, fun _ => ⟨now, .head _, hnext⟩⟩
  | keys now pattern =>
      obtain ⟨hreply, hnext⟩ := h.call_keys (f := f) pattern
      exact ⟨iff_of_true hreply id, fun _ => ⟨now, .head _, hnext⟩⟩

/-- From states that agree at a time before all readings. -/
theorem run_iff (f : String → String → Bool) {calls : List (CacheCall V)} (h : Agrees t c m)
    (hle : ∀ r ∈ calls.flatMap (·.readings), t ≤ r)
    (hsorted : (calls.flatMap (·.readings)).Pairwise (· ≤ ·)) :
    AtEach (bothStep f) (c, m) calls (fun s call => (s.1.call f call).1 = (s.2.call f call).1) ↔
      AtEach (fun c call => (c.call f call).2) c calls (fun c call => ¬ MeetsExpired c call) := by
  induction calls generalizing c m t with
  | nil => simp only [atEach_nil]
  | cons call calls ih =>
      rw [List.flatMap_cons, List.pairwise_append] at hsorted
      obtain ⟨hcall, hrest, hbefore⟩ := hsorted
      have hnow : call.now ∈ call.readings := by
        cases call <;> exact .head _
      have hnext := h.mono (hle _ (List.mem_flatMap.mpr ⟨call, List.mem_cons_self, hnow⟩))
      obtain ⟨hreply, hkeeps⟩ := hnext.call (f := f) hcall
      rw [atEach_cons, atEach_cons, hreply]
      refine and_congr_right fun hgood => ?_
      obtain ⟨t', ht', hagrees⟩ := hkeeps hgood
      exact ih hagrees (fun r hr => hbefore t' ht' r hr) hrest

end Agrees

end ExpenseSettlement
