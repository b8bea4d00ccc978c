import ExpenseSettlement.Cache.Lemmas.Entries
import ExpenseSettlement.Cache.Lemmas.Expiry

/-!
# Calls that write elsewhere

Readings, deletions and writes under other keys leave an entry as it is or remove it.
-/

namespace ExpenseSettlement

open Lib

namespace InMemoryCache

variable {V : Type} {c c' : InMemoryCache V} {writes : String → Prop} {key : String}

/-- What calls that write under certain keys only make of a cache. -/
inductive Evolves (writes : String → Prop) (c : InMemoryCache V) : InMemoryCache V → Prop
  | refl : Evolves writes c c
  | get {c' : InMemoryCache V} (h : Evolves writes c c') (now : ℚ) (key : String) :
      Evolves writes c (c'.get now key).2
  | set {c' : InMemoryCache V} (h : Evolves writes c c') (now now' : ℚ) {key : String} (hw : writes key)
      (value : V) (ex : Option ℤ) (nx : Bool) : Evolves writes c (c'.set now now' key value ex nx).2
  | delete {c' : InMemoryCache V} (h : Evolves writes c c') (key : String) :
      Evolves writes c (c'.delete key).2

theorem get_snd (now : ℚ) (key : String) (c : InMemoryCache V) :
    (c.get now key).2 = (c.evictIfExpired now key).2 := by
  rcases c.evictIfExpired_cases now key with ⟨-, he⟩ | ⟨-, he⟩
  · simp only [get, he]
  · simp only [get, he]

theorem of_entry_evict {now : ℚ} {key' : String} {e : TtlEntry V ℚ}
    (h : (c.evictIfExpired now key').2.entry key = some e) : c.entry key = some e := by
  rw [entry_evict] at h
  split at h
  · rename_i hk
    rw [live, aliveAt, Option.filter_eq_some_iff, hk] at h
    exact h.1
  · exact h

theorem entry_set_of_ne {now now' : ℚ} {key' : String} (hne : key' ≠ key) (value : V) (ex : Option ℤ)
    (nx : Bool) (c : InMemoryCache V) :
    (c.set now now' key' value ex nx).2.entry key = (c.evictIfExpired now key').2.entry key := by
  unfold set
  dsimp only
  split
  · rfl
  · rw [entry, entry]
    dsimp only
    cases ex with
    | none => rw [Dict.get?_set, Dict.get?_pop, if_neg hne, if_neg hne]
    | some seconds => rw [Dict.get?_set, Dict.get?_set, if_neg hne, if_neg hne]

theorem entry_set_self (now now' : ℚ) (key : String) (value : V) (seconds : ℤ) (c : InMemoryCache V) :
    (c.set now now' key value (some seconds) false).2.entry key = some ⟨value, some (now' + seconds)⟩ := by
  rw [entry, set_get?]
  simp only [set, Bool.false_eq_true, false_and, ↓reduceIte, Dict.get?_set_self, Option.map_some]

theorem entry_delete_self (key : String) (c : InMemoryCache V) : (c.delete key).2.entry key = none :=
  (entry_pop key key c).trans (if_pos rfl)

theorem Evolves.of_entry (h : Evolves writes c c') (hw : ¬ writes key) {e : TtlEntry V ℚ}
    (he : c'.entry key = some e) : c.entry key = some e := by
  induction h with
  | refl => exact he
  | get _ now key' ih =>
      rw [get_snd] at he
      exact ih (of_entry_evict he)
  | @set _ _ now now' key' hw' value ex nx ih =>
      have hne : key' ≠ key := by
        rintro rfl
        exact hw hw'
      rw [entry_set_of_ne hne] at he
      exact ih (of_entry_evict he)
  | delete _ key' ih =>
      rw [InMemoryCache.delete, entry_pop] at he
      split at he
      · cases he
      · exact ih he

theorem Evolves.of_get? (h : Evolves writes c c') (hw : ¬ writes key) {value : V}
    (hv : c'.store.get? key = some value) : c.store.get? key = some value := by
  have he : c'.entry key = some ⟨value, c'.expiry.get? key⟩ := by rw [entry, hv, Option.map_some]
  obtain ⟨value', hv', hentry⟩ := Option.map_eq_some_iff.mp (h.of_entry hw he)
  obtain rfl : value' = value := congrArg TtlEntry.value hentry
  exact hv'

/-- A write that is refused has at most removed what had expired. -/
theorem of_get?_set_false {now now' : ℚ} {key' : String} {value value' : V} {ex : Option ℤ} {nx : Bool}
    (h : c.set now now' key' value' ex nx = (false, c')) (hv : c'.store.get? key = some value) :
    c.store.get? key = some value := by
  unfold set at h
  dsimp only at h
  split at h
  · cases h
    exact of_get?_evict hv
  · cases h

theorem Evolves.mono {writes' : String → Prop} (h : Evolves writes c c')
    (hw : ∀ key, writes key → writes' key) :
    Evolves writes' c c' := by
  induction h with
  | refl => exact .refl
  | get _ now key ih => exact .get ih now key
  | set _ now now' hk value ex nx ih => exact .set ih now now' (hw _ hk) value ex nx
  | delete _ key ih => exact .delete ih key

/-- A reading that finds a value finds it before it expires. -/
theorem entry_of_get {now : ℚ} {value : V} (h : (c.get now key).1 = some value) :
    ∃ expiry, c.entry key = some ⟨value, expiry⟩ ∧ ∀ exp ∈ expiry, now ≤ exp := by
  rcases c.evictIfExpired_cases now key with ⟨-, he⟩ | ⟨hexp, he⟩
  · simp only [get, he] at h
    cases h
  · simp only [get, he] at h
    refine ⟨c.expiry.get? key, by rw [entry, h, Option.map_some], fun exp hmem => ?_⟩
    rw [isExpired, Option.mem_def.mp hmem] at hexp
    simpa using hexp

end InMemoryCache

end ExpenseSettlement
