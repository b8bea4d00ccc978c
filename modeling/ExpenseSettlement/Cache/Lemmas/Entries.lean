import ExpenseSettlement.Cache.InMemoryCache

/-!
# One entry of the cache

An entry that has not expired is found by every reading and by every attempt to set it anew.
-/

namespace ExpenseSettlement

open Lib

variable {V : Type} {c : InMemoryCache V} {key : String} {value : V} {now now' until' : ℚ}

/-- The key holds the value and keeps it at least up to a time. -/
structure Live (key : String) (value : V) (until' : ℚ) (c : InMemoryCache V) : Prop where
  stored : c.store.get? key = some value
  expiry : ∃ exp, c.expiry.get? key = some exp ∧ until' ≤ exp

theorem Live.congr {c' : InMemoryCache V} (h : Live key value until' c)
    (hc : c'.store.get? key = c.store.get? key ∧ c'.expiry.get? key = c.expiry.get? key) :
    Live key value until' c' := by
  obtain ⟨hs, he⟩ := h
  rw [← hc.1] at hs
  rw [← hc.2] at he
  exact ⟨hs, he⟩

namespace InMemoryCache

theorem isExpired_of_live (h : Live key value until' c) (hn : now ≤ until') :
    c.isExpired now key = false := by
  obtain ⟨exp, he, hle⟩ := h.expiry
  simp only [isExpired, he, gt_iff_lt, decide_eq_false_iff_not, not_lt]
  exact hn.trans hle

theorem get_live (h : Live key value until' c) (hn : now ≤ until') :
    c.get now key = (some value, c) := by
  simp only [get, evictIfExpired, isExpired_of_live h hn, Bool.false_eq_true, ↓reduceIte, h.stored]

theorem set_nx_live (h : Live key value until' c) (hn : now ≤ until') (value' : V) (ex : Option ℤ) :
    c.set now now' key value' ex true = (false, c) := by
  have hm : key ∈ c.store.keys := Dict.mem_keys_of_get? h.stored
  simp only [set, evictIfExpired, isExpired_of_live h hn, Bool.false_eq_true, ↓reduceIte, hm,
    and_self]

theorem evictIfExpired_absent (h : c.store.get? key = none) :
    (c.evictIfExpired now key).2.store.get? key = none := by
  unfold evictIfExpired
  by_cases he : c.isExpired now key = true
  · rw [if_pos he]
    exact (Dict.get?_pop _ _ _).trans (if_pos rfl)
  · rw [if_neg he]
    exact h

theorem get_absent (h : c.store.get? key = none) (now : ℚ) :
    ∃ c', c.get now key = (none, c') ∧ c'.store.get? key = none := by
  unfold get evictIfExpired
  by_cases he : c.isExpired now key = true
  · rw [if_pos he]
    exact ⟨_, rfl, (Dict.get?_pop _ _ _).trans (if_pos rfl)⟩
  · rw [if_neg he]
    exact ⟨c, by simp only [h], h⟩

theorem set_stores (seconds : ℤ) {nx : Bool} (h : nx = true → c.store.get? key = none)
    (hu : until' ≤ now' + seconds) :
    ∃ c', c.set now now' key value (some seconds) nx = (true, c') ∧ Live key value until' c' := by
  have hfree : ¬ (nx = true ∧ key ∈ (c.evictIfExpired now key).2.store.keys) := by
    rintro ⟨hnx, hm⟩
    exact Dict.get?_eq_none.mp (evictIfExpired_absent (h hnx)) hm
  unfold set
  dsimp only
  rw [if_neg hfree]
  exact ⟨_, rfl, Dict.get?_set_self _ _ _, _, Dict.get?_set_self _ _ _, hu⟩

theorem delete_absent (key : String) (c : InMemoryCache V) :
    (c.delete key).2.store.get? key = none := (Dict.get?_pop _ _ _).trans (if_pos rfl)

theorem delete_of_ne {key' : String} (hne : key' ≠ key) (c : InMemoryCache V) :
    (c.delete key').2.store.get? key = c.store.get? key ∧
      (c.delete key').2.expiry.get? key = c.expiry.get? key :=
  ⟨(Dict.get?_pop _ _ _).trans (if_neg hne), (Dict.get?_pop _ _ _).trans (if_neg hne)⟩

/-! ## What an operation leaves of the other entries -/

theorem of_get?_pop {d : Dict String V} {key' : String} (h : (d.pop key').get? key = some value) :
    d.get? key = some value := by
  rw [Dict.get?_pop] at h
  split at h
  · cases h
  · exact h

theorem of_get?_evict {key' : String}
    (h : (c.evictIfExpired now key').2.store.get? key = some value) : c.store.get? key = some value := by
  unfold evictIfExpired at h
  split at h
  · exact of_get?_pop h
  · exact h

theorem of_get?_get {key' : String} (h : (c.get now key').2.store.get? key = some value) :
    c.store.get? key = some value := by
  have hget : (c.get now key').2 = (c.evictIfExpired now key').2 := by
    cases he : c.evictIfExpired now key' with
    | mk evicted c' => cases evicted <;> simp only [get, he]
  rw [hget] at h
  exact of_get?_evict h

theorem of_get?_set_or {key' : String} {value' : V} {ex : Option ℤ} {nx : Bool}
    (h : (c.set now now' key' value' ex nx).2.store.get? key = some value) :
    (key' = key ∧ value' = value) ∨ c.store.get? key = some value := by
  unfold set at h
  dsimp only at h
  split at h
  · exact .inr (of_get?_evict h)
  · rcases Dict.of_get?_set h with hnew | hold
    · exact .inl hnew
    · exact .inr (of_get?_evict hold)

theorem of_get?_set {key' : String} {value' : V} {ex : Option ℤ} {nx : Bool} (hne : key' ≠ key)
    (h : (c.set now now' key' value' ex nx).2.store.get? key = some value) :
    c.store.get? key = some value := by
  rcases of_get?_set_or h with ⟨he, -⟩ | hold
  · exact absurd he hne
  · exact hold

theorem of_get?_delete {key' : String} (h : (c.delete key').2.store.get? key = some value) :
    c.store.get? key = some value := of_get?_pop h

/-- A reading that finds a value finds the stored one and evicts nothing. -/
theorem get_eq_some {c' : InMemoryCache V} (h : c.get now key = (some value, c')) :
    c.store.get? key = some value ∧ c' = c := by
  unfold get evictIfExpired at h
  by_cases he : c.isExpired now key = true
  · simp only [he, ↓reduceIte] at h
    cases h
  · simp only [he, Bool.false_eq_true, ↓reduceIte, Prod.mk.injEq] at h
    exact ⟨h.1, h.2.symm⟩

/-- Without `nx` a value is always stored. -/
theorem set_get? (c : InMemoryCache V) (now now' : ℚ) (key : String) (value : V) (ex : Option ℤ) :
    (c.set now now' key value ex false).2.store.get? key = some value := by
  simp only [set, Bool.false_eq_true, false_and, ↓reduceIte]
  exact Dict.get?_set_self _ _ _

end InMemoryCache

end ExpenseSettlement
