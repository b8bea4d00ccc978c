import Mathlib.Algebra.BigOperators.Group.List.Basic
import ExpenseSettlement.Core.Occ
import ExpenseSettlement.Lib.Run

/-!
# Swaps of versioned entities

A version that was read is never ahead of the entity's. While the two are equal nobody has swapped,
so the value read is still the entity's. Every swap is then made on top of the current value.
-/

namespace ExpenseSettlement

open Lib

namespace OCCVersionedEntity

variable {α : Type} {e : OCCVersionedEntity α} {version : Nat} {value newValue : α}

/-- The version and the value were read from the entity at some time. -/
def Seen (e : OCCVersionedEntity α) (version : Nat) (value : α) : Prop :=
  version ≤ e.version ∧ (version = e.version → value = e.value)

theorem seen_read (e : OCCVersionedEntity α) : e.Seen e.read.2 e.read.1 := ⟨Nat.le_refl _, fun _ => rfl⟩

theorem Seen.swapped (h : e.Seen version value) (newValue : α) :
    ({ e with value := newValue, version := e.version + 1 } : OCCVersionedEntity α).Seen version value := by
  obtain ⟨hle, -⟩ := h
  refine ⟨Nat.le_succ_of_le hle, fun he => ?_⟩
  dsimp only at he
  omega

theorem compareAndSwap_of_eq (h : version = e.version) (newValue : α) :
    e.compareAndSwap version newValue =
      (.ok (e.version + 1), { e with value := newValue, version := e.version + 1 }) := by
  rw [compareAndSwap, if_neg (not_not.mpr h.symm)]

theorem compareAndSwap_of_ne (h : version ≠ e.version) (newValue : α) :
    e.compareAndSwap version newValue = (.error ⟨"OCCVersionedEntity", e.entityId, version⟩, e) := by
  rw [compareAndSwap, if_pos h.symm]

end OCCVersionedEntity

theorem getOrCreate_of_some {S : OCCBalanceStore} {userId : String} {e : OCCVersionedEntity ℤ}
    (h : S.entities.get? userId = some e) (initialCents : ℤ) :
    S.getOrCreate userId initialCents = (e, S) := by
  simp only [OCCBalanceStore.getOrCreate, h]

theorem getOrCreate_stored (S : OCCBalanceStore) (userId : String) (initialCents : ℤ) :
    (S.getOrCreate userId initialCents).2.entities.get? userId =
      some (S.getOrCreate userId initialCents).1 := by
  cases h : S.entities.get? userId with
  | none =>
      simp only [OCCBalanceStore.getOrCreate, h]
      exact Dict.get?_set_self _ _ _
  | some e => rw [getOrCreate_of_some h]; exact h

/-! ## The tasks -/

def OccPhase.swaps : OccPhase → Nat
  | .returned _ => 1
  | .ready _ | .snapshot _ _ _ | .located _ _ | .reread _ _ _ | .backoff _ | .raised _ => 0

/-- What a task knows of the entity, and how often its body has been started. -/
def OccPhase.Fits (t : OccTask) (e : OCCVersionedEntity ℤ) (runs : Nat) : OccPhase → Prop
  | .ready attempt => runs = attempt ∧ attempt ≤ t.maxRetries
  | .snapshot attempt value version =>
      runs = attempt + 1 ∧ attempt ≤ t.maxRetries ∧ e.Seen version value
  | .located attempt version => runs = attempt + 1 ∧ attempt ≤ t.maxRetries ∧ version ≤ e.version
  | .reread attempt version currentVal =>
      runs = attempt + 1 ∧ attempt ≤ t.maxRetries ∧ e.Seen version currentVal
  | .backoff attempt => runs = attempt + 1 ∧ attempt < t.maxRetries
  | .returned _ | .raised _ => runs ≤ t.maxRetries + 1

namespace OccPhase.Fits

variable {t : OccTask} {e : OCCVersionedEntity ℤ} {runs : Nat} {phase : OccPhase}

theorem runs_le (h : phase.Fits t e runs) : runs ≤ t.maxRetries + 1 := by
  cases phase with
  | ready attempt => obtain ⟨rfl, hle⟩ := h; omega
  | snapshot attempt value version => obtain ⟨rfl, hle, -⟩ := h; omega
  | located attempt version => obtain ⟨rfl, hle, -⟩ := h; omega
  | reread attempt version currentVal => obtain ⟨rfl, hle, -⟩ := h; omega
  | backoff attempt => obtain ⟨rfl, hlt⟩ := h; omega
  | returned newVersion => exact h
  | raised error => exact h

theorem swapped (h : phase.Fits t e runs) (newValue : ℤ) :
    phase.Fits t { e with value := newValue, version := e.version + 1 } runs := by
  cases phase with
  | ready attempt => exact h
  | snapshot attempt value version =>
      obtain ⟨hruns, hle, hseen⟩ := h
      exact ⟨hruns, hle, hseen.swapped newValue⟩
  | located attempt version =>
      obtain ⟨hruns, hle, hversion⟩ := h
      exact ⟨hruns, hle, Nat.le_succ_of_le hversion⟩
  | reread attempt version currentVal =>
      obtain ⟨hruns, hle, hseen⟩ := h
      exact ⟨hruns, hle, hseen.swapped newValue⟩
  | backoff attempt => exact h
  | returned newVersion => exact h
  | raised error => exact h

theorem afterConflict {attempt : Nat} (hruns : runs = attempt + 1) (hle : attempt ≤ t.maxRetries)
    (exc : OptimisticLockConflictError) :
    (OccPhase.afterConflict t.maxRetries attempt exc).Fits t e runs := by
  unfold OccPhase.afterConflict
  split
  · rename_i heq
    simp only [OccPhase.Fits]
    omega
  · rename_i hne
    exact ⟨hruns, by omega⟩

end OccPhase.Fits

theorem afterConflict_swaps (maxRetries attempt : Nat) (exc : OptimisticLockConflictError) :
    (OccPhase.afterConflict maxRetries attempt exc).swaps = 0 := by
  unfold OccPhase.afterConflict
  split <;> rfl

/-! ## The invariant -/

variable {ι : Type} [DecidableEq ι] {userId : String} {task : ι → OccTask}

/-- The entity has taken the deltas of the swaps, on top of the account it was at the start. -/
structure SwapsAdded (userId : String) (task : ι → OccTask) (account e : OCCVersionedEntity ℤ)
    (s : OccState ι) : Prop where
  stored : s.store.entities.get? userId = some e
  value : e.value = account.value + (s.swapped.map fun i => (task i).deltaCents).sum
  version : e.version = account.version + s.swapped.length
  fits : ∀ i, (s.phase i).Fits (task i) e (s.runs i)
  counted : ∀ i, s.swapped.count i = (s.phase i).swaps

namespace SwapsAdded

variable {account e : OCCVersionedEntity ℤ} {s : OccState ι} {i : ι}

theorem start (task : ι → OccTask) {store : OCCBalanceStore} (h : store.entities.get? userId = some e) :
    SwapsAdded userId task e e (.start store) where
  stored := h
  value := by simp [OccState.start]
  version := rfl
  fits := fun _ => ⟨rfl, Nat.zero_le _⟩
  counted := fun _ => rfl

theorem goto {phase : OccPhase} (h : SwapsAdded userId task account e s)
    (hf : phase.Fits (task i) e (s.runs i)) (hs : phase.swaps = (s.phase i).swaps) :
    SwapsAdded userId task account e (s.goto i phase) where
  stored := h.stored
  value := h.value
  version := h.version
  fits := by
    intro j
    rcases eq_or_ne j i with rfl | hj
    · simp only [OccState.goto, Function.update_self]
      exact hf
    · simp only [OccState.goto, Function.update_of_ne hj]
      exact h.fits j
  counted := by
    intro j
    rcases eq_or_ne j i with rfl | hj
    · simp only [OccState.goto, Function.update_self, hs]
      exact h.counted j
    · simp only [OccState.goto, Function.update_of_ne hj]
      exact h.counted j

/-- The body is started, and reads. -/
theorem begin {attempt : Nat} (h : SwapsAdded userId task account e s)
    (hi : s.phase i = .ready attempt) :
    SwapsAdded userId task account e
      { s.goto i (.snapshot attempt e.read.1 e.read.2) with
        runs := Function.update s.runs i (s.runs i + 1) } where
  stored := h.stored
  value := h.value
  version := h.version
  fits := by
    intro j
    rcases eq_or_ne j i with rfl | hj
    · have hready := h.fits j
      rw [hi] at hready
      obtain ⟨hruns, hle⟩ := hready
      simp only [OccState.goto, Function.update_self]
      exact ⟨by rw [hruns], hle, e.seen_read⟩
    · simp only [OccState.goto, Function.update_of_ne hj]
      exact h.fits j
  counted := by
    intro j
    rcases eq_or_ne j i with rfl | hj
    · have hcount := h.counted j
      rw [hi] at hcount
      simp only [OccState.goto, Function.update_self]
      exact hcount
    · simp only [OccState.goto, Function.update_of_ne hj]
      exact h.counted j

/-- A swap that is let through has been computed from the entity's current value. -/
theorem swap {attempt version : Nat} {newValue : ℤ} (h : SwapsAdded userId task account e s)
    (hs : (s.phase i).swaps = 0) (hruns : s.runs i = attempt + 1) (hle : attempt ≤ (task i).maxRetries)
    (hnew : version = e.version → newValue = e.value + (task i).deltaCents) :
    ∃ e', SwapsAdded userId task account e'
      (s.swap userId (task i) i attempt version newValue e) := by
  by_cases hversion : version = e.version
  · refine ⟨{ e with value := newValue, version := e.version + 1 }, ?_⟩
    simp only [OccState.swap, OCCVersionedEntity.compareAndSwap_of_eq hversion]
    constructor
    · exact Dict.get?_set_self _ _ _
    · simp only [hnew hversion, h.value, List.map_append, List.sum_append, List.map_cons,
        List.map_nil, List.sum_cons, List.sum_nil, add_zero, add_assoc]
    · simp only [h.version, List.length_append, List.length_singleton, Nat.add_assoc]
    · intro j
      rcases eq_or_ne j i with rfl | hj
      · simp only [OccState.goto, Function.update_self, OccPhase.Fits]
        omega
      · simp only [OccState.goto, Function.update_of_ne hj]
        exact (h.fits j).swapped newValue
    · intro j
      rcases eq_or_ne j i with rfl | hj
      · have hcount : s.swapped.count j = 0 := (h.counted j).trans hs
        simp only [OccState.goto, Function.update_self, List.count_append, hcount]
        simp [OccPhase.swaps]
      · simp only [OccState.goto, Function.update_of_ne hj, List.count_append, h.counted]
        simp [hj.symm]
  · simp only [OccState.swap, OCCVersionedEntity.compareAndSwap_of_ne hversion]
    exact ⟨e, h.goto (.afterConflict hruns hle _) ((afterConflict_swaps _ _ _).trans hs.symm)⟩

theorem step (h : SwapsAdded userId task account e s) (i : ι) :
    ∃ e', SwapsAdded userId task account e' (s.step userId task i) := by
  have hfits := h.fits i
  cases hi : s.phase i with
  | ready attempt =>
      simp only [OccState.step, hi, h.stored]
      exact ⟨e, h.begin hi⟩
  | snapshot attempt value version =>
      rw [hi] at hfits
      obtain ⟨hruns, hle, hversion, hvalue⟩ := hfits
      cases hb : (task i).body with
      | compareAndSwap =>
          simp only [OccState.step, hi, h.stored, hb]
          exact h.swap (by rw [hi]; rfl) hruns hle fun he => by rw [hvalue he]
      | applyDelta =>
          simp only [OccState.step, hi, h.stored, hb, getOrCreate_of_some h.stored]
          exact ⟨e, h.goto ⟨hruns, hle, hversion⟩ (by rw [hi]; rfl)⟩
  | located attempt version =>
      rw [hi] at hfits
      obtain ⟨hruns, hle, hversion⟩ := hfits
      simp only [OccState.step, hi, h.stored]
      -- the value is newer than the version, and only counts if that is still current
      exact ⟨e, h.goto ⟨hruns, hle, hversion, fun _ => rfl⟩ (by rw [hi]; rfl)⟩
  | reread attempt version currentVal =>
      rw [hi] at hfits
      obtain ⟨hruns, hle, -, hvalue⟩ := hfits
      simp only [OccState.step, hi, h.stored]
      exact h.swap (by rw [hi]; rfl) hruns hle fun he => by rw [hvalue he]
  | backoff attempt =>
      rw [hi] at hfits
      obtain ⟨hruns, hlt⟩ := hfits
      simp only [OccState.step, hi]
      exact ⟨e, h.goto ⟨hruns, hlt⟩ (by rw [hi]; rfl)⟩
  | returned newVersion =>
      simp only [OccState.step, hi]
      exact ⟨e, h⟩
  | raised error =>
      simp only [OccState.step, hi]
      exact ⟨e, h⟩

theorem run (h : SwapsAdded userId task account e s) (schedule : List ι) :
    ∃ e', SwapsAdded userId task account e' (Lib.run (OccState.step userId task) s schedule) :=
  run_invariant (fun s => ∃ e, SwapsAdded userId task account e s)
    (fun _ i ⟨_, h⟩ => h.step i) ⟨e, h⟩ schedule

end SwapsAdded

end ExpenseSettlement
