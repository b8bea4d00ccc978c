import Mathlib.Data.List.Induction

/-!
# Runs of a state machine

A machine takes one input at a time. `run` is its state after a list of inputs, and a run is
inspected at each input: `pre` is what came before it.
-/

namespace Lib

variable {σ ι : Type}

def run (step : σ → ι → σ) (s : σ) (inputs : List ι) : σ := inputs.foldl step s

@[simp] theorem run_nil (step : σ → ι → σ) (s : σ) : run step s [] = s := rfl

@[simp] theorem run_append (step : σ → ι → σ) (s : σ) (pre post : List ι) :
    run step s (pre ++ post) = run step (run step s pre) post := List.foldl_append

theorem run_concat (step : σ → ι → σ) (s : σ) (pre : List ι) (i : ι) :
    run step s (pre ++ [i]) = step (run step s pre) i := by
  simp [run]

/-- `P` holds of every state and input at which the run from `s` takes a step. -/
def AtEach (step : σ → ι → σ) (s : σ) (inputs : List ι) (P : σ → ι → Prop) : Prop :=
  ∀ pre i post, inputs = pre ++ i :: post → P (run step s pre) i

variable {step : σ → ι → σ} {s : σ} {inputs : List ι}

@[simp] theorem atEach_nil (P : σ → ι → Prop) : AtEach step s [] P := by
  intro pre i post h
  simp at h

theorem atEach_concat {P : σ → ι → Prop} {i : ι} :
    AtEach step s (inputs ++ [i]) P ↔ AtEach step s inputs P ∧ P (run step s inputs) i := by
  constructor
  · intro h
    refine ⟨fun pre j post hp => h pre j (post ++ [i]) (by simp [hp]), h inputs i [] rfl⟩
  · rintro ⟨h, hi⟩ pre j post hp
    rcases List.eq_nil_or_concat post with rfl | ⟨post, k, rfl⟩
    · obtain ⟨rfl, hij⟩ := List.append_inj' hp rfl
      cases hij
      exact hi
    · have hp' : inputs ++ [i] = (pre ++ j :: post) ++ [k] := by simpa using hp
      exact h pre j post (List.append_inj' hp' rfl).1

theorem forall_places_cons {P : List ι → ι → List ι → Prop} {i : ι} :
    (∀ pre j post, i :: inputs = pre ++ j :: post → P pre j post) ↔
      P [] i inputs ∧ ∀ pre j post, inputs = pre ++ j :: post → P (i :: pre) j post := by
  constructor
  · intro h
    exact ⟨h [] i inputs rfl, fun pre j post hp => h (i :: pre) j post (by rw [hp]; rfl)⟩
  · rintro ⟨hi, h⟩ pre j post hp
    cases pre with
    | nil =>
        cases hp
        exact hi
    | cons k pre =>
        obtain ⟨rfl, hp'⟩ := List.cons.inj hp
        exact h pre j post hp'

theorem atEach_cons {P : σ → ι → Prop} {i : ι} :
    AtEach step s (i :: inputs) P ↔ P s i ∧ AtEach step (step s i) inputs P := forall_places_cons

instance decidableAtEach {P : σ → ι → Prop} [∀ s i, Decidable (P s i)] :
    (s : σ) → (inputs : List ι) → Decidable (AtEach step s inputs P)
  | _, [] => .isTrue (atEach_nil P)
  | s, i :: inputs =>
      have := decidableAtEach (P := P) (step s i) inputs
      decidable_of_iff (P s i ∧ AtEach step (step s i) inputs P) atEach_cons.symm

/-- What every step keeps holds after every run. -/
theorem run_invariant (Inv : σ → Prop) (hstep : ∀ s i, Inv s → Inv (step s i)) (hs : Inv s)
    (inputs : List ι) : Inv (run step s inputs) := by
  induction inputs using List.reverseRecOn with
  | nil => exact hs
  | append_singleton pre i ih => rw [run_concat]; exact hstep _ _ ih

/-- The same for an invariant that only the steps meeting `good` keep. -/
theorem run_invariant_of_atEach (Inv : σ → Prop) {good : σ → ι → Prop}
    (hstep : ∀ s i, Inv s → good s i → Inv (step s i)) (hs : Inv s)
    (hgood : AtEach step s inputs good) : Inv (run step s inputs) := by
  induction inputs using List.reverseRecOn with
  | nil => exact hs
  | append_singleton pre i ih =>
      obtain ⟨hpre, hi⟩ := atEach_concat.mp hgood
      rw [run_concat]
      exact hstep _ _ (ih hpre) hi

/-- While the invariant holds, a step is observed to be right exactly when it is good, and a good
step keeps the invariant. Then a run is right at every step exactly when every step of it is good. -/
theorem atEach_iff_atEach (Inv : σ → Prop) {good right : σ → ι → Prop}
    (hstep : ∀ s i, Inv s → good s i → Inv (step s i)) (hs : Inv s)
    (hright : ∀ s i, Inv s → (right s i ↔ good s i)) :
    AtEach step s inputs right ↔ AtEach step s inputs good := by
  induction inputs using List.reverseRecOn with
  | nil => simp
  | append_singleton pre i ih =>
      rw [atEach_concat, atEach_concat, ih]
      refine and_congr_right fun hgood => ?_
      exact hright _ _ (run_invariant_of_atEach Inv hstep hs hgood)

/-- Where what is observed is a property of the state after the step, a good step is one that keeps
it. -/
theorem atEach_step_iff_atEach (Inv P : σ → Prop) {good : σ → ι → Prop}
    (hstep : ∀ s i, Inv s → Inv (step s i)) (hs : Inv s) (hP : P s)
    (hgood : ∀ s i, Inv s → P s → (P (step s i) ↔ good s i)) :
    AtEach step s inputs (fun s i => P (step s i)) ↔ AtEach step s inputs good := by
  apply atEach_iff_atEach fun s => Inv s ∧ P s
  · rintro s i ⟨hinv, hp⟩ hi
    exact ⟨hstep s i hinv, (hgood s i hinv hp).mpr hi⟩
  · exact ⟨hs, hP⟩
  · rintro s i ⟨hinv, hp⟩
    exact hgood s i hinv hp

end Lib
