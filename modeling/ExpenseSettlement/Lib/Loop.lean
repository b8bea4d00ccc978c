import Mathlib.Logic.Relation

/-!
# Terminating loops

A `while` loop is a step that answers `none` when the guard is false, with a size that every
iteration decreases. Its run is then total, and a property that one iteration keeps holds of every
state the loop passes through.
-/

namespace Lib

structure Loop (σ : Type) where
  step : σ → Option σ
  size : σ → Nat
  size_lt : ∀ {s s'}, step s = some s' → size s' < size s

namespace Loop

variable {σ : Type} (L : Loop σ)

def iterate : Nat → σ → σ
  | 0, s => s
  | n + 1, s =>
      match L.step s with
      | none => s
      | some s' => iterate n s'

/-- The state in which the loop stops. -/
def run (s : σ) : σ := L.iterate (L.size s) s

/-- `L.Visits s s'`: the loop started in `s` passes through `s'`. -/
def Visits : σ → σ → Prop := Relation.ReflTransGen fun s s' => L.step s = some s'

theorem iterate_done (n : Nat) (s : σ) (h : L.size s ≤ n) : L.step (L.iterate n s) = none := by
  induction n generalizing s with
  | zero =>
      cases hs : L.step s with
      | none => exact hs
      | some s' =>
          have := L.size_lt hs
          omega
  | succ n ih =>
      cases hs : L.step s with
      | none => simp [iterate, hs]
      | some s' =>
          have := L.size_lt hs
          simp only [iterate, hs]
          exact ih s' (by omega)

/-- The guard is false where the run stops: the loop terminates. -/
theorem run_done (s : σ) : L.step (L.run s) = none := L.iterate_done _ s (Nat.le_refl _)

theorem iterate_of_stuck (n : Nat) {s : σ} (h : L.step s = none) : L.iterate n s = s := by
  cases n with
  | zero => rfl
  | succ n => simp only [iterate, h]

theorem run_of_stuck {s : σ} (h : L.step s = none) : L.run s = s := L.iterate_of_stuck _ h

/-- Iterations beyond the size change nothing. -/
theorem iterate_eq_iterate {m n : Nat} {s : σ} (hm : L.size s ≤ m) (hn : L.size s ≤ n) :
    L.iterate m s = L.iterate n s := by
  cases hs : L.step s with
  | none => rw [L.iterate_of_stuck m hs, L.iterate_of_stuck n hs]
  | some s' =>
      have hlt := L.size_lt hs
      cases m with
      | zero => omega
      | succ m =>
          cases n with
          | zero => omega
          | succ n =>
              simp only [iterate, hs]
              exact iterate_eq_iterate (by omega) (by omega)

theorem run_of_step {s s' : σ} (h : L.step s = some s') : L.run s = L.run s' := by
  have hlt := L.size_lt h
  have hone : L.run s = L.iterate (L.size s + 1) s :=
    L.iterate_eq_iterate (Nat.le_refl _) (Nat.le_succ _)
  rw [hone]
  simp only [iterate, h]
  exact L.iterate_eq_iterate (Nat.le_of_lt hlt) (Nat.le_refl _)

theorem visits_iterate (n : Nat) (s : σ) : L.Visits s (L.iterate n s) := by
  induction n generalizing s with
  | zero => exact .refl
  | succ n ih =>
      cases hs : L.step s with
      | none => simp only [iterate, hs]; exact .refl
      | some s' => simp only [iterate, hs]; exact .head hs (ih s')

theorem visits_run (s : σ) : L.Visits s (L.run s) := L.visits_iterate _ s

variable {L}

theorem Visits.invariant {P : σ → Prop} {s s' : σ} (h : L.Visits s s')
    (hP : ∀ s s', P s → L.step s = some s' → P s') (hs : P s) : P s' := by
  induction h with
  | refl => exact hs
  | tail _ hst ih => exact hP _ _ ih hst

theorem visits_of_stuck {s s' : σ} (hs : L.step s = none) (h : L.Visits s s') : s' = s := by
  rcases Relation.ReflTransGen.cases_head h with rfl | ⟨t, ht, -⟩
  · rfl
  · rw [hs] at ht
    cases ht

theorem visits_of_step {s s₁ s' : σ} (hs : L.step s = some s₁) (h : L.Visits s s') :
    s' = s ∨ L.Visits s₁ s' := by
  rcases Relation.ReflTransGen.cases_head h with rfl | ⟨t, ht, hrest⟩
  · exact .inl rfl
  · obtain rfl := Option.some.inj (hs.symm.trans ht)
    exact .inr hrest

/-- What holds where the loop stops, and of a state if it holds of the next one, holds of every state. -/
theorem run_induction {P : σ → Prop} (hdone : ∀ s, L.step s = none → P s)
    (hstep : ∀ s s', L.step s = some s' → P s' → P s) (s : σ) : P s := by
  cases hs : L.step s with
  | none => exact hdone s hs
  | some s' => exact hstep s s' hs (run_induction hdone hstep s')
termination_by L.size s
decreasing_by exact L.size_lt hs

/-- Two loops whose iterations keep a relation end in states that have it. -/
theorem run_simulates {τ : Type} {M : Loop τ} {Rel : σ → τ → Prop}
    (hdone : ∀ s t, Rel s t → M.step t = none → L.step s = none)
    (hstep : ∀ s t t', Rel s t → M.step t = some t' → ∃ s', L.step s = some s' ∧ Rel s' t')
    {s : σ} {t : τ} (h : Rel s t) : Rel (L.run s) (M.run t) := by
  induction t using M.run_induction generalizing s with
  | hdone t ht =>
      rw [M.run_of_stuck ht, L.run_of_stuck (hdone s t h ht)]
      exact h
  | hstep t t' ht ih =>
      obtain ⟨s', hs, h'⟩ := hstep s t t' h ht
      rw [M.run_of_step ht, L.run_of_step hs]
      exact ih h'

end Loop

end Lib
