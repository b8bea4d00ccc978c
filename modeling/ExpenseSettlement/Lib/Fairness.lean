import ExpenseSettlement.Lib.Run
import Mathlib.Order.Lattice.Nat

/-!
# Progress in fair rounds

Short of the goal there is always a kind of step that helps. A step of this kind makes progress. Any
other step makes progress as well, or the same kind still helps. So a round with a step of every kind
makes progress, whatever else it has and in whatever order.
-/

namespace Lib

variable {σ ι κ : Type}

structure Helped (step : σ → ι → σ) (Inv : σ → Prop) (progress : σ → ℕ) (goal : ℕ)
    (isKind : ι → κ → Prop) (helpful : σ → κ) : Prop where
  keeps : ∀ s i, Inv s → Inv (step s i)
  grows : ∀ s i, Inv s → progress s ≤ progress (step s i)
  helps : ∀ s i, Inv s → progress s < goal → isKind i (helpful s) → progress s < progress (step s i)
  waits : ∀ s i, Inv s → progress s < goal → progress (step s i) = progress s →
    helpful (step s i) = helpful s

def FairRound (isKind : ι → κ → Prop) (round : List ι) : Prop := ∀ k, ∃ i ∈ round, isKind i k

namespace Helped

variable {step : σ → ι → σ} {Inv : σ → Prop} {progress : σ → ℕ} {goal : ℕ} {isKind : ι → κ → Prop}
  {helpful : σ → κ} {s : σ} {round : List ι}

theorem run_grows (h : Helped step Inv progress goal isKind helpful) (hs : Inv s) (inputs : List ι) :
    Inv (run step s inputs) ∧ progress s ≤ progress (run step s inputs) := by
  apply run_invariant fun s' => Inv s' ∧ progress s ≤ progress s'
  · rintro s' i ⟨hinv, hle⟩
    exact ⟨h.keeps s' i hinv, hle.trans (h.grows s' i hinv)⟩
  · exact ⟨hs, le_rfl⟩

/-- The step that helps comes in the round, and it still helps then unless there was progress before. -/
theorem run_round (h : Helped step Inv progress goal isKind helpful) (hs : Inv s)
    (hlt : progress s < goal) (hround : ∃ i ∈ round, isKind i (helpful s)) :
    progress s < progress (run step s round) := by
  induction round generalizing s with
  | nil =>
      obtain ⟨i, hi, -⟩ := hround
      cases hi
  | cons j round ih =>
      have hj := h.keeps s j hs
      have hrest : progress (step s j) ≤ progress (run step s (j :: round)) := (h.run_grows hj round).2
      rcases (h.grows s j hs).lt_or_eq with hmoved | hsame
      · exact hmoved.trans_le hrest
      · obtain ⟨i, hi, hkind⟩ := hround
        cases hi with
        | head => exact (h.helps s j hs hlt hkind).trans_le hrest
        | tail _ hi =>
            rw [hsame]
            apply ih hj (hsame ▸ hlt)
            rw [h.waits s j hs hlt hsame.symm]
            exact ⟨i, hi, hkind⟩

/-- Every fair round makes progress until the goal is reached. -/
theorem run_rounds (h : Helped step Inv progress goal isKind helpful) (hs : Inv s)
    {rounds : List (List ι)} (hfair : ∀ round ∈ rounds, FairRound isKind round) :
    min goal (progress s + rounds.length) ≤ progress (run step s rounds.flatten) := by
  induction rounds generalizing s with
  | nil => exact min_le_right _ _
  | cons round rounds ih =>
      obtain ⟨hinv, hle⟩ := h.run_grows hs round
      have hrest := ih hinv fun r hr => hfair r (List.mem_cons_of_mem _ hr)
      rw [List.flatten_cons, run_append, List.length_cons]
      rcases Nat.lt_or_ge (progress s) goal with hlt | hge
      · have hmoved := h.run_round hs hlt (hfair round List.mem_cons_self (helpful s))
        omega
      · omega

end Helped

end Lib
