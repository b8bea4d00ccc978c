import Mathlib.Algebra.BigOperators.Ring.Finset
import Mathlib.Algebra.Ring.GeomSum
import Mathlib.Algebra.Order.BigOperators.Group.Finset
import Mathlib.Tactic.Linarith
import Mathlib.Tactic.Ring
import ExpenseSettlement.Core.OccRetry

/-!
# How often and how long the wrapper waits

The wrapper sleeps once after every conflict but the last. The delays double up to a cap, so their sum
is bounded by a geometric sum and by as many caps.
-/

namespace ExpenseSettlement

open Finset

/-! ## One delay -/

def rawBackoff (attempt : Nat) (baseMs maxMs : ℤ) : ℤ := min (baseMs * 2 ^ attempt) maxMs

variable {baseMs maxMs : ℤ} {jitter random : ℚ}

theorem rawBackoff_nonneg (hbase : 0 ≤ baseMs) (hmax : 0 ≤ maxMs) (attempt : Nat) :
    0 ≤ rawBackoff attempt baseMs maxMs := by
  have hpow : (0 : ℤ) ≤ 2 ^ attempt := pow_nonneg (by omega) _
  exact le_min (mul_nonneg hbase hpow) hmax

/-- The jitter moves a delay by at most its fraction, up or down. -/
theorem computeBackoff_bounds (hbase : 0 ≤ baseMs) (hmax : 0 ≤ maxMs) (hjitter : 0 ≤ jitter)
    (hrandom : 0 ≤ random ∧ random < 1) (attempt : Nat) :
    0 ≤ computeBackoff attempt baseMs maxMs jitter random ∧
      (1 - jitter) * rawBackoff attempt baseMs maxMs / 1000 ≤
        computeBackoff attempt baseMs maxMs jitter random ∧
      computeBackoff attempt baseMs maxMs jitter random ≤
        (1 + jitter) * rawBackoff attempt baseMs maxMs / 1000 := by
  have hraw : (0 : ℚ) ≤ rawBackoff attempt baseMs maxMs := by
    exact_mod_cast rawBackoff_nonneg hbase hmax attempt
  have hscale : 0 ≤ rawBackoff attempt baseMs maxMs * jitter := mul_nonneg hraw hjitter
  have hup : rawBackoff attempt baseMs maxMs * jitter * (2 * random - 1) ≤
      rawBackoff attempt baseMs maxMs * jitter * 1 :=
    mul_le_mul_of_nonneg_left (by linarith only [hrandom.2]) hscale
  have hdown : rawBackoff attempt baseMs maxMs * jitter * (-1) ≤
      rawBackoff attempt baseMs maxMs * jitter * (2 * random - 1) :=
    mul_le_mul_of_nonneg_left (by linarith only [hrandom.1]) hscale
  have heq : computeBackoff attempt baseMs maxMs jitter random =
      max 0 (rawBackoff attempt baseMs maxMs +
        rawBackoff attempt baseMs maxMs * jitter * (2 * random - 1)) / 1000 := rfl
  rw [heq]
  refine ⟨div_nonneg (le_max_left _ _) (by norm_num), ?_, ?_⟩
  · apply div_le_div_of_nonneg_right _ (by norm_num)
    exact le_trans (by linarith only [hdown]) (le_max_right _ _)
  · apply div_le_div_of_nonneg_right _ (by norm_num)
    exact max_le (by linarith only [hraw, hscale]) (by linarith only [hup])

theorem sum_rawBackoff_le (baseMs maxMs : ℤ) (n : Nat) :
    ∑ a ∈ range n, rawBackoff a baseMs maxMs ≤ min (baseMs * (2 ^ n - 1)) (n * maxMs) := by
  have hgeom : ∑ a ∈ range n, (2 : ℤ) ^ a = 2 ^ n - 1 := by
    rw [← mul_geom_sum]
    ring
  have hle := sum_min_le (f := fun a => baseMs * 2 ^ a) (g := fun _ => maxMs) (s := range n)
  rw [← mul_sum, hgeom, sum_const, card_range, nsmul_eq_mul] at hle
  exact hle

/-! ## The loop -/

variable {α ε : Type}

/-- The attempt ends in no conflict, and the wrapper passes on what it ends in. -/
def OccAttempt.PassedOn (outcome : OccOutcome α ε) : OccAttempt α ε → Prop
  | .returned result => outcome = .returned result
  | .raised error => outcome = .raised error
  | .conflict _ => False

namespace OccRetry

variable (c : OccRetry) (call : Nat → OccAttempt α ε) (random : Nat → ℚ)

/-- The wrapper ends with the `k`-th attempt, after a conflict and a delay for each of those before. -/
structure EndsAt (left attempt k : Nat) (outcome : OccOutcome α ε) (delays : List ℚ) : Prop where
  le : k ≤ left
  conflicts : ∀ m < k, ∃ exc, call (attempt + m) = .conflict exc
  delays : delays = (List.range' attempt k).map (c.delay random)
  ends : (call (attempt + k)).PassedOn outcome ∨ k = left ∧ ∃ exc, call (attempt + k) = .conflict exc ∧
    outcome = .exhausted ⟨s!"OCC failed after {c.maxRetries} retries: {exc.message}"⟩

variable {c call random} in
theorem EndsAt.now {left attempt : Nat} {outcome : OccOutcome α ε}
    (h : (call attempt).PassedOn outcome) : EndsAt c call random left attempt 0 outcome [] :=
  ⟨Nat.zero_le _, nofun, rfl, .inl h⟩

variable {c call random} in
/-- A conflict costs a delay, and the rest is up to the next attempt. -/
theorem EndsAt.conflict {left attempt k : Nat} {outcome : OccOutcome α ε} {delays : List ℚ}
    {exc : OptimisticLockConflictError} (hcall : call attempt = .conflict exc)
    (h : EndsAt c call random left (attempt + 1) k outcome delays) :
    EndsAt c call random (left + 1) attempt (k + 1) outcome (c.delay random attempt :: delays) where
  le := Nat.succ_le_succ h.le
  conflicts := by
    intro m hm
    cases m with
    | zero => exact ⟨exc, hcall⟩
    | succ m =>
        rw [Nat.add_comm m 1, ← Nat.add_assoc]
        exact h.conflicts m (Nat.lt_of_succ_lt_succ hm)
  delays := by rw [h.delays, List.range'_succ, List.map_cons]
  ends := by
    rw [Nat.add_comm k 1, ← Nat.add_assoc, Nat.add_comm 1 k]
    exact h.ends.imp_right fun ⟨hk, hrest⟩ => ⟨congrArg (· + 1) hk, hrest⟩

theorem attempts_endsAt (left attempt : Nat) :
    ∃ k, EndsAt c call random left attempt k (c.attempts call random left attempt).1
      (c.attempts call random left attempt).2 := by
  induction left generalizing attempt with
  | zero =>
      cases hcall : call attempt with
      | returned result | raised error =>
          rw [attempts]
          simp only [hcall]
          exact ⟨0, .now (by rw [hcall]; rfl)⟩
      | conflict exc =>
          rw [attempts]
          simp only [hcall]
          exact ⟨0, Nat.le_refl _, nofun, rfl, .inr ⟨rfl, exc, hcall, rfl⟩⟩
  | succ left ih =>
      cases hcall : call attempt with
      | returned result | raised error =>
          rw [attempts]
          simp only [hcall]
          exact ⟨0, .now (by rw [hcall]; rfl)⟩
      | conflict exc =>
          rw [attempts]
          simp only [hcall]
          obtain ⟨k, h⟩ := ih (attempt + 1)
          exact ⟨k + 1, h.conflict hcall⟩

theorem wrapper_endsAt :
    ∃ k, EndsAt c call random c.maxRetries 0 k (c.wrapper call random).1 (c.wrapper call random).2 :=
  c.attempts_endsAt call random c.maxRetries 0

variable {c call random}

theorem sum_delays_le (hbase : 0 ≤ c.baseBackoffMs) (hmax : 0 ≤ c.maxBackoffMs)
    (hjitter : 0 ≤ c.jitterFraction) (hrandom : ∀ n, 0 ≤ random n ∧ random n < 1) {n : Nat}
    (hn : n ≤ c.maxRetries) :
    1000 * ∑ a ∈ range n, c.delay random a ≤ (1 + c.jitterFraction) *
      (min (c.baseBackoffMs * (2 ^ c.maxRetries - 1)) (c.maxRetries * c.maxBackoffMs) : ℤ) := by
  have hone : ∀ a ∈ range n, 1000 * c.delay random a ≤
      (1 + c.jitterFraction) * rawBackoff a c.baseBackoffMs c.maxBackoffMs := by
    intro a _
    obtain ⟨-, -, hle⟩ := computeBackoff_bounds hbase hmax hjitter (hrandom a) a
    rw [delay]
    linarith only [hle]
  have hraw : ∑ a ∈ range n, rawBackoff a c.baseBackoffMs c.maxBackoffMs ≤
      min (c.baseBackoffMs * (2 ^ c.maxRetries - 1)) (c.maxRetries * c.maxBackoffMs) := by
    refine le_trans ?_ (sum_rawBackoff_le _ _ _)
    refine sum_le_sum_of_subset_of_nonneg (range_subset_range.mpr hn) fun a _ _ => ?_
    exact rawBackoff_nonneg hbase hmax a
  calc 1000 * ∑ a ∈ range n, c.delay random a
      = ∑ a ∈ range n, 1000 * c.delay random a := mul_sum ..
    _ ≤ ∑ a ∈ range n, (1 + c.jitterFraction) * rawBackoff a c.baseBackoffMs c.maxBackoffMs :=
        sum_le_sum hone
    _ = (1 + c.jitterFraction) * (∑ a ∈ range n, rawBackoff a c.baseBackoffMs c.maxBackoffMs : ℤ) := by
        rw [← mul_sum, Int.cast_sum]
    _ ≤ _ := mul_le_mul_of_nonneg_left (Int.cast_le.mpr hraw) (by linarith only [hjitter])

end OccRetry

end ExpenseSettlement
