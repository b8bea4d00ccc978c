import Mathlib.Order.Monotone.Basic

/-!
# Renumbering the places of a stream

Two readers take values from one stream, and the second leaves out some that the first one takes. A map
sends the places of the second reader to those of the first, stretch by stretch.
-/

namespace Lib

variable {σ τ : ℕ → ℕ} {M d d' e e' k l : ℕ}

/-- The `k` places from `e` on are those from `d` on. -/
def Aligned (σ : ℕ → ℕ) (k d e : ℕ) : Prop := ∀ n < k, σ (e + n) = d + n

namespace Aligned

theorem first (h : Aligned σ k d e) (hk : 0 < k) : σ e = d := h 0 hk

theorem add_iff : Aligned σ (k + l) d e ↔ Aligned σ k d e ∧ Aligned σ l (d + k) (e + k) := by
  constructor
  · intro h
    refine ⟨fun n hn => h n (by omega), fun n hn => ?_⟩
    rw [Nat.add_assoc, Nat.add_assoc]
    exact h (k + n) (by omega)
  · rintro ⟨hk, hl⟩ n hn
    by_cases hlt : n < k
    · exact hk n hlt
    · have hrest := hl (n - k) (by omega)
      rw [show e + k + (n - k) = e + n by omega] at hrest
      omega

theorem congr (h : Aligned σ k d e) (hs : ∀ n, e ≤ n → n < e + k → τ n = σ n) : Aligned τ k d e := by
  intro n hn
  rw [hs (e + n) (by omega) (by omega)]
  exact h n hn

end Aligned

/-! ## Places that differ -/

/-- Different places stay different. Those that are no places of the first reader come behind `M`. -/
structure Scattered (M d e : ℕ) (σ : ℕ → ℕ) : Prop where
  injective : Function.Injective σ
  places : ∀ n, σ n = M + n ∨ e ≤ n ∧ d ≤ σ n ∧ σ n < M

theorem Scattered.base (M d e : ℕ) : Scattered M d e (M + ·) :=
  ⟨fun _ _ h => Nat.add_left_cancel h, fun _ => .inl rfl⟩

theorem Scattered.mono (h : Scattered M d' e σ) (hd : d ≤ d') : Scattered M d e σ := by
  refine ⟨h.injective, fun n => ?_⟩
  have hn := h.places n
  omega

/-- The map with a stretch before the places that it has. -/
def withStretch (k d e : ℕ) (σ : ℕ → ℕ) (n : ℕ) : ℕ := if e ≤ n ∧ n < e + k then d + (n - e) else σ n

theorem withStretch_aligned (k d e : ℕ) (σ : ℕ → ℕ) : Aligned (withStretch k d e σ) k d e := by
  intro n hn
  rw [withStretch, if_pos (by omega)]
  omega

theorem withStretch_of_le {n : ℕ} (h : e + k ≤ n) : withStretch k d e σ n = σ n := if_neg (by omega)

theorem Scattered.withStretch (h : Scattered M d' e' σ) (hd : d + k ≤ d') (he : e + k ≤ e')
    (hM : d + k ≤ M) : Scattered M d e (withStretch k d e σ) := by
  constructor
  · intro m n hmn
    have hm := h.places m
    have hn := h.places n
    simp only [Lib.withStretch] at hmn
    split at hmn
    · split at hmn
      · omega
      · omega
    · split at hmn
      · omega
      · exact h.injective hmn
  · intro n
    have hn := h.places n
    simp only [Lib.withStretch]
    split
    · omega
    · omega

/-! ## Places that keep their order -/

/-- Later places stay later or fall together, and none comes before `d`. -/
structure Rising (d : ℕ) (τ : ℕ → ℕ) : Prop where
  monotone : Monotone τ
  places : ∀ n, d ≤ τ n

theorem Rising.base (d : ℕ) : Rising d fun _ => d := ⟨monotone_const, fun _ => Nat.le_refl d⟩

theorem Rising.mono (h : Rising d' τ) (hd : d ≤ d') : Rising d τ :=
  ⟨h.monotone, fun n => hd.trans (h.places n)⟩

/-- The map with a stretch in place of all that comes before its places. -/
def fromStretch (k d e : ℕ) (τ : ℕ → ℕ) (n : ℕ) : ℕ := if n < e + k then d + (n - e) else τ n

theorem fromStretch_aligned (k d e : ℕ) (τ : ℕ → ℕ) : Aligned (fromStretch k d e τ) k d e := by
  intro n hn
  rw [fromStretch, if_pos (by omega)]
  omega

theorem fromStretch_of_le {n : ℕ} (h : e + k ≤ n) : fromStretch k d e τ n = τ n := if_neg (by omega)

theorem Rising.fromStretch (h : Rising d' τ) (hd : d + k ≤ d') : Rising d (fromStretch k d e τ) := by
  constructor
  · intro m n hmn
    have hn := h.places n
    simp only [Lib.fromStretch]
    split
    · split
      · omega
      · omega
    · split
      · omega
      · exact h.monotone hmn
  · intro n
    have hn := h.places n
    simp only [Lib.fromStretch]
    split
    · omega
    · omega

end Lib
