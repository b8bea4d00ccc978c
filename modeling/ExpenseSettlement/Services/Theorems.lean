import ExpenseSettlement.Services.Lemmas.Percentages

/-!
# Percentage splits

With exact percentages, the shares are in proportion when the percentages add up to 100. The tolerance
of the check lets through more.
-/

namespace ExpenseSettlement

/-- The shares of an accepted percentage split are in proportion, up to as many cents as there are
shares, if and only if the discrepancy that the tolerance lets through fits in. There is none where
the percentages add up to 100. -/
theorem percentage_shares_proportional_iff (R : Runtime) (totalCents : ℤ) (inputs : List (SplitInput ℚ))
    (splits : List Split) (ht : 1 ≤ totalCents) (hp : PercentagesOk inputs)
    (h : splitPercentage R inputs totalCents = .ok splits) :
    (Proportional totalCents inputs splits ↔ DiscrepancyFits totalCents (percentages inputs)) ∧
      ((percentages inputs).sum = 100 → Proportional totalCents inputs splits) := by
  have hiff : Proportional totalCents inputs splits ↔ DiscrepancyFits totalCents (percentages inputs) := by
    rcases List.eq_nil_or_concat inputs with rfl | ⟨pre, last, rfl⟩
    · exact absurd h (splitPercentage_nil R totalCents splits)
    · rw [List.concat_eq_append] at hp h ⊢
      rw [proportional_concat_iff ht hp h, percentages_concat]
      constructor
      · intro hfits pre' last' heq
        obtain ⟨hpre, hlast⟩ := List.append_inj' heq rfl
        cases hlast
        rw [← hpre]
        exact hfits
      · intro hfits
        exact hfits _ _ rfl
  refine ⟨hiff, fun hsum => hiff.mpr (.of_sum ht ?_ hsum)⟩
  intro p hp'
  obtain ⟨s, hs, rfl⟩ := List.mem_map.mp hp'
  exact hp.getD_nonneg hs

/-- Alice has everything, and a 128th of a percent more. -/
def overPercentages : List (SplitInput ℚ) := [⟨"alice", none, some (100 + 1 / 128)⟩, ⟨"bob", none, some 0⟩]

theorem overPercentages_ok : PercentagesOk overPercentages := by
  intro s hs
  simp only [overPercentages, List.mem_cons, List.not_mem_nil, or_false] at hs
  rcases hs with rfl | rfl
  · exact ⟨_, rfl, by norm_num⟩
  · exact ⟨_, rfl, le_refl _⟩

theorem percentage_shares_proportional_iff_taxi :
    Proportional 100 overPercentages [⟨"alice", 100⟩, ⟨"bob", 0⟩] ↔
      DiscrepancyFits 100 (percentages overPercentages) :=
  (percentage_shares_proportional_iff Runtime.sequential 100 overPercentages _ (by decide)
    overPercentages_ok (by decide +kernel)).1

/-- With a large total the last share goes far below zero. -/
theorem percentage_shares_out_of_proportion :
    PercentagesOk overPercentages ∧
      splitPercentage Runtime.sequential overPercentages 1000000 =
        .ok [⟨"alice", 1000078⟩, ⟨"bob", -78⟩] ∧
      ¬ Proportional 1000000 overPercentages [⟨"alice", 1000078⟩, ⟨"bob", -78⟩] := by
  refine ⟨overPercentages_ok, by decide +kernel, ?_⟩
  simp [Proportional, overPercentages]

end ExpenseSettlement
