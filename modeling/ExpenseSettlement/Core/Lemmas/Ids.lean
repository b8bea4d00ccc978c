import ExpenseSettlement.Core.Runtime

/-!
# Generated ids

Ids drawn at different times differ, so an id is told apart from another by when it was drawn.
-/

namespace ExpenseSettlement

/-- The id is one of those drawn from the `lo`-th on and before the `hi`-th. -/
def Runtime.Issued (R : Runtime) (lo hi : Nat) (id : String) : Prop :=
  ∃ n, lo ≤ n ∧ n < hi ∧ id = R.uuid4 n

namespace Runtime.Issued

variable {R : Runtime} {lo hi lo' hi' : Nat} {id id' : String}

theorem mono (h : R.Issued lo hi id) (hlo : lo' ≤ lo) (hhi : hi ≤ hi') : R.Issued lo' hi' id := by
  obtain ⟨n, hn, hn', rfl⟩ := h
  exact ⟨n, hlo.trans hn, hn'.trans_le hhi, rfl⟩

theorem all_mono {ids : List String} (h : ∀ id ∈ ids, R.Issued lo hi id) (hhi : hi ≤ hi') :
    ∀ id ∈ ids, R.Issued lo hi' id := fun id hid => (h id hid).mono (Nat.le_refl _) hhi

theorem ne (h : R.Issued lo hi id) (h' : R.Issued hi hi' id') : id ≠ id' := by
  obtain ⟨n, _, hn, rfl⟩ := h
  obtain ⟨n', hn', _, rfl⟩ := h'
  intro he
  have hnn := R.uuid4_injective he
  omega

theorem ne_empty (h : R.Issued lo hi id) : id ≠ "" := by
  obtain ⟨n, _, _, rfl⟩ := h
  exact R.uuid4_ne_empty n

end Runtime.Issued

end ExpenseSettlement
