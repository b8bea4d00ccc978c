import ExpenseSettlement.Core.Lemmas.Chain
import ExpenseSettlement.Lib.Text

/-!
# The text under a hash

Seven fields of an entry are joined by `'|'` and hashed. Only the account id may contain a `'|'`
itself, so the other fields can be read back when the account is known, or from the two ends.
-/

namespace ExpenseSettlement

open Lib LedgerEngine

/-! ## What is assumed of the runtime -/

/-- Digests of different texts differ, and none is the 64 zeros that a chain starts from. -/
structure Runtime.CollisionFree (R : Runtime) : Prop where
  injective : Function.Injective R.sha256
  ne_genesis : ∀ text, R.sha256 text ≠ genesisHash

/-- A digest is written in hexadecimal digits, so no `'|'` occurs in it. -/
def Runtime.HexDigests (R : Runtime) : Prop := ∀ text, '|' ∉ (R.sha256 text).toList

/-- Different times are written differently, and without a `'|'`. -/
structure Runtime.RendersTimes (R : Runtime) : Prop where
  injective : Function.Injective R.strFloat
  no_bar : ∀ t, '|' ∉ (R.strFloat t).toList

/-! ## The fields -/

variable {R : Runtime}

theorem EntryType.no_bar (t : EntryType) : '|' ∉ t.value.toList := by
  cases t <;> decide

theorem EntryType.value_inj {t t' : EntryType} (h : t.value = t'.value) : t = t' := by
  cases t <;> cases t' <;> first | rfl | exact absurd h (by decide)

theorem not_mem_toDigits {c : Char} (hc : c.isDigit = false) (n : ℕ) : c ∉ Nat.toDigits 10 n := by
  intro h
  rw [Nat.isDigit_of_mem_toDigits (by decide) (by decide) h] at hc
  cases hc

theorem not_mem_toString_int {c : Char} (hc : c.isDigit = false) (hminus : c ≠ '-') (n : ℤ) :
    c ∉ (toString n).toList := by
  rw [Int.toString_eq_repr, Int.repr_eq_if]
  split <;> simp [not_mem_toDigits hc, hminus]

theorem int_no_bar (n : ℤ) : '|' ∉ (toString n).toList :=
  not_mem_toString_int (by decide) (by decide) n

theorem toDigits_injective : Function.Injective (Nat.toDigits 10) := by
  intro m n h
  rw [← Nat.ofDigitChars_ten_toDigits (n := m), h, Nat.ofDigitChars_ten_toDigits]

theorem natRepr_injective : Function.Injective Nat.repr := by
  intro m n h
  have hd : Nat.toDigits 10 m = Nat.toDigits 10 n := by simpa using congrArg String.toList h
  exact toDigits_injective hd

theorem toString_int_injective : Function.Injective (toString : ℤ → String) := by
  have hsign : ∀ k m : Nat, k.repr ≠ "-" ++ m.repr := by
    intro k m h
    have hl : Nat.toDigits 10 k = '-' :: Nat.toDigits 10 m := by simpa using congrArg String.toList h
    have hm : '-' ∈ Nat.toDigits 10 k := by simp [hl]
    exact not_mem_toDigits (by decide) k hm
  intro m n h
  rw [Int.toString_eq_repr, Int.toString_eq_repr, Int.repr_eq_if, Int.repr_eq_if] at h
  split at h
  · split at h
    · have := natRepr_injective h
      omega
    · exact absurd h (hsign _ _)
  · split at h
    · exact absurd h.symm (hsign _ _)
    · have := natRepr_injective (by simpa using h)
      omega

theorem genesis_no_bar : '|' ∉ genesisHash.toList := by decide

theorem HashedFields.toList_text (f : HashedFields) :
    (f.text R).toList = f.entryId.toList ++ '|' :: (f.journalId.toList ++ '|' ::
      (f.accountId.toList ++ '|' :: (f.entryType.value.toList ++ '|' ::
      ((toString f.amountCents).toList ++ '|' :: ((R.strFloat f.createdAt).toList ++ '|' ::
      f.prevHash.toList))))) := by
  simp [HashedFields.text, String.toList_append]

/-- With the account known, the text determines every field. -/
theorem HashedFields.eq_of_text_eq (ht : R.RendersTimes) {f g : HashedFields}
    (hf : '|' ∉ f.entryId.toList ∧ '|' ∉ f.journalId.toList)
    (hg : '|' ∉ g.entryId.toList ∧ '|' ∉ g.journalId.toList) (ha : f.accountId = g.accountId)
    (h : f.text R = g.text R) : f = g := by
  have h' := congrArg String.toList h
  rw [toList_text, toList_text, ha] at h'
  obtain ⟨hid, h'⟩ := field_inj hf.1 hg.1 h'
  obtain ⟨hjournal, h'⟩ := field_inj hf.2 hg.2 h'
  have h' := (List.cons.inj (List.append_cancel_left h')).2
  obtain ⟨htype, h'⟩ := field_inj (EntryType.no_bar _) (EntryType.no_bar _) h'
  obtain ⟨hamount, h'⟩ := field_inj (int_no_bar _) (int_no_bar _) h'
  obtain ⟨htime, hprev⟩ := field_inj (ht.no_bar _) (ht.no_bar _) h'
  cases f
  cases g
  simp only [String.toList_inj] at hid hjournal htype hamount htime hprev ha
  simp [hid, hjournal, ha, EntryType.value_inj htype, toString_int_injective hamount,
    ht.injective htime, hprev]

theorem HashedFields.toList_text' (f : HashedFields) :
    (f.text R).toList = ((((f.entryId.toList ++ '|' :: (f.journalId.toList ++ '|' ::
      f.accountId.toList)) ++ '|' :: f.entryType.value.toList) ++ '|' ::
      (toString f.amountCents).toList) ++ '|' :: (R.strFloat f.createdAt).toList) ++ '|' ::
      f.prevHash.toList := by
  rw [toList_text]
  simp [List.append_assoc]

theorem HashedFields.prevHash_eq {f g : HashedFields} (hf : '|' ∉ f.prevHash.toList)
    (hg : '|' ∉ g.prevHash.toList) (h : f.text R = g.text R) : f.prevHash = g.prevHash := by
  have h' := congrArg String.toList h
  rw [toList_text', toList_text'] at h'
  exact String.toList_inj.mp (last_field_inj hf hg h').2

theorem HashedFields.createdAt_eq (ht : R.RendersTimes) {f g : HashedFields}
    (hp : f.prevHash = g.prevHash) (h : f.text R = g.text R) : f.createdAt = g.createdAt := by
  have h' := congrArg String.toList h
  rw [toList_text', toList_text', hp] at h'
  have h' := List.append_cancel_right h'
  exact ht.injective (String.toList_inj.mp (last_field_inj (ht.no_bar _) (ht.no_bar _) h').2)

theorem HashedFields.amountCents_eq (ht : R.RendersTimes) {f g : HashedFields}
    (hp : f.prevHash = g.prevHash) (h : f.text R = g.text R) : f.amountCents = g.amountCents := by
  have h' := congrArg String.toList h
  rw [toList_text', toList_text', hp, createdAt_eq ht hp h] at h'
  have h' := List.append_cancel_right (List.append_cancel_right h')
  exact toString_int_injective (String.toList_inj.mp (last_field_inj (int_no_bar _) (int_no_bar _) h').2)

theorem HashedFields.Hashable.of_text_eq {f g : HashedFields} (hg : g.Hashable R) (ht : R.RendersTimes)
    (hp : f.prevHash = g.prevHash) (h : f.text R = g.text R) : f.Hashable R where
  printable := by
    rw [amountCents_eq ht hp h]
    exact hg.printable
  encodes := by
    rw [h]
    exact hg.encodes

end ExpenseSettlement
