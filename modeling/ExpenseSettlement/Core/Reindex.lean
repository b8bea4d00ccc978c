import Mathlib.Logic.Embedding.Basic
import Mathlib.Order.Hom.Basic
import ExpenseSettlement.Core.LedgerCalls
import ExpenseSettlement.Lib.Renumbering

/-!
# Runtimes that leave out ids and readings

The ids of another runtime are some of those of a given one, and so are its clock readings, in their
order. What a method does depends only on the ids and readings that it draws.
-/

namespace ExpenseSettlement

open Lib LedgerEngine

/-- The runtime whose ids and readings are those at the places that the maps give. -/
def Runtime.reindex (R : Runtime) (σ : ℕ ↪ ℕ) (τ : ℕ →o ℕ) : Runtime :=
  { R with
    uuid4 := fun n => R.uuid4 (σ n)
    time := fun n => R.time (τ n)
    uuid4_injective := R.uuid4_injective.comp σ.injective
    uuid4_ne_empty := fun n => R.uuid4_ne_empty (σ n)
    uuid4_no_bar := fun n => R.uuid4_no_bar (σ n)
    encodes_uuid4 := fun n => R.encodes_uuid4 (σ n) }

/-! ## Draws -/

namespace Draws

def skip (k l : ℕ) (d : Draws) : Draws := ⟨d.uuids + k, d.times + l⟩

theorem skip_skip (k l k' l' : ℕ) (d : Draws) : (d.skip k l).skip k' l' = d.skip (k + k') (l + l') := by
  simp [skip, Nat.add_assoc]

theorem Later.skip (k l : ℕ) (d : Draws) : d.Later (d.skip k l) :=
  ⟨Nat.le_add_right _ _, Nat.le_add_right _ _⟩

/-- The next `k` ids and `l` readings from `e` on are those from `d` on. -/
structure Aligned (σ : ℕ ↪ ℕ) (τ : ℕ →o ℕ) (k l : ℕ) (d e : Draws) : Prop where
  uuids : Lib.Aligned σ k d.uuids e.uuids
  times : Lib.Aligned τ l d.times e.times

variable {σ : ℕ ↪ ℕ} {τ : ℕ →o ℕ} {k l k' l' : ℕ} {d e : Draws}

theorem Aligned.add_iff :
    Aligned σ τ (k + k') (l + l') d e ↔
      Aligned σ τ k l d e ∧ Aligned σ τ k' l' (d.skip k l) (e.skip k l) := by
  constructor
  · rintro ⟨hu, ht⟩
    rw [Lib.Aligned.add_iff] at hu ht
    exact ⟨⟨hu.1, ht.1⟩, ⟨hu.2, ht.2⟩⟩
  · rintro ⟨h, h'⟩
    exact ⟨Lib.Aligned.add_iff.mpr ⟨h.uuids, h'.uuids⟩, Lib.Aligned.add_iff.mpr ⟨h.times, h'.times⟩⟩

theorem Aligned.uuid4 (h : Aligned σ τ k l d e) (R : Runtime) (hk : 0 < k) :
    (R.reindex σ τ).uuid4 e.uuids = R.uuid4 d.uuids := congrArg R.uuid4 (h.uuids.first hk)

theorem Aligned.time (h : Aligned σ τ k l d e) (R : Runtime) (hl : 0 < l) :
    (R.reindex σ τ).time e.times = R.time d.times := congrArg R.time (h.times.first hl)

end Draws

/-! ## Methods that draw -/

variable {R : Runtime} {α β γ δ : Type} {d : Draws}

/-- The method draws some ids and readings from `d` on, and where another runtime has the same ones it
does the same. -/
def Reads (R : Runtime) (f : Runtime → Draws → α × Draws × β) (d : Draws) : Prop :=
  ∃ k l, (f R d).2.1 = d.skip k l ∧ ∀ σ τ e, Draws.Aligned σ τ k l d e →
    f (R.reindex σ τ) e = ((f R d).1, e.skip k l, (f R d).2.2)

namespace Reads

theorem newId (d : Draws) :
    Reads R (fun R d => (R.uuid4 d.uuids, { d with uuids := d.uuids + 1 }, ())) d := by
  refine ⟨1, 0, rfl, fun σ τ e h => ?_⟩
  dsimp only
  rw [h.uuid4 R Nat.one_pos]
  rfl

/-- One method after the other. -/
theorem bind {f : Runtime → Draws → α × Draws × β} {g : α → β → Runtime → Draws → γ × Draws × δ}
    (hf : Reads R f d) (hg : Reads R (g (f R d).1 (f R d).2.2) (f R d).2.1) :
    Reads R (fun R d => g (f R d).1 (f R d).2.2 R (f R d).2.1) d := by
  obtain ⟨k, l, hd, hsame⟩ := hf
  obtain ⟨k', l', hd', hsame'⟩ := hg
  refine ⟨k + k', l + l', ?_, fun σ τ e h => ?_⟩
  · rw [hd', hd, Draws.skip_skip]
  · obtain ⟨h₁, h₂⟩ := Draws.Aligned.add_iff.mp h
    rw [← hd] at h₂
    dsimp only
    rw [hsame σ τ e h₁, hsame' σ τ _ h₂, Draws.skip_skip]

end Reads

/-! ## The ledger -/

namespace LedgerEngine

/-- The loop draws an id for every entry up to the one that it breaks off at. -/
theorem makeEntries_reads (journalId description : String) (now : ℚ) (specs : List EntrySpec) (n : ℕ)
    (heads : Dict String String) :
    ∃ k, (makeEntries R journalId description now specs n heads).2.1 = n + k ∧
      ∀ (σ : ℕ ↪ ℕ) (τ : ℕ →o ℕ) m, Lib.Aligned σ k n m →
        makeEntries (R.reindex σ τ) journalId description now specs m heads =
          ((makeEntries R journalId description now specs n heads).1, m + k,
            (makeEntries R journalId description now specs n heads).2.2) := by
  induction specs generalizing n heads with
  | nil => exact ⟨0, rfl, fun _ _ _ _ => rfl⟩
  | cons spec specs ih =>
      have hentry : ∀ σ τ, makeEntry (R.reindex σ τ) journalId description now spec (R.uuid4 n) heads =
          makeEntry R journalId description now spec (R.uuid4 n) heads := fun _ _ => rfl
      have hid : ∀ {σ : ℕ ↪ ℕ} {k m}, Lib.Aligned σ k n m → 0 < k → ∀ τ,
          (R.reindex σ τ).uuid4 m = R.uuid4 n := fun h hk _ => congrArg R.uuid4 (h.first hk)
      cases hmade : makeEntry R journalId description now spec (R.uuid4 n) heads with
      | error e =>
          refine ⟨1, by simp only [makeEntries, hmade], fun σ τ m h => ?_⟩
          simp only [makeEntries, hid h Nat.one_pos τ, hentry, hmade]
      | ok entry =>
          obtain ⟨k, hk, hsame⟩ := ih (n + 1) (heads.set spec.accountId entry.entryHash)
          rcases hrest : makeEntries R journalId description now specs (n + 1)
            (heads.set spec.accountId entry.entryHash) with ⟨made, uuids, heads'⟩
          rw [hrest] at hk hsame
          obtain rfl : uuids = n + 1 + k := hk
          refine ⟨1 + k, ?_, fun σ τ m h => ?_⟩
          · simp only [makeEntries, hmade, hrest, ← Nat.add_assoc]
            cases made with
            | error e => rfl
            | ok entries => rfl
          · obtain ⟨-, haligned⟩ := Lib.Aligned.add_iff.mp h
            simp only [makeEntries, hid h (by omega) τ, hentry, hmade, hrest, hsame σ τ (m + 1) haligned,
              ← Nat.add_assoc]
            cases made with
            | error e => rfl
            | ok entries => rfl

theorem postJournal_reads (specs : List EntrySpec) (description : String) (L : LedgerEngine) (d : Draws) :
    Reads R (fun R d => postJournal R specs description d L) d := by
  cases hf : specs.find? (·.amountCents < 1) with
  | some spec =>
      simp only [postJournal, hf]
      exact ⟨0, 0, rfl, fun _ _ _ _ => rfl⟩
  | none =>
      obtain ⟨k, hk, hsame⟩ := makeEntries_reads (R := R) (R.uuid4 d.uuids) description (R.time d.times) specs
        (d.uuids + 1) L.accountHeads
      rcases hmade : makeEntries R (R.uuid4 d.uuids) description (R.time d.times) specs (d.uuids + 1)
        L.accountHeads with ⟨made, uuids, heads⟩
      rw [hmade] at hk hsame
      refine ⟨1 + k, 1, ?_, fun σ τ e h => ?_⟩
      · simp only [postJournal, hf, hmade, Draws.skip, ← Nat.add_assoc, ← hk]
        cases made with
        | error e => rfl
        | ok entries =>
            dsimp only
            split
            · rfl
            · rfl
      · obtain ⟨-, hentries⟩ := Lib.Aligned.add_iff.mp h.uuids
        have hsame := hsame σ τ _ hentries
        simp only [postJournal, hf, h.uuid4 R (by omega), h.time R Nat.one_pos, hmade, hsame, Draws.skip,
          ← Nat.add_assoc]
        cases made with
        | error e => rfl
        | ok entries =>
            dsimp only
            split
            · rfl
            · rfl

end LedgerEngine

theorem LedgerCall.exec_reads (c : LedgerCall) (L : LedgerEngine) (d : Draws) :
    Reads R (fun R d => c.exec R d L) d := by
  cases c with
  | expense payerId splits description =>
      exact .bind (.newId d) (g := fun id _ R d => postJournal R
        (expenseSpecs (expenseClearing id) payerId splits description) description d L)
        (postJournal_reads _ _ _ _)
  | settlement payerId payeeId amountCents description =>
      exact .bind (.newId d) (g := fun id _ R d => postJournal R
        (settlementSpecs (settlementClearing id) payerId payeeId amountCents)
        description d L) (postJournal_reads _ _ _ _)

end ExpenseSettlement
