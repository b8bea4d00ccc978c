import ExpenseSettlement.Core.Lemmas.Hashing
import ExpenseSettlement.Lib.DoubleEntry

/-!
# What one call of `post_journal` does

The entries are read as postings of a double-entry book. A call is rejected before it writes
anything, or it breaks off at an entry that cannot be hashed, or it is rejected at the end of the loop,
or committed. In between it has moved account heads.
-/

namespace ExpenseSettlement

open Lib

def EntryType.side : EntryType → Side
  | .debit => .debit
  | .credit => .credit

def LedgerEntry.posting (e : LedgerEntry) : Posting String := ⟨e.accountId, e.entryType.side, e.amountCents⟩

def EntrySpec.posting (s : EntrySpec) : Posting String := ⟨s.accountId, s.entryType.side, s.amountCents⟩

theorem EntryType.side_inj {t t' : EntryType} : t.side = t'.side ↔ t = t' := by
  cases t <;> cases t' <;> simp [EntryType.side]

theorem sumOf_eq_total (t : EntryType) (entries : List LedgerEntry) :
    sumOf t entries = total t.side (entries.map (·.posting)) := by
  induction entries with
  | nil => rfl
  | cons e entries ih =>
      rw [List.map_cons, total_cons, ← ih]
      by_cases h : e.entryType = t <;> simp [sumOf, LedgerEntry.posting, EntryType.side_inj, h]

namespace LedgerEngine

variable {R : Runtime}

def books (L : LedgerEngine) : List (Posting String) := L.entries.map (·.posting)

theorem getAccountBalance_eq (L : LedgerEngine) (a : String) :
    L.getAccountBalance a = balance a L.books := by
  suffices h : ∀ (entries : List LedgerEntry) (b : ℤ),
      entries.foldl (fun balance e => if e.accountId ≠ a then balance
        else if e.entryType = .credit then balance + e.amountCents
        else balance - e.amountCents) b = b + balance a (entries.map (·.posting)) by
    simpa [getAccountBalance, books] using h L.entries 0
  intro entries
  induction entries with
  | nil => intro b; simp
  | cons e entries ih =>
      intro b
      rw [List.foldl_cons, ih, List.map_cons, balance_cons]
      by_cases ha : e.accountId = a
      · cases ht : e.entryType with
        | debit => simp [LedgerEntry.posting, ha, ht, EntryType.side, Posting.signed]; ring
        | credit => simp [LedgerEntry.posting, ha, ht, EntryType.side, Posting.signed]; ring
      · simp [LedgerEntry.posting, ha]

/-! ## The new entries -/

theorem writtenEntries_postings (journalId description : String) (now : ℚ) (specs : List EntrySpec)
    (n : Nat) (heads : Dict String String) :
    (writtenEntries R journalId description now specs n heads).1.map (·.posting) =
      specs.map (·.posting) := by
  induction specs generalizing n heads with
  | nil => rfl
  | cons spec specs ih => simp only [writtenEntries, List.map_cons, ih]; rfl

theorem writtenEntries_createdAt {journalId description : String} {now : ℚ} {specs : List EntrySpec}
    {n : Nat} {heads : Dict String String} {e : LedgerEntry}
    (he : e ∈ (writtenEntries R journalId description now specs n heads).1) : e.createdAt = now := by
  induction specs generalizing n heads with
  | nil => simp [writtenEntries] at he
  | cons spec specs ih =>
      simp only [writtenEntries, List.mem_cons] at he
      rcases he with rfl | he
      · rfl
      · exact ih he

/-- The journal that a call puts together, whether or not it balances. -/
def newJournal (R : Runtime) (specs : List EntrySpec) (description : String) (d : Draws)
    (L : LedgerEngine) : Journal :=
  { journalId := R.uuid4 d.uuids
    entries := (writtenEntries R (R.uuid4 d.uuids) description (R.time d.times) specs (d.uuids + 1)
      L.accountHeads).1
    description
    createdAt := R.time d.times }

def newHeads (R : Runtime) (specs : List EntrySpec) (description : String) (d : Draws)
    (L : LedgerEngine) : Dict String String :=
  (writtenEntries R (R.uuid4 d.uuids) description (R.time d.times) specs (d.uuids + 1) L.accountHeads).2

/-- What the loop of a call consumes. -/
def drawn (specs : List EntrySpec) (d : Draws) : Draws := ⟨d.uuids + 1 + specs.length, d.times + 1⟩

def commit (R : Runtime) (specs : List EntrySpec) (description : String) (d : Draws)
    (L : LedgerEngine) : LedgerEngine :=
  let journal := newJournal R specs description d L
  { entries := L.entries ++ journal.entries
    accountHeads := newHeads R specs description d L
    journals := L.journals.set journal.journalId journal }

theorem newJournal_postings (specs : List EntrySpec) (description : String) (d : Draws)
    (L : LedgerEngine) :
    (newJournal R specs description d L).entries.map (·.posting) = specs.map (·.posting) :=
  writtenEntries_postings _ _ _ _ _ _

theorem newJournal_isBalanced (specs : List EntrySpec) (description : String) (d : Draws)
    (L : LedgerEngine) :
    (newJournal R specs description d L).isBalanced = true ↔ InBalance (specs.map (·.posting)) := by
  rw [Journal.isBalanced, sumOf_eq_total, sumOf_eq_total, newJournal_postings, decide_eq_true_eq]
  rfl

theorem books_commit (specs : List EntrySpec) (description : String) (d : Draws) (L : LedgerEngine) :
    (commit R specs description d L).books = L.books ++ specs.map (·.posting) := by
  simp only [books, commit, List.map_append, newJournal_postings]

/-! ## The outcomes of a call -/

def Positive (specs : List EntrySpec) : Prop := ∀ spec ∈ specs, 1 ≤ spec.amountCents

theorem not_positive {specs : List EntrySpec} : ¬ Positive specs ↔ ∃ spec ∈ specs, spec.amountCents < 1 := by
  simp [Positive]

/-- All entries of the new journal can be hashed. -/
def Hashed (R : Runtime) (specs : List EntrySpec) (description : String) (d : Draws) (L : LedgerEngine) :
    Prop :=
  ∀ e ∈ (newJournal R specs description d L).entries, e.hashedFields.Hashable R

/-- The loop gets past the entries `pre` and breaks off at the next. -/
structure BreaksOffAt (R : Runtime) (pre : List EntrySpec) (spec : EntrySpec) (description : String)
    (d : Draws) (L : LedgerEngine) : Prop where
  before : Hashed R pre description d L
  at' : ¬ (spec.fields (R.uuid4 d.uuids) (R.time d.times) (R.uuid4 (d.uuids + 1 + pre.length))
    (newHeads R pre description d L)).Hashable R

/-- An amount below one cent is rejected before anything is drawn or written. -/
theorem postJournal_invalid {specs : List EntrySpec} (h : ¬ Positive specs) (description : String)
    (d : Draws) (L : LedgerEngine) :
    ∃ message, postJournal R specs description d L = (.error (.valueError message), d, L) := by
  obtain ⟨spec, hs, hlt⟩ := not_positive.mp h
  unfold postJournal
  cases hf : specs.find? (·.amountCents < 1) with
  | none =>
      have := List.find?_eq_none.mp hf spec hs
      simp [hlt] at this
  | some spec' =>
      obtain ⟨message, he⟩ := valueErrorOn_eq spec'.amountCents fun amount =>
        s!"Ledger entry amount must be >= 1 cent, got {amount}"
      exact ⟨message, by simp only [he]⟩

theorem find?_eq_none_of_positive {specs : List EntrySpec} (h : Positive specs) :
    specs.find? (·.amountCents < 1) = none := by
  rw [List.find?_eq_none]
  intro spec hs
  simpa using h spec hs

/-- An imbalance is reported where its sums have texts. -/
theorem assertBalanced_of_not_isBalanced {j : Journal} (h : j.isBalanced = false) :
    ∃ e, (IsTextError e ∨ ∃ message, e = .ledgerImbalanceError message) ∧ j.assertBalanced = .error e := by
  have htext : ∀ {n e}, strInt n = .error e → IsTextError e := by
    intro n e he
    unfold strInt at he
    split at he
    · cases he
    · cases he
      trivial
  simp only [Journal.assertBalanced, h, Bool.false_eq_true, ↓reduceIte]
  split
  · exact ⟨_, .inr ⟨_, rfl⟩, rfl⟩
  · exact ⟨_, .inl (htext ‹_›), rfl⟩
  · exact ⟨_, .inl (htext ‹_›), rfl⟩
  · exact ⟨_, .inl (htext ‹_›), rfl⟩

theorem postJournal_cases (R : Runtime) (specs : List EntrySpec) (description : String) (d : Draws)
    (L : LedgerEngine) :
    (¬ Positive specs ∧
      ∃ message, postJournal R specs description d L = (.error (.valueError message), d, L)) ∨
    (Positive specs ∧ ∃ e pre spec post, IsTextError e ∧ specs = pre ++ spec :: post ∧
      BreaksOffAt R pre spec description d L ∧
      postJournal R specs description d L =
        (.error e, drawn (pre ++ [spec]) d, { L with accountHeads := newHeads R pre description d L })) ∨
    (Positive specs ∧ Hashed R specs description d L ∧ ¬ InBalance (specs.map (·.posting)) ∧
      ∃ e, (IsTextError e ∨ ∃ message, e = .ledgerImbalanceError message) ∧
      postJournal R specs description d L =
        (.error e, drawn specs d, { L with accountHeads := newHeads R specs description d L })) ∨
    (Positive specs ∧ Hashed R specs description d L ∧ InBalance (specs.map (·.posting)) ∧
      postJournal R specs description d L =
        (.ok (newJournal R specs description d L), drawn specs d, commit R specs description d L)) := by
  by_cases hp : Positive specs
  · refine .inr ?_
    rcases hmade : makeEntries R (R.uuid4 d.uuids) description (R.time d.times) specs (d.uuids + 1)
      L.accountHeads with ⟨_ | _, uuids, heads⟩
    · rename_i e
      obtain ⟨ht, pre, spec, post, hsplit, hn, hheads, hbefore, hat⟩ := makeEntries_error hmade
      rw [hheads] at hat
      refine .inl ⟨hp, e, pre, spec, post, ht, hsplit, ⟨hbefore, hat⟩, ?_⟩
      simp only [postJournal, find?_eq_none_of_positive hp, hmade, hn, hheads, drawn, newHeads,
        List.length_append, List.length_singleton, Nat.add_assoc]
    · rename_i entries
      obtain ⟨hn, hwritten, hall⟩ := makeEntries_ok hmade
      obtain ⟨rfl, rfl⟩ := Prod.ext_iff.mp hwritten
      refine .inr ?_
      by_cases hb : InBalance (specs.map (·.posting))
      · have hj := (newJournal_isBalanced (R := R) specs description d L).mpr hb
        unfold newJournal at hj
        refine .inr ⟨hp, hall, hb, ?_⟩
        simp only [postJournal, find?_eq_none_of_positive hp, hmade, hn, Journal.assertBalanced, hj,
          ↓reduceIte]
        rfl
      · have hj : (newJournal R specs description d L).isBalanced = false := by
          rw [← Bool.not_eq_true, newJournal_isBalanced]
          exact hb
        obtain ⟨e, he, hj⟩ := assertBalanced_of_not_isBalanced hj
        unfold newJournal at hj
        refine .inl ⟨hp, hall, hb, e, he, ?_⟩
        simp only [postJournal, find?_eq_none_of_positive hp, hmade, hn, hj]
        rfl
  · exact .inl ⟨hp, postJournal_invalid hp description d L⟩

/-- A call that returns has committed the journal it was asked for. -/
theorem postJournal_ok {specs : List EntrySpec} {description : String} {d : Draws} {L : LedgerEngine}
    {j : Journal} (h : (postJournal R specs description d L).1 = .ok j) :
    Hashed R specs description d L ∧ InBalance (specs.map (·.posting)) ∧
      postJournal R specs description d L =
        (.ok (newJournal R specs description d L), drawn specs d, commit R specs description d L) := by
  rcases postJournal_cases R specs description d L with ⟨-, _, he⟩ | ⟨-, _, _, _, _, -, -, -, he⟩ |
    ⟨-, -, -, _, -, he⟩ | ⟨-, hs, hb, he⟩
  · rw [he] at h; cases h
  · rw [he] at h; cases h
  · rw [he] at h; cases h
  · exact ⟨hs, hb, he⟩

theorem postJournal_later {specs : List EntrySpec} {description : String} {d : Draws} {L : LedgerEngine} :
    d.Later (postJournal R specs description d L).2.1 := by
  have hdrawn : ∀ specs, d.Later (drawn specs d) :=
    fun specs => ⟨by simp only [drawn]; omega, Nat.le_succ _⟩
  rcases postJournal_cases R specs description d L with ⟨-, _, he⟩ | ⟨-, _, _, _, _, -, -, -, he⟩ |
    ⟨-, -, -, _, -, he⟩ | ⟨-, -, -, he⟩
  · rw [he]; exact .refl d
  · rw [he]; exact hdrawn _
  · rw [he]; exact hdrawn _
  · rw [he]; exact hdrawn _

/-! ## Where the heads can be hashed -/

theorem headsEncode_writtenEntry {heads : Dict String String} (hh : HeadsEncode R heads)
    (journalId description : String) (now : ℚ) (spec : EntrySpec) (entryId : String) :
    HeadsEncode R (heads.set spec.accountId
      (writtenEntry R journalId description now spec entryId heads).entryHash) := by
  intro a h hg
  rcases Dict.of_get?_set hg with ⟨-, rfl⟩ | hold
  · exact R.encodes_sha256 _
  · exact hh a h hold

theorem headsEncode_writtenEntries {heads : Dict String String} (hh : HeadsEncode R heads)
    (journalId description : String) (now : ℚ) (specs : List EntrySpec) (n : Nat) :
    HeadsEncode R (writtenEntries R journalId description now specs n heads).2 := by
  induction specs generalizing n heads with
  | nil => exact hh
  | cons spec specs ih => exact ih (headsEncode_writtenEntry hh _ _ _ _ _) _

theorem writtenEntries_hashable_iff {heads : Dict String String} (hh : HeadsEncode R heads) (m : Nat)
    (description : String) (now : ℚ) (specs : List EntrySpec) (n : Nat) :
    (∀ e ∈ (writtenEntries R (R.uuid4 m) description now specs n heads).1, e.hashedFields.Hashable R) ↔
      ∀ spec ∈ specs, spec.Hashable R := by
  induction specs generalizing n heads with
  | nil => simp [writtenEntries]
  | cons spec specs ih =>
      simp only [writtenEntries, List.forall_mem_cons]
      rw [ih (headsEncode_writtenEntry hh _ _ _ _ _)]
      exact and_congr_left' (spec.fields_hashable_iff hh now m n)

section Reachable

variable {specs : List EntrySpec} {description : String} {d : Draws} {L : LedgerEngine}

theorem hashed_iff (hh : HeadsEncode R L.accountHeads) :
    Hashed R specs description d L ↔ ∀ spec ∈ specs, spec.Hashable R :=
  writtenEntries_hashable_iff hh _ _ _ _ _

theorem BreaksOffAt.not_hashable (hh : HeadsEncode R L.accountHeads) {pre : List EntrySpec} {spec : EntrySpec}
    (h : BreaksOffAt R pre spec description d L) :
    (∀ s ∈ pre, s.Hashable R) ∧ ¬ spec.Hashable R := by
  have hheads : HeadsEncode R (newHeads R pre description d L) := headsEncode_writtenEntries hh _ _ _ _ _
  exact ⟨(hashed_iff hh).mp h.before, fun hs => h.at' ((spec.fields_hashable_iff hheads _ _ _).mpr hs)⟩

theorem postJournal_headsEncode (hh : HeadsEncode R L.accountHeads) :
    HeadsEncode R (postJournal R specs description d L).2.2.accountHeads := by
  rcases postJournal_cases R specs description d L with ⟨-, _, he⟩ | ⟨-, _, _, _, _, -, -, -, he⟩ |
    ⟨-, -, -, _, -, he⟩ | ⟨-, -, -, he⟩
  · rw [he]; exact hh
  · rw [he]; exact headsEncode_writtenEntries hh _ _ _ _ _
  · rw [he]; exact headsEncode_writtenEntries hh _ _ _ _ _
  · rw [he]; exact headsEncode_writtenEntries hh _ _ _ _ _

theorem postJournal_balanced (hh : HeadsEncode R L.accountHeads) (hp : Positive specs)
    (hs : ∀ spec ∈ specs, spec.Hashable R) (hb : InBalance (specs.map (·.posting))) :
    postJournal R specs description d L =
      (.ok (newJournal R specs description d L), drawn specs d, commit R specs description d L) := by
  rcases postJournal_cases R specs description d L with ⟨hn, -⟩ | ⟨-, _, _, spec, _, -, hsplit, hoff, -⟩ |
    ⟨-, -, hn, -⟩ | ⟨-, -, -, he⟩
  · exact absurd hp hn
  · exact absurd (hs spec (by rw [hsplit]; simp)) (hoff.not_hashable hh).2
  · exact absurd hb hn
  · exact he

end Reachable

end LedgerEngine

end ExpenseSettlement
