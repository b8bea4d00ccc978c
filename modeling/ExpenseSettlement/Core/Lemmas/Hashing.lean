import ExpenseSettlement.Core.LedgerEngine

/-!
# What can be hashed

A hash is missing where the amount has too many digits for a text, or where the joined fields cannot be
encoded. Generated ids, numbers and digests can be, so of an entry only its account and its amount
matter.
-/

namespace ExpenseSettlement

open Lib LedgerEngine

/-! ## Encoding -/

namespace Runtime

variable {R : Runtime}

theorem encodes_append_iff {s t : String} :
    R.encodes (s ++ t) = true ↔ R.encodes s = true ∧ R.encodes t = true := by
  rw [R.encodes_append, Bool.and_eq_true]

theorem encodes_toString_int (n : ℤ) : R.encodes (toString n) = true := by
  apply R.encodes_ascii
  rw [List.all_eq_true]
  intro c hc
  have hdigit : ∀ m, c ∈ Nat.toDigits 10 m → decide (c.toNat < 128) = true := by
    intro m hm
    have hd := Nat.isDigit_of_mem_toDigits (by decide) (by decide) hm
    simp only [Char.isDigit, Bool.and_eq_true, decide_eq_true_eq] at hd
    have hle : c.toNat ≤ 57 := hd.2
    exact decide_eq_true (by omega)
  rw [Int.toString_eq_repr, Int.repr_eq_if] at hc
  split at hc
  · exact hdigit _ (by simpa using hc)
  · rw [String.toList_append, List.mem_append] at hc
    rcases hc with hc | hc
    · obtain rfl : c = '-' := List.mem_singleton.mp hc
      decide
    · exact hdigit _ (by simpa using hc)

theorem encodes_entryType (t : EntryType) : R.encodes t.value = true := by
  cases t with
  | debit => exact R.encodes_ascii _ (by decide)
  | credit => exact R.encodes_ascii _ (by decide)

theorem encodes_genesisHash : R.encodes genesisHash = true := R.encodes_ascii _ (by decide)

end Runtime

theorem printable_iff {n : ℤ} (h : 1 ≤ n) : Printable n ↔ n < 10 ^ maxStrDigits := by
  rw [Printable, ← Int.ofNat_lt, Int.natAbs_of_nonneg (by omega), Nat.cast_pow]
  rfl

/-! ## The hashed fields -/

structure HashedFields where
  entryId : String
  journalId : String
  accountId : String
  entryType : EntryType
  amountCents : ℤ
  createdAt : ℚ
  prevHash : String
deriving DecidableEq

def LedgerEntry.hashedFields (e : LedgerEntry) : HashedFields :=
  ⟨e.entryId, e.journalId, e.accountId, e.entryType, e.amountCents, e.createdAt, e.prevHash⟩

/-- The joined fields, however many digits the amount has. -/
def HashedFields.text (R : Runtime) (f : HashedFields) : String :=
  f.entryId ++ "|" ++ f.journalId ++ "|" ++ f.accountId ++ "|" ++ f.entryType.value ++ "|" ++
    toString f.amountCents ++ "|" ++ R.strFloat f.createdAt ++ "|" ++ f.prevHash

def LedgerEntry.text (R : Runtime) (e : LedgerEntry) : String := e.hashedFields.text R

structure HashedFields.Hashable (R : Runtime) (f : HashedFields) : Prop where
  printable : Printable f.amountCents
  encodes : R.encodes (f.text R) = true

variable {R : Runtime}

theorem HashedFields.encodes_text {f : HashedFields} :
    R.encodes (f.text R) = true ↔ R.encodes f.entryId = true ∧ R.encodes f.journalId = true ∧
      R.encodes f.accountId = true ∧ R.encodes f.prevHash = true := by
  have hbar : R.encodes "|" = true := R.encodes_ascii _ (by decide)
  simp only [text, Runtime.encodes_append_iff, hbar, Runtime.encodes_entryType,
    Runtime.encodes_toString_int, R.encodes_strFloat, and_true, and_assoc]

namespace LedgerEngine

theorem makeHash_of_hashable {f : HashedFields} (h : f.Hashable R) :
    makeHash R f.entryId f.journalId f.accountId f.entryType f.amountCents f.createdAt f.prevHash =
      .ok (R.sha256 (f.text R)) := by
  have hpayload : payload R f.entryId f.journalId f.accountId f.entryType f.amountCents f.createdAt
      f.prevHash = .ok (f.text R) := by
    rw [payload, strInt_of_printable h.printable]
    rfl
  rw [makeHash, hpayload]
  exact if_pos h.encodes

theorem makeHash_of_not_hashable {f : HashedFields} (h : ¬ f.Hashable R) :
    ∃ e, IsTextError e ∧
      makeHash R f.entryId f.journalId f.accountId f.entryType f.amountCents f.createdAt f.prevHash =
        .error e := by
  by_cases hp : Printable f.amountCents
  · have hpayload : payload R f.entryId f.journalId f.accountId f.entryType f.amountCents f.createdAt
        f.prevHash = .ok (f.text R) := by
      rw [payload, strInt_of_printable hp]
      rfl
    refine ⟨.unicodeEncodeError, trivial, ?_⟩
    rw [makeHash, hpayload]
    exact if_neg fun he => h ⟨hp, he⟩
  · obtain ⟨message, he⟩ := strInt_of_not_printable hp
    refine ⟨.valueError message, trivial, ?_⟩
    rw [makeHash, payload, he]

/-- The hash of an entry is there, or it raises. -/
theorem makeHash_cases (R : Runtime) (e : LedgerEntry) :
    (e.hashedFields.Hashable R ∧ makeHash R e.entryId e.journalId e.accountId e.entryType e.amountCents
      e.createdAt e.prevHash = .ok (R.sha256 (e.text R))) ∨
    ¬ e.hashedFields.Hashable R ∧ ∃ err, IsTextError err ∧ makeHash R e.entryId e.journalId e.accountId
      e.entryType e.amountCents e.createdAt e.prevHash = .error err := by
  by_cases h : e.hashedFields.Hashable R
  · exact .inl ⟨h, makeHash_of_hashable h⟩
  · exact .inr ⟨h, makeHash_of_not_hashable h⟩

end LedgerEngine

/-! ## Entries that are made -/

/-- The account and the amount of the entry can be hashed. -/
structure EntrySpec.Hashable (R : Runtime) (spec : EntrySpec) : Prop where
  account : R.encodes spec.accountId = true
  amount : Printable spec.amountCents

instance EntrySpec.decidableHashable (R : Runtime) (spec : EntrySpec) : Decidable (spec.Hashable R) :=
  decidable_of_iff (R.encodes spec.accountId = true ∧ Printable spec.amountCents)
    ⟨fun h => ⟨h.1, h.2⟩, fun h => ⟨h.account, h.amount⟩⟩

/-- The head of every account can be hashed. -/
def HeadsEncode (R : Runtime) (heads : Dict String String) : Prop :=
  ∀ a h, heads.get? a = some h → R.encodes h = true

/-- What the loop hashes for the entry. -/
def EntrySpec.fields (spec : EntrySpec) (journalId : String) (now : ℚ) (entryId : String)
    (heads : Dict String String) : HashedFields :=
  ⟨entryId, journalId, spec.accountId, spec.entryType, spec.amountCents, now,
    heads.getD spec.accountId genesisHash⟩

theorem EntrySpec.fields_hashable_iff {heads : Dict String String} (hh : HeadsEncode R heads)
    (spec : EntrySpec)
    (now : ℚ) (m n : Nat) : (spec.fields (R.uuid4 m) now (R.uuid4 n) heads).Hashable R ↔ spec.Hashable R := by
  have hprev : R.encodes (heads.getD spec.accountId genesisHash) = true := by
    cases hg : heads.get? spec.accountId with
    | none =>
        rw [Dict.getD, hg]
        exact Runtime.encodes_genesisHash
    | some h =>
        rw [Dict.getD, hg]
        exact hh _ _ hg
  constructor
  · rintro ⟨hamount, htext⟩
    exact ⟨(HashedFields.encodes_text.mp htext).2.2.1, hamount⟩
  · rintro ⟨haccount, hamount⟩
    exact ⟨hamount, HashedFields.encodes_text.mpr ⟨R.encodes_uuid4 n, R.encodes_uuid4 m, haccount, hprev⟩⟩

namespace LedgerEngine

/-- The entry that the loop makes where it can be hashed. -/
def writtenEntry (R : Runtime) (journalId description : String) (now : ℚ) (spec : EntrySpec)
    (entryId : String) (heads : Dict String String) : LedgerEntry where
  entryId := entryId
  journalId := journalId
  accountId := spec.accountId
  accountType := spec.accountType
  entryType := spec.entryType
  amountCents := spec.amountCents
  description := spec.description.getD description
  createdAt := now
  prevHash := heads.getD spec.accountId genesisHash
  entryHash := R.sha256 ((spec.fields journalId now entryId heads).text R)

/-- The entries, and the heads, that the loop makes where all can be hashed. -/
def writtenEntries (R : Runtime) (journalId description : String) (now : ℚ) :
    List EntrySpec → Nat → Dict String String → List LedgerEntry × Dict String String
  | [], _, heads => ([], heads)
  | spec :: specs, n, heads =>
      let entry := writtenEntry R journalId description now spec (R.uuid4 n) heads
      let (entries, heads') := writtenEntries R journalId description now specs (n + 1)
        (heads.set spec.accountId entry.entryHash)
      (entry :: entries, heads')

section Written

variable {journalId description : String} {now : ℚ} {spec : EntrySpec} {specs : List EntrySpec}
  {entryId : String} {n : Nat} {heads : Dict String String}

theorem makeEntry_cases (R : Runtime) (journalId description : String) (now : ℚ) (spec : EntrySpec)
    (entryId : String) (heads : Dict String String) :
    ((spec.fields journalId now entryId heads).Hashable R ∧
      makeEntry R journalId description now spec entryId heads =
        .ok (writtenEntry R journalId description now spec entryId heads)) ∨
    ¬ (spec.fields journalId now entryId heads).Hashable R ∧
      ∃ e, IsTextError e ∧ makeEntry R journalId description now spec entryId heads = .error e := by
  by_cases h : (spec.fields journalId now entryId heads).Hashable R
  · refine .inl ⟨h, ?_⟩
    have hhash := makeHash_of_hashable h
    dsimp only [EntrySpec.fields] at hhash
    simp only [makeEntry, hhash]
    rfl
  · obtain ⟨e, ht, he⟩ := makeHash_of_not_hashable h
    refine .inr ⟨h, e, ht, ?_⟩
    dsimp only [EntrySpec.fields] at he
    simp only [makeEntry, he]

/-- Where the loop comes to its end, all entries have been hashed. -/
theorem makeEntries_ok {entries : List LedgerEntry} {n' : Nat} {heads' : Dict String String}
    (h : makeEntries R journalId description now specs n heads = (.ok entries, n', heads')) :
    n' = n + specs.length ∧ (entries, heads') = writtenEntries R journalId description now specs n heads ∧
      ∀ e ∈ entries, e.hashedFields.Hashable R := by
  induction specs generalizing n heads entries with
  | nil =>
      cases h
      exact ⟨rfl, rfl, by simp⟩
  | cons spec specs ih =>
      rcases makeEntry_cases R journalId description now spec (R.uuid4 n) heads with
        ⟨hhash, hentry⟩ | ⟨-, e, -, hentry⟩
      · simp only [makeEntries, hentry] at h
        split at h
        · cases h
        · rename_i entries' n'' heads'' hrest
          cases h
          obtain ⟨hn, hwritten, hall⟩ := ih hrest
          refine ⟨?_, ?_, ?_⟩
          · rw [hn, List.length_cons]
            omega
          · simp only [writtenEntries, ← hwritten]
          · rw [List.forall_mem_cons]
            exact ⟨hhash, hall⟩
      · simp only [makeEntries, hentry] at h
        cases h

/-- Where it breaks off, the heads are those that the entries before have moved. -/
theorem makeEntries_error {e : PyError} {n' : Nat} {heads' : Dict String String}
    (h : makeEntries R journalId description now specs n heads = (.error e, n', heads')) :
    IsTextError e ∧ ∃ pre spec post, specs = pre ++ spec :: post ∧ n' = n + pre.length + 1 ∧
      heads' = (writtenEntries R journalId description now pre n heads).2 ∧
      (∀ entry ∈ (writtenEntries R journalId description now pre n heads).1, entry.hashedFields.Hashable R) ∧
      ¬ (spec.fields journalId now (R.uuid4 (n + pre.length)) heads').Hashable R := by
  induction specs generalizing n heads with
  | nil => cases h
  | cons spec specs ih =>
      rcases makeEntry_cases R journalId description now spec (R.uuid4 n) heads with
        ⟨hhash, hentry⟩ | ⟨hhash, e, ht, hentry⟩
      · simp only [makeEntries, hentry] at h
        split at h
        · rename_i e' n'' heads'' hrest
          cases h
          obtain ⟨ht, pre, spec', post, rfl, hn, hheads, hall, hnot⟩ := ih hrest
          refine ⟨ht, spec :: pre, spec', post, rfl, ?_, hheads, ?_, ?_⟩
          · rw [hn, List.length_cons]
            omega
          · simp only [writtenEntries, List.forall_mem_cons]
            exact ⟨hhash, hall⟩
          · rw [List.length_cons, show n + (pre.length + 1) = n + 1 + pre.length by omega]
            exact hnot
        · cases h
      · simp only [makeEntries, hentry] at h
        cases h
        exact ⟨ht, [], spec, specs, rfl, rfl, rfl, by simp [writtenEntries], hhash⟩

end Written

end LedgerEngine

end ExpenseSettlement
