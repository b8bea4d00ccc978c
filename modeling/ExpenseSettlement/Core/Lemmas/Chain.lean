import ExpenseSettlement.Core.Lemmas.Hashing
import ExpenseSettlement.Lib.HashChain
import Mathlib.Data.List.Induction

/-!
# The hash chains of the accounts

The entries of one account, in the order in which they were appended, form a chain whose tip is the
account's head. The verifier checks the same chains in the order of the time stamps.
-/

namespace ExpenseSettlement.LedgerEngine

open Lib

variable {R : Runtime}

def onAccount (a : String) (entries : List LedgerEntry) : List LedgerEntry :=
  entries.filter (·.accountId = a)

theorem onAccount_append (a : String) (entries new : List LedgerEntry) :
    onAccount a (entries ++ new) = onAccount a entries ++ onAccount a new := by
  simp [onAccount]

theorem onAccount_singleton (a : String) (e : LedgerEntry) :
    onAccount a [e] = if e.accountId = a then [e] else [] := by
  by_cases h : e.accountId = a <;> simp [onAccount, h]

def links (R : Runtime) : Links LedgerEntry String where
  prev := (·.prevHash)
  hash := (·.entryHash)
  digest := fun e => (makeHash R e.entryId e.journalId e.accountId e.entryType e.amountCents e.createdAt
    e.prevHash).toOption

theorem digest_eq_some {e : LedgerEntry} {h : String} :
    (links R).digest e = some h ↔ e.hashedFields.Hashable R ∧ R.sha256 (e.text R) = h := by
  rcases makeHash_cases R e with ⟨hhash, he⟩ | ⟨hhash, err, -, he⟩
  · simp [links, he, hhash, Except.toOption]
  · simp [links, he, hhash, Except.toOption]

/-! ## The verifier -/

theorem byAccount_append (entries : List LedgerEntry) (e : LedgerEntry) :
    byAccount (entries ++ [e]) =
      (byAccount entries).set e.accountId ((byAccount entries).getD e.accountId [] ++ [e]) := by
  simp [byAccount, List.foldl_append]

/-- The dictionary has exactly the accounts with entries, each with its entries in append order. -/
theorem get?_byAccount (a : String) (entries : List LedgerEntry) :
    (byAccount entries).get? a =
      if onAccount a entries = [] then none else some (onAccount a entries) := by
  induction entries using List.reverseRecOn with
  | nil => rfl
  | append_singleton entries e ih =>
      rw [byAccount_append, Dict.get?_set, onAccount_append, onAccount_singleton]
      by_cases h : e.accountId = a
      · subst h
        simp only [↓reduceIte, Dict.getD, ih]
        by_cases hn : onAccount e.accountId entries = [] <;> simp [hn]
      · simp [h, ih]

theorem chainErrors_eq_nil {a h : String} {entries : List LedgerEntry} :
    chainErrors R a h entries = .ok [] ↔ (links R).IsChain h entries := by
  induction entries generalizing h with
  | nil => simp [chainErrors, Links.IsChain]
  | cons e entries ih =>
      rw [chainErrors, Links.IsChain, ← ih]
      simp only [links]
      cases makeHash R e.entryId e.journalId e.accountId e.entryType e.amountCents e.createdAt e.prevHash with
      | error err => simp [Except.toOption]
      | ok expected =>
          cases chainErrors R a e.entryHash entries with
          | error err => simp
          | ok errors => simp [Except.toOption]

/-- The verifier gets through an account exactly when all of its entries can be hashed. -/
theorem chainErrors_returns {a h : String} {entries : List LedgerEntry} :
    (∃ errors, chainErrors R a h entries = .ok errors) ↔ ∀ e ∈ entries, e.hashedFields.Hashable R := by
  induction entries generalizing h with
  | nil => simp [chainErrors]
  | cons e entries ih =>
      rw [List.forall_mem_cons, ← @ih e.entryHash, chainErrors]
      rcases makeHash_cases R e with ⟨hhash, he⟩ | ⟨hhash, err, -, he⟩
      · rw [he]
        cases chainErrors R a e.entryHash entries with
        | error err => simp
        | ok errors => simp [hhash]
      · rw [he]
        simp [hhash]

theorem accountErrors_eq_nil {accounts : List (String × List LedgerEntry)} :
    accountErrors R accounts = .ok [] ↔
      ∀ p ∈ accounts, (links R).IsChain genesisHash (sortByCreatedAt p.2) := by
  induction accounts with
  | nil => simp [accountErrors]
  | cons p accounts ih =>
      rw [List.forall_mem_cons, ← ih, ← chainErrors_eq_nil (a := p.1), accountErrors]
      cases chainErrors R p.1 genesisHash (sortByCreatedAt p.2) with
      | error err => simp
      | ok errors =>
          cases accountErrors R accounts with
          | error err => simp
          | ok errors' => simp

theorem accountErrors_returns {accounts : List (String × List LedgerEntry)} :
    (∃ errors, accountErrors R accounts = .ok errors) ↔
      ∀ p ∈ accounts, ∀ e ∈ p.2, e.hashedFields.Hashable R := by
  induction accounts with
  | nil => simp [accountErrors]
  | cons p accounts ih =>
      have hsort : ∀ e, e ∈ p.2 ↔ e ∈ sortByCreatedAt p.2 := fun e => (List.mem_insertionSort _).symm
      rw [List.forall_mem_cons, ← ih]
      simp only [hsort]
      rw [← chainErrors_returns (a := p.1) (h := genesisHash), accountErrors]
      cases chainErrors R p.1 genesisHash (sortByCreatedAt p.2) with
      | error err => simp
      | ok errors =>
          cases accountErrors R accounts with
          | error err => simp
          | ok errors' => simp

theorem verifyChainIntegrity_eq (R : Runtime) (L : LedgerEngine) :
    (∃ e, verifyChainIntegrity R L = .error e ∧ accountErrors R (byAccount L.entries).items = .error e) ∨
    ∃ errors, verifyChainIntegrity R L = .ok (errors.length = 0, errors) ∧
      accountErrors R (byAccount L.entries).items = .ok errors := by
  unfold verifyChainIntegrity
  cases accountErrors R (byAccount L.entries).items with
  | error e => exact .inl ⟨e, rfl, rfl⟩
  | ok errors => exact .inr ⟨errors, rfl, rfl⟩

/-- The verifier accepts exactly when every account's entries, in the order of their time stamps,
form a chain from the genesis hash. -/
theorem verifyChainIntegrity_ok {L : LedgerEngine} :
    verifyChainIntegrity R L = .ok (true, []) ↔
      ∀ a, (links R).IsChain genesisHash (sortByCreatedAt (onAccount a L.entries)) := by
  have hverify : verifyChainIntegrity R L = .ok (true, []) ↔
      accountErrors R (byAccount L.entries).items = .ok [] := by
    rcases verifyChainIntegrity_eq R L with ⟨e, hv, he⟩ | ⟨errors, hv, he⟩
    · rw [hv, he]
      constructor
      · intro h
        cases h
      · intro h
        cases h
    · rw [hv, he]
      simp only [Except.ok.injEq, Prod.mk.injEq, decide_eq_true_eq, List.length_eq_zero_iff, and_self]
  rw [hverify, accountErrors_eq_nil]
  constructor
  · intro h a
    by_cases hn : onAccount a L.entries = []
    · rw [hn]
      trivial
    · have hg : (byAccount L.entries).get? a = some (onAccount a L.entries) := by
        rw [get?_byAccount, if_neg hn]
      exact h (a, _) (Dict.get?_eq_some.mp hg)
  · rintro h ⟨a, entries⟩ hm
    have hg := Dict.get?_eq_some.mpr hm
    rw [get?_byAccount] at hg
    split at hg
    · cases hg
    · cases hg
      exact h a

theorem verifyChainIntegrity_returns {L : LedgerEngine} :
    (∃ result, verifyChainIntegrity R L = .ok result) ↔ ∀ e ∈ L.entries, e.hashedFields.Hashable R := by
  have hverify : (∃ result, verifyChainIntegrity R L = .ok result) ↔
      ∃ errors, accountErrors R (byAccount L.entries).items = .ok errors := by
    rcases verifyChainIntegrity_eq R L with ⟨e, hv, he⟩ | ⟨errors, hv, he⟩
    · rw [hv, he]
      simp
    · rw [hv, he]
      simp
  rw [hverify, accountErrors_returns]
  constructor
  · intro h e he
    have hm : e ∈ onAccount e.accountId L.entries := by simp [onAccount, he]
    have hg : (byAccount L.entries).get? e.accountId = some (onAccount e.accountId L.entries) := by
      rw [get?_byAccount, if_neg (List.ne_nil_of_mem hm)]
    exact h (e.accountId, _) (Dict.get?_eq_some.mp hg) e hm
  · rintro h ⟨a, entries⟩ hp e he
    have hg := Dict.get?_eq_some.mpr hp
    rw [get?_byAccount] at hg
    split at hg
    · cases hg
    · cases hg
      exact h e (List.mem_filter.mp he).1

/-- The verifier says either that all is well or that it has found errors, unless it raises. -/
theorem verifyChainIntegrity_rejects {L : LedgerEngine} :
    (∃ errors, verifyChainIntegrity R L = .ok (false, errors)) ↔
      (∀ e ∈ L.entries, e.hashedFields.Hashable R) ∧ verifyChainIntegrity R L ≠ .ok (true, []) := by
  rw [← verifyChainIntegrity_returns]
  rcases verifyChainIntegrity_eq R L with ⟨e, hv, -⟩ | ⟨errors, hv, -⟩
  · rw [hv]
    simp
  · rw [hv]
    simp

/-- The verifier's first answer says whether its second is empty. -/
theorem verifyChainIntegrity_ok_iff {L : LedgerEngine} {ok : Bool} {errs : List String}
    (h : verifyChainIntegrity R L = .ok (ok, errs)) :
    verifyChainIntegrity R L = .ok (true, []) ↔ ok = true := by
  rcases verifyChainIntegrity_eq R L with ⟨e, hv, -⟩ | ⟨errors, hv, -⟩
  · rw [hv] at h
    cases h
  · rw [hv] at h ⊢
    cases h
    simp

/-- Sorting by time stamp moves nothing when the stamps already ascend. -/
theorem sortByCreatedAt_of_pairwise {entries : List LedgerEntry}
    (h : entries.Pairwise (·.createdAt ≤ ·.createdAt)) : sortByCreatedAt entries = entries :=
  h.insertionSort_eq

/-! ## Writing -/

/-- Every account is a chain and its head is the chain's tip. -/
structure Linked (R : Runtime) (entries : List LedgerEntry) (heads : Dict String String) : Prop where
  chain : ∀ a, (links R).IsChain genesisHash (onAccount a entries)
  head : ∀ a, heads.get? a = (onAccount a entries).getLast?.map (·.entryHash)

theorem Linked.nil : Linked R [] Dict.empty where
  chain := fun _ => trivial
  head := fun _ => rfl

/-- The hash the next entry of an account has to name is what `post_journal` looks up. -/
theorem Linked.tip {entries : List LedgerEntry} {heads : Dict String String}
    (h : Linked R entries heads) (a : String) :
    heads.getD a genesisHash = (links R).tip genesisHash (onAccount a entries) := by
  rw [Dict.getD, h.head]
  rfl

theorem Linked.concat {entries : List LedgerEntry} {heads : Dict String String}
    (h : Linked R entries heads) {journalId description : String} {now : ℚ} {spec : EntrySpec}
    {entryId : String}
    (hhash : (writtenEntry R journalId description now spec entryId heads).hashedFields.Hashable R) :
    let e := writtenEntry R journalId description now spec entryId heads
    Linked R (entries ++ [e]) (heads.set spec.accountId e.entryHash) := by
  intro e
  have hea : e.accountId = spec.accountId := rfl
  constructor
  · intro a
    rw [onAccount_append, onAccount_singleton]
    by_cases ha : e.accountId = a
    · subst ha
      -- an account hit twice by one journal chains to the entry just made
      rw [if_pos rfl]
      exact (h.chain _).concat (links R) (h.tip _) (digest_eq_some.mpr ⟨hhash, rfl⟩)
    · rw [if_neg ha, List.append_nil]
      exact h.chain a
  · intro a
    rw [onAccount_append, onAccount_singleton, Dict.get?_set, ← hea]
    by_cases ha : e.accountId = a
    · simp [ha]
    · rw [if_neg ha, if_neg ha, List.append_nil]
      exact h.head a

theorem Linked.writtenEntries {entries : List LedgerEntry} {heads : Dict String String}
    (h : Linked R entries heads) {journalId description : String} {now : ℚ} {specs : List EntrySpec}
    {n : Nat}
    (hhash : ∀ e ∈ (writtenEntries R journalId description now specs n heads).1, e.hashedFields.Hashable R) :
    Linked R (entries ++ (writtenEntries R journalId description now specs n heads).1)
      (writtenEntries R journalId description now specs n heads).2 := by
  induction specs generalizing entries n heads with
  | nil => simpa [LedgerEngine.writtenEntries] using h
  | cons spec specs ih =>
      simp only [LedgerEngine.writtenEntries, List.forall_mem_cons] at hhash
      have := ih (h.concat hhash.1) hhash.2
      simpa [LedgerEngine.writtenEntries] using this

end ExpenseSettlement.LedgerEngine
