import ExpenseSettlement.Core.Lemmas.LedgerRun

/-!
# Rejected journals

A journal that does not balance is rejected after its loop has moved the heads, and an entry that cannot
be hashed ends the loop after those before it have moved theirs. The ids that the loop draws are new, so
the moved heads differ from every earlier one.
-/

namespace ExpenseSettlement

open Lib LedgerEngine

variable {R : Runtime}

/-! ## Where the heads come from -/

def HashedWith (R : Runtime) (k : Nat) (h : String) : Prop :=
  ∃ text : String, ∃ rest, text.toList = (R.uuid4 k).toList ++ '|' :: rest ∧ h = R.sha256 text

theorem HashedWith.inj (hsha : Function.Injective R.sha256) {k k' : Nat} {h : String}
    (h₁ : HashedWith R k h) (h₂ : HashedWith R k' h) : k = k' := by
  obtain ⟨t, r, ht, rfl⟩ := h₁
  obtain ⟨t', r', ht', he⟩ := h₂
  have htt : t = t' := hsha he
  rw [← htt, ht] at ht'
  have hids := (field_inj (R.uuid4_no_bar k) (R.uuid4_no_bar k') ht').1
  exact R.uuid4_injective (String.toList_inj.mp hids)

theorem writtenEntry_hashedWith (journalId description : String) (now : ℚ) (spec : EntrySpec) (k : Nat)
    (heads : Dict String String) :
    HashedWith R k (writtenEntry R journalId description now spec (R.uuid4 k) heads).entryHash := by
  refine ⟨_, ?_, ?_, rfl⟩
  · exact (journalId ++ "|" ++ spec.accountId ++ "|" ++ spec.entryType.value ++ "|" ++
      toString spec.amountCents ++ "|" ++ R.strFloat now ++ "|" ++
      heads.getD spec.accountId genesisHash).toList
  · simp [EntrySpec.fields, HashedFields.text, String.toList_append]

/-- Every head is a hash made with one of the first `n` ids. -/
def HeadsBelow (R : Runtime) (n : Nat) (heads : Dict String String) : Prop :=
  ∀ a h, heads.get? a = some h → ∃ k < n, HashedWith R k h

theorem HeadsBelow.mono {heads : Dict String String} {n n' : Nat} (h : HeadsBelow R n heads) (hn : n ≤ n') :
    HeadsBelow R n' heads := by
  intro a x hg
  obtain ⟨k, hk, hh⟩ := h a x hg
  exact ⟨k, by omega, hh⟩

theorem HeadsBelow.writtenEntries {heads : Dict String String} {n : Nat} (hb : HeadsBelow R n heads)
    (journalId description : String) (now : ℚ) (specs : List EntrySpec) :
    HeadsBelow R (n + specs.length) (writtenEntries R journalId description now specs n heads).2 := by
  induction specs generalizing n heads with
  | nil => exact hb
  | cons spec specs ih =>
      have hset : HeadsBelow R (n + 1) (heads.set spec.accountId
          (writtenEntry R journalId description now spec (R.uuid4 n) heads).entryHash) := by
        intro a h hg
        rcases Dict.of_get?_set hg with ⟨_, rfl⟩ | hold
        · exact ⟨n, Nat.lt_succ_self n, writtenEntry_hashedWith _ _ _ _ _ _⟩
        · obtain ⟨k, hk, hh⟩ := hb a h hold
          exact ⟨k, by omega, hh⟩
      have := ih hset
      rw [List.length_cons, Nat.add_comm specs.length 1, ← Nat.add_assoc]
      exact this

theorem writtenEntries_new_head (journalId description : String) (now : ℚ) {specs : List EntrySpec}
    (hne : specs ≠ []) (n : Nat) (heads : Dict String String) :
    ∃ a h, (writtenEntries R journalId description now specs n heads).2.get? a = some h ∧
      ∃ k ≥ n, HashedWith R k h := by
  induction specs generalizing n heads with
  | nil => exact absurd rfl hne
  | cons spec specs ih =>
      cases specs with
      | nil =>
          exact ⟨spec.accountId, _, Dict.get?_set_self _ _ _, n, Nat.le_refl n,
            writtenEntry_hashedWith _ _ _ _ _ _⟩
      | cons spec' specs =>
          obtain ⟨a, h, hg, k, hk, hh⟩ := ih (by simp) (n + 1) (heads.set spec.accountId
            (writtenEntry R journalId description now spec (R.uuid4 n) heads).entryHash)
          exact ⟨a, h, hg, k, by omega, hh⟩

theorem newHeads_ne (hsha : Function.Injective R.sha256) {specs : List EntrySpec} (hne : specs ≠ [])
    (description : String) {d : Draws} {L : LedgerEngine} (h : HeadsBelow R d.uuids L.accountHeads) :
    newHeads R specs description d L ≠ L.accountHeads := by
  intro heq
  obtain ⟨a, x, hg, k, hk, hh⟩ := writtenEntries_new_head (R := R) (R.uuid4 d.uuids) description
    (R.time d.times) hne (d.uuids + 1) L.accountHeads
  have hold : L.accountHeads.get? a = some x := by
    rw [← heq]
    exact hg
  obtain ⟨k', hk', hh'⟩ := h a x hold
  have := hh.inj hsha hh'
  omega

/-! ## Runs of plain journals -/

/-- The call does not break off between two entries, and an imbalance is not found at its end. -/
def JournalCall.Guarded (R : Runtime) (c : JournalCall) : Prop :=
  (∃ spec ∈ c.specs, spec.amountCents < 1) ∨ (∃ spec ∈ c.specs.head?, ¬ spec.Hashable R) ∨
    (∀ spec ∈ c.specs, spec.Hashable R) ∧ InBalance (specBooks c.specs)

namespace LedgerState

theorem journalStep_draws (s : LedgerState) (c : JournalCall) :
    (s.journalStep R c).draws = (c.exec R s).2.1 := rfl

theorem journalStep_engine (s : LedgerState) (c : JournalCall) :
    (s.journalStep R c).engine = (c.exec R s).2.2 := rfl

/-- The heads of a reachable ledger are digests of texts with ids that have been drawn. -/
structure Headed (R : Runtime) (s : LedgerState) : Prop where
  encoded : HeadsEncode R s.engine.accountHeads
  below : HeadsBelow R s.draws.uuids s.engine.accountHeads

theorem journalStep_headed {s : LedgerState} (h : s.Headed R) (c : JournalCall) :
    (s.journalStep R c).Headed R := by
  refine ⟨postJournal_headsEncode h.encoded, ?_⟩
  have h' : HeadsBelow R (s.draws.uuids + 1) s.engine.accountHeads := h.below.mono (Nat.le_succ _)
  rw [journalStep_draws, journalStep_engine, JournalCall.exec]
  rcases postJournal_cases R c.specs c.description s.draws s.engine with ⟨-, _, he⟩ |
    ⟨-, _, pre, _, _, -, -, -, he⟩ | ⟨-, -, -, _, -, he⟩ | ⟨-, -, -, he⟩
  · rw [he]
    exact h.below
  · rw [he]
    refine (h'.writtenEntries _ _ _ pre).mono ?_
    simp only [drawn, List.length_append]
    omega
  · rw [he]
    exact h'.writtenEntries _ _ _ _
  · rw [he]
    exact h'.writtenEntries _ _ _ _

theorem run_headed (d : Draws) (calls : List JournalCall) :
    (run (journalStep R) (init d) calls).Headed R :=
  run_invariant (Headed R) (fun _ c h => journalStep_headed h c)
    ⟨(fun _ _ h => by cases h), (fun _ _ h => by cases h)⟩ calls

/-- A guarded journal that is rejected has not touched the heads. -/
theorem journalStep_unchanged {s : LedgerState} {c : JournalCall} (hs : HeadsEncode R s.engine.accountHeads)
    (hc : c.Guarded R) {e : PyError} (he : (c.exec R s).1 = .error e) :
    (s.journalStep R c).engine = s.engine := by
  rw [journalStep_engine]
  unfold JournalCall.exec at he ⊢
  rcases postJournal_cases R c.specs c.description s.draws s.engine with ⟨-, _, h⟩ |
    ⟨hp, _, pre, spec, post, -, hsplit, hoff, h⟩ | ⟨hp, hhash, hb, _, -, h⟩ | ⟨-, -, -, h⟩
  · rw [h]
  · obtain ⟨hpre, hspec⟩ := hoff.not_hashable hs
    rcases hc with hn | ⟨spec', hm, hns⟩ | ⟨hall, -⟩
    · exact absurd hp (not_positive.mpr hn)
    · have hnil : pre = [] := by
        cases pre with
        | nil => rfl
        | cons spec'' pre =>
            rw [hsplit] at hm
            obtain rfl : spec'' = spec' := Option.mem_some_iff.mp hm
            exact absurd (hpre _ List.mem_cons_self) hns
      rw [h, hnil]
      rfl
    · exact absurd (hall spec (by rw [hsplit]; simp)) hspec
  · have hall := (hashed_iff hs).mp hhash
    rcases hc with hn | ⟨spec, hm, hns⟩ | ⟨-, hbal⟩
    · exact absurd hp (not_positive.mpr hn)
    · exact absurd (hall spec (List.mem_of_mem_head? hm)) hns
    · exact absurd hbal hb
  · rw [h] at he
    cases he

theorem journalStep_changed (hsha : Function.Injective R.sha256) {s : LedgerState} {c : JournalCall}
    (hs : s.Headed R) (hc : ¬ c.Guarded R) :
    ∃ e, (c.exec R s).1 = .error e ∧ (s.journalStep R c).engine.accountHeads ≠ s.engine.accountHeads := by
  unfold JournalCall.Guarded at hc
  push Not at hc
  obtain ⟨hp, hfirst, hrest⟩ := hc
  rw [journalStep_engine]
  unfold JournalCall.exec
  rcases postJournal_cases R c.specs c.description s.draws s.engine with ⟨hn, -⟩ |
    ⟨-, e, pre, spec, post, -, hsplit, hoff, h⟩ | ⟨-, -, hb, e, -, h⟩ | ⟨-, hhash, hb, -⟩
  · exact absurd hp hn
  · rw [h]
    refine ⟨e, rfl, newHeads_ne hsha ?_ c.description hs.below⟩
    rintro rfl
    exact (hoff.not_hashable hs.encoded).2 (hfirst spec (by rw [hsplit]; rfl))
  · rw [h]
    refine ⟨e, rfl, newHeads_ne hsha ?_ c.description hs.below⟩
    intro hnil
    rw [hnil] at hb
    exact hb rfl
  · exact absurd hb (hrest ((hashed_iff hs.encoded).mp hhash))

theorem journalStep_sound (hm : Monotone R.time) {s : LedgerState} (h : Sound R s.draws s.engine)
    {c : JournalCall} (hc : c.Guarded R) :
    Sound R (s.journalStep R c).draws (s.journalStep R c).engine := by
  cases hr : (c.exec R s).1 with
  | error e =>
      rw [journalStep_unchanged h.encoded hc hr, journalStep_draws]
      have hd : s.draws.Later (c.exec R s).2.1 := postJournal_later
      exact h.mono hm hd.uuids hd.times
  | ok j =>
      obtain ⟨hs, hb, he⟩ := postJournal_ok hr
      rw [journalStep_draws, journalStep_engine, JournalCall.exec, he]
      exact h.commit hm hs hb

end LedgerState

end ExpenseSettlement
