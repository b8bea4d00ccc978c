import ExpenseSettlement.Core.Lemmas.Rejected

/-!
# Ledgers of successful posts

Whatever the clock does, the entries of an account are chained in append order, and every entry is
hashed under an id of its own.
-/

namespace ExpenseSettlement

open Lib LedgerEngine

variable {R : Runtime}

/-! ## Entries under ids of their own -/

def HashedBefore (R : Runtime) (e f : LedgerEntry) : Prop :=
  ∃ k l, k < l ∧ HashedWith R k e.entryHash ∧ HashedWith R l f.entryHash

theorem writtenEntries_hashed {journalId description : String} {now : ℚ} {specs : List EntrySpec} {n : Nat}
    {heads : Dict String String} {e : LedgerEntry}
    (he : e ∈ (writtenEntries R journalId description now specs n heads).1) :
    ∃ k, n ≤ k ∧ k < n + specs.length ∧ HashedWith R k e.entryHash := by
  induction specs generalizing n heads with
  | nil => simp [writtenEntries] at he
  | cons spec specs ih =>
      simp only [writtenEntries, List.mem_cons] at he
      rcases he with rfl | he
      · exact ⟨n, Nat.le_refl _, by simp, writtenEntry_hashedWith _ _ _ _ _ _⟩
      · obtain ⟨k, hk, hk', hh⟩ := ih he
        exact ⟨k, by omega, by rw [List.length_cons]; omega, hh⟩

theorem writtenEntries_pairwise (journalId description : String) (now : ℚ) (specs : List EntrySpec)
    (n : Nat) (heads : Dict String String) :
    (writtenEntries R journalId description now specs n heads).1.Pairwise (HashedBefore R) := by
  induction specs generalizing n heads with
  | nil => exact .nil
  | cons spec specs ih =>
      simp only [writtenEntries, List.pairwise_cons]
      refine ⟨fun f hf => ?_, ih _ _⟩
      obtain ⟨l, hl, -, hh⟩ := writtenEntries_hashed hf
      exact ⟨n, l, hl, writtenEntry_hashedWith _ _ _ _ _ _, hh⟩

structure Posted (R : Runtime) (d : Draws) (L : LedgerEngine) : Prop where
  linked : Linked R L.entries L.accountHeads
  balanced : InBalance L.books
  numbered : L.entries.Pairwise (HashedBefore R)
  below : ∀ e ∈ L.entries, ∃ k < d.uuids, HashedWith R k e.entryHash

namespace Posted

variable {d : Draws} {L : LedgerEngine}

theorem init (R : Runtime) (d : Draws) : Posted R d LedgerEngine.init where
  linked := .nil
  balanced := rfl
  numbered := .nil
  below := nofun

theorem mono (h : Posted R d L) {d' : Draws} (hd : d.uuids ≤ d'.uuids) : Posted R d' L where
  linked := h.linked
  balanced := h.balanced
  numbered := h.numbered
  below := by
    intro e he
    obtain ⟨k, hk, hh⟩ := h.below e he
    exact ⟨k, by omega, hh⟩

theorem commit (h : Posted R d L) {specs : List EntrySpec} {description : String}
    (hs : Hashed R specs description d L) (hb : InBalance (specBooks specs)) :
    Posted R (drawn specs d) (commit R specs description d L) where
  linked := h.linked.writtenEntries hs
  balanced := by
    rw [books_commit]
    exact h.balanced.append hb
  numbered := by
    refine List.pairwise_append.mpr ⟨h.numbered, writtenEntries_pairwise _ _ _ _ _ _, fun e he f hf => ?_⟩
    obtain ⟨k, hk, hh⟩ := h.below e he
    obtain ⟨l, hl, -, hh'⟩ := writtenEntries_hashed hf
    exact ⟨k, l, by omega, hh, hh'⟩
  below := by
    intro e he
    rcases List.mem_append.mp he with he | he
    · obtain ⟨k, hk, hh⟩ := h.below e he
      exact ⟨k, by simp only [drawn]; omega, hh⟩
    · obtain ⟨k, -, hk, hh⟩ := writtenEntries_hashed he
      exact ⟨k, hk, hh⟩

theorem nodup (h : Posted R d L) (hsha : Function.Injective R.sha256) :
    (L.entries.map (·.entryHash)).Nodup := by
  apply List.pairwise_map.mpr
  refine h.numbered.imp fun {e f} hef heq => ?_
  obtain ⟨k, l, hlt, hk, hl⟩ := hef
  rw [heq] at hk
  have := hk.inj hsha hl
  omega

end Posted

/-! ## Runs -/

/-- A post that returns has committed the entries it was asked for. -/
theorem Post.exec_ok {s : LedgerState} {p : Post} (h : ∃ j, (p.exec R s).1 = .ok j) :
    ∃ specs description d, s.draws.uuids ≤ d.uuids ∧ d.times = s.draws.times ∧
      Hashed R specs description d s.engine ∧ InBalance (specBooks specs) ∧
      s.postStep R p = ⟨drawn specs d, commit R specs description d s.engine⟩ := by
  obtain ⟨j, hj⟩ := h
  cases p with
  | journal c =>
      obtain ⟨hs, hb, he⟩ := postJournal_ok hj
      refine ⟨c.specs, c.description, s.draws, Nat.le_refl _, rfl, hs, hb, ?_⟩
      simp only [LedgerState.postStep, Post.exec, JournalCall.exec, he]
  | call c =>
      simp only [Post.exec, LedgerCall.exec_eq] at hj
      obtain ⟨hs, hb, he⟩ := postJournal_ok hj
      refine ⟨c.specs R s.draws, c.description, { s.draws with uuids := s.draws.uuids + 1 },
        Nat.le_succ _, rfl, hs, hb, ?_⟩
      simp only [LedgerState.postStep, Post.exec, LedgerCall.exec_eq, he]

theorem run_posted {d : Draws} {posts : List Post} (h : AllReturn R (.init d) posts) :
    Posted R (run (LedgerState.postStep R) (.init d) posts).draws
      (run (LedgerState.postStep R) (.init d) posts).engine := by
  apply run_invariant_of_atEach (fun s : LedgerState => Posted R s.draws s.engine) ?_ (.init R d) h
  intro s p hposted hp
  obtain ⟨specs, description, d', hd, -, hs, hb, he⟩ := Post.exec_ok hp
  rw [he]
  exact (hposted.mono hd).commit hs hb

theorem run_sound_of_allReturn (hm : Monotone R.time) {d : Draws} {posts : List Post}
    (h : AllReturn R (.init d) posts) :
    Sound R (run (LedgerState.postStep R) (.init d) posts).draws
      (run (LedgerState.postStep R) (.init d) posts).engine := by
  apply run_invariant_of_atEach (fun s : LedgerState => Sound R s.draws s.engine) ?_ (.init R d) h
  intro s p hsound hp
  obtain ⟨specs, description, d', hd, ht, hs, hb, he⟩ := Post.exec_ok hp
  rw [he]
  exact (hsound.mono hm hd ht.ge).commit hm hs hb

end ExpenseSettlement
