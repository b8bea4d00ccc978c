import Mathlib.Order.Monotone.Defs
import ExpenseSettlement.Core.Lemmas.Chain
import ExpenseSettlement.Core.Lemmas.Journals

/-!
# What a run of ledger calls keeps

`Kept` and `Cleared` hold after every run. `Sound` is kept by every committed journal while the clock
does not step back, and by every rejected call that has not moved a head.
-/

namespace ExpenseSettlement

open Lib LedgerEngine

variable {R : Runtime}

structure Kept (R : Runtime) (d : Draws) (L : LedgerEngine) : Prop where
  encoded : HeadsEncode R L.accountHeads
  known : ∀ id ∈ L.journals.keys, ∃ n < d.uuids, id = R.uuid4 n
  filed : ∀ p ∈ L.journals.items, p.2.journalId = p.1
  recorded : L.entries = L.journals.values.flatMap (·.entries)
  balanced : InBalance L.books

structure Sound (R : Runtime) (d : Draws) (L : LedgerEngine) : Prop extends Kept R d L where
  linked : Linked R L.entries L.accountHeads
  ordered : L.entries.Pairwise (·.createdAt ≤ ·.createdAt)
  past : ∀ e ∈ L.entries, e.createdAt ≤ R.time d.times

namespace Kept

variable {d d' : Draws} {L : LedgerEngine}

theorem init (R : Runtime) (d : Draws) : Kept R d LedgerEngine.init where
  encoded := fun _ _ h => by cases h
  known := fun _ h => by cases h
  filed := fun _ h => by cases h
  recorded := rfl
  balanced := rfl

theorem mono (h : Kept R d L) (hu : d.uuids ≤ d'.uuids) : Kept R d' L where
  encoded := h.encoded
  known := by
    intro id hid
    obtain ⟨n, hn, rfl⟩ := h.known id hid
    exact ⟨n, by omega, rfl⟩
  filed := h.filed
  recorded := h.recorded
  balanced := h.balanced

theorem heads (h : Kept R d L) {heads : Dict String String} (hh : HeadsEncode R heads) :
    Kept R d { L with accountHeads := heads } where
  encoded := hh
  known := h.known
  filed := h.filed
  recorded := h.recorded
  balanced := h.balanced

theorem journal_fresh (h : Kept R d L) {n : Nat} (hn : d.uuids ≤ n) : R.uuid4 n ∉ L.journals.keys := by
  intro hm
  obtain ⟨k, hk, he⟩ := h.known _ hm
  have := R.uuid4_injective he
  omega

/-- A new journal comes last. -/
theorem values_commit (h : Kept R d L) (specs : List EntrySpec) (description : String) :
    (commit R specs description d L).journals.values =
      L.journals.values ++ [newJournal R specs description d L] :=
  Dict.values_set_of_not_mem _ (h.journal_fresh (Nat.le_refl _))

theorem commit (h : Kept R d L) {specs : List EntrySpec} (hb : InBalance (specBooks specs))
    (description : String) : Kept R (drawn specs d) (commit R specs description d L) where
  encoded := headsEncode_writtenEntries h.encoded _ _ _ _ _
  known := by
    intro id hid
    rcases Dict.mem_keys_set.mp hid with rfl | hid
    · exact ⟨d.uuids, by simp only [drawn]; omega, rfl⟩
    · obtain ⟨n, hn, rfl⟩ := h.known id hid
      exact ⟨n, by simp only [drawn]; omega, rfl⟩
  filed := by
    rintro ⟨id, j⟩ hm
    rcases Dict.of_get?_set (Dict.get?_eq_some.mpr hm) with ⟨rfl, rfl⟩ | hold
    · rfl
    · exact h.filed _ (Dict.get?_eq_some.mp hold)
  recorded := by
    rw [h.values_commit, List.flatMap_append, ← h.recorded]
    simp [LedgerEngine.commit]
  balanced := by
    rw [books_commit]
    exact h.balanced.append hb

theorem sumOf_eq (h : Kept R d L) : sumOf .debit L.entries = sumOf .credit L.entries := by
  rw [sumOf_eq_total, sumOf_eq_total]
  exact h.balanced

end Kept

namespace Sound

variable {d d' : Draws} {L : LedgerEngine}

theorem init (R : Runtime) (d : Draws) : Sound R d LedgerEngine.init where
  toKept := .init R d
  linked := .nil
  ordered := .nil
  past := fun _ h => by cases h

theorem mono (hm : Monotone R.time) (h : Sound R d L) (hu : d.uuids ≤ d'.uuids) (ht : d.times ≤ d'.times) :
    Sound R d' L where
  toKept := h.toKept.mono hu
  linked := h.linked
  ordered := h.ordered
  past := fun e he => (h.past e he).trans (hm ht)

theorem commit (hm : Monotone R.time) (h : Sound R d L) {specs : List EntrySpec} {description : String}
    (hs : Hashed R specs description d L) (hb : InBalance (specBooks specs)) :
    Sound R (drawn specs d) (commit R specs description d L) where
  toKept := h.toKept.commit hb description
  linked := h.linked.writtenEntries hs
  ordered := by
    -- the new entries share one time stamp, which no earlier entry exceeds
    refine List.pairwise_append.mpr ⟨h.ordered, ?_, ?_⟩
    · refine List.pairwise_of_forall_mem_list fun e he f hf => ?_
      rw [writtenEntries_createdAt he, writtenEntries_createdAt hf]
    · intro e he f hf
      rw [writtenEntries_createdAt hf]
      exact h.past e he
  past := by
    intro e he
    have hle : R.time d.times ≤ R.time (d.times + 1) := hm (Nat.le_succ _)
    rcases List.mem_append.mp he with he | he
    · exact (h.past e he).trans hle
    · rw [writtenEntries_createdAt he]
      exact hle

theorem verifies (h : Sound R d L) : verifyChainIntegrity R L = .ok (true, []) := by
  refine verifyChainIntegrity_ok.mpr fun a => ?_
  have hs : (onAccount a L.entries).Pairwise (·.createdAt ≤ ·.createdAt) := h.ordered.filter _
  rw [sortByCreatedAt_of_pairwise hs]
  exact h.linked.chain a

end Sound

/-! ## Clearing accounts -/

structure Cleared (L : LedgerEngine) : Prop where
  accounts : ∀ p ∈ L.books, IsClearing p.account ∨ ∃ u, p.account = userWallet u
  cleared : ∀ a, IsClearing a → balance a L.books = 0

theorem Cleared.init : Cleared LedgerEngine.init where
  accounts := fun _ h => by cases h
  cleared := fun _ _ => rfl

/-- Once the clearing accounts are empty, the wallets cancel. -/
theorem Cleared.wallets {L : LedgerEngine} (h : Cleared L) (hb : InBalance L.books) {S : Finset String}
    (hS : ∀ p ∈ L.books, ∀ u, p.account = userWallet u → u ∈ S) :
    ∑ u ∈ S, L.getAccountBalance (userWallet u) = 0 := by
  have hinj : Function.Injective userWallet := fun _ _ e => userWallet_inj.mp e
  have hsum : ∑ a ∈ S.map ⟨userWallet, hinj⟩, balance a L.books = 0 := by
    refine sum_balance_eq_zero hb fun a ha => ?_
    -- an account that is no wallet of `S` is a clearing account, or nothing was ever posted to it
    by_cases hp : ∃ p ∈ L.books, p.account = a
    · obtain ⟨p, hp, rfl⟩ := hp
      rcases h.accounts p hp with hc | ⟨u, hu⟩
      · exact h.cleared _ hc
      · have hm : p.account ∈ S.map ⟨userWallet, hinj⟩ := by
          rw [hu]
          exact Finset.mem_map_of_mem _ (hS p hp u hu)
        exact absurd hm ha
    · exact balance_eq_zero fun p hpm he => hp ⟨p, hpm, he⟩
  rw [Finset.sum_map] at hsum
  simpa [getAccountBalance_eq] using hsum

/-! ## Steps -/

/-- A guarded call that raises has not moved a head. -/
theorem LedgerCall.exec_unchanged {d : Draws} {L : LedgerEngine} {c : LedgerCall}
    (hh : HeadsEncode R L.accountHeads) (hc : c.Guarded R) {e : PyError} (he : (c.exec R d L).1 = .error e) :
    (c.exec R d L).2.2 = L := by
  rcases c.exec_cases R d L with ⟨-, _, h⟩ | ⟨hp, _, pre, spec, post, -, hsplit, hoff, h⟩ | ⟨-, -, h⟩
  · rw [h]
  · obtain ⟨hpre, hspec⟩ := hoff.not_hashable hh
    rcases hc with hn | hfirst | hall
    · exact absurd hp hn
    · -- the entry that cannot be hashed is the first one
      obtain ⟨spec', hm, hns⟩ := (specs_head_hashable_iff (d := d) hp).mpr hfirst
      have hnil : pre = [] := by
        cases pre with
        | nil => rfl
        | cons spec'' pre =>
            rw [hsplit] at hm
            obtain rfl : spec'' = spec' := Option.mem_some_iff.mp hm
            exact absurd (hpre _ List.mem_cons_self) hns
      rw [h, hnil]
      rfl
    · exact absurd ((specs_hashable_iff (d := d) hp).mpr hall spec (by rw [hsplit]; simp)) hspec
  · rw [h] at he
    cases he

namespace LedgerState

theorem step_draws (s : LedgerState) (c : LedgerCall) :
    (s.step R c).draws = (c.exec R s.draws s.engine).2.1 := rfl

theorem step_engine (s : LedgerState) (c : LedgerCall) :
    (s.step R c).engine = (c.exec R s.draws s.engine).2.2 := rfl

theorem step_later (s : LedgerState) (c : LedgerCall) : s.draws.Later (s.step R c).draws := by
  rw [step_draws]
  cases hr : (c.exec R s.draws s.engine).1 with
  | error e => exact (LedgerCall.exec_error hr).2.1
  | ok j =>
      rw [(LedgerCall.exec_ok hr).2.2]
      simp only [drawn]
      exact ⟨by dsimp only; omega, Nat.le_succ _⟩

theorem step_kept {s : LedgerState} (h : Kept R s.draws s.engine) (c : LedgerCall) :
    Kept R (s.step R c).draws (s.step R c).engine := by
  unfold step
  have h' : Kept R { s.draws with uuids := s.draws.uuids + 1 } s.engine := h.mono (Nat.le_succ _)
  rcases c.exec_cases R s.draws s.engine with ⟨-, _, he⟩ | ⟨-, _, _, _, _, -, -, -, he⟩ | ⟨hp, -, he⟩
  · rw [he]
    exact h'
  · rw [he]
    refine (h'.heads (headsEncode_writtenEntries h.encoded _ _ _ _ _)).mono ?_
    simp only [drawn]
    omega
  · rw [he]
    exact h'.commit (LedgerCall.specs_balanced (LedgerCall.specs_positive_iff.mpr hp)) _

theorem step_sound (hm : Monotone R.time) {s : LedgerState} (h : Sound R s.draws s.engine)
    {c : LedgerCall} (hc : c.Guarded R) : Sound R (s.step R c).draws (s.step R c).engine := by
  rw [step_draws, step_engine]
  cases hr : (c.exec R s.draws s.engine).1 with
  | error e =>
      obtain ⟨-, hd, -⟩ := LedgerCall.exec_error hr
      rw [LedgerCall.exec_unchanged h.encoded hc hr]
      exact h.mono hm hd.uuids hd.times
  | ok j =>
      obtain ⟨hp, hs, he⟩ := LedgerCall.exec_ok hr
      rw [he]
      have h' : Sound R { s.draws with uuids := s.draws.uuids + 1 } s.engine :=
        h.mono hm (Nat.le_succ _) (Nat.le_refl _)
      exact h'.commit hm hs (LedgerCall.specs_balanced (LedgerCall.specs_positive_iff.mpr hp))

theorem step_cleared {s : LedgerState} (h : Cleared s.engine) (c : LedgerCall) :
    Cleared (s.step R c).engine := by
  rw [step_engine]
  cases hr : (c.exec R s.draws s.engine).1 with
  | error e =>
      obtain ⟨-, -, heads, he⟩ := LedgerCall.exec_error hr
      rw [he]
      exact ⟨h.accounts, h.cleared⟩
  | ok j =>
      obtain ⟨hp, -, he⟩ := LedgerCall.exec_ok hr
      rw [he]
      constructor
      · intro p hpm
        rw [books_commit] at hpm
        rcases List.mem_append.mp hpm with hpm | hpm
        · exact h.accounts p hpm
        · obtain ⟨spec, hs, rfl⟩ := List.mem_map.mp hpm
          exact LedgerCall.specs_account hs
      · intro a ha
        rw [books_commit, balance_append, h.cleared a ha, zero_add]
        exact LedgerCall.specs_cleared ha (LedgerCall.specs_positive_iff.mpr hp)

theorem step_wallet {s : LedgerState} {c : LedgerCall} (u : String) (hr : ∃ j, c.result R s = .ok j) :
    (s.step R c).engine.getAccountBalance (userWallet u) =
      s.engine.getAccountBalance (userWallet u) + c.walletDelta u := by
  obtain ⟨j, hj⟩ := hr
  obtain ⟨hp, -, he⟩ := LedgerCall.exec_ok hj
  rw [step_engine, he, getAccountBalance_eq, getAccountBalance_eq, books_commit, balance_append,
    ← LedgerCall.specs_wallet (R := R) (d := s.draws) u (LedgerCall.specs_positive_iff.mpr hp)]
  rfl

/-! ## Runs -/

theorem run_kept {s : LedgerState} (h : Kept R s.draws s.engine) (calls : List LedgerCall) :
    Kept R (run (step R) s calls).draws (run (step R) s calls).engine :=
  run_invariant (fun s : LedgerState => Kept R s.draws s.engine) (fun _ c h => step_kept h c) h calls

theorem allPosted_of_hashable {s : LedgerState} (h : Kept R s.draws s.engine) {calls : List LedgerCall}
    (hc : ∀ c ∈ calls, c.Positive ∧ c.Hashable R) : AllPosted R s calls := by
  intro pre c post hp
  obtain ⟨hpos, hhash⟩ := hc c (by rw [hp]; simp)
  exact LedgerCall.exec_of_hashable (run_kept h pre).encoded hpos hhash

theorem run_sound (hm : Monotone R.time) (d : Draws) {calls : List LedgerCall}
    (h : ∀ c ∈ calls, c.Guarded R) :
    Sound R (run (step R) (init d) calls).draws (run (step R) (init d) calls).engine :=
  run_invariant_of_atEach (fun s : LedgerState => Sound R s.draws s.engine)
    (fun _ _ hs hc => step_sound hm hs hc) (Sound.init R d) (fun pre c post hp => h c (by rw [hp]; simp))

theorem run_cleared (d : Draws) (calls : List LedgerCall) :
    Cleared (run (step R) (init d) calls).engine :=
  run_invariant (fun s : LedgerState => Cleared s.engine) (fun _ c h => step_cleared h c) Cleared.init calls

theorem run_wallet {s : LedgerState} {calls : List LedgerCall} (u : String)
    (h : AllPosted R s calls) :
    (run (step R) s calls).engine.getAccountBalance (userWallet u) =
      s.engine.getAccountBalance (userWallet u) + (calls.map (·.walletDelta u)).sum := by
  induction calls using List.reverseRecOn with
  | nil => simp
  | append_singleton calls c ih =>
      obtain ⟨hpre, hc⟩ := atEach_concat.mp h
      rw [run_concat, step_wallet u hc, ih hpre, List.map_append, List.sum_append]
      simp [add_assoc]

/-- The journals of a run are those that its calls have returned. -/
theorem run_journals {s : LedgerState} (h : Kept R s.draws s.engine) (calls : List LedgerCall) :
    (run (step R) s calls).engine.journals.values = s.engine.journals.values ++ returned R s calls := by
  induction calls generalizing s with
  | nil => simp [returned]
  | cons c calls ih =>
      have hrun : run (step R) s (c :: calls) = run (step R) (s.step R c) calls := rfl
      rw [hrun, ih (step_kept h c), returned, step_engine]
      unfold LedgerCall.result
      cases hr : (c.exec R s.draws s.engine).1 with
      | error e =>
          obtain ⟨-, -, heads, he⟩ := LedgerCall.exec_error hr
          simp [he]
      | ok j =>
          obtain ⟨-, -, he⟩ := LedgerCall.exec_ok hr
          have h' : Kept R { s.draws with uuids := s.draws.uuids + 1 } s.engine := h.mono (Nat.le_succ _)
          rw [he] at hr
          cases hr
          simp [he, h'.values_commit]

end LedgerState

end ExpenseSettlement
