import ExpenseSettlement.Core.Lemmas.LedgerRun

/-!
# The accounts that have heads

Every call takes a clearing account of its own, so a call that breaks off after its first entries
leaves a head that was not there before.
-/

namespace ExpenseSettlement

open Lib LedgerEngine

variable {R : Runtime} {d : Draws} {L : LedgerEngine} {c : LedgerCall}

/-- The account is a clearing account of the `k`th id. -/
def ClearingFor (R : Runtime) (k : Nat) (a : String) : Prop :=
  a = expenseClearing (R.uuid4 k) ∨ a = settlementClearing (R.uuid4 k)

theorem ClearingFor.isClearing {k : Nat} {a : String} (h : ClearingFor R k a) : IsClearing a := ⟨_, h⟩

theorem ClearingFor.inj {k k' : Nat} {a : String} (h : ClearingFor R k a) (h' : ClearingFor R k' a) :
    k = k' := by
  apply R.uuid4_injective
  rcases h with rfl | rfl
  · rcases h' with he | he
    · exact String.append_right_inj _ |>.mp he
    · exact absurd he.symm (settlementClearing_ne_expenseClearing _ _)
  · rcases h' with he | he
    · exact absurd he (settlementClearing_ne_expenseClearing _ _)
    · exact String.append_right_inj _ |>.mp he

/-- The heads can be hashed, and their clearing accounts are those of the first `n` ids. -/
structure HeadsIssued (R : Runtime) (n : Nat) (heads : Dict String String) : Prop where
  encoded : HeadsEncode R heads
  clearing : ∀ a ∈ heads.keys, ∀ k, ClearingFor R k a → k < n

namespace HeadsIssued

variable {n n' : Nat} {heads : Dict String String}

theorem empty (R : Runtime) (n : Nat) : HeadsIssued R n Dict.empty where
  encoded := fun _ _ h => by cases h
  clearing := fun _ h => by cases h

theorem mono (h : HeadsIssued R n heads) (hn : n ≤ n') : HeadsIssued R n' heads where
  encoded := h.encoded
  clearing := fun a ha k hk => (h.clearing a ha k hk).trans_le hn

end HeadsIssued

theorem mem_keys_writtenEntries {journalId description a : String} {now : ℚ} {specs : List EntrySpec}
    {n : Nat} {heads : Dict String String} :
    a ∈ (writtenEntries R journalId description now specs n heads).2.keys ↔
      a ∈ heads.keys ∨ ∃ spec ∈ specs, spec.accountId = a := by
  induction specs generalizing n heads with
  | nil => simp [writtenEntries]
  | cons spec specs ih =>
      simp only [writtenEntries, ih, Dict.mem_keys_set, List.exists_mem_cons_iff]
      tauto

/-! ## The entries of a call -/

namespace LedgerCall

theorem specs_clearingFor {spec : EntrySpec} (h : spec ∈ c.specs R d) {k : Nat}
    (hk : ClearingFor R k spec.accountId) : k = d.uuids := by
  cases c with
  | expense payerId splits description =>
      rcases expenseSpecs_account h with ha | ⟨u, ha⟩
      · exact hk.inj (.inl ha)
      · exact absurd ha.symm (hk.isClearing.ne_userWallet u)
  | settlement payerId payeeId amountCents description =>
      simp only [specs, settlementSpecs, List.mem_cons, List.not_mem_nil, or_false] at h
      rcases h with rfl | rfl | rfl | rfl
      · exact absurd rfl (hk.isClearing.ne_userWallet payerId)
      · exact hk.inj (.inr rfl)
      · exact hk.inj (.inr rfl)
      · exact absurd rfl (hk.isClearing.ne_userWallet payeeId)

theorem debtorSpecs_shape (clearingId payerId description : String) (splits : List Split) :
    debtorSpecs clearingId payerId description splits = [] ∨
      ∃ first second rest, debtorSpecs clearingId payerId description splits = first :: second :: rest ∧
        second.accountId = clearingId ∧ second.amountCents = first.amountCents := by
  induction splits with
  | nil => exact .inl rfl
  | cons split splits ih =>
      by_cases h : split.userId = payerId
      · simpa only [debtorSpecs, h, ↓reduceIte] using ih
      · simp only [debtorSpecs, h, ↓reduceIte]
        exact .inr ⟨_, _, _, rfl, rfl, rfl⟩

/-- The second entry of a call is on its clearing account, with the amount of the first. -/
theorem specs_shape (hp : c.Positive) : c.specs R d = [] ∨
    ∃ first second rest, c.specs R d = first :: second :: rest ∧ ClearingFor R d.uuids second.accountId ∧
      second.amountCents = first.amountCents := by
  cases c with
  | expense payerId splits description =>
      rw [specs, expenseSpecs_eq]
      rcases debtorSpecs_shape (expenseClearing (R.uuid4 d.uuids)) payerId description splits with
        hnil | ⟨first, second, rest, hcons, ha, hs⟩
      · have htotal : ¬ 0 < othersTotal payerId splits := by
          rw [othersTotal_pos hp]
          rintro ⟨s, hs, hne⟩
          have hhead := head?_debtorSpecs (expenseClearing (R.uuid4 d.uuids)) payerId description splits
          rw [hnil, List.head?_nil, eq_comm, Option.map_eq_none_iff, List.find?_eq_none] at hhead
          exact hhead s hs (decide_eq_true hne)
        exact .inl (by rw [hnil, closingSpecs, if_neg htotal, List.append_nil])
      · exact .inr ⟨first, second, _, by rw [hcons]; rfl, .inl ha, hs⟩
  | settlement payerId payeeId amountCents description =>
      exact .inr ⟨_, _, _, rfl, .inr rfl, rfl⟩

/-! ## What a call leaves -/

theorem exec_headsIssued (h : HeadsIssued R d.uuids L.accountHeads) (c : LedgerCall) :
    HeadsIssued R (c.exec R d L).2.1.uuids (c.exec R d L).2.2.accountHeads := by
  have hwritten : ∀ specs ⊆ c.specs R d, HeadsIssued R (d.uuids + 1)
      (newHeads R specs c.description { d with uuids := d.uuids + 1 } L) := by
    intro specs hs
    refine ⟨headsEncode_writtenEntries h.encoded _ _ _ _ _, fun a ha k hk => ?_⟩
    rcases mem_keys_writtenEntries.mp ha with hold | ⟨spec, hspec, rfl⟩
    · exact (h.clearing a hold k hk).trans (Nat.lt_succ_self _)
    · exact (specs_clearingFor (hs hspec) hk).trans_lt (Nat.lt_succ_self _)
  rcases c.exec_cases R d L with ⟨-, _, he⟩ | ⟨-, _, pre, spec, post, -, hsplit, -, he⟩ | ⟨-, -, he⟩
  · rw [he]
    exact h.mono (Nat.le_succ _)
  · rw [he]
    refine (hwritten pre (by rw [hsplit]; exact List.subset_append_left _ _)).mono ?_
    simp only [drawn]
    omega
  · rw [he]
    refine (hwritten _ (List.Subset.refl _)).mono ?_
    simp only [drawn]
    omega

/-- A call that is not guarded breaks off, with a head on its clearing account. -/
theorem exec_changed (h : HeadsIssued R d.uuids L.accountHeads) (hc : ¬ c.Guarded R) :
    ∃ e, (c.exec R d L).1 = .error e ∧
      ∃ a ∈ (c.exec R d L).2.2.accountHeads.keys, a ∉ L.accountHeads.keys := by
  unfold Guarded at hc
  push Not at hc
  obtain ⟨hp, hfirst, hnot⟩ := hc
  rcases c.exec_cases R d L with ⟨hn, -⟩ | ⟨-, e, pre, spec, post, -, hsplit, hoff, he⟩ | ⟨-, hhash, -⟩
  · exact absurd hp hn
  · rw [he]
    have hspec : ¬ spec.Hashable R := (hoff.not_hashable h.encoded).2
    obtain ⟨first, second, rest, hcons, hclearing, hamount⟩ :=
      (specs_shape (R := R) (d := d) hp).resolve_left fun hnil => by rw [hnil] at hsplit; simp at hsplit
    have hhashable : first.Hashable R := by
      by_contra hns
      obtain ⟨s, hs, hns'⟩ := (specs_head_hashable_iff (d := d) hp).mp
        ⟨first, by rw [hcons, List.head?_cons, Option.mem_some_iff], hns⟩
      exact hns' (hfirst s hs)
    have hsecond : second.Hashable R := by
      refine ⟨?_, by rw [hamount]; exact hhashable.amount⟩
      rcases hclearing with ha | ha
      · rw [ha]; exact encodes_expenseClearing _
      · rw [ha]; exact encodes_settlementClearing _
    have hmem : second ∈ pre := by
      rw [hcons] at hsplit
      rcases pre with _ | ⟨x, _ | ⟨y, pre⟩⟩
      · obtain ⟨rfl, -⟩ := List.cons.inj hsplit
        exact absurd hhashable hspec
      · obtain ⟨-, hrest⟩ := List.cons.inj hsplit
        obtain ⟨rfl, -⟩ := List.cons.inj hrest
        exact absurd hsecond hspec
      · obtain ⟨-, hrest⟩ := List.cons.inj hsplit
        obtain ⟨rfl, -⟩ := List.cons.inj hrest
        exact List.mem_cons_of_mem _ List.mem_cons_self
    refine ⟨e, rfl, second.accountId, mem_keys_writtenEntries.mpr (.inr ⟨second, hmem, rfl⟩), fun hold => ?_⟩
    exact Nat.lt_irrefl _ (h.clearing _ hold _ hclearing)
  · exact absurd ((specs_hashable_iff (d := d) hp).mp ((hashed_iff h.encoded).mp hhash)) hnot

end LedgerCall

end ExpenseSettlement
