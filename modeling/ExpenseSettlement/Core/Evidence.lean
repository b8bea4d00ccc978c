import ExpenseSettlement.Core.Lemmas.Tampering

/-!
# What the hash chains are evidence of

Which edits of a posted ledger the verifier and the audit report notice, and what a head hash fixes.
-/

namespace ExpenseSettlement

open Lib LedgerEngine

/-! ## Digests that can be read back -/

/-- Digests that are the text after an `"h"`. -/
def Runtime.tagged : Runtime := { Runtime.sequential with sha256 := fun text => "h" ++ text }

theorem tagged_ne_genesis (text : String) : "h" ++ text ≠ genesisHash := by
  have := append_ne_of_head (p := "h") (q := genesisHash) (c := 'h') (d := '0') rfl (by decide)
    (by decide) text ""
  rwa [String.append_empty] at this

theorem tagged_collisionFree : Runtime.tagged.CollisionFree where
  injective := by
    intro s t h
    have hl : "h".toList ++ s.toList = "h".toList ++ t.toList := by
      simpa [Runtime.tagged] using congrArg String.toList h
    exact String.toList_inj.mp (List.append_cancel_left hl)
  ne_genesis := tagged_ne_genesis

def spelledOut (c : Char) : List Char := if c = '|' then ['1', '-'] else ['0', c]

/-- Digests that spell the text out without a `'|'`. -/
def Runtime.spelling : Runtime :=
  { Runtime.sequential with
    sha256 := fun text => "h" ++ String.ofList (text.toList.flatMap spelledOut) }

theorem flatMap_spelledOut_injective : Function.Injective (List.flatMap spelledOut) := by
  intro s t h
  induction s generalizing t with
  | nil =>
      cases t with
      | nil => rfl
      | cons d t => by_cases hd : d = '|' <;> simp [spelledOut, hd] at h
  | cons c s ih =>
      cases t with
      | nil => by_cases hc : c = '|' <;> simp [spelledOut, hc] at h
      | cons d t =>
          by_cases hc : c = '|' <;> by_cases hd : d = '|' <;> simp [spelledOut, hc, hd] at h
          · rw [hc, hd, ih h]
          · rw [h.1, ih h.2]

theorem spelling_collisionFree : Runtime.spelling.CollisionFree where
  injective := by
    intro s t h
    have hl : "h".toList ++ s.toList.flatMap spelledOut = "h".toList ++ t.toList.flatMap spelledOut := by
      simpa [Runtime.spelling] using congrArg String.toList h
    exact String.toList_inj.mp (flatMap_spelledOut_injective (List.append_cancel_left hl))
  ne_genesis := fun _ => tagged_ne_genesis _

theorem spelling_hexDigests : Runtime.spelling.HexDigests := by
  intro text h
  simp only [Runtime.spelling, String.toList_append, String.toList_ofList, List.mem_append,
    List.mem_flatMap] at h
  rcases h with h | ⟨c, _, h⟩
  · exact absurd h (by decide)
  · by_cases hc : c = '|'
    · simp [spelledOut, hc] at h
    · simp [spelledOut, hc, Ne.symm hc] at h

theorem spelling_rendersTimes : Runtime.spelling.RendersTimes where
  injective := by
    intro p q h
    have hl : (toString p.num).toList ++ '.' :: (toString p.den).toList =
        (toString q.num).toList ++ '.' :: (toString q.den).toList := by
      simpa [Runtime.spelling, Runtime.sequential] using congrArg String.toList h
    have hdot := fun n => not_mem_toString_int (c := '.') (by decide) (by decide) n
    obtain ⟨hnum, hden⟩ := field_inj (hdot _) (hdot _) hl
    rw [String.toList_inj] at hnum hden
    exact Rat.ext (toString_int_injective hnum) (natRepr_injective hden)
  no_bar := by
    intro t
    have hnum := int_no_bar t.num
    have hden := not_mem_toDigits (c := '|') (by decide) t.den
    rw [Int.toString_eq_repr] at hnum
    simp [Runtime.spelling, Runtime.sequential, hnum, hden]

theorem tagged_rendersTimes : Runtime.tagged.RendersTimes :=
  ⟨spelling_rendersTimes.injective, spelling_rendersTimes.no_bar⟩

theorem spelling_monotone : Monotone Runtime.spelling.time := fun _ _ h => Nat.cast_le.mpr h

theorem tagged_monotone : Monotone Runtime.tagged.time := fun _ _ h => Nat.cast_le.mpr h

/-- Alice pays 30 each for herself and bob, and bob pays her back. -/
def evening : List Post :=
  [.call (.expense "alice" [⟨"alice", 30⟩, ⟨"bob", 30⟩] "Dinner"),
   .call (.settlement "bob" "alice" 30 "Settlement")]

theorem thirty_hashable (R : Runtime) {u : String} (hu : u.toList.all (·.toNat < 128)) :
    Split.Hashable R ⟨u, 30⟩ :=
  ⟨R.encodes_ascii u hu, show Printable 30 by decide +kernel⟩

theorem evening_allReturn (R : Runtime) : AllReturn R (.init ⟨0, 0⟩) evening := by
  have halice : Split.Hashable R ⟨"alice", 30⟩ := thirty_hashable R (by decide)
  have hbob : Split.Hashable R ⟨"bob", 30⟩ := thirty_hashable R (by decide)
  have hposted : ∀ {s : LedgerState} {c : LedgerCall}, Kept R s.draws s.engine → c.Positive → c.Hashable R →
      ∃ j, (Post.exec R s (.call c)).1 = .ok j :=
    fun h hp hs => LedgerCall.exec_of_hashable h.encoded hp hs
  have hstart : Kept R (LedgerState.init ⟨0, 0⟩).draws (LedgerState.init ⟨0, 0⟩).engine := .init R _
  refine atEach_cons.mpr ⟨hposted hstart ?_ ?_, atEach_cons.mpr
    ⟨hposted (LedgerState.step_kept hstart _) ?_ ?_, atEach_nil _⟩⟩
  · simp [LedgerCall.Positive]
  · exact ⟨by simp [hbob], fun _ => halice⟩
  · simp [LedgerCall.Positive]
  · exact ⟨hbob, halice⟩

def eveningLedger (R : Runtime) : LedgerEngine :=
  (run (LedgerState.postStep R) (.init ⟨0, 0⟩) evening).engine

theorem evening_ne_nil : (eveningLedger Runtime.spelling).entries ≠ [] := by decide +kernel

/-! ## Edited entries -/

/-- A replacement that keeps the entry's hash is noticed exactly when it is written differently under
that hash, names another previous hash, or has moved while one of the two accounts has other entries.
The description and the account type are in none of these. The verifier says so unless the replacement
cannot be hashed, when it raises. -/
theorem edit_detected_iff (R : Runtime) (hR : R.CollisionFree) (hx : R.HexDigests) (ht : R.RendersTimes)
    (hm : Monotone R.time) (d : Draws) (posts : List Post) (hposts : AllReturn R (.init d) posts)
    (pre post : List LedgerEntry) (x x' : LedgerEntry)
    (hL : (run (LedgerState.postStep R) (.init d) posts).engine.entries = pre ++ x :: post)
    (hhash : x'.entryHash = x.entryHash) :
    let L := (run (LedgerState.postStep R) (.init d) posts).engine
    let verdict := verifyChainIntegrity R { L with entries := pre ++ x' :: post }
    let Noticed := x'.text R ≠ x.text R ∨ x'.prevHash ≠ x.prevHash ∨
      (x'.accountId ≠ x.accountId ∧
        ∃ e ∈ pre ++ post, e.accountId = x.accountId ∨ e.accountId = x'.accountId)
    ((∃ errors, verdict = .ok (false, errors)) ↔ x'.hashedFields.Hashable R ∧ Noticed) ∧
    (verdict = .ok (true, []) ↔ ¬ Noticed) := by
  intro L verdict Noticed
  have hP : Posted R _ L := run_posted hposts
  have hord : L.entries.Pairwise (·.createdAt ≤ ·.createdAt) := (run_sound_of_allReturn hm hposts).ordered
  have hplace : ¬ SamePlace (pre ++ post) x x' ↔ x'.accountId ≠ x.accountId ∧
      ∃ e ∈ pre ++ post, e.accountId = x.accountId ∨ e.accountId = x'.accountId := by
    simp only [SamePlace, not_or, not_forall, not_and_or, not_not, exists_prop]
  have hok : verdict = .ok (true, []) ↔ ¬ Noticed := by
    simp only [Noticed]
    rw [← hplace, ← not_and_or, ← not_and_or, not_not]
    constructor
    · intro hv
      exact hP.of_replaced_verifies hR hx ht hord hL hhash hv
    · rintro ⟨htext, hprev, hsame⟩
      exact hP.replaced_verifies ht hord hL hhash htext hprev hsame
  have hall : (∀ e ∈ pre ++ x' :: post, e.hashedFields.Hashable R) ↔ x'.hashedFields.Hashable R := by
    have hold : ∀ e ∈ pre ++ x :: post, e.hashedFields.Hashable R := hL ▸ fun e he => hP.hashable he
    constructor
    · exact fun h => h x' (by simp)
    · intro h
      simp only [List.forall_mem_append, List.forall_mem_cons] at hold ⊢
      exact ⟨hold.1, h, hold.2.2⟩
  refine ⟨?_, hok⟩
  rw [verifyChainIntegrity_rejects]
  exact and_congr hall ((not_congr hok).trans not_not)

theorem edit_detected_iff_evening :
    ∃ x post, (eveningLedger Runtime.spelling).entries = x :: post ∧
      ∃ errors, verifyChainIntegrity Runtime.spelling { eveningLedger Runtime.spelling with
        entries := { x with prevHash := "0" ++ x.prevHash } :: post } = .ok (false, errors) := by
  obtain ⟨x, post, hL⟩ := List.exists_cons_of_ne_nil evening_ne_nil
  have hx : x.hashedFields.Hashable Runtime.spelling :=
    (run_posted (evening_allReturn Runtime.spelling)).hashable
      (show x ∈ (eveningLedger Runtime.spelling).entries by rw [hL]; simp)
  refine ⟨x, post, hL, (edit_detected_iff Runtime.spelling spelling_collisionFree spelling_hexDigests
    spelling_rendersTimes spelling_monotone ⟨0, 0⟩ evening (evening_allReturn _) [] post x
    { x with prevHash := "0" ++ x.prevHash } hL rfl).1.mpr ⟨⟨hx.printable, rfl⟩, .inr (.inl fun h => ?_)⟩⟩
  simpa using congrArg String.length h

/-- A debit of 30 for "Owes Dinner" becomes one for "Owes nothing", and the ledger still verifies. -/
theorem description_edit_undetected :
    Runtime.tagged.CollisionFree ∧ Monotone Runtime.tagged.time ∧
    AllReturn Runtime.tagged (.init ⟨0, 0⟩) evening ∧
    ∃ x post, (eveningLedger Runtime.tagged).entries = x :: post ∧
      { x with description := "Owes nothing" } ≠ x ∧
      verifyChainIntegrity Runtime.tagged { eveningLedger Runtime.tagged with
        entries := { x with description := "Owes nothing" } :: post } = .ok (true, []) := by
  refine ⟨tagged_collisionFree, tagged_monotone, evening_allReturn _, _, _,
    (List.cons_head_tail (show (eveningLedger Runtime.tagged).entries ≠ [] by decide +kernel)).symm, ?_, ?_⟩
  · decide +kernel
  · decide +kernel

/-! ## Deleted entries -/

/-- The audit report of a ledger without the entries that are `gone` is clean exactly when those were
in balance, and what is left of each account is its first entries in the order of time. -/
theorem deletion_detected_iff (R : Runtime) (hR : R.CollisionFree) (d : Draws) (posts : List Post)
    (hposts : AllReturn R (.init d) posts) (gone : LedgerEntry → Bool) :
    let L := (run (LedgerState.postStep R) (.init d) posts).engine
    let kept := L.entries.filter (!gone ·)
    ∃ report, auditReport R { L with entries := kept } = .ok report ∧
      ((report.isBalanced = false ∨ report.chainIntegrityOk = false) ↔
        sumOf .debit (L.entries.filter gone) ≠ sumOf .credit (L.entries.filter gone) ∨
        ∃ a, ¬ onAccount a kept <+: onAccount a L.entries ∨
          ¬ (onAccount a kept).Pairwise (·.createdAt ≤ ·.createdAt)) := by
  intro L kept
  have hP : Posted R _ L := run_posted hposts
  obtain ⟨⟨ok, errs⟩, hv⟩ := verifyChainIntegrity_returns (R := R) (L := { L with entries := kept }) |>.mpr
    fun e he => hP.hashable (List.mem_filter.mp he).1
  refine ⟨_, by rw [auditReport, hv], ?_⟩
  have hbalanced : decide (sumOf .debit kept = sumOf .credit kept) = true ↔
      sumOf .debit (L.entries.filter gone) = sumOf .credit (L.entries.filter gone) := by
    rw [← hP.sumOf_kept gone]
    exact decide_eq_true_iff
  have hchain : ok = true ↔ ∀ a, onAccount a kept <+: onAccount a L.entries ∧
      (onAccount a kept).Pairwise (·.createdAt ≤ ·.createdAt) := by
    rw [← forall_congr' fun a => hP.kept_chain hR a gone, ← verifyChainIntegrity_ok_iff hv]
    exact verifyChainIntegrity_ok
  rw [← Bool.not_eq_true, ← Bool.not_eq_true, hbalanced, hchain]
  simp only [not_forall, not_and_or]

theorem deletion_detected_iff_evening :
    ∃ report, auditReport Runtime.tagged { eveningLedger Runtime.tagged with
        entries := (eveningLedger Runtime.tagged).entries.filter fun e => !decide (e.entryType = .debit) } =
          .ok report ∧
      (report.isBalanced = false ∨ report.chainIntegrityOk = false) := by
  obtain ⟨report, hr, hiff⟩ := deletion_detected_iff Runtime.tagged tagged_collisionFree ⟨0, 0⟩ evening
    (evening_allReturn _) fun e => decide (e.entryType = .debit)
  exact ⟨report, hr, hiff.mpr (.inl (by decide +kernel))⟩

/-- Without the settlement journal the report of the evening is clean. -/
theorem journal_deletion_undetected :
    Runtime.tagged.CollisionFree ∧ AllReturn Runtime.tagged (.init ⟨0, 0⟩) evening ∧
    ∃ gone : LedgerEntry → Bool, (∃ e ∈ (eveningLedger Runtime.tagged).entries, gone e = true) ∧
      ∃ report, auditReport Runtime.tagged { eveningLedger Runtime.tagged with
          entries := (eveningLedger Runtime.tagged).entries.filter (!gone ·) } = .ok report ∧
        report.isBalanced = true ∧ report.chainIntegrityOk = true := by
  refine ⟨tagged_collisionFree, evening_allReturn _, fun e => decide (e.createdAt = 1), ?_, ?_⟩
  · decide +kernel
  · have hv : verifyChainIntegrity Runtime.tagged { eveningLedger Runtime.tagged with
        entries := (eveningLedger Runtime.tagged).entries.filter fun e => !decide (e.createdAt = 1) } =
          .ok (true, []) := by
      decide +kernel
    exact ⟨_, by rw [auditReport, hv], by decide +kernel, rfl⟩

/-! ## Head hashes -/

/-- In two accepted lists, an account that ends in the same hash has the same hashed fields and the
same hashes, entry by entry. -/
theorem head_hash_binds_history (R : Runtime) (hR : R.CollisionFree) (ht : R.RendersTimes)
    (L L' : LedgerEngine)
    (hids : ∀ e ∈ L.entries ++ L'.entries, '|' ∉ e.entryId.toList ∧ '|' ∉ e.journalId.toList)
    (hv : verifyChainIntegrity R L = .ok (true, [])) (hv' : verifyChainIntegrity R L' = .ok (true, []))
    (a : String) (htip : (sortByCreatedAt (onAccount a L.entries)).getLast?.map (·.entryHash) =
      (sortByCreatedAt (onAccount a L'.entries)).getLast?.map (·.entryHash)) :
    let history := sortByCreatedAt (onAccount a L.entries)
    let history' := sortByCreatedAt (onAccount a L'.entries)
    history.length = history'.length ∧
    history.map (·.hashedFields) = history'.map (·.hashedFields) ∧
    history.map (·.entryHash) = history'.map (·.entryHash) := by
  intro history history'
  have hc := verifyChainIntegrity_ok.mp hv a
  have hc' := verifyChainIntegrity_ok.mp hv' a
  have hof : ∀ {entries : List LedgerEntry} {e}, e ∈ sortByCreatedAt (onAccount a entries) →
      e ∈ entries ∧ e.accountId = a :=
    fun he => mem_onAccount.mp ((sortByCreatedAt_perm _).subset he)
  have hfields : history.map (·.hashedFields) = history'.map (·.hashedFields) := by
    refine hc.map_eq_of_tip_eq hc' (fun e he f hf d hd hd' => ?_) (fun e f h => ?_) hR.digest_ne ?_
    · obtain ⟨he, hea⟩ := hof he
      obtain ⟨hf, hfa⟩ := hof hf
      exact HashedFields.eq_of_text_eq ht (hids e (by simp [he])) (hids f (by simp [hf]))
        (hea.trans hfa.symm) (hR.text_eq hd hd')
    · exact congrArg HashedFields.prevHash h
    · exact congrArg (·.getD genesisHash) htip
  have hhashes : ∀ {entries : List LedgerEntry}, (links R).IsChain genesisHash entries →
      entries.map (·.entryHash) = (entries.map (·.hashedFields)).map fun f => R.sha256 (f.text R) := by
    intro entries hc
    rw [List.map_map]
    exact List.map_congr_left fun e he => (digest_eq_some.mp (hc.digest_eq he)).2.symm
  refine ⟨?_, hfields, ?_⟩
  · simpa using congrArg List.length hfields
  · rw [hhashes hc, hhashes hc', hfields]

/-- The evening's ledger after its descriptions have been blackened. -/
def blackened (L : LedgerEngine) : LedgerEngine :=
  { L with entries := L.entries.map fun e => { e with description := "" } }

theorem head_hash_binds_history_evening :
    let L := eveningLedger Runtime.tagged
    L ≠ blackened L ∧
      (sortByCreatedAt (onAccount "USER_WALLET:bob" L.entries)).map (·.hashedFields) =
        (sortByCreatedAt (onAccount "USER_WALLET:bob" (blackened L).entries)).map (·.hashedFields) := by
  refine ⟨by decide +kernel, ?_⟩
  exact (head_hash_binds_history Runtime.tagged tagged_collisionFree tagged_rendersTimes
    (eveningLedger Runtime.tagged) (blackened (eveningLedger Runtime.tagged)) (by decide +kernel)
    (by decide +kernel) (by decide +kernel) "USER_WALLET:bob" (by decide +kernel)).2.1

/-! ## The order that is verified -/

/-- Where the time stamps of each account ascend, the verifier accepts exactly the lists that chain in
the order of append. Elsewhere it errs on the lists that chain in one of the orders of append and of
time, and on no other. -/
theorem verifier_order_iff (R : Runtime) (L : LedgerEngine) :
    let Appended := ∀ a, (links R).IsChain genesisHash (onAccount a L.entries)
    let Dated := ∀ a, (links R).IsChain genesisHash (sortByCreatedAt (onAccount a L.entries))
    let Ascending := ∀ a, (onAccount a L.entries).Pairwise (·.createdAt ≤ ·.createdAt)
    (Ascending → (verifyChainIntegrity R L = .ok (true, []) ↔ Appended)) ∧
    (R.CollisionFree → R.HexDigests →
      ((verifyChainIntegrity R L = .ok (true, []) ↔ Appended) ↔ (Appended ∨ Dated → Ascending))) := by
  intro Appended Dated Ascending
  have hascending : Ascending → (verifyChainIntegrity R L = .ok (true, []) ↔ Appended) :=
    verifies_iff_of_pairwise
  refine ⟨hascending, fun hR hx => ⟨fun hiff hone a => ?_, fun h => ?_⟩⟩
  · have hboth : Appended ∧ Dated := by
      rw [verifyChainIntegrity_ok] at hiff
      cases hone with
      | inl happended => exact ⟨happended, hiff.mpr happended⟩
      | inr hdated => exact ⟨hiff.mp hdated, hdated⟩
    exact pairwise_of_chains hR hx (hboth.1 a) (hboth.2 a)
  · constructor
    · intro hv
      exact (hascending (h (.inr (verifyChainIntegrity_ok.mp hv)))).mp hv
    · intro happended
      exact (hascending (h (.inl happended))).mpr happended

theorem verifier_order_iff_evening :
    verifyChainIntegrity Runtime.spelling (eveningLedger Runtime.spelling) = .ok (true, []) ↔
      ∀ a, (links Runtime.spelling).IsChain genesisHash
        (onAccount a (eveningLedger Runtime.spelling).entries) :=
  ((verifier_order_iff Runtime.spelling (eveningLedger Runtime.spelling)).2 spelling_collisionFree
    spelling_hexDigests).mpr fun _ _ =>
      (run_sound_of_allReturn spelling_monotone (evening_allReturn _)).ordered.filter _

/-- A clock that steps back a second before every reading. -/
def Runtime.backwards : Runtime := { Runtime.tagged with time := fun n => -n }

/-- With a clock that steps back the ledger that was posted is rejected, and a ledger whose two
journals are swapped is accepted. -/
theorem clock_step_back :
    AllReturn Runtime.backwards (.init ⟨0, 0⟩) evening ∧
    (∀ a, (links Runtime.backwards).IsChain genesisHash
      (onAccount a (eveningLedger Runtime.backwards).entries)) ∧
    (∃ errors, verifyChainIntegrity Runtime.backwards (eveningLedger Runtime.backwards) =
      .ok (false, errors)) ∧
    ∃ L : LedgerEngine, verifyChainIntegrity Runtime.tagged L = .ok (true, []) ∧
      ¬ ∀ a, (links Runtime.tagged).IsChain genesisHash (onAccount a L.entries) := by
  refine ⟨evening_allReturn _, (run_posted (evening_allReturn _)).linked.chain, ?_, ?_⟩
  · exact verifyChainIntegrity_rejects.mpr
      ⟨fun e he => (run_posted (evening_allReturn _)).hashable he, by decide +kernel⟩
  let swapped (entries : List LedgerEntry) := entries.drop 4 ++ entries.take 4
  refine ⟨{ eveningLedger Runtime.tagged with entries := swapped (eveningLedger Runtime.tagged).entries },
    by decide +kernel, fun h => ?_⟩
  have hbob := chainErrors_eq_nil (a := "USER_WALLET:bob") |>.mpr (h "USER_WALLET:bob")
  exact absurd hbob (by decide +kernel)

end ExpenseSettlement
