import ExpenseSettlement.Core.Lemmas.Payload
import ExpenseSettlement.Core.Lemmas.Posted

/-!
# Edited ledgers

What the verifier says of a ledger in which one entry was replaced, or some were deleted. An account
is told apart from another by its hashes, which are distinct in the whole ledger.
-/

namespace ExpenseSettlement

open Lib LedgerEngine

variable {R : Runtime}

namespace LedgerEngine

theorem mem_onAccount {a : String} {entries : List LedgerEntry} {e : LedgerEntry} :
    e ∈ onAccount a entries ↔ e ∈ entries ∧ e.accountId = a := by
  simp [onAccount]

theorem onAccount_cons (a : String) (e : LedgerEntry) (entries : List LedgerEntry) :
    onAccount a (e :: entries) =
      if e.accountId = a then e :: onAccount a entries else onAccount a entries := by
  simp [onAccount, List.filter_cons]

theorem sortByCreatedAt_perm (entries : List LedgerEntry) : (sortByCreatedAt entries).Perm entries :=
  List.perm_insertionSort _ _

theorem sortByCreatedAt_pairwise (entries : List LedgerEntry) :
    (sortByCreatedAt entries).Pairwise (·.createdAt ≤ ·.createdAt) := by
  have htotal : Std.Total fun e f : LedgerEntry => e.createdAt ≤ f.createdAt := ⟨fun _ _ => le_total _ _⟩
  have htrans : IsTrans LedgerEntry fun e f => e.createdAt ≤ f.createdAt := ⟨fun _ _ _ => le_trans⟩
  exact List.pairwise_insertionSort _ _

/-- Where time stamps ascend the verifier judges the order of append. -/
theorem verifies_iff_of_pairwise {L : LedgerEngine}
    (hord : ∀ a, (onAccount a L.entries).Pairwise (·.createdAt ≤ ·.createdAt)) :
    verifyChainIntegrity R L = .ok (true, []) ↔
      ∀ a, (links R).IsChain genesisHash (onAccount a L.entries) := by
  rw [verifyChainIntegrity_ok]
  refine forall_congr' fun a => ?_
  rw [sortByCreatedAt_of_pairwise (hord a)]

end LedgerEngine

/-! ## Hashes along a chain -/

namespace Runtime.CollisionFree

variable {entries : List LedgerEntry} (hR : R.CollisionFree)
include hR

theorem text_eq {e f : LedgerEntry} {h : String} (he : (links R).digest e = some h)
    (hf : (links R).digest f = some h) : e.text R = f.text R :=
  hR.injective ((digest_eq_some.mp he).2.trans (digest_eq_some.mp hf).2.symm)

theorem digest_ne (e : LedgerEntry) : (links R).digest e ≠ some genesisHash :=
  fun h => hR.ne_genesis _ (digest_eq_some.mp h).2

theorem hash_ne (hc : (links R).IsChain genesisHash entries) {e : LedgerEntry} (he : e ∈ entries) :
    e.entryHash ≠ genesisHash := by
  have hd : (links R).digest e = some e.entryHash := hc.digest_eq he
  intro hg
  exact hR.digest_ne e (hd.trans (congrArg some hg))

end Runtime.CollisionFree

theorem prevHash_no_bar (hx : R.HexDigests) {entries : List LedgerEntry}
    (hc : (links R).IsChain genesisHash entries) {e : LedgerEntry} (he : e ∈ entries) :
    '|' ∉ e.prevHash.toList := by
  have hm : e.prevHash ∈ genesisHash :: entries.map (·.entryHash) := hc.prev_mem he
  cases List.mem_cons.mp hm with
  | inl h => rw [h]; exact genesis_no_bar
  | inr h =>
      obtain ⟨f, hf, hfe⟩ := List.mem_map.mp h
      have hd : (links R).digest f = some f.entryHash := hc.digest_eq hf
      rw [← hfe, ← (digest_eq_some.mp hd).2]
      exact hx _

/-- Along an accepted chain no hash comes twice. -/
theorem chain_nodup (hR : R.CollisionFree) (hx : R.HexDigests) {entries : List LedgerEntry}
    (hc : (links R).IsChain genesisHash entries) :
    (genesisHash :: entries.map (links R).hash).Nodup := by
  refine hc.nodup (fun e he f hf d hd hd' => ?_) fun e _ => hR.digest_ne e
  exact HashedFields.prevHash_eq (f := e.hashedFields) (g := f.hashedFields) (prevHash_no_bar hx hc he)
    (prevHash_no_bar hx hc hf) (hR.text_eq hd hd')

namespace Posted

variable {d : Draws} {L : LedgerEngine}

theorem hash_inj (h : Posted R d L) (hR : R.CollisionFree) {e f : LedgerEntry} (he : e ∈ L.entries)
    (hf : f ∈ L.entries) (hef : e.entryHash = f.entryHash) : e = f :=
  List.inj_on_of_nodup_map (h.nodup hR.injective) he hf hef

theorem account_nodup (h : Posted R d L) (hR : R.CollisionFree) (a : String) :
    (genesisHash :: (onAccount a L.entries).map (links R).hash).Nodup := by
  refine List.nodup_cons.mpr ⟨fun hm => ?_, ?_⟩
  · obtain ⟨e, he, heq⟩ := List.mem_map.mp hm
    exact hR.hash_ne (h.linked.chain a) he heq
  · exact (h.nodup hR.injective).sublist (List.filter_sublist.map _)

/-- Two accounts that end in the same hash have no entries. -/
theorem nil_of_tip_eq (h : Posted R d L) (hR : R.CollisionFree) {a b : String} (hab : a ≠ b)
    {xs ys : List LedgerEntry} (hxs : (links R).IsChain genesisHash xs)
    (hys : (links R).IsChain genesisHash ys) (hx : ∀ e ∈ xs, e ∈ onAccount a L.entries)
    (hy : ∀ e ∈ ys, e ∈ onAccount b L.entries)
    (ht : (links R).tip genesisHash xs = (links R).tip genesisHash ys) : xs = [] ∧ ys = [] := by
  have hnil : (links R).tip genesisHash xs = genesisHash := by
    cases List.mem_cons.mp ((links R).tip_mem genesisHash xs) with
    | inl hg => exact hg
    | inr hm =>
        obtain ⟨e, he, heq⟩ := List.mem_map.mp hm
        cases List.mem_cons.mp ((links R).tip_mem genesisHash ys) with
        | inl hg => exact ht.trans hg
        | inr hm' =>
            obtain ⟨f, hf, hfeq⟩ := List.mem_map.mp hm'
            obtain ⟨he', hea⟩ := mem_onAccount.mp (hx e he)
            obtain ⟨hf', hfb⟩ := mem_onAccount.mp (hy f hf)
            have hef : e.entryHash = f.entryHash := heq.trans (ht.trans hfeq.symm)
            rw [h.hash_inj hR he' hf' hef] at hea
            exact absurd (hea.symm.trans hfb) hab
  exact ⟨hxs.eq_nil_of_tip_eq (fun e _ => hR.digest_ne e) hnil,
    hys.eq_nil_of_tip_eq (fun e _ => hR.digest_ne e) (ht.symm.trans hnil)⟩

end Posted

/-! ## One entry replaced -/

/-- The account of the entry is the same, or neither account has other entries. -/
def SamePlace (others : List LedgerEntry) (x x' : LedgerEntry) : Prop :=
  x'.accountId = x.accountId ∨
    ∀ e ∈ others, e.accountId ≠ x.accountId ∧ e.accountId ≠ x'.accountId

theorem onAccount_eq_nil {a : String} {entries : List LedgerEntry} (h : ∀ e ∈ entries, e.accountId ≠ a) :
    onAccount a entries = [] := by
  simpa [onAccount] using h

theorem pairwise_replace {pre post : List LedgerEntry} {x x' : LedgerEntry} (ht : x'.createdAt = x.createdAt)
    (h : (pre ++ x :: post).Pairwise (·.createdAt ≤ ·.createdAt)) (a : String) :
    (onAccount a (pre ++ x' :: post)).Pairwise (·.createdAt ≤ ·.createdAt) := by
  have hall : (pre ++ x' :: post).Pairwise (·.createdAt ≤ ·.createdAt) := by
    simpa only [List.pairwise_append, List.pairwise_cons, List.forall_mem_cons, ht] using h
  exact hall.filter _

namespace Posted

variable {d : Draws} {L : LedgerEngine} {pre post : List LedgerEntry} {x x' : LedgerEntry}

theorem prevHash_of_alone (h : Posted R d L) (hL : L.entries = pre ++ x :: post)
    (halone : ∀ e ∈ pre, e.accountId ≠ x.accountId) : x.prevHash = genesisHash := by
  have hc := h.linked.chain x.accountId
  rw [hL, onAccount_append, onAccount_cons, if_pos rfl, onAccount_eq_nil halone] at hc
  exact hc.1

theorem digest_eq (h : Posted R d L) {e : LedgerEntry} (he : e ∈ L.entries) :
    (links R).digest e = some e.entryHash :=
  (h.linked.chain e.accountId).digest_eq (mem_onAccount.mpr ⟨he, rfl⟩)

theorem hashable (h : Posted R d L) {e : LedgerEntry} (he : e ∈ L.entries) : e.hashedFields.Hashable R :=
  (digest_eq_some.mp (h.digest_eq he)).1

theorem replaced_verifies (h : Posted R d L) (ht : R.RendersTimes)
    (hord : L.entries.Pairwise (·.createdAt ≤ ·.createdAt)) (hL : L.entries = pre ++ x :: post)
    (hhash : x'.entryHash = x.entryHash) (htext : x'.text R = x.text R)
    (hprev : x'.prevHash = x.prevHash) (hplace : SamePlace (pre ++ post) x x') :
    verifyChainIntegrity R { L with entries := pre ++ x' :: post } = .ok (true, []) := by
  have htime : x'.createdAt = x.createdAt :=
    HashedFields.createdAt_eq (f := x'.hashedFields) (g := x.hashedFields) ht hprev htext
  have hx : (links R).digest x = some x.entryHash := h.digest_eq (by rw [hL]; simp)
  have hdigest : (links R).digest x' = (links R).digest x := by
    obtain ⟨hhashable, hsha⟩ := digest_eq_some.mp hx
    rw [hx]
    exact digest_eq_some.mpr ⟨hhashable.of_text_eq ht hprev htext, by rw [htext]; exact hsha⟩
  refine (verifies_iff_of_pairwise (pairwise_replace htime (hL ▸ hord))).mpr fun a => ?_
  have hc := h.linked.chain a
  rw [hL, onAccount_append, onAccount_cons] at hc
  rw [onAccount_append, onAccount_cons]
  cases hplace with
  | inl hacc =>
      rw [hacc]
      split
      · rename_i hxa
        rw [if_pos hxa] at hc
        exact (Links.isChain_replace hprev hhash hdigest).mpr hc
      · rename_i hxa
        rw [if_neg hxa] at hc
        exact hc
  | inr halone =>
      have hpre := fun e he => halone e (List.mem_append_left post he)
      have hpost := fun e he => halone e (List.mem_append_right pre he)
      by_cases hxa' : x'.accountId = a
      · subst hxa'
        rw [if_pos rfl, onAccount_eq_nil fun e he => (hpre e he).2,
          onAccount_eq_nil fun e he => (hpost e he).2]
        exact ⟨hprev.trans (h.prevHash_of_alone hL fun e he => (hpre e he).1),
          hdigest.trans (hx.trans (congrArg some hhash.symm)), trivial⟩
      · rw [if_neg hxa']
        by_cases hxa : x.accountId = a
        · subst hxa
          rw [onAccount_eq_nil fun e he => (hpre e he).1, onAccount_eq_nil fun e he => (hpost e he).1]
          trivial
        · rw [if_neg hxa] at hc
          exact hc

/-- An entry that was moved to another account has to be the last one of the account it left and of
the account it joined, and the hash it names is then the start of both. -/
theorem alone_of_moved (h : Posted R d L) (hR : R.CollisionFree) (hx : R.HexDigests)
    (hL : L.entries = pre ++ x :: post) (hmoved : x'.accountId ≠ x.accountId)
    (hprev : x'.prevHash = x.prevHash)
    (hchain : ∀ a, (links R).IsChain genesisHash (onAccount a (pre ++ x' :: post))) :
    ∀ e ∈ pre ++ post, e.accountId ≠ x.accountId ∧ e.accountId ≠ x'.accountId := by
  have hleft := h.linked.chain x.accountId
  have hleft' := hchain x.accountId
  have hnleft := h.account_nodup hR x.accountId
  rw [hL, onAccount_append, onAccount_cons, if_pos rfl] at hleft hnleft
  rw [onAccount_append, onAccount_cons, if_neg hmoved] at hleft'
  have hjoined := h.linked.chain x'.accountId
  have hjoined' := hchain x'.accountId
  have hnjoined := chain_nodup hR hx hjoined'
  rw [hL, onAccount_append, onAccount_cons, if_neg (Ne.symm hmoved)] at hjoined
  rw [onAccount_append, onAccount_cons, if_pos rfl] at hjoined' hnjoined
  have hpost := hleft.last_of_missing hnleft hleft'
  have hpost' := hjoined'.last_of_missing hnjoined hjoined
  have htip : (links R).tip genesisHash (onAccount x.accountId pre) =
      (links R).tip genesisHash (onAccount x'.accountId pre) := by
    rw [← hleft.prev_eq, ← hjoined'.prev_eq]
    exact hprev.symm
  have hin : ∀ a, ∀ e ∈ onAccount a pre, e ∈ onAccount a L.entries := by
    intro a e he
    rw [hL, onAccount_append]
    exact List.mem_append_left _ he
  obtain ⟨hpre, hpre'⟩ := h.nil_of_tip_eq hR (Ne.symm hmoved) ((links R).isChain_append.mp hleft).1
    ((links R).isChain_append.mp hjoined').1 (hin _) (hin _) htip
  refine fun e he => ⟨fun hea => ?_, fun hea => ?_⟩
  · have hm : e ∈ onAccount x.accountId (pre ++ post) := mem_onAccount.mpr ⟨he, hea⟩
    rw [onAccount_append, hpre, hpost] at hm
    cases hm
  · have hm : e ∈ onAccount x'.accountId (pre ++ post) := mem_onAccount.mpr ⟨he, hea⟩
    rw [onAccount_append, hpre', hpost'] at hm
    cases hm

/-- An accepted replacement names the same hash and is written the same under its own. -/
theorem of_replaced_verifies (h : Posted R d L) (hR : R.CollisionFree) (hx : R.HexDigests)
    (ht : R.RendersTimes) (hord : L.entries.Pairwise (·.createdAt ≤ ·.createdAt))
    (hL : L.entries = pre ++ x :: post) (hhash : x'.entryHash = x.entryHash)
    (hv : verifyChainIntegrity R { L with entries := pre ++ x' :: post } = .ok (true, [])) :
    x'.text R = x.text R ∧ x'.prevHash = x.prevHash ∧ SamePlace (pre ++ post) x x' := by
  have hxm : x ∈ L.entries := by rw [hL]; simp
  have hxm' : x' ∈ sortByCreatedAt (onAccount x'.accountId (pre ++ x' :: post)) :=
    (sortByCreatedAt_perm _).mem_iff.mpr (mem_onAccount.mpr ⟨by simp, rfl⟩)
  have hsorted := verifyChainIntegrity_ok.mp hv x'.accountId
  have htext : x'.text R = x.text R := by
    have hx' : (links R).digest x' = some x'.entryHash := hsorted.digest_eq hxm'
    rw [hhash] at hx'
    exact hR.text_eq hx' (h.digest_eq hxm)
  have hprev : x'.prevHash = x.prevHash := by
    refine HashedFields.prevHash_eq (f := x'.hashedFields) (g := x.hashedFields)
      (prevHash_no_bar hx hsorted hxm') ?_ htext
    exact prevHash_no_bar hx (h.linked.chain x.accountId) (mem_onAccount.mpr ⟨hxm, rfl⟩)
  refine ⟨htext, hprev, ?_⟩
  have htime : x'.createdAt = x.createdAt :=
    HashedFields.createdAt_eq (f := x'.hashedFields) (g := x.hashedFields) ht hprev htext
  have hchain : ∀ a, (links R).IsChain genesisHash (onAccount a (pre ++ x' :: post)) :=
    (verifies_iff_of_pairwise (pairwise_replace htime (hL ▸ hord))).mp hv
  by_cases hacc : x'.accountId = x.accountId
  · exact .inl hacc
  · exact .inr (h.alone_of_moved hR hx hL hacc hprev hchain)

end Posted

/-! ## Entries deleted -/

theorem sumOf_filter (t : EntryType) (p : LedgerEntry → Bool) (entries : List LedgerEntry) :
    sumOf t (entries.filter p) + sumOf t (entries.filter (!p ·)) = sumOf t entries := by
  induction entries with
  | nil => rfl
  | cons e entries ih =>
      rw [sumOf_eq_total, sumOf_eq_total, sumOf_eq_total] at ih ⊢
      rw [List.map_cons, total_cons, ← ih]
      cases hp : p e with
      | true => simp [hp, total_cons, add_assoc]
      | false => simp [hp, total_cons, add_left_comm]

theorem Posted.sumOf_kept {d : Draws} {L : LedgerEngine} (h : Posted R d L) (gone : LedgerEntry → Bool) :
    sumOf .debit (L.entries.filter (!gone ·)) = sumOf .credit (L.entries.filter (!gone ·)) ↔
      sumOf .debit (L.entries.filter gone) = sumOf .credit (L.entries.filter gone) := by
  have hdebit := sumOf_filter .debit gone L.entries
  have hcredit := sumOf_filter .credit gone L.entries
  have hb : sumOf .debit L.entries = sumOf .credit L.entries := by
    rw [sumOf_eq_total, sumOf_eq_total]
    exact h.balanced
  omega

/-- What a filter leaves is a prefix as soon as it has the elements of one. -/
theorem filter_eq_of_prefix {α : Type} {p : α → Bool} {l t : List α} (hn : l.Nodup) (ht : t <+: l)
    (hp : t.Perm (l.filter p)) : l.filter p = t := by
  obtain ⟨rest, rfl⟩ := ht
  have hin : ∀ x ∈ t, p x = true := fun x hx => (List.mem_filter.mp (hp.subset hx)).2
  have hout : ∀ x ∈ rest, ¬ p x = true := by
    intro x hx hpx
    have hm : x ∈ t := hp.mem_iff.mpr (List.mem_filter.mpr ⟨List.mem_append_right _ hx, hpx⟩)
    exact List.disjoint_of_nodup_append hn hm hx
  rw [List.filter_append, List.filter_eq_self.mpr hin, List.filter_eq_nil_iff.mpr hout, List.append_nil]

/-- The verifier accepts what is left of an account when that is its first entries, in the order of
their time stamps. -/
theorem Posted.kept_chain {d : Draws} {L : LedgerEngine} (h : Posted R d L) (hR : R.CollisionFree)
    (a : String) (gone : LedgerEntry → Bool) :
    (links R).IsChain genesisHash (sortByCreatedAt (onAccount a (L.entries.filter (!gone ·)))) ↔
      onAccount a (L.entries.filter (!gone ·)) <+: onAccount a L.entries ∧
      (onAccount a (L.entries.filter (!gone ·))).Pairwise (·.createdAt ≤ ·.createdAt) := by
  have hn := h.account_nodup hR a
  have hkept : onAccount a (L.entries.filter (!gone ·)) = (onAccount a L.entries).filter (!gone ·) :=
    List.filter_comm _ _ _
  rw [hkept]
  constructor
  · intro hc
    have hperm := sortByCreatedAt_perm ((onAccount a L.entries).filter (!gone ·))
    have hfirst := (h.linked.chain a).prefix_of_subset hn hc
      fun e he => (List.mem_filter.mp (hperm.subset he)).1
    have hsort := filter_eq_of_prefix (List.Nodup.of_map _ (List.nodup_cons.mp hn).2) hfirst hperm
    rw [← hsort] at hfirst
    refine ⟨hfirst, ?_⟩
    rw [hsort]
    exact sortByCreatedAt_pairwise _
  · rintro ⟨⟨rest, hrest⟩, hord⟩
    have hc := h.linked.chain a
    rw [← hrest] at hc
    rw [sortByCreatedAt_of_pairwise hord]
    exact ((links R).isChain_append.mp hc).1

/-! ## The order of append and the order of time -/

/-- An account chains in both orders only if the sort leaves it as it is. -/
theorem pairwise_of_chains (hR : R.CollisionFree) (hx : R.HexDigests) {entries : List LedgerEntry}
    (happended : (links R).IsChain genesisHash entries)
    (hdated : (links R).IsChain genesisHash (sortByCreatedAt entries)) :
    entries.Pairwise (·.createdAt ≤ ·.createdAt) := by
  have hsort := happended.eq_of_perm (chain_nodup hR hx happended) hdated (sortByCreatedAt_perm _)
  rw [← hsort]
  exact sortByCreatedAt_pairwise _

end ExpenseSettlement
