import ExpenseSettlement.Core.Lemmas.Payload
import ExpenseSettlement.Core.Lemmas.Returns

/-!
# The text under the checksum

The records of a plan are joined by `'|'` and their three fields by `':'`, without an escape. Ids
without a `':'` can be read back from the text. With more than two `':'` in it, the same text is that
of two different plans of one payment.
-/

namespace ExpenseSettlement

open Lib DebtSimplifier

/-! ## The text -/

def recordText (s : Settlement) : List Char :=
  s.payerId.toList ++ ':' :: (s.payeeId.toList ++ ':' :: (toString s.amountCents).toList)

/-- The records after the first. -/
def restText (ss : List Settlement) : List Char := ss.flatMap fun s => '|' :: recordText s

def planText : List Settlement → List Char
  | [] => []
  | s :: rest => recordText s ++ restText rest

/-- The settlements in the order of the checksum. -/
def sortedPlan (netBalances : Dict String ℤ) : List Settlement :=
  (settle netBalances).insertionSort byPair

theorem toList_checksumText (ss : List Settlement) :
    (checksumText ss).toList = planText (ss.insertionSort byPair) := by
  rw [checksumText, String.toList_intercalate, List.map_map]
  have hrecord : ∀ s : Settlement, s.text.toList = recordText s := by
    intro s
    simp only [Settlement.text, String.toList_append, String.append_assoc]
    rfl
  cases ss.insertionSort byPair with
  | nil => rfl
  | cons s rest =>
      rw [List.map_cons, Function.comp_apply, hrecord, planText]
      induction rest generalizing s with
      | nil => simp [restText, List.intercalate]
      | cons t rest ih =>
          rw [List.map_cons, Function.comp_apply, hrecord, List.intercalate_cons_cons, ih t]
          simp [restText]

theorem int_no_colon (n : ℤ) : ':' ∉ (toString n).toList :=
  not_mem_toString_int (by decide) (by decide) n

/-! ## Reading the records back -/

def Settlement.ColonFree (s : Settlement) : Prop := ':' ∉ s.payerId.toList ∧ ':' ∉ s.payeeId.toList

theorem restText_inj_left {a b : List Char} {ss ts : List Settlement} (ha : '|' ∉ a) (hb : '|' ∉ b)
    (h : a ++ restText ss = b ++ restText ts) : a = b ∧ restText ss = restText ts := by
  cases ss with
  | nil =>
      cases ts with
      | nil => exact ⟨by simpa [restText] using h, rfl⟩
      | cons t ts =>
          apply absurd _ ha
          rw [restText, List.flatMap_nil, List.append_nil] at h
          rw [h]
          simp [restText]
  | cons s ss =>
      cases ts with
      | nil =>
          apply absurd _ hb
          rw [restText, restText, List.flatMap_nil, List.append_nil] at h
          rw [← h]
          simp
      | cons t ts =>
          simp only [restText, List.flatMap_cons, List.cons_append] at h ⊢
          obtain ⟨hab, hrest⟩ := field_inj ha hb h
          exact ⟨hab, by rw [hrest]⟩

/-- A payer, a payee and an amount end at the first two `':'` and at the next `'|'`. -/
theorem record_inj {s t : Settlement} {ss ts : List Settlement} (hs : s.ColonFree) (ht : t.ColonFree)
    (h : recordText s ++ restText ss = recordText t ++ restText ts) :
    s = t ∧ restText ss = restText ts := by
  simp only [recordText, List.append_assoc, List.cons_append] at h
  obtain ⟨hpayer, h⟩ := field_inj hs.1 ht.1 h
  obtain ⟨hpayee, h⟩ := field_inj hs.2 ht.2 h
  obtain ⟨hamount, h⟩ := restText_inj_left (int_no_bar _) (int_no_bar _) h
  refine ⟨?_, h⟩
  cases s
  cases t
  simp only [String.toList_inj] at hpayer hpayee hamount
  simp [hpayer, hpayee, toString_int_injective hamount]

theorem restText_inj {ss ts : List Settlement} (hs : ∀ s ∈ ss, s.ColonFree) (ht : ∀ t ∈ ts, t.ColonFree)
    (h : restText ss = restText ts) : ss = ts := by
  induction ss generalizing ts with
  | nil =>
      cases ts with
      | nil => rfl
      | cons t ts => simp [restText] at h
  | cons s ss ih =>
      cases ts with
      | nil => simp [restText] at h
      | cons t ts =>
          simp only [restText, List.flatMap_cons, List.cons_append, List.cons.injEq, true_and] at h
          rw [List.forall_mem_cons] at hs ht
          obtain ⟨rfl, hrest⟩ := record_inj hs.1 ht.1 h
          rw [ih hs.2 ht.2 hrest]

theorem planText_inj {ss ts : List Settlement} (hs : ∀ s ∈ ss, s.ColonFree) (ht : ∀ t ∈ ts, t.ColonFree)
    (h : planText ss = planText ts) : ss = ts := by
  cases ss with
  | nil =>
      cases ts with
      | nil => rfl
      | cons t ts => simp [planText, recordText] at h
  | cons s ss =>
      cases ts with
      | nil => simp [planText, recordText] at h
      | cons t ts =>
          rw [List.forall_mem_cons] at hs ht
          obtain ⟨rfl, hrest⟩ := record_inj hs.1 ht.1 h
          rw [restText_inj hs.2 ht.2 hrest]

/-! ## Counting the colons -/

def Settlement.idColons (s : Settlement) : ℕ := s.payerId.toList.count ':' + s.payeeId.toList.count ':'

theorem idColons_eq_zero {s : Settlement} : s.idColons = 0 ↔ s.ColonFree := by
  rw [Settlement.idColons, Settlement.ColonFree, Nat.add_eq_zero_iff, List.count_eq_zero,
    List.count_eq_zero]

theorem count_recordText (s : Settlement) : (recordText s).count ':' = 2 + s.idColons := by
  have hdigits : (toString s.amountCents).toList.count ':' = 0 :=
    List.count_eq_zero.mpr (int_no_colon _)
  rw [recordText, List.count_append, List.count_cons_self, List.count_append, List.count_cons_self,
    hdigits, Settlement.idColons]
  omega

theorem count_restText (ss : List Settlement) :
    (restText ss).count ':' = 2 * ss.length + (ss.map (·.idColons)).sum := by
  induction ss with
  | nil => rfl
  | cons s ss ih =>
      rw [restText, List.flatMap_cons, List.count_append, List.count_cons_of_ne (by decide),
        count_recordText, List.map_cons, List.sum_cons, List.length_cons]
      rw [restText] at ih
      omega

theorem count_planText (ss : List Settlement) :
    (planText ss).count ':' = 2 * ss.length + (ss.map (·.idColons)).sum := by
  cases ss with
  | nil => rfl
  | cons s ss =>
      rw [planText, List.count_append, count_recordText, count_restText, List.map_cons, List.sum_cons,
        List.length_cons]
      omega

/-- The text ends with the amount of the last record. -/
theorem planText_last (s : Settlement) (rest : List Settlement) :
    ∃ ids, ∃ t ∈ s :: rest, planText (s :: rest) = ids ++ ':' :: (toString t.amountCents).toList := by
  induction rest generalizing s with
  | nil =>
      refine ⟨s.payerId.toList ++ ':' :: s.payeeId.toList, s, List.mem_cons_self, ?_⟩
      simp [planText, recordText, restText]
  | cons t rest ih =>
      obtain ⟨ids, u, hu, h⟩ := ih t
      refine ⟨recordText s ++ '|' :: ids, u, List.mem_cons_of_mem _ hu, ?_⟩
      simp only [planText, restText, List.flatMap_cons] at h ⊢
      rw [List.append_assoc, List.cons_append, List.cons_append, h]

/-! ## The users of a plan -/

variable {R : Runtime} {m m' : Dict String ℤ}

/-- The users whose balances are not zero have no `':'` in their ids. -/
def NoColons (netBalances : Dict String ℤ) : Prop :=
  ∀ u, netBalances.getD u 0 ≠ 0 → ':' ∉ u.toList

theorem NoColons.colonFree (h : NoColons m) (hz : m.values.sum = 0) {s : Settlement}
    (hs : s ∈ settle m) : s.ColonFree := by
  obtain ⟨hpayer, hpayee, _⟩ := settle_sides hz hs
  exact ⟨h _ hpayer.ne, h _ hpayee.ne'⟩

theorem getD_of_mem_uneven {u : String} (h : u ∈ uneven m) : m.getD u 0 ≠ 0 := by
  obtain ⟨⟨v, n⟩, hmem, rfl⟩ := List.mem_map.mp h
  obtain ⟨hitem, hne⟩ := List.mem_filter.mp hmem
  rw [Dict.getD, Dict.get?_eq_some.mpr hitem, Option.getD_some]
  simpa using hne

theorem length_uneven_le (hz : m.values.sum = 0) :
    m.values.countP (· ≠ 0) ≤ 2 * (settle m).length := by
  have hsub : uneven m ⊆ (settle m).flatMap fun s => [s.payerId, s.payeeId] := by
    intro u hu
    obtain ⟨s, hs, hor⟩ := exists_settlement hz (getD_of_mem_uneven hu)
    refine List.mem_flatMap.mpr ⟨s, hs, ?_⟩
    simp only [List.mem_cons, List.not_mem_nil, or_false]
    exact hor.imp Eq.symm Eq.symm
  have hle := (List.subperm_of_subset nodup_uneven hsub).length_le
  rw [length_uneven, List.length_flatMap] at hle
  simp only [List.length_cons, List.length_nil, List.map_const', List.sum_replicate, nsmul_eq_mul,
    Nat.cast_id] at hle
  omega

theorem sortedPlan_perm (m : Dict String ℤ) : (sortedPlan m).Perm (settle m) :=
  (settle m).perm_insertionSort byPair

/-- The text has at most two `':'` exactly when it is of at most one payment between users without
one. -/
theorem count_sortedPlan_le_iff (hz : m.values.sum = 0) :
    (planText (sortedPlan m)).count ':' ≤ 2 ↔ m.values.countP (· ≠ 0) ≤ 2 ∧ NoColons m := by
  have hperm := sortedPlan_perm m
  rw [count_planText, hperm.length_eq, (hperm.map _).sum_eq]
  constructor
  · intro hle
    refine ⟨(length_uneven_le hz).trans (by omega), fun u hu => ?_⟩
    obtain ⟨s, hs, hor⟩ := exists_settlement hz hu
    have hpos := List.length_pos_of_mem hs
    have hzero : s.idColons ≤ 0 := by
      have hsum := List.single_le_sum (fun _ _ => Nat.zero_le _) _
        (List.mem_map_of_mem (f := (·.idColons)) hs)
      omega
    obtain ⟨hpayer, hpayee⟩ := idColons_eq_zero.mp (Nat.le_zero.mp hzero)
    rcases hor with rfl | rfl
    · exact hpayer
    · exact hpayee
  · rintro ⟨hcount, hcolons⟩
    have hfree : ((settle m).map (·.idColons)).sum = 0 := by
      apply List.sum_eq_zero
      intro n hn
      obtain ⟨s, hs, rfl⟩ := List.mem_map.mp hn
      exact idColons_eq_zero.mpr (hcolons.colonFree hz hs)
    rcases Nat.eq_zero_or_pos (m.values.countP (· ≠ 0)) with hzero | hpos
    · rw [settle_eq_nil hz hzero]
      exact Nat.zero_le _
    · have hlt := length_settle_lt hz hpos
      omega

/-! ## One payment -/

/-- `payer` owes `payee` the amount. -/
def owing {payer payee : String} (h : payer ≠ payee) (amount : ℤ) : Dict String ℤ :=
  ⟨[(payer, -amount), (payee, amount)], by simpa using h⟩

section Owing

variable {payer payee : String} {h : payer ≠ payee} {amount : ℤ}

theorem sum_owing : (owing h amount).values.sum = 0 := by
  simp [owing, Dict.values]

theorem getD_owing (u : String) : (owing h amount).getD u 0 =
    if payer = u then -amount else if payee = u then amount else 0 := by
  unfold owing Dict.getD Dict.get? Dict.lookup Dict.lookup Dict.lookup
  split
  · rfl
  · split
    · rfl
    · rfl

theorem settle_owing (hpos : 1 ≤ amount) : settle (owing h amount) = [⟨payer, payee, amount⟩] := by
  have hz : (owing h amount).values.sum = 0 := sum_owing
  have hcount : (owing h amount).values.countP (· ≠ 0) = 2 := by
    have hne : amount ≠ 0 := by omega
    simp [owing, Dict.values, hne]
  have hlt := length_settle_lt hz (by omega)
  obtain ⟨s, hs, _⟩ := exists_settlement hz (u := payer) (by rw [getD_owing, if_pos rfl]; omega)
  obtain ⟨t, ht⟩ : ∃ t, settle (owing h amount) = [t] := by
    have hlen := List.length_pos_of_mem hs
    exact List.length_eq_one_iff.mp (by omega)
  have hmem : t ∈ settle (owing h amount) := by
    rw [ht]
    exact List.mem_singleton_self t
  obtain ⟨hpayer, hpayee, _⟩ := settle_sides hz hmem
  have hpayer' : payer = t.payerId := by
    by_contra hne
    rw [getD_owing, if_neg hne] at hpayer
    split at hpayer <;> omega
  have hpayee' : payee = t.payeeId := by
    by_contra hne
    simp only [getD_owing, hne, ↓reduceIte] at hpayee
    split at hpayee <;> omega
  have hamount := settle_accounted hz payee
  rw [ht, getD_owing, if_neg h, if_pos rfl] at hamount
  simp only [received, paid, List.map_cons, List.map_nil, List.sum_cons, List.sum_nil, ← hpayer',
    ← hpayee', h, ↓reduceIte, add_zero, sub_zero] at hamount
  rw [ht, ← hamount, hpayer', hpayee']

end Owing

/-! ## Telling plans apart -/

/-- The checksums of the two plans agree exactly when the plans have the same settlements. -/
def Identifies (R : Runtime) (m m' : Dict String ℤ) : Prop :=
  ∀ txCount txCount' r r', simplify R m txCount = .ok r → simplify R m' txCount' = .ok r' →
    (r.checksum = r'.checksum ↔ ∀ s, s ∈ r.settlements ↔ s ∈ r'.settlements)

/-- The sort makes plans with the same settlements have the same text. -/
theorem planText_congr (hz : m.values.sum = 0) (hz' : m'.values.sum = 0)
    (h : ∀ s, s ∈ settle m ↔ s ∈ settle m') : planText (sortedPlan m) = planText (sortedPlan m') := by
  have hnodup := settle_pairs_nodup hz
  have hnodup' := settle_pairs_nodup hz'
  have hperm := (List.perm_ext_iff_of_nodup (.of_map _ hnodup) (.of_map _ hnodup')).mpr h
  rw [sortedPlan, sortedPlan, insertionSort_eq_of_perm hperm hnodup']

/-- A checksum that is there is the digest of the plan's text. -/
theorem checksum_eq (h : ∀ s ∈ settle m, s.Hashable R) :
    checksum R (settle m) = .ok (R.sha256 (checksumText (settle m))) := by
  rcases checksum_cases R (settle m) with ⟨-, hc⟩ | ⟨hn, -⟩
  · exact hc
  · exact absurd h hn

theorem identifies_iff (hR : Function.Injective R.sha256) (hz : m.values.sum = 0)
    (hz' : m'.values.sum = 0) (hm : Checksummable R m) (hm' : Checksummable R m') : Identifies R m m' ↔
      (planText (sortedPlan m) = planText (sortedPlan m') → ∀ s, s ∈ settle m ↔ s ∈ settle m') := by
  have hsum := checksum_eq ((hashable_settle_iff hz).mpr hm)
  have hsum' := checksum_eq ((hashable_settle_iff hz').mpr hm')
  have htext : R.sha256 (checksumText (settle m)) = R.sha256 (checksumText (settle m')) ↔
      planText (sortedPlan m) = planText (sortedPlan m') := by
    rw [hR.eq_iff, ← String.toList_inj, toList_checksumText, toList_checksumText]
    rfl
  have hresult : ∀ {txCount txCount' r r'}, simplify R m txCount = .ok r → simplify R m' txCount' = .ok r' →
      ((r.checksum = r'.checksum ↔ ∀ s, s ∈ r.settlements ↔ s ∈ r'.settlements) ↔
        (planText (sortedPlan m) = planText (sortedPlan m') ↔ ∀ s, s ∈ settle m ↔ s ∈ settle m')) := by
    intro txCount txCount' r r' hr hr'
    have he := simplifiesTo_settle R hz txCount
    have he' := simplifiesTo_settle R hz' txCount'
    have hc := Except.ok.inj (hsum.symm.trans (he.checksum r hr))
    have hc' := Except.ok.inj (hsum'.symm.trans (he'.checksum r' hr'))
    rw [← hc, ← hc', he.settlements r hr, he'.settlements r' hr', htext]
  constructor
  · intro h
    obtain ⟨r, hr⟩ := (simplify_returns_iff hz 0).mpr hm
    obtain ⟨r', hr'⟩ := (simplify_returns_iff hz' 0).mpr hm'
    exact ((hresult hr hr').mp (h 0 0 r r' hr hr')).mp
  · intro h txCount txCount' r r' hr hr'
    exact (hresult hr hr').mpr ⟨h, planText_congr hz hz'⟩

/-- Where one of the two plans has no checksum there is nothing to confuse. -/
theorem Identifies.of_checksummable (hz : m.values.sum = 0) (hz' : m'.values.sum = 0)
    (h : Checksummable R m → Checksummable R m' → Identifies R m m') : Identifies R m m' := by
  intro txCount txCount' r r' hr hr'
  exact h ((simplify_returns_iff hz txCount).mp ⟨r, hr⟩) ((simplify_returns_iff hz' txCount').mp ⟨r', hr'⟩)
    txCount txCount' r r' hr hr'

theorem Identifies.of_noColons (hR : Function.Injective R.sha256) (hz : m.values.sum = 0)
    (hz' : m'.values.sum = 0) (hm : NoColons m) (hm' : NoColons m') : Identifies R m m' := by
  refine .of_checksummable hz hz' fun hsum hsum' => ?_
  rw [identifies_iff hR hz hz' hsum hsum']
  intro htext s
  have hfree : ∀ s ∈ sortedPlan m, s.ColonFree := fun s hs =>
    hm.colonFree hz ((sortedPlan_perm m).mem_iff.mp hs)
  have hfree' : ∀ s ∈ sortedPlan m', s.ColonFree := fun s hs =>
    hm'.colonFree hz' ((sortedPlan_perm m').mem_iff.mp hs)
  rw [← (sortedPlan_perm m).mem_iff, planText_inj hfree hfree' htext, (sortedPlan_perm m').mem_iff]

/-! ## Texts of two plans -/

theorem planText_owing {a b : List Char} (h : String.ofList a ≠ String.ofList b) {amount : ℤ}
    (hpos : 1 ≤ amount) :
    planText (sortedPlan (owing h amount)) = a ++ ':' :: (b ++ ':' :: (toString amount).toList) := by
  rw [sortedPlan, settle_owing hpos]
  simp [planText, recordText, restText]

/-- The ids in front of the last amount are split at the first `':'` or at the last. -/
theorem exists_two_splits {ids : List Char} (h : 2 ≤ ids.count ':') :
    ∃ a b a' b', ids = a ++ ':' :: b ∧ ids = a' ++ ':' :: b' ∧ ':' ∉ a ∧ ':' ∈ b ∧ ':' ∈ a' ∧ ':' ∉ b' := by
  have hmem : ':' ∈ ids := List.count_pos_iff.mp (by omega)
  obtain ⟨a, b, hab, ha⟩ := List.eq_append_cons_of_mem hmem
  obtain ⟨c, d, hcd, hc⟩ := List.eq_append_cons_of_mem (List.mem_reverse.mpr hmem)
  have hlast : ids = d.reverse ++ ':' :: c.reverse := by
    rw [← List.reverse_reverse ids, hcd]
    simp
  refine ⟨a, b, d.reverse, c.reverse, hab, hlast, ha, ?_, ?_, by simpa using hc⟩
  · rw [hab, List.count_append, List.count_cons_self, List.count_eq_zero.mpr ha] at h
    exact List.count_pos_iff.mp (by omega)
  · have hc' : ':' ∉ c.reverse := by simpa using hc
    rw [hlast, List.count_append, List.count_cons_self, List.count_eq_zero.mpr hc'] at h
    exact List.count_pos_iff.mp (by omega)

/-- The ids and the amount of a payment whose text is that of a plan with a checksum have texts too. -/
theorem owing_checksummable (hz : m.values.sum = 0) (hm : Checksummable R m) {a b : List Char}
    (hne : String.ofList a ≠ String.ofList b) {amount : ℤ} (hpos : 1 ≤ amount) (hamount : Printable amount)
    (htext : planText (sortedPlan m) = a ++ ':' :: (b ++ ':' :: (toString amount).toList)) :
    Checksummable R (owing hne amount) := by
  have hencodes : R.encodes (checksumText (settle m)) = true :=
    encodes_checksumText_iff.mpr fun s hs =>
      have hs := (hashable_settle_iff hz).mpr hm s hs
      ⟨hs.payer, hs.payee⟩
  have hjoined : checksumText (settle m) =
      String.ofList a ++ (":" ++ (String.ofList b ++ (":" ++ toString amount))) := by
    have hlist : (checksumText (settle m)).toList = planText (sortedPlan m) := toList_checksumText _
    rw [← String.toList_inj, hlist, htext]
    simp
  rw [hjoined] at hencodes
  simp only [Runtime.encodes_append_iff] at hencodes
  rw [← hashable_settle_iff sum_owing, settle_owing hpos, List.forall_mem_singleton]
  exact ⟨hencodes.1, hencodes.2.2.1, hamount⟩

/-- A plan that is told apart from all others is the one payment that its text is of. -/
theorem settle_of_identifies (hR : Function.Injective R.sha256) (hz : m.values.sum = 0)
    (hm : Checksummable R m) (h : ∀ m', m'.values.sum = 0 → Identifies R m m') {a b : List Char}
    (hne : String.ofList a ≠ String.ofList b) {amount : ℤ} (hpos : 1 ≤ amount) (hamount : Printable amount)
    (htext : planText (sortedPlan m) = a ++ ':' :: (b ++ ':' :: (toString amount).toList)) (s : Settlement) :
    s ∈ settle m ↔ s = ⟨String.ofList a, String.ofList b, amount⟩ := by
  have howing := owing_checksummable hz hm hne hpos hamount htext
  have hplan := (identifies_iff hR hz sum_owing hm howing).mp (h (owing hne amount) sum_owing)
  rw [planText_owing hne hpos, settle_owing hpos] at hplan
  rw [hplan htext s, List.mem_singleton]

theorem ofList_ne {a b : List Char} (ha : ':' ∉ a) (hb : ':' ∈ b) : String.ofList a ≠ String.ofList b := by
  intro he
  rw [String.ofList_inj.mp he] at ha
  exact ha hb

/-- A text with more `':'` is also that of two plans of one payment, between different users. -/
theorem count_le_of_identifies (hR : Function.Injective R.sha256) (hz : m.values.sum = 0)
    (hm : Checksummable R m) (h : ∀ m', m'.values.sum = 0 → Identifies R m m') :
    (planText (sortedPlan m)).count ':' ≤ 2 := by
  by_contra hcount
  obtain ⟨s, rest, hsorted⟩ : ∃ s rest, sortedPlan m = s :: rest := by
    apply List.exists_cons_of_ne_nil
    intro hnil
    rw [hnil] at hcount
    exact hcount (Nat.zero_le _)
  obtain ⟨ids, t, ht, htext⟩ := planText_last s rest
  rw [← hsorted] at htext ht
  have hsettle : t ∈ settle m := (sortedPlan_perm m).mem_iff.mp ht
  have hpos : 1 ≤ t.amountCents := settle_pos hz hsettle
  have hamount : Printable t.amountCents := ((hashable_settle_iff hz).mpr hm t hsettle).amount
  have hids : 2 ≤ ids.count ':' := by
    rw [htext, List.count_append, List.count_cons_self, List.count_eq_zero.mpr (int_no_colon _)] at hcount
    omega
  obtain ⟨a, b, a', b', hab, hab', ha, hb, ha', hb'⟩ := exists_two_splits hids
  have hfirst := settle_of_identifies hR hz hm h (ofList_ne ha hb) hpos hamount (by rw [htext, hab]; simp)
  have hlast := settle_of_identifies hR hz hm h (ofList_ne hb' ha').symm hpos hamount
    (by rw [htext, hab']; simp)
  -- the payers of the two plans differ, since one id has a colon and the other has none
  have hsame := (hlast _).mp ((hfirst _).mpr rfl)
  rw [Settlement.mk.injEq] at hsame
  exact ofList_ne ha ha' hsame.1

end ExpenseSettlement
