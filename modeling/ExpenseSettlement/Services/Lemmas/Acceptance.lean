import ExpenseSettlement.Services.Lemmas.Splits
import Mathlib.Algebra.Order.Ring.Int

/-!
# Valid expenses and the ledger's minimum

A valid request passes the checks of the service but for the range of floats. The ledger then takes it
when everybody but the payer has a share of at least one cent, and what they owe has a text.
-/

namespace ExpenseSettlement

open Lib LedgerEngine

/-- One of the three modes. Amounts are not negative, belong to members, and add up to the total.
Percentages are finite, not negative, and belong to members, whatever they add up to. -/
def ValidSplit (memberIds : List String) (req : CreateExpense) : Prop :=
  if req.splitType = "EXACT" then
    ∃ inputs, req.splitsInput = some inputs ∧ (∀ s ∈ inputs, s.userId ∈ memberIds) ∧
      (∀ s ∈ inputs, ∃ amount, s.amountCents = some amount ∧ 0 ≤ amount) ∧
      (inputs.map fun s => s.amountCents.getD 0).sum = req.totalCents
  else if req.splitType = "PERCENTAGE" then
    ∃ inputs, req.splitsInput = some inputs ∧ inputs ≠ [] ∧ (∀ s ∈ inputs, s.userId ∈ memberIds) ∧
      ∀ s ∈ inputs, ∃ p v, s.percentage = some p ∧ Binary64.value? p = some v ∧ 0 ≤ v
  else
    req.splitType = "EQUAL"

structure ValidExpense (S : InMemoryStore) (group : GroupRecord) (req : CreateExpense) : Prop where
  found : S.groups.get? req.groupId = some group
  payer : req.payerId ∈ group.memberIds
  total : 1 ≤ req.totalCents
  split : ValidSplit group.memberIds req

/-- The total of several percentages is in the range of floats, and so is every share but the last. -/
structure SharesFinite (totalCents : ℤ) (pre : List (SplitInput Float)) : Prop where
  limit : pre ≠ [] → totalCents < floatLimit
  finite : ∀ s ∈ pre, ∀ p ∈ s.percentage, ∃ v, Binary64.value? (floatShare totalCents p) = some v

/-- No member but the payer is left with nothing. In an equal split there is a cent for the place each
has in the group. No exact amount is zero. A percentage comes to a cent at least, and the whole cents
of all but the last leave something for that. -/
def NobodyLeftOut (memberIds : List String) (req : CreateExpense) : Prop :=
  let inputs := req.splitsInput.getD []
  if req.splitType = "EXACT" then
    ∀ s ∈ inputs, s.userId ≠ req.payerId → s.amountCents ≠ some 0
  else if req.splitType = "PERCENTAGE" then
    ∀ pre last, inputs = pre ++ [last] →
      (∀ s ∈ pre, s.userId ≠ req.payerId → ∀ p ∈ s.percentage,
        ∀ v ∈ Binary64.value? (floatShare req.totalCents p), 1 ≤ v) ∧
      (last.userId ≠ req.payerId → (pre.map (·.cents req.totalCents)).sum < req.totalCents)
  else
    ∀ (i : Nat) u, memberIds[i]? = some u → u ≠ req.payerId → (i : ℤ) < req.totalCents

/-- The sum of the percentages passes the check, their shares are finite, and what the others owe has a
text. -/
def WithinRange (memberIds : List String) (req : CreateExpense) : Prop :=
  let inputs := req.splitsInput.getD []
  if req.splitType = "EXACT" then
    ((inputs.filter (·.userId ≠ req.payerId)).map (·.amountCents.getD 0)).sum < 10 ^ maxStrDigits
  else if req.splitType = "PERCENTAGE" then
    Percentage.missesHundred (Percentage.sum (inputs.filterMap (·.percentage))) = false ∧
    ∀ pre last, inputs = pre ++ [last] → SharesFinite req.totalCents pre ∧
      ((pre.filter (·.userId ≠ req.payerId)).map (·.cents req.totalCents)).sum +
          (if last.userId = req.payerId then 0
            else req.totalCents - (pre.map (·.cents req.totalCents)).sum) < 10 ^ maxStrDigits
  else
    ∀ i : Nat, memberIds[i]? = some req.payerId →
      let n : ℤ := memberIds.length
      req.totalCents - (req.totalCents / n + if (i : ℤ) < req.totalCents % n then 1 else 0) <
        10 ^ maxStrDigits

/-! ## What the others owe -/

/-- With users that can be encoded, only the number of digits matters. -/
theorem expense_hashable_iff {R : Runtime} {payerId title : String} {splits : List Split}
    (hids : ∀ s ∈ splits, R.encodes s.userId = true) (hpayer : R.encodes payerId = true)
    (h : ∀ s ∈ splits, s.userId ≠ payerId → 1 ≤ s.amountCents) :
    (LedgerCall.expense payerId splits title).Hashable R ↔
      othersTotal payerId splits < 10 ^ maxStrDigits := by
  constructor
  · rintro ⟨-, hclosing⟩
    by_cases hpos : 0 < othersTotal payerId splits
    · exact (printable_iff hpos).mp (hclosing ((LedgerCall.othersTotal_pos h).mp hpos)).amount
    · exact (not_lt.mp hpos).trans_lt (pow_pos (by decide) _)
  · intro hlt
    refine ⟨fun s hs hne => ⟨hids s hs, ?_⟩, fun hne => ⟨hpayer, ?_⟩⟩
    · exact (printable_iff (h s hs hne)).mpr ((amount_le_othersTotal h hs hne).trans_lt hlt)
    · exact (printable_iff ((LedgerCall.othersTotal_pos h).mpr hne)).mpr hlt

theorem othersTotal_add_shareOf (payerId : String) (splits : List Split) :
    othersTotal payerId splits + shareOf payerId splits = sumAmounts splits := by
  induction splits with
  | nil => rfl
  | cons s splits ih =>
      simp only [shareOf, sumAmounts, othersTotal, List.map_cons, List.sum_cons] at ih ⊢
      rw [← ih]
      by_cases hs : s.userId = payerId
      · simp only [hs, ↓reduceIte]
        ring
      · simp only [hs, ↓reduceIte]
        ring

theorem shareOf_nonneg {payerId : String} {splits : List Split}
    (h : ∀ s ∈ splits, s.userId = payerId → 0 ≤ s.amountCents) : 0 ≤ shareOf payerId splits := by
  refine List.sum_nonneg fun a ha => ?_
  obtain ⟨s, hs, rfl⟩ := List.mem_map.mp ha
  split
  · rename_i hu
    exact h s hs hu
  · exact Int.le_refl 0

/-! ## Equal shares -/

theorem one_le_splitEqual_iff {totalCents : ℤ} {userIds : List String} {payerId : String}
    (ht : 1 ≤ totalCents) :
    (∀ s ∈ splitEqual totalCents userIds, s.userId ≠ payerId → 1 ≤ s.amountCents) ↔
      ∀ (i : Nat) u, userIds[i]? = some u → u ≠ payerId → (i : ℤ) < totalCents := by
  have hshare : ∀ i, i < userIds.length →
      (1 ≤ totalCents / (userIds.length : ℤ) +
          (if (i : ℤ) < totalCents % (userIds.length : ℤ) then 1 else 0) ↔ (i : ℤ) < totalCents) := by
    intro i hi
    have hn : (0 : ℤ) < userIds.length := by omega
    have hbase : 0 ≤ totalCents / (userIds.length : ℤ) := Int.ediv_nonneg (by omega) hn.le
    have hdiv := Int.mul_ediv_add_emod totalCents userIds.length
    rcases hbase.eq_or_lt with hzero | hpos
    · rw [← hzero] at hdiv ⊢
      split <;> omega
    · -- with a cent for everybody, the total is at least the number of members
      have hle : (userIds.length : ℤ) * 1 ≤ userIds.length * (totalCents / userIds.length) :=
        mul_le_mul_of_nonneg_left hpos hn.le
      have hr := Int.emod_nonneg totalCents hn.ne'
      refine iff_of_true ?_ (by omega)
      split <;> omega
  simp only [splitEqual, List.forall_mem_map, Prod.forall]
  constructor
  · intro h i u hi hu
    obtain ⟨hlt, _⟩ := List.getElem?_eq_some_iff.mp hi
    exact (hshare i hlt).mp (h u i (List.mem_zipIdx_iff_getElem?.mpr hi) hu)
  · intro h u i hi hu
    have hget := List.mem_zipIdx_iff_getElem?.mp hi
    obtain ⟨hlt, _⟩ := List.getElem?_eq_some_iff.mp hget
    exact (hshare i hlt).mpr (h i u hget hu)

theorem shareOf_eq_zero {u : String} {splits : List Split} (h : ∀ s ∈ splits, s.userId ≠ u) :
    shareOf u splits = 0 := by
  refine List.sum_eq_zero fun a ha => ?_
  obtain ⟨s, hs, rfl⟩ := List.mem_map.mp ha
  exact if_neg (h s hs)

/-- A user who occurs once has the share of one place. -/
theorem shareOf_zipIdx (share : Nat → ℤ) {userIds : List String} (hnodup : userIds.Nodup) {u : String}
    {i : Nat} (hi : userIds[i]? = some u) (k : Nat) :
    shareOf u ((userIds.zipIdx k).map fun (uid, j) => (⟨uid, share j⟩ : Split)) = share (k + i) := by
  induction userIds generalizing i k with
  | nil => simp at hi
  | cons v userIds ih =>
      obtain ⟨hv, hnodup⟩ := List.nodup_cons.mp hnodup
      have hcons : ∀ splits : List Split, ∀ s, shareOf u (s :: splits) =
          (if s.userId = u then s.amountCents else 0) + shareOf u splits := fun _ _ => rfl
      rw [List.zipIdx_cons, List.map_cons, hcons]
      cases i with
      | zero =>
          obtain rfl : v = u := by simpa using hi
          rw [if_pos rfl, shareOf_eq_zero, add_zero, Nat.add_zero]
          rintro s hs rfl
          obtain ⟨⟨w, j⟩, hw, rfl⟩ := List.mem_map.mp hs
          exact hv (List.fst_mem_of_mem_zipIdx hw)
      | succ i =>
          have hi' : userIds[i]? = some u := by simpa using hi
          have hne : v ≠ u := fun he => hv (he ▸ List.mem_of_getElem? hi')
          rw [if_neg hne, zero_add, ih hnodup hi' (k + 1)]
          congr 1
          omega

theorem othersTotal_splitEqual {totalCents : ℤ} {userIds : List String} (hnodup : userIds.Nodup)
    {u : String} {i : Nat} (hi : userIds[i]? = some u) :
    othersTotal u (splitEqual totalCents userIds) = totalCents -
      (totalCents / (userIds.length : ℤ) + if (i : ℤ) < totalCents % (userIds.length : ℤ) then 1 else 0) := by
  have hne : userIds ≠ [] := by
    rintro rfl
    simp at hi
  have hadd := othersTotal_add_shareOf u (splitEqual totalCents userIds)
  have hshare := shareOf_zipIdx (fun j => totalCents / (userIds.length : ℤ) +
    if (j : ℤ) < totalCents % (userIds.length : ℤ) then 1 else 0) hnodup hi 0
  rw [sum_splitEqual totalCents hne, splitEqual, hshare, Nat.zero_add] at hadd
  rw [splitEqual]
  omega

/-! ## Exact amounts -/

theorem exactShares_of_some {α : Type} {inputs : List (SplitInput α)}
    (h : ∀ s ∈ inputs, ∃ amount, s.amountCents = some amount ∧ 0 ≤ amount) :
    exactShares inputs = .ok (inputs.map fun s => ⟨s.userId, s.amountCents.getD 0⟩) := by
  induction inputs with
  | nil => rfl
  | cons s inputs ih =>
      obtain ⟨amount, hs, _⟩ := h s List.mem_cons_self
      have hrest := ih fun s hs => h s (List.mem_cons_of_mem _ hs)
      simp only [exactShares, hs, hrest, List.map_cons, Option.getD_some]

theorem splitExact_of_some {α : Type} {inputs : List (SplitInput α)} {totalCents : ℤ}
    (h : ∀ s ∈ inputs, ∃ amount, s.amountCents = some amount ∧ 0 ≤ amount)
    (hsum : (inputs.map fun s => s.amountCents.getD 0).sum = totalCents) :
    splitExact inputs totalCents = .ok (inputs.map fun s => ⟨s.userId, s.amountCents.getD 0⟩) := by
  have hgiven : sumAmounts (inputs.map fun s => (⟨s.userId, s.amountCents.getD 0⟩ : Split)) =
      totalCents := by
    rw [sumAmounts, List.map_map]
    exact hsum
  simp only [splitExact, exactShares_of_some h, hgiven, ne_eq, not_true_eq_false, ↓reduceIte]

theorem one_le_exact_iff {α : Type} {inputs : List (SplitInput α)} {payerId : String}
    (h : ∀ s ∈ inputs, ∃ amount, s.amountCents = some amount ∧ 0 ≤ amount) :
    (∀ s ∈ inputs.map fun s => (⟨s.userId, s.amountCents.getD 0⟩ : Split),
        s.userId ≠ payerId → 1 ≤ s.amountCents) ↔
      ∀ s ∈ inputs, s.userId ≠ payerId → s.amountCents ≠ some 0 := by
  rw [List.forall_mem_map]
  refine forall₂_congr fun s hs => forall_congr' fun _ => ?_
  obtain ⟨amount, hamount, h0⟩ := h s hs
  simp only [hamount, Option.getD_some, ne_eq, Option.some.injEq]
  omega

/-! ## Percentages -/

theorem one_le_truncate_iff (x : ℚ) : 1 ≤ truncate x ↔ 1 ≤ x := by
  have hden : (0 : ℤ) < x.den := by exact_mod_cast x.den_pos
  have hle : 1 ≤ x ↔ (x.den : ℤ) ≤ x.num := by
    rw [Rat.le_iff]
    simp
  rw [hle, truncate]
  rcases le_or_gt 0 x.num with h | h
  · rw [Int.tdiv_eq_ediv_of_nonneg h, Int.le_ediv_iff_mul_le hden, one_mul]
  · have hneg : x.num.tdiv x.den = -((-x.num).tdiv x.den) := by rw [Int.neg_tdiv, neg_neg]
    have hquot : 0 ≤ (-x.num).tdiv x.den := Int.tdiv_nonneg (by omega) hden.le
    exact ⟨fun hle => by omega, fun hle => by omega⟩

theorem othersTotal_percentSplits {α : Type} [Percentage α] (totalCents : ℤ) (pre : List (SplitInput α))
    (last : SplitInput α) (payerId : String) :
    othersTotal payerId (percentSplits totalCents pre last) =
      ((pre.filter (·.userId ≠ payerId)).map (·.cents totalCents)).sum +
        if last.userId = payerId then 0 else totalCents - (pre.map (·.cents totalCents)).sum := by
  rw [othersTotal_eq_sum, percentSplits, List.filter_append, List.map_append, List.sum_append,
    List.filter_map, List.map_map]
  congr 1
  by_cases hl : last.userId = payerId
  · simp [hl]
  · simp [hl]

section Floats

variable {totalCents : ℤ} {pre : List (SplitInput Float)} {last s : SplitInput Float}

theorem cents_eq_truncate {p : Float} {v : ℚ} (ht : |totalCents| < floatLimit) (hp : s.percentage = some p)
    (hv : Binary64.value? (floatShare totalCents p) = some v) : s.cents totalCents = truncate v := by
  have hshare : Percentage.share totalCents p = .ok (truncate v) := share_eq_ok.mpr ⟨ht, v, hv, rfl⟩
  rw [SplitInput.cents, hp]
  exact Percentage.share_eq_cents hshare

variable (ht : 1 ≤ totalCents) (hp : ∀ s ∈ pre ++ [last], ∃ p, s.percentage = some p)

include ht hp

theorem percentagesPass_iff : PercentagesPass totalCents pre last ↔
    Percentage.missesHundred (Percentage.sum ((pre ++ [last]).filterMap (·.percentage))) = false ∧
      SharesFinite totalCents pre := by
  have habs : |totalCents| = totalCents := abs_of_nonneg (by omega)
  constructor
  · rintro ⟨-, hsum, hshares⟩
    refine ⟨hsum, fun hne => ?_, fun s hs p hsp => ?_⟩
    · obtain ⟨s, hs⟩ := List.exists_mem_of_ne_nil _ hne
      obtain ⟨p, hsp⟩ := hp s (List.mem_append_left _ hs)
      obtain ⟨amount, ha⟩ := hshares s hs p hsp
      rw [← habs]
      exact (share_eq_ok.mp ha).1
    · obtain ⟨amount, ha⟩ := hshares s hs p hsp
      obtain ⟨-, v, hv, -⟩ := share_eq_ok.mp ha
      exact ⟨v, hv⟩
  · rintro ⟨hsum, hlimit, hfinite⟩
    refine ⟨hp, hsum, fun s hs p hsp => ?_⟩
    obtain ⟨v, hv⟩ := hfinite s hs p hsp
    have ht' : |totalCents| < floatLimit := by
      rw [habs]
      exact hlimit (List.ne_nil_of_mem hs)
    exact ⟨_, share_eq_ok.mpr ⟨ht', v, hv, rfl⟩⟩

theorem one_le_percentSplits_iff (hf : SharesFinite totalCents pre) (payerId : String) :
    (∀ s ∈ percentSplits totalCents pre last, s.userId ≠ payerId → 1 ≤ s.amountCents) ↔
      (∀ s ∈ pre, s.userId ≠ payerId → ∀ p ∈ s.percentage,
        ∀ v ∈ Binary64.value? (floatShare totalCents p), 1 ≤ v) ∧
      (last.userId ≠ payerId → (pre.map (·.cents totalCents)).sum < totalCents) := by
  rw [percentSplits, List.forall_mem_append, List.forall_mem_map, List.forall_mem_singleton]
  apply and_congr
  · refine forall₂_congr fun s hs => forall_congr' fun _ => ?_
    obtain ⟨p, hsp⟩ := hp s (List.mem_append_left _ hs)
    obtain ⟨v, hv⟩ := hf.finite s hs p hsp
    have ht' : |totalCents| < floatLimit := by
      rw [abs_of_nonneg (by omega)]
      exact hf.limit (List.ne_nil_of_mem hs)
    rw [hsp, cents_eq_truncate ht' hsp hv, one_le_truncate_iff]
    constructor
    · rintro hle p' hp' v' hv'
      obtain rfl := Option.mem_some_iff.mp hp'
      rw [hv] at hv'
      obtain rfl := Option.mem_some_iff.mp hv'
      exact hle
    · intro hall
      exact hall p rfl v hv
  · refine forall_congr' fun _ => ?_
    dsimp only
    omega

end Floats

/-! ## The checks of the service and of the ledger -/

section Checks

variable {R : Runtime} {req : CreateExpense} {memberIds : List String}

/-- The request comes to splits that the ledger takes. -/
def Takes (R : Runtime) (memberIds : List String) (req : CreateExpense) : Prop :=
  ∃ splits, computeSplits R req memberIds = .ok splits ∧ (req.call splits).Positive ∧
    (req.call splits).Hashable R

/-- Splits between users that can be encoded are taken, unless a share or the sum is out of range. -/
theorem takes_iff_of_ok {splits : List Split} (h : computeSplits R req memberIds = .ok splits)
    (hids : ∀ s ∈ splits, R.encodes s.userId = true) (hpayer : R.encodes req.payerId = true) :
    Takes R memberIds req ↔ (∀ s ∈ splits, s.userId ≠ req.payerId → 1 ≤ s.amountCents) ∧
      othersTotal req.payerId splits < 10 ^ maxStrDigits := by
  constructor
  · rintro ⟨splits', h', hpos, hhash⟩
    obtain rfl := Except.ok.inj (h.symm.trans h')
    exact ⟨hpos, (expense_hashable_iff hids hpayer hpos).mp hhash⟩
  · rintro ⟨hpos, hlt⟩
    exact ⟨splits, h, hpos, (expense_hashable_iff hids hpayer hpos).mpr hlt⟩

variable (ht : 1 ≤ req.totalCents) (hmembers : ∀ u ∈ memberIds, R.encodes u = true)
  (hpayer : req.payerId ∈ memberIds)

include ht hmembers hpayer

theorem takes_iff_of_equal (hnodup : memberIds.Nodup) (hequal : req.splitType = "EQUAL") :
    Takes R memberIds req ↔ NobodyLeftOut memberIds req ∧ WithinRange memberIds req := by
  have hsplits : computeSplits R req memberIds = .ok (splitEqual req.totalCents memberIds) := if_pos hequal
  have hids : ∀ s ∈ splitEqual req.totalCents memberIds, R.encodes s.userId = true := by
    intro s hs
    have hmem : s.userId ∈ (splitEqual req.totalCents memberIds).map (·.userId) := List.mem_map_of_mem hs
    rw [userIds_splitEqual] at hmem
    exact hmembers _ hmem
  have hexact : req.splitType ≠ "EXACT" := by rw [hequal]; decide
  have hpct : req.splitType ≠ "PERCENTAGE" := by rw [hequal]; decide
  rw [takes_iff_of_ok hsplits hids (hmembers _ hpayer), one_le_splitEqual_iff ht, NobodyLeftOut,
    WithinRange]
  simp only [if_neg hexact, if_neg hpct]
  apply and_congr_right'
  constructor
  · intro hlt i hi
    rw [othersTotal_splitEqual hnodup hi] at hlt
    exact hlt
  · intro hall
    obtain ⟨i, hi⟩ := List.getElem?_of_mem hpayer
    rw [othersTotal_splitEqual hnodup hi]
    exact hall i hi

theorem takes_iff_of_exact (hexact : req.splitType = "EXACT") (hv : ValidSplit memberIds req) :
    Takes R memberIds req ↔ NobodyLeftOut memberIds req ∧ WithinRange memberIds req := by
  rw [ValidSplit, if_pos hexact] at hv
  obtain ⟨inputs, hi, husers, hamounts, hsum⟩ := hv
  have hne : inputs ≠ [] := by
    rintro rfl
    rw [List.map_nil, List.sum_nil] at hsum
    omega
  have hsplits : computeSplits R req memberIds =
      .ok (inputs.map fun s => ⟨s.userId, s.amountCents.getD 0⟩) := by
    obtain ⟨s, rest, rfl⟩ := List.exists_cons_of_ne_nil hne
    rw [computeSplits, if_neg (by rw [hexact]; decide), if_pos hexact, hi]
    exact splitExact_of_some hamounts hsum
  have hids : ∀ s ∈ inputs.map fun s => (⟨s.userId, s.amountCents.getD 0⟩ : Split),
      R.encodes s.userId = true := by
    rw [List.forall_mem_map]
    exact fun s hs => hmembers _ (husers s hs)
  have hothers : othersTotal req.payerId (inputs.map fun s => ⟨s.userId, s.amountCents.getD 0⟩) =
      ((inputs.filter (·.userId ≠ req.payerId)).map (·.amountCents.getD 0)).sum := by
    rw [othersTotal_eq_sum, List.filter_map, List.map_map]
    rfl
  rw [takes_iff_of_ok hsplits hids (hmembers _ hpayer), one_le_exact_iff hamounts, hothers, NobodyLeftOut,
    WithinRange]
  simp only [if_pos hexact, hi, Option.getD_some]

theorem takes_iff_of_percentage (hpct : req.splitType = "PERCENTAGE") (hv : ValidSplit memberIds req) :
    Takes R memberIds req ↔ NobodyLeftOut memberIds req ∧ WithinRange memberIds req := by
  have hexact : req.splitType ≠ "EXACT" := by rw [hpct]; decide
  rw [ValidSplit, if_neg hexact, if_pos hpct] at hv
  obtain ⟨inputs, hi, hne, husers, hpcts⟩ := hv
  obtain ⟨pre, last, rfl⟩ : ∃ pre last, inputs = pre ++ [last] := by
    rcases List.eq_nil_or_concat inputs with rfl | ⟨pre, last, rfl⟩
    · exact absurd rfl hne
    · exact ⟨pre, last, List.concat_eq_append⟩
  have hgiven : ∀ s ∈ pre ++ [last], ∃ p, s.percentage = some p := by
    intro s hs
    obtain ⟨p, -, hp, -⟩ := hpcts s hs
    exact ⟨p, hp⟩
  have hcompute : computeSplits R req memberIds = splitPercentage R (pre ++ [last]) req.totalCents := by
    rw [computeSplits, if_neg (by rw [hpct]; decide), if_neg hexact, if_pos hpct, hi]
    -- the list is not empty, whether or not the last entry is the only one
    cases pre with
    | nil => rfl
    | cons s pre => rfl
  have hids : ∀ s ∈ percentSplits req.totalCents pre last, R.encodes s.userId = true := by
    intro s hs
    have hmem : s.userId ∈ (percentSplits req.totalCents pre last).map (·.userId) := List.mem_map_of_mem hs
    rw [userIds_percentSplits] at hmem
    obtain ⟨t, htm, hu⟩ := List.mem_map.mp hmem
    rw [← hu]
    exact hmembers _ (husers t htm)
  have hpass := percentagesPass_iff ht hgiven
  simp only [NobodyLeftOut, WithinRange, if_neg hexact, if_pos hpct, hi, Option.getD_some, forall_concat]
  by_cases hok : PercentagesPass req.totalCents pre last
  · obtain ⟨hsum, hf⟩ := hpass.mp hok
    have hsplits : computeSplits R req memberIds = .ok (percentSplits req.totalCents pre last) :=
      hcompute.trans (splitPercentage_eq_ok.mpr ⟨hok, rfl⟩)
    rw [takes_iff_of_ok hsplits hids (hmembers _ hpayer), one_le_percentSplits_iff ht hgiven hf,
      othersTotal_percentSplits]
    exact and_congr_right' ⟨fun h => ⟨hsum, hf, h⟩, fun h => h.2.2⟩
  · refine iff_of_false ?_ fun h => hok (hpass.mpr ⟨h.2.1, h.2.2.1⟩)
    rintro ⟨splits, hs, -⟩
    exact hok (splitPercentage_eq_ok.mp (hcompute.symm.trans hs)).1

theorem ValidSplit.takes_iff (hnodup : memberIds.Nodup) (hv : ValidSplit memberIds req) :
    Takes R memberIds req ↔ NobodyLeftOut memberIds req ∧ WithinRange memberIds req := by
  by_cases hexact : req.splitType = "EXACT"
  · exact takes_iff_of_exact ht hmembers hpayer hexact hv
  · by_cases hpct : req.splitType = "PERCENTAGE"
    · exact takes_iff_of_percentage ht hmembers hpayer hpct hv
    · have hequal : req.splitType = "EQUAL" := by
        rwa [ValidSplit, if_neg hexact, if_neg hpct] at hv
      exact takes_iff_of_equal ht hmembers hpayer hnodup hequal

end Checks

/-! ## Accepted requests -/

variable {R : Runtime} {req : CreateExpense} {w : World}

theorem ValidExpense.validate_eq {S : InMemoryStore} {group : GroupRecord}
    (h : ValidExpense S group req) : validate R req S = computeSplits R req group.memberIds := by
  have ht := h.total
  unfold validate
  rw [if_neg (by omega), h.found]
  simp only [List.ne_nil_of_mem h.payer, ↓reduceIte, h.payer, not_true_eq_false]

theorem createExpense_accepted_iff (R : Runtime) (req : CreateExpense) (w : World) :
    (∃ e, (createExpense R req w).1 = .ok e) ↔ ∃ splits, Accepts R req w splits := by
  constructor
  · rintro ⟨e, he⟩
    obtain ⟨splits, ha, _⟩ := createExpense_ok (Prod.ext he rfl)
    exact ⟨splits, ha⟩
  · rintro ⟨splits, ha⟩
    rw [createExpense_of_accepts ha]
    exact ⟨_, rfl⟩

theorem accepts_iff_of_headsEncode {splits : List Split} (hh : HeadsEncode R w.serviceLedger.accountHeads) :
    Accepts R req w splits ↔ validate R req w.store = .ok splits ∧ (req.call splits).Positive ∧
      (req.call splits).Hashable R := by
  constructor
  · rintro ⟨hv, j, hj⟩
    obtain ⟨hp, hhash, -⟩ := LedgerCall.exec_ok hj
    exact ⟨hv, hp, (LedgerCall.specs_hashable_iff hp).mp ((hashed_iff hh).mp hhash)⟩
  · rintro ⟨hv, hp, hhash⟩
    exact ⟨hv, LedgerCall.exec_of_hashable hh hp hhash⟩

theorem ValidExpense.accepted_iff {group : GroupRecord} (h : ValidExpense w.store group req)
    (hh : HeadsEncode R w.serviceLedger.accountHeads)
    (hmembers : ∀ u ∈ group.memberIds, R.encodes u = true) (hnodup : group.memberIds.Nodup) :
    (∃ e, (createExpense R req w).1 = .ok e) ↔
      NobodyLeftOut group.memberIds req ∧ WithinRange group.memberIds req := by
  rw [createExpense_accepted_iff, ← h.split.takes_iff h.total hmembers h.payer hnodup]
  simp only [accepts_iff_of_headsEncode hh, h.validate_eq]
  rfl

end ExpenseSettlement
