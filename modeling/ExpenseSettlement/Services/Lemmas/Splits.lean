import ExpenseSettlement.Services.Lemmas.CreateExpense
import Mathlib.Algebra.Order.Group.Abs

/-!
# What the split modes give

The shares add up to the total in every mode. A share is an input amount, a truncated percentage of
the total, or what the others leave of it.
-/

namespace ExpenseSettlement

open Lib LedgerEngine

/-! ## EQUAL -/

theorem sum_zipIdx_shares (base remainder : ℤ) (userIds : List String) (k : Nat) :
    sumAmounts ((userIds.zipIdx k).map fun (uid, i) =>
        (⟨uid, base + if (i : ℤ) < remainder then 1 else 0⟩ : Split)) =
      userIds.length * base + (min remainder (k + userIds.length) - min remainder k) := by
  induction userIds generalizing k with
  | nil => simp [sumAmounts]
  | cons uid userIds ih =>
      have hstep := ih (k + 1)
      rw [sumAmounts] at hstep ⊢
      rw [List.zipIdx_cons, List.map_cons, List.map_cons, List.sum_cons, hstep, List.length_cons]
      push_cast
      have hcount : (if (k : ℤ) < remainder then 1 else 0) +
          (min remainder (k + 1 + userIds.length) - min remainder (k + 1)) =
          min remainder (k + (userIds.length + 1)) - min remainder k := by
        split <;> omega
      rw [← hcount]
      ring

theorem sum_splitEqual (totalCents : ℤ) {userIds : List String} (h : userIds ≠ []) :
    sumAmounts (splitEqual totalCents userIds) = totalCents := by
  have hn : 0 < (userIds.length : ℤ) := by exact_mod_cast List.length_pos_iff.mpr h
  have hr := Int.emod_nonneg totalCents hn.ne'
  have hlt := Int.emod_lt_of_pos totalCents hn
  have hdiv := Int.mul_ediv_add_emod totalCents userIds.length
  rw [splitEqual, sum_zipIdx_shares]
  omega

theorem splitEqual_nonneg {totalCents : ℤ} (h : 1 ≤ totalCents) {userIds : List String} {s : Split}
    (hs : s ∈ splitEqual totalCents userIds) : 0 ≤ s.amountCents := by
  obtain ⟨⟨uid, i⟩, _, rfl⟩ := List.mem_map.mp hs
  have hbase : 0 ≤ totalCents / (userIds.length : ℤ) := Int.ediv_nonneg (by omega) (by omega)
  dsimp only
  split <;> omega

theorem userIds_splitEqual (totalCents : ℤ) (userIds : List String) :
    (splitEqual totalCents userIds).map (·.userId) = userIds := by
  simp only [splitEqual, List.map_map]
  exact List.zipIdx_map_fst 0 userIds

/-- Every member has one share. The shares are as equal as they can be, and the earlier members have
the larger ones. -/
structure SharedEvenly (memberIds : List String) (splits : List Split) : Prop where
  userIds : splits.map (·.userId) = memberIds
  nodup : memberIds.Nodup
  close : ∀ s ∈ splits, ∀ t ∈ splits, |s.amountCents - t.amountCents| ≤ 1
  ordered : splits.Pairwise fun s t => t.amountCents ≤ s.amountCents

theorem splitEqual_close {totalCents : ℤ} {userIds : List String} {s t : Split}
    (hs : s ∈ splitEqual totalCents userIds) (ht : t ∈ splitEqual totalCents userIds) :
    |s.amountCents - t.amountCents| ≤ 1 := by
  obtain ⟨⟨_, i⟩, _, rfl⟩ := List.mem_map.mp hs
  obtain ⟨⟨_, j⟩, _, rfl⟩ := List.mem_map.mp ht
  rw [abs_le]
  dsimp only
  constructor
  · split <;> split <;> omega
  · split <;> split <;> omega

theorem splitEqual_ordered (totalCents : ℤ) (userIds : List String) :
    (splitEqual totalCents userIds).Pairwise fun s t => t.amountCents ≤ s.amountCents := by
  rw [splitEqual, List.pairwise_map, List.pairwise_iff_getElem]
  intro i j hi hj hij
  simp only [List.getElem_zipIdx, zero_add]
  -- a member who gets no extra cent is followed by none who does
  split <;> split <;> omega

theorem SharedEvenly.of_splitEqual (totalCents : ℤ) {memberIds : List String} (h : memberIds.Nodup) :
    SharedEvenly memberIds (splitEqual totalCents memberIds) where
  userIds := userIds_splitEqual totalCents memberIds
  nodup := h
  close := fun _ hs _ ht => splitEqual_close hs ht
  ordered := splitEqual_ordered totalCents memberIds

/-! ## EXACT -/

section Inputs

variable {α : Type}

theorem exactShares_ok {inputs : List (SplitInput α)} {splits : List Split}
    (h : exactShares inputs = .ok splits) :
    splits = inputs.map fun s => ⟨s.userId, s.amountCents.getD 0⟩ := by
  induction inputs generalizing splits with
  | nil => cases h; rfl
  | cons s inputs ih =>
      unfold exactShares at h
      cases hs : s.amountCents with
      | none => simp only [hs] at h; cases h
      | some amount =>
          cases hr : exactShares inputs with
          | error e => simp only [hs, hr] at h; cases h
          | ok rest =>
              simp only [hs, hr] at h
              cases h
              rw [List.map_cons, ih hr, hs]
              rfl

theorem splitExact_ok {inputs : List (SplitInput α)} {totalCents : ℤ} {splits : List Split}
    (h : splitExact inputs totalCents = .ok splits) :
    splits = (inputs.map fun s => ⟨s.userId, s.amountCents.getD 0⟩) ∧
      sumAmounts splits = totalCents := by
  unfold splitExact at h
  cases hx : exactShares inputs with
  | error e => simp only [hx] at h; cases h
  | ok given =>
      simp only [hx] at h
      by_cases hsum : sumAmounts given = totalCents
      · rw [if_neg (not_not.mpr hsum)] at h
        cases h
        exact ⟨exactShares_ok hx, hsum⟩
      · rw [if_pos hsum] at h
        cases h

/-! ## PERCENTAGE -/

/-- These are the users of the entries with their percentages. -/
def Listed (inputs : List (SplitInput α)) (pcts : List (String × α)) : Prop :=
  inputs.map (fun s => (s.userId, s.percentage)) = pcts.map fun p => (p.1, some p.2)

theorem Listed.percentagesOf {inputs : List (SplitInput α)} {pcts : List (String × α)}
    (h : Listed inputs pcts) : percentagesOf inputs = .ok pcts := by
  unfold Listed at h
  induction inputs generalizing pcts with
  | nil =>
      rw [List.map_nil, eq_comm, List.map_eq_nil_iff] at h
      rw [h]
      rfl
  | cons s inputs ih =>
      cases pcts with
      | nil => cases h
      | cons p pcts =>
          rw [List.map_cons, List.map_cons, List.cons.injEq, Prod.mk.injEq] at h
          obtain ⟨⟨huser, hp⟩, hrest⟩ := h
          simp only [ExpenseSettlement.percentagesOf, hp, ih hrest, huser]

theorem listed_of_percentagesOf {inputs : List (SplitInput α)} {pcts : List (String × α)}
    (h : percentagesOf inputs = .ok pcts) : Listed inputs pcts := by
  unfold Listed
  induction inputs generalizing pcts with
  | nil => cases h; rfl
  | cons s inputs ih =>
      unfold percentagesOf at h
      cases hs : s.percentage with
      | none => simp only [hs] at h; cases h
      | some q =>
          cases hr : percentagesOf inputs with
          | error e => simp only [hs, hr] at h; cases h
          | ok rest =>
              simp only [hs, hr] at h
              cases h
              rw [List.map_cons, ih hr, hs]
              rfl

/-- The percentages of a list in which every entry has one. -/
theorem exists_listed {inputs : List (SplitInput α)} (h : ∀ s ∈ inputs, ∃ p, s.percentage = some p) :
    ∃ pcts, Listed inputs pcts := by
  unfold Listed
  induction inputs with
  | nil => exact ⟨[], rfl⟩
  | cons s inputs ih =>
      rw [List.forall_mem_cons] at h
      obtain ⟨⟨p, hp⟩, hrest⟩ := h
      obtain ⟨pcts, hpcts⟩ := ih hrest
      exact ⟨(s.userId, p) :: pcts, by rw [List.map_cons, List.map_cons, hpcts, hp]⟩

namespace Listed

variable {inputs : List (SplitInput α)} {pcts : List (String × α)}

theorem forall_some (h : Listed inputs pcts) : ∀ s ∈ inputs, ∃ p, s.percentage = some p := by
  intro s hs
  have hmem : (s.userId, s.percentage) ∈ inputs.map fun s => (s.userId, s.percentage) :=
    List.mem_map_of_mem hs
  rw [h] at hmem
  obtain ⟨p, -, hp⟩ := List.mem_map.mp hmem
  exact ⟨p.2, (Prod.mk.inj hp).2.symm⟩

theorem filterMap (h : Listed inputs pcts) : inputs.filterMap (·.percentage) = pcts.map Prod.snd := by
  have hsnd : (inputs.map fun s => (s.userId, s.percentage)).filterMap Prod.snd =
      (pcts.map fun p => (p.1, some p.2)).filterMap Prod.snd := by rw [h]
  simpa [List.filterMap_map, Function.comp_def] using hsnd

theorem map (h : Listed inputs pcts) {β : Type} (f : String → Option α → β) :
    inputs.map (fun s => f s.userId s.percentage) = pcts.map fun p => f p.1 (some p.2) := by
  have hf : (inputs.map fun s => (s.userId, s.percentage)).map (fun q => f q.1 q.2) =
      (pcts.map fun p => (p.1, some p.2)).map fun q => f q.1 q.2 := by rw [h]
  simpa [List.map_map, Function.comp_def] using hf

theorem forall_percentage (h : Listed inputs pcts) {P : α → Prop} :
    (∀ s ∈ inputs, ∀ p ∈ s.percentage, P p) ↔ ∀ p ∈ pcts, P p.2 := by
  have hall := h.filterMap
  constructor
  · intro hs p hp
    have hmem : p.2 ∈ inputs.filterMap (·.percentage) := by
      rw [hall]
      exact List.mem_map_of_mem hp
    obtain ⟨s, hs', hsp⟩ := List.mem_filterMap.mp hmem
    exact hs s hs' p.2 hsp
  · intro hp s hs p hsp
    have hmem : p ∈ pcts.map Prod.snd := by
      rw [← hall]
      exact List.mem_filterMap.mpr ⟨s, hs, hsp⟩
    obtain ⟨q, hq, rfl⟩ := List.mem_map.mp hmem
    exact hp q hq

theorem of_concat {pre : List (SplitInput α)} {last : SplitInput α} (h : Listed (pre ++ [last]) pcts) :
    ∃ front p, pcts = front ++ [(last.userId, p)] ∧ Listed pre front ∧ last.percentage = some p := by
  rw [Listed, List.map_append, List.map_singleton] at h
  obtain ⟨front, back, rfl, hfront, hback⟩ := List.append_eq_map_iff.mp h
  obtain ⟨q, rfl, hq⟩ := List.map_eq_singleton_iff.mp hback
  obtain ⟨hu, hp⟩ := Prod.mk.inj hq
  exact ⟨front, q.2, by rw [← hu], hfront.symm, hp.symm⟩

end Listed

variable [Percentage α]

/-- The cents of a percentage, where the computation of its share returns. -/
def Percentage.cents (totalCents : ℤ) (p : α) : ℤ :=
  match Percentage.share totalCents p with
  | .ok amount => amount
  | .error _ => 0

def SplitInput.cents (totalCents : ℤ) (s : SplitInput α) : ℤ :=
  (s.percentage.map (Percentage.cents totalCents)).getD 0

/-- Every share but the last is a percentage of the total, and the last is what they leave. -/
def percentSplits (totalCents : ℤ) (pre : List (SplitInput α)) (last : SplitInput α) : List Split :=
  pre.map (fun s => ⟨s.userId, s.cents totalCents⟩) ++
    [⟨last.userId, totalCents - (pre.map (·.cents totalCents)).sum⟩]

/-- The percentages pass the check, and each of them but the last gives a share. -/
structure PercentagesPass (totalCents : ℤ) (pre : List (SplitInput α)) (last : SplitInput α) : Prop where
  given : ∀ s ∈ pre ++ [last], ∃ p, s.percentage = some p
  sum : Percentage.missesHundred (Percentage.sum ((pre ++ [last]).filterMap (·.percentage))) = false
  shares : ∀ s ∈ pre, ∀ p ∈ s.percentage, ∃ amount, Percentage.share totalCents p = .ok amount

theorem Percentage.share_eq_cents {totalCents : ℤ} {p : α} {amount : ℤ}
    (h : Percentage.share totalCents p = .ok amount) : Percentage.cents totalCents p = amount := by
  unfold Percentage.cents
  rw [h]

theorem percentShares_of_error {totalCents allocated : ℤ} {uid : String} {p : α} {pre : List (String × α)}
    {last : String × α} {e : PyError} (h : Percentage.share totalCents p = .error e) :
    percentShares totalCents ((uid, p) :: (pre ++ [last])) allocated = .error e := by
  cases pre <;> simp only [List.nil_append, List.cons_append, percentShares, h]

theorem percentShares_of_ok {totalCents allocated amt : ℤ} {uid : String} {p : α} {pre : List (String × α)}
    {last : String × α} (h : Percentage.share totalCents p = .ok amt) :
    percentShares totalCents ((uid, p) :: (pre ++ [last])) allocated =
      (percentShares totalCents (pre ++ [last]) (allocated + amt)).map (⟨uid, amt⟩ :: ·) := by
  have hrest : ∀ q rest, percentShares totalCents ((uid, p) :: q :: rest) allocated =
      (percentShares totalCents (q :: rest) (allocated + amt)).map (⟨uid, amt⟩ :: ·) := by
    intro q rest
    rw [percentShares, h]
    dsimp only
    cases percentShares totalCents (q :: rest) (allocated + amt) <;> rfl
  cases pre with
  | nil => exact hrest last []
  | cons q pre => exact hrest q (pre ++ [last])

theorem percentShares_eq_ok {totalCents : ℤ} {pre : List (String × α)} {last : String × α}
    {allocated : ℤ} {splits : List Split} :
    percentShares totalCents (pre ++ [last]) allocated = .ok splits ↔
      (∀ p ∈ pre, ∃ amount, Percentage.share totalCents p.2 = .ok amount) ∧
      splits = pre.map (fun p => ⟨p.1, Percentage.cents totalCents p.2⟩) ++
        [⟨last.1, totalCents - (allocated + (pre.map fun p => Percentage.cents totalCents p.2).sum)⟩] := by
  induction pre generalizing allocated splits with
  | nil => simp [percentShares, eq_comm]
  | cons q pre ih =>
      obtain ⟨uid, p⟩ := q
      rw [List.cons_append, List.forall_mem_cons]
      cases hs : Percentage.share totalCents p with
      | error e =>
          rw [percentShares_of_error hs]
          refine iff_of_false (fun h => by cases h) ?_
          rintro ⟨⟨⟨_, h⟩, -⟩, -⟩
          cases h
      | ok amt =>
          rw [percentShares_of_ok hs]
          have hcents := Percentage.share_eq_cents hs
          simp only [List.map_cons, List.sum_cons, hcents, ← add_assoc]
          cases hr : percentShares totalCents (pre ++ [last]) (allocated + amt) with
          | error e =>
              refine iff_of_false (fun h => by cases h) ?_
              rintro ⟨⟨-, hall⟩, -⟩
              have hok : percentShares totalCents (pre ++ [last]) (allocated + amt) = .ok _ :=
                ih.mpr ⟨hall, rfl⟩
              rw [hr] at hok
              cases hok
          | ok rest =>
              obtain ⟨hall, rfl⟩ := ih.mp hr
              constructor
              · intro h
                cases h
                exact ⟨⟨⟨_, rfl⟩, hall⟩, rfl⟩
              · rintro ⟨-, rfl⟩
                rfl

theorem splitPercentage_eq_ok {R : Runtime} {totalCents : ℤ} {pre : List (SplitInput α)}
    {last : SplitInput α} {splits : List Split} :
    splitPercentage R (pre ++ [last]) totalCents = .ok splits ↔
      PercentagesPass totalCents pre last ∧ splits = percentSplits totalCents pre last := by
  by_cases hgiven : ∀ s ∈ pre ++ [last], ∃ p, s.percentage = some p
  · obtain ⟨pcts, hpcts⟩ := exists_listed hgiven
    obtain ⟨front, p, rfl, hfront, -⟩ := hpcts.of_concat
    have hcents : pre.map (·.cents totalCents) = front.map fun p => Percentage.cents totalCents p.2 :=
      hfront.map fun _ p? => (p?.map (Percentage.cents totalCents)).getD 0
    have hshares : pre.map (fun s => (⟨s.userId, s.cents totalCents⟩ : Split)) =
        front.map fun p => ⟨p.1, Percentage.cents totalCents p.2⟩ :=
      hfront.map fun uid p? => (⟨uid, (p?.map (Percentage.cents totalCents)).getD 0⟩ : Split)
    rw [splitPercentage, hpcts.percentagesOf]
    dsimp only
    rw [← hpcts.filterMap]
    cases hm : Percentage.missesHundred (Percentage.sum ((pre ++ [last]).filterMap (·.percentage))) with
    | true =>
        refine iff_of_false (fun h => by cases h) ?_
        rintro ⟨⟨-, hs, -⟩, -⟩
        rw [hm] at hs
        cases hs
    | false =>
        have hall : (∀ s ∈ pre, ∀ p ∈ s.percentage, ∃ amount, Percentage.share totalCents p = .ok amount) ↔
            ∀ p ∈ front, ∃ amount, Percentage.share totalCents p.2 = .ok amount := hfront.forall_percentage
        rw [if_neg Bool.false_ne_true, percentShares_eq_ok, ← hall, percentSplits, hcents, hshares, zero_add]
        exact and_congr_left fun _ => ⟨fun h => ⟨hgiven, hm, h⟩, fun h => h.shares⟩
  · refine iff_of_false ?_ fun h => hgiven h.1.given
    intro h
    rw [splitPercentage] at h
    cases hp : percentagesOf (pre ++ [last]) with
    | error e => rw [hp] at h; cases h
    | ok pcts => exact hgiven (listed_of_percentagesOf hp).forall_some

theorem forall_concat {α : Type} {P : List α → α → Prop} {pre : List α} {last : α} :
    (∀ pre' last', pre ++ [last] = pre' ++ [last'] → P pre' last') ↔ P pre last := by
  constructor
  · intro h
    exact h pre last rfl
  · intro h pre' last' heq
    obtain ⟨rfl, hl⟩ := List.append_inj' heq rfl
    cases hl
    exact h

theorem splitPercentage_ok {R : Runtime} {inputs : List (SplitInput α)} {totalCents : ℤ}
    {splits : List Split} (hne : inputs ≠ []) (h : splitPercentage R inputs totalCents = .ok splits) :
    ∃ pre last, inputs = pre ++ [last] ∧ PercentagesPass totalCents pre last ∧
      splits = percentSplits totalCents pre last := by
  rcases List.eq_nil_or_concat inputs with rfl | ⟨pre, last, rfl⟩
  · exact absurd rfl hne
  · rw [List.concat_eq_append] at h ⊢
    exact ⟨pre, last, rfl, splitPercentage_eq_ok.mp h⟩

theorem sum_percentSplits (totalCents : ℤ) (pre : List (SplitInput α)) (last : SplitInput α) :
    sumAmounts (percentSplits totalCents pre last) = totalCents := by
  simp only [sumAmounts, percentSplits, List.map_append, List.map_map, List.map_singleton,
    List.sum_append, List.sum_singleton, Function.comp_def]
  ring

theorem userIds_percentSplits (totalCents : ℤ) (pre : List (SplitInput α)) (last : SplitInput α) :
    (percentSplits totalCents pre last).map (·.userId) = (pre ++ [last]).map (·.userId) := by
  simp [percentSplits]

end Inputs

/-- Truncation keeps a share that is short of minus one cent from below at zero. -/
theorem truncate_nonneg_iff (x : ℚ) : 0 ≤ truncate x ↔ -1 < x := by
  have hden : (0 : ℤ) < x.den := by exact_mod_cast x.den_pos
  have hlt : -1 < x ↔ -(x.den : ℤ) < x.num := by
    rw [Rat.lt_iff]
    simp
  rw [hlt, truncate]
  rcases le_or_gt 0 x.num with h | h
  · exact ⟨fun _ => by omega, fun _ => Int.tdiv_nonneg h hden.le⟩
  · have hneg : x.num.tdiv x.den = -((-x.num) / x.den) := by
      rw [← Int.tdiv_eq_ediv_of_nonneg (by omega), Int.neg_tdiv, neg_neg]
    rw [hneg]
    constructor
    · intro hle
      have hq : (-x.num) / (x.den : ℤ) < 1 := by omega
      have := Int.lt_mul_of_ediv_lt hden hq
      omega
    · intro hlt
      have : (-x.num) / (x.den : ℤ) = 0 := Int.ediv_eq_zero_of_lt (by omega) (by omega)
      omega

theorem share_eq_ok {totalCents : ℤ} {p : Float} {amount : ℤ} :
    Percentage.share totalCents p = .ok amount ↔ |totalCents| < floatLimit ∧
      ∃ v, Binary64.value? (floatShare totalCents p) = some v ∧ truncate v = amount := by
  have hshare : Percentage.share totalCents p = if floatLimit ≤ |totalCents| then .error .overflowError
    else intOfFloat (floatShare totalCents p) := rfl
  rw [hshare]
  by_cases hlimit : floatLimit ≤ |totalCents|
  · rw [if_pos hlimit]
    exact iff_of_false (fun h => by cases h) fun h => absurd h.1 (not_lt.mpr hlimit)
  · rw [if_neg hlimit, intOfFloat]
    cases Binary64.value? (floatShare totalCents p) with
    | none =>
        refine iff_of_false ?_ ?_
        · dsimp only
          intro h
          split at h <;> cases h
        · rintro ⟨-, _, h, -⟩
          cases h
    | some v => simp [not_le.mp hlimit]

/-! ## The mode of a request -/

theorem computeSplits_cases {R : Runtime} {req : CreateExpense} {memberIds : List String}
    {splits : List Split} (h : computeSplits R req memberIds = .ok splits) :
    (req.splitType = "EQUAL" ∧ splits = splitEqual req.totalCents memberIds) ∨
    (∃ inputs, inputs ≠ [] ∧ req.splitsInput = some inputs ∧
      ((req.splitType = "EXACT" ∧ splitExact inputs req.totalCents = .ok splits) ∨
        (req.splitType = "PERCENTAGE" ∧ splitPercentage R inputs req.totalCents = .ok splits))) := by
  unfold computeSplits at h
  by_cases hequal : req.splitType = "EQUAL"
  · rw [if_pos hequal] at h
    cases h
    exact Or.inl ⟨hequal, rfl⟩
  · rw [if_neg hequal] at h
    refine Or.inr ?_
    by_cases hexact : req.splitType = "EXACT"
    · rw [if_pos hexact] at h
      rcases hi : req.splitsInput with _ | _ | ⟨s, rest⟩ <;> simp only [hi] at h
      · cases h
      · cases h
      · exact ⟨s :: rest, List.cons_ne_nil _ _, rfl, Or.inl ⟨hexact, h⟩⟩
    · rw [if_neg hexact] at h
      by_cases hpct : req.splitType = "PERCENTAGE"
      · rw [if_pos hpct] at h
        rcases hi : req.splitsInput with _ | _ | ⟨s, rest⟩ <;> simp only [hi] at h
        · cases h
        · cases h
        · exact ⟨s :: rest, List.cons_ne_nil _ _, rfl, Or.inr ⟨hpct, h⟩⟩
      · rw [if_neg hpct] at h
        cases h

theorem sum_computeSplits {R : Runtime} {req : CreateExpense} {memberIds : List String}
    {splits : List Split} (hm : memberIds ≠ []) (h : computeSplits R req memberIds = .ok splits) :
    sumAmounts splits = req.totalCents := by
  rcases computeSplits_cases h with ⟨_, rfl⟩ | ⟨inputs, hne, _, ⟨_, hx⟩ | ⟨_, hp⟩⟩
  · exact sum_splitEqual _ hm
  · exact (splitExact_ok hx).2
  · obtain ⟨pre, last, -, -, rfl⟩ := splitPercentage_ok hne hp
    exact sum_percentSplits _ pre last

end ExpenseSettlement
