import ExpenseSettlement.Core.Greedy
import ExpenseSettlement.Core.Lemmas.Matching
import ExpenseSettlement.Lib.Payments

/-!
# The heap loop and the plain procedure

The heaps hold the credits and the debts of the remaining balances, so the items that are popped are
the ones that are scanned for. The payments clear the balances one after another.
-/

namespace ExpenseSettlement.Greedy

open Lib DebtSimplifier

/-! ## Scanning -/

/-- The tuple that the heaps hold for a user with an amount. -/
def item (p : String × ℤ) : HeapItem := toLex (-p.2, p.1)

@[simp] theorem amount_item (p : String × ℤ) : (item p).amount = p.2 := neg_neg p.2

@[simp] theorem uid_item (p : String × ℤ) : (item p).uid = p.1 := rfl

theorem item_lt {p q : String × ℤ} : item p < item q ↔ q.2 < p.2 ∨ (p.2 = q.2 ∧ p.1 < q.1) := by
  rw [item, item, Prod.Lex.toLex_lt_toLex, neg_lt_neg_iff, neg_inj]

theorem scan_eq_none {l : List (String × ℤ)} : scan l = none ↔ l = [] := by
  cases l with
  | nil => simp [scan]
  | cons p rest =>
      rw [scan]
      cases scan rest with
      | none => simp
      | some q =>
          dsimp only
          split
          · simp
          · simp

theorem item_le_of_scan {l : List (String × ℤ)} {p : String × ℤ} (h : scan l = some p) :
    ∀ q ∈ l, item p ≤ item q := by
  induction l generalizing p with
  | nil => cases h
  | cons q rest ih =>
      rw [scan] at h
      cases hr : scan rest with
      | none =>
          simp only [hr] at h
          cases h
          rw [scan_eq_none.mp hr]
          intro q' hq'
          rw [List.mem_singleton.mp hq']
      | some r =>
          simp only [hr] at h
          split at h
          · rename_i hfirst
            cases h
            have hle : item q ≤ item r := (item_lt.mpr hfirst).le
            intro q' hq'
            rcases List.mem_cons.mp hq' with rfl | hq'
            · exact le_refl _
            · exact hle.trans (ih hr q' hq')
          · rename_i hlater
            cases h
            have hle : item p ≤ item q := not_lt.mp fun hlt => hlater (item_lt.mp hlt)
            intro q' hq'
            rcases List.mem_cons.mp hq' with rfl | hq'
            · exact hle
            · exact ih hr q' hq'

theorem amount_le_of_scan {l : List (String × ℤ)} {p : String × ℤ} (h : scan l = some p) :
    ∀ q ∈ l, q.2 ≤ p.2 := by
  intro q hq
  have hle : -p.2 < -q.2 ∨ -p.2 = -q.2 ∧ p.1 ≤ q.1 := Prod.Lex.le_iff.mp (item_le_of_scan h q hq)
  omega

/-- A heap pops what a scan of its items finds. -/
theorem pop?_of_scan {h : Heap HeapItem} {l : List (String × ℤ)} (hl : h.items.Perm (l.map item))
    {p : String × ℤ} (hp : scan l = some p) : ∃ rest, h.pop? = some (item p, rest) := by
  apply Heap.pop?_eq_some
  · exact hl.mem_iff.mpr (List.mem_map_of_mem (mem_of_scan hp))
  · intro y hy
    obtain ⟨q, hq, rfl⟩ := List.mem_map.mp (hl.mem_iff.mp hy)
    exact item_le_of_scan hp q hq

theorem pop?_of_scan_none {h : Heap HeapItem} {l : List (String × ℤ)} (hl : h.items.Perm (l.map item))
    (hn : scan l = none) : h.pop? = none := by
  rw [Heap.pop?_eq_none]
  rw [scan_eq_none.mp hn] at hl
  exact hl.eq_nil

/-! ## Refinement -/

theorem credits_perm {l l' : List (String × ℤ)} (h : l.Perm l') : (credits l).Perm (credits l') :=
  h.filter _

theorem debts_perm {l l' : List (String × ℤ)} (h : l.Perm l') : (debts l).Perm (debts l') :=
  (h.filter _).map _

theorem credits_cons (p : String × ℤ) (l : List (String × ℤ)) :
    credits (p :: l) = if 0 < p.2 then p :: credits l else credits l := by
  simp [credits, List.filter_cons]

theorem debts_cons (p : String × ℤ) (l : List (String × ℤ)) :
    debts (p :: l) = if p.2 < 0 then (p.1, -p.2) :: debts l else debts l := by
  simp only [debts, List.filter_cons, decide_eq_true_eq]
  split
  · rfl
  · rfl

/-- The heaps hold what is left to receive and to pay. -/
structure Tracks (s : MatchState) (t : State) : Prop where
  creditors : s.creditors.items.Perm ((credits t.remaining.items).map item)
  debtors : s.debtors.items.Perm ((debts t.remaining.items).map item)
  settlements : s.settlements = t.settlements

theorem pushResidual_perm (h : Heap HeapItem) (p : String × ℤ) :
    (pushResidual h p.2 p.1).items.Perm (if 0 < p.2 then item p :: h.items else h.items) := by
  rw [pushResidual]
  split
  · exact h.push_perm (item p)
  · exact .refl _

theorem Tracks.done {s : MatchState} {t : State} (h : Tracks s t) (ht : step t = none) :
    matchStep s = none := by
  rw [step] at ht
  rw [matchStep]
  cases hc : t.largestCredit with
  | none => rw [pop?_of_scan_none h.creditors hc]
  | some c =>
      cases hd : t.largestDebt with
      | none =>
          rw [pop?_of_scan_none h.debtors hd]
          cases s.creditors.pop? with
          | none => rfl
          | some p => rfl
      | some d =>
          rw [hc, hd] at ht
          cases ht

theorem Tracks.step {s : MatchState} {t t' : State} (h : Tracks s t) (ht : Greedy.step t = some t') :
    ∃ s', matchStep s = some s' ∧ Tracks s' t' := by
  obtain ⟨creditor, debtor, credit, debt, others, hp⟩ := step_eq_some ht
  obtain ⟨creditors, hc⟩ := pop?_of_scan h.creditors hp.largestCredit
  obtain ⟨debtors, hd⟩ := pop?_of_scan h.debtors hp.largestDebt
  have hcredit := hp.credit_pos
  have hdebt := hp.debt_pos
  refine ⟨_, by rw [matchStep, hc, hd], ?_⟩
  rw [matchPair_eq (by simpa using hcredit) (by simpa using hdebt)]
  have hcreditors : creditors.items.Perm ((credits others).map item) := by
    have hall := h.creditors.trans ((credits_perm hp.before).map item)
    rw [Heap.pop?_items hc, credits_cons, if_pos hcredit, credits_cons,
      if_neg (by dsimp only; omega)] at hall
    exact hall.cons_inv
  have hdebtors : debtors.items.Perm ((debts others).map item) := by
    have hall := h.debtors.trans ((debts_perm hp.before).map item)
    rw [Heap.pop?_items hd, debts_cons, if_neg (by dsimp only; omega), debts_cons,
      if_pos (by dsimp only; omega), neg_neg] at hall
    exact hall.cons_inv
  simp only [amount_item, uid_item]
  constructor
  · apply (pushResidual_perm creditors (creditor, credit - min credit debt)).trans
    refine List.Perm.trans ?_ ((credits_perm hp.after).map item).symm
    rw [credits_cons, credits_cons (debtor, _), if_neg (by omega : ¬ 0 < min credit debt - debt)]
    split
    · exact hcreditors.cons _
    · exact hcreditors
  · apply (pushResidual_perm debtors (debtor, debt - min credit debt)).trans
    refine List.Perm.trans ?_ ((debts_perm hp.after).map item).symm
    rw [debts_cons, if_neg (by omega : ¬ credit - min credit debt < 0), debts_cons]
    rcases lt_or_ge (min credit debt) debt with hlt | hge
    · rw [if_pos (by dsimp only; omega), if_pos (by dsimp only; omega), neg_sub]
      exact hdebtors.cons _
    · rw [if_neg (by dsimp only; omega), if_neg (by dsimp only; omega)]
      exact hdebtors
  · rw [hp.settlements, h.settlements]

theorem buildHeaps_perm (items : List (String × ℤ)) :
    (buildHeaps items).1.items.Perm ((credits items).map item) ∧
      (buildHeaps items).2.items.Perm ((debts items).map item) := by
  induction items using List.reverseRecOn with
  | nil => exact ⟨.refl _, .refl _⟩
  | append_singleton items p ih =>
      obtain ⟨uid, n⟩ := p
      have hcredits := (credits_perm (List.perm_append_singleton (uid, n) items)).map item
      have hdebts := (debts_perm (List.perm_append_singleton (uid, n) items)).map item
      rw [credits_cons] at hcredits
      rw [debts_cons] at hdebts
      dsimp only at hcredits hdebts
      rw [buildHeaps_append]
      split
      · rename_i hpos
        rw [if_pos hpos] at hcredits
        rw [if_neg (by omega)] at hdebts
        exact ⟨((Heap.push_perm _ _).trans (ih.1.cons _)).trans hcredits.symm, ih.2.trans hdebts.symm⟩
      · rename_i hpos
        rw [if_neg hpos] at hcredits
        split
        · rename_i hneg
          rw [if_pos hneg, List.map_cons, item, neg_neg] at hdebts
          exact ⟨ih.1.trans hcredits.symm, ((Heap.push_perm _ _).trans (ih.2.cons _)).trans hdebts.symm⟩
        · rename_i hneg
          rw [if_neg hneg] at hdebts
          exact ⟨ih.1.trans hcredits.symm, ih.2.trans hdebts.symm⟩

theorem tracks_start (netBalances : Dict String ℤ) :
    Tracks (initialState netBalances) (start netBalances) where
  creditors := (buildHeaps_perm netBalances.items).1
  debtors := (buildHeaps_perm netBalances.items).2
  settlements := rfl

/-- The heap loop is the plain procedure. -/
theorem settle_eq_plan (netBalances : Dict String ℤ) : settle netBalances = plan netBalances :=
  (Loop.run_simulates (fun _ _ h => h.done) (fun _ _ _ h => h.step) (tracks_start netBalances)).settlements

/-- The heaps do not know in which order the balances came. -/
theorem initialState_congr {d e : Dict String ℤ} (h : d.items.Perm e.items) :
    initialState d = initialState e := by
  have hd := buildHeaps_perm d.items
  have he := buildHeaps_perm e.items
  have hheaps : buildHeaps d.items = buildHeaps e.items := by
    apply Prod.ext
    · exact Heap.eq_of_perm ((hd.1.trans ((credits_perm h).map item)).trans he.1.symm)
    · exact Heap.eq_of_perm ((hd.2.trans ((debts_perm h).map item)).trans he.2.symm)
  rw [initialState, hheaps, initialState]

end ExpenseSettlement.Greedy
