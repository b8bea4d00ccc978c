import ExpenseSettlement.Core.DebtSimplifier
import ExpenseSettlement.Core.LedgerEngine
import Mathlib.Algebra.Order.BigOperators.Group.List
import Mathlib.Tactic.Ring

/-!
# The closed form of `compute_net_balances`

The accumulated dictionary gives every user what others owe them less what they owe others, and it
conserves money. It stays as it is when the transactions that are added cancel.
-/

namespace ExpenseSettlement

open Lib LedgerEngine

def shareOf (u : String) (splits : List Split) : ℤ :=
  (splits.map fun s => if s.userId = u then s.amountCents else 0).sum

/-- What one transaction does to a user: the payer is owed the others' shares, anybody else owes
their own. -/
def netOf (u : String) (tx : Transaction) : ℤ :=
  if tx.payerId = u then othersTotal u tx.splits else -shareOf u tx.splits

/-- The users whom a transaction puts into the balances. -/
def involved (tx : Transaction) : List String := tx.splits.flatMap fun s => [tx.payerId, s.userId]

theorem netOf_of_not_involved {u : String} {tx : Transaction} (h : u ∉ involved tx) : netOf u tx = 0 := by
  obtain ⟨payer, splits⟩ := tx
  induction splits with
  | nil => simp [netOf, othersTotal, shareOf]
  | cons split splits ih =>
      simp only [involved, List.flatMap_cons, List.mem_append, not_or, List.mem_cons, List.not_mem_nil,
        or_false] at h ih
      obtain ⟨⟨hp, hs⟩, hrest⟩ := h
      have hnet := ih hrest
      simp only [netOf, Ne.symm hp, ↓reduceIte, shareOf, List.map_cons, List.sum_cons] at hnet ⊢
      simp only [Ne.symm hs, ↓reduceIte, zero_add]
      exact hnet

/-! ## Signed debts -/

/-- What others owe a user: their shares of what the user paid. -/
def owedTo (u : String) (txs : List Transaction) : ℤ :=
  ((((txs.filter (·.payerId = u)).flatMap (·.splits)).filter (·.userId ≠ u)).map (·.amountCents)).sum

/-- What a user owes others: the user's shares of what they paid. -/
def owedBy (u : String) (txs : List Transaction) : ℤ :=
  ((((txs.filter (·.payerId ≠ u)).flatMap (·.splits)).filter (·.userId = u)).map (·.amountCents)).sum

theorem othersTotal_eq_sum (u : String) (splits : List Split) :
    othersTotal u splits = ((splits.filter (·.userId ≠ u)).map (·.amountCents)).sum := by
  induction splits with
  | nil => rfl
  | cons split splits ih =>
      rw [othersTotal, ih]
      split
      · rename_i hu
        simp [hu]
      · rename_i hu
        simp [hu]

theorem amount_le_othersTotal {payerId : String} {splits : List Split}
    (h : ∀ s ∈ splits, s.userId ≠ payerId → 1 ≤ s.amountCents) {s : Split} (hs : s ∈ splits)
    (hne : s.userId ≠ payerId) : s.amountCents ≤ othersTotal payerId splits := by
  have hnonneg : ∀ a ∈ (splits.filter (·.userId ≠ payerId)).map (·.amountCents), 0 ≤ a := by
    intro a ha
    obtain ⟨t, ht, rfl⟩ := List.mem_map.mp ha
    obtain ⟨ht, htne⟩ := List.mem_filter.mp ht
    exact Int.le_of_lt (h t ht (by simpa using htne))
  rw [othersTotal_eq_sum]
  exact List.single_le_sum hnonneg _ (List.mem_map_of_mem (List.mem_filter.mpr ⟨hs, by simpa using hne⟩))

theorem shareOf_eq_sum (u : String) (splits : List Split) :
    shareOf u splits = ((splits.filter (·.userId = u)).map (·.amountCents)).sum := by
  induction splits with
  | nil => rfl
  | cons split splits ih =>
      rw [shareOf] at ih ⊢
      rw [List.map_cons, List.sum_cons, ih]
      split
      · rename_i hu
        simp [hu]
      · rename_i hu
        simp [hu]

theorem sum_netOf (u : String) (txs : List Transaction) :
    (txs.map (netOf u)).sum = owedTo u txs - owedBy u txs := by
  induction txs with
  | nil => rfl
  | cons tx txs ih =>
      rw [List.map_cons, List.sum_cons, ih, netOf, othersTotal_eq_sum, shareOf_eq_sum]
      simp only [owedTo, owedBy, List.filter_cons]
      split
      · rename_i hp
        simp only [hp, decide_true, ↓reduceIte, List.flatMap_cons, List.filter_append, List.map_append,
          List.sum_append, ne_eq, not_true_eq_false, decide_false, Bool.false_eq_true]
        ring
      · rename_i hp
        simp only [hp, decide_true, ↓reduceIte, List.flatMap_cons, List.filter_append, List.map_append,
          List.sum_append, ne_eq, not_false_eq_true, decide_false, Bool.false_eq_true]
        ring

/-! ## Reordering -/

/-- The same transactions in another order, each with its splits in another order. -/
def Reordered (txs txs' : List Transaction) : Prop :=
  ∃ mid, List.Forall₂ (fun tx tx' => tx.payerId = tx'.payerId ∧ tx.splits.Perm tx'.splits) txs mid ∧
    mid.Perm txs'

theorem mem_involved_perm {u : String} {tx tx' : Transaction} (hp : tx.payerId = tx'.payerId)
    (hs : tx.splits.Perm tx'.splits) : u ∈ involved tx ↔ u ∈ involved tx' := by
  rw [involved, involved, hp]
  exact (hs.flatMap_right _).mem_iff

theorem netOf_perm {u : String} {tx tx' : Transaction} (hp : tx.payerId = tx'.payerId)
    (hs : tx.splits.Perm tx'.splits) : netOf u tx = netOf u tx' := by
  rw [netOf, netOf, hp, othersTotal_eq_sum, othersTotal_eq_sum, shareOf_eq_sum, shareOf_eq_sum,
    ((hs.filter _).map _).sum_eq, ((hs.filter _).map _).sum_eq]

theorem Reordered.sum_netOf {txs txs' : List Transaction} (h : Reordered txs txs') (u : String) :
    (txs.map (netOf u)).sum = (txs'.map (netOf u)).sum := by
  obtain ⟨mid, hmid, hperm⟩ := h
  rw [← (hperm.map _).sum_eq]
  induction hmid generalizing txs' with
  | nil => rfl
  | cons h _ ih =>
      rw [List.map_cons, List.map_cons, List.sum_cons, List.sum_cons, netOf_perm h.1 h.2, ih (.refl _)]

theorem Reordered.mem_involved {txs txs' : List Transaction} (h : Reordered txs txs') (u : String) :
    u ∈ txs.flatMap involved ↔ u ∈ txs'.flatMap involved := by
  obtain ⟨mid, hmid, hperm⟩ := h
  rw [← (hperm.flatMap_right _).mem_iff]
  induction hmid generalizing txs' with
  | nil => rfl
  | cons h _ ih =>
      rw [List.flatMap_cons, List.flatMap_cons, List.mem_append, List.mem_append, ih (.refl _),
        mem_involved_perm h.1 h.2]

/-- Transactions that change no balances: nobody is in them who is not listed already, and for each
who is, they come out even. -/
def Cancels (listed : List String) (txs : List Transaction) : Prop :=
  ∀ u ∈ txs.flatMap involved, u ∈ listed ∧ (txs.map (netOf u)).sum = 0

namespace DebtSimplifier

theorem sum_values_setdefault (d : Dict String ℤ) (k : String) :
    (d.setdefault k 0).values.sum = d.values.sum := by
  unfold Dict.setdefault
  split
  · rfl
  · rename_i h
    rw [Dict.sum_values_set, Dict.getD, h]
    simp

theorem getD_addSplit (payer : String) (b : Dict String ℤ) (split : Split) (u : String) :
    (addSplit payer b split).getD u 0 =
      b.getD u 0 + if split.userId = payer then 0
        else (if payer = u then split.amountCents else 0) -
          (if split.userId = u then split.amountCents else 0) := by
  unfold addSplit
  by_cases hp : split.userId = payer
  · simp [hp, Dict.getD_setdefault]
  · simp only [hp, ↓reduceIte, Dict.getD_set, Dict.getD_setdefault]
    by_cases hu : split.userId = u
    · have hpu : payer ≠ u := fun h => hp (hu.trans h.symm)
      have hpu' : payer ≠ split.userId := fun h => hp h.symm
      simp only [hu, ↓reduceIte, hpu]; ring
    · by_cases hpu : payer = u
      · subst hpu; simp [hu]
      · simp [hu, hpu]

theorem sum_values_addSplit (payer : String) (b : Dict String ℤ) (split : Split) :
    (addSplit payer b split).values.sum = b.values.sum := by
  unfold addSplit
  by_cases hp : split.userId = payer
  · simp [hp, sum_values_setdefault]
  · simp only [hp, ↓reduceIte, Dict.sum_values_set, sum_values_setdefault]
    ring

theorem getD_foldl_addSplit (payer u : String) (splits : List Split) (b : Dict String ℤ) :
    (splits.foldl (addSplit payer) b).getD u 0 = b.getD u 0 + netOf u ⟨payer, splits⟩ := by
  induction splits generalizing b with
  | nil => simp [netOf, othersTotal, shareOf]
  | cons split splits ih =>
      rw [List.foldl_cons, ih, getD_addSplit]
      unfold netOf
      dsimp only
      by_cases hpu : payer = u
      · subst hpu
        by_cases hs : split.userId = payer
        · simp [othersTotal, hs]
        · simp [othersTotal, hs]; ring
      · by_cases hs : split.userId = payer
        · have hsu : split.userId ≠ u := fun h => hpu (hs.symm.trans h)
          simp [shareOf, hpu, hs]
        · simp only [hs, hpu, ↓reduceIte, shareOf, List.map_cons, List.sum_cons]; ring

theorem getD_computeNetBalances (u : String) (txs : List Transaction) :
    (computeNetBalances txs).getD u 0 = (txs.map (netOf u)).sum := by
  suffices h : ∀ b : Dict String ℤ,
      (txs.foldl (fun b tx => tx.splits.foldl (addSplit tx.payerId) b) b).getD u 0 =
        b.getD u 0 + (txs.map (netOf u)).sum by
    simpa [computeNetBalances, Dict.getD] using h Dict.empty
  induction txs with
  | nil => simp
  | cons tx txs ih =>
      intro b
      rw [List.foldl_cons, ih, getD_foldl_addSplit, List.map_cons, List.sum_cons, add_assoc]

/-- Money is neither created nor destroyed. -/
theorem sum_values_computeNetBalances (txs : List Transaction) :
    (computeNetBalances txs).values.sum = 0 := by
  have hinner : ∀ (payer : String) (splits : List Split) (b : Dict String ℤ),
      (splits.foldl (addSplit payer) b).values.sum = b.values.sum := by
    intro payer splits
    induction splits with
    | nil => intro b; rfl
    | cons split splits ih => intro b; rw [List.foldl_cons, ih, sum_values_addSplit]
  suffices h : ∀ b : Dict String ℤ,
      (txs.foldl (fun b tx => tx.splits.foldl (addSplit tx.payerId) b) b).values.sum =
        b.values.sum by
    simpa [computeNetBalances] using h Dict.empty
  induction txs with
  | nil => intro b; rfl
  | cons tx txs ih => intro b; rw [List.foldl_cons, ih, hinner]

/-! ## Whom the balances list -/

theorem mem_keys_addSplit {payer u : String} {b : Dict String ℤ} {split : Split} :
    u ∈ (addSplit payer b split).keys ↔ u ∈ [payer, split.userId] ∨ u ∈ b.keys := by
  rw [addSplit]
  split
  · simp only [Dict.mem_keys_setdefault, List.mem_cons, List.not_mem_nil]
    tauto
  · simp only [Dict.mem_keys_set, Dict.mem_keys_setdefault, List.mem_cons, List.not_mem_nil]
    tauto

theorem keys_addSplit {payer : String} {b : Dict String ℤ} {split : Split}
    (h : ∀ u ∈ [payer, split.userId], u ∈ b.keys) : (addSplit payer b split).keys = b.keys := by
  have hp : payer ∈ b.keys := h payer List.mem_cons_self
  have hu : split.userId ∈ b.keys := h split.userId (List.mem_cons_of_mem _ List.mem_cons_self)
  rw [addSplit, Dict.setdefault_of_mem 0 hp, Dict.setdefault_of_mem 0 hu]
  split
  · rfl
  · dsimp only
    rw [Dict.keys_set_of_mem _ (by rw [Dict.keys_set_of_mem _ hp]; exact hu), Dict.keys_set_of_mem _ hp]

def addTransaction (b : Dict String ℤ) (tx : Transaction) : Dict String ℤ :=
  tx.splits.foldl (addSplit tx.payerId) b

theorem mem_keys_addTransaction {u : String} (tx : Transaction) (b : Dict String ℤ) :
    u ∈ (addTransaction b tx).keys ↔ u ∈ involved tx ∨ u ∈ b.keys := by
  obtain ⟨payer, splits⟩ := tx
  dsimp only [involved, addTransaction]
  induction splits generalizing b with
  | nil => simp
  | cons split splits ih =>
      rw [List.foldl_cons, ih, mem_keys_addSplit, List.flatMap_cons, List.mem_append]
      tauto

theorem keys_addTransaction {tx : Transaction} {b : Dict String ℤ} (h : ∀ u ∈ involved tx, u ∈ b.keys) :
    (addTransaction b tx).keys = b.keys := by
  obtain ⟨payer, splits⟩ := tx
  dsimp only [involved, addTransaction] at h ⊢
  induction splits generalizing b with
  | nil => rfl
  | cons split splits ih =>
      simp only [List.flatMap_cons, List.mem_append] at h
      have hkeys := keys_addSplit fun u hu => h u (.inl hu)
      rw [List.foldl_cons, ih fun u hu => hkeys ▸ h u (.inr hu), hkeys]

theorem mem_keys_foldl {u : String} (txs : List Transaction) (b : Dict String ℤ) :
    u ∈ (txs.foldl addTransaction b).keys ↔ u ∈ txs.flatMap involved ∨ u ∈ b.keys := by
  induction txs generalizing b with
  | nil => simp
  | cons tx txs ih =>
      rw [List.foldl_cons, ih, mem_keys_addTransaction, List.flatMap_cons, List.mem_append]
      tauto

theorem keys_foldl {txs : List Transaction} {b : Dict String ℤ}
    (h : ∀ u ∈ txs.flatMap involved, u ∈ b.keys) : (txs.foldl addTransaction b).keys = b.keys := by
  induction txs generalizing b with
  | nil => rfl
  | cons tx txs ih =>
      simp only [List.flatMap_cons, List.mem_append] at h
      have hkeys := keys_addTransaction fun u hu => h u (.inl hu)
      rw [List.foldl_cons, ih fun u hu => hkeys ▸ h u (.inr hu), hkeys]

theorem mem_keys_computeNetBalances {u : String} (txs : List Transaction) :
    u ∈ (computeNetBalances txs).keys ↔ u ∈ txs.flatMap involved := by
  have hkeys : u ∈ (computeNetBalances txs).keys ↔ _ := mem_keys_foldl txs Dict.empty
  rw [hkeys, Dict.keys_empty]
  simp only [List.not_mem_nil, or_false]

theorem computeNetBalances_reordered {txs txs' : List Transaction} (h : Reordered txs txs') (u : String) :
    (computeNetBalances txs).get? u = (computeNetBalances txs').get? u := by
  rw [Dict.get?_eq_ite _ u 0, Dict.get?_eq_ite _ u 0]
  simp only [mem_keys_computeNetBalances, getD_computeNetBalances, h.mem_involved, h.sum_netOf]

theorem computeNetBalances_append (txs txs' : List Transaction) :
    computeNetBalances (txs ++ txs') = txs'.foldl addTransaction (computeNetBalances txs) :=
  List.foldl_append

/-- The balances are still those of the earlier transactions exactly when the later ones cancel. -/
theorem computeNetBalances_append_eq (txs txs' : List Transaction) :
    computeNetBalances (txs ++ txs') = computeNetBalances txs ↔
      Cancels (txs.flatMap involved) txs' := by
  constructor
  · intro he u hu
    refine ⟨?_, ?_⟩
    · rw [← mem_keys_computeNetBalances, ← he, computeNetBalances_append, mem_keys_foldl]
      exact .inl hu
    · have hnet := congrArg (Dict.getD · u 0) he
      simp only [getD_computeNetBalances, List.map_append, List.sum_append] at hnet
      omega
  · intro hc
    apply Dict.ext_getD 0
    · rw [computeNetBalances_append]
      exact keys_foldl fun u hu => (mem_keys_computeNetBalances txs).mpr (hc u hu).1
    · intro u
      rw [getD_computeNetBalances, getD_computeNetBalances, List.map_append, List.sum_append]
      rcases em (u ∈ txs'.flatMap involved) with hu | hu
      · rw [(hc u hu).2, add_zero]
      · have hzero : (txs'.map (netOf u)).sum = 0 := by
          apply List.sum_eq_zero
          intro n hn
          obtain ⟨tx, htx, rfl⟩ := List.mem_map.mp hn
          exact netOf_of_not_involved fun hi => hu (List.mem_flatMap.mpr ⟨tx, htx, hi⟩)
        rw [hzero, add_zero]

end DebtSimplifier

end ExpenseSettlement
