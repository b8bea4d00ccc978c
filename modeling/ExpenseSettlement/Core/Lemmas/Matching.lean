import ExpenseSettlement.Core.DebtSimplifier
import Mathlib.Algebra.Order.BigOperators.Group.List
import Mathlib.Data.List.Induction
import Mathlib.Tactic.Ring

/-!
# The invariant of the matching loop

The heaps hold positive amounts of equal totals, and what the plan has moved so far together with
what the heaps still hold makes up the net balance of every user.
-/

namespace ExpenseSettlement

open Lib

/-! ## Plans -/

@[simp] theorem received_nil (u : String) : received u [] = 0 := rfl

@[simp] theorem paid_nil (u : String) : paid u [] = 0 := rfl

@[simp] theorem received_append (u : String) (ss ts : List Settlement) :
    received u (ss ++ ts) = received u ss + received u ts := by
  simp [received]

@[simp] theorem paid_append (u : String) (ss ts : List Settlement) :
    paid u (ss ++ ts) = paid u ss + paid u ts := by
  simp [paid]

theorem received_singleton (u : String) (s : Settlement) :
    received u [s] = if s.payeeId = u then s.amountCents else 0 := by
  simp [received]

theorem paid_singleton (u : String) (s : Settlement) :
    paid u [s] = if s.payerId = u then s.amountCents else 0 := by
  simp [paid]

theorem received_eq_zero {u : String} {ss : List Settlement} (h : ∀ s ∈ ss, s.payeeId ≠ u) :
    received u ss = 0 := by
  apply List.sum_eq_zero
  intro n hn
  obtain ⟨s, hs, rfl⟩ := List.mem_map.mp hn
  exact if_neg (h s hs)

theorem paid_eq_zero {u : String} {ss : List Settlement} (h : ∀ s ∈ ss, s.payerId ≠ u) :
    paid u ss = 0 := by
  apply List.sum_eq_zero
  intro n hn
  obtain ⟨s, hs, rfl⟩ := List.mem_map.mp hn
  exact if_neg (h s hs)

namespace DebtSimplifier

/-! ## What a heap holds -/

def HeapItem.amount (x : HeapItem) : ℤ := -(ofLex x).1

def HeapItem.uid (x : HeapItem) : String := (ofLex x).2

@[simp] theorem HeapItem.amount_toLex (a : ℤ) (u : String) : HeapItem.amount (toLex (a, u)) = -a := rfl

@[simp] theorem HeapItem.uid_toLex (a : ℤ) (u : String) : HeapItem.uid (toLex (a, u)) = u := rfl

def volume (h : Heap HeapItem) : ℤ := (h.items.map HeapItem.amount).sum

def held (u : String) (h : Heap HeapItem) : ℤ :=
  (h.items.map fun x => if x.uid = u then x.amount else 0).sum

def AllPositive (h : Heap HeapItem) : Prop := ∀ x ∈ h.items, 0 < x.amount

theorem allPositive_empty : AllPositive Heap.empty := by
  intro x hx
  simp at hx

theorem volume_push (h : Heap HeapItem) (x : HeapItem) : volume (h.push x) = x.amount + volume h := by
  unfold volume
  rw [((h.push_perm x).map HeapItem.amount).sum_eq]
  simp

theorem held_push (u : String) (h : Heap HeapItem) (x : HeapItem) :
    held u (h.push x) = (if x.uid = u then x.amount else 0) + held u h := by
  unfold held
  rw [((h.push_perm x).map fun x => if x.uid = u then x.amount else 0).sum_eq]
  simp

theorem AllPositive.push {h : Heap HeapItem} (hp : AllPositive h) {x : HeapItem} (hx : 0 < x.amount) :
    AllPositive (h.push x) := by
  intro y hy
  rcases List.mem_cons.mp ((h.push_perm x).mem_iff.mp hy) with rfl | hy
  · exact hx
  · exact hp y hy

theorem volume_pop {h h' : Heap HeapItem} {x : HeapItem} (hp : h.pop? = some (x, h')) :
    volume h = x.amount + volume h' := by
  simp [volume, Heap.pop?_items hp]

theorem held_pop {h h' : Heap HeapItem} {x : HeapItem} (hp : h.pop? = some (x, h')) (u : String) :
    held u h = (if x.uid = u then x.amount else 0) + held u h' := by
  simp [held, Heap.pop?_items hp]

theorem AllPositive.pop {h h' : Heap HeapItem} {x : HeapItem} (ha : AllPositive h)
    (hp : h.pop? = some (x, h')) : 0 < x.amount ∧ AllPositive h' := by
  rw [AllPositive, Heap.pop?_items hp] at ha
  exact ⟨ha x (by simp), fun y hy => ha y (by simp [hy])⟩

theorem AllPositive.items_eq_nil {h : Heap HeapItem} (ha : AllPositive h) (hv : volume h = 0) :
    h.items = [] := by
  cases hi : h.items with
  | nil => rfl
  | cons x rest =>
      have hx : 0 < x.amount := ha x (by simp [hi])
      have hrest : 0 ≤ (rest.map HeapItem.amount).sum := by
        refine List.sum_nonneg fun a hm => ?_
        obtain ⟨y, hy, rfl⟩ := List.mem_map.mp hm
        exact (ha y (by simp [hi, hy])).le
      simp only [volume, hi, List.map_cons, List.sum_cons] at hv
      omega

theorem volume_pushResidual (h : Heap HeapItem) {residual : ℤ} (hr : 0 ≤ residual) (uid : String) :
    volume (pushResidual h residual uid) = residual + volume h := by
  unfold pushResidual
  split
  · simp [volume_push]
  · have : residual = 0 := by omega
    simp [this]

theorem held_pushResidual (u : String) (h : Heap HeapItem) {residual : ℤ} (hr : 0 ≤ residual)
    (uid : String) :
    held u (pushResidual h residual uid) = (if uid = u then residual else 0) + held u h := by
  unfold pushResidual
  split
  · simp [held_push]
  · have : residual = 0 := by omega
    simp [this]

theorem AllPositive.pushResidual {h : Heap HeapItem} (ha : AllPositive h) (residual : ℤ)
    (uid : String) : AllPositive (pushResidual h residual uid) := by
  unfold DebtSimplifier.pushResidual
  split
  · rename_i hr
    exact ha.push (by simpa using hr)
  · exact ha

/-! ## The invariant -/

structure Matched (net : String → ℤ) (s : MatchState) : Prop where
  creditors_pos : AllPositive s.creditors
  debtors_pos : AllPositive s.debtors
  volume_eq : volume s.creditors = volume s.debtors
  settled_pos : ∀ t ∈ s.settlements, 1 ≤ t.amountCents
  accounted : ∀ u, received u s.settlements - paid u s.settlements + held u s.creditors -
    held u s.debtors = net u

variable {net : String → ℤ} {s s' : MatchState}

/-- With positive amounts popped, the smaller of them is at least a cent and is settled. -/
theorem matchPair_eq {c d : HeapItem} {creditors debtors : Heap HeapItem} (hc : 0 < c.amount)
    (hd : 0 < d.amount) :
    matchPair s c creditors d debtors =
      { creditors := pushResidual creditors (c.amount - min c.amount d.amount) c.uid
        debtors := pushResidual debtors (d.amount - min c.amount d.amount) d.uid
        settlements := s.settlements ++ [⟨d.uid, c.uid, min c.amount d.amount⟩] } := by
  have h : ¬ min c.amount d.amount < 1 := by omega
  unfold matchPair
  exact if_neg h

theorem Matched.step (h : Matched net s) (hs : matchStep s = some s') : Matched net s' := by
  obtain ⟨c, creditors, d, debtors, hc, hd, rfl⟩ := matchStep_eq_some hs
  obtain ⟨hcpos, hcs⟩ := h.creditors_pos.pop hc
  obtain ⟨hdpos, hds⟩ := h.debtors_pos.pop hd
  have hrc : 0 ≤ c.amount - min c.amount d.amount := by omega
  have hrd : 0 ≤ d.amount - min c.amount d.amount := by omega
  rw [matchPair_eq hcpos hdpos]
  refine ⟨hcs.pushResidual _ _, hds.pushResidual _ _, ?_, ?_, fun u => ?_⟩
  · have hv := h.volume_eq
    rw [volume_pop hc, volume_pop hd] at hv
    rw [volume_pushResidual _ hrc, volume_pushResidual _ hrd]
    omega
  · intro t ht
    rcases List.mem_append.mp ht with ht | ht
    · exact h.settled_pos t ht
    · have hmin : 1 ≤ min c.amount d.amount := by omega
      rw [List.mem_singleton.mp ht]
      exact hmin
  · have ha := h.accounted u
    rw [held_pop hc, held_pop hd] at ha
    rw [received_append, paid_append, received_singleton, paid_singleton,
      held_pushResidual u _ hrc, held_pushResidual u _ hrd]
    dsimp only
    -- both sides of the payment move the settled amount from a heap to the plan
    by_cases huc : c.uid = u <;> by_cases hud : d.uid = u <;>
      simp only [huc, hud, ↓reduceIte] at ha ⊢ <;> omega

/-- The invariant at the end of the loop: both heaps are empty and the plan accounts for everyone. -/
theorem Matched.done (h : Matched net s) (hs : matchStep s = none) :
    s.creditors.items = [] ∧ s.debtors.items = [] ∧
      ∀ u, received u s.settlements - paid u s.settlements = net u := by
  -- one heap is empty when the guard fails, and the heaps hold the same total
  have hempty : s.creditors.items = [] ∧ s.debtors.items = [] := by
    cases hc : s.creditors.pop? with
    | none =>
        have hci := Heap.pop?_eq_none.mp hc
        have hv : volume s.debtors = 0 := by rw [← h.volume_eq]; simp [volume, hci]
        exact ⟨hci, h.debtors_pos.items_eq_nil hv⟩
    | some p =>
        cases hd : s.debtors.pop? with
        | none =>
            have hdi := Heap.pop?_eq_none.mp hd
            have hv : volume s.creditors = 0 := by rw [h.volume_eq]; simp [volume, hdi]
            exact ⟨h.creditors_pos.items_eq_nil hv, hdi⟩
        | some q => simp [matchStep, hc, hd] at hs
  refine ⟨hempty.1, hempty.2, fun u => ?_⟩
  have ha := h.accounted u
  simpa [held, hempty.1, hempty.2] using ha

/-! ## The initial heaps -/

theorem buildHeaps_append (items : List (String × ℤ)) (uid : String) (n : ℤ) :
    buildHeaps (items ++ [(uid, n)]) =
      if n > 0 then ((buildHeaps items).1.push (toLex (-n, uid)), (buildHeaps items).2)
      else if n < 0 then ((buildHeaps items).1, (buildHeaps items).2.push (toLex (n, uid)))
      else buildHeaps items := by
  simp [buildHeaps, List.foldl_append]

theorem buildHeaps_zero {items : List (String × ℤ)} (h : ∀ p ∈ items, p.2 = 0) :
    buildHeaps items = (Heap.empty, Heap.empty) := by
  induction items using List.reverseRecOn with
  | nil => rfl
  | append_singleton items p ih =>
      obtain ⟨u, n⟩ := p
      have hn : n = 0 := h (u, n) (by simp)
      rw [buildHeaps_append, ih fun q hq => h q (by simp [hq]), hn]
      rfl

theorem buildHeaps_pos (items : List (String × ℤ)) :
    AllPositive (buildHeaps items).1 ∧ AllPositive (buildHeaps items).2 := by
  induction items using List.reverseRecOn with
  | nil => exact ⟨allPositive_empty, allPositive_empty⟩
  | append_singleton items p ih =>
      obtain ⟨uid, n⟩ := p
      rw [buildHeaps_append]
      split
      · exact ⟨ih.1.push (by simpa), ih.2⟩
      · split
        · exact ⟨ih.1, ih.2.push (by simpa)⟩
        · exact ih

theorem buildHeaps_volume (items : List (String × ℤ)) :
    volume (buildHeaps items).1 - volume (buildHeaps items).2 = (items.map Prod.snd).sum := by
  induction items using List.reverseRecOn with
  | nil => rfl
  | append_singleton items p ih =>
      obtain ⟨uid, n⟩ := p
      rw [buildHeaps_append, List.map_append, List.sum_append, ← ih]
      simp only [List.map_cons, List.map_nil, List.sum_cons, List.sum_nil, add_zero]
      split
      · simp only [volume_push, HeapItem.amount_toLex]; ring
      · split
        · simp only [volume_push, HeapItem.amount_toLex]; ring
        · omega

theorem buildHeaps_held (u : String) (items : List (String × ℤ)) :
    held u (buildHeaps items).1 - held u (buildHeaps items).2 =
      (items.map fun p => if p.1 = u then p.2 else 0).sum := by
  induction items using List.reverseRecOn with
  | nil => rfl
  | append_singleton items p ih =>
      obtain ⟨uid, n⟩ := p
      rw [buildHeaps_append, List.map_append, List.sum_append, ← ih]
      simp only [List.map_cons, List.map_nil, List.sum_cons, List.sum_nil, add_zero]
      by_cases hu : uid = u
      · simp only [hu, ↓reduceIte]
        split
        · simp only [held_push, HeapItem.amount_toLex, HeapItem.uid_toLex, ↓reduceIte]; ring
        · split
          · simp only [held_push, HeapItem.amount_toLex, HeapItem.uid_toLex, ↓reduceIte]; ring
          · omega
      · simp only [hu, ↓reduceIte, add_zero]
        split
        · simp [held_push, hu]
        · split
          · simp [held_push, hu]
          · rfl

/-- The keys of a dictionary are distinct, so its entries for `u` add up to the value at `u`. -/
theorem sum_items_eq_getD (u : String) (d : Dict String ℤ) :
    (d.items.map fun p => if p.1 = u then p.2 else 0).sum = d.getD u 0 := by
  obtain ⟨items, hnd⟩ := d
  unfold Dict.getD Dict.get?
  dsimp only
  induction items with
  | nil => rfl
  | cons p items ih =>
      obtain ⟨k, v⟩ := p
      simp only [List.map_cons, List.nodup_cons] at hnd
      rw [List.map_cons, List.sum_cons, ih hnd.2]
      by_cases hk : k = u
      · subst hk
        rw [Dict.lookup_eq_none.mpr hnd.1]
        simp [Dict.lookup]
      · simp [Dict.lookup, hk]

theorem initialState_matched {netBalances : Dict String ℤ} (hz : netBalances.values.sum = 0) :
    Matched (netBalances.getD · 0) (initialState netBalances) where
  creditors_pos := (buildHeaps_pos _).1
  debtors_pos := (buildHeaps_pos _).2
  volume_eq := by
    have := buildHeaps_volume netBalances.items
    unfold Dict.values at hz
    simp only [initialState]
    omega
  settled_pos := fun _ h => by cases h
  accounted := by
    intro u
    have := buildHeaps_held u netBalances.items
    rw [sum_items_eq_getD] at this
    simp only [initialState, received_nil, paid_nil]
    omega

theorem matched_of_visits {netBalances : Dict String ℤ} (hz : netBalances.values.sum = 0)
    (hv : matching.Visits (initialState netBalances) s) :
    Matched (netBalances.getD · 0) s :=
  hv.invariant (P := Matched (netBalances.getD · 0)) (fun _ _ h hs => h.step hs)
    (initialState_matched hz)

theorem settle_accounted {netBalances : Dict String ℤ} (hz : netBalances.values.sum = 0) (u : String) :
    received u (settle netBalances) - paid u (settle netBalances) = netBalances.getD u 0 :=
  ((matched_of_visits hz (matching.visits_run _)).done (matching.run_done _)).2.2 u

theorem settle_pos {netBalances : Dict String ℤ} (hz : netBalances.values.sum = 0) {t : Settlement}
    (ht : t ∈ settle netBalances) : 1 ≤ t.amountCents :=
  (matched_of_visits hz (matching.visits_run _)).settled_pos t ht

theorem settle_eq_nil_iff {netBalances : Dict String ℤ} (hz : netBalances.values.sum = 0) :
    settle netBalances = [] ↔ ∀ u, netBalances.getD u 0 = 0 := by
  constructor
  · intro h u
    rw [← settle_accounted hz u, h]
    rfl
  · intro h
    have hitems : ∀ p ∈ netBalances.items, p.2 = 0 := by
      rintro ⟨u, n⟩ hp
      have hu := h u
      rw [Dict.getD, Dict.get?_eq_some.mpr hp] at hu
      exact hu
    have hinit : initialState netBalances = ⟨Heap.empty, Heap.empty, []⟩ := by
      rw [initialState, buildHeaps_zero hitems]
    have hstuck : matching.step (initialState netBalances) = none := by
      rw [hinit]
      rfl
    rw [settle, matching.run_of_stuck hstuck, hinit]

end DebtSimplifier

end ExpenseSettlement
