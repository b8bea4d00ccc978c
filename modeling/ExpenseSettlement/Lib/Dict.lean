import Mathlib.Data.List.Basic
import Mathlib.Data.List.Nodup
import Mathlib.Algebra.BigOperators.Group.List.Basic
import Mathlib.Tactic.Abel

/-!
# Insertion-ordered dictionaries

A dictionary remembers the order in which its keys were first set. The keys are distinct by
construction, so a lookup and a membership say the same thing.
-/

namespace Lib

variable {κ ν : Type}

structure Dict (κ ν : Type) where
  items : List (κ × ν)
  nodup : (items.map Prod.fst).Nodup

namespace Dict

@[ext] theorem ext {d e : Dict κ ν} (h : d.items = e.items) : d = e := by
  cases d; cases e; cases h; rfl

def empty : Dict κ ν := ⟨[], List.nodup_nil⟩

instance : Inhabited (Dict κ ν) := ⟨empty⟩

def keys (d : Dict κ ν) : List κ := d.items.map Prod.fst

def values (d : Dict κ ν) : List ν := d.items.map Prod.snd

@[simp] theorem keys_empty : (empty : Dict κ ν).keys = [] := rfl

@[simp] theorem values_empty : (empty : Dict κ ν).values = [] := rfl

variable [DecidableEq κ]

instance [DecidableEq ν] : DecidableEq (Dict κ ν) := fun d e =>
  decidable_of_iff (d.items = e.items) ⟨ext, fun h => by rw [h]⟩

/-! ## Lookup -/

def lookup (k : κ) : List (κ × ν) → Option ν
  | [] => none
  | (k', v) :: rest => if k' = k then some v else lookup k rest

def get? (d : Dict κ ν) (k : κ) : Option ν := lookup k d.items

def getD (d : Dict κ ν) (k : κ) (v : ν) : ν := (d.get? k).getD v

@[simp] theorem get?_empty (k : κ) : (empty : Dict κ ν).get? k = none := rfl

theorem lookup_eq_none {k : κ} {l : List (κ × ν)} : lookup k l = none ↔ k ∉ l.map Prod.fst := by
  induction l with
  | nil => simp [lookup]
  | cons p rest ih =>
      obtain ⟨k', v⟩ := p
      by_cases h : k' = k
      · simp [lookup, h]
      · simp [lookup, h, ih, Ne.symm h]

theorem get?_eq_none {d : Dict κ ν} {k : κ} : d.get? k = none ↔ k ∉ d.keys := lookup_eq_none

theorem lookup_eq_some {k : κ} {v : ν} {l : List (κ × ν)} (hl : (l.map Prod.fst).Nodup) :
    lookup k l = some v ↔ (k, v) ∈ l := by
  induction l with
  | nil => simp [lookup]
  | cons p rest ih =>
      obtain ⟨k', v'⟩ := p
      simp only [List.map_cons, List.nodup_cons] at hl
      by_cases h : k' = k
      · subst h
        simp only [lookup, ↓reduceIte, Option.some.injEq, List.mem_cons, Prod.mk.injEq, true_and]
        constructor
        · exact fun h => Or.inl h.symm
        · rintro (h | h)
          · exact h.symm
          · exact absurd (List.mem_map_of_mem (f := Prod.fst) h) hl.1
      · simp [lookup, h, Ne.symm h, ih hl.2]

theorem get?_eq_some {d : Dict κ ν} {k : κ} {v : ν} : d.get? k = some v ↔ (k, v) ∈ d.items :=
  lookup_eq_some d.nodup

theorem mem_keys_of_get? {d : Dict κ ν} {k : κ} {v : ν} (h : d.get? k = some v) : k ∈ d.keys :=
  List.mem_map_of_mem (f := Prod.fst) (get?_eq_some.mp h)

theorem mem_keys {d : Dict κ ν} {k : κ} : k ∈ d.keys ↔ ∃ v, d.get? k = some v := by
  rw [← Option.ne_none_iff_exists', ne_eq, get?_eq_none, not_not]

theorem mem_values {d : Dict κ ν} {v : ν} : v ∈ d.values ↔ ∃ k, d.get? k = some v := by
  simp [values, get?_eq_some]

/-- A dictionary is its keys in their order, with what is found under them. -/
theorem items_eq_map_getD (d : Dict κ ν) (v : ν) : d.items = d.keys.map fun k => (k, d.getD k v) := by
  have hself : ∀ p ∈ d.items, (p.1, d.getD p.1 v) = p := by
    rintro ⟨k, v'⟩ hp
    rw [getD, get?_eq_some.mpr hp]
    rfl
  rw [keys, List.map_map]
  exact (List.map_id _).symm.trans (List.map_congr_left fun p hp => (hself p hp).symm)

theorem ext_getD {d e : Dict κ ν} (v : ν) (hk : d.keys = e.keys) (hv : ∀ k, d.getD k v = e.getD k v) :
    d = e := by
  apply ext
  rw [d.items_eq_map_getD v, e.items_eq_map_getD v, hk]
  exact List.map_congr_left fun k _ => by rw [hv]

theorem get?_eq_ite (d : Dict κ ν) (k : κ) (v : ν) :
    d.get? k = if k ∈ d.keys then some (d.getD k v) else none := by
  cases h : d.get? k with
  | none => rw [if_neg (get?_eq_none.mp h)]
  | some v' => rw [if_pos (mem_keys_of_get? h), getD, h, Option.getD_some]

/-! ## Assignment -/

def assign (k : κ) (v : ν) : List (κ × ν) → List (κ × ν)
  | [] => [(k, v)]
  | (k', v') :: rest => if k' = k then (k, v) :: rest else (k', v') :: assign k v rest

theorem mem_map_fst_assign {k x : κ} {v : ν} {l : List (κ × ν)} :
    x ∈ (assign k v l).map Prod.fst ↔ x = k ∨ x ∈ l.map Prod.fst := by
  induction l with
  | nil => simp [assign]
  | cons p rest ih =>
      obtain ⟨k', v'⟩ := p
      by_cases h : k' = k
      · simp [assign, h]
      · simp only [assign, h, ↓reduceIte, List.map_cons, List.mem_cons, ih]; tauto

theorem nodup_assign (k : κ) (v : ν) {l : List (κ × ν)} (hl : (l.map Prod.fst).Nodup) :
    ((assign k v l).map Prod.fst).Nodup := by
  induction l with
  | nil => simp [assign]
  | cons p rest ih =>
      obtain ⟨k', v'⟩ := p
      simp only [List.map_cons, List.nodup_cons] at hl
      by_cases h : k' = k
      · subst h; simpa [assign] using hl
      · simp only [assign, h, ↓reduceIte, List.map_cons, List.nodup_cons]
        refine ⟨fun hm => ?_, ih hl.2⟩
        rcases mem_map_fst_assign.mp hm with hm | hm
        · exact h hm
        · exact hl.1 hm

/-- `d[k] = v`: an existing key keeps its place, a new one goes last. -/
def set (d : Dict κ ν) (k : κ) (v : ν) : Dict κ ν := ⟨assign k v d.items, nodup_assign k v d.nodup⟩

theorem lookup_assign (k k' : κ) (v : ν) (l : List (κ × ν)) :
    lookup k' (assign k v l) = if k = k' then some v else lookup k' l := by
  induction l with
  | nil => rfl
  | cons p rest ih =>
      obtain ⟨k₀, v₀⟩ := p
      by_cases h : k₀ = k
      · by_cases h' : k = k' <;> simp [assign, lookup, h, h']
      · by_cases h' : k₀ = k'
        · subst h'; simp [assign, lookup, h, Ne.symm h]
        · simp [assign, lookup, h, h', ih]

theorem get?_set (d : Dict κ ν) (k k' : κ) (v : ν) :
    (d.set k v).get? k' = if k = k' then some v else d.get? k' := lookup_assign k k' v d.items

@[simp] theorem get?_set_self (d : Dict κ ν) (k : κ) (v : ν) : (d.set k v).get? k = some v := by
  simp [get?_set]

theorem of_get?_set {d : Dict κ ν} {k k' : κ} {v v' : ν} (h : (d.set k v).get? k' = some v') :
    (k = k' ∧ v = v') ∨ d.get? k' = some v' := by
  rw [get?_set] at h
  by_cases hk : k = k'
  · rw [if_pos hk] at h
    exact Or.inl ⟨hk, Option.some.inj h⟩
  · rw [if_neg hk] at h
    exact Or.inr h

theorem getD_set (d : Dict κ ν) (k k' : κ) (v v₀ : ν) :
    (d.set k v).getD k' v₀ = if k = k' then v else d.getD k' v₀ := by
  unfold getD
  rw [get?_set]
  split <;> rfl

theorem mem_keys_set {d : Dict κ ν} {k x : κ} {v : ν} :
    x ∈ (d.set k v).keys ↔ x = k ∨ x ∈ d.keys := mem_map_fst_assign

theorem assign_of_not_mem {k : κ} (v : ν) {l : List (κ × ν)} (h : k ∉ l.map Prod.fst) :
    assign k v l = l ++ [(k, v)] := by
  induction l with
  | nil => rfl
  | cons p rest ih =>
      obtain ⟨k', v'⟩ := p
      simp only [List.map_cons, List.mem_cons, not_or] at h
      simp [assign, Ne.symm h.1, ih h.2]

theorem items_set_of_not_mem {d : Dict κ ν} {k : κ} (v : ν) (h : k ∉ d.keys) :
    (d.set k v).items = d.items ++ [(k, v)] := assign_of_not_mem v h

theorem keys_set_of_not_mem {d : Dict κ ν} {k : κ} (v : ν) (h : k ∉ d.keys) :
    (d.set k v).keys = d.keys ++ [k] := by
  simp [keys, items_set_of_not_mem v h]

theorem values_set_of_not_mem {d : Dict κ ν} {k : κ} (v : ν) (h : k ∉ d.keys) :
    (d.set k v).values = d.values ++ [v] := by
  simp [values, items_set_of_not_mem v h]

theorem assign_assign (k : κ) (v v' : ν) (l : List (κ × ν)) :
    assign k v' (assign k v l) = assign k v' l := by
  induction l with
  | nil => simp [assign]
  | cons p rest ih =>
      obtain ⟨k₀, v₀⟩ := p
      by_cases h : k₀ = k
      · simp [assign, h]
      · simp [assign, h, ih]

@[simp] theorem set_set (d : Dict κ ν) (k : κ) (v v' : ν) : (d.set k v).set k v' = d.set k v' :=
  ext (assign_assign k v v' d.items)

theorem keys_assign_of_mem {k : κ} (v : ν) {l : List (κ × ν)} (h : k ∈ l.map Prod.fst) :
    (assign k v l).map Prod.fst = l.map Prod.fst := by
  induction l with
  | nil => simp at h
  | cons p rest ih =>
      obtain ⟨k', v'⟩ := p
      by_cases h' : k' = k
      · simp [assign, h']
      · have hr : k ∈ rest.map Prod.fst := by simpa [Ne.symm h'] using h
        simp [assign, h', ih hr]

theorem keys_set_of_mem {d : Dict κ ν} {k : κ} (v : ν) (h : k ∈ d.keys) :
    (d.set k v).keys = d.keys := keys_assign_of_mem v h

theorem map_values_assign {μ : Type} {f : ν → μ} {k : κ} {v v' : ν} (hf : f v' = f v)
    {l : List (κ × ν)} (h : lookup k l = some v) :
    ((assign k v' l).map Prod.snd).map f = (l.map Prod.snd).map f := by
  induction l with
  | nil => cases h
  | cons p rest ih =>
      obtain ⟨k₀, v₀⟩ := p
      by_cases hk : k₀ = k
      · simp only [lookup, hk, ↓reduceIte, Option.some.injEq] at h
        subst h
        simp [assign, hk, hf]
      · simp only [lookup, hk, ↓reduceIte] at h
        simp only [assign, hk, ↓reduceIte, List.map_cons, ih h]

/-- A value that is replaced by one that looks the same. -/
theorem map_values_set {μ : Type} {f : ν → μ} {d : Dict κ ν} {k : κ} {v v' : ν}
    (h : d.get? k = some v) (hf : f v' = f v) : (d.set k v').values.map f = d.values.map f :=
  map_values_assign hf h

/-- Values that are set one after another under new keys of their own line up at the end. -/
theorem items_foldl_set (key : ν → κ) {vs : List ν} {d : Dict κ ν} (hfresh : ∀ v ∈ vs, key v ∉ d.keys)
    (hnodup : (vs.map key).Nodup) :
    (vs.foldl (fun d v => d.set (key v) v) d).items = d.items ++ vs.map fun v => (key v, v) := by
  induction vs generalizing d with
  | nil => simp
  | cons v vs ih =>
      rw [List.map_cons, List.nodup_cons] at hnodup
      have hv : key v ∉ d.keys := hfresh v List.mem_cons_self
      rw [List.foldl_cons, ih (fun v' hv' => ?_) hnodup.2, items_set_of_not_mem v hv]
      · simp
      · rw [keys_set_of_not_mem v hv, List.mem_append, List.mem_singleton, not_or]
        refine ⟨hfresh v' (List.mem_cons_of_mem _ hv'), fun he => hnodup.1 ?_⟩
        rw [← he]
        exact List.mem_map_of_mem hv'

/-! ## Sums of values -/

theorem sum_assign {ν : Type} [AddCommGroup ν] (k : κ) (v : ν) {l : List (κ × ν)}
    (hl : (l.map Prod.fst).Nodup) :
    ((assign k v l).map Prod.snd).sum = (l.map Prod.snd).sum - (lookup k l).getD 0 + v := by
  induction l with
  | nil => simp [assign, lookup]
  | cons p rest ih =>
      obtain ⟨k', v'⟩ := p
      simp only [List.map_cons, List.nodup_cons] at hl
      by_cases h : k' = k
      · simp only [assign, lookup, h, ↓reduceIte, List.map_cons, List.sum_cons, Option.getD_some]; abel
      · simp only [assign, lookup, h, ↓reduceIte, List.map_cons, List.sum_cons, ih hl.2]; abel

/-- An assignment moves the total by the new value less the one it replaces. -/
theorem sum_values_set {ν : Type} [AddCommGroup ν] (d : Dict κ ν) (k : κ) (v : ν) :
    (d.set k v).values.sum = d.values.sum - d.getD k 0 + v := sum_assign k v d.nodup

/-! ## Defaults -/

def setdefault (d : Dict κ ν) (k : κ) (v : ν) : Dict κ ν :=
  match d.get? k with
  | some _ => d
  | none => d.set k v

theorem get?_setdefault (d : Dict κ ν) (k k' : κ) (v : ν) :
    (d.setdefault k v).get? k' = if k = k' then some (d.getD k v) else d.get? k' := by
  unfold setdefault getD
  split
  · rename_i w hw
    by_cases h : k = k'
    · subst h; simp [hw]
    · simp [h]
  · rename_i hw
    simp [get?_set, hw]

theorem getD_setdefault (d : Dict κ ν) (k k' : κ) (v : ν) :
    (d.setdefault k v).getD k' v = d.getD k' v := by
  unfold getD
  rw [get?_setdefault]
  by_cases h : k = k'
  · subst h; simp [getD]
  · simp [h]

theorem setdefault_of_mem {d : Dict κ ν} {k : κ} (v : ν) (h : k ∈ d.keys) : d.setdefault k v = d := by
  obtain ⟨w, hw⟩ := mem_keys.mp h
  simp only [setdefault, hw]

theorem mem_keys_setdefault {d : Dict κ ν} {k x : κ} {v : ν} :
    x ∈ (d.setdefault k v).keys ↔ x = k ∨ x ∈ d.keys := by
  cases hk : d.get? k with
  | none => simp only [setdefault, hk, mem_keys_set]
  | some w =>
      simp only [setdefault, hk]
      refine ⟨.inr, ?_⟩
      rintro (rfl | hx)
      · exact mem_keys_of_get? hk
      · exact hx

/-! ## Removal -/

def remove (k : κ) (l : List (κ × ν)) : List (κ × ν) := l.filter (fun p => p.1 ≠ k)

def pop (d : Dict κ ν) (k : κ) : Dict κ ν :=
  ⟨remove k d.items, d.nodup.sublist (List.filter_sublist.map Prod.fst)⟩

theorem lookup_remove (k k' : κ) (l : List (κ × ν)) :
    lookup k' (remove k l) = if k = k' then none else lookup k' l := by
  induction l with
  | nil => simp [remove, lookup]
  | cons p rest ih =>
      obtain ⟨k₀, v₀⟩ := p
      unfold remove at ih ⊢
      by_cases h : k₀ = k
      · by_cases h' : k = k' <;> simp_all [lookup]
      · by_cases h' : k = k'
        · subst h'; simp_all [lookup]
        · simp_all [lookup]

/-- Only the items that meet `p`. -/
def filter (p : κ → ν → Bool) (d : Dict κ ν) : Dict κ ν :=
  ⟨d.items.filter fun item => p item.1 item.2, d.nodup.sublist (List.filter_sublist.map Prod.fst)⟩

theorem get?_filter (p : κ → ν → Bool) (d : Dict κ ν) (k : κ) :
    (d.filter p).get? k = (d.get? k).filter (p k) := by
  apply Option.ext
  intro v
  rw [get?_eq_some, Option.filter_eq_some_iff, get?_eq_some, filter, List.mem_filter]

theorem get?_pop (d : Dict κ ν) (k k' : κ) :
    (d.pop k).get? k' = if k = k' then none else d.get? k' := lookup_remove k k' d.items

theorem mem_keys_pop {d : Dict κ ν} {k x : κ} : x ∈ (d.pop k).keys ↔ k ≠ x ∧ x ∈ d.keys := by
  simp only [mem_keys, get?_pop]
  split
  · rename_i hk
    simp [hk]
  · rename_i hk
    simp [hk]

/-- An item can be taken to the front. -/
theorem items_perm_cons_pop {d : Dict κ ν} {k : κ} {v : ν} (h : d.get? k = some v) :
    d.items.Perm ((k, v) :: (d.pop k).items) := by
  obtain ⟨items, hnodup⟩ := d
  simp only [get?, pop] at h ⊢
  induction items with
  | nil => cases h
  | cons p rest ih =>
      obtain ⟨k', v'⟩ := p
      rw [List.map_cons, List.nodup_cons] at hnodup
      simp only [lookup] at h
      split at h
      · rename_i hk
        subst hk
        cases h
        have hrest : remove k' rest = rest := by
          rw [remove, List.filter_eq_self]
          intro p hm
          rw [decide_eq_true_eq]
          intro hp
          exact hnodup.1 (List.mem_map.mpr ⟨p, hm, hp⟩)
        rw [remove, List.filter_cons_of_neg (by simp), ← remove, hrest]
      · rename_i hk
        rw [remove, List.filter_cons_of_pos (by simpa using hk), ← remove]
        exact ((ih hnodup.2 h).cons _).trans (List.Perm.swap _ _ _)

theorem remove_assign (k : κ) (v : ν) (l : List (κ × ν)) : remove k (assign k v l) = remove k l := by
  induction l with
  | nil => simp [assign, remove]
  | cons p rest ih =>
      obtain ⟨k', v'⟩ := p
      rw [assign]
      split
      · rename_i hk
        rw [remove, remove, List.filter_cons_of_neg (by simp), List.filter_cons_of_neg (by simp [hk])]
      · rename_i hk
        rw [remove, remove, List.filter_cons_of_pos (by simpa using hk),
          List.filter_cons_of_pos (by simpa using hk), ← remove, ih, ← remove]

@[simp] theorem pop_set (d : Dict κ ν) (k : κ) (v : ν) : (d.set k v).pop k = d.pop k :=
  ext (remove_assign k v d.items)

theorem pop_pop (d : Dict κ ν) (k k' : κ) : (d.pop k).pop k' = (d.pop k').pop k := by
  apply ext
  simp only [pop, remove, List.filter_filter]
  apply List.filter_congr
  intro p _
  rw [Bool.and_comm]

/-- Two items change and the others stay. -/
theorem items_set_set {d : Dict κ ν} {k k' : κ} {v v' : ν} (hne : k ≠ k') (h : d.get? k = some v)
    (h' : d.get? k' = some v') :
    ∃ others, d.items.Perm ((k, v) :: (k', v') :: others) ∧
      ∀ x x', ((d.set k x).set k' x').items.Perm ((k, x) :: (k', x') :: others) := by
  refine ⟨((d.pop k).pop k').items, ?_, fun x x' => ?_⟩
  · have hpop : (d.pop k).get? k' = some v' := by rw [get?_pop, if_neg hne, h']
    exact (items_perm_cons_pop h).trans ((items_perm_cons_pop hpop).cons _)
  · have hset : ((d.set k x).set k' x').get? k = some x := by
      rw [get?_set, if_neg hne.symm, get?_set_self]
    have hpop : (((d.set k x).set k' x').pop k).get? k' = some x' := by
      rw [get?_pop, if_neg hne, get?_set_self]
    have hothers : (((d.set k x).set k' x').pop k).pop k' = (d.pop k).pop k' := by
      rw [pop_pop, pop_set, pop_pop, pop_set]
    rw [← hothers]
    exact (items_perm_cons_pop hset).trans ((items_perm_cons_pop hpop).cons _)

end Dict

end Lib
