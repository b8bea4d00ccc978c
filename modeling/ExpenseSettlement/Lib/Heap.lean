import Mathlib.Data.List.Sort

/-!
# Priority queues

A min-heap seen through its operations: the items in ascending order. Only `push` and `pop?` build
one, so the order is part of the type.
-/

namespace Lib

structure Heap (α : Type) [LinearOrder α] where
  items : List α
  sorted : items.Pairwise (· ≤ ·)

namespace Heap

variable {α : Type} [LinearOrder α]

def empty : Heap α := ⟨[], List.Pairwise.nil⟩

instance : Inhabited (Heap α) := ⟨empty⟩

@[simp] theorem items_empty : (empty : Heap α).items = [] := rfl

/-- `heappush(h, x)`. -/
def push (h : Heap α) (x : α) : Heap α :=
  ⟨h.items.orderedInsert (· ≤ ·) x, h.sorted.orderedInsert x h.items⟩

/-- `heappop(h)`: the smallest item and the rest. -/
def pop? : Heap α → Option (α × Heap α)
  | ⟨[], _⟩ => none
  | ⟨x :: rest, hs⟩ => some (x, ⟨rest, hs.tail⟩)

def length (h : Heap α) : Nat := h.items.length

theorem push_perm (h : Heap α) (x : α) : (h.push x).items.Perm (x :: h.items) :=
  List.perm_orderedInsert _ x h.items

@[simp] theorem length_push (h : Heap α) (x : α) : (h.push x).length = h.length + 1 :=
  List.orderedInsert_length _ h.items x

theorem pop?_eq_none {h : Heap α} : h.pop? = none ↔ h.items = [] := by
  obtain ⟨items, hs⟩ := h
  cases items <;> simp [pop?]

theorem pop?_items {h h' : Heap α} {x : α} (hp : h.pop? = some (x, h')) :
    h.items = x :: h'.items := by
  obtain ⟨items, hs⟩ := h
  cases items with
  | nil => simp [pop?] at hp
  | cons y rest =>
      simp only [pop?, Option.some.injEq, Prod.mk.injEq] at hp
      obtain ⟨rfl, rfl⟩ := hp
      rfl

theorem pop?_length {h h' : Heap α} {x : α} (hp : h.pop? = some (x, h')) :
    h.length = h'.length + 1 := by
  simp [length, pop?_items hp]

/-- A heap is what it holds. -/
theorem eq_of_perm {h h' : Heap α} (hp : h.items.Perm h'.items) : h = h' := by
  obtain ⟨items, hs⟩ := h
  obtain ⟨items', hs'⟩ := h'
  obtain rfl : items = items' := hp.eq_of_pairwise' hs hs'
  rfl

/-- The item that is popped is one that no other is smaller than. -/
theorem pop?_eq_some {h : Heap α} {x : α} (hx : x ∈ h.items) (hle : ∀ y ∈ h.items, x ≤ y) :
    ∃ h', h.pop? = some (x, h') := by
  obtain ⟨items, hs⟩ := h
  cases items with
  | nil => cases hx
  | cons y rest =>
      have hyx : y ≤ x := by
        rcases List.mem_cons.mp hx with rfl | hx
        · exact le_refl x
        · exact (List.pairwise_cons.mp hs).1 x hx
      obtain rfl := le_antisymm hyx (hle y List.mem_cons_self)
      exact ⟨_, rfl⟩

end Heap

end Lib
