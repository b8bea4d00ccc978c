import Mathlib.Data.List.Basic

/-!
# Parsing joined strings

A string can be told apart from another by its first character, and a field that does not contain
the separator can be read back from either end of a joined string.
-/

namespace Lib

theorem append_ne_of_head {p q : String} {c d : Char} (hp : p.toList.head? = some c)
    (hq : q.toList.head? = some d) (hcd : c ≠ d) (s t : String) : p ++ s ≠ q ++ t := by
  intro h
  have h' := congrArg (fun s => s.toList.head?) h
  simp only [String.toList_append, List.head?_append, hp, hq, Option.some_or, Option.some.injEq] at h'
  exact hcd h'

/-- The field in front of the first separator is determined by the whole text. -/
theorem field_inj {sep : Char} {a b r s : List Char} (ha : sep ∉ a) (hb : sep ∉ b)
    (h : a ++ sep :: r = b ++ sep :: s) : a = b ∧ r = s := by
  induction a generalizing b with
  | nil =>
      cases b with
      | nil => exact ⟨rfl, (List.cons.inj h).2⟩
      | cons y b => exact absurd (List.cons.inj h).1 fun e => hb (by simp [e])
  | cons x a ih =>
      cases b with
      | nil => exact absurd (List.cons.inj h).1 fun e => ha (by simp [e])
      | cons y b =>
          obtain ⟨rfl, h'⟩ := List.cons.inj h
          obtain ⟨rfl, rfl⟩ := ih (fun hm => ha (by simp [hm])) (fun hm => hb (by simp [hm])) h'
          exact ⟨rfl, rfl⟩

theorem last_field_inj {sep : Char} {a b r s : List Char} (ha : sep ∉ a) (hb : sep ∉ b)
    (h : r ++ sep :: a = s ++ sep :: b) : r = s ∧ a = b := by
  have hrev : a.reverse ++ sep :: r.reverse = b.reverse ++ sep :: s.reverse := by
    simpa using congrArg List.reverse h
  obtain ⟨hab, hrs⟩ := field_inj (by simpa using ha) (by simpa using hb) hrev
  exact ⟨List.reverse_injective hrs, List.reverse_injective hab⟩

end Lib
