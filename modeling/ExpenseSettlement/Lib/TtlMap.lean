import ExpenseSettlement.Lib.Dict
import Mathlib.Order.Lattice

/-!
# Maps whose entries expire

An entry is alive up to and including its expiry, if it has one. `purge` removes the others, and what
is alive at a time is not changed by purges before it.
-/

namespace Lib

variable {κ ν τ : Type}

structure TtlEntry (ν τ : Type) where
  value : ν
  expiry : Option τ

variable [LinearOrder τ] {now later : τ}

def TtlEntry.alive (now : τ) (e : TtlEntry ν τ) : Bool :=
  match e.expiry with
  | none => true
  | some exp => now ≤ exp

/-- The entry, if it is alive. -/
def aliveAt (now : τ) (e : Option (TtlEntry ν τ)) : Option (TtlEntry ν τ) := e.filter (·.alive now)

theorem TtlEntry.alive_of_le {e : TtlEntry ν τ} (hle : now ≤ later) (h : e.alive later = true) :
    e.alive now = true := by
  obtain ⟨value, expiry⟩ := e
  cases expiry with
  | none => rfl
  | some exp =>
      simp only [alive, decide_eq_true_eq] at h ⊢
      exact hle.trans h

@[simp] theorem aliveAt_none : aliveAt now (none : Option (TtlEntry ν τ)) = none := rfl

theorem aliveAt_aliveAt (hle : now ≤ later) (e : Option (TtlEntry ν τ)) :
    aliveAt later (aliveAt now e) = aliveAt later e := by
  cases e with
  | none => rfl
  | some e =>
      simp only [aliveAt, Option.filter_some]
      split
      · rw [Option.filter_some]
      · rename_i hdead
        rw [if_neg fun h => hdead (e.alive_of_le hle h)]
        rfl

/-- Entries that agree at a time agree from then on. -/
theorem aliveAt_congr {e e' : Option (TtlEntry ν τ)} (hle : now ≤ later)
    (h : aliveAt now e = aliveAt now e') : aliveAt later e = aliveAt later e' := by
  rw [← aliveAt_aliveAt hle e, h, aliveAt_aliveAt hle e']

variable [DecidableEq κ]

def purge (now : τ) (m : Dict κ (TtlEntry ν τ)) : Dict κ (TtlEntry ν τ) :=
  m.filter fun _ e => e.alive now

@[simp] theorem get?_purge (m : Dict κ (TtlEntry ν τ)) (k : κ) :
    (purge now m).get? k = aliveAt now (m.get? k) := m.get?_filter _ k

end Lib
