import Mathlib.Algebra.Group.Nat.Defs
import Mathlib.Data.Rat.Defs
import Mathlib.Logic.Function.Basic

/-!
# What the process takes from its runtime

Clock readings and generated ids come as streams, of which a run of the program consumes a prefix.
Money is in integer cents, and times are exact rationals.
-/

namespace ExpenseSettlement

structure Runtime where
  /-- Whether `s.encode()` returns. It raises for lone surrogates, which a `str` of the source may hold.
  They are no characters here, so it is left open which texts stand for such a `str`. -/
  encodes : String → Bool
  /-- `hashlib.sha256(s.encode()).hexdigest()` of a text that can be encoded. -/
  sha256 : String → String
  /-- The successive values of `str(uuid.uuid4())`. -/
  uuid4 : Nat → String
  /-- The successive readings of the wall clock. -/
  time : Nat → ℚ
  /-- `str(x)` of a float. -/
  strFloat : ℚ → String
  /-- `x.isoformat()` of a wall clock reading. -/
  isoformat : ℚ → String
  /-- `repr(s)` of a string, as in `f"{s!r}"`. -/
  repr : String → String
  uuid4_injective : Function.Injective uuid4
  uuid4_ne_empty : ∀ n, uuid4 n ≠ ""
  uuid4_no_bar : ∀ n, '|' ∉ (uuid4 n).toList
  encodes_append : ∀ s t, encodes (s ++ t) = (encodes s && encodes t)
  encodes_ascii : ∀ s : String, s.toList.all (·.toNat < 128) → encodes s = true
  encodes_sha256 : ∀ s, encodes (sha256 s) = true
  encodes_uuid4 : ∀ n, encodes (uuid4 n) = true
  encodes_strFloat : ∀ q, encodes (strFloat q) = true

/-- Ids that count up, a clock that ticks every second, and texts that are their own digests. -/
def Runtime.sequential : Runtime where
  encodes := fun _ => true
  sha256 := id
  uuid4 := fun n => "00000000-0000-4000-8000-" ++ toString n
  time := fun n => n
  strFloat := fun q => toString q.num ++ "." ++ toString q.den
  isoformat := fun q => toString q.num ++ "/" ++ toString q.den
  repr := fun s => "'" ++ s ++ "'"
  uuid4_injective := by
    intro m n h
    have hd : Nat.toDigits 10 m = Nat.toDigits 10 n := by simpa using congrArg String.toList h
    rw [← Nat.ofDigitChars_ten_toDigits (n := m), hd, Nat.ofDigitChars_ten_toDigits]
  uuid4_ne_empty := by
    intro n h
    simp at h
  uuid4_no_bar := by
    intro n h
    have hd : '|' ∈ Nat.toDigits 10 n := by simpa using h
    exact absurd (Nat.isDigit_of_mem_toDigits (by decide) (by decide) hd) (by decide)
  encodes_append := fun _ _ => rfl
  encodes_ascii := fun _ _ => rfl
  encodes_sha256 := fun _ => rfl
  encodes_uuid4 := fun _ => rfl
  encodes_strFloat := fun _ => rfl

structure Draws where
  uuids : Nat
  times : Nat
deriving DecidableEq, Repr

structure Draws.Later (d d' : Draws) : Prop where
  uuids : d.uuids ≤ d'.uuids
  times : d.times ≤ d'.times

namespace Draws.Later

variable {d d' d'' : Draws}

theorem refl (d : Draws) : Later d d := ⟨Nat.le_refl _, Nat.le_refl _⟩

theorem trans (h : Later d d') (h' : Later d' d'') : Later d d'' :=
  ⟨h.uuids.trans h'.uuids, h.times.trans h'.times⟩

theorem nextId (d : Draws) : Later d { d with uuids := d.uuids + 1 } := ⟨Nat.le_succ _, Nat.le_refl _⟩

/-- An id and a reading of the clock. -/
theorem next (d : Draws) : Later d ⟨d.uuids + 1, d.times + 1⟩ := ⟨Nat.le_succ _, Nat.le_succ _⟩

end Draws.Later

/-- `int(x)`: towards zero. -/
def truncate (x : ℚ) : ℤ := x.num.tdiv x.den

inductive PyError
  | valueError (message : String)
  | unicodeEncodeError
  | validationError
  | ledgerImbalanceError (message : String)
  | zeroSumViolationError (message : String)
  | keyError (key : String)
  | overflowError
deriving DecidableEq, Repr

/-! ## Texts of integers and digests -/

/-- What a text or its encoding can raise. -/
def IsTextError : PyError → Prop
  | .valueError _ => True
  | .unicodeEncodeError => True
  | _ => False

/-- `sys.get_int_max_str_digits()`, as it is by default. -/
def maxStrDigits : Nat := 4300

/-- `str(n)` of an integer. -/
def strInt (n : ℤ) : Except PyError String :=
  if (Nat.toDigits 10 n.natAbs).length ≤ maxStrDigits then
    .ok (toString n)
  else
    .error (.valueError (s!"Exceeds the limit ({maxStrDigits} digits) for integer string conversion; " ++
      "use sys.set_int_max_str_digits() to increase the limit"))

/-- A `ValueError` whose message quotes an integer. -/
def valueErrorOn (n : ℤ) (message : String → String) : PyError :=
  match strInt n with
  | .ok text => .valueError (message text)
  | .error e => e

/-- `hashlib.sha256(s.encode()).hexdigest()` -/
def Runtime.hexdigest (R : Runtime) (s : String) : Except PyError String :=
  if R.encodes s then .ok (R.sha256 s) else .error .unicodeEncodeError

/-- The integer has a text. -/
def Printable (n : ℤ) : Prop := n.natAbs < 10 ^ maxStrDigits

instance (n : ℤ) : Decidable (Printable n) := inferInstanceAs (Decidable (_ < _))

theorem length_toDigits_le_iff_printable {n : ℤ} :
    (Nat.toDigits 10 n.natAbs).length ≤ maxStrDigits ↔ Printable n :=
  Nat.length_toDigits_le_iff (by decide) (by decide)

theorem strInt_of_printable {n : ℤ} (h : Printable n) : strInt n = .ok (toString n) :=
  if_pos (length_toDigits_le_iff_printable.mpr h)

theorem strInt_of_not_printable {n : ℤ} (h : ¬ Printable n) :
    ∃ message, strInt n = .error (.valueError message) :=
  ⟨_, if_neg fun hle => h (length_toDigits_le_iff_printable.mp hle)⟩

theorem valueErrorOn_eq (n : ℤ) (message : String → String) :
    ∃ message', valueErrorOn n message = .valueError message' := by
  unfold valueErrorOn
  by_cases h : Printable n
  · rw [strInt_of_printable h]
    exact ⟨_, rfl⟩
  · obtain ⟨_, he⟩ := strInt_of_not_printable h
    rw [he]
    exact ⟨_, rfl⟩

/-- One dict `{user_id, amount_cents}` of a split list. -/
structure Split where
  userId : String
  amountCents : ℤ
deriving DecidableEq, Repr

end ExpenseSettlement
