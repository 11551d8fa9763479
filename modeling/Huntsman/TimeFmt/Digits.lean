import Huntsman.Lib.Pieces
import Huntsman.Lib.Reading
import Huntsman.Lib.Utf8
import Huntsman.Text
import Huntsman.TimeFmt.Civil

/-!
# Numbers in a text

What the parsers of dates and times have in common: texts as lists of characters, a text of nothing
but digits, and its number.  `IsNumber n text v` says that `text` is `n` digits and `v` what they
say.
-/

set_option autoImplicit false

namespace Huntsman.TimeFmt

abbrev Chars := List Char

abbrev Read : Type → Type := Reading Fault

/-! ## The source's functions -/

/-- `str::len`, in bytes. -/
def len (s : Chars) : ℕ := Offsets.total Char.utf8Size s

/-- `str::trim`. -/
def trim (s : Chars) : Chars := Pieces.trim Text.isWhitespace s

/-- The number that digits are. -/
def value (digits : Chars) : ℕ := Nat.ofDigitChars 10 digits 0

/-- One or more digits and nothing else. -/
def isDigits (field : Chars) : Bool := !field.isEmpty && field.all Char.isDigit

def toI64 (n : ℤ) : Option ℤ := if IsI64 n then some n else none

def toI32 (n : ℤ) : Option ℤ := if IsI32 n then some n else none

/-- `n` digits that say `v`. -/
structure IsNumber (n : ℕ) (text : Chars) (v : ℕ) : Prop where
  length_eq : text.length = n
  isDigit : ∀ c ∈ text, c.isDigit = true
  value_eq : value text = v

variable {n v : ℕ} {text : Chars} {c : Char}

theorem toNat_of_isDigit (h : c.isDigit = true) : 48 ≤ c.toNat ∧ c.toNat ≤ 57 := by
  rw [Char.isDigit, Bool.and_eq_true, decide_eq_true_eq, decide_eq_true_eq] at h
  exact h

theorem len_of_isDigit (h : ∀ c ∈ text, c.isDigit = true) : len text = text.length :=
  Utf8.total_ascii fun c hc ↦ (toNat_of_isDigit (h c hc)).2.trans_lt (by decide)

theorem value_lt (h : ∀ c ∈ text, c.isDigit = true) : value text < 10 ^ text.length := by
  rw [value]
  induction text with
  | nil => exact Nat.one_pos
  | cons c text ih =>
    rw [List.forall_mem_cons] at h
    have hc := toNat_of_isDigit h.1
    have hfirst : '0'.toNat = 48 := rfl
    rw [Nat.ofDigitChars_cons, Nat.ofDigitChars_eq_ofDigitChars_zero, List.length_cons, Nat.pow_succ,
      hfirst, Nat.mul_zero, Nat.zero_add]
    have hrest := ih h.2
    have hdigit : c.toNat - 48 ≤ 9 := by omega
    have hmul := Nat.mul_le_mul_left (10 ^ text.length) hdigit
    omega

theorem IsNumber.lt (h : IsNumber n text v) : v < 10 ^ n := by
  rw [← h.value_eq, ← h.length_eq]
  exact value_lt h.isDigit

theorem IsNumber.unique {w : ℕ} (h : IsNumber n text v) (h' : IsNumber n text w) : v = w :=
  h.value_eq.symm.trans h'.value_eq

theorem isDigits_iff : isDigits text = true ↔ text ≠ [] ∧ ∀ c ∈ text, c.isDigit = true := by
  rw [isDigits, Bool.and_eq_true, Bool.not_eq_true', List.isEmpty_eq_false_iff, List.all_eq_true]

theorem isNumber_of_isDigits (h : isDigits text = true) :
    IsNumber text.length text (value text) ∧ len text = text.length := by
  have hdigit := (isDigits_iff.1 h).2
  exact ⟨⟨rfl, hdigit, rfl⟩, len_of_isDigit hdigit⟩

theorem IsNumber.isDigits (h : IsNumber n text v) (hn : 0 < n) : isDigits text = true := by
  refine isDigits_iff.2 ⟨?_, h.isDigit⟩
  rintro rfl
  exact absurd h.length_eq.symm hn.ne'

end Huntsman.TimeFmt
