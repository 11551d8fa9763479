import Mathlib.Data.Rat.Cast.Order

/-!
# Confidences

Confidences are `f64`s.  The modelled code only compares them and takes maxima and minima, never
computes with them, so a double is here what comparison sees of it: not a number, or a point of the
extended line.  The points are all the rationals rather than the doubles among them, so whatever
holds for every `F64` holds for every double.  The two zeros compare equal and are one value.
-/

set_option autoImplicit false

namespace Huntsman

/-- A double, up to what comparisons tell apart. -/
inductive F64 where
  /-- Not a number: every comparison with it is false. -/
  | nan
  /-- A finite double, or one of the two infinities. -/
  | number (value : WithBot (WithTop ℚ))
deriving DecidableEq

namespace F64

/-- The double of a rational. -/
def ofRat (q : ℚ) : F64 := .number ((q : WithTop ℚ) : WithBot (WithTop ℚ))

/-- `self < other`. -/
def lt : F64 → F64 → Bool
  | .number a, .number b => decide (a < b)
  | _, _ => false

/-- `self >= other`. -/
def ge : F64 → F64 → Bool
  | .number a, .number b => decide (b ≤ a)
  | _, _ => false

/-- `self == other`. -/
def eq : F64 → F64 → Bool
  | .number a, .number b => decide (a = b)
  | _, _ => false

/-- `self.partial_cmp(&other)`. -/
def partialCmp : F64 → F64 → Option Ordering
  | .number a, .number b => some (compare a b)
  | _, _ => none

/-- `f64::max`: a NaN gives way to the other argument. -/
def max : F64 → F64 → F64
  | .nan, b => b
  | a, .nan => a
  | .number a, .number b => .number (a ⊔ b)

/-- `f64::min`: a NaN gives way to the other argument. -/
def min : F64 → F64 → F64
  | .nan, b => b
  | a, .nan => a
  | .number a, .number b => .number (a ⊓ b)

/-- `self.is_finite()`. -/
def isFinite : F64 → Bool
  | .nan => false
  | .number value => decide (value ≠ ⊥ ∧ value ≠ ⊤)

/-- `self.clamp(low, high)`. -/
def clamp (self low high : F64) : F64 :=
  if self.lt low then low else if high.lt self then high else self

end F64

end Huntsman
