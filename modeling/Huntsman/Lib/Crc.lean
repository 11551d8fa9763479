import Mathlib.Algebra.Field.ZMod
import Mathlib.RingTheory.AdjoinRoot

/-!
# Checksums that are remainders

A checksum of this kind is computed bit by bit in a register, and is the remainder of a division of
polynomials with coefficients 0 and 1.  Here the registers are reflected: the lowest bit is the
coefficient of the highest power (`Crc.poly`).  The register after some bytes is the remainder of
them all (`poly_divide`).
-/

set_option autoImplicit false

namespace Crc

open Polynomial

variable {w : ℕ}

/-- The polynomial of a register.  The lowest bit is the coefficient of the highest power. -/
noncomputable def poly (c : BitVec w) : (ZMod 2)[X] :=
  ∑ i ∈ Finset.range w, if c.getLsbD (w - 1 - i) then X ^ i else 0

/-- The divisor: the highest power, and what the register holds of the others. -/
noncomputable def divisor (g : BitVec w) : (ZMod 2)[X] := X ^ w + poly g

/-- The division of one bit. -/
def shift (g c : BitVec w) : BitVec w := if c.getLsbD 0 then (c >>> 1) ^^^ g else c >>> 1

/-- The division of bytes. -/
def divide (g c : BitVec w) (data : List UInt8) : BitVec w :=
  data.foldl (fun c b ↦ (shift g)^[8] (c ^^^ b.toBitVec.setWidth w)) c

/-- The polynomial of bytes, the lowest bit of each the first. -/
noncomputable def message : List UInt8 → (ZMod 2)[X]
  | [] => 0
  | b :: data => poly b.toBitVec * X ^ (8 * data.length) + message data

theorem coeff_poly (c : BitVec w) (i : ℕ) :
    (poly c).coeff i = if i < w ∧ c.getLsbD (w - 1 - i) = true then 1 else 0 := by
  have hcoeff : ∀ j, (if c.getLsbD (w - 1 - j) then (X : (ZMod 2)[X]) ^ j else 0).coeff i =
      if i = j then if c.getLsbD (w - 1 - i) then 1 else 0 else 0 := by
    intro j
    by_cases hj : i = j
    · subst hj
      cases c.getLsbD (w - 1 - i) <;> simp
    · cases c.getLsbD (w - 1 - j) <;> simp [hj, coeff_X_pow]
  rw [poly, finsetSum_coeff, Finset.sum_congr rfl fun j _ ↦ hcoeff j, Finset.sum_ite_eq]
  by_cases hi : i < w
  · simp [hi]
  · simp [hi]

theorem degree_poly_lt (c : BitVec w) : (poly c).degree < w := by
  rw [degree_lt_iff_coeff_zero]
  intro i hi
  rw [coeff_poly, if_neg fun h ↦ absurd h.1 (not_lt.2 hi)]

theorem poly_xor (c d : BitVec w) : poly (c ^^^ d) = poly c + poly d := by
  ext i
  rw [coeff_add, coeff_poly, coeff_poly, coeff_poly, BitVec.getLsbD_xor]
  have htwo : (1 : ZMod 2) + 1 = 0 := by decide
  by_cases hi : i < w
  · cases c.getLsbD (w - 1 - i) <;> cases d.getLsbD (w - 1 - i) <;> simp [hi, htwo]
  · simp [hi]

theorem monic_divisor (g : BitVec w) : (divisor g).Monic :=
  monic_X_pow_add (degree_poly_lt g)

theorem degree_divisor (g : BitVec w) : (divisor g).degree = w := by
  rw [divisor, degree_add_eq_left_of_degree_lt, degree_X_pow]
  rw [degree_X_pow]
  exact degree_poly_lt g

/-- A shift loses the highest power. -/
theorem X_mul_poly (hw : 0 < w) (c : BitVec w) :
    X * poly c = poly (c >>> 1) + if c.getLsbD 0 then X ^ w else 0 := by
  ext i
  rcases i with _ | i
  · rw [coeff_X_mul_zero, coeff_add, coeff_poly, BitVec.getLsbD_ushiftRight,
      BitVec.getLsbD_of_ge _ _ (by omega), if_neg (by simp)]
    cases c.getLsbD 0 <;> simp [coeff_X_pow, hw.ne]
  · rw [coeff_X_mul, coeff_add, coeff_poly, coeff_poly, BitVec.getLsbD_ushiftRight]
    rcases lt_trichotomy (i + 1) w with hi | hi | hi
    · have hindex : 1 + (w - 1 - (i + 1)) = w - 1 - i := by omega
      have hlast : (if c.getLsbD 0 then (X : (ZMod 2)[X]) ^ w else 0).coeff (i + 1) = 0 := by
        cases c.getLsbD 0 <;> simp [coeff_X_pow, hi.ne]
      rw [hindex, hlast, add_zero]
      simp [hi, Nat.lt_of_succ_lt hi]
    · have hindex : w - 1 - i = 0 := by omega
      rw [hindex, if_neg (by omega : ¬ (i + 1 < w ∧ _)), zero_add]
      have hlt : i < w := by omega
      cases c.getLsbD 0 <;> simp [hi, hlt]
    · rw [if_neg (by omega : ¬ (i < w ∧ _)), if_neg (by omega : ¬ (i + 1 < w ∧ _)), zero_add]
      cases c.getLsbD 0 <;> simp [coeff_X_pow, hi.ne']

/-- **A bit of the division multiplies by `X`**, up to the divisor. -/
theorem poly_shift (hw : 0 < w) (g c : BitVec w) :
    AdjoinRoot.mk (divisor g) (poly (shift g c)) = AdjoinRoot.mk (divisor g) (X * poly c) := by
  rw [AdjoinRoot.mk_eq_mk, X_mul_poly hw, shift]
  cases c.getLsbD 0 with
  | false => simp
  | true =>
    refine ⟨1, ?_⟩
    rw [if_pos rfl, if_pos rfl, poly_xor, CharTwo.sub_eq_add, add_add_add_comm,
      CharTwo.add_self_eq_zero, zero_add, mul_one, divisor, add_comm]

theorem poly_shift_iterate (hw : 0 < w) (g c : BitVec w) (n : ℕ) :
    AdjoinRoot.mk (divisor g) (poly ((shift g)^[n] c)) =
      AdjoinRoot.mk (divisor g) (X ^ n * poly c) := by
  induction n with
  | zero => rw [Function.iterate_zero, id, pow_zero, one_mul]
  | succ n ih =>
    rw [Function.iterate_succ_apply', poly_shift hw, map_mul, ih, ← map_mul, ← mul_assoc,
      ← pow_succ']

/-- A byte stands at the top of the register. -/
theorem poly_setWidth {v : ℕ} (hv : v ≤ w) (b : BitVec v) :
    poly (b.setWidth w) = poly b * X ^ (w - v) := by
  ext i
  rw [coeff_mul_X_pow', coeff_poly, coeff_poly, BitVec.getLsbD_setWidth]
  by_cases hi : w - v ≤ i
  · have hindex : v - 1 - (i - (w - v)) = w - 1 - i := by omega
    have hrange : i < w ↔ i - (w - v) < v := by omega
    have hlt : i - (w - v) < v → w - 1 - i < w := by omega
    rw [if_pos hi, hindex]
    by_cases hiv : i - (w - v) < v
    · simp [hiv, hrange.2 hiv, hlt hiv]
    · simp [hiv, mt hrange.1 hiv]
  · rw [if_neg hi, BitVec.getLsbD_of_ge b (w - 1 - i) (by omega), if_neg (by simp)]

/-- The register after bytes, up to the divisor. -/
theorem mk_poly_divide (hw : 8 ≤ w) (g c : BitVec w) (data : List UInt8) :
    AdjoinRoot.mk (divisor g) (poly (divide g c data)) = AdjoinRoot.mk (divisor g)
      (poly c * X ^ (8 * data.length) + message data * X ^ w) := by
  induction data generalizing c with
  | nil => simp [divide, message]
  | cons b data ih =>
    have hstep : divide g c (b :: data) =
      divide g ((shift g)^[8] (c ^^^ b.toBitVec.setWidth w)) data := rfl
    have hpower : (X : (ZMod 2)[X]) ^ w = X ^ (w - 8) * X ^ 8 := by
      rw [← pow_add, Nat.sub_add_cancel hw]
    rw [hstep, ih, map_add, map_mul, poly_shift_iterate (Nat.zero_lt_of_lt hw), ← map_mul,
      ← map_add, poly_xor, poly_setWidth hw, message, List.length_cons, hpower, Nat.mul_succ,
      pow_add]
    exact congrArg _ (by ring)

/-- **The register after bytes is a remainder**: that of the bytes, behind the register before them,
divided with room for the register. -/
theorem poly_divide (hw : 8 ≤ w) (g c : BitVec w) (data : List UInt8) :
    poly (divide g c data) =
      (poly c * X ^ (8 * data.length) + message data * X ^ w) %ₘ divisor g := by
  have hself : poly (divide g c data) %ₘ divisor g = poly (divide g c data) := by
    rw [modByMonic_eq_self_iff (monic_divisor g), degree_divisor]
    exact degree_poly_lt _
  rw [← hself, ← AdjoinRoot.modByMonicHom_mk (monic_divisor g), mk_poly_divide hw,
    AdjoinRoot.modByMonicHom_mk]

end Crc
