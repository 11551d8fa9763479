import Mathlib.Algebra.Order.Group.Nat

/-!
# Numbers in bytes of seven bits

A number of any size is written seven bits at a time, the highest first, and each byte but the last
is marked with its high bit.  `write` does that with as few bytes as can be.  A sequence of numbers
written one after the other is read back by gathering seven bits from each byte until one is not
marked (`foldl_step_write`).
-/

set_option autoImplicit false

namespace Base128

open List

/-- The marked bytes of a number, none for zero. -/
def marked (n : ℕ) : List UInt8 :=
  if n = 0 then [] else marked (n / 128) ++ [UInt8.ofNat (n % 128 + 128)]

/-- A number, in as few bytes as can be. -/
def write (n : ℕ) : List UInt8 := marked (n / 128) ++ [UInt8.ofNat (n % 128)]

/-- The numbers read so far, and what is gathered of the next. -/
abbrev State (α : Type) := List α × α

section

variable {α : Type} (add : α → ℕ → α) (zero : α)

/-- Gather seven bits more, and end the number at a byte that is not marked. -/
def step (state : State α) (byte : UInt8) : State α :=
  let gathered := add state.2 (byte.toNat % 128)
  if byte.toNat < 128 then (state.1 ++ [gathered], zero) else (state.1, gathered)

variable {add zero}

theorem step_marked (state : State α) (d : ℕ) :
    step add zero state (UInt8.ofNat (d % 128 + 128)) = (state.1, add state.2 (d % 128)) := by
  have hbyte : (UInt8.ofNat (d % 128 + 128)).toNat = d % 128 + 128 := by
    rw [UInt8.toNat_ofNat']
    omega
  rw [step, hbyte, if_neg (by omega), Nat.add_mod_right, Nat.mod_mod]

theorem step_last (state : State α) (d : ℕ) :
    step add zero state (UInt8.ofNat (d % 128)) = (state.1 ++ [add state.2 (d % 128)], zero) := by
  have hbyte : (UInt8.ofNat (d % 128)).toNat = d % 128 := by
    rw [UInt8.toNat_ofNat']
    omega
  rw [step, hbyte, if_pos (by omega), Nat.mod_mod]

variable {value : ℕ → α}

/-- **What is gathered of a number is its value**, as far as the adding keeps to it. -/
theorem foldl_step_marked (hzero : value 0 = zero)
    (hadd : ∀ n d, d < 128 → add (value n) d = value (128 * n + d)) (out : List α) (n : ℕ) :
    (marked n).foldl (step add zero) (out, zero) = (out, value n) := by
  induction n using Nat.strongRecOn with
  | ind n ih =>
    rw [marked]
    split
    · rename_i h
      rw [h, hzero]
      rfl
    · rename_i h
      rw [foldl_append, ih (n / 128) (by omega), foldl_cons, foldl_nil, step_marked,
        hadd _ _ (by omega), Nat.div_add_mod]

theorem foldl_step_write (hzero : value 0 = zero)
    (hadd : ∀ n d, d < 128 → add (value n) d = value (128 * n + d)) (out : List α) (n : ℕ) :
    (write n).foldl (step add zero) (out, zero) = (out ++ [value n], zero) := by
  rw [write, foldl_append, foldl_step_marked hzero hadd, foldl_cons, foldl_nil,
    step_last, hadd _ _ (by omega), Nat.div_add_mod]

/-- **Numbers that are written are read back**, as far as the adding keeps to their values. -/
theorem foldl_step_flatMap (hzero : value 0 = zero)
    (hadd : ∀ n d, d < 128 → add (value n) d = value (128 * n + d)) (ns : List ℕ) (out : List α) :
    (ns.flatMap write).foldl (step add zero) (out, zero) = (out ++ ns.map value, zero) := by
  induction ns generalizing out with
  | nil => rw [flatMap_nil, foldl_nil, map_nil, append_nil]
  | cons n ns ih =>
    rw [flatMap_cons, foldl_append, foldl_step_write hzero hadd, ih, map_cons,
      append_assoc, singleton_append]

end

end Base128
