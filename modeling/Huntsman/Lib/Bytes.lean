import Mathlib.Algebra.Ring.Nat
import Mathlib.Data.List.Basic

/-!
# Bytes of a message

A reader of a binary format looks at a message by position.  `slice` is a checked range of it, as
`get(a..b)` of a Rust slice is, and `Holds body pos bytes` says that the message has `bytes` from
`pos` on.  A layout that is written one part after the other is read back one part after the other
(`Holds.append_iff`).

Numbers are in network order.
-/

set_option autoImplicit false

universe u

namespace Bytes

open List

variable {α : Type u} {body xs ys : List α} {pos : ℕ} {x : α}

/-- The elements from `a` up to `b`, or `none` where there are none. -/
def slice (body : List α) (a b : ℕ) : Option (List α) :=
  if a ≤ b ∧ b ≤ body.length then some ((body.drop a).take (b - a)) else none

theorem slice_zero {n : ℕ} (h : n ≤ body.length) : slice body 0 n = some (body.take n) := by
  rw [slice, if_pos ⟨Nat.zero_le n, h⟩, drop_zero, Nat.sub_zero]

/-- The message has `bytes` from `pos` on. -/
def Holds (body : List α) (pos : ℕ) (bytes : List α) : Prop :=
  pos + bytes.length ≤ body.length ∧ bytes <+: body.drop pos

instance [DecidableEq α] : Decidable (Holds body pos xs) :=
  inferInstanceAs (Decidable (_ ∧ _))

theorem Holds.le (h : Holds body pos xs) : pos + xs.length ≤ body.length := h.1

theorem holds_append_iff :
    Holds body pos (xs ++ ys) ↔ Holds body pos xs ∧ Holds body (pos + xs.length) ys := by
  unfold Holds
  rw [length_append, ← drop_drop]
  constructor
  · rintro ⟨hlen, more, hmore⟩
    rw [append_assoc] at hmore
    refine ⟨⟨by omega, _, hmore⟩, by omega, more, ?_⟩
    rw [← hmore, drop_left]
  · rintro ⟨⟨hlen, more, hmore⟩, hlen', hys⟩
    refine ⟨by omega, ?_⟩
    rw [← hmore, drop_left] at hys
    rw [← hmore]
    exact (prefix_append_right_inj xs).2 hys

theorem Holds.left (h : Holds body pos (xs ++ ys)) : Holds body pos xs :=
  (holds_append_iff.1 h).1

theorem Holds.right (h : Holds body pos (xs ++ ys)) : Holds body (pos + xs.length) ys :=
  (holds_append_iff.1 h).2

theorem Holds.head (h : Holds body pos (x :: xs)) : body[pos]? = some x := by
  obtain ⟨-, more, hmore⟩ := h
  have hget : (body.drop pos)[0]? = body[pos + 0]? := getElem?_drop
  rw [← hmore, Nat.add_zero] at hget
  exact hget.symm

theorem Holds.tail (h : Holds body pos (x :: xs)) : Holds body (pos + 1) xs := by
  have hsplit : Holds body pos ([x] ++ xs) := h
  exact hsplit.right

theorem Holds.slice (h : Holds body pos xs) : slice body pos (pos + xs.length) = some xs := by
  obtain ⟨hlen, more, hmore⟩ := h
  rw [Bytes.slice, if_pos ⟨Nat.le_add_right _ _, hlen⟩, Nat.add_sub_cancel_left, ← hmore,
    take_left]

/-- Texts that are written one after the other are there one after the other. -/
theorem Holds.flatten {texts : List (List α)} {i : ℕ} (h : Holds body pos texts.flatten)
    (hi : texts[i]? = some xs) : Holds body (pos + (texts.take i).flatten.length) xs := by
  obtain ⟨hlt, hget⟩ := List.getElem?_eq_some_iff.1 hi
  rw [← List.take_append_drop i texts, List.flatten_append] at h
  rw [List.drop_eq_getElem_cons hlt, hget, List.flatten_cons] at h
  exact h.right.left

/-- Records of one length are there at multiples of it. -/
theorem Holds.flatMap {β : Type*} {f : β → List α} {width i : ℕ} {records : List β} {b : β}
    (hwidth : ∀ b, (f b).length = width) (h : Holds body pos (records.flatMap f))
    (hi : records[i]? = some b) : Holds body (pos + i * width) (f b) := by
  have hlength : ((records.map f).take i).flatten.length = i * width := by
    rw [← List.map_take, ← List.flatMap_def, List.length_flatMap]
    simp only [hwidth, List.map_const', List.sum_replicate_nat, List.length_take]
    rw [Nat.min_eq_left (Nat.le_of_lt (List.getElem?_eq_some_iff.1 hi).1)]
  rw [List.flatMap_def] at h
  have hget : (records.map f)[i]? = some (f b) := by rw [List.getElem?_map, hi, Option.map_some]
  rw [← hlength]
  exact h.flatten hget

/-- What ends before a place is there without what follows. -/
theorem Holds.take {n : ℕ} (h : Holds body pos xs) (hn : pos + xs.length ≤ n) :
    Holds (body.take n) pos xs := by
  obtain ⟨hlen, more, hmore⟩ := h
  refine ⟨by rw [length_take]; omega, more.take (n - pos - xs.length), ?_⟩
  have hall : xs.take (n - pos) = xs := take_of_length_le (by omega)
  rw [drop_take, ← hmore, take_append, hall]

theorem length_of_slice {a b : ℕ} (h : slice body a b = some xs) : xs.length = b - a := by
  unfold Bytes.slice at h
  split at h
  · rw [← Option.some.inj h, length_take, length_drop]
    omega
  · simp at h

/-- A range within a range. -/
theorem slice_slice {a b c d : ℕ} (h : slice body a b = some xs) (hd : d ≤ xs.length) :
    slice body (a + c) (a + d) = slice xs c d := by
  have hlength := length_of_slice h
  unfold Bytes.slice at h ⊢
  split at h
  · rename_i hab
    by_cases hcd : c ≤ d
    · rw [if_pos (by omega), if_pos ⟨hcd, hd⟩, ← Option.some.inj h, drop_take, take_take,
        drop_drop, Nat.add_sub_add_left, Nat.min_eq_left (by omega)]
    · rw [if_neg (by omega), if_neg (by omega)]
  · simp at h

/-- A message has all its bytes. -/
theorem holds_self (xs more : List α) : Holds (xs ++ more) 0 xs :=
  ⟨by simp, prefix_append _ _⟩

/-! ## Numbers in network order -/

/-- `u16::from_be_bytes`. -/
def word16 (high low : UInt8) : UInt16 := UInt16.ofNat (256 * high.toNat + low.toNat)

/-- `u32::from_be_bytes`. -/
def word32 (a b c d : UInt8) : UInt32 :=
  UInt32.ofNat (256 * (256 * (256 * a.toNat + b.toNat) + c.toNat) + d.toNat)

/-- `u16::to_be_bytes`. -/
def bytes16 (w : UInt16) : List UInt8 := [UInt8.ofNat (w.toNat / 256), UInt8.ofNat w.toNat]

/-- `u32::to_be_bytes`. -/
def bytes32 (w : UInt32) : List UInt8 :=
  [UInt8.ofNat (w.toNat / 256 ^ 3), UInt8.ofNat (w.toNat / 256 ^ 2), UInt8.ofNat (w.toNat / 256),
    UInt8.ofNat w.toNat]

/-- `u64::to_be_bytes`. -/
def bytes64 (w : UInt64) : List UInt8 :=
  bytes32 (UInt32.ofNat (w.toNat / 2 ^ 32)) ++ bytes32 (UInt32.ofNat w.toNat)

@[simp] theorem bytes16_length (w : UInt16) : (bytes16 w).length = 2 := rfl

@[simp] theorem bytes32_length (w : UInt32) : (bytes32 w).length = 4 := rfl

/-- Reading a number back. -/
theorem word16_bytes (w : UInt16) :
    word16 (UInt8.ofNat (w.toNat / 256)) (UInt8.ofNat w.toNat) = w := by
  apply UInt16.toNat_inj.1
  have hw := w.toNat_lt
  simp only [word16, UInt8.toNat_ofNat', UInt16.toNat_ofNat']
  omega

theorem word32_bytes (w : UInt32) :
    word32 (UInt8.ofNat (w.toNat / 256 ^ 3)) (UInt8.ofNat (w.toNat / 256 ^ 2))
      (UInt8.ofNat (w.toNat / 256)) (UInt8.ofNat w.toNat) = w := by
  apply UInt32.toNat_inj.1
  have hw := w.toNat_lt
  simp only [word32, UInt8.toNat_ofNat', UInt32.toNat_ofNat']
  omega

theorem bytes32_injective : Function.Injective bytes32 := by
  intro v w h
  obtain ⟨ha, h⟩ := cons.inj h
  obtain ⟨hb, h⟩ := cons.inj h
  obtain ⟨hc, h⟩ := cons.inj h
  rw [← word32_bytes v, ← word32_bytes w, ha, hb, hc, (cons.inj h).1]

@[simp] theorem bytes64_length (w : UInt64) : (bytes64 w).length = 8 := rfl

theorem bytes64_injective : Function.Injective bytes64 := by
  intro v w h
  obtain ⟨hhigh, hlow⟩ := append_inj h rfl
  have hhigh := congrArg UInt32.toNat (bytes32_injective hhigh)
  have hlow := congrArg UInt32.toNat (bytes32_injective hlow)
  apply UInt64.toNat_inj.1
  have hv := v.toNat_lt
  have hw := w.toNat_lt
  simp only [UInt32.toNat_ofNat'] at hhigh hlow
  omega

/-! ## Numbers with the lowest byte first -/

/-- The lowest bytes of a number, as many as asked for. -/
def littleEndian : ℕ → ℕ → List UInt8
  | 0, _ => []
  | width + 1, n => UInt8.ofNat n :: littleEndian width (n / 256)

def ofLittleEndian : List UInt8 → ℕ
  | [] => 0
  | b :: rest => b.toNat + 256 * ofLittleEndian rest

@[simp] theorem length_littleEndian (width n : ℕ) : (littleEndian width n).length = width := by
  induction width generalizing n with
  | zero => rfl
  | succ width ih => rw [littleEndian, length_cons, ih]

theorem ofLittleEndian_littleEndian {width n : ℕ} (h : n < 256 ^ width) :
    ofLittleEndian (littleEndian width n) = n := by
  induction width generalizing n with
  | zero =>
    rw [Nat.pow_zero, Nat.lt_one_iff] at h
    rw [h]
    rfl
  | succ width ih =>
    rw [Nat.pow_succ'] at h
    rw [littleEndian, ofLittleEndian, ih (Nat.div_lt_of_lt_mul h), UInt8.toNat_ofNat']
    omega

/-- A number at a position. -/
def number (body : List UInt8) (width pos : ℕ) : Option ℕ :=
  (slice body pos (pos + width)).map ofLittleEndian

theorem Holds.number {body : List UInt8} {width n : ℕ}
    (h : Holds body pos (littleEndian width n)) (hn : n < 256 ^ width) :
    number body width pos = some n := by
  have hslice := h.slice
  rw [length_littleEndian] at hslice
  rw [Bytes.number, hslice, Option.map_some, ofLittleEndian_littleEndian hn]

end Bytes
