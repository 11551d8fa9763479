import Huntsman.Lib.Pieces
import Huntsman.Lib.Utf8

/-!
# Base64

`standard` writes bytes in groups of three as four digits of six bits, and `decodeStandard` reads a
text twice: once to see that it is digits and then padding, and once to collect the bits, six at a
time, in an accumulator that is never cleared.

Both are about digits (`encodeDigits`, `decodeFrom`): a group of four digits is three bytes,
whatever the accumulator held before, and the last two or three digits are one or two bytes if the
bits that are left are zero.
-/

set_option autoImplicit false

namespace Huntsman.Base64

open List

/-! ## The source's functions -/

def alphabet : List Char :=
  "ABCDEFGHIJKLMNOPQRSTUVWXYZabcdefghijklmnopqrstuvwxyz0123456789+/".toList

def alphabetUrlSafe : List Char :=
  "ABCDEFGHIJKLMNOPQRSTUVWXYZabcdefghijklmnopqrstuvwxyz0123456789-_".toList

/-- `char::from(table[usize::from(i)])`; every index of the source is below 64. -/
def digit (table : List Char) (i : UInt8) : Char := table.getD i.toNat '='

/-- What is written of a chunk of one to three bytes. -/
def encodeChunk (table : List Char) (pad : Bool) (chunk : List UInt8) : List Char :=
  let a := chunk.getD 0 0
  let b := chunk.getD 1 0
  let c := chunk.getD 2 0
  [digit table (a >>> 2), digit table (((a &&& 3) <<< 4) ||| (b >>> 4))] ++
    (if 1 < chunk.length then [digit table (((b &&& 15) <<< 2) ||| (c >>> 6))]
      else if pad then ['='] else []) ++
    if 2 < chunk.length then [digit table (c &&& 63)] else if pad then ['='] else []

def encode (bytes : List UInt8) (table : List Char) (pad : Bool) : List Char :=
  (Pieces.chunks 3 bytes).flatMap (encodeChunk table pad)

def standard (bytes : List UInt8) : List Char := encode bytes alphabet true

def urlUnpadded (bytes : List UInt8) : List Char := encode bytes alphabetUrlSafe false

/-- `u8::is_ascii_whitespace`. -/
def isAsciiWhitespace (b : UInt8) : Bool := b == 32 || b == 9 || b == 10 || b == 12 || b == 13

def decodeDigit (b : UInt8) : Option UInt8 :=
  if 65 ≤ b ∧ b ≤ 90 then some (b - 65)
  else if 97 ≤ b ∧ b ≤ 122 then some (b - 97 + 26)
  else if 48 ≤ b ∧ b ≤ 57 then some (b - 48 + 52)
  else if b = 43 then some 62
  else if b = 47 then some 63
  else none

/-- The first pass: the number of digits and of padding characters. -/
def count : List UInt8 → ℕ → ℕ → Option (ℕ × ℕ)
  | [], digits, padding => some (digits, padding)
  | b :: bytes, digits, padding =>
    if b = 61 then if padding + 1 > 2 then none else count bytes digits (padding + 1)
    else if padding ≠ 0 ∨ decodeDigit b = none then none
    else count bytes (digits + 1) padding

/-- The state of the second pass. -/
structure Decoder where
  output : List UInt8
  accumulator : UInt32
  pending : UInt32

def Decoder.start : Decoder := ⟨[], 0, 0⟩

/-- One digit more. -/
def Decoder.feed (d : Decoder) (value : UInt8) : Decoder :=
  let accumulator := (d.accumulator <<< 6) ||| value.toUInt32
  let pending := d.pending + 6
  if 8 ≤ pending then
    ⟨d.output ++ [((accumulator >>> (pending - 8)) &&& 0xff).toUInt8], accumulator, pending - 8⟩
  else ⟨d.output, accumulator, pending⟩

/-- The second pass. -/
def decodeAll : List UInt8 → Decoder → Option Decoder
  | [], d => some d
  | b :: bytes, d =>
    if b = 61 then some d else (decodeDigit b).bind fun value ↦ decodeAll bytes (d.feed value)

/-- What is left in the accumulator must be zero. -/
def Decoder.finish (d : Decoder) : Option (List UInt8) :=
  if d.pending ≠ 0 ∧ d.accumulator &&& ((1 <<< d.pending) - 1) ≠ 0 then none else some d.output

/-- How many padding characters may come after so many digits. -/
def paddingFits (digits padding : ℕ) : Bool :=
  match digits % 4, padding with
  | 0, 0 => true
  | 2, 0 | 2, 2 => true
  | 3, 0 | 3, 1 => true
  | _, _ => false

def decodeStandard (text : List Char) : Option (List UInt8) := do
  let bytes := (Utf8.encode text).filter fun b ↦ !isAsciiWhitespace b
  let (digits, padding) ← count bytes 0 0
  guard (paddingFits digits padding)
  let d ← decodeAll bytes .start
  d.finish

/-! ## Bits as numbers -/

theorem toNat_shiftRight (a : UInt8) : (a >>> 2).toNat = a.toNat / 4 ∧
    (a >>> 4).toNat = a.toNat / 16 ∧ (a >>> 6).toNat = a.toNat / 64 := by
  simp [Nat.shiftRight_eq_div_pow]

theorem toNat_and (a : UInt8) : (a &&& 3).toNat = a.toNat % 4 ∧ (a &&& 15).toNat = a.toNat % 16 ∧
    (a &&& 63).toNat = a.toNat % 64 := by
  refine ⟨?_, ?_, ?_⟩
  · exact Nat.and_two_pow_sub_one_eq_mod a.toNat 2
  · exact Nat.and_two_pow_sub_one_eq_mod a.toNat 4
  · exact Nat.and_two_pow_sub_one_eq_mod a.toNat 6

/-- The digit that two bytes have a part of. -/
theorem toNat_second (a b : UInt8) :
    (((a &&& 3) <<< 4) ||| (b >>> 4)).toNat = a.toNat % 4 * 16 + b.toNat / 16 := by
  have hlt : b.toNat / 16 < 2 ^ 4 := by
    have := b.toNat_lt
    omega
  have hshift : ((a &&& 3) <<< 4).toNat = (a.toNat % 4) <<< 4 := by
    have hfour : (4 : UInt8).toNat % 8 = 4 := rfl
    rw [UInt8.toNat_shiftLeft, (toNat_and a).1, hfour, Nat.shiftLeft_eq]
    exact Nat.mod_eq_of_lt (by omega)
  rw [UInt8.toNat_or, hshift, (toNat_shiftRight b).2.1, ← Nat.shiftLeft_add_eq_or_of_lt hlt,
    Nat.shiftLeft_eq]

theorem toNat_third (b c : UInt8) :
    (((b &&& 15) <<< 2) ||| (c >>> 6)).toNat = b.toNat % 16 * 4 + c.toNat / 64 := by
  have hlt : c.toNat / 64 < 2 ^ 2 := by
    have := c.toNat_lt
    omega
  have hshift : ((b &&& 15) <<< 2).toNat = (b.toNat % 16) <<< 2 := by
    have htwo : (2 : UInt8).toNat % 8 = 2 := rfl
    rw [UInt8.toNat_shiftLeft, (toNat_and b).2.1, htwo, Nat.shiftLeft_eq]
    exact Nat.mod_eq_of_lt (by omega)
  rw [UInt8.toNat_or, hshift, (toNat_shiftRight c).2.2, ← Nat.shiftLeft_add_eq_or_of_lt hlt,
    Nat.shiftLeft_eq]

/-- The accumulator takes six bits more. -/
theorem toNat_accumulate (acc : UInt32) {v : UInt8} (hv : v.toNat < 64) :
    ((acc <<< 6) ||| v.toUInt32).toNat = acc.toNat % 2 ^ 26 * 64 + v.toNat := by
  have hshift : (acc <<< 6).toNat = (acc.toNat % 2 ^ 26) <<< 6 := by
    have hsix : (6 : UInt32).toNat % 32 = 6 := rfl
    rw [UInt32.toNat_shiftLeft, hsix, Nat.shiftLeft_eq, Nat.shiftLeft_eq]
    omega
  rw [UInt32.toNat_or, hshift, UInt8.toNat_toUInt32, ← Nat.shiftLeft_add_eq_or_of_lt hv,
    Nat.shiftLeft_eq]

/-- The byte that is taken out of the accumulator. -/
theorem toNat_extract (acc p : UInt32) (hp : p.toNat < 32) :
    ((acc >>> p) &&& 0xff).toUInt8.toNat = acc.toNat / 2 ^ p.toNat % 256 := by
  have hmask : (0xff : UInt32).toNat = 2 ^ 8 - 1 := rfl
  rw [UInt32.toNat_toUInt8, UInt32.toNat_and, UInt32.toNat_shiftRight, Nat.mod_eq_of_lt hp,
    Nat.shiftRight_eq_div_pow, hmask, Nat.and_two_pow_sub_one_eq_mod]
  exact Nat.mod_mod _ _

/-! ## A group of digits -/

/-- A state between two groups. -/
def Decoder.Ready (d : Decoder) : Prop := d.pending = 0

section Feed

variable (output : List UInt8) (acc : UInt32) (v : UInt8)

/-- Digits wait until there are eight bits. -/
theorem feed_wait : Decoder.feed ⟨output, acc, 0⟩ v = ⟨output, (acc <<< 6) ||| v.toUInt32, 6⟩ := by
  have hlt : ¬ (8 : UInt32) ≤ 0 + 6 := by decide
  rw [Decoder.feed, if_neg hlt]
  rfl

theorem feed_push {p q : UInt32} (h : 8 ≤ p + 6) (hq : p + 6 - 8 = q) :
    Decoder.feed ⟨output, acc, p⟩ v =
      ⟨output ++ [((((acc <<< 6) ||| v.toUInt32) >>> q) &&& 0xff).toUInt8],
        (acc <<< 6) ||| v.toUInt32, q⟩ := by
  rw [Decoder.feed, if_pos h, hq]

/-- From six bits, from four, and from two. -/
theorem feed_six : Decoder.feed ⟨output, acc, 6⟩ v =
    ⟨output ++ [((((acc <<< 6) ||| v.toUInt32) >>> 4) &&& 0xff).toUInt8],
      (acc <<< 6) ||| v.toUInt32, 4⟩ := feed_push output acc v (by decide) (by decide)

theorem feed_four : Decoder.feed ⟨output, acc, 4⟩ v =
    ⟨output ++ [((((acc <<< 6) ||| v.toUInt32) >>> 2) &&& 0xff).toUInt8],
      (acc <<< 6) ||| v.toUInt32, 2⟩ := feed_push output acc v (by decide) (by decide)

theorem feed_two : Decoder.feed ⟨output, acc, 2⟩ v =
    ⟨output ++ [((((acc <<< 6) ||| v.toUInt32) >>> 0) &&& 0xff).toUInt8],
      (acc <<< 6) ||| v.toUInt32, 0⟩ := feed_push output acc v (by decide) (by decide)

end Feed

/-- The bits that are left are the last ones of the accumulator. -/
theorem finish_eq {output : List UInt8} {acc p : UInt32} {k : ℕ} (hp : p ≠ 0)
    (hmask : ((1 <<< p) - 1 : UInt32).toNat = 2 ^ k - 1) :
    Decoder.finish ⟨output, acc, p⟩ = if acc.toNat % 2 ^ k = 0 then some output else none := by
  have hzero : acc &&& ((1 <<< p) - 1) = 0 ↔ acc.toNat % 2 ^ k = 0 := by
    rw [← UInt32.toNat_inj, UInt32.toNat_and, hmask, Nat.and_two_pow_sub_one_eq_mod]
    rfl
  rw [Decoder.finish]
  dsimp only
  by_cases h : acc.toNat % 2 ^ k = 0
  · rw [if_pos h, if_neg fun hne ↦ hne.2 (hzero.2 h)]
  · rw [if_neg h, if_pos ⟨hp, fun heq ↦ h (hzero.1 heq)⟩]

variable {d : Decoder} {v1 v2 : UInt8} {n p : ℕ}

/-- **Four digits are three bytes**, whatever the accumulator held. -/
theorem Decoder.feed_group (hd : d.Ready) {v3 v4 : UInt8} (h1 : v1.toNat < 64)
    (h2 : v2.toNat < 64) (h3 : v3.toNat < 64) (h4 : v4.toNat < 64) :
    ∃ a b c acc, (((d.feed v1).feed v2).feed v3).feed v4 = ⟨d.output ++ [a, b, c], acc, 0⟩ ∧
      a.toNat = v1.toNat * 4 + v2.toNat / 16 ∧ b.toNat = v2.toNat % 16 * 16 + v3.toNat / 4 ∧
      c.toNat = v3.toNat % 4 * 64 + v4.toNat := by
  obtain ⟨output, acc, pending⟩ := d
  obtain rfl : pending = 0 := hd
  have hacc1 := toNat_accumulate acc h1
  generalize hx1 : (acc <<< 6) ||| v1.toUInt32 = acc1 at hacc1
  have hacc2 := toNat_accumulate acc1 h2
  generalize hx2 : (acc1 <<< 6) ||| v2.toUInt32 = acc2 at hacc2
  have hacc3 := toNat_accumulate acc2 h3
  generalize hx3 : (acc2 <<< 6) ||| v3.toUInt32 = acc3 at hacc3
  have hacc4 := toNat_accumulate acc3 h4
  generalize hx4 : (acc3 <<< 6) ||| v4.toUInt32 = acc4 at hacc4
  refine ⟨((acc2 >>> 4) &&& 0xff).toUInt8, ((acc3 >>> 2) &&& 0xff).toUInt8,
    ((acc4 >>> 0) &&& 0xff).toUInt8, acc4, ?_, ?_, ?_, ?_⟩
  · rw [feed_wait, hx1, feed_six, hx2, feed_four, hx3, feed_two, hx4, append_assoc,
      append_assoc]
    rfl
  · rw [toNat_extract _ _ (by decide)]
    have hfour : (4 : UInt32).toNat = 4 := rfl
    rw [hfour]
    omega
  · rw [toNat_extract _ _ (by decide)]
    have htwo : (2 : UInt32).toNat = 2 := rfl
    rw [htwo]
    omega
  · rw [toNat_extract _ _ (by decide)]
    have hzero : (0 : UInt32).toNat = 0 := rfl
    rw [hzero]
    omega

/-- Two digits are one byte, if the four bits that are left are zero. -/
theorem Decoder.feed_two_digits (hd : d.Ready) (h1 : v1.toNat < 64)
    (h2 : v2.toNat < 64) : ∃ a, a.toNat = v1.toNat * 4 + v2.toNat / 16 ∧
      ((d.feed v1).feed v2).finish =
        if v2.toNat % 16 = 0 then some (d.output ++ [a]) else none := by
  obtain ⟨output, acc, pending⟩ := d
  obtain rfl : pending = 0 := hd
  have hacc1 := toNat_accumulate acc h1
  generalize hx1 : (acc <<< 6) ||| v1.toUInt32 = acc1 at hacc1
  have hacc2 := toNat_accumulate acc1 h2
  generalize hx2 : (acc1 <<< 6) ||| v2.toUInt32 = acc2 at hacc2
  refine ⟨((acc2 >>> 4) &&& 0xff).toUInt8, ?_, ?_⟩
  · rw [toNat_extract _ _ (by decide)]
    have hfour : (4 : UInt32).toNat = 4 := rfl
    rw [hfour]
    omega
  · have hiff : acc2.toNat % 2 ^ 4 = 0 ↔ v2.toNat % 16 = 0 := by omega
    rw [feed_wait, hx1, feed_six, hx2, finish_eq (k := 4) (by decide) (by decide)]
    simp only [hiff]

/-- Three digits are two bytes, if the two bits that are left are zero. -/
theorem Decoder.feed_three_digits (hd : d.Ready) {v3 : UInt8}
    (h1 : v1.toNat < 64) (h2 : v2.toNat < 64) (h3 : v3.toNat < 64) :
    ∃ a b, a.toNat = v1.toNat * 4 + v2.toNat / 16 ∧
      b.toNat = v2.toNat % 16 * 16 + v3.toNat / 4 ∧
      (((d.feed v1).feed v2).feed v3).finish =
        if v3.toNat % 4 = 0 then some (d.output ++ [a, b]) else none := by
  obtain ⟨output, acc, pending⟩ := d
  obtain rfl : pending = 0 := hd
  have hacc1 := toNat_accumulate acc h1
  generalize hx1 : (acc <<< 6) ||| v1.toUInt32 = acc1 at hacc1
  have hacc2 := toNat_accumulate acc1 h2
  generalize hx2 : (acc1 <<< 6) ||| v2.toUInt32 = acc2 at hacc2
  have hacc3 := toNat_accumulate acc2 h3
  generalize hx3 : (acc2 <<< 6) ||| v3.toUInt32 = acc3 at hacc3
  refine ⟨((acc2 >>> 4) &&& 0xff).toUInt8, ((acc3 >>> 2) &&& 0xff).toUInt8, ?_, ?_, ?_⟩
  · rw [toNat_extract _ _ (by decide)]
    have hfour : (4 : UInt32).toNat = 4 := rfl
    rw [hfour]
    omega
  · rw [toNat_extract _ _ (by decide)]
    have htwo : (2 : UInt32).toNat = 2 := rfl
    rw [htwo]
    omega
  · have hiff : acc3.toNat % 2 ^ 2 = 0 ↔ v3.toNat % 4 = 0 := by omega
    rw [feed_wait, hx1, feed_six, hx2, feed_four, hx3, finish_eq (k := 2) (by decide) (by decide),
      append_assoc]
    simp only [hiff]
    rfl

/-! ## Digits and bytes -/

def first (a : UInt8) : UInt8 := a >>> 2

def second (a b : UInt8) : UInt8 := ((a &&& 3) <<< 4) ||| (b >>> 4)

def third (b c : UInt8) : UInt8 := ((b &&& 15) <<< 2) ||| (c >>> 6)

def fourth (c : UInt8) : UInt8 := c &&& 63

/-- The digits of a chunk of one to three bytes. -/
def chunkDigits (chunk : List UInt8) : List UInt8 :=
  [first (chunk.getD 0 0), second (chunk.getD 0 0) (chunk.getD 1 0)] ++
    (if 1 < chunk.length then [third (chunk.getD 1 0) (chunk.getD 2 0)] else []) ++
    if 2 < chunk.length then [fourth (chunk.getD 2 0)] else []

theorem chunkDigits_one (a : UInt8) : chunkDigits [a] = [first a, second a 0] := rfl

theorem chunkDigits_two (a b : UInt8) : chunkDigits [a, b] = [first a, second a b, third b 0] := rfl

theorem chunkDigits_three (a b c : UInt8) :
    chunkDigits [a, b, c] = [first a, second a b, third b c, fourth c] := rfl

/-- The digits that bytes are written with. -/
def encodeDigits (bytes : List UInt8) : List UInt8 := (Pieces.chunks 3 bytes).flatMap chunkDigits

/-- What digits are read as. -/
def decodeFrom (d : Decoder) (values : List UInt8) : Option (List UInt8) :=
  (values.foldl Decoder.feed d).finish

theorem encodeDigits_append {s : List UInt8} (hs : s.length = 3) (t : List UInt8) :
    encodeDigits (s ++ t) = chunkDigits s ++ encodeDigits t := by
  rw [encodeDigits, Pieces.chunks_append (by decide) hs, flatMap_cons, encodeDigits]

theorem encodeDigits_short {s : List UInt8} (hs : s ≠ []) (hlen : s.length ≤ 3) :
    encodeDigits s = chunkDigits s := by
  rw [encodeDigits, Pieces.chunks_of_le hs hlen, flatMap_singleton]

theorem encodeDigits_one (a : UInt8) : encodeDigits [a] = [first a, second a 0] := by
  have hlen : [a].length ≤ 3 := Nat.le_add_left 1 2
  rw [encodeDigits_short (cons_ne_nil _ _) hlen, chunkDigits_one]

theorem encodeDigits_two (a b : UInt8) :
    encodeDigits [a, b] = [first a, second a b, third b 0] := by
  have hlen : [a, b].length ≤ 3 := Nat.le_add_left 2 1
  rw [encodeDigits_short (cons_ne_nil _ _) hlen, chunkDigits_two]

theorem encodeDigits_nil : encodeDigits [] = [] := by
  rw [encodeDigits, Pieces.chunks_nil, flatMap_nil]

/-- The four digits of three bytes, as numbers. -/
theorem toNat_digits (a b c : UInt8) :
    ((first a).toNat = a.toNat / 4 ∧ (first a).toNat < 64) ∧
      ((second a b).toNat = a.toNat % 4 * 16 + b.toNat / 16 ∧ (second a b).toNat < 64) ∧
      ((third b c).toNat = b.toNat % 16 * 4 + c.toNat / 64 ∧ (third b c).toNat < 64) ∧
      (fourth c).toNat = c.toNat % 64 ∧ (fourth c).toNat < 64 := by
  have ha := a.toNat_lt
  have hb := b.toNat_lt
  have hc := c.toNat_lt
  rw [first, second, third, fourth, (toNat_shiftRight a).1, toNat_second a b, toNat_third b c,
    (toNat_and c).2.2]
  omega

/-- Every digit that is written is one of the 64. -/
theorem lt_of_mem_encodeDigits {bytes : List UInt8} {v : UInt8} (h : v ∈ encodeDigits bytes) :
    v.toNat < 64 := by
  obtain ⟨chunk, -, hv⟩ := mem_flatMap.1 h
  obtain ⟨⟨-, h1⟩, ⟨-, h2⟩, ⟨-, h3⟩, -, h4⟩ :=
    toNat_digits (chunk.getD 0 0) (chunk.getD 1 0) (chunk.getD 2 0)
  rw [chunkDigits, mem_append, mem_append] at hv
  rcases hv with (hv | hv) | hv
  · simp only [mem_cons, not_mem_nil, or_false] at hv
    rcases hv with rfl | rfl
    · exact h1
    · exact h2
  · split at hv
    · rw [mem_singleton.1 hv]
      exact h3
    · cases hv
  · split at hv
    · rw [mem_singleton.1 hv]
      exact h4
    · cases hv

theorem finish_ready (hd : d.Ready) : d.finish = some d.output :=
  if_neg fun h ↦ h.1 hd

/-- **Bytes are read from the digits they are written with.** -/
theorem decodeFrom_encodeDigits (bytes : List UInt8) (hd : d.Ready) :
    decodeFrom d (encodeDigits bytes) = some (d.output ++ bytes) := by
  have hzero : (0 : UInt8).toNat = 0 := rfl
  induction bytes using Pieces.chunks_induction (n := 3) (by decide) generalizing d with
  | short s hs =>
    rcases s with _ | ⟨a, _ | ⟨b, _ | ⟨c, s⟩⟩⟩
    · rw [append_nil, encodeDigits_nil]
      exact finish_ready hd
    · obtain ⟨⟨h1, h1'⟩, ⟨h2, h2'⟩, -⟩ := toNat_digits a 0 0
      obtain ⟨a', ha', hfinish⟩ := Decoder.feed_two_digits hd h1' h2'
      obtain rfl : a' = a := UInt8.toNat_inj.1 (by omega)
      rw [encodeDigits_one, decodeFrom]
      simp only [foldl_cons, foldl_nil]
      rw [hfinish, if_pos (by omega)]
    · obtain ⟨⟨h1, h1'⟩, ⟨h2, h2'⟩, ⟨h3, h3'⟩, -⟩ := toNat_digits a b 0
      obtain ⟨a', b', ha', hb', hfinish⟩ := Decoder.feed_three_digits hd h1' h2' h3'
      have hb := b.toNat_lt
      obtain rfl : a' = a := UInt8.toNat_inj.1 (by omega)
      obtain rfl : b' = b := UInt8.toNat_inj.1 (by omega)
      rw [encodeDigits_two, decodeFrom]
      simp only [foldl_cons, foldl_nil]
      rw [hfinish, if_pos (by omega)]
    · exact absurd hs (by simp)
  | chunk s t hs ih =>
    obtain ⟨a, b, c, rfl⟩ := length_eq_three.1 hs
    obtain ⟨⟨h1, h1'⟩, ⟨h2, h2'⟩, ⟨h3, h3'⟩, h4, h4'⟩ := toNat_digits a b c
    obtain ⟨a', b', c', acc, hfeed, ha', hb', hc'⟩ := Decoder.feed_group hd h1' h2' h3' h4'
    have hb := b.toNat_lt
    have hc := c.toNat_lt
    obtain rfl : a' = a := UInt8.toNat_inj.1 (by omega)
    obtain rfl : b' = b := UInt8.toNat_inj.1 (by omega)
    obtain rfl : c' = c := UInt8.toNat_inj.1 (by omega)
    rw [encodeDigits_append hs, decodeFrom, foldl_append, chunkDigits_three]
    simp only [foldl_cons, foldl_nil]
    rw [hfeed, ← append_assoc]
    exact ih rfl

/-- **Digits that are read as bytes are the ones these are written with.** -/
theorem encodeDigits_of_decodeFrom {values out : List UInt8} (hd : d.Ready)
    (hvalues : ∀ v ∈ values, v.toNat < 64) (hlen : values.length % 4 ≠ 1)
    (h : decodeFrom d values = some out) :
    ∃ bytes, out = d.output ++ bytes ∧ encodeDigits bytes = values := by
  have hzero : (0 : UInt8).toNat = 0 := rfl
  induction values using Pieces.chunks_induction (n := 4) (by decide) generalizing d with
  | short s hs =>
    rcases s with _ | ⟨v1, _ | ⟨v2, _ | ⟨v3, _ | ⟨v4, s⟩⟩⟩⟩
    · refine ⟨[], ?_, encodeDigits_nil⟩
      rw [append_nil]
      exact (Option.some.inj ((finish_ready hd).symm.trans h)).symm
    · exact absurd rfl hlen
    · simp only [forall_mem_cons] at hvalues
      obtain ⟨a, ha, hfinish⟩ := Decoder.feed_two_digits hd hvalues.1 hvalues.2.1
      obtain ⟨⟨h1, -⟩, ⟨h2, -⟩, -⟩ := toNat_digits a 0 0
      rw [decodeFrom] at h
      simp only [foldl_cons, foldl_nil] at h
      rw [hfinish] at h
      split at h
      · refine ⟨[a], (Option.some.inj h).symm, ?_⟩
        have hv1 : first a = v1 := UInt8.toNat_inj.1 (by omega)
        have hv2 : second a 0 = v2 := UInt8.toNat_inj.1 (by omega)
        rw [encodeDigits_one, hv1, hv2]
      · exact absurd h.symm (Option.some_ne_none _)
    · simp only [forall_mem_cons] at hvalues
      obtain ⟨hlt1, hlt2, hlt3, -⟩ := hvalues
      obtain ⟨a, b, ha, hb, hfinish⟩ := Decoder.feed_three_digits hd hlt1 hlt2 hlt3
      obtain ⟨⟨h1, -⟩, ⟨h2, -⟩, ⟨h3, -⟩, -⟩ := toNat_digits a b 0
      rw [decodeFrom] at h
      simp only [foldl_cons, foldl_nil] at h
      rw [hfinish] at h
      split at h
      · refine ⟨[a, b], (Option.some.inj h).symm, ?_⟩
        have hv1 : first a = v1 := UInt8.toNat_inj.1 (by omega)
        have hv2 : second a b = v2 := UInt8.toNat_inj.1 (by omega)
        have hv3 : third b 0 = v3 := UInt8.toNat_inj.1 (by omega)
        rw [encodeDigits_two, hv1, hv2, hv3]
      · exact absurd h.symm (Option.some_ne_none _)
    · exact absurd hs (by simp)
  | chunk s t hs ih =>
    rcases s with _ | ⟨v1, _ | ⟨v2, _ | ⟨v3, _ | ⟨v4, _ | ⟨v5, s⟩⟩⟩⟩⟩ <;> simp at hs
    rw [forall_mem_append] at hvalues
    obtain ⟨hgroup, hrest⟩ := hvalues
    simp only [forall_mem_cons] at hgroup
    obtain ⟨hlt1, hlt2, hlt3, hlt4, -⟩ := hgroup
    obtain ⟨a, b, c, acc, hfeed, ha, hb, hc⟩ := Decoder.feed_group hd hlt1 hlt2 hlt3 hlt4
    obtain ⟨⟨h1, -⟩, ⟨h2, -⟩, ⟨h3, -⟩, h4, -⟩ := toNat_digits a b c
    have hv1 : first a = v1 := UInt8.toNat_inj.1 (by omega)
    have hv2 : second a b = v2 := UInt8.toNat_inj.1 (by omega)
    have hv3 : third b c = v3 := UInt8.toNat_inj.1 (by omega)
    have hv4 : fourth c = v4 := UInt8.toNat_inj.1 (by omega)
    rw [decodeFrom, foldl_append] at h
    simp only [foldl_cons, foldl_nil] at h
    rw [hfeed] at h
    have hlen' : t.length % 4 ≠ 1 := by
      simp only [length_append, length_cons, length_nil] at hlen
      omega
    have hready : Decoder.Ready ⟨d.output ++ [a, b, c], acc, 0⟩ := rfl
    obtain ⟨bytes, rfl, hbytes⟩ := ih hready hrest hlen' h
    refine ⟨[a, b, c] ++ bytes, append_assoc _ _ _, ?_⟩
    have hthree : [a, b, c].length = 3 := rfl
    rw [encodeDigits_append hthree, chunkDigits_three, hv1, hv2, hv3, hv4, hbytes]

/-! ## Characters -/

/-- The byte of a digit. -/
def digitByte (v : UInt8) : UInt8 := (digit alphabet v).toUInt8

/-- Digits are letters, figures, `+` and `/`, and are read as themselves. -/
theorem digit_spec {v : UInt8} (hv : v.toNat < 64) :
    (digit alphabet v).toNat < 128 ∧ digit alphabet v ≠ '=' ∧
      decodeDigit (digitByte v) = some v := by
  have hall : ∀ n < 64, (digit alphabet (UInt8.ofNat n)).toNat < 128 ∧
      digit alphabet (UInt8.ofNat n) ≠ '=' ∧
      decodeDigit (digitByte (UInt8.ofNat n)) = some (UInt8.ofNat n) := by decide +kernel
  have h := hall v.toNat hv
  rwa [UInt8.ofNat_toNat] at h

theorem digitByte_ne {v : UInt8} (hv : v.toNat < 64) : digitByte v ≠ 61 := by
  intro heq
  have hnone : decodeDigit 61 = none := rfl
  have hread := (digit_spec hv).2.2
  rw [heq, hnone] at hread
  cases hread

/-- What is read as a digit is its byte. -/
theorem eq_of_decodeDigit {b v : UInt8} (h : decodeDigit b = some v) :
    v.toNat < 64 ∧ b = digitByte v := by
  have hall : ∀ n < 256, ∀ v ∈ decodeDigit (UInt8.ofNat n),
      v.toNat < 64 ∧ UInt8.ofNat n = digitByte v := by decide +kernel
  have h' := hall b.toNat b.toNat_lt v
  rw [UInt8.ofNat_toNat] at h'
  exact h' h

/-- Bytes that are all read as digits are the bytes of these. -/
theorem exists_values {bytes : List UInt8} (h : ∀ b ∈ bytes, decodeDigit b ≠ none) :
    ∃ values : List UInt8, (∀ v ∈ values, v.toNat < 64) ∧ bytes = values.map digitByte := by
  induction bytes with
  | nil => exact ⟨[], nofun, rfl⟩
  | cons b bytes ih =>
    rw [forall_mem_cons] at h
    obtain ⟨v, hv⟩ := Option.ne_none_iff_exists'.1 h.1
    obtain ⟨hlt, rfl⟩ := eq_of_decodeDigit hv
    obtain ⟨values, hvalues, rfl⟩ := ih h.2
    exact ⟨v :: values, forall_mem_cons.2 ⟨hlt, hvalues⟩, rfl⟩

/-! ## Two passes -/

/-- What the first pass finds. -/
theorem count_eq_some {bytes : List UInt8} {n' p' : ℕ}
    (h : count bytes n p = some (n', p')) : ∃ digits k, bytes = digits ++ List.replicate k 61 ∧
      (∀ b ∈ digits, decodeDigit b ≠ none) ∧ (p ≠ 0 → digits = []) ∧ n' = n + digits.length ∧
      p' = p + k := by
  induction bytes generalizing n p with
  | nil =>
    cases h
    exact ⟨[], 0, rfl, nofun, fun _ ↦ rfl, rfl, rfl⟩
  | cons b bytes ih =>
    rw [count] at h
    split at h
    · rename_i hb
      subst hb
      split at h
      · cases h
      · obtain ⟨digits, k, rfl, -, hnil, rfl, rfl⟩ := ih h
        obtain rfl := hnil p.succ_ne_zero
        exact ⟨[], k + 1, rfl, nofun, fun _ ↦ rfl, rfl, by omega⟩
    · split at h
      · cases h
      · rename_i hdigit
        rw [not_or, not_not] at hdigit
        obtain ⟨digits, k, rfl, hdigits, -, rfl, rfl⟩ := ih h
        refine ⟨b :: digits, k, rfl, forall_mem_cons.2 ⟨hdigit.2, hdigits⟩,
          fun hp ↦ absurd hdigit.1 hp, ?_, rfl⟩
        rw [length_cons]
        omega

theorem count_padding {k : ℕ} (h : p + k ≤ 2) :
    count (List.replicate k 61) n p = some (n, p + k) := by
  induction k generalizing p with
  | zero => rfl
  | succ k ih =>
    rw [replicate_succ, count, if_pos rfl, if_neg (by omega), ih (by omega)]
    exact congrArg (fun m ↦ some (n, m)) (by omega)

theorem count_digits {values : List UInt8} (h : ∀ v ∈ values, v.toNat < 64) (rest : List UInt8)
    (n : ℕ) : count (values.map digitByte ++ rest) n 0 = count rest (n + values.length) 0 := by
  induction values generalizing n with
  | nil => rfl
  | cons v values ih =>
    rw [forall_mem_cons] at h
    obtain ⟨-, -, hread⟩ := digit_spec h.1
    have hnot : ¬ (0 ≠ 0 ∨ decodeDigit (digitByte v) = none) := by
      rw [hread]
      simp
    rw [map_cons, cons_append, count, if_neg (digitByte_ne h.1), if_neg hnot, ih h.2, length_cons]
    congr 1
    omega

/-- The second pass, up to the padding. -/
theorem decodeAll_eq {values : List UInt8} (h : ∀ v ∈ values, v.toNat < 64) (k : ℕ) (d : Decoder) :
    decodeAll (values.map digitByte ++ List.replicate k 61) d =
      some (values.foldl Decoder.feed d) := by
  induction values generalizing d with
  | nil => cases k <;> rfl
  | cons v values ih =>
    rw [forall_mem_cons] at h
    obtain ⟨-, -, hread⟩ := digit_spec h.1
    rw [map_cons, cons_append, decodeAll, if_neg (digitByte_ne h.1), hread, Option.bind_some, ih h.2,
      foldl_cons]

/-! ## Texts -/

/-- The padding that completes the last group of so many digits. -/
def fill (digits : ℕ) : ℕ := (4 - digits % 4) % 4

theorem paddingFits_iff :
    paddingFits n p = true ↔ n % 4 ≠ 1 ∧ (p = 0 ∨ p = fill n) := by
  have hmod : n % 4 = 0 ∨ n % 4 = 1 ∨ n % 4 = 2 ∨ n % 4 = 3 := by omega
  rcases hmod with hmod | hmod | hmod | hmod <;> rcases p with _ | _ | _ | p <;>
    simp [paddingFits, fill, hmod]

/-- No group has one digit only. -/
theorem length_encodeDigits_mod (bytes : List UInt8) : (encodeDigits bytes).length % 4 ≠ 1 := by
  induction bytes using Pieces.chunks_induction (n := 3) (by decide) with
  | short s hs =>
    rcases s with _ | ⟨a, _ | ⟨b, _ | ⟨c, s⟩⟩⟩
    · rw [encodeDigits_nil]
      exact Nat.zero_ne_one
    · rw [encodeDigits_one]
      simp
    · rw [encodeDigits_two]
      simp
    · exact absurd hs (by simp)
  | chunk s t hs ih =>
    obtain ⟨a, b, c, rfl⟩ := length_eq_three.1 hs
    have hfour : [first a, second a b, third b c, fourth c].length = 4 := rfl
    rw [encodeDigits_append hs, length_append, chunkDigits_three, hfour, Nat.add_mod_left]
    exact ih

/-- **A text is the digits of its bytes**, and maybe the padding. -/
theorem encode_eq (bytes : List UInt8) (table : List Char) (pad : Bool) :
    encode bytes table pad = (encodeDigits bytes).map (digit table) ++
      if pad then List.replicate (fill (encodeDigits bytes).length) '=' else [] := by
  induction bytes using Pieces.chunks_induction (n := 3) (by decide) with
  | short s hs =>
    rcases s with _ | ⟨a, _ | ⟨b, _ | ⟨c, s⟩⟩⟩
    · rw [encode, encodeDigits_nil, Pieces.chunks_nil]
      cases pad <;> rfl
    · rw [encode, encodeDigits_one, Pieces.chunks_of_le (cons_ne_nil _ _) hs.le]
      cases pad <;> rfl
    · rw [encode, encodeDigits_two, Pieces.chunks_of_le (cons_ne_nil _ _) hs.le]
      cases pad <;> rfl
    · exact absurd hs (by simp)
  | chunk s t hs ih =>
    rw [encode] at ih
    obtain ⟨a, b, c, rfl⟩ := length_eq_three.1 hs
    have hfill : fill (4 + (encodeDigits t).length) = fill (encodeDigits t).length := by
      rw [fill, fill, Nat.add_mod_left]
    rw [encode, Pieces.chunks_append (by decide) hs, flatMap_cons, ih, encodeDigits_append hs,
      map_append, length_append, chunkDigits_three]
    have hfour : [first a, second a b, third b c, fourth c].length = 4 := rfl
    rw [hfour, hfill, ← append_assoc]
    rfl

/-- ASCII white space. -/
def isBlank (c : Char) : Bool :=
  c == ' ' || c == '\t' || c == '\n' || c == '\x0C' || c == '\r'

/-- A text without its white space. -/
def stripped (text : List Char) : List Char := text.filter fun c ↦ !isBlank c

/-- A text without its padding. -/
def unpadded (text : List Char) : List Char := text.filter fun c ↦ c != '='

theorem isAsciiWhitespace_toUInt8 {c : Char} (h : c.toNat < 128) :
    isAsciiWhitespace c.toUInt8 = isBlank c := by
  have hbyte {d : Char} (hd : d.toNat < 128) : (c.toUInt8 == d.toUInt8) = (c == d) := by
    rw [Bool.eq_iff_iff, beq_iff_eq, beq_iff_eq, Utf8.toUInt8_inj h hd]
  rw [isBlank, ← hbyte (d := ' ') (by decide), ← hbyte (d := '\t') (by decide),
    ← hbyte (d := '\n') (by decide), ← hbyte (d := '\x0C') (by decide),
    ← hbyte (d := '\r') (by decide)]
  rfl

/-- White space is left out of the bytes as it is of the text. -/
theorem filter_encode (text : List Char) :
    (Utf8.encode text).filter (fun b ↦ !isAsciiWhitespace b) = Utf8.encode (stripped text) := by
  induction text with
  | nil => rfl
  | cons c text ih =>
    rw [stripped] at ih
    rw [Utf8.encode_cons, filter_append, ih, stripped, filter_cons]
    by_cases hascii : c.toNat < 128
    · rw [Utf8.encode_ascii hascii, filter_cons, isAsciiWhitespace_toUInt8 hascii]
      cases isBlank c with
      | true => rfl
      | false => exact (Utf8.encode_cons_ascii hascii _).symm
    · have hblank : isBlank c = false := by
        rw [Bool.eq_false_iff]
        intro hc
        simp only [isBlank, Bool.or_eq_true, beq_iff_eq] at hc
        rcases hc with (((rfl | rfl) | rfl) | rfl) | rfl <;> exact hascii (by decide)
      have hbytes : (String.utf8EncodeChar c).filter (fun b ↦ !isAsciiWhitespace b) =
          String.utf8EncodeChar c := by
        refine filter_eq_self.2 fun b hb ↦ ?_
        have hlarge := Utf8.le_of_mem (not_lt.1 hascii) hb
        rw [Bool.not_eq_true', Bool.eq_false_iff]
        intro hspace
        simp only [isAsciiWhitespace, Bool.or_eq_true, beq_iff_eq] at hspace
        rcases hspace with (((rfl | rfl) | rfl) | rfl) | rfl <;> simp at hlarge
      rw [hbytes, hblank]
      exact (Utf8.encode_cons _ _).symm

theorem encode_ascii (bytes : List UInt8) (pad : Bool) :
    ∀ c ∈ encode bytes alphabet pad, c.toNat < 128 := by
  intro c hc
  rw [encode_eq, mem_append] at hc
  rcases hc with hc | hc
  · obtain ⟨v, hv, rfl⟩ := mem_map.1 hc
    exact (digit_spec (lt_of_mem_encodeDigits hv)).1
  · split at hc
    · rw [eq_of_mem_replicate hc]
      decide
    · cases hc

theorem bytes_encode (bytes : List UInt8) (pad : Bool) :
    Utf8.encode (encode bytes alphabet pad) = (encodeDigits bytes).map digitByte ++
      List.replicate (if pad then fill (encodeDigits bytes).length else 0) 61 := by
  rw [Utf8.encode_of_ascii (encode_ascii bytes pad), encode_eq, map_append, map_map]
  cases pad with
  | true => rw [if_pos rfl, if_pos rfl, map_replicate]; rfl
  | false => rfl

/-- **A text is read as the bytes that it is written of.** -/
theorem decodeStandard_eq_some {text : List Char} {bytes : List UInt8} :
    decodeStandard text = some bytes ↔ ∃ pad, stripped text = encode bytes alphabet pad := by
  have hstart : Decoder.start.Ready := rfl
  rw [decodeStandard, filter_encode]
  dsimp only
  constructor
  · intro h
    obtain ⟨⟨n, p⟩, hcount, h⟩ := Option.bind_eq_some_iff.1 h
    obtain ⟨digits, k, hbytes, hdigits, -, rfl, rfl⟩ := count_eq_some hcount
    obtain ⟨values, hvalues, rfl⟩ := exists_values hdigits
    rw [Nat.zero_add, Nat.zero_add, length_map] at h
    rw [hbytes, decodeAll_eq hvalues] at h
    by_cases hfits : paddingFits values.length k = true
    · rw [guard, if_pos hfits] at h
      obtain ⟨hmod, hpad⟩ := paddingFits_iff.1 hfits
      obtain ⟨bytes', hout, hvalues'⟩ := encodeDigits_of_decodeFrom hstart hvalues hmod h
      obtain rfl : bytes' = bytes := hout.symm
      have hlt : ∀ b ∈ values.map digitByte ++ replicate k 61, b.toNat < 128 := by
        intro b hb
        rcases mem_append.1 hb with hb | hb
        · obtain ⟨v, hv, rfl⟩ := mem_map.1 hb
          have hascii := (digit_spec (hvalues v hv)).1
          rwa [digitByte, Utf8.toNat_toUInt8 hascii]
        · rw [eq_of_mem_replicate hb]
          decide
      obtain ⟨hmap, hascii⟩ := Utf8.map_of_encode hbytes hlt
      obtain ⟨pad, hpad⟩ : ∃ pad : Bool, k = if pad then fill values.length else 0 :=
        hpad.elim (fun h ↦ ⟨false, h⟩) fun h ↦ ⟨true, h⟩
      refine ⟨pad, Utf8.ascii_ext hascii (encode_ascii bytes' pad) ?_⟩
      rw [hmap, ← Utf8.encode_of_ascii (encode_ascii bytes' pad), bytes_encode, hvalues', hpad]
    · rw [guard, if_neg hfits] at h
      cases h
  · rintro ⟨pad, htext⟩
    have hvalues : ∀ v ∈ encodeDigits bytes, v.toNat < 64 := fun v ↦ lt_of_mem_encodeDigits
    have hfits : paddingFits (encodeDigits bytes).length
        (if pad then fill (encodeDigits bytes).length else 0) = true := by
      refine paddingFits_iff.2 ⟨length_encodeDigits_mod bytes, ?_⟩
      cases pad
      · exact .inl rfl
      · exact .inr rfl
    have hsmall : 0 + (if pad then fill (encodeDigits bytes).length else 0) ≤ 2 := by
      have hmod := length_encodeDigits_mod bytes
      rw [fill]
      split <;> omega
    rw [htext, bytes_encode, count_digits hvalues, count_padding hsmall, decodeAll_eq hvalues,
      Nat.zero_add, Nat.zero_add]
    change ((guard (paddingFits _ _ = true) : Option Unit).bind fun _ ↦
      decodeFrom .start (encodeDigits bytes)) = some bytes
    rw [guard, if_pos hfits]
    exact decodeFrom_encodeDigits bytes hstart

/-- The padding is what `unpadded` takes. -/
theorem unpadded_encode (bytes : List UInt8) (pad : Bool) :
    unpadded (encode bytes alphabet pad) = encode bytes alphabet false := by
  have hdigits : unpadded ((encodeDigits bytes).map (digit alphabet)) =
      (encodeDigits bytes).map (digit alphabet) := by
    refine filter_eq_self.2 fun c hc ↦ ?_
    obtain ⟨v, hv, rfl⟩ := mem_map.1 hc
    exact bne_iff_ne.2 (digit_spec (lt_of_mem_encodeDigits hv)).2.1
  rw [unpadded] at hdigits ⊢
  rw [encode_eq, encode_eq, filter_append, hdigits]
  cases pad with
  | true =>
    rw [if_pos rfl, filter_eq_nil_iff.2]
    · rfl
    · intro c hc
      rw [eq_of_mem_replicate hc]
      decide
  | false => rfl

/-- **What is written is read back, and what is read was written.**  Bytes are got back from their
text, with or without its padding and whatever white space is put in it; and a text that is read as
some bytes is, but for white space and padding, the one they are written with. -/
theorem base64_round_trip :
    (∀ bytes text, stripped text = standard bytes ∨ stripped text = unpadded (standard bytes) →
      decodeStandard text = some bytes) ∧
    (∀ text bytes, decodeStandard text = some bytes →
      unpadded (stripped text) = unpadded (standard bytes)) ∧
    ∀ text text' bytes, decodeStandard text = some bytes → decodeStandard text' = some bytes →
      unpadded (stripped text) = unpadded (stripped text') := by
  have hread : ∀ text bytes, decodeStandard text = some bytes →
      unpadded (stripped text) = unpadded (standard bytes) := by
    intro text bytes h
    obtain ⟨pad, htext⟩ := decodeStandard_eq_some.1 h
    rw [htext, unpadded_encode, standard, unpadded_encode]
  refine ⟨fun bytes text h ↦ decodeStandard_eq_some.2 ?_, hread, fun text text' bytes h h' ↦ ?_⟩
  · rcases h with h | h
    · exact ⟨true, h⟩
    · exact ⟨false, h.trans (unpadded_encode bytes true)⟩
  · rw [hread text bytes h, hread text' bytes h']

end Huntsman.Base64
