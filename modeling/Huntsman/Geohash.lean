import Huntsman.Lib.Halving
import Huntsman.Lib.Utf8
import Mathlib.Tactic.Linarith

/-!
# Geohashes

A geohash names a cell of the earth by halving the two ranges of degrees in turn, five halvings to
a character.  Degrees are rational numbers here: the source's have room for all the halvings there
are.

`encode` writes down the halvings that a point chooses, and `decode` follows them
(`decodeChars_encodeChars`, `decodeChars_eq_ok`).
-/

set_option autoImplicit false

namespace Huntsman.Geohash

open Halving List

/-! ## The source's functions -/

def base32 : List UInt8 := "0123456789bcdefghjkmnpqrstuvwxyz".toList.map Char.toUInt8

def maxPrecision : ℕ := 12

structure Cell where
  latMin : ℚ
  latMax : ℚ
  lonMin : ℚ
  lonMax : ℚ
deriving DecidableEq

/-- `f64::midpoint`. -/
def midpoint (a b : ℚ) : ℚ := (a + b) / 2

def Cell.center (c : Cell) : ℚ × ℚ := (midpoint c.latMin c.latMax, midpoint c.lonMin c.lonMax)

def Cell.contains (c : Cell) (lat lon : ℚ) : Bool :=
  (c.latMin ≤ lat && lat ≤ c.latMax) && (c.lonMin ≤ lon && lon ≤ c.lonMax)

/-- `Error::Invalid`, by its text. -/
inductive Error where
  /-- `coordinate out of range`. -/
  | coordinateOutOfRange
  /-- `geohash precision must be 1..=12`. -/
  | precisionOutOfRange
  /-- `geohash length must be 1..=12`. -/
  | lengthOutOfRange
  /-- `not a geohash character: `, and the character. -/
  | notACharacter (byte : UInt8)
deriving DecidableEq

/-- The two ranges, and whether it is the longitude's turn. -/
structure Grid where
  cell : Cell
  even : Bool
deriving DecidableEq

def Grid.start : Grid := ⟨⟨-90, 90, -180, 180⟩, true⟩

/-- One bit of `encode`: the character so far, and the grid. -/
def encodeBit (lat lon : ℚ) (state : ℕ × Grid) : ℕ × Grid :=
  let (idx, g) := state
  let (lo, hi, value) :=
    if g.even then (g.cell.lonMin, g.cell.lonMax, lon) else (g.cell.latMin, g.cell.latMax, lat)
  let mid := midpoint lo hi
  let idx := idx <<< 1
  if mid ≤ value then
    (idx ||| 1,
      ⟨if g.even then { g.cell with lonMin := mid } else { g.cell with latMin := mid }, !g.even⟩)
  else
    (idx,
      ⟨if g.even then { g.cell with lonMax := mid } else { g.cell with latMax := mid }, !g.even⟩)

/-- `precision` characters of `encode`, as bytes. -/
def encodeChars (lat lon : ℚ) : ℕ → Grid → List UInt8
  | 0, _ => []
  | precision + 1, g =>
    let (idx, g) := (List.range 5).foldl (fun state _ ↦ encodeBit lat lon state) (0, g)
    base32.getD idx 0 :: encodeChars lat lon precision g

def encode (lat lon : ℚ) (precision : ℕ) : Except Error (List Char) :=
  if ¬ ((-90 ≤ lat ∧ lat ≤ 90) ∧ -180 ≤ lon ∧ lon ≤ 180) then .error .coordinateOutOfRange
  else if ¬ (1 ≤ precision ∧ precision ≤ maxPrecision) then .error .precisionOutOfRange
  else .ok ((encodeChars lat lon precision .start).map fun b ↦ Char.ofNat b.toNat)

/-- One bit of `decode`. -/
def decodeBit (idx : ℕ) (g : Grid) (bit : ℕ) : Grid :=
  let (lo, hi) :=
    if g.even then (g.cell.lonMin, g.cell.lonMax) else (g.cell.latMin, g.cell.latMax)
  let mid := midpoint lo hi
  if (idx >>> bit) &&& 1 = 1 then
    ⟨if g.even then { g.cell with lonMin := mid } else { g.cell with latMin := mid }, !g.even⟩
  else ⟨if g.even then { g.cell with lonMax := mid } else { g.cell with latMax := mid }, !g.even⟩

/-- The characters of `decode`. -/
def decodeChars : List UInt8 → Grid → Except Error Grid
  | [], g => .ok g
  | b :: bytes, g =>
    match base32.findIdx? (· == b) with
    | some idx => decodeChars bytes ((List.range 5).reverse.foldl (decodeBit idx) g)
    | none => .error (.notACharacter b)

def decode (hash : List Char) : Except Error Cell :=
  if hash = [] ∨ maxPrecision < (Utf8.encode hash).length then .error .lengthOutOfRange
  else (decodeChars (Utf8.encode hash) .start).map Grid.cell

/-! ## Halvings -/

/-- The lower or the upper half of the range whose turn it is. -/
def Grid.halve (upper : Bool) (g : Grid) : Grid :=
  let c := g.cell
  let cell := match g.even, upper with
    | true, true => { c with lonMin := midpoint c.lonMin c.lonMax }
    | true, false => { c with lonMax := midpoint c.lonMin c.lonMax }
    | false, true => { c with latMin := midpoint c.latMin c.latMax }
    | false, false => { c with latMax := midpoint c.latMin c.latMax }
  ⟨cell, !g.even⟩

/-- The half in which a point is looked for. -/
def Grid.choose (p : ℚ × ℚ) (g : Grid) : Bool :=
  if g.even then midpoint g.cell.lonMin g.cell.lonMax ≤ p.2
  else midpoint g.cell.latMin g.cell.latMax ≤ p.1

/-- The number that bits are. -/
def number (idx : ℕ) (bs : List Bool) : ℕ := bs.foldl (fun i b ↦ 2 * i + b.toNat) idx

theorem encodeBit_eq (lat lon : ℚ) (idx : ℕ) (g : Grid) : encodeBit lat lon (idx, g) =
    (2 * idx + (g.choose (lat, lon)).toNat, g.halve (g.choose (lat, lon))) := by
  have hzero : idx <<< 1 = 2 * idx := by
    rw [Nat.shiftLeft_eq, Nat.pow_one, Nat.mul_comm]
  have hone : idx <<< 1 ||| 1 = 2 * idx + 1 := by
    rw [← Nat.shiftLeft_add_eq_or_of_lt (by decide), hzero]
  obtain ⟨c, even⟩ := g
  cases even with
  | true =>
    rw [encodeBit]
    by_cases h : midpoint c.lonMin c.lonMax ≤ lon
    · simp [Grid.choose, Grid.halve, h, hone]
    · simp [Grid.choose, Grid.halve, h, hzero]
  | false =>
    rw [encodeBit]
    by_cases h : midpoint c.latMin c.latMax ≤ lat
    · simp [Grid.choose, Grid.halve, h, hone]
    · simp [Grid.choose, Grid.halve, h, hzero]

theorem decodeBit_eq (idx bit : ℕ) (g : Grid) :
    decodeBit idx g bit = g.halve (idx.testBit bit) := by
  have htest : (idx >>> bit) &&& 1 = 1 ↔ idx.testBit bit = true := by
    rw [Nat.and_one_is_mod, Nat.testBit_eq_decide_div_mod_eq, Nat.shiftRight_eq_div_pow,
      decide_eq_true_eq]
  obtain ⟨c, even⟩ := g
  rw [decodeBit]
  simp only [htest]
  cases even <;> cases idx.testBit bit <;> rfl

/-- The bits that `encode` takes of a grid. -/
abbrev taken (p : ℚ × ℚ) (n : ℕ) (g : Grid) : List Bool := bits Grid.halve Grid.choose p n g

/-- The grid that bits name. -/
abbrev named (g : Grid) (bs : List Bool) : Grid := run Grid.halve g bs

theorem foldl_encodeBit (lat lon : ℚ) (l : List ℕ) (idx : ℕ) (g : Grid) :
    l.foldl (fun state _ ↦ encodeBit lat lon state) (idx, g) =
      (number idx (taken (lat, lon) l.length g), named g (taken (lat, lon) l.length g)) := by
  induction l generalizing idx g with
  | nil => rfl
  | cons i l ih =>
    rw [foldl_cons, encodeBit_eq, ih]
    rfl

theorem foldl_decodeBit (idx : ℕ) (l : List ℕ) (g : Grid) :
    l.foldl (decodeBit idx) g = named g (l.map idx.testBit) := by
  induction l generalizing g with
  | nil => rfl
  | cons i l ih =>
    rw [foldl_cons, decodeBit_eq, ih]
    rfl

/-! ## Five bits and a character -/

/-- The bits of a character, the largest first. -/
def charBits (idx : ℕ) : List Bool := (List.range 5).reverse.map idx.testBit

theorem charBits_number {bs : List Bool} (h : bs.length = 5) :
    charBits (number 0 bs) = bs ∧ number 0 bs < 32 := by
  rcases bs with _ | ⟨a, _ | ⟨b, _ | ⟨c, _ | ⟨d, _ | ⟨e, _ | ⟨f, bs⟩⟩⟩⟩⟩⟩ <;> simp at h
  clear h
  revert a b c d e
  decide

variable {idx : ℕ} {g : Grid} {cell : Cell}

theorem number_charBits (h : idx < 32) : number 0 (charBits idx) = idx := by
  revert idx
  decide

theorem findIdx_base32 (h : idx < 32) :
    base32.findIdx? (· == base32.getD idx 0) = some idx := by
  revert idx
  decide +kernel

theorem base32_of_findIdx {b : UInt8} (h : base32.findIdx? (· == b) = some idx) :
    idx < 32 ∧ base32.getD idx 0 = b ∧ b ∈ base32 := by
  obtain ⟨hidx, hb, -⟩ := findIdx?_eq_some_iff_getElem.1 h
  have hlen : base32.length = 32 := by decide
  rw [beq_iff_eq] at hb
  refine ⟨hlen ▸ hidx, ?_, hb ▸ getElem_mem hidx⟩
  rw [getD_eq_getElem?_getD, getElem?_eq_getElem hidx, Option.getD_some, hb]

/-! ## Characters and halvings -/

theorem encodeChars_succ (lat lon : ℚ) (n : ℕ) (g : Grid) : encodeChars lat lon (n + 1) g =
    base32.getD (number 0 (taken (lat, lon) 5 g)) 0 ::
      encodeChars lat lon n (named g (taken (lat, lon) 5 g)) := by
  have hfold := foldl_encodeBit lat lon (range 5) 0 g
  rw [length_range] at hfold
  rw [encodeChars, hfold]

theorem length_encodeChars (lat lon : ℚ) (n : ℕ) (g : Grid) :
    (encodeChars lat lon n g).length = n := by
  induction n generalizing g with
  | zero => rfl
  | succ n ih => rw [encodeChars_succ, length_cons, ih]

/-- A longer hash begins with the shorter one. -/
theorem encodeChars_begins (lat lon : ℚ) {m n : ℕ} (h : m ≤ n) (g : Grid) :
    encodeChars lat lon m g <+: encodeChars lat lon n g := by
  induction m generalizing n g with
  | zero => exact nil_prefix
  | succ m ih =>
    obtain ⟨k, rfl⟩ := Nat.exists_eq_add_of_le' h
    rw [← Nat.add_assoc, encodeChars_succ, encodeChars_succ]
    exact (prefix_cons_inj _).2 (ih (Nat.le_add_left m k) _)

/-- **The characters of a point are read as its halvings.** -/
theorem decodeChars_encodeChars (lat lon : ℚ) (n : ℕ) (g : Grid) :
    decodeChars (encodeChars lat lon n g) g = .ok (named g (taken (lat, lon) (5 * n) g)) := by
  induction n generalizing g with
  | zero => rfl
  | succ n ih =>
    have hlen : (taken (lat, lon) 5 g).length = 5 := length_bits _ _ _ _ _
    obtain ⟨hbits, hlt⟩ := charBits_number hlen
    rw [charBits] at hbits
    have hmul : 5 * (n + 1) = 5 + 5 * n := by omega
    rw [encodeChars_succ, decodeChars, findIdx_base32 hlt]
    dsimp only
    have hadd : taken (lat, lon) (5 + 5 * n) g = taken (lat, lon) 5 g ++
        taken (lat, lon) (5 * n) (named g (taken (lat, lon) 5 g)) := bits_add _ _ _ _ _ _
    have hrun : named (named g (taken (lat, lon) 5 g)) _ = named g (taken (lat, lon) 5 g ++
      taken (lat, lon) (5 * n) (named g (taken (lat, lon) 5 g))) := (run_append _ _ _ _).symm
    rw [foldl_decodeBit, hbits, ih, hmul, hadd, hrun]

/-- **A hash that is read names a place, and a point with the bits of that place has the hash.** -/
theorem decodeChars_eq_ok {bytes : List UInt8} {g' : Grid} (h : decodeChars bytes g = .ok g') :
    ∃ bs : List Bool, bs.length = 5 * bytes.length ∧ g' = named g bs ∧ (∀ b ∈ bytes, b ∈ base32) ∧
      ∀ lat lon, taken (lat, lon) bs.length g = bs →
        encodeChars lat lon bytes.length g = bytes := by
  induction bytes generalizing g with
  | nil =>
    cases h
    exact ⟨[], rfl, rfl, nofun, fun _ _ _ ↦ rfl⟩
  | cons b bytes ih =>
    rw [decodeChars] at h
    rcases hfind : base32.findIdx? (· == b) with _ | idx
    · rw [hfind] at h
      cases h
    · rw [hfind] at h
      dsimp only at h
      rw [foldl_decodeBit, ← charBits] at h
      obtain ⟨hlt, hchar, hmem⟩ := base32_of_findIdx hfind
      obtain ⟨bs, hlen, rfl, hall, htaken⟩ := ih h
      have hfive : (charBits idx).length = 5 := rfl
      refine ⟨charBits idx ++ bs, ?_, (run_append _ _ _ _).symm,
        forall_mem_cons.2 ⟨hmem, hall⟩, fun lat lon hbits ↦ ?_⟩
      · rw [length_append, hlen, hfive, length_cons]
        omega
      · rw [length_append, taken, bits_add] at hbits
        obtain ⟨hfirst, hrest⟩ := append_inj hbits (length_bits _ _ _ _ _)
        rw [hfirst] at hrest
        rw [hfive] at hfirst
        rw [length_cons, encodeChars_succ, taken, hfirst, number_charBits hlt, hchar,
          htaken lat lon hrest]

/-! ## Cells -/

/-- The point is in the cell, on its border maybe. -/
def In (p : ℚ × ℚ) (g : Grid) : Prop :=
  (g.cell.latMin ≤ p.1 ∧ p.1 ≤ g.cell.latMax) ∧ g.cell.lonMin ≤ p.2 ∧ p.2 ≤ g.cell.lonMax

/-- The point is in the cell and not on its border. -/
def Inside (p : ℚ × ℚ) (g : Grid) : Prop :=
  (g.cell.latMin < p.1 ∧ p.1 < g.cell.latMax) ∧ g.cell.lonMin < p.2 ∧ p.2 < g.cell.lonMax

/-- The cell lies in another. -/
structure Within (c d : Cell) : Prop where
  latMin : d.latMin ≤ c.latMin
  latMax : c.latMax ≤ d.latMax
  lonMin : d.lonMin ≤ c.lonMin
  lonMax : c.lonMax ≤ d.lonMax

/-- Both ranges of a cell have a middle. -/
def Proper (c : Cell) : Prop := c.latMin < c.latMax ∧ c.lonMin < c.lonMax

theorem Within.refl (c : Cell) : Within c c := ⟨le_rfl, le_rfl, le_rfl, le_rfl⟩

theorem midpoint_lt {a b : ℚ} (h : a < b) : a < midpoint a b ∧ midpoint a b < b := by
  rw [midpoint]
  constructor <;> linarith

/-- **A point stays in the half that it chooses.** -/
theorem in_halve (p : ℚ × ℚ) (g : Grid) (h : In p g) : In p (g.halve (g.choose p)) := by
  obtain ⟨c, even⟩ := g
  obtain ⟨⟨hlat, hlat'⟩, hlon, hlon'⟩ := h
  rw [Grid.choose]
  cases even with
  | true =>
    by_cases hmid : midpoint c.lonMin c.lonMax ≤ p.2
    · simp only [if_true, hmid, decide_true]
      exact ⟨⟨hlat, hlat'⟩, hmid, hlon'⟩
    · simp only [if_true, hmid, decide_false]
      exact ⟨⟨hlat, hlat'⟩, hlon, (not_le.1 hmid).le⟩
  | false =>
    by_cases hmid : midpoint c.latMin c.latMax ≤ p.1
    · simp only [Bool.false_eq_true, if_false, hmid, decide_true]
      exact ⟨⟨hmid, hlat'⟩, hlon, hlon'⟩
    · simp only [Bool.false_eq_true, if_false, hmid, decide_false]
      exact ⟨⟨hlat, (not_le.1 hmid).le⟩, hlon, hlon'⟩

/-- **A point inside a half is inside the whole, and chooses the half.** -/
theorem inside_halve (p : ℚ × ℚ) (b : Bool) (hg : Proper g.cell)
    (h : Inside p (g.halve b)) : Inside p g ∧ g.choose p = b := by
  obtain ⟨c, even⟩ := g
  have hlat := midpoint_lt hg.1
  have hlon := midpoint_lt hg.2
  dsimp only at hlat hlon
  rw [Grid.choose]
  cases even <;> cases b <;> obtain ⟨⟨h1, h2⟩, h3, h4⟩ := h <;>
    simp only [Grid.halve] at h1 h2 h3 h4 <;> dsimp only [Inside]
  · refine ⟨⟨⟨h1, h2.trans hlat.2⟩, h3, h4⟩, ?_⟩
    simpa using h2
  · refine ⟨⟨⟨hlat.1.trans h1, h2⟩, h3, h4⟩, ?_⟩
    simpa using h1.le
  · refine ⟨⟨⟨h1, h2⟩, h3, h4.trans hlon.2⟩, ?_⟩
    simpa using h4
  · refine ⟨⟨⟨h1, h2⟩, hlon.1.trans h3, h4⟩, ?_⟩
    simpa using h3.le

/-- **A half lies in the whole**, and has a middle if the whole has one. -/
theorem halve_within (b : Bool) (hg : Proper g.cell) :
    Within (g.halve b).cell g.cell ∧ Proper (g.halve b).cell := by
  obtain ⟨c, even⟩ := g
  have hlat := midpoint_lt hg.1
  have hlon := midpoint_lt hg.2
  cases even <;> cases b
  · exact ⟨⟨le_rfl, hlat.2.le, le_rfl, le_rfl⟩, hlat.1, hg.2⟩
  · exact ⟨⟨hlat.1.le, le_rfl, le_rfl, le_rfl⟩, hlat.2, hg.2⟩
  · exact ⟨⟨le_rfl, le_rfl, le_rfl, hlon.2.le⟩, hg.1, hlon.1⟩
  · exact ⟨⟨le_rfl, le_rfl, hlon.1.le, le_rfl⟩, hg.1, hlon.2⟩

theorem Within.trans {c d e : Cell} (h : Within c d) (h' : Within d e) : Within c e :=
  ⟨h'.latMin.trans h.latMin, h.latMax.trans h'.latMax, h'.lonMin.trans h.lonMin,
    h.lonMax.trans h'.lonMax⟩

theorem named_within (hg : Proper g.cell) (bs : List Bool) :
    Within (named g bs).cell g.cell ∧ Proper (named g bs).cell := by
  refine run_inv (P := fun g' : Grid ↦ Within g'.cell g.cell ∧ Proper g'.cell) (fun b g' h ↦ ?_)
    ⟨Within.refl _, hg⟩ bs
  obtain ⟨hwithin, hproper⟩ := halve_within b h.2
  exact ⟨hwithin.trans h.1, hproper⟩

theorem start_proper : Proper Grid.start.cell := by
  constructor <;> · rw [Grid.start]; norm_num

/-- The middle of a cell is inside it. -/
theorem inside_center (hg : Proper g.cell) : Inside g.cell.center g :=
  ⟨midpoint_lt hg.1, midpoint_lt hg.2⟩

/-- **The middle of a place has the bits that name it.** -/
theorem taken_center (hg : Proper g.cell) (bs : List Bool) :
    Inside (named g bs).cell.center g ∧ taken (named g bs).cell.center bs.length g = bs :=
  bits_of_inside (P := fun g' : Grid ↦ Proper g'.cell) (fun b _ h ↦ (halve_within b h).2)
    (fun p b _ h ↦ inside_halve p b h) hg (inside_center (named_within hg bs).2)

/-! ## Texts -/

theorem ascii_base32 {b : UInt8} (h : b ∈ base32) :
    (Char.ofNat b.toNat).toNat < 128 ∧ (Char.ofNat b.toNat).toUInt8 = b := by
  have hall : ∀ b ∈ base32,
      (Char.ofNat b.toNat).toNat < 128 ∧ (Char.ofNat b.toNat).toUInt8 = b := by
    decide +kernel
  exact hall b h

/-- The bytes of a text that was written of bytes of the alphabet. -/
theorem encode_chars {bytes : List UInt8} (h : ∀ b ∈ bytes, b ∈ base32) :
    Utf8.encode (bytes.map fun b ↦ Char.ofNat b.toNat) = bytes := by
  rw [Utf8.encode_of_ascii (forall_mem_map.2 fun b hb ↦ (ascii_base32 (h b hb)).1),
    map_map]
  exact (map_congr_left fun b hb ↦ (ascii_base32 (h b hb)).2).trans (map_id _)

theorem encodeChars_alphabet (lat lon : ℚ) (n : ℕ) (g : Grid) :
    ∀ b ∈ encodeChars lat lon n g, b ∈ base32 := by
  obtain ⟨_, -, -, hall, -⟩ := decodeChars_eq_ok (decodeChars_encodeChars lat lon n g)
  exact hall

theorem decodeChars_append (bytes more : List UInt8) (g : Grid) :
    decodeChars (bytes ++ more) g = decodeChars bytes g >>= decodeChars more := by
  induction bytes generalizing g with
  | nil => rfl
  | cons b bytes ih =>
    rw [cons_append, decodeChars, decodeChars]
    rcases base32.findIdx? (· == b) with _ | idx
    · rfl
    · exact ih _

/-- The coordinates that there are. -/
def InRange (p : ℚ × ℚ) : Prop := (-90 ≤ p.1 ∧ p.1 ≤ 90) ∧ -180 ≤ p.2 ∧ p.2 ≤ 180

/-- What `encode` writes of a point. -/
theorem encode_eq_ok {p : ℚ × ℚ} (h : InRange p) {precision : ℕ} (hpos : 1 ≤ precision)
    (hmax : precision ≤ maxPrecision) : encode p.1 p.2 precision =
      .ok ((encodeChars p.1 p.2 precision .start).map fun b ↦ Char.ofNat b.toNat) := by
  have hrange : ¬¬((-90 ≤ p.1 ∧ p.1 ≤ 90) ∧ -180 ≤ p.2 ∧ p.2 ≤ 180) := not_not_intro h
  rw [encode, if_neg hrange, if_neg (not_not_intro ⟨hpos, hmax⟩)]

/-- What `decode` reads. -/
theorem decode_eq_ok {hash : List Char} : decode hash = .ok cell ↔
    hash ≠ [] ∧ (Utf8.encode hash).length ≤ maxPrecision ∧
      ∃ g : Grid, decodeChars (Utf8.encode hash) .start = .ok g ∧ g.cell = cell := by
  rw [decode]
  by_cases h : hash = [] ∨ maxPrecision < (Utf8.encode hash).length
  · rw [if_pos h]
    exact iff_of_false (by simp) fun ⟨hne, hlen, _⟩ ↦ h.elim hne (not_lt.2 hlen)
  · rw [if_neg h]
    obtain ⟨hne, hlen⟩ := not_or.1 h
    rw [not_lt] at hlen
    rcases decodeChars (Utf8.encode hash) .start with e | g
    · exact iff_of_false (by simp [Except.map]) (by simp)
    · exact ⟨fun hg ↦ ⟨hne, hlen, g, rfl, Except.ok.inj hg⟩,
        fun ⟨_, _, g', hg, hcell⟩ ↦ by rw [Except.ok.inj hg, ← hcell]; rfl⟩

/-- **A hash is read as a cell that its point is in.** -/
theorem decode_encode {lat lon : ℚ} (h : InRange (lat, lon)) {precision : ℕ} (hpos : 1 ≤ precision)
    (hmax : precision ≤ maxPrecision) : ∃ hash cell, encode lat lon precision = .ok hash ∧
      hash.length = precision ∧ decode hash = .ok cell ∧ cell.contains lat lon = true := by
  have hbytes := encode_chars (encodeChars_alphabet lat lon precision .start)
  have hlen := length_encodeChars lat lon precision .start
  have hin : In (lat, lon) (named .start (taken (lat, lon) (5 * precision) .start)) :=
    mem_run_bits (s := .start) in_halve ⟨h.1, h.2⟩ _
  refine ⟨_, (named .start (taken (lat, lon) (5 * precision) .start)).cell,
    encode_eq_ok h hpos hmax, by rw [length_map, hlen],
    decode_eq_ok.2 ⟨?_, ?_, _, ?_, rfl⟩, ?_⟩
  · rw [Ne, map_eq_nil_iff, ← length_eq_zero_iff, hlen]
    omega
  · rw [hbytes, hlen]
    exact hmax
  · rw [hbytes]
    exact decodeChars_encodeChars lat lon precision .start
  · rw [Cell.contains]
    simpa [In] using hin

/-- **The middle of a cell has the hash that was read.** -/
theorem encode_decode {hash : List Char} (h : decode hash = .ok cell) :
    encode cell.center.1 cell.center.2 hash.length = .ok hash := by
  obtain ⟨hne, hlen, g, hg, rfl⟩ := decode_eq_ok.1 h
  obtain ⟨bs, -, rfl, hall, hback⟩ := decodeChars_eq_ok hg
  obtain ⟨hinside, htaken⟩ := taken_center start_proper bs
  obtain ⟨hmap, hascii⟩ := Utf8.map_of_encode rfl fun b hb ↦ by
    rw [← (ascii_base32 (hall b hb)).2, Utf8.toNat_toUInt8 (ascii_base32 (hall b hb)).1]
    exact (ascii_base32 (hall b hb)).1
  have hcount : (Utf8.encode hash).length = hash.length := by rw [← hmap, length_map]
  have hrange : InRange (named .start bs).cell.center :=
    ⟨⟨hinside.1.1.le, hinside.1.2.le⟩, hinside.2.1.le, hinside.2.2.le⟩
  rw [hcount] at hback hlen
  have hcenter := hback (named .start bs).cell.center.1 (named .start bs).cell.center.2 htaken
  rw [encode_eq_ok hrange (length_pos_iff.2 hne) hlen, hcenter]
  refine congrArg Except.ok (Utf8.ascii_ext (forall_mem_map.2 fun b hb ↦
    (ascii_base32 (hall b hb)).1) hascii ?_)
  rw [hmap, ← Utf8.encode_of_ascii (forall_mem_map.2 fun b hb ↦ (ascii_base32 (hall b hb)).1),
    encode_chars hall]

/-- **The cell of a hash lies in the cells of its beginnings.** -/
theorem decode_begins {short hash : List Char} (hshort : short <+: hash) (hne : short ≠ [])
    (h : decode hash = .ok cell) :
    ∃ whole, decode short = .ok whole ∧ Within cell whole := by
  obtain ⟨more, rfl⟩ := hshort
  obtain ⟨-, hlen, g, hg, rfl⟩ := decode_eq_ok.1 h
  rw [Utf8.encode_append] at hlen hg
  rw [decodeChars_append] at hg
  rcases hfirst : decodeChars (Utf8.encode short) .start with e | g'
  · rw [hfirst] at hg
    cases hg
  · rw [hfirst] at hg
    obtain ⟨bs, -, rfl, -⟩ := decodeChars_eq_ok hfirst
    have hmore : decodeChars (Utf8.encode more) (named .start bs) = .ok g := hg
    obtain ⟨cs, -, rfl, -⟩ := decodeChars_eq_ok hmore
    rw [length_append] at hlen
    exact ⟨_, decode_eq_ok.2 ⟨hne, (Nat.le_add_right _ _).trans hlen, _, hfirst, rfl⟩,
      (named_within (named_within start_proper bs).2 cs).1⟩

/-- **Hashes and cells agree.**  A point in range has a hash of each length from 1 to 12, which is
read as a cell that the point is in and which begins with the shorter ones.  The middle of a cell
that a hash is read as has that hash.  The cell of a hash lies in the cell of each of its
beginnings. -/
theorem geohash_cells :
    (∀ lat lon : ℚ, -90 ≤ lat ∧ lat ≤ 90 → -180 ≤ lon ∧ lon ≤ 180 → ∀ p : ℕ, 1 ≤ p → p ≤ 12 →
      ∃ hash cell, encode lat lon p = .ok hash ∧ hash.length = p ∧ decode hash = .ok cell ∧
        cell.contains lat lon = true ∧
        ∀ q : ℕ, 1 ≤ q → q ≤ p → ∃ short, encode lat lon q = .ok short ∧ short <+: hash) ∧
    (∀ (hash : List Char) (cell : Cell), decode hash = .ok cell →
      encode cell.center.1 cell.center.2 hash.length = .ok hash) ∧
    (∀ (short hash : List Char) (cell : Cell), short <+: hash → short ≠ [] →
      decode hash = .ok cell → ∃ whole, decode short = .ok whole ∧ Within cell whole) := by
  refine ⟨fun lat lon hlat hlon p hpos hmax ↦ ?_, fun hash cell ↦ encode_decode,
    fun short hash cell hshort hne h ↦ decode_begins hshort hne h⟩
  obtain ⟨hash, cell, hhash, hlen, hcell, hcontains⟩ := decode_encode ⟨hlat, hlon⟩ hpos hmax
  refine ⟨hash, cell, hhash, hlen, hcell, hcontains, fun q hq hle ↦
    ⟨_, encode_eq_ok (p := (lat, lon)) ⟨hlat, hlon⟩ hq (hle.trans hmax), ?_⟩⟩
  have hwritten := encode_eq_ok (p := (lat, lon)) ⟨hlat, hlon⟩ hpos hmax
  rw [hwritten] at hhash
  rw [← Except.ok.inj hhash]
  exact (encodeChars_begins lat lon hle .start).map _

end Huntsman.Geohash
