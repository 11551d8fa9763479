import Huntsman.Axml.Encode

/-!
# Reading the string pool back

The numbers, the strings and the pool of a document are read back from where they are written:
`stringPool_pool`.
-/

set_option autoImplicit false

namespace Huntsman.Axml

open Bytes List Option
open Apk (le16 le32)

variable {data : List UInt8} {pos : ℕ}

/-! ## Numbers -/

theorem le16_of_holds {n : ℕ} (h : Holds data pos (le16Bytes n)) :
    le16 data pos = some (UInt16.ofNat n) := by
  have hslice : slice data pos (pos + 2) = some (le16Bytes n) := h.slice
  rw [le16, hslice]
  exact congrArg some (word16_bytes (UInt16.ofNat n))

theorem le32_of_holds {n : ℕ} (h : Holds data pos (le32Bytes n)) :
    le32 data pos = some (UInt32.ofNat n) := by
  have hslice : slice data pos (pos + 4) = some (le32Bytes n) := h.slice
  rw [le32, hslice]
  exact congrArg some (word32_bytes (UInt32.ofNat n))

theorem toNat_ofNat16 {n : ℕ} (h : n < 2 ^ 16) : (UInt16.ofNat n).toNat = n := by
  rw [UInt16.toNat_ofNat', Nat.mod_eq_of_lt h]

theorem toNat_ofNat32 {n : ℕ} (h : n < 2 ^ 32) : (UInt32.ofNat n).toNat = n := by
  rw [UInt32.toNat_ofNat', Nat.mod_eq_of_lt h]

/-- What is read for each index of a list is the list. -/
theorem mapM_range {m : Type → Type} [Monad m] [LawfulMonad m] {α : Type} {f : ℕ → m α} {ys : List α}
    (h : ∀ i y, ys[i]? = some y → f i = pure y) : (List.range ys.length).mapM f = pure ys := by
  suffices hall : ∀ (ys : List α) (k : ℕ), (∀ i y, ys[i]? = some y → f (k + i) = pure y) →
      (range' k ys.length).mapM f = pure ys by
    rw [range_eq_range']
    exact hall ys 0 fun i y hi ↦ by rw [Nat.zero_add]; exact h i y hi
  intro ys
  induction ys with
  | nil => exact fun _ _ ↦ by rw [length_nil, range'_zero, mapM_nil]
  | cons y rest ih =>
    intro k hk
    have hfirst : f k = pure y := hk 0 y rfl
    have hrest := ih (k + 1) fun i z hi ↦ by
      rw [Nat.add_assoc, Nat.add_comm 1 i]
      exact hk (i + 1) z hi
    rw [length_cons, range'_succ, mapM_cons, hfirst, pure_bind, hrest, pure_bind]

/-! ## Text -/

/-- A unit that is no surrogate is a character by itself. -/
theorem utf16Chars_cons {u : UInt16} (h : u.toNat < 0xD800 ∨ 0xDFFF < u.toNat) (rest : List UInt16) :
    utf16Chars (u :: rest) = Char.ofNat u.toNat :: utf16Chars rest := by
  rcases rest with _ | ⟨v, rest⟩
  · simp only [utf16Chars]
    rw [if_neg (by omega)]
  · rw [utf16Chars, if_pos h]

/-- **UTF-16 is read back.** -/
theorem utf16Chars_flatMap (chars : List Char) : utf16Chars (chars.flatMap utf16Char) = chars := by
  induction chars with
  | nil => rfl
  | cons c rest ih =>
    have hvalid : c.toNat < 0xD800 ∨ 0xDFFF < c.toNat ∧ c.toNat < 0x110000 := c.valid
    rw [flatMap_cons]
    by_cases hsmall : c.toNat < 0x10000
    · have hunit : (UInt16.ofNat c.toNat).toNat = c.toNat := toNat_ofNat16 hsmall
      rw [utf16Char, if_pos hsmall, singleton_append, utf16Chars_cons (by rw [hunit]; omega),
        hunit, Char.ofNat_toNat, ih]
    · have hhigh : (UInt16.ofNat (0xD800 + (c.toNat - 0x10000) / 0x400)).toNat =
          0xD800 + (c.toNat - 0x10000) / 0x400 := toNat_ofNat16 (by omega)
      have hlow : (UInt16.ofNat (0xDC00 + (c.toNat - 0x10000) % 0x400)).toNat =
          0xDC00 + (c.toNat - 0x10000) % 0x400 := toNat_ofNat16 (by omega)
      rw [utf16Char, if_neg hsmall, cons_append, singleton_append, utf16Chars, hhigh, hlow,
        if_neg (by omega), if_pos (by omega), ih]
      have hchar : 0x10000 + 0x400 * (0xD800 + (c.toNat - 0x10000) / 0x400 - 0xD800) +
          (0xDC00 + (c.toNat - 0x10000) % 0x400 - 0xDC00) = c.toNat := by omega
      rw [hchar, Char.ofNat_toNat]

theorem units_flatMap (us : List UInt16) : units (us.flatMap fun u ↦ le16Bytes u.toNat) = us := by
  induction us with
  | nil => rfl
  | cons u rest ih =>
    have hword := word16_bytes (UInt16.ofNat u.toNat)
    rw [UInt16.ofNat_toNat] at hword
    rw [flatMap_cons]
    show word16 _ _ :: units (rest.flatMap fun u ↦ le16Bytes u.toNat) = _
    rw [UInt16.ofNat_toNat, hword, ih]

theorem words_flatMap (ids : List UInt32) : words (ids.flatMap fun id ↦ le32Bytes id.toNat) = ids := by
  induction ids with
  | nil => rfl
  | cons id rest ih =>
    have hword := word32_bytes (UInt32.ofNat id.toNat)
    rw [UInt32.ofNat_toNat] at hword
    rw [flatMap_cons]
    show word32 _ _ _ _ :: words (rest.flatMap fun id ↦ le32Bytes id.toNat) = _
    rw [UInt32.ofNat_toNat, hword, ih]

/-! ## Strings -/

theorem utf8Length_written {n : ℕ} (hn : n < 2 ^ 15) (h : Holds data pos (utf8Prefix n)) :
    utf8Length data pos = some (n, (utf8Prefix n).length) := by
  rw [utf8Prefix] at h ⊢
  split at h
  · rename_i hsmall
    have hfirst : (UInt8.ofNat n).toNat = n := by
      rw [UInt8.toNat_ofNat', Nat.mod_eq_of_lt (by omega)]
    rw [utf8Length, h.head, if_pos hsmall]
    simp only [bind_eq_bind, bind_some, hfirst, if_pos hsmall]
    rfl
  · rename_i hlarge
    have hfirst : (UInt8.ofNat (0x80 + n / 256)).toNat = 0x80 + n / 256 := by
      rw [UInt8.toNat_ofNat', Nat.mod_eq_of_lt (by omega)]
    have hsecond : (UInt8.ofNat n).toNat = n % 256 := UInt8.toNat_ofNat'
    rw [utf8Length, h.head, if_neg hlarge]
    simp only [bind_eq_bind, bind_some, hfirst, h.tail.head, hsecond]
    rw [if_neg (by omega)]
    refine congrArg some (Prod.ext ?_ rfl)
    show 256 * ((0x80 + n / 256) % 0x80) + n % 256 = n
    omega

theorem utf16Length_written {n : ℕ} (hn : n < 2 ^ 31) (h : Holds data pos (utf16Prefix n)) :
    utf16Length data pos = some (n, (utf16Prefix n).length) := by
  rw [utf16Prefix] at h ⊢
  split at h
  · rename_i hsmall
    rw [utf16Length, le16_of_holds h, if_pos hsmall]
    simp only [bind_eq_bind, bind_some, toNat_ofNat16 (by omega : n < 2 ^ 16),
      if_pos hsmall]
    rfl
  · rename_i hlarge
    have hfirst : (UInt16.ofNat (0x8000 + n / 65536)).toNat = 0x8000 + n / 65536 :=
      toNat_ofNat16 (by omega)
    have hsecond : (UInt16.ofNat n).toNat = n % 65536 := UInt16.toNat_ofNat'
    have hnext : le16 data (pos + 2) = some (UInt16.ofNat n) := le16_of_holds h.right
    rw [utf16Length, le16_of_holds h.left, if_neg hlarge]
    simp only [bind_eq_bind, bind_some, hfirst, hnext, hsecond]
    rw [if_neg (by omega)]
    refine congrArg some (Prod.ext ?_ rfl)
    show 65536 * ((0x8000 + n / 65536) % 0x8000) + n % 65536 = n
    omega

theorem length_unitBytes (us : List UInt16) :
    (us.flatMap fun u ↦ le16Bytes u.toNat).length = 2 * us.length := by
  rw [length_flatMap]
  simp only [length_le16Bytes, map_const', sum_replicate_nat]
  omega

/-- **A string of the pool is read back.** -/
theorem poolString_bytes {utf8 : Bool} {s : String} (hfits : StringFits utf8 s)
    (h : Holds data pos (stringBytes utf8 s)) : poolString data pos utf8 = some s := by
  rcases utf8 with _ | _
  · have hn : (utf16 s).length < 2 ^ 31 := hfits
    rw [stringBytes, if_neg Bool.false_ne_true] at h
    have hraw := h.right.left.slice
    rw [length_unitBytes] at hraw
    rw [poolString, if_neg Bool.false_ne_true, utf16Length_written hn h.left]
    simp only [bind_eq_bind, bind_some, hraw]
    rw [fromUtf16Lossy, units_flatMap, utf16, utf16Chars_flatMap, String.ofList_toList]
    rfl
  · have hn : (utf16 s).length < 2 ^ 15 ∧ (Text.utf8 s).length < 2 ^ 15 := hfits
    rw [stringBytes, if_pos rfl] at h
    have hraw := h.right.right.left.slice
    rw [poolString, if_pos rfl, utf8Length_written hn.1 h.left]
    simp only [bind_eq_bind, bind_some]
    rw [utf8Length_written hn.2 h.right.left]
    simp only [bind_some, hraw, Text.fromUtf8Lossy_utf8]
    rfl

/-! ## The pool -/

theorem Piece.holds_extra {p : Piece} (h : Holds data pos p.bytes) : Holds data (pos + 8) p.extra :=
  h.right.right.right.left

theorem Piece.holds_body {p : Piece} (h : Holds data pos p.bytes) :
    Holds data (pos + p.header) p.body := by
  have hbody : Holds data (pos + 8 + p.extra.length) p.body := h.right.right.right.right
  rwa [Nat.add_assoc] at hbody

theorem stringBytes_ne_nil (utf8 : Bool) (s : String) : stringBytes utf8 s ≠ [] := by
  rw [stringBytes]
  split <;> simp

theorem length_offsets (n : ℕ) (texts : List (List UInt8)) :
    (offsets n texts).length = texts.length := by
  induction texts generalizing n with
  | nil => rfl
  | cons text rest ih => rw [offsets, length_cons, length_cons, ih]

theorem getElem?_offsets {n i : ℕ} {texts : List (List UInt8)} (hi : i < texts.length) :
    (offsets n texts)[i]? = some (n + (texts.take i).flatten.length) := by
  induction texts generalizing n i with
  | nil => exact absurd hi (Nat.not_lt_zero i)
  | cons text rest ih =>
    rcases i with _ | i
    · rfl
    · rw [offsets, getElem?_cons_succ, ih (Nat.lt_of_succ_lt_succ hi), take_succ_cons,
        flatten_cons, length_append, Nat.add_assoc]

theorem length_take_flatten {texts : List (List UInt8)} {text : List UInt8} {i : ℕ}
    (hi : texts[i]? = some text) :
    (texts.take i).flatten.length + text.length ≤ texts.flatten.length := by
  obtain ⟨hlt, hget⟩ := List.getElem?_eq_some_iff.1 hi
  have hsplit := congrArg (fun l ↦ (List.flatten l).length) (List.take_append_drop i texts)
  simp only [List.drop_eq_getElem_cons hlt, hget, List.flatten_append, List.flatten_cons,
    List.length_append] at hsplit
  omega

/-- A pool of strings as the format has it: a chunk with, in its header, how many strings there are,
how they are written and where they start, and after its header where from there each of them is. -/
structure PoolAt (data : List UInt8) (pos : ℕ) where
  header : ℕ
  size : ℕ
  flags : UInt32
  stringsStart : ℕ
  strings : List String
  head : Holds data pos (le16Bytes stringPoolType ++ (le16Bytes header ++ le32Bytes size))
  header_ge : 8 ≤ header
  header_lt : header < 2 ^ 16
  size_lt : size < 2 ^ 32
  header_le : header + 4 * strings.length ≤ size
  inside : pos + size ≤ data.length
  start_le : stringsStart ≤ size
  count : Holds data (pos + 8) (le32Bytes strings.length)
  flagsAt : Holds data (pos + 16) (le32Bytes flags.toNat)
  startAt : Holds data (pos + 20) (le32Bytes stringsStart)
  text : ∀ i s, strings[i]? = some s → ∃ offset, Holds data (pos + header + 4 * i) (le32Bytes offset) ∧
    StringFits (flags.toNat.testBit 8) s ∧
    Holds (data.take (pos + size)) (pos + stringsStart + offset)
      (stringBytes (flags.toNat.testBit 8) s)

namespace PoolAt

/-- Whether the strings are in UTF-8. -/
def utf8 (pool : PoolAt data pos) : Bool := pool.flags.toNat.testBit 8

/-- A string is there, and where it is can be written. -/
theorem text_lt (pool : PoolAt data pos) {i : ℕ} {s : String} (hi : pool.strings[i]? = some s) :
    ∃ offset, Holds data (pos + pool.header + 4 * i) (le32Bytes offset) ∧
      StringFits pool.utf8 s ∧
      Holds (data.take (pos + pool.size)) (pos + pool.stringsStart + offset)
        (stringBytes pool.utf8 s) ∧
      pool.stringsStart + offset < pool.size := by
  obtain ⟨offset, hoffset, hfits, htext⟩ := pool.text i s hi
  have hle := htext.le
  have hpos : 0 < (stringBytes (pool.flags.toNat.testBit 8) s).length :=
    length_pos_iff.2 (stringBytes_ne_nil _ s)
  rw [length_take] at hle
  exact ⟨offset, hoffset, hfits, htext, by omega⟩

/-- A string is read back from its place in the pool. -/
theorem poolEntry (pool : PoolAt data pos) {i : ℕ} {s : String} (hi : pool.strings[i]? = some s) :
    Axml.poolEntry data pos pool.header pool.size pool.stringsStart pool.utf8 i = .ok s := by
  obtain ⟨offset, hoffset, hfits, htext, hlt⟩ := pool.text_lt hi
  have hsize := pool.size_lt
  rw [Axml.poolEntry, le32_of_holds hoffset]
  refine Except.bind_ok.2 ⟨_, rfl, ?_⟩
  simp only [toNat_ofNat32 (by omega : offset < 2 ^ 32)]
  rw [if_pos (by omega), range, slice_zero pool.inside]
  refine Except.bind_ok.2 ⟨_, rfl, ?_⟩
  rw [poolString_bytes hfits htext]
  rfl

theorem le32_fields (pool : PoolAt data pos) :
    le32 data (pos + 8) = some (UInt32.ofNat pool.strings.length) ∧
      le32 data (pos + 16) = some pool.flags ∧
      le32 data (pos + 20) = some (UInt32.ofNat pool.stringsStart) := by
  refine ⟨le32_of_holds pool.count, ?_, le32_of_holds pool.startAt⟩
  rw [le32_of_holds pool.flagsAt, UInt32.ofNat_toNat]

theorem lengths_lt (pool : PoolAt data pos) :
    pool.strings.length < 2 ^ 32 ∧ pool.stringsStart < 2 ^ 32 := by
  have hsize := pool.size_lt
  have hheader := pool.header_le
  have hstart := pool.start_le
  omega

/-- **The pool is read back.** -/
theorem stringPool (pool : PoolAt data pos) (hcount : pool.strings.length ≤ maxStrings) :
    Axml.stringPool data pos pool.header pool.size = .ok pool.strings := by
  obtain ⟨hcountAt, hflagsAt, hstartAt⟩ := pool.le32_fields
  obtain ⟨hlength, hstart⟩ := pool.lengths_lt
  rw [Axml.stringPool, hcountAt, hflagsAt, hstartAt]
  refine Except.bind_ok.2 ⟨_, rfl, Except.bind_ok.2 ⟨_, rfl, Except.bind_ok.2 ⟨_, rfl, ?_⟩⟩⟩
  refine Except.bind_ok.2 ⟨(), Except.ensure_ok.2 ?_, ?_⟩
  · rwa [toNat_ofNat32 hlength]
  · rw [toNat_ofNat32 hlength, toNat_ofNat32 hstart]
    exact mapM_range fun i s hi ↦ pool.poolEntry hi

/-- A pool of too many strings is refused. -/
theorem stringPool_over (pool : PoolAt data pos) (hcount : maxStrings < pool.strings.length) :
    Axml.stringPool data pos pool.header pool.size =
      .error (.refused ("string pool holds over " ++ toString maxStrings ++ " strings")) := by
  obtain ⟨hcountAt, hflagsAt, hstartAt⟩ := pool.le32_fields
  obtain ⟨hlength, -⟩ := pool.lengths_lt
  have hover : ¬ (UInt32.ofNat pool.strings.length).toNat ≤ maxStrings := by
    rw [toNat_ofNat32 hlength]
    omega
  rw [Axml.stringPool, hcountAt, hflagsAt, hstartAt]
  simp only [orRefuse, Except.ensure, bind, Except.bind, if_neg hover]

end PoolAt

namespace Pool

variable {pool : Pool}

theorem length_texts : pool.texts.length = pool.strings.length := length_map _

theorem length_offsetsBytes :
    ((offsets 0 pool.texts).flatMap le32Bytes).length = 4 * pool.strings.length := by
  rw [length_flatMap]
  simp only [length_le32Bytes, map_const', sum_replicate_nat, length_offsets, length_texts]
  omega

theorem size_piece : pool.piece.size = pool.piece.header + (4 * pool.strings.length +
    (pool.gap.length + (pool.texts.flatten.length + pool.tail.length))) := by
  have hbody : pool.piece.body.length = 4 * pool.strings.length +
      (pool.gap.length + (pool.texts.flatten.length + pool.tail.length)) := by
    rw [piece, length_append, length_append, length_append, length_offsetsBytes]
  rw [Piece.size, hbody]

theorem header_piece : pool.piece.header = pool.headerSize := by
  rw [Piece.header, piece, headerSize]
  simp only [length_append, length_le32Bytes]
  omega

theorem holds_flags (hfits : pool.Fits) (h : Holds data pos pool.piece.bytes) :
    Holds data (pos + 16) (le32Bytes pool.flags.toNat ++
      (le32Bytes pool.stringsStart ++ pool.rest)) := by
  have hstyles : pos + 8 + 4 + pool.styles.length = pos + 16 := by
    rw [hfits.styles]
  exact hstyles ▸ (Piece.holds_extra h).right.right

theorem headerSize_le : pool.headerSize + 4 * pool.strings.length ≤ pool.stringsStart :=
  Nat.le_add_right _ _

theorem stringsStart_le : pool.stringsStart ≤ pool.piece.size := by
  have hlength := (size_piece : pool.piece.size = _)
  rw [header_piece] at hlength
  rw [stringsStart]
  omega

/-- **A pool that is written is a pool.** -/
def poolAt (hfits : pool.Fits) (hsize : pool.piece.size < 2 ^ 32)
    (h : Holds data pos pool.piece.bytes) : PoolAt data pos where
  header := pool.piece.header
  size := pool.piece.size
  flags := pool.flags
  stringsStart := pool.stringsStart
  strings := pool.strings
  head := by
    have hwhole : Holds data pos (le16Bytes stringPoolType ++ (le16Bytes pool.piece.header ++
        (le32Bytes pool.piece.size ++ (pool.piece.extra ++ pool.piece.body)))) := h
    rw [← List.append_assoc (le16Bytes pool.piece.header), ← List.append_assoc] at hwhole
    exact hwhole.left
  header_ge := Nat.le_add_right _ _
  header_lt := header_piece ▸ hfits.header
  size_lt := hsize
  header_le := by
    rw [header_piece]
    exact headerSize_le.trans stringsStart_le
  inside := by
    have hle := h.le
    rwa [Piece.length_bytes] at hle
  start_le := stringsStart_le
  count := (Piece.holds_extra h).left
  flagsAt := (holds_flags hfits h).left
  startAt := (holds_flags hfits h).right.left
  text := fun i s hi ↦ by
    have htext : pool.texts[i]? = some (stringBytes pool.utf8 s) := by
      rw [texts, List.getElem?_map, hi, Option.map_some]
    have hlt : i < pool.texts.length := (List.getElem?_eq_some_iff.1 htext).1
    have hinside := length_take_flatten htext
    have hlength := (size_piece : pool.piece.size = _)
    have hbody := Piece.holds_body h
    have hget : (offsets 0 pool.texts)[i]? = some (pool.texts.take i).flatten.length := by
      rw [getElem?_offsets hlt, Nat.zero_add]
    have hstart : pos + pool.piece.header + ((offsets 0 pool.texts).flatMap le32Bytes).length +
        pool.gap.length = pos + pool.stringsStart := by
      rw [length_offsetsBytes, header_piece, stringsStart]
      omega
    have hstring := hbody.right.right.left.flatten htext
    rw [hstart] at hstring
    refine ⟨(pool.texts.take i).flatten.length, ?_, hfits.strings s (List.mem_iff_getElem?.2 ⟨i, hi⟩),
      hstring.take ?_⟩
    · rw [Nat.mul_comm]
      exact hbody.left.flatMap length_le32Bytes hget
    · have hstrings : pool.stringsStart = pool.piece.header + 4 * pool.strings.length +
          pool.gap.length := by
        rw [header_piece, stringsStart]
      omega

/-- **The pool is read back.** -/
theorem stringPool_pool (hfits : pool.Fits) (hsize : pool.piece.size < 2 ^ 32)
    (hcount : pool.strings.length ≤ maxStrings) (h : Holds data pos pool.piece.bytes) :
    stringPool data pos pool.piece.header pool.piece.size = .ok pool.strings :=
  (pool.poolAt hfits hsize h).stringPool hcount

/-- A pool of too many strings is refused. -/
theorem stringPool_over (hfits : pool.Fits) (hsize : pool.piece.size < 2 ^ 32)
    (hcount : maxStrings < pool.strings.length) (h : Holds data pos pool.piece.bytes) :
    stringPool data pos pool.piece.header pool.piece.size =
      .error (.refused ("string pool holds over " ++ toString maxStrings ++ " strings")) :=
  (pool.poolAt hfits hsize h).stringPool_over hcount

end Pool

end Huntsman.Axml
