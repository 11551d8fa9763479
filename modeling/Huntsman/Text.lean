import Huntsman.Lib.Codes
import Mathlib.Algebra.Ring.Nat
import Mathlib.Data.List.Infix

/-!
# Text, as the source handles it

The source works on Rust `str`s.  A `str` is a sequence of Unicode scalar values, which is what a
`String` is here, and the handful of `str` methods the modelled code calls are below under their
own names, over the list of a string's characters.
-/

set_option autoImplicit false

namespace Huntsman

open List

namespace Text

/-- `char::is_whitespace`: the characters with the Unicode `White_Space` property. -/
def isWhitespace (c : Char) : Bool :=
  let n := c.toNat
  (9 ≤ n && n ≤ 13) || n == 0x20 || n == 0x85 || n == 0xA0 || n == 0x1680 ||
    (0x2000 ≤ n && n ≤ 0x200A) || n == 0x2028 || n == 0x2029 || n == 0x202F || n == 0x205F ||
    n == 0x3000

/-- `str::trim`. -/
def trim (s : String) : String :=
  String.ofList ((s.toList.dropWhile isWhitespace).reverse.dropWhile isWhitespace).reverse

/-- `str::trim_start_matches` for one character. -/
def trimStartMatches (c : Char) (s : String) : String :=
  String.ofList (s.toList.dropWhile (· == c))

/-- `str::to_ascii_lowercase`: only `A` to `Z` are changed. -/
def toAsciiLowercase (s : String) : String := String.ofList (s.toList.map Char.toLower)

/-- The pieces of `str::split`, with the number of characters of a separator still to skip and the
piece being read, last character first. -/
def splitAux (sep : List Char) : ℕ → List Char → List Char → List (List Char)
  | _, piece, [] => [piece.reverse]
  | skip + 1, piece, _ :: rest => splitAux sep skip piece rest
  | 0, piece, c :: rest =>
    if sep.isPrefixOf (c :: rest) then piece.reverse :: splitAux sep (sep.length - 1) [] rest
    else splitAux sep 0 (c :: piece) rest

/-- `str::split` at a separator text. -/
def split (sep s : String) : List String := (splitAux sep.toList 0 [] s.toList).map String.ofList

/-- `str::strip_prefix`. -/
def stripPrefix (s start : String) : Option String :=
  (start.toList.isPrefixOf? s.toList).map String.ofList

/-- `str::strip_suffix`. -/
def stripSuffix (s tail : String) : Option String :=
  (tail.toList.isSuffixOf? s.toList).map String.ofList

/-- `str::starts_with`. -/
def startsWith (s start : String) : Bool := (stripPrefix s start).isSome

/-- `str::ends_with`. -/
def endsWith (s tail : String) : Bool := (stripSuffix s tail).isSome

/-- `str::contains` for a text. -/
def contains (s part : String) : Bool := s.toList.tails.any part.toList.isPrefixOf

/-- The positions of `str::rmatch_indices`, from the end of `s`.  Positions count characters, and
the separator the source searches for does not overlap itself. -/
def rmatchIndices (s part : String) : List ℕ :=
  (List.range s.toList.length).reverse.filter fun i ↦ part.toList.isPrefixOf (s.toList.drop i)

/-- The part of `s` before position `i`. -/
def before (s : String) (i : ℕ) : String := String.ofList (s.toList.take i)

/-- The part of `s` from position `i` on. -/
def after (s : String) (i : ℕ) : String := String.ofList (s.toList.drop i)

/-! ## Parts of a text -/

theorem stripPrefix_eq_some {s start rest : String} :
    stripPrefix s start = some rest ↔ s.toList = start.toList ++ rest.toList := by
  rw [stripPrefix, Option.map_eq_some_iff]
  constructor
  · rintro ⟨more, hmore, rfl⟩
    rw [String.toList_ofList]
    exact (isPrefixOf?_eq_some_iff_append_eq.1 hmore).symm
  · intro h
    refine ⟨rest.toList, isPrefixOf?_eq_some_iff_append_eq.2 h.symm, String.ofList_toList⟩

theorem stripSuffix_eq_some {s tail rest : String} :
    stripSuffix s tail = some rest ↔ s.toList = rest.toList ++ tail.toList := by
  rw [stripSuffix, Option.map_eq_some_iff]
  constructor
  · rintro ⟨more, hmore, rfl⟩
    rw [String.toList_ofList]
    exact (isSuffixOf?_eq_some_iff_append_eq.1 hmore).symm
  · intro h
    refine ⟨rest.toList, isSuffixOf?_eq_some_iff_append_eq.2 h.symm, String.ofList_toList⟩

theorem startsWith_iff {s start : String} :
    startsWith s start = true ↔ start.toList <+: s.toList := by
  rw [startsWith, Option.isSome_iff_exists]
  constructor
  · rintro ⟨rest, hrest⟩
    exact ⟨rest.toList, (stripPrefix_eq_some.1 hrest).symm⟩
  · rintro ⟨rest, hrest⟩
    refine ⟨String.ofList rest, stripPrefix_eq_some.2 ?_⟩
    rw [String.toList_ofList, hrest]

theorem endsWith_iff {s tail : String} : endsWith s tail = true ↔ tail.toList <:+ s.toList := by
  rw [endsWith, Option.isSome_iff_exists]
  constructor
  · rintro ⟨rest, hrest⟩
    exact ⟨rest.toList, (stripSuffix_eq_some.1 hrest).symm⟩
  · rintro ⟨rest, hrest⟩
    refine ⟨String.ofList rest, stripSuffix_eq_some.2 ?_⟩
    rw [String.toList_ofList, hrest]

theorem contains_iff {s part : String} : contains s part = true ↔ part.toList <:+: s.toList := by
  rw [contains, any_eq_true, infix_iff_prefix_suffix]
  constructor
  · rintro ⟨more, hmore, hprefix⟩
    exact ⟨more, isPrefixOf_iff_prefix.1 hprefix, (mem_tails _ _).1 hmore⟩
  · rintro ⟨more, hprefix, hmore⟩
    exact ⟨more, (mem_tails _ _).2 hmore, isPrefixOf_iff_prefix.2 hprefix⟩

/-- What stands before and after a place where `part` was found. -/
theorem before_after {s part : String} {i : ℕ} (h : i ∈ rmatchIndices s part) :
    s.toList = (before s i).toList ++
      (part.toList ++ (after s (i + part.length)).toList) := by
  rw [rmatchIndices, mem_filter, isPrefixOf_iff_prefix] at h
  obtain ⟨-, more, hmore⟩ := h
  have hafter : s.toList.drop (i + part.length) = more := by
    rw [← drop_drop, ← hmore, ← String.length_toList, drop_left]
  rw [before, after, String.toList_ofList, String.toList_ofList, hafter, hmore,
    take_append_drop]

/-! ## Text from bytes -/

/-- Whether a byte may follow in the middle of a character. -/
def isContinuation (b : UInt8) : Bool := 0x80 ≤ b && b ≤ 0xBF

/-- The continuation that may follow the first byte of a character of three or four bytes. -/
def isSecond (first b : UInt8) : Bool :=
  if first = 0xE0 then 0xA0 ≤ b && b ≤ 0xBF
  else if first = 0xED then 0x80 ≤ b && b ≤ 0x9F
  else if first = 0xF0 then 0x90 ≤ b && b ≤ 0xBF
  else if first = 0xF4 then 0x80 ≤ b && b ≤ 0x8F
  else isContinuation b

/-- How many bytes of a stretch that starts no character are taken for one replacement character. -/
def badLength : List UInt8 → ℕ
  | first :: b :: rest =>
    if 0xE0 ≤ first ∧ first ≤ 0xF4 ∧ isSecond first b then
      match rest with
      | c :: _ => if 0xF0 ≤ first ∧ isContinuation c then 3 else 2
      | [] => 2
    else 1
  | _ => 1

/-- The characters of `bytes`, at most `fuel` of them; a stretch that is no character is one
replacement character. -/
def utf8Chars : ℕ → List UInt8 → List Char
  | 0, _ => []
  | _ + 1, [] => []
  | fuel + 1, b :: rest =>
    match (b :: rest).toByteArray.utf8DecodeChar? 0 with
    | some c => c :: utf8Chars fuel ((b :: rest).drop c.utf8Size)
    | none => Char.ofNat 0xFFFD :: utf8Chars fuel ((b :: rest).drop (badLength (b :: rest)))

/-- `String::from_utf8_lossy`. -/
def fromUtf8Lossy (bytes : List UInt8) : String :=
  String.ofList (utf8Chars bytes.length bytes)

/-- `str::as_bytes`. -/
def utf8 (s : String) : List UInt8 := s.toList.flatMap String.utf8EncodeChar

/-- Text read back from its bytes. -/
theorem utf8Chars_encode {chars : List Char} {fuel : ℕ}
    (h : (chars.flatMap String.utf8EncodeChar).length ≤ fuel) :
    utf8Chars fuel (chars.flatMap String.utf8EncodeChar) = chars := by
  induction chars generalizing fuel with
  | nil => cases fuel <;> rfl
  | cons c rest ih =>
    rw [flatMap_cons] at h ⊢
    have hlen : (String.utf8EncodeChar c).length = c.utf8Size := String.length_utf8EncodeChar c
    have hpos := c.utf8Size_pos
    have hdecode : (String.utf8EncodeChar c ++
        rest.flatMap String.utf8EncodeChar).toByteArray.utf8DecodeChar? 0 = some c := by
      rw [toByteArray_append]
      exact ByteArray.utf8DecodeChar?_utf8EncodeChar_append
    have hdrop : (String.utf8EncodeChar c ++ rest.flatMap String.utf8EncodeChar).drop c.utf8Size =
        rest.flatMap String.utf8EncodeChar := by
      rw [← hlen, drop_left]
    rw [length_append, hlen] at h
    match fuel, hbytes : String.utf8EncodeChar c ++ rest.flatMap String.utf8EncodeChar with
    | 0, _ => omega
    | fuel + 1, [] =>
      have := congrArg length hbytes
      rw [length_append, hlen, length_nil] at this
      omega
    | fuel + 1, b :: more =>
      rw [hbytes] at hdecode hdrop
      rw [utf8Chars, hdecode]
      simp only
      rw [hdrop, ih (by omega)]

/-- `from_utf8_lossy` loses nothing of a text. -/
theorem fromUtf8Lossy_utf8 (s : String) : fromUtf8Lossy (utf8 s) = s := by
  rw [fromUtf8Lossy, utf8, utf8Chars_encode le_rfl, String.ofList_toList]

/-- `str::from_utf8`. -/
def fromUtf8 (bytes : List UInt8) : Option String :=
  if utf8 (fromUtf8Lossy bytes) = bytes then some (fromUtf8Lossy bytes) else none

theorem fromUtf8_eq_some {bytes : List UInt8} {s : String} :
    fromUtf8 bytes = some s ↔ utf8 s = bytes := by
  rw [fromUtf8]
  constructor
  · intro h
    split at h
    · rename_i hvalid
      rwa [← Option.some.inj h]
    · simp at h
  · rintro rfl
    rw [fromUtf8Lossy_utf8, if_pos rfl]

/-- Characters are read off whatever bytes follow them. -/
theorem utf8EncodeChar_delimited : Codes.Delimited String.utf8EncodeChar := by
  intro c d s t h
  have hread : ∀ (c : Char) (s : List UInt8),
      (String.utf8EncodeChar c ++ s).toByteArray.utf8DecodeChar? 0 = some c := by
    intro c s
    rw [toByteArray_append]
    exact ByteArray.utf8DecodeChar?_utf8EncodeChar_append
  have hc := hread c s
  rw [h, hread d t] at hc
  rw [Option.some.inj hc] at h ⊢
  exact ⟨rfl, append_cancel_left h⟩

theorem utf8EncodeChar_ne_nil (c : Char) : String.utf8EncodeChar c ≠ [] := by
  intro h
  have hlength := String.length_utf8EncodeChar c
  rw [h, length_nil] at hlength
  exact absurd c.utf8Size_pos (by omega)

/-- What a text's bytes begin with is a text only if the text begins with it. -/
theorem utf8_append_eq {s t : String} {rest : List UInt8} (h : utf8 s ++ rest = utf8 t) :
    ∃ more, t = s ++ more ∧ rest = utf8 more := by
  obtain ⟨more, hmore, hrest⟩ := utf8EncodeChar_delimited.of_flatMap_append utf8EncodeChar_ne_nil h
  refine ⟨String.ofList more, ?_, ?_⟩
  · rw [← String.toList_inj, hmore, String.toList_append, String.toList_ofList]
  · rw [hrest, utf8, String.toList_ofList]

/-- The byte of a newline stands for nothing else. -/
theorem newline_mem_utf8 {s : String} (h : 10 ∈ utf8 s) : '\n' ∈ s.toList := by
  obtain ⟨c, hc, hbyte⟩ := mem_flatMap.1 h
  have hten : (10 : UInt8).toNat = 10 := rfl
  have hsame : ∀ n, (10 : UInt8) = UInt8.ofNat n → n % 256 = 10 := by
    intro n h
    rw [← hten, h, UInt8.toNat_ofNat']
  suffices hval : c.toNat = 10 by
    rwa [← Char.ofNat_toNat c, hval] at hc
  unfold String.utf8EncodeChar at hbyte
  simp only at hbyte
  -- a byte of a longer character is 128 or more
  split at hbyte
  · have := hsame _ (mem_singleton.1 hbyte)
    show c.val.toNat = 10
    omega
  · split at hbyte
    · simp only [mem_cons, not_mem_nil, or_false] at hbyte
      rcases hbyte with h | h <;> · have := hsame _ h; omega
    · split at hbyte
      · simp only [mem_cons, not_mem_nil, or_false] at hbyte
        rcases hbyte with h | h | h <;> · have := hsame _ h; omega
      · simp only [mem_cons, not_mem_nil, or_false] at hbyte
        rcases hbyte with h | h | h | h <;> · have := hsame _ h; omega

/-- A line, last character first, without the carriage return at its end. -/
def dropReturn (piece : List Char) : List Char :=
  if piece.head? = some '\r' then piece.tail else piece

/-- `str::lines`: the pieces between newlines without the carriage return before one, and no last
piece that is empty. -/
def linesAux : List Char → List Char → List (List Char)
  | piece, [] => if piece = [] then [] else [piece.reverse]
  | piece, c :: rest =>
    if c = '\n' then (dropReturn piece).reverse :: linesAux [] rest else linesAux (c :: piece) rest

def lines (s : String) : List String := (linesAux [] s.toList).map String.ofList

/-- `str::trim_end_matches` for one character. -/
def trimEndMatches (c : Char) (s : String) : String :=
  String.ofList (s.toList.reverse.dropWhile (· == c)).reverse

end Text

end Huntsman
