import Huntsman.Exif.Cap

/-!
# Values of EXIF entries, as they are shown

An entry of an EXIF directory is shown as text, as a list of numbers or of fractions, or as its
bytes.  Text is cut to a bound as `capValueWithin` does it.  A list is never cut in the middle of an
item: it holds as many whole items as leave room for a marker with how many there are, and it ends
with that marker exactly when it does not show them all (`listedWith_eq`).
-/

set_option autoImplicit false

namespace Huntsman.Exif

open List

open Canonical (Chars trim decimal)
open TextNorm (isEscaped)

/-! ## The source -/

inductive Endian where
  | little
  | big
deriving DecidableEq

/-- A number of two or four bytes. -/
def Endian.number (endian : Endian) (bytes : List UInt8) : ℕ :=
  match endian with
  | .little => bytes.foldr (fun b n ↦ b.toNat + 256 * n) 0
  | .big => bytes.foldl (fun n b ↦ 256 * n + b.toNat) 0

def maxExifValueBytes : ℕ := 8192

/-- One directory entry. -/
structure Entry where
  tag : ℕ
  typ : ℕ
  /-- The value bytes, at most `maxExifValueBytes`. -/
  value : List UInt8
  /-- The bytes the entry declares. -/
  declared : ℕ
deriving DecidableEq

/-- `slice::chunks_exact`. -/
def chunksExact (width : ℕ) (bytes : List UInt8) : List (List UInt8) :=
  (List.range (bytes.length / width)).map fun i ↦ (bytes.drop (i * width)).take width

/-- `char::decode_utf16`, with U+FFFD for what is not paired. -/
def decodeUtf16 : List ℕ → Chars
  | [] => []
  | [unit] => if 0xD800 ≤ unit ∧ unit < 0xE000 then ['\uFFFD'] else [Char.ofNat unit]
  | unit :: next :: rest =>
    if 0xD800 ≤ unit ∧ unit < 0xDC00 then
      if 0xDC00 ≤ next ∧ next < 0xE000 then
        Char.ofNat (0x10000 + (unit - 0xD800) * 0x400 + (next - 0xDC00)) :: decodeUtf16 rest
      else '\uFFFD' :: decodeUtf16 (next :: rest)
    else if 0xDC00 ≤ unit ∧ unit < 0xE000 then '\uFFFD' :: decodeUtf16 (next :: rest)
    else Char.ofNat unit :: decodeUtf16 (next :: rest)

def ascii (bytes : List UInt8) (declared : ℕ) : Chars :=
  let text := (Text.fromUtf8Lossy (bytes.takeWhile (· ≠ 0))).toList
  let whole := if 0 ∉ bytes ∧ bytes.length < declared then declared else len (trim text)
  (capValueWithin text whole maxMetadataValueBytes).1

/-- The bytes after a mark of the byte order, and the order. -/
def byteOrderMark (endian : Endian) : List UInt8 → List UInt8 × Endian
  | 0xFF :: 0xFE :: rest => (rest, .little)
  | 0xFE :: 0xFF :: rest => (rest, .big)
  | bytes => (bytes, endian)

def wideText (raw : List UInt8) (order : Endian) (declared : ℕ) : Chars :=
  let readShort := raw.length < declared
  let (bytes, endian) := byteOrderMark order raw
  let units := (chunksExact 2 bytes).map endian.number
  let text := decodeUtf16 (units.takeWhile (· ≠ 0))
  let whole := if 0 ∉ units ∧ readShort then declared else len (trim text)
  (capValueWithin text whole maxMetadataValueBytes).1

/-- The text of a tag people write that is not stored as ASCII. -/
def writtenText (endian : Endian) (entry : Entry) : Option Chars :=
  if 0x9C9B ≤ entry.tag ∧ entry.tag ≤ 0x9C9F then
    some (wideText entry.value .little entry.declared)
  else if entry.tag = 0x9286 then
    if entry.value.length < 8 then none
    else
      let code := entry.value.take 8
      let text := entry.value.drop 8
      let declared := entry.declared - 8
      if code = "UNICODE\x00".toList.map Char.toUInt8 then some (wideText text endian declared)
      else if code = "ASCII\x00\x00\x00".toList.map Char.toUInt8 ∨ code = List.replicate 8 0 then
        some (ascii text declared)
      else none
  else none

/-- The marker of a list that is not shown whole. -/
def listMarker (total : ℕ) (noun : Chars) : Chars :=
  " … (".toList ++ decimal total ++ ' ' :: noun ++ [')']

/-- What is shown of the items from a place on, after what is shown already. -/
def listFrom (separator more : Chars) (total : ℕ) : ℕ → Chars → List Chars → Chars
  | place, out, [] => if place < total then out ++ more else out
  | place, out, item :: items =>
    let between := if place = 0 then 0 else len separator
    let reserve := if place + 1 < total then len more else 0
    if maxMetadataValueBytes < len out + between + len item + reserve then out ++ more
    else
      listFrom separator more total (place + 1)
        ((if 0 < between then out ++ separator else out) ++ item) items

def listedWith (items : List Chars) (declared : ℕ) (separator noun : Chars) : Chars :=
  let total := max declared items.length
  listFrom separator (listMarker total noun) total 0 [] items

def listed (items : List Chars) (total : ℕ) : Chars :=
  listedWith items total ", ".toList "values".toList

/-- A byte in hex. -/
def hexByte (b : UInt8) : Chars :=
  [Nat.digitChar (b.toNat / 16), Nat.digitChar (b.toNat % 16)]

def bytesHint (bytes : List UInt8) (declared : ℕ) : Chars :=
  listedWith (bytes.map hexByte) (max declared bytes.length) " ".toList "bytes".toList

def numbers (bytes : List UInt8) (width declared : ℕ) (read : List UInt8 → ℕ) : Chars :=
  listed ((chunksExact width bytes).map fun chunk ↦ decimal (read chunk)) declared

/-- An integer as it is written. -/
def printInt (n : ℤ) : Chars := if n < 0 then '-' :: decimal n.natAbs else decimal n.natAbs

/-- A number of four bytes as a signed one. -/
def castSigned (n : ℕ) : ℤ := if n < 2 ^ 31 then n else n - 2 ^ 32

def readRational (endian : Endian) (chunk : List UInt8) (signed : Bool) : ℤ × ℤ :=
  let num := endian.number (chunk.take 4)
  let den := endian.number (chunk.drop 4)
  if signed then (castSigned num, castSigned den) else (num, den)

/-- A fraction, or its whole number when it divides evenly. -/
def printRational (r : ℤ × ℤ) : Chars :=
  if r.2 = 0 then printInt r.1 ++ "/0".toList
  else if r.1.tmod r.2 = 0 then printInt (r.1.tdiv r.2)
  else printInt r.1 ++ '/' :: printInt r.2

def rationals (endian : Endian) (bytes : List UInt8) (signed : Bool) (declared : ℕ) : Chars :=
  listed ((chunksExact 8 bytes).map fun chunk ↦ printRational (readRational endian chunk signed))
    declared

def namedValue (endian : Endian) (entry : Entry) : Chars :=
  match writtenText endian entry with
  | some text => text
  | none =>
    match entry.typ with
    | 2 => ascii entry.value entry.declared
    | 3 => numbers entry.value 2 (entry.declared / 2) endian.number
    | 4 => numbers entry.value 4 (entry.declared / 4) endian.number
    | 5 => rationals endian entry.value false (entry.declared / 8)
    | 10 => rationals endian entry.value true (entry.declared / 8)
    | _ => bytesHint entry.value entry.declared

/-! ## Lists -/

variable {separator more noun : Chars} {total : ℕ}

theorem listMarker_measure (htotal : total < 2 ^ 64) (hnoun : len noun ≤ 10) :
    len (listMarker total noun) ≤ 38 := by
  have hopen : len " … (".toList = 6 := by decide
  have hclose : len [')'] = 1 := by decide
  have hblank : len (' ' :: noun) = 1 + len noun := Offsets.total_cons _ _
  have hdigits : (decimal total).length ≤ 20 :=
    (Nat.length_toDigits_le_iff (by decide) (by decide)).2 (htotal.trans (by decide))
  rw [listMarker, append_assoc, append_assoc, len_append, len_append, hopen,
    len_plain (decimal_plain _), len_append, hblank, hclose]
  omega

/-- The items that are shown after others. -/
theorem listFrom_eq (hseparator : 0 < len separator) (items : List Chars) {place : ℕ} {out : Chars}
    (hplace : 0 < place) (htotal : place + items.length ≤ total)
    (hout : len out + (if place < total then len more else 0) ≤ maxMetadataValueBytes) :
    ∃ shown, shown <+: items ∧ listFrom separator more total place out items =
        out ++ shown.flatMap (separator ++ ·) ++
          (if place + shown.length < total then more else []) ∧
      len (listFrom separator more total place out items) ≤ maxMetadataValueBytes := by
  induction items generalizing place out with
  | nil =>
    refine ⟨[], nil_prefix, ?_, ?_⟩
    · rw [listFrom, flatMap_nil, append_nil, length_nil, Nat.add_zero]
      split
      · rfl
      · rw [append_nil]
    · rw [listFrom]
      split
      · rename_i hlt
        rwa [if_pos hlt, ← len_append] at hout
      · rename_i hge
        rwa [if_neg hge] at hout
  | cons item items ih =>
    rw [length_cons] at htotal
    rw [listFrom, if_neg (Nat.pos_iff_ne_zero.1 hplace), if_pos hseparator]
    by_cases hroom : maxMetadataValueBytes < len out + len separator + len item +
        if place + 1 < total then len more else 0
    · -- There is no room for the item, so the marker closes the list.
      have hlt : place < total := by omega
      rw [if_pos hlt, ← len_append] at hout
      rw [if_pos hroom]
      refine ⟨[], nil_prefix, ?_, hout⟩
      rw [flatMap_nil, append_nil, length_nil, Nat.add_zero, if_pos hlt]
    · rw [if_neg hroom]
      have hnext : len (out ++ separator ++ item) + (if place + 1 < total then len more else 0) ≤
          maxMetadataValueBytes := by
        rw [len_append, len_append]
        exact Nat.not_lt.1 hroom
      obtain ⟨shown, hshown, htext, hlen⟩ := ih (Nat.succ_pos place) (by omega) hnext
      refine ⟨item :: shown, (prefix_cons_inj item).2 hshown, ?_, hlen⟩
      rw [htext, flatMap_cons, length_cons, Nat.succ_add_eq_add_succ]
      simp only [append_assoc]

/-- **A list is shown as whole items, and ends with how many there are exactly when it does not show
them all.** -/
theorem listedWith_eq (hseparator : 0 < len separator) (noun : Chars) (items : List Chars)
    (declared : ℕ)
    (hmarker : len (listMarker (max declared items.length) noun) ≤ maxMetadataValueBytes) :
    ∃ shown, shown <+: items ∧ listedWith items declared separator noun =
        separator.intercalate shown ++ (if shown.length < max declared items.length then
          listMarker (max declared items.length) noun else []) ∧
      len (listedWith items declared separator noun) ≤ maxMetadataValueBytes ∧
      (shown = [] → ∀ item ∈ items.head?, maxMetadataValueBytes <
        len item + len (listMarker (max declared items.length) noun)) := by
  rw [listedWith]
  generalize hall : max declared items.length = total at *
  have htotal : items.length ≤ total := hall ▸ le_max_right _ _
  rcases items with _ | ⟨item, items⟩
  · refine ⟨[], nil_prefix, ?_, ?_, fun _ _ hitem ↦ absurd hitem (by simp)⟩
    · rw [listFrom, nil_append]
      rfl
    · rw [listFrom]
      split
      · exact hmarker
      · exact Nat.zero_le _
  · rw [length_cons] at htotal
    rw [listFrom, if_pos rfl, if_neg (lt_irrefl 0), nil_append, Nat.add_zero]
    by_cases hroom : maxMetadataValueBytes < len [] + len item +
        if 0 + 1 < total then len (listMarker total noun) else 0
    · rw [if_pos hroom]
      refine ⟨[], nil_prefix, ?_, hmarker, fun _ first hfirst ↦ ?_⟩
      · rw [intercalate_nil, length_nil, if_pos (by omega), nil_append]
      · cases hfirst
        refine hroom.trans_le ?_
        have hnone : len ([] : Chars) = 0 := rfl
        rw [hnone, Nat.zero_add]
        split <;> omega
    · rw [if_neg hroom]
      have hnext : len item + (if 0 + 1 < total then len (listMarker total noun) else 0) ≤
          maxMetadataValueBytes := by
        have hnone : len ([] : Chars) = 0 := rfl
        rwa [hnone, Nat.zero_add, Nat.not_lt] at hroom
      obtain ⟨shown, hshown, htext, hlen⟩ := listFrom_eq hseparator items
        (show 0 < 0 + 1 by decide) (by omega) hnext
      refine ⟨item :: shown, (prefix_cons_inj item).2 hshown, ?_, hlen,
        fun hnil ↦ absurd hnil (cons_ne_nil _ _)⟩
      rw [nil_append, htext, Pieces.intercalate_cons_eq_append_flatMap, length_cons,
        Nat.zero_add, Nat.add_comm 1]

/-! ## Items -/

/-- A short text of printable characters without blanks. -/
structure IsItem (item : Chars) : Prop where
  ne_nil : item ≠ []
  len_le : len item ≤ 100
  plain : ∀ c ∈ item, 33 ≤ c.toNat ∧ c.toNat < 127

theorem isItem_of_plain {item : Chars} (hne : item ≠ []) (hlength : item.length ≤ 100)
    (hplain : ∀ c ∈ item, 33 ≤ c.toNat ∧ c.toNat < 127) : IsItem item where
  ne_nil := hne
  len_le := by
    rw [len_plain fun c hc ↦ ⟨by have := hplain c hc; omega, (hplain c hc).2⟩]
    exact hlength
  plain := hplain

theorem decimal_visible (n : ℕ) : ∀ c ∈ decimal n, 33 ≤ c.toNat ∧ c.toNat < 127 := by
  intro c hc
  have hdigit := decimal_range n c hc
  omega

theorem isItem_decimal {n : ℕ} (hn : n < 2 ^ 64) : IsItem (decimal n) := by
  have hlength : (decimal n).length ≤ 20 :=
    (Nat.length_toDigits_le_iff (by decide) (by decide)).2 (hn.trans (by decide))
  exact isItem_of_plain Nat.toDigits_ne_nil (by omega) (decimal_visible n)

theorem isItem_hexByte (b : UInt8) : IsItem (hexByte b) := by
  have hdigit : ∀ n < 16, 33 ≤ n.digitChar.toNat ∧ n.digitChar.toNat < 127 := by decide
  have hlt := b.toNat_lt
  refine isItem_of_plain (cons_ne_nil _ _) (by decide : 2 ≤ 100) ?_
  intro c hc
  rcases mem_pair.1 hc with rfl | rfl
  · exact hdigit _ (by omega)
  · exact hdigit _ (by omega)

theorem printInt_spec {n : ℤ} (hn : n.natAbs < 2 ^ 32) : printInt n ≠ [] ∧
    (printInt n).length ≤ 11 ∧ ∀ c ∈ printInt n, 33 ≤ c.toNat ∧ c.toNat < 127 := by
  have hlength : (decimal n.natAbs).length ≤ 10 :=
    (Nat.length_toDigits_le_iff (by decide) (by decide)).2 (hn.trans (by decide))
  rw [printInt]
  split
  · refine ⟨cons_ne_nil _ _, by rw [length_cons]; omega, ?_⟩
    exact forall_mem_cons.2 ⟨by decide, decimal_visible _⟩
  · exact ⟨Nat.toDigits_ne_nil, by omega, decimal_visible _⟩

theorem isItem_printRational {r : ℤ × ℤ} (hnum : r.1.natAbs < 2 ^ 32)
    (hden : r.2.natAbs < 2 ^ 32) : IsItem (printRational r) := by
  obtain ⟨hne, hlength, hplain⟩ := printInt_spec hnum
  obtain ⟨hne', hlength', hplain'⟩ := printInt_spec hden
  rw [printRational]
  split
  · refine isItem_of_plain (append_ne_nil_of_left_ne_nil hne _) ?_ ?_
    · have hzero : "/0".toList.length = 2 := by decide
      rw [length_append]
      omega
    · exact forall_mem_append.2 ⟨hplain, by simp⟩
  · split
    · have hquot : (r.1.tdiv r.2).natAbs < 2 ^ 32 := by
        rw [Int.natAbs_tdiv]
        exact (Nat.div_le_self _ _).trans_lt hnum
      obtain ⟨hne'', hlength'', hplain''⟩ := printInt_spec hquot
      exact isItem_of_plain hne'' (by omega) hplain''
    · refine isItem_of_plain (append_ne_nil_of_left_ne_nil hne _) ?_ ?_
      · rw [length_append, length_cons]
        omega
      · exact forall_mem_append.2 ⟨hplain, forall_mem_cons.2 ⟨by decide, hplain'⟩⟩

theorem Endian.number_lt (endian : Endian) (bytes : List UInt8) :
    endian.number bytes < 256 ^ bytes.length := by
  cases endian with
  | little =>
    rw [Endian.number]
    induction bytes with
    | nil => exact Nat.one_pos
    | cons b bytes ih =>
      have hlt := b.toNat_lt
      rw [foldr_cons, length_cons, Nat.pow_succ]
      omega
  | big =>
    rw [Endian.number]
    induction bytes using reverseRecOn with
    | nil => exact Nat.one_pos
    | append_singleton bytes b ih =>
      have hlt := b.toNat_lt
      rw [foldl_append, foldl_cons, foldl_nil, length_append,
        length_singleton, Nat.pow_succ]
      omega

theorem number_lt_of_length {endian : Endian} {bytes : List UInt8} {n : ℕ} (h : bytes.length ≤ n) :
    endian.number bytes < 256 ^ n :=
  (endian.number_lt bytes).trans_le (Nat.pow_le_pow_right (by decide) h)

theorem readRational_lt (endian : Endian) {chunk : List UInt8} (signed : Bool)
    (h : chunk.length ≤ 8) : (readRational endian chunk signed).1.natAbs < 2 ^ 32 ∧
      (readRational endian chunk signed).2.natAbs < 2 ^ 32 := by
  have hnum : endian.number (chunk.take 4) < 256 ^ 4 :=
    number_lt_of_length (by rw [length_take]; omega)
  have hden : endian.number (chunk.drop 4) < 256 ^ 4 :=
    number_lt_of_length (by rw [length_drop]; omega)
  have hsigned : ∀ n < 256 ^ 4, (castSigned n).natAbs < 2 ^ 32 := by
    intro n hn
    rw [castSigned]
    split <;> omega
  rw [readRational]
  cases signed with
  | true => exact ⟨hsigned _ hnum, hsigned _ hden⟩
  | false => exact ⟨by simpa using hnum, by simpa using hden⟩

theorem length_of_mem_chunksExact {width : ℕ} {bytes chunk : List UInt8}
    (h : chunk ∈ chunksExact width bytes) : chunk.length ≤ width := by
  obtain ⟨i, -, rfl⟩ := mem_map.1 h
  rw [length_take]
  exact Nat.min_le_left _ _

theorem length_chunksExact (width : ℕ) (bytes : List UInt8) :
    (chunksExact width bytes).length = bytes.length / width := by
  rw [chunksExact, length_map, length_range]

/-! ## The lists among the values -/

/-- A list as it is shown: its items, how many are declared, what is between them, and what they are
called. -/
structure Listing where
  items : List Chars
  count : ℕ
  separator : Chars
  noun : Chars

/-- The list of numbers, fractions or bytes that an entry is shown as, if it is no text. -/
def listingOf (endian : Endian) (entry : Entry) : Option Listing :=
  if (writtenText endian entry).isSome then none
  else
    match entry.typ with
    | 2 => none
    | 3 => some ⟨(chunksExact 2 entry.value).map fun chunk ↦ decimal (endian.number chunk),
        entry.declared / 2, ", ".toList, "values".toList⟩
    | 4 => some ⟨(chunksExact 4 entry.value).map fun chunk ↦ decimal (endian.number chunk),
        entry.declared / 4, ", ".toList, "values".toList⟩
    | 5 => some ⟨(chunksExact 8 entry.value).map
          fun chunk ↦ printRational (readRational endian chunk false),
        entry.declared / 8, ", ".toList, "values".toList⟩
    | 10 => some ⟨(chunksExact 8 entry.value).map
          fun chunk ↦ printRational (readRational endian chunk true),
        entry.declared / 8, ", ".toList, "values".toList⟩
    | _ => some ⟨entry.value.map hexByte, entry.declared, " ".toList, "bytes".toList⟩

/-- An entry whose value was read: as much of it as is declared, up to a bound. -/
structure Entry.Readable (entry : Entry) : Prop where
  length_eq : entry.value.length = min entry.declared maxExifValueBytes
  declared_lt : entry.declared < 2 ^ 64

/-- A list that is fit to be shown. -/
structure Listing.Fit (l : Listing) : Prop where
  items : ∀ item ∈ l.items, IsItem item
  length_le : l.items.length ≤ l.count
  ne_nil : 0 < l.count → l.items ≠ []
  count_lt : l.count < 2 ^ 64
  form : (l.separator = ", ".toList ∧ l.noun = "values".toList) ∨
    (l.separator = " ".toList ∧ l.noun = "bytes".toList)

variable {endian : Endian} {entry : Entry} {l : Listing}

theorem fit_chunks (h : entry.Readable) {width : ℕ} (hwidth : 0 < width) (hmax : width ≤ 8)
    {print : List UInt8 → Chars} (hprint : ∀ chunk, chunk.length ≤ width → IsItem (print chunk)) :
    Listing.Fit ⟨(chunksExact width entry.value).map print, entry.declared / width, ", ".toList,
      "values".toList⟩ where
  items := by
    intro item hitem
    obtain ⟨chunk, hchunk, rfl⟩ := mem_map.1 hitem
    exact hprint chunk (length_of_mem_chunksExact hchunk)
  length_le := by
    rw [length_map, length_chunksExact, h.length_eq]
    exact Nat.div_le_div_right (Nat.min_le_left _ _)
  ne_nil := by
    intro hcount hnil
    have hlength := congrArg length hnil
    rw [length_map, length_chunksExact, h.length_eq, length_nil] at hlength
    have hdeclared : width ≤ entry.declared := (Nat.div_pos_iff.1 hcount).2
    have hread : width ≤ min entry.declared maxExifValueBytes :=
      le_min hdeclared (hmax.trans (by decide))
    exact absurd hlength (Nat.pos_iff_ne_zero.1 (Nat.div_pos hread hwidth))
  count_lt := (Nat.div_le_self _ _).trans_lt h.declared_lt
  form := .inl ⟨rfl, rfl⟩

theorem fit_of_listingOf (h : entry.Readable) (hl : listingOf endian entry = some l) :
    l.Fit ∧ namedValue endian entry = listedWith l.items l.count l.separator l.noun := by
  have hnumber : ∀ width, width ≤ 8 → ∀ chunk : List UInt8, chunk.length ≤ width →
      IsItem (decimal (endian.number chunk)) := fun width hwidth chunk hchunk ↦
    isItem_decimal (number_lt_of_length (hchunk.trans hwidth))
  have hrational : ∀ signed, ∀ chunk : List UInt8, chunk.length ≤ 8 →
      IsItem (printRational (readRational endian chunk signed)) := fun signed chunk hchunk ↦
    isItem_printRational (readRational_lt endian signed hchunk).1
      (readRational_lt endian signed hchunk).2
  rw [listingOf] at hl
  split at hl
  · cases hl
  · rename_i hnone
    have htext : writtenText endian entry = none := Option.not_isSome_iff_eq_none.1 hnone
    rw [namedValue, htext]
    split at hl
    · cases hl
    · cases hl
      exact ⟨fit_chunks h (by decide) (by decide) (hnumber 2 (by decide)), rfl⟩
    · cases hl
      exact ⟨fit_chunks h (by decide) (by decide) (hnumber 4 (by decide)), rfl⟩
    · cases hl
      exact ⟨fit_chunks h (by decide) (by decide) (hrational false), rfl⟩
    · cases hl
      exact ⟨fit_chunks h (by decide) (by decide) (hrational true), rfl⟩
    · cases hl
      have hle : entry.value.length ≤ entry.declared := by
        rw [h.length_eq]
        exact Nat.min_le_left _ _
      refine ⟨{
        items := fun item hitem ↦ ?_
        length_le := ?_
        ne_nil := fun hcount hnil ↦ ?_
        count_lt := h.declared_lt
        form := .inr ⟨rfl, rfl⟩ }, ?_⟩
      · obtain ⟨b, -, rfl⟩ := mem_map.1 hitem
        exact isItem_hexByte b
      · rw [length_map]
        exact hle
      · have hvalue := map_eq_nil_iff.1 hnil
        have hlength := h.length_eq
        rw [hvalue, length_nil] at hlength
        have hpos : 0 < min entry.declared maxExifValueBytes := lt_min hcount (by decide)
        omega
      · change bytesHint entry.value entry.declared = _
        rw [bytesHint, Nat.max_eq_left hle]

/-! ## What is shown of a list -/

theorem renderedWidth_of_shown {s : Chars} (h : ∀ c ∈ s, isEscaped c = false) :
    renderedWidth s = len s := by
  refine congrArg sum (map_congr_left fun c hc ↦ ?_)
  rw [renderedLen, h c hc]
  rfl

theorem isEscaped_of_plain {c : Char} (h : 32 ≤ c.toNat ∧ c.toNat < 127) :
    isEscaped c = false := by
  simp [isEscaped, TextNorm.isControl]
  omega

theorem isEscaped_listMarker (hnoun : ∀ c ∈ noun, 32 ≤ c.toNat ∧ c.toNat < 127)
    (total : ℕ) : ∀ c ∈ listMarker total noun, isEscaped c = false := by
  have hopen : ∀ c ∈ " … (".toList, isEscaped c = false := fun c hc ↦ by
    simpa using all_eq_true.1 (by decide : (" … (".toList.all (!isEscaped ·)) = true) c hc
  rw [listMarker]
  refine forall_mem_append.2 ⟨forall_mem_append.2 ⟨forall_mem_append.2
    ⟨hopen, fun c hc ↦ isEscaped_of_plain (decimal_plain total c hc)⟩, ?_⟩,
    forall_mem_singleton.2 (by decide)⟩
  exact forall_mem_cons.2 ⟨by decide, fun c hc ↦ isEscaped_of_plain (hnoun c hc)⟩

/-- A text is whole items of a list, and after them how many are declared, exactly when they are not
all of them. -/
def Listing.Shows (l : Listing) (text : Chars) : Prop :=
  ∃ shown, shown <+: l.items ∧ text = l.separator.intercalate shown ++
    if shown.length < l.count then listMarker l.count l.noun else []

/-- **A list is shown as it is made**, for it fits and there is nothing to trim off it. -/
theorem Listing.Fit.shows (h : l.Fit) :
    l.Shows (capValue (listedWith l.items l.count l.separator l.noun)) := by
  have htotal : max l.count l.items.length = l.count := Nat.max_eq_left h.length_le
  have hseparator : 0 < len l.separator ∧ len l.noun ≤ 10 ∧
      (∀ c ∈ l.separator, 32 ≤ c.toNat ∧ c.toNat < 127) ∧
        ∀ c ∈ l.noun, 32 ≤ c.toNat ∧ c.toNat < 127 := by
    rcases h.form with ⟨hsep, hnoun⟩ | ⟨hsep, hnoun⟩
    · rw [hsep, hnoun]
      exact ⟨by decide, by decide, by simp, by simp⟩
    · rw [hsep, hnoun]
      exact ⟨by decide, by decide, by simp, by simp⟩
  obtain ⟨hsep, hnoun, hplain, hnounPlain⟩ := hseparator
  have hmarker := listMarker_measure h.count_lt hnoun
  obtain ⟨shown, hshown, htext, hlen, hempty⟩ := listedWith_eq hsep l.noun l.items l.count
    (by rw [htotal]; exact hmarker.trans (by decide))
  rw [htotal] at htext hempty
  refine ⟨shown, hshown, ?_⟩
  rw [← htext]
  have hitems : ∀ item ∈ shown, IsItem item := fun item hitem ↦
    h.items item (hshown.subset hitem)
  have hshowable : ∀ c ∈ listedWith l.items l.count l.separator l.noun, isEscaped c = false := by
    rw [htext]
    refine forall_mem_append.2 ⟨fun c hc ↦ ?_, ?_⟩
    · rcases Pieces.mem_of_mem_intercalate hc with hc | ⟨item, hitem, hc⟩
      · exact isEscaped_of_plain (hplain c hc)
      · have hrange := (hitems item hitem).plain c hc
        exact isEscaped_of_plain ⟨by omega, hrange.2⟩
    · split
      · exact isEscaped_listMarker hnounPlain _
      · exact nofun
  refine capValue_whole ?_ (renderedWidth_of_shown hshowable ▸ hlen)
  rcases shown with _ | ⟨first, shown⟩
  · -- Nothing is shown only of a list that has nothing.
    have hnone : l.items = [] := by
      by_contra hne
      obtain ⟨item, rest, hcons⟩ := exists_cons_of_ne_nil hne
      have hwide := hempty rfl item (by rw [hcons]; rfl)
      have hsmall := (h.items item (hcons ▸ (.head _))).len_le
      rw [maxMetadataValueBytes] at hwide
      omega
    have hcount : ¬ 0 < l.count := fun hcount ↦ h.ne_nil hcount hnone
    rw [htext, length_nil, if_neg hcount]
    rfl
  · have hwords : ∀ item ∈ first :: shown, item ≠ [] ∧ ∀ c ∈ item, Text.isWhitespace c = false := by
      intro item hitem
      refine ⟨(hitems item hitem).ne_nil, fun c hc ↦ ?_⟩
      have hrange := (hitems item hitem).plain c hc
      simp [Text.isWhitespace]
      omega
    have htrimmed := Pieces.trimmed_intercalate l.separator hwords
    obtain ⟨c, hc⟩ := exists_mem_of_ne_nil _ (hwords first (.head _)).1
    have hne : l.separator.intercalate (first :: shown) ≠ [] := ne_nil_of_mem
      (Pieces.mem_intercalate_of_mem l.separator (.head _) hc)
    rw [htext]
    split
    · refine Pieces.Trimmed.trim_eq (Pieces.Trimmed.append hne (cons_ne_nil ')' []) htrimmed
        (Pieces.Trimmed.of_all ?_) _)
      exact forall_mem_singleton.2 (by decide)
    · rw [append_nil]
      exact htrimmed.trim_eq

end Huntsman.Exif
