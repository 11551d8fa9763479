import Huntsman.Lib.Loop
import Huntsman.Lib.Utf8
import Huntsman.Text

/-!
# Character references

`escapeHtml` writes the five characters of markup as references, and `decodeReferences` reads
references back, by the rules of HTML or of XML.  It goes through a text once.  Where a reference
begins it takes the character that the reference stands for, and anywhere else the character that is
there.

A reference ends at a `;`.  The search for it stops at the first byte that no reference can hold
(`referenceEnd`); a search to the end of the text (`nextSemicolon`) would find more, but nothing
that is read as a reference (`decodeOneReference_search`).
-/

set_option autoImplicit false

namespace Huntsman.TextNorm

open List Option Utf8

/-- A slice that cuts a character, or a loop that is not left. -/
inductive Fault where
  | boundary
  | endless
deriving DecidableEq

abbrev Chars := List Char

/-- `str::len`. -/
def len (s : Chars) : ℕ := Offsets.total Char.utf8Size s

/-- `s.get(n..)` -/
def getFrom (s : Chars) (n : ℕ) : Option Chars := (Offsets.cut Char.utf8Size s n).map Prod.snd

/-- `&s[n..]` -/
def sliceFrom (s : Chars) (n : ℕ) : Except Fault Chars :=
  match Offsets.cut Char.utf8Size s n with
  | none => .error .boundary
  | some parts => .ok parts.2

/-- `&s[..n]` -/
def sliceTo (s : Chars) (n : ℕ) : Except Fault Chars :=
  match Offsets.cut Char.utf8Size s n with
  | none => .error .boundary
  | some parts => .ok parts.1

/-! ## Writing -/

def escapeChar (c : Char) : Chars :=
  match c with
  | '&' => ['&', 'a', 'm', 'p', ';']
  | '<' => ['&', 'l', 't', ';']
  | '>' => ['&', 'g', 't', ';']
  | '"' => ['&', 'q', 'u', 'o', 't', ';']
  | '\'' => ['&', '#', '3', '9', ';']
  | c => [c]

def escapeHtml (raw : String) : String := .ofList (raw.toList.flatMap escapeChar)

/-! ## Numbers -/

/-- The rules a reference is read by. -/
inductive Rules where
  | html
  | xml
deriving DecidableEq

/-- `char::to_digit`, of an ASCII character. -/
def toDigit (radix : ℕ) (b : UInt8) : Option ℕ :=
  let digit :=
    if 48 ≤ b ∧ b ≤ 57 then b.toNat - 48
    else if 97 ≤ b ∧ b ≤ 122 then b.toNat - 87
    else if 65 ≤ b ∧ b ≤ 90 then b.toNat - 55
    else radix
  if digit < radix then some digit else none

/-- One more digit, unless the number is past a `u32`. -/
def addDigit (radix value : ℕ) (b : UInt8) : Option ℕ := do
  let digit ← toDigit radix b
  let value := value * radix + digit
  if value < 2 ^ 32 then some value else none

/-- `u32::from_str_radix`, which takes a `+` before the digits. -/
def fromStrRadix (radix : ℕ) (s : List UInt8) : Option ℕ :=
  let digits := if s.head? = some 43 then s.tail else s
  if digits.isEmpty then none else digits.foldlM (addDigit radix) 0

/-- `char::from_u32`. -/
def charFromU32 (value : ℕ) : Option Char :=
  if value.isValidChar then some (Char.ofNat value) else none

def windows1252 : List Char :=
  ['€', '\u0081', '‚', 'ƒ', '„', '…', '†', '‡', 'ˆ', '‰', 'Š', '‹', 'Œ', '\u008d', 'Ž',
    '\u008f', '\u0090', '‘', '’', '“', '”', '•', '–', '—', '˜', '™', 'š', '›', 'œ', '\u009d',
    'ž', 'Ÿ']

def htmlNumericChar (value : ℕ) : Option Char :=
  if value = 0 then some '\uFFFD'
  else if 0x80 ≤ value ∧ value ≤ 0x9f then windows1252[value - 0x80]?
  else charFromU32 value

def isXmlChar (c : Char) : Bool :=
  c == '\t' || c == '\n' || c == '\r' || (0x20 ≤ c.toNat && c.toNat ≤ 0xd7ff) ||
    (0xe000 ≤ c.toNat && c.toNat ≤ 0xfffd) || (0x10000 ≤ c.toNat && c.toNat ≤ 0x10ffff)

/-- `u8::is_ascii_digit`, or `u8::is_ascii_hexdigit`. -/
def isDigit (hex : Bool) (b : UInt8) : Bool := (toDigit (if hex then 16 else 10) b).isSome

/-- The character a number names. -/
def numericChar (rules : Rules) (hex : Bool) (raw : Chars) : Option Char := do
  let html := rules = .html
  if raw.isEmpty then none
  else if ¬html ∧ ¬(Utf8.encode raw).all (isDigit hex) then none
  else do
    let value ← fromStrRadix (if hex then 16 else 10) (Utf8.encode raw)
    let ch ← if html then htmlNumericChar value else charFromU32 value
    if ¬html ∧ ¬isXmlChar ch then none else some ch

/-! ## References -/

/-- May a reference hold this byte? -/
def isReferenceByte (b : UInt8) : Bool :=
  (48 ≤ b && b ≤ 57) || (97 ≤ b && b ≤ 122) || (65 ≤ b && b ≤ 90) || b == 43

/-- Where the `;` is that ends a reference. -/
def referenceEnd : List UInt8 → Option ℕ
  | [] => none
  | b :: rest =>
    if b = 59 then some 0
    else if isReferenceByte b then (referenceEnd rest).map (· + 1)
    else none

/-- Where the next `;` is, whatever stands before it. -/
def nextSemicolon : List UInt8 → Option ℕ
  | [] => none
  | b :: rest => if b = 59 then some 0 else (nextSemicolon rest).map (· + 1)

def namedChar (rules : Rules) (name : Chars) : Option Char :=
  if name = ['a', 'm', 'p'] then some '&'
  else if name = ['l', 't'] then some '<'
  else if name = ['g', 't'] then some '>'
  else if name = ['q', 'u', 'o', 't'] then some '"'
  else if name = ['a', 'p', 'o', 's'] then some '\''
  else if name = ['n', 'b', 's', 'p'] ∧ rules = .html then some ' '
  else none

/-- The `x` of a number in hex, and the digits. -/
def hexPrefix (rules : Rules) (afterHash : Chars) : Bool × Chars :=
  match afterHash with
  | [] => (false, [])
  | c :: digits => if c = 'x' ∨ rules = .html ∧ c = 'X' then (true, digits) else (false, afterHash)

variable (search : List UInt8 → Option ℕ)

/-- What stands before the `;` that a search finds. -/
def cutAt (text : Chars) : Except Fault (Option Chars) :=
  match search (Utf8.encode text) with
  | none => .ok none
  | some stop => (sliceTo text stop).map some

/-- A number, its end looked for by `search`. -/
def decodeNumeric (rest : Chars) (rules : Rules) : Except Fault (Option (Char × ℕ)) :=
  match getFrom rest 2 with
  | none => .ok none
  | some afterHash => do
    let (hex, digits) := hexPrefix rules afterHash
    let raw ← cutAt search digits
    .ok (raw.bind fun raw ↦
      (numericChar rules hex raw).map fun ch ↦ (ch, 2 + hex.toNat + len raw + 1))

/-- The reference a text begins with, and the bytes it spans. -/
def decodeOneReference (rest : Chars) (rules : Rules) : Except Fault (Option (Char × ℕ)) :=
  if ['&', '#'].isPrefixOf rest then decodeNumeric search rest rules
  else
    match getFrom rest 1 with
    | none => .ok none
    | some afterAmp => do
      let name ← cutAt search afterAmp
      .ok (name.bind fun name ↦ (namedChar rules name).map fun ch ↦ (ch, 1 + len name + 1))

/-- The reference that is read here, if one is. -/
def decoded (rules : Rules) (text : Chars) : Except Fault (Option (Char × ℕ)) :=
  if (Utf8.encode text).head? = some 38 then decodeOneReference search text rules else .ok none

/-- One character of what a text says, and what is left of the text. -/
def decodeOne (rules : Rules) (first : Char) (rest : Chars) : Except Fault (Char × Chars) := do
  match ← decoded search rules (first :: rest) with
  | some (ch, consumed) => do
    let rest ← sliceFrom (first :: rest) consumed
    .ok (ch, rest)
  | none => do
    let rest ← sliceFrom (first :: rest) first.utf8Size
    .ok (first, rest)

/-- A pass over what is read so far and what is left. -/
def decodePass (rules : Rules) : Chars × Chars → Except Fault (Pass Chars (Chars × Chars))
  | (out, []) => .ok (.leave out)
  | (out, first :: rest) => do
    let (ch, rest) ← decodeOne search rules first rest
    .ok (.again (out ++ [ch], rest))

/-- What a text says, the ends of its references looked for by `search`. -/
def decodeReferencesBy (s : String) (rules : Rules) : Except Fault String :=
  (Loop.tryFor .endless (decodePass search rules) (s.toList.length + 1) ([], s.toList)).map String.ofList

def decodeReferences : String → Rules → Except Fault String := decodeReferencesBy referenceEnd

def decodeHtmlEntities (s : String) : Except Fault String := decodeReferences s .html

/-! ## Where a reference ends -/

variable {search} {bs : List UInt8} {n : ℕ}

theorem nextSemicolon_split (h : nextSemicolon bs = some n) :
    ∃ before after, bs = before ++ 59 :: after ∧ 59 ∉ before ∧ n = before.length := by
  induction bs generalizing n with
  | nil => exact absurd h (some_ne_none n).symm
  | cons b bs ih =>
    rw [nextSemicolon] at h
    split_ifs at h with hb
    · exact ⟨[], bs, by rw [hb, nil_append], not_mem_nil, (some.inj h).symm⟩
    · obtain ⟨m, hm, rfl⟩ := map_eq_some_iff.1 h
      obtain ⟨before, after, rfl, hbefore, rfl⟩ := ih hm
      exact ⟨b :: before, after, rfl, not_mem_cons_of_ne_of_not_mem (Ne.symm hb) hbefore, rfl⟩

/-- What the one search finds, the other finds. -/
theorem nextSemicolon_of_referenceEnd (h : referenceEnd bs = some n) : nextSemicolon bs = some n := by
  induction bs generalizing n with
  | nil => exact h
  | cons b bs ih =>
    rw [referenceEnd] at h
    rw [nextSemicolon]
    split_ifs at h ⊢
    · exact h
    · obtain ⟨m, hm, rfl⟩ := map_eq_some_iff.1 h
      rw [ih hm, map_some]

/-- What only the longer search finds has a byte before it that no reference can hold. -/
theorem exists_of_referenceEnd_none (h : referenceEnd bs = none) (hn : nextSemicolon bs = some n) :
    ∃ b ∈ bs.take n, isReferenceByte b = false := by
  induction bs generalizing n with
  | nil => exact absurd hn (some_ne_none n).symm
  | cons b bs ih =>
    rw [referenceEnd] at h
    rw [nextSemicolon] at hn
    split_ifs at h hn with hb hheld
    · obtain ⟨m, hm, rfl⟩ := map_eq_some_iff.1 hn
      obtain ⟨b', hb', hnot⟩ := ih (map_eq_none_iff.1 h) hm
      exact ⟨b', by rw [take_succ_cons]; exact .tail _ hb', hnot⟩
    · obtain ⟨m, hm, rfl⟩ := map_eq_some_iff.1 hn
      exact ⟨b, by rw [take_succ_cons]; exact (.head _), Bool.eq_false_iff.2 hheld⟩

variable {radix : ℕ} {b : UInt8} {rules : Rules} {ch : Char}

/-- **A `;` is where a character ends**, so that what stands before it can be cut off. -/
theorem sliceTo_of_nextSemicolon {text : Chars} (h : nextSemicolon (Utf8.encode text) = some n) :
    ∃ name behind, text = name ++ ';' :: behind ∧ sliceTo text n = .ok name ∧ n = len name ∧
      Utf8.encode name = (Utf8.encode text).take n := by
  obtain ⟨before, after, hbytes, hbefore, rfl⟩ := nextSemicolon_split h
  obtain ⟨name, behind, rfl, rfl⟩ :=
    encode_split (c := ';') (by decide) hbytes hbefore
  have hlen := length_encode name
  refine ⟨name, behind, rfl, ?_, hlen, ?_⟩
  · rw [sliceTo, hlen, Offsets.cut_append Char.utf8Size_pos]
  · rw [encode_append, take_left]

/-! ## What no reference can hold -/

theorem toDigit_isReferenceByte (h : toDigit radix b ≠ none) :
    isReferenceByte b = true := by
  simp only [isReferenceByte, Bool.or_eq_true, Bool.and_eq_true, decide_eq_true_eq]
  by_contra hnot
  obtain ⟨⟨⟨hnumber, hlower⟩, hupper⟩, -⟩ :
      ((¬(48 ≤ b ∧ b ≤ 57) ∧ ¬(97 ≤ b ∧ b ≤ 122)) ∧ ¬(65 ≤ b ∧ b ≤ 90)) ∧ ¬(b == 43) = true := by
    rwa [← not_or, ← not_or, ← not_or]
  refine h ?_
  rw [toDigit, if_neg hnumber, if_neg hlower, if_neg hupper]
  exact if_neg (Nat.lt_irrefl radix)

theorem foldlM_addDigit {value : ℕ} {digits : List UInt8}
    (h : digits.foldlM (addDigit radix) value ≠ none) : ∀ b ∈ digits, isReferenceByte b = true := by
  induction digits generalizing value with
  | nil => exact nofun
  | cons digit digits ih =>
    rw [foldlM_cons] at h
    rcases hdigit : toDigit radix digit with _ | d
    · rw [addDigit, hdigit] at h
      exact absurd rfl h
    · rcases hvalue : addDigit radix value digit with _ | value'
      · rw [hvalue] at h
        exact absurd rfl h
      · rw [hvalue] at h
        refine forall_mem_cons.2 ⟨toDigit_isReferenceByte (hdigit ▸ some_ne_none d), ?_⟩
        exact ih h

/-- A number that is read has no other bytes. -/
theorem fromStrRadix_isReferenceByte {s : List UInt8} (h : fromStrRadix radix s ≠ none) :
    ∀ b ∈ s, isReferenceByte b = true := by
  have hread (digits : List UInt8)
      (h : (if digits.isEmpty then none else digits.foldlM (addDigit radix) 0) ≠ none) :
      ∀ b ∈ digits, isReferenceByte b = true := by
    split_ifs at h
    · exact absurd rfl h
    · exact foldlM_addDigit h
  have hdigits := hread (if s.head? = some 43 then s.tail else s) h
  rcases s with _ | ⟨first, digits⟩
  · exact nofun
  · split_ifs at hdigits with hsign
    · obtain rfl : first = 43 := some.inj hsign
      exact forall_mem_cons.2 ⟨rfl, hdigits⟩
    · exact hdigits

theorem numericChar_none {hex : Bool} {raw : Chars}
    (hb : b ∈ Utf8.encode raw) (hnot : isReferenceByte b = false) :
    numericChar rules hex raw = none := by
  have hread : fromStrRadix (if hex then 16 else 10) (encode raw) = none := by
    by_contra h
    exact absurd (fromStrRadix_isReferenceByte h b hb) (hnot ▸ Bool.false_ne_true)
  rw [numericChar, hread]
  split_ifs <;> rfl

theorem namedChar_none {name : Chars} (hb : b ∈ Utf8.encode name)
    (hnot : isReferenceByte b = false) : namedChar rules name = none := by
  have hknown (known : Chars) (h : (encode known).all isReferenceByte = true) :
      name ≠ known := by
    rintro rfl
    exact absurd (all_eq_true.1 h b hb) (hnot ▸ Bool.false_ne_true)
  rw [namedChar, if_neg (hknown _ rfl), if_neg (hknown _ rfl), if_neg (hknown _ rfl),
    if_neg (hknown _ rfl), if_neg (hknown _ rfl), if_neg fun h ↦ hknown _ rfl h.1]

/-! ## Both searches -/

theorem cutAt_of_some {text : Chars} (h : nextSemicolon (Utf8.encode text) = some n) :
    ∃ name behind, text = name ++ ';' :: behind ∧ cutAt nextSemicolon text = .ok (some name) ∧
      Utf8.encode name = (Utf8.encode text).take n := by
  obtain ⟨name, behind, htext, hslice, -, hbytes⟩ := sliceTo_of_nextSemicolon h
  refine ⟨name, behind, htext, ?_, hbytes⟩
  rw [cutAt, h]
  exact congrArg (Except.map some) hslice

/-- A cut leaves what begins with the `;`. -/
theorem cutAt_ok (text : Chars) : ∃ name, cutAt nextSemicolon text = .ok name ∧
    ∀ raw, name = some raw → ∃ behind, text = raw ++ ';' :: behind := by
  rcases h : nextSemicolon (encode text) with _ | n
  · exact ⟨none, by rw [cutAt, h], fun raw hraw ↦ absurd hraw.symm (some_ne_none raw)⟩
  · obtain ⟨name, behind, rfl, hcut, -⟩ := cutAt_of_some h
    exact ⟨some name, hcut, fun raw hraw ↦ ⟨behind, by rw [some.inj hraw]⟩⟩

/-- **The search may stop early**, when what is cut off is only read as a reference. -/
theorem cutAt_search (text : Chars) {α : Type} {read : Chars → Option α}
    (hread : ∀ name b, b ∈ Utf8.encode name → isReferenceByte b = false → read name = none) :
    (cutAt referenceEnd text).map (·.bind read) = (cutAt nextSemicolon text).map (·.bind read) := by
  rcases hshort : referenceEnd (encode text) with _ | n
  · rcases hlong : nextSemicolon (encode text) with _ | n
    · rw [cutAt, cutAt, hshort, hlong]
    · obtain ⟨name, behind, -, hcut, hbytes⟩ := cutAt_of_some hlong
      obtain ⟨b, hb, hnot⟩ := exists_of_referenceEnd_none hshort hlong
      rw [hcut, cutAt, hshort]
      exact congrArg Except.ok (hread name b (hbytes ▸ hb) hnot).symm
  · rw [cutAt, cutAt, hshort, nextSemicolon_of_referenceEnd hshort]

theorem decodeNumeric_search (rest : Chars) (rules : Rules) :
    decodeNumeric referenceEnd rest rules = decodeNumeric nextSemicolon rest rules := by
  rw [decodeNumeric, decodeNumeric]
  rcases getFrom rest 2 with _ | afterHash
  · rfl
  · exact cutAt_search _ fun name b hb hnot ↦ by rw [numericChar_none hb hnot, map_none]

theorem decodeOneReference_search (rest : Chars) (rules : Rules) :
    decodeOneReference referenceEnd rest rules = decodeOneReference nextSemicolon rest rules := by
  rw [decodeOneReference, decodeOneReference, decodeNumeric_search]
  rcases getFrom rest 1 with _ | afterAmp
  · rfl
  · split_ifs
    · rfl
    · exact cutAt_search _ fun name b hb hnot ↦ by rw [namedChar_none hb hnot, map_none]

theorem decodePass_search (rules : Rules) :
    decodePass referenceEnd rules = decodePass nextSemicolon rules := by
  funext state
  rcases state with ⟨out, _ | ⟨first, rest⟩⟩
  · rfl
  · rw [decodePass, decodePass, decodeOne, decodeOne, decoded, decoded, decodeOneReference_search]

/-! ## A pass -/

theorem getFrom_append (front behind : Chars) : getFrom (front ++ behind) (len front) = some behind := by
  rw [getFrom, len, Offsets.cut_append Char.utf8Size_pos, map_some]

theorem sliceFrom_append (front behind : Chars) :
    sliceFrom (front ++ behind) (len front) = .ok behind := by
  rw [sliceFrom, len, Offsets.cut_append Char.utf8Size_pos]

theorem len_append (s t : Chars) : len (s ++ t) = len s + len t := Offsets.total_append s t

/-- What a reference that is read spans, the text begins with. -/
def Spans (text : Chars) (read : Option (Char × ℕ)) : Prop :=
  ∀ ch n, read = some (ch, n) → ∃ eaten left, text = eaten ++ left ∧ n = len eaten ∧ eaten ≠ []

/-- A reference is what stands before its name or number, that, and the `;`. -/
theorem spans_of_cut (before : Chars) (read : Chars → Option Char) {text : Chars}
    {name : Option Chars}
    (hname : ∀ raw, name = some raw → ∃ behind, text = raw ++ ';' :: behind) :
    Spans (before ++ text)
      (name.bind fun raw ↦ (read raw).map fun ch ↦ (ch, len before + len raw + 1)) := by
  intro ch n h
  obtain ⟨raw, hraw, hread⟩ := bind_eq_some_iff.1 h
  obtain ⟨behind, rfl⟩ := hname raw hraw
  obtain ⟨ch, -, hch⟩ := map_eq_some_iff.1 hread
  cases hch
  refine ⟨before ++ raw ++ [';'], behind, by simp, ?_, by simp⟩
  rw [len_append, len_append]
  rfl

theorem decodeNumeric_ok (rules : Rules) (afterHash : Chars) :
    ∃ read, decodeNumeric referenceEnd ('&' :: '#' :: afterHash) rules = .ok read ∧
      Spans ('&' :: '#' :: afterHash) read := by
  have hafter : getFrom ('&' :: '#' :: afterHash) 2 = some afterHash :=
    getFrom_append ['&', '#'] afterHash
  have hhex : ∃ before, afterHash = before ++ (hexPrefix rules afterHash).2 ∧
      len (['&', '#'] ++ before) = 2 + (hexPrefix rules afterHash).1.toNat := by
    rcases afterHash with _ | ⟨c, digits⟩
    · exact ⟨[], rfl, rfl⟩
    · rw [hexPrefix]
      split_ifs with hx
      · refine ⟨[c], rfl, ?_⟩
        rcases hx with rfl | ⟨-, rfl⟩ <;> rfl
      · exact ⟨[], rfl, rfl⟩
  obtain ⟨before, hsplit, hlen⟩ := hhex
  obtain ⟨raw, hcut, hraw⟩ := cutAt_ok (hexPrefix rules afterHash).2
  rw [decodeNumeric_search, decodeNumeric, hafter]
  simp only [hcut]
  refine ⟨_, rfl, ?_⟩
  rw [← hlen]
  have hspans := spans_of_cut (['&', '#'] ++ before)
    (numericChar rules (hexPrefix rules afterHash).1) hraw
  rwa [append_assoc, ← hsplit] at hspans

theorem decodeOneReference_ok (rules : Rules) (afterAmp : Chars) :
    ∃ read, decodeOneReference referenceEnd ('&' :: afterAmp) rules = .ok read ∧
      Spans ('&' :: afterAmp) read := by
  rw [decodeOneReference_search]
  by_cases hnumber : ['&', '#'].isPrefixOf ('&' :: afterAmp) = true
  · obtain ⟨afterHash, hsplit⟩ := isPrefixOf_iff_prefix.1 hnumber
    rw [decodeOneReference, if_pos hnumber, ← decodeNumeric_search, ← hsplit]
    exact decodeNumeric_ok rules afterHash
  · have hafter : getFrom ('&' :: afterAmp) 1 = some afterAmp := getFrom_append ['&'] afterAmp
    obtain ⟨name, hcut, hname⟩ := cutAt_ok afterAmp
    have hread : decodeOneReference nextSemicolon ('&' :: afterAmp) rules = .ok
        (name.bind fun name ↦ (namedChar rules name).map fun ch ↦ (ch, 1 + len name + 1)) := by
      rw [decodeOneReference, if_neg hnumber, hafter]
      simp only [hcut]
      rfl
    exact ⟨_, hread, spans_of_cut ['&'] (namedChar rules) hname⟩

/-- The byte of `&` is the character `&`. -/
theorem first_eq_amp {first : Char} {rest : Chars}
    (h : (Utf8.encode (first :: rest)).head? = some 38) : first = '&' := by
  rcases hbytes : String.utf8EncodeChar first with _ | ⟨b, bytes⟩
  · exact absurd hbytes String.utf8EncodeChar_ne_nil
  · rw [encode_cons, hbytes, cons_append, head?_cons, some_inj] at h
    subst h
    have hascii : first.toNat < 128 := ascii_of_mem (hbytes ▸ mem_cons_self) (by decide)
    rw [encode_ascii hascii] at hbytes
    exact (toUInt8_inj hascii (by decide)).1 (cons.inj hbytes).1

/-- **A pass takes whole characters**, at least one of them. -/
theorem decodeOne_ok (rules : Rules) (first : Char) (rest : Chars) :
    ∃ ch eaten left, decodeOne referenceEnd rules first rest = .ok (ch, left) ∧
      first :: rest = eaten ++ left ∧ eaten ≠ [] := by
  have hcopy : sliceFrom (first :: rest) first.utf8Size = .ok rest := sliceFrom_append [first] rest
  obtain ⟨read, hread, hspans⟩ : ∃ read, decoded referenceEnd rules (first :: rest) = .ok read ∧
      Spans (first :: rest) read := by
    rw [decoded]
    split_ifs with hamp
    · obtain rfl := first_eq_amp hamp
      exact decodeOneReference_ok rules rest
    · exact ⟨none, rfl, fun ch n h ↦ absurd h.symm (some_ne_none _)⟩
  rw [decodeOne, hread]
  rcases read with _ | ⟨ch, n⟩
  · refine ⟨first, [first], rest, ?_, rfl, cons_ne_nil _ _⟩
    exact congrArg (Except.bind · fun rest ↦ .ok (first, rest)) hcopy
  · obtain ⟨eaten, left, hsplit, rfl, hne⟩ := hspans ch n rfl
    refine ⟨ch, eaten, left, ?_, hsplit, hne⟩
    rw [hsplit]
    exact congrArg (Except.bind · fun rest ↦ .ok (ch, rest)) (sliceFrom_append eaten left)

/-! ## The loop -/

theorem decodePass_cons {first : Char} {rest left out : Chars}
    (h : decodeOne search rules first rest = .ok (ch, left)) :
    decodePass search rules (out, first :: rest) = .ok (.again (out ++ [ch], left)) := by
  rw [decodePass, h]
  rfl

/-- The text is gone through to its end. -/
theorem tryFor_decodePass (rules : Rules) {fuel : ℕ} (out : Chars) {rest : Chars}
    (h : rest.length < fuel) :
    ∃ out', Loop.tryFor .endless (decodePass referenceEnd rules) fuel (out, rest) = .ok out' := by
  induction fuel generalizing out rest with
  | zero => exact absurd h (Nat.not_lt_zero _)
  | succ fuel ih =>
    rcases rest with _ | ⟨first, rest⟩
    · exact ⟨out, Loop.tryFor_leave rfl⟩
    · obtain ⟨ch, eaten, left, hone, hsplit, hne⟩ := decodeOne_ok rules first rest
      have hlength := congrArg length hsplit
      rw [length_append] at hlength
      have hpos := length_pos_iff.2 hne
      rw [Loop.tryFor_again (decodePass_cons hone)]
      exact ih (out ++ [ch]) (by omega)

/-- **A search to the end of the text decodes the same.** -/
theorem decodeReferences_search (s : String) (rules : Rules) :
    decodeReferences s rules = decodeReferencesBy nextSemicolon s rules := by
  rw [decodeReferences, decodeReferencesBy, decodeReferencesBy, decodePass_search]

/-! ## What was written is read back -/

theorem referenceEnd_append {before after : List UInt8} (h : before.all isReferenceByte = true) :
    referenceEnd (before ++ 59 :: after) = some before.length := by
  induction before with
  | nil => rfl
  | cons b before ih =>
    rw [all_cons, Bool.and_eq_true] at h
    have hne : b ≠ 59 := by
      rintro rfl
      exact absurd h.1 (by decide)
    rw [cons_append, referenceEnd, if_neg hne, if_pos h.1, ih h.2, map_some,
      length_cons]

theorem cutAt_append (name : Chars) (h : (Utf8.encode name).all isReferenceByte = true)
    (behind : Chars) : cutAt referenceEnd (name ++ ';' :: behind) = .ok (some name) := by
  have hend : referenceEnd (encode (name ++ ';' :: behind)) = some (len name) := by
    rw [encode_append, encode_cons_ascii (by decide), len, ← length_encode]
    exact referenceEnd_append h
  rw [cutAt, hend]
  show (sliceTo _ (len name)).map some = _
  rw [sliceTo, len, Offsets.cut_append Char.utf8Size_pos]
  rfl

theorem decodeOne_reference {rest left : Chars} (eaten : Chars)
    (hsplit : '&' :: rest = eaten ++ left)
    (hread : decodeOneReference referenceEnd ('&' :: rest) rules = .ok (some (ch, len eaten))) :
    decodeOne referenceEnd rules '&' rest = .ok (ch, left) := by
  have hdecoded : decoded referenceEnd rules ('&' :: rest) = .ok (some (ch, len eaten)) := by
    rw [decoded, if_pos, hread]
    rw [encode_cons_ascii (by decide), head?_cons]
    rfl
  rw [decodeOne, hdecoded, hsplit]
  exact congrArg (Except.bind · fun rest ↦ .ok (ch, rest)) (sliceFrom_append eaten left)

theorem decodeOne_named (name : Chars)
    (h : (Utf8.encode name).all isReferenceByte = true) (hname : namedChar .html name = some ch)
    (rest : Chars) : decodeOne referenceEnd .html '&' (name ++ ';' :: rest) = .ok (ch, rest) := by
  have hhash : ¬['&', '#'].isPrefixOf ('&' :: (name ++ ';' :: rest)) = true := by
    intro hstart
    obtain ⟨more, hmore⟩ := isPrefixOf_iff_prefix.1 hstart
    have htail : '#' :: more = name ++ ';' :: rest := (cons.inj hmore).2
    rcases name with _ | ⟨c, name⟩
    · exact absurd (cons.inj htail).1 (by decide)
    · obtain rfl := (cons.inj htail).1
      rw [encode_cons_ascii (by decide), all_cons, Bool.and_eq_true] at h
      exact absurd h.1 (by decide)
  have hafter : getFrom ('&' :: (name ++ ';' :: rest)) 1 = some (name ++ ';' :: rest) :=
    getFrom_append ['&'] _
  refine decodeOne_reference (['&'] ++ name ++ [';']) (by simp) ?_
  rw [decodeOneReference, if_neg hhash, hafter]
  simp only [cutAt_append name h]
  show Except.ok ((namedChar .html name).map fun ch ↦ (ch, 1 + len name + 1)) = _
  rw [hname, len_append, len_append]
  rfl

theorem decodeOne_apostrophe (rest : Chars) :
    decodeOne referenceEnd .html '&' ('#' :: '3' :: '9' :: ';' :: rest) = .ok ('\'', rest) := by
  have hafter : getFrom ('&' :: '#' :: '3' :: '9' :: ';' :: rest) 2 = some ('3' :: '9' :: ';' :: rest) :=
    getFrom_append ['&', '#'] _
  have hcut : cutAt referenceEnd ('3' :: '9' :: ';' :: rest) = .ok (some ['3', '9']) :=
    cutAt_append ['3', '9'] (by decide) rest
  have hhex : hexPrefix .html ('3' :: '9' :: ';' :: rest) = (false, '3' :: '9' :: ';' :: rest) := by
    rw [hexPrefix, if_neg (by decide)]
  have hhash : ['&', '#'].isPrefixOf ('&' :: '#' :: '3' :: '9' :: ';' :: rest) = true := rfl
  have hchar : numericChar .html false ['3', '9'] = some '\'' := by decide
  refine decodeOne_reference ['&', '#', '3', '9', ';'] rfl ?_
  rw [decodeOneReference, if_pos hhash, decodeNumeric, hafter]
  simp only [hhex, hcut]
  show Except.ok ((numericChar .html false ['3', '9']).map
    fun ch ↦ (ch, 2 + false.toNat + len ['3', '9'] + 1)) = _
  rw [hchar]
  rfl

theorem decodeOne_escapeChar (c : Char) (rest : Chars) : ∃ first more,
    escapeChar c ++ rest = first :: more ∧ decodeOne referenceEnd .html first more = .ok (c, rest) := by
  unfold escapeChar
  split
  · exact ⟨_, _, rfl, decodeOne_named ['a', 'm', 'p'] (by decide) (by decide) rest⟩
  · exact ⟨_, _, rfl, decodeOne_named ['l', 't'] (by decide) (by decide) rest⟩
  · exact ⟨_, _, rfl, decodeOne_named ['g', 't'] (by decide) (by decide) rest⟩
  · exact ⟨_, _, rfl, decodeOne_named ['q', 'u', 'o', 't'] (by decide) (by decide) rest⟩
  · exact ⟨_, _, rfl, decodeOne_apostrophe rest⟩
  · rename_i hamp _ _ _ _
    have hcopy : sliceFrom (c :: rest) c.utf8Size = .ok rest := sliceFrom_append [c] rest
    have hdecoded : decoded referenceEnd .html (c :: rest) = .ok none :=
      if_neg fun h ↦ hamp (first_eq_amp h)
    refine ⟨c, rest, rfl, ?_⟩
    rw [decodeOne, hdecoded]
    exact congrArg (Except.bind · fun rest ↦ .ok (c, rest)) hcopy

theorem tryFor_escape {fuel : ℕ} {out s : Chars} (h : s.length < fuel) :
    Loop.tryFor .endless (decodePass referenceEnd .html) fuel (out, s.flatMap escapeChar)
      = .ok (out ++ s) := by
  induction s generalizing fuel out with
  | nil =>
    obtain ⟨fuel, rfl⟩ := Nat.exists_eq_succ_of_ne_zero h.ne'
    rw [append_nil]
    exact Loop.tryFor_leave rfl
  | cons c s ih =>
    obtain ⟨fuel, rfl⟩ := Nat.exists_eq_succ_of_ne_zero (Nat.zero_lt_of_lt h).ne'
    obtain ⟨first, more, hsplit, hone⟩ := decodeOne_escapeChar c (s.flatMap escapeChar)
    rw [flatMap_cons, hsplit, Loop.tryFor_again (decodePass_cons hone),
      ih (Nat.lt_of_succ_lt_succ h), append_assoc, singleton_append]

theorem length_le_escape (s : Chars) : s.length ≤ (s.flatMap escapeChar).length := by
  induction s with
  | nil => exact Nat.le_refl 0
  | cons c s ih =>
    have hpos : 1 ≤ (escapeChar c).length := by
      unfold escapeChar
      split <;> exact Nat.succ_le_succ (Nat.zero_le _)
    rw [flatMap_cons, length_append, length_cons]
    omega

theorem decodeHtmlEntities_escapeHtml (s : String) : decodeHtmlEntities (escapeHtml s) = .ok s := by
  rw [decodeHtmlEntities, decodeReferences, decodeReferencesBy, escapeHtml, String.toList_ofList,
    tryFor_escape (Nat.lt_succ_of_le (length_le_escape s.toList)), nil_append]
  exact congrArg Except.ok String.ofList_toList

/-! ## What the comments promise -/

/-- **Decoding undoes escaping**; stopping a search early changes nothing that is decoded; and each
pass takes at least one character, and whole ones, so that the text is gone through to its end. -/
theorem decode_references_correct :
    (∀ s, decodeHtmlEntities (escapeHtml s) = .ok s) ∧
    (∀ s rules, decodeReferences s rules = decodeReferencesBy nextSemicolon s rules ∧
      ∃ out, decodeReferences s rules = .ok out) ∧
    ∀ rules first rest, ∃ ch eaten left,
      decodeOne referenceEnd rules first rest = .ok (ch, left) ∧
        first :: rest = eaten ++ left ∧ eaten ≠ [] := by
  refine ⟨decodeHtmlEntities_escapeHtml, fun s rules ↦ ⟨decodeReferences_search s rules, ?_⟩,
    decodeOne_ok⟩
  obtain ⟨out, hout⟩ := tryFor_decodePass rules [] (Nat.lt_succ_self s.toList.length)
  exact ⟨String.ofList out, by rw [decodeReferences, decodeReferencesBy, hout]; rfl⟩

end Huntsman.TextNorm
