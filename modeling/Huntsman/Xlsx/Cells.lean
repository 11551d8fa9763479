import Huntsman.Lib.Scan
import Mathlib.Algebra.Ring.Nat

/-!
# The text of a cell

A value fills one cell, or several where it is longer than a cell holds (`pieces`).  `cellText` is
the text of a piece as the sheet's XML has it: markup as references, a character XML cannot carry
as an escape, and text that is shaped like an escape protected.  `decode` is how a spreadsheet
reads such a text.

`cellText` decides what to protect by the text of the piece, while the reader sees the text that
`cellText` writes.  Places where an escape that is written closes the shape of one are `Spoils`, and
a piece is read back as it was if and only if it has none of them (`decode_cellText_iff`).
-/

set_option autoImplicit false

namespace Huntsman.Xlsx

open List

/-- A `str`, by its characters. -/
abbrev Str := List Char

/-- The most characters, in UTF-16 units, that one cell holds. -/
def maxCellUnits : ℕ := 32767

/-- `char::len_utf16`. -/
def lenUtf16 (c : Char) : ℕ := if c.toNat < 0x10000 then 1 else 2

/-- How many UTF-16 units a text is. -/
def units (s : Str) : ℕ := (s.map lenUtf16).sum

/-- The loop of `pieces`, with the piece it is in, last character first, and the piece's units. -/
def piecesAux : Str → ℕ → Str → List Str
  | piece, _, [] => [piece.reverse]
  | piece, n, c :: rest =>
    if maxCellUnits < n + lenUtf16 c then piece.reverse :: piecesAux [c] (lenUtf16 c) rest
    else piecesAux (c :: piece) (n + lenUtf16 c) rest

/-- A value as the cells it fills. -/
def pieces (value : Str) : List Str := piecesAux [] 0 value

/-- `u8::is_ascii_hexdigit`. -/
def isHexDigit (c : Char) : Bool :=
  c.isDigit || ('a' ≤ c && c ≤ 'f') || ('A' ≤ c && c ≤ 'F')

/-- Whether a text that begins with `_` begins with what Excel would decode as an escape.  The
source looks at bytes; all of those it asks for are characters of their own. -/
def looksEscaped : Str → Bool
  | _ :: 'x' :: h₁ :: h₂ :: h₃ :: h₄ :: '_' :: _ =>
    isHexDigit h₁ && isHexDigit h₂ && isHexDigit h₃ && isHexDigit h₄
  | _ => false

/-- The hexadecimal digit for a number below 16, as `{:X}` writes it. -/
def hexDigit (n : ℕ) : Char := Char.ofNat (if n < 10 then 48 + n else 55 + n)

/-- A number below 65536 as `{:04X}` writes it. -/
def hex (n : ℕ) : Str :=
  [hexDigit (n / 4096), hexDigit (n / 256 % 16), hexDigit (n / 16 % 16), hexDigit (n % 16)]

/-- The characters XML 1.0 cannot carry, and carriage return.  Tab and newline stay. -/
def isUnwritable (c : Char) : Bool :=
  (c ≠ '\t' && c ≠ '\n') && (c < ' ' || c.toNat = 0xFFFE || c.toNat = 0xFFFF)

/-- What `cell_text` writes for the first character of a text, before markup is looked at. -/
def escaped (c : Char) (rest : Str) : Str :=
  if c = '_' ∧ looksEscaped (c :: rest) then ['_', 'x', '0', '0', '5', 'F', '_']
  else if isUnwritable c then '_' :: 'x' :: hex c.toNat ++ ['_']
  else [c]

/-- The references for the characters of markup. -/
def reference (c : Char) : Str :=
  if c = '&' then ['&', 'a', 'm', 'p', ';']
  else if c = '<' then ['&', 'l', 't', ';']
  else if c = '>' then ['&', 'g', 't', ';']
  else [c]

/-- Cell text as XML. -/
def cellText : Str → Str
  | [] => []
  | c :: rest =>
    (if c = '&' ∨ c = '<' ∨ c = '>' then reference c else escaped c rest) ++ cellText rest

/-! ## The reader -/

/-- `char::to_digit(16)` of a digit. -/
def hexValue (c : Char) : ℕ :=
  if c.isDigit then c.toNat - 48 else if 'a' ≤ c then c.toNat - 87 else c.toNat - 55

/-- `char::from_u32` of the four digits of an escape. -/
def ofHex (h₁ h₂ h₃ h₄ : Char) : Option Char :=
  let n := 4096 * hexValue h₁ + 256 * hexValue h₂ + 16 * hexValue h₃ + hexValue h₄
  if n.isValidChar then some (Char.ofNat n) else none

/-- The character that an escape names, behind its `_`. -/
def named : Str → Option Char
  | _ :: h₁ :: h₂ :: h₃ :: h₄ :: _ => ofHex h₁ h₂ h₃ h₄
  | _ => none

/-- The escapes of a text decoded from left to right, where the first characters are still part of
an escape.  There is no text where an escape names no character. -/
def decodeEscapesAux : ℕ → Str → Option Str
  | _, [] => some []
  | skip + 1, _ :: rest => decodeEscapesAux skip rest
  | 0, c :: rest =>
    if c = '_' ∧ looksEscaped (c :: rest) then
      (named rest).bind fun d ↦ (decodeEscapesAux 6 rest).map (d :: ·)
    else (decodeEscapesAux 0 rest).map (c :: ·)

def decodeEscapes (s : Str) : Option Str := decodeEscapesAux 0 s

/-- The three references for markup decoded. -/
def unreference (s : Str) : Str :=
  Scan.replace ['&', 'a', 'm', 'p', ';'] ['&']
    (Scan.replace ['&', 'g', 't', ';'] ['>'] (Scan.replace ['&', 'l', 't', ';'] ['<'] s))

/-- Cell text as a spreadsheet reads it: the three references, then the escapes. -/
def decode (s : Str) : Option Str := decodeEscapes (unreference s)

/-! ## Where an escape is read that was not written -/

/-- A text that begins with the beginning of an escape up to its last character, and goes on with a
character that is written as an escape. -/
def spoils : Str → Bool
  | '_' :: 'x' :: h₁ :: h₂ :: h₃ :: h₄ :: c :: _ =>
    (isHexDigit h₁ && isHexDigit h₂ && isHexDigit h₃ && isHexDigit h₄) && isUnwritable c
  | _ => false

/-- No part of the text spoils how it is read. -/
def Unspoiled (s : Str) : Prop := ∀ t ∈ s.tails, spoils t = false

instance (s : Str) : Decidable (Unspoiled s) := inferInstanceAs (Decidable (∀ t ∈ _, _))

example : decode (cellText "_x0041_\u0007 <b>".toList) = some "_x0041_\u0007 <b>".toList := by
  decide +kernel

/-! ## Markup -/

/-- A text with its escapes, before markup is looked at. -/
def escapes : Str → Str
  | [] => []
  | c :: rest => escaped c rest ++ escapes rest

variable {c : Char} {n : ℕ} {s : Str}

theorem escaped_of_plain {rest : Str} (hc : ¬(c = '_' ∧ looksEscaped (c :: rest)))
    (hwritable : isUnwritable c = false) : escaped c rest = [c] := by
  rw [escaped, if_neg hc, if_neg (by rw [hwritable]; exact Bool.false_ne_true)]

theorem escaped_of_unwritable {rest : Str} (h : isUnwritable c = true) :
    escaped c rest = '_' :: 'x' :: hex c.toNat ++ ['_'] := by
  have hc : c ≠ '_' := by
    rintro rfl
    exact absurd h (by decide)
  rw [escaped, if_neg fun hshape ↦ hc hshape.1, if_pos h]

theorem hexDigit_plain : ∀ n < 16, isHexDigit (hexDigit n) = true ∧ hexValue (hexDigit n) = n ∧
    hexDigit n ≠ '_' ∧ reference (hexDigit n) = [hexDigit n] := by
  decide

theorem mem_hex (h : n < 65536) {d : Char} (hd : d ∈ hex n) :
    ∃ m < 16, d = hexDigit m := by
  simp only [hex, mem_cons, not_mem_nil, or_false] at hd
  rcases hd with rfl | rfl | rfl | rfl
  · exact ⟨_, by omega, rfl⟩
  · exact ⟨_, Nat.mod_lt _ (by decide), rfl⟩
  · exact ⟨_, Nat.mod_lt _ (by decide), rfl⟩
  · exact ⟨_, Nat.mod_lt _ (by decide), rfl⟩

theorem toNat_lt_of_unwritable (h : isUnwritable c = true) : c.toNat < 65536 := by
  rw [isUnwritable, Bool.and_eq_true] at h
  have hlast := h.2
  rw [Bool.or_eq_true, Bool.or_eq_true, decide_eq_true_eq, decide_eq_true_eq,
    decide_eq_true_eq] at hlast
  rcases hlast with (hlow | hend) | hend
  · have hval : c.toNat < ' '.toNat := hlow
    exact hval.trans (by decide)
  · omega
  · omega

theorem flatMap_reference_of_plain (h : ∀ c ∈ s, reference c = [c]) :
    s.flatMap reference = s := by
  rw [flatMap_congr h]
  exact flatMap_singleton' s

theorem flatMap_reference_escaped (hc : ¬(c = '&' ∨ c = '<' ∨ c = '>')) (rest : Str) :
    (escaped c rest).flatMap reference = escaped c rest := by
  apply flatMap_reference_of_plain
  intro d hd
  rw [escaped] at hd
  split at hd
  · have hplain : ['_', 'x', '0', '0', '5', 'F', '_'].Forall fun d ↦ reference d = [d] := by decide
    exact forall_iff_forall_mem.mp hplain d hd
  · split at hd
    · rename_i hwritten
      rw [cons_append, cons_append, mem_cons, mem_cons, mem_append,
        mem_singleton] at hd
      rcases hd with rfl | rfl | hd | rfl
      · rfl
      · rfl
      · obtain ⟨n, hn, rfl⟩ := mem_hex (toNat_lt_of_unwritable hwritten) hd
        exact (hexDigit_plain n hn).2.2.2
      · rfl
    · rw [mem_singleton] at hd
      rw [hd, reference]
      simp only [not_or] at hc
      rw [if_neg hc.1, if_neg hc.2.1, if_neg hc.2.2]

/-- Cell text is the text with its escapes, with references for its markup. -/
theorem cellText_eq (s : Str) : cellText s = (escapes s).flatMap reference := by
  induction s with
  | nil => rfl
  | cons c rest ih =>
    rw [cellText, escapes, flatMap_append, ih]
    congr 1
    split
    · rename_i hmarkup
      have hplain : escaped c rest = [c] := by
        refine escaped_of_plain (fun hshape ↦ ?_) ?_
        · rw [hshape.1] at hmarkup
          simp at hmarkup
        · rcases hmarkup with rfl | rfl | rfl <;> rfl
      rw [hplain, flatMap_singleton]
    · rename_i hmarkup
      exact (flatMap_reference_escaped hmarkup rest).symm

/-- A character that is written as it is begins no reference. -/
theorem clear_singleton (h : c ≠ '&') (w : Str) : Scan.Clear ('&' :: w) [c] :=
  Scan.Clear.of_not_mem (fun hmem ↦ h (mem_singleton.1 hmem).symm) w

/-- The three references give the text back. -/
theorem unreference_flatMap (s : Str) : unreference (s.flatMap reference) = s := by
  let noLess : Char → Str := fun c ↦ if c = '<' then ['<'] else reference c
  let onlyAmpersand : Char → Str := fun c ↦ if c = '&' then reference c else [c]
  have hlt : Scan.replace ['&', 'l', 't', ';'] ['<'] (s.flatMap reference) =
      s.flatMap noLess := by
    refine Scan.replace_flatMap (by decide) (fun c ↦ ?_) _
    by_cases hless : c = '<'
    · subst hless
      exact .inl ⟨rfl, rfl⟩
    · refine .inr ⟨?_, if_neg hless⟩
      rw [reference, if_neg hless]
      split_ifs with hamp hgt
      · decide
      · decide
      · exact clear_singleton hamp _
  have hgt : Scan.replace ['&', 'g', 't', ';'] ['>'] (s.flatMap noLess) =
      s.flatMap onlyAmpersand := by
    refine Scan.replace_flatMap (by decide) (fun c ↦ ?_) _
    simp only [noLess, onlyAmpersand]
    by_cases hamp : c = '&'
    · subst hamp
      exact .inr ⟨by decide, rfl⟩
    · by_cases hmore : c = '>'
      · subst hmore
        exact .inl ⟨rfl, rfl⟩
      · have hplain : (if c = '<' then ['<'] else reference c) = [c] := by
          rw [reference, if_neg hamp, if_neg hmore]
          split_ifs with hless
          · rw [hless]
          · rfl
        rw [hplain, if_neg hamp]
        exact .inr ⟨clear_singleton hamp _, rfl⟩
  have hamp : Scan.replace ['&', 'a', 'm', 'p', ';'] ['&'] (s.flatMap onlyAmpersand) =
      s.flatMap fun c ↦ [c] := by
    refine Scan.replace_flatMap (by decide) (fun c ↦ ?_) _
    simp only [onlyAmpersand]
    by_cases hamp : c = '&'
    · subst hamp
      exact .inl ⟨rfl, rfl⟩
    · rw [if_neg hamp]
      exact .inr ⟨clear_singleton hamp _, rfl⟩
  rw [unreference, hlt, hgt, hamp, flatMap_singleton']

theorem decode_eq (s : Str) : decode (cellText s) = decodeEscapes (escapes s) := by
  rw [decode, cellText_eq, unreference_flatMap]

/-! ## Escapes -/

/-- Four hexadecimal digits. -/
def areHex (h₁ h₂ h₃ h₄ : Char) : Bool :=
  isHexDigit h₁ && isHexDigit h₂ && isHexDigit h₃ && isHexDigit h₄

theorem looksEscaped_iff : looksEscaped (c :: s) = true ↔
    ∃ h₁ h₂ h₃ h₄ rest, s = 'x' :: h₁ :: h₂ :: h₃ :: h₄ :: '_' :: rest ∧
      areHex h₁ h₂ h₃ h₄ = true := by
  constructor
  · intro h
    unfold looksEscaped at h
    split at h
    · rename_i heq
      exact ⟨_, _, _, _, _, (cons.inj heq).2, h⟩
    · cases h
  · rintro ⟨h₁, h₂, h₃, h₄, rest, rfl, h⟩
    exact h

theorem spoils_iff : spoils s = true ↔
    ∃ h₁ h₂ h₃ h₄ c rest, s = '_' :: 'x' :: h₁ :: h₂ :: h₃ :: h₄ :: c :: rest ∧
      areHex h₁ h₂ h₃ h₄ = true ∧ isUnwritable c = true := by
  constructor
  · intro h
    unfold spoils at h
    split at h
    · exact ⟨_, _, _, _, _, _, rfl, (Bool.and_eq_true _ _).mp h⟩
    · cases h
  · rintro ⟨h₁, h₂, h₃, h₄, c, rest, rfl, h, hc⟩
    exact (Bool.and_eq_true _ _).mpr ⟨h, hc⟩

theorem decodeEscapes_escape {h₁ h₂ h₃ h₄ : Char} (h : areHex h₁ h₂ h₃ h₄ = true) (rest : Str) :
    decodeEscapes ('_' :: 'x' :: h₁ :: h₂ :: h₃ :: h₄ :: '_' :: rest) =
      (ofHex h₁ h₂ h₃ h₄).bind fun d ↦ (decodeEscapes rest).map (d :: ·) := by
  rw [decodeEscapes, decodeEscapesAux, if_pos ⟨rfl, h⟩]
  rfl

theorem decodeEscapes_plain (h : ¬(c = '_' ∧ looksEscaped (c :: s) = true)) :
    decodeEscapes (c :: s) = (decodeEscapes s).map (c :: ·) := by
  rw [decodeEscapes, decodeEscapesAux, if_neg h]
  rfl

/-- What begins with a character other than `_` was not written as an escape. -/
theorem escapes_eq_cons {t : Str} (h : escapes s = c :: t) (hc : c ≠ '_') :
    ∃ rest, s = c :: rest ∧ escapes rest = t := by
  rcases s with _ | ⟨a, rest⟩
  · exact absurd h.symm (cons_ne_nil c t)
  · rw [escapes, escaped] at h
    split_ifs at h
    · exact absurd (cons.inj h).1.symm hc
    · exact absurd (cons.inj h).1.symm hc
    · cases h
      exact ⟨rest, rfl, rfl⟩

/-- What is shaped like an escape only as it is written spoils how it is read. -/
theorem spoils_of_looksEscaped {rest : Str} (hraw : ¬ looksEscaped ('_' :: rest) = true)
    (h : looksEscaped ('_' :: escapes rest) = true) : spoils ('_' :: rest) = true := by
  obtain ⟨h₁, h₂, h₃, h₄, more, hmore, hhex⟩ := looksEscaped_iff.1 h
  have hdigits := hhex
  simp only [areHex, Bool.and_eq_true] at hdigits
  have hplain : ∀ d, isHexDigit d = true → d ≠ '_' := by
    rintro d hd rfl
    exact absurd hd (by decide)
  -- up to the last character the text is written as it is
  obtain ⟨s₁, rfl, hs₁⟩ := escapes_eq_cons hmore (by decide)
  obtain ⟨s₂, rfl, hs₂⟩ := escapes_eq_cons hs₁ (hplain _ hdigits.1.1.1)
  obtain ⟨s₃, rfl, hs₃⟩ := escapes_eq_cons hs₂ (hplain _ hdigits.1.1.2)
  obtain ⟨s₄, rfl, hs₄⟩ := escapes_eq_cons hs₃ (hplain _ hdigits.1.2)
  obtain ⟨s₅, rfl, hs₅⟩ := escapes_eq_cons hs₄ (hplain _ hdigits.2)
  rcases s₅ with _ | ⟨c, s₅⟩
  · exact absurd hs₅.symm (cons_ne_nil '_' more)
  · by_cases hunwritable : isUnwritable c = true
    · exact spoils_iff.2 ⟨h₁, h₂, h₃, h₄, c, s₅, rfl, hhex, hunwritable⟩
    · refine absurd (looksEscaped_iff.2 ⟨h₁, h₂, h₃, h₄, s₅, ?_, hhex⟩) hraw
      have hc : c = '_' := by
        rw [escapes, escaped] at hs₅
        split_ifs at hs₅ with hshape
        · exact hshape.1
        · exact (cons.inj hs₅).1
      rw [hc]

theorem ofHex_hex (h : n < 65536) :
    ofHex (hexDigit (n / 4096)) (hexDigit (n / 256 % 16)) (hexDigit (n / 16 % 16))
      (hexDigit (n % 16)) = if n.isValidChar then some (Char.ofNat n) else none := by
  have hvalue : ∀ m < 16, hexValue (hexDigit m) = m := fun m hm ↦ (hexDigit_plain m hm).2.1
  have hsum : 4096 * (n / 4096) + 256 * (n / 256 % 16) + 16 * (n / 16 % 16) + n % 16 = n := by
    omega
  rw [ofHex]
  simp only [hvalue (n / 4096) (by omega), hvalue (n / 256 % 16) (Nat.mod_lt _ (by decide)),
    hvalue (n / 16 % 16) (Nat.mod_lt _ (by decide)), hvalue (n % 16) (Nat.mod_lt _ (by decide)),
    hsum]

theorem areHex_hex (h : n < 65536) :
    areHex (hexDigit (n / 4096)) (hexDigit (n / 256 % 16)) (hexDigit (n / 16 % 16))
      (hexDigit (n % 16)) = true := by
  have hdigit : ∀ m < 16, isHexDigit (hexDigit m) = true := fun m hm ↦ (hexDigit_plain m hm).1
  rw [areHex, hdigit (n / 4096) (by omega), hdigit (n / 256 % 16) (Nat.mod_lt _ (by decide)),
    hdigit (n / 16 % 16) (Nat.mod_lt _ (by decide)), hdigit (n % 16) (Nat.mod_lt _ (by decide))]
  rfl

/-- An escape that was written is read as the character it was written for. -/
theorem ofHex_unwritable (h : isUnwritable c = true) :
    ofHex (hexDigit (c.toNat / 4096)) (hexDigit (c.toNat / 256 % 16))
      (hexDigit (c.toNat / 16 % 16)) (hexDigit (c.toNat % 16)) = some c := by
  have hvalid : c.toNat.isValidChar := c.valid
  rw [ofHex_hex (toNat_lt_of_unwritable h), if_pos hvalid, Char.ofNat_toNat]

theorem decodeEscapes_hex (h : isUnwritable c = true) (rest : Str) :
    decodeEscapes ('_' :: 'x' :: hex c.toNat ++ ['_'] ++ rest) =
      (decodeEscapes rest).map (c :: ·) := by
  have hread := decodeEscapes_escape (areHex_hex (toNat_lt_of_unwritable h)) rest
  rw [ofHex_unwritable h, Option.bind_some] at hread
  exact hread

/-- **A character is read back where nothing is spoiled.** -/
theorem decodeEscapes_escapes_cons {rest : Str} (h : ¬ spoils (c :: rest) = true) :
    decodeEscapes (escapes (c :: rest)) = (decodeEscapes (escapes rest)).map (c :: ·) := by
  rw [escapes]
  by_cases hshape : c = '_' ∧ looksEscaped (c :: rest) = true
  · rw [escaped, if_pos hshape, hshape.1]
    exact decodeEscapes_escape (by decide) (escapes rest)
  · by_cases hunwritable : isUnwritable c = true
    · rw [escaped_of_unwritable hunwritable, decodeEscapes_hex hunwritable]
    · rw [escaped_of_plain hshape (Bool.eq_false_iff.2 hunwritable)]
      refine decodeEscapes_plain ?_
      rintro ⟨rfl, hwritten⟩
      exact h (spoils_of_looksEscaped (fun hraw ↦ hshape ⟨rfl, hraw⟩) hwritten)

theorem escapes_cons_plain (h : c ≠ '_') (hwritable : isUnwritable c = false)
    (rest : Str) : escapes (c :: rest) = c :: escapes rest := by
  rw [escapes, escaped_of_plain (fun hshape ↦ h hshape.1) hwritable]
  rfl

/-- A hexadecimal digit is written as it is. -/
theorem escapes_cons_hex {d : Char} (h : isHexDigit d = true) (rest : Str) :
    escapes (d :: rest) = d :: escapes rest := by
  refine escapes_cons_plain ?_ ?_ rest
  · rintro rfl
    exact absurd h (by decide)
  · rw [isHexDigit, Bool.or_eq_true, Bool.or_eq_true, Bool.and_eq_true, Bool.and_eq_true,
      decide_eq_true_eq, decide_eq_true_eq, decide_eq_true_eq, decide_eq_true_eq, Char.isDigit,
      Bool.and_eq_true, decide_eq_true_eq, decide_eq_true_eq] at h
    have hrange : 48 ≤ d.toNat ∧ d.toNat ≤ 102 := by
      rcases h with (h | h) | h
      · exact ⟨h.1, le_trans (show d.toNat ≤ 57 from h.2) (by decide)⟩
      · exact ⟨le_trans (by decide) (show 97 ≤ d.toNat from h.1), h.2⟩
      · exact ⟨le_trans (by decide) (show 65 ≤ d.toNat from h.1),
          le_trans (show d.toNat ≤ 70 from h.2) (by decide)⟩
    rw [isUnwritable, Bool.and_eq_false_iff]
    right
    have hlow : ¬ d < ' ' := fun hlt ↦ by
      have : d.toNat < 32 := hlt
      omega
    rw [Bool.or_eq_false_iff, Bool.or_eq_false_iff, decide_eq_false_iff_not,
      decide_eq_false_iff_not, decide_eq_false_iff_not]
    exact ⟨⟨hlow, by omega⟩, by omega⟩

/-- A text that spoils how it is read is not read back: the reader takes the first six characters
and the `_` of the escape behind them for one. -/
theorem decodeEscapes_of_spoils (h : spoils s = true) :
    decodeEscapes (escapes s) ≠ some s := by
  obtain ⟨h₁, h₂, h₃, h₄, c, rest, rfl, hhex, hc⟩ := spoils_iff.1 h
  have hlt := toNat_lt_of_unwritable hc
  have hplain : ∀ m < 16, ∀ t, decodeEscapes (hexDigit m :: t) =
      (decodeEscapes t).map (hexDigit m :: ·) :=
    fun m hm t ↦ decodeEscapes_plain fun hshape ↦ (hexDigit_plain m hm).2.2.1 hshape.1
  have hshape : ¬ looksEscaped ('_' :: 'x' :: h₁ :: h₂ :: h₃ :: h₄ :: c :: rest) = true := by
    intro hlooks
    obtain ⟨_, _, _, _, _, heq, -⟩ := looksEscaped_iff.1 hlooks
    simp only [cons.injEq] at heq
    rw [heq.2.2.2.2.2.1] at hc
    exact absurd hc (by decide)
  have hwritten : escapes ('_' :: 'x' :: h₁ :: h₂ :: h₃ :: h₄ :: c :: rest) =
      '_' :: 'x' :: h₁ :: h₂ :: h₃ :: h₄ :: '_' :: 'x' :: (hex c.toNat ++ '_' :: escapes rest) := by
    have hdigits := hhex
    simp only [areHex, Bool.and_eq_true] at hdigits
    rw [escapes, escaped_of_plain (fun h ↦ hshape h.2) (by decide), escapes_cons_plain (by decide)
      (by decide), escapes_cons_hex hdigits.1.1.1, escapes_cons_hex hdigits.1.1.2,
      escapes_cons_hex hdigits.1.2, escapes_cons_hex hdigits.2, escapes, escaped_of_unwritable hc]
    simp only [cons_append, nil_append, append_assoc]
  rw [hwritten, decodeEscapes_escape hhex, decodeEscapes_plain (fun h ↦ absurd h.1 (by decide)),
    hex, cons_append, cons_append, cons_append, cons_append, nil_append,
    hplain _ (by omega), hplain _ (Nat.mod_lt _ (by decide)), hplain _ (Nat.mod_lt _ (by decide)),
    hplain _ (Nat.mod_lt _ (by decide))]
  intro hsome
  obtain ⟨d, hd, hsome⟩ := Option.bind_eq_some_iff.1 hsome
  simp only [Option.map_map, Option.map_eq_some_iff, Function.comp, cons.injEq] at hsome
  -- the digits of the escape would be those before it, and these name `_`
  obtain ⟨more, -, rfl, -, h₁', h₂', h₃', h₄', -⟩ := hsome
  rw [← h₁', ← h₂', ← h₃', ← h₄', ofHex_unwritable hc, Option.some.injEq] at hd
  rw [hd] at hc
  exact absurd hc (by decide)

theorem unspoiled_cons {rest : Str} :
    Unspoiled (c :: rest) ↔ spoils (c :: rest) = false ∧ Unspoiled rest := by
  rw [Unspoiled, tails_cons, forall_mem_cons]
  rfl

/-- **A piece is read back as it was if and only if no part of it spoils how it is read.** -/
theorem decode_cellText_iff (s : Str) : decode (cellText s) = some s ↔ Unspoiled s := by
  rw [decode_eq]
  induction s with
  | nil => exact ⟨fun _ ↦ by decide, fun _ ↦ rfl⟩
  | cons c rest ih =>
    rw [unspoiled_cons, ← ih]
    by_cases hspoils : spoils (c :: rest) = true
    · rw [hspoils]
      exact ⟨fun h ↦ absurd h (decodeEscapes_of_spoils hspoils), fun h ↦ absurd h.1 (by decide)⟩
    · rw [decodeEscapes_escapes_cons hspoils, Option.map_eq_some_iff]
      constructor
      · rintro ⟨more, hmore, heq⟩
        exact ⟨Bool.eq_false_iff.2 hspoils, hmore.trans (congrArg some (cons.inj heq).2)⟩
      · exact fun h ↦ ⟨rest, h.2, rfl⟩

/-! ## Pieces -/

theorem piecesAux_ne_nil (piece : Str) (n : ℕ) (s : Str) : piecesAux piece n s ≠ [] := by
  induction s generalizing piece n with
  | nil => exact cons_ne_nil _ _
  | cons c rest ih =>
    rw [piecesAux]
    split
    · exact cons_ne_nil _ _
    · exact ih _ _

theorem flatten_piecesAux (piece : Str) (n : ℕ) (s : Str) :
    (piecesAux piece n s).flatten = piece.reverse ++ s := by
  induction s generalizing piece n with
  | nil => rw [piecesAux, flatten_singleton, append_nil]
  | cons c rest ih =>
    rw [piecesAux]
    split
    · rw [flatten_cons, ih]
      rfl
    · rw [ih, reverse_cons, append_assoc]
      rfl

theorem units_reverse (s : Str) : units s.reverse = units s := by
  rw [units, map_reverse, sum_reverse]
  rfl

theorem lenUtf16_le (c : Char) : lenUtf16 c ≤ 2 := by
  rw [lenUtf16]
  split <;> omega

theorem units_of_mem_piecesAux {piece p : Str} (hn : units piece = n)
    (hle : n ≤ maxCellUnits) (hp : p ∈ piecesAux piece n s) : units p ≤ maxCellUnits := by
  induction s generalizing piece n with
  | nil =>
    rw [piecesAux, mem_singleton] at hp
    rw [hp, units_reverse, hn]
    exact hle
  | cons c rest ih =>
    have hcons : ∀ t, units (c :: t) = lenUtf16 c + units t := fun t ↦ sum_cons
    rw [piecesAux] at hp
    split at hp
    · rcases mem_cons.1 hp with rfl | hp
      · rw [units_reverse, hn]
        exact hle
      · exact ih (hcons []) ((lenUtf16_le c).trans (by decide)) hp
    · refine ih ?_ (by omega) hp
      rw [hcons, hn, Nat.add_comm]

/-- A value has a first piece. -/
theorem pieces_ne_nil (value : Str) : pieces value ≠ [] := piecesAux_ne_nil [] 0 value

/-- The pieces of a value are the value. -/
theorem flatten_pieces (value : Str) : (pieces value).flatten = value :=
  flatten_piecesAux [] 0 value

/-- A piece fits in a cell. -/
theorem units_le_of_mem_pieces {value p : Str} (h : p ∈ pieces value) : units p ≤ maxCellUnits :=
  units_of_mem_piecesAux rfl (Nat.zero_le _) h

end Huntsman.Xlsx
