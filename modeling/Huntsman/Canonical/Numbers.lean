import Huntsman.Canonical.Stable

/-!
# Telephone numbers, IP addresses and blocks are stable

The rule for a telephone number looks at nothing but the digits, the `+` and whether a marker is
followed by digits, none of which trimming changes (`canonicalPhone_trim`); every number it accepts
is written `+` and digits, and it accepts that as it stands (`canonicalPhone_stable`).

`Library.Lawful` is what is known of the standard library's addresses.
-/

set_option autoImplicit false

namespace Huntsman.Canonical

open List Pieces

variable {s raw d : Chars} {c : Char}

/-! ## What is dialled -/

/-- A digit or a `+`. -/
def isDialled (c : Char) : Bool := isAsciiDigit c || c == '+'

theorem dialled_append (s t : Chars) : dialled (s ++ t) = dialled s ++ dialled t :=
  filter_append ..

theorem dialled_of_none (h : ∀ c ∈ s, isDialled c = false) : dialled s = [] :=
  filter_eq_nil_iff.2 fun c hc ↦ by
    rw [show (isAsciiDigit c || c == '+') = isDialled c from rfl, h c hc]
    exact Bool.false_ne_true

theorem dialled_of_all (h : ∀ c ∈ s, isDialled c = true) : dialled s = s :=
  filter_eq_self.2 h

theorem mem_takeWhile_not_dialled
    (h : c ∈ s.takeWhile fun c ↦ !(isAsciiDigit c || c == '+')) : isDialled c = false := by
  have hnot : (!isDialled c) = true :=
    mem_takeWhile_imp (p := fun c ↦ !(isAsciiDigit c || c == '+')) h
  rwa [Bool.not_eq_true'] at hnot

theorem dialled_dropWhile (s : Chars) :
    dialled (s.dropWhile fun c ↦ !(isAsciiDigit c || c == '+')) = dialled s := by
  have hfront := dialled_of_none fun c hc ↦ mem_takeWhile_not_dialled (s := s) hc
  conv_rhs =>
    rw [← takeWhile_append_dropWhile (p := fun c ↦ !(isAsciiDigit c || c == '+')) (l := s),
      dialled_append, hfront, nil_append]

theorem westernDigits_append (s t : Chars) :
    westernDigits (s ++ t) = westernDigits s ++ westernDigits t := by
  rw [westernDigits, filter_append, map_append]
  rfl

theorem isDialled_iff (c : Char) :
    isDialled c = true ↔ c.toNat = 43 ∨ (48 ≤ c.toNat ∧ c.toNat ≤ 57) := by
  have hplus : c = '+' ↔ c.toNat = 43 :=
    ⟨fun h ↦ h ▸ rfl, fun h ↦ Char.toNat_inj.1 (h.trans (show 43 = '+'.toNat from rfl))⟩
  have hdigit : isAsciiDigit c = true ↔ 48 ≤ c.toNat ∧ c.toNat ≤ 57 := by
    simp only [isAsciiDigit, Char.isDigit, Bool.and_eq_true, decide_eq_true_eq,
      UInt32.le_iff_toNat_le, ge_iff_le]
    exact Iff.rfl
  rw [isDialled, Bool.or_eq_true, beq_iff_eq, hplus, hdigit, or_comm]

/-- White space is neither dialled nor read as a digit. -/
theorem westernDigits_whitespace (h : ∀ c ∈ s, Text.isWhitespace c = true) :
    ∀ c ∈ westernDigits s, isDialled c = false := by
  intro d hd
  obtain ⟨c, hc, rfl⟩ := mem_map.1 hd
  have hwhite := h c (mem_of_mem_filter hc)
  simp only [Text.isWhitespace, Bool.or_eq_true, Bool.and_eq_true, decide_eq_true_eq,
    beq_iff_eq] at hwhite
  have heastern : easternDigit c = none := by
    rw [easternDigit, if_neg (by omega), if_neg (by omega)]
  rw [heastern, Option.getD_none, ← Bool.not_eq_true, isDialled_iff]
  omega

theorem westernDigits_dialled (h : ∀ c ∈ s, isDialled c = true) : westernDigits s = s := by
  have hmark : (s.filter fun c ↦ !isDirectionMark c) = s := by
    refine filter_eq_self.2 fun c hc ↦ ?_
    have hlow := (isDialled_iff c).1 (h c hc)
    simp only [isDirectionMark, Bool.not_eq_true', Bool.or_eq_false_iff, beq_eq_false_iff_ne,
      Bool.and_eq_false_iff, decide_eq_false_iff_not]
    omega
  rw [westernDigits, hmark]
  refine (map_congr_left fun c hc ↦ ?_).trans (map_id' s)
  have hlow := (isDialled_iff c).1 (h c hc)
  rw [easternDigit, if_neg (by omega), if_neg (by omega), Option.getD_none]

/-! ## Markers -/

section Phones

variable (lib : Library)

theorem hasDigitsAfterAMarkerAux_none (h : ∀ c ∈ s, isDialled c = false) (seen marker : Bool) :
    hasDigitsAfterAMarkerAux lib seen marker s = false := by
  induction s generalizing marker with
  | nil => rfl
  | cons c s ih =>
    obtain ⟨hc, hs⟩ := forall_mem_cons.1 h
    rw [isDialled, Bool.or_eq_false_iff] at hc
    rw [hasDigitsAfterAMarkerAux, if_neg (by rw [hc.1]; exact Bool.false_ne_true)]
    split
    · exact ih hs _
    · exact ih hs _

theorem hasDigitsAfterAMarkerAux_append {t : Chars} (h : ∀ c ∈ t, isDialled c = false)
    (seen marker : Bool) : hasDigitsAfterAMarkerAux lib seen marker (s ++ t) =
      hasDigitsAfterAMarkerAux lib seen marker s := by
  induction s generalizing seen marker with
  | nil => rw [nil_append, hasDigitsAfterAMarkerAux_none lib h]; rfl
  | cons c s ih =>
    rw [cons_append, hasDigitsAfterAMarkerAux, hasDigitsAfterAMarkerAux, ih, ih, ih]

/-- Nothing before the first digit is a marker. -/
theorem hasDigitsAfterAMarker_append {t : Chars} (h : ∀ c ∈ s, isDialled c = false) :
    hasDigitsAfterAMarker lib (s ++ t) = hasDigitsAfterAMarker lib t := by
  induction s with
  | nil => rfl
  | cons c s ih =>
    obtain ⟨hc, hs⟩ := forall_mem_cons.1 h
    rw [isDialled, Bool.or_eq_false_iff] at hc
    rw [cons_append, hasDigitsAfterAMarker, hasDigitsAfterAMarkerAux,
      if_neg (by rw [hc.1]; exact Bool.false_ne_true), Bool.false_and,
      if_neg Bool.false_ne_true]
    exact ih hs

theorem hasDigitsAfterAMarkerAux_all (h : ∀ c ∈ s, isAsciiDigit c = true) (seen : Bool) :
    hasDigitsAfterAMarkerAux lib seen false s = false := by
  induction s generalizing seen with
  | nil => rfl
  | cons c s ih =>
    obtain ⟨hc, hs⟩ := forall_mem_cons.1 h
    rw [hasDigitsAfterAMarkerAux, if_pos hc, Bool.false_or, ih hs]

theorem hasDigitsAfterAMarker_dropWhile (s : Chars) :
    hasDigitsAfterAMarker lib (s.dropWhile fun c ↦ !(isAsciiDigit c || c == '+')) =
      hasDigitsAfterAMarker lib s := by
  have hfront := fun t ↦ hasDigitsAfterAMarker_append (t := t) lib fun c hc ↦
    mem_takeWhile_not_dialled (s := s) hc
  conv_rhs =>
    rw [← takeWhile_append_dropWhile (p := fun c ↦ !(isAsciiDigit c || c == '+')) (l := s),
      hfront]

/-! ## Telephone numbers -/

/-- All that the rule looks at. -/
theorem canonicalPhone_congr {v w : Chars}
    (hdialled : dialled (westernDigits v) = dialled (westernDigits w))
    (hmarker : hasDigitsAfterAMarker lib (westernDigits v) =
      hasDigitsAfterAMarker lib (westernDigits w)) :
    canonicalPhone lib v = canonicalPhone lib w := by
  rw [canonicalPhone, canonicalPhone]
  simp only [normaliseAuPhone, dialled_dropWhile, hasDigitsAfterAMarker_dropWhile, hdialled, hmarker]

theorem canonicalPhone_trim (raw : Chars) :
    canonicalPhone lib (trim raw) = canonicalPhone lib raw := by
  obtain ⟨l, r, hraw, hl, hr⟩ := exists_trim Text.isWhitespace raw
  have hfront := westernDigits_whitespace hl
  have hback := westernDigits_whitespace hr
  have hwest : westernDigits raw =
      westernDigits l ++ (westernDigits (trim raw) ++ westernDigits r) := by
    conv_lhs => rw [hraw, westernDigits_append, westernDigits_append]
    rfl
  refine canonicalPhone_congr lib ?_ ?_
  · rw [hwest, dialled_append, dialled_append, dialled_of_none hfront, dialled_of_none hback,
      nil_append, append_nil]
  · rw [hwest, hasDigitsAfterAMarker_append lib hfront]
    exact (hasDigitsAfterAMarkerAux_append lib hback false false).symm

theorem auNationalKey_some {national : Chars} (h : auNationalKey national = some d) :
    d = "+61".toList ++ national ∧ phoneE164Error d = none ∧ national.head? ≠ some '0' := by
  rw [auNationalKey] at h
  split at h
  · rename_i hok
    cases h
    rw [Bool.and_eq_true, Option.isNone_iff_eq_none] at hok
    refine ⟨rfl, hok.2, fun hzero ↦ ?_⟩
    obtain ⟨rest, rfl⟩ := head?_eq_some_iff.1 hzero
    simp [isPrefixOf] at hok
  · simp at h

theorem normaliseAuPhone_some (h : normaliseAuPhone raw = some d) :
    ∃ national, auNationalKey national = some d := by
  rw [normaliseAuPhone] at h
  simp only at h
  split at h
  · split at h
    · split at h
      · exact ⟨_, h⟩
      · exact ⟨_, h⟩
    · exact ⟨_, h⟩
  · split at h
    · simp at h
    · split at h
      · rename_i key hbare
        split at hbare
        · split at hbare
          · exact ⟨_, hbare.trans h⟩
          · simp at hbare
        · simp at hbare
      · split at h
        · split at h
          · exact ⟨_, h⟩
          · exact ⟨_, h⟩
        · exact ⟨_, h⟩

/-- What every accepted number is: an Australian one, or another written `+` and digits. -/
def IsPhone (d : Chars) : Prop :=
  (∃ national, auNationalKey national = some d) ∨
    (phoneE164Error d = none ∧ "+61".toList.isPrefixOf d = false)

theorem finishPhone_some {candidate : Chars} (h : finishPhone candidate = some d) : IsPhone d := by
  rw [finishPhone] at h
  split at h
  · exact .inl (normaliseAuPhone_some h)
  · rename_i hother
    rw [Bool.not_eq_true] at hother
    split at h
    · rename_i hok
      cases h
      exact .inr ⟨Option.isNone_iff_eq_none.1 hok, hother⟩
    · simp at h

theorem canonicalPhone_some (h : canonicalPhone lib raw = some d) : IsPhone d := by
  rw [canonicalPhone] at h
  simp only at h
  split at h
  · simp at h
  · split at h
    · exact finishPhone_some h
    · split at h
      · split at h
        · simp at h
        · exact finishPhone_some h
      · exact .inl (normaliseAuPhone_some h)

theorem phoneE164_digits (h : phoneE164Error d = none) :
    ∃ digits, d = '+' :: digits ∧ ∀ c ∈ digits, isAsciiDigit c = true := by
  rw [phoneE164Error.eq_def] at h
  split at h
  · rename_i digits
    split at h
    · simp at h
    · rename_i hall
      rw [Bool.not_eq_false, all_eq_true] at hall
      exact ⟨digits, rfl, hall⟩
  · simp at h

theorem IsPhone.e164 (h : IsPhone d) : phoneE164Error d = none := by
  rcases h with ⟨national, hnational⟩ | ⟨hd, -⟩
  · exact (auNationalKey_some hnational).2.1
  · exact hd

theorem dialled_e164 (h : phoneE164Error d = none) : ∀ c ∈ d, isDialled c = true := by
  obtain ⟨digits, rfl, hdigits⟩ := phoneE164_digits h
  refine forall_mem_cons.2 ⟨rfl, fun c hc ↦ ?_⟩
  rw [isDialled, hdigits c hc, Bool.true_or]

theorem normaliseAuPhone_stable {national : Chars} (h : auNationalKey national = some d) :
    normaliseAuPhone d = some d := by
  obtain ⟨hd, hok, hzero⟩ := auNationalKey_some h
  have hcompact : dialled d = d := dialled_of_all (dialled_e164 hok)
  have hstrip : "+61".toList.isPrefixOf? d = some national := by
    rw [isPrefixOf?_eq_some_iff_append_eq, hd]
  rw [normaliseAuPhone, hcompact, hstrip]
  simp only [Option.some_or]
  split
  · exact absurd rfl hzero
  · exact h

theorem finishPhone_stable (h : IsPhone d) : finishPhone d = some d := by
  rw [finishPhone]
  rcases h with ⟨national, hnational⟩ | ⟨hok, hother⟩
  · have hau : "+61".toList.isPrefixOf d = true := by
      rw [List.isPrefixOf_iff_prefix, (auNationalKey_some hnational).1]
      exact prefix_append _ _
    rw [if_pos hau]
    exact normaliseAuPhone_stable hnational
  · rw [if_neg (by rw [hother]; exact Bool.false_ne_true), hok, Option.isNone_none, if_pos rfl]

theorem canonicalPhone_stable (h : canonicalPhone lib raw = some d) :
    canonicalPhone lib d = some d := by
  have hphone := canonicalPhone_some lib h
  have hall := dialled_e164 hphone.e164
  obtain ⟨digits, hd, hdigits⟩ := phoneE164_digits hphone.e164
  have hmarker : hasDigitsAfterAMarker lib d = false := by
    rw [hd, hasDigitsAfterAMarker, hasDigitsAfterAMarkerAux, if_neg (by decide), Bool.false_and,
      if_neg Bool.false_ne_true]
    exact hasDigitsAfterAMarkerAux_all lib hdigits false
  rw [canonicalPhone]
  simp only [dialled_dropWhile, hasDigitsAfterAMarker_dropWhile, westernDigits_dialled hall, hmarker,
    dialled_of_all hall]
  rw [if_neg Bool.false_ne_true, if_pos (by rw [hd]; rfl)]
  exact finishPhone_stable hphone

end Phones

/-! ## Numbers -/

theorem isDigit_toLower (c : Char) : isAsciiDigit c.toLower = isAsciiDigit c :=
  toLower_induction (P := fun c d ↦ isAsciiDigit d = isAsciiDigit c) (fun _ _ ↦ rfl) (by decide) c

theorem toLower_of_isDigit (h : isAsciiDigit c = true) : c.toLower = c :=
  toLower_induction (P := fun c d ↦ isAsciiDigit c = true → d = c) (fun _ _ _ ↦ rfl)
    (by decide) c h

/-- The digits of a number, without the sign that may stand before them. -/
def unsignedDigits (s : Chars) : Chars :=
  match s with
  | '+' :: rest => rest
  | _ => s

theorem parseUnsigned_eq (max : ℕ) (s : Chars) : parseUnsigned max s =
    if unsignedDigits s = [] ∨ (unsignedDigits s).all isAsciiDigit = false then none
    else if Nat.ofDigitChars 10 (unsignedDigits s) 0 ≤ max then
      some (Nat.ofDigitChars 10 (unsignedDigits s) 0)
    else none := rfl

theorem unsignedDigits_of_ne (h : s.head? ≠ some '+') : unsignedDigits s = s := by
  rw [unsignedDigits.eq_def]
  split
  · exact absurd rfl h
  · rfl

theorem unsignedDigits_lower (s : Chars) : unsignedDigits (lower s) = lower (unsignedDigits s) := by
  by_cases h : s.head? = some '+'
  · obtain ⟨rest, rfl⟩ := head?_eq_some_iff.1 h
    rfl
  · rw [unsignedDigits_of_ne h, unsignedDigits_of_ne]
    rw [lower, head?_map]
    intro hmap
    obtain ⟨c, hc, hplus⟩ := Option.map_eq_some_iff.1 hmap
    rw [(toLower_eq_iff (by decide) c).1 hplus] at hc
    exact h hc

theorem parseUnsigned_lower (max : ℕ) (s : Chars) :
    parseUnsigned max (lower s) = parseUnsigned max s := by
  have hall : (lower (unsignedDigits s)).all isAsciiDigit = (unsignedDigits s).all isAsciiDigit := by
    rw [lower, all_map]
    exact congrArg _ (funext isDigit_toLower)
  rw [parseUnsigned_eq, parseUnsigned_eq, unsignedDigits_lower, hall]
  by_cases hdigits : (unsignedDigits s).all isAsciiDigit = true
  · have hsame : lower (unsignedDigits s) = unsignedDigits s :=
      lower_of_all fun c hc ↦ toLower_of_isDigit (all_eq_true.1 hdigits c hc)
    rw [hsame]
  · rw [Bool.not_eq_true] at hdigits
    rw [if_pos (.inr hdigits), if_pos (.inr hdigits)]

theorem parseUnsigned_chars {max n : ℕ} (h : parseUnsigned max s = some n) :
    ∀ c ∈ s, isDialled c = true := by
  rw [parseUnsigned_eq] at h
  split at h
  · simp at h
  · rename_i hdigits
    rw [not_or, Bool.not_eq_false, all_eq_true] at hdigits
    have hdialled : ∀ c ∈ unsignedDigits s, isDialled c = true := fun c hc ↦ by
      rw [isDialled, hdigits.2 c hc, Bool.true_or]
    by_cases hplus : s.head? = some '+'
    · obtain ⟨rest, rfl⟩ := head?_eq_some_iff.1 hplus
      exact forall_mem_cons.2 ⟨rfl, hdialled⟩
    · rwa [unsignedDigits_of_ne hplus] at hdialled

theorem dialled_not_whitespace (h : isDialled c = true) : Text.isWhitespace c = false := by
  rw [isDialled, Bool.or_eq_true, beq_iff_eq] at h
  rcases h with h | rfl
  · refine alphanumeric_not_whitespace ?_
    rw [isAsciiAlphanumeric, Char.isAlphanum, show c.isDigit = true from h, Bool.or_true]
  · decide

theorem decimal_digits (n : ℕ) : ∀ c ∈ decimal n, isAsciiDigit c = true :=
  fun _ hc ↦ Nat.isDigit_of_mem_toDigits (by decide) (by decide) hc

theorem decimal_ne_nil (n : ℕ) : decimal n ≠ [] := Nat.toDigits_ne_nil

theorem parseUnsigned_decimal {max n : ℕ} (h : n ≤ max) :
    parseUnsigned max (decimal n) = some n := by
  have hplus : (decimal n).head? ≠ some '+' := fun hhead ↦
    absurd (decimal_digits n '+' (mem_of_mem_head? hhead)) (by decide)
  have hvalue : Nat.ofDigitChars 10 (decimal n) 0 = n := Nat.ofDigitChars_ten_toDigits
  rw [parseUnsigned_eq, unsignedDigits_of_ne hplus, if_neg, hvalue, if_pos h]
  rw [not_or, Bool.not_eq_false, all_eq_true]
  exact ⟨decimal_ne_nil n, decimal_digits n⟩

/-! ## Addresses -/

/-- What an address is written with. -/
def isIpChar (c : Char) : Bool := isAsciiAlphanumeric c || c == ':' || c == '.'

/-- What the standard library's addresses are known to do: they are read back as they are written,
in either letter case, an IPv4 one in no other form, and white space is in none. -/
structure Library.Lawful (lib : Library) : Prop where
  parse_showIpv4 : ∀ a, lib.parseIp (showIpv4 a) = some (.v4 a)
  parse_v4 : ∀ s a, lib.parseIp s = some (.v4 a) → s = showIpv4 a
  parse_showIpv6 : ∀ a, lib.parseIp (lib.showIpv6 a) = some (.v6 a)
  showIpv6_chars : ∀ a, ∀ c ∈ lib.showIpv6 a, isIpChar c = true
  parse_lower : ∀ s, lib.parseIp (lower s) = lib.parseIp s
  parse_chars : ∀ s ip, lib.parseIp s = some ip → ∀ c ∈ s, Text.isWhitespace c = false

theorem ipChar_not_whitespace (h : isIpChar c = true) : Text.isWhitespace c = false := by
  simp only [isIpChar, Bool.or_eq_true, beq_iff_eq] at h
  rcases h with (h | rfl) | rfl
  · exact alphanumeric_not_whitespace h
  · decide
  · decide

theorem isIpChar_of_digit (h : isAsciiDigit c = true) : isIpChar c = true := by
  rw [isIpChar, isAsciiAlphanumeric, Char.isAlphanum, show c.isDigit = true from h]
  simp

theorem mem_showIpv4 {a : BitVec 32} (h : c ∈ showIpv4 a) : isAsciiDigit c = true ∨ c = '.' := by
  have hjoin : ∀ n : ℕ, ∀ t : Chars, (∀ c ∈ t, isAsciiDigit c = true ∨ c = '.') →
      ∀ c ∈ decimal n ++ '.' :: t, isAsciiDigit c = true ∨ c = '.' := fun n t ht ↦
    forall_mem_append.2 ⟨fun c hc ↦ .inl (decimal_digits n c hc),
      forall_mem_cons.2 ⟨.inr rfl, ht⟩⟩
  exact hjoin _ _ (hjoin _ _ (hjoin _ _ fun c hc ↦ .inl (decimal_digits _ c hc))) c h

theorem showIpv4_chars (a : BitVec 32) : ∀ c ∈ showIpv4 a, isIpChar c = true := by
  intro c hc
  rcases mem_showIpv4 hc with hdigit | rfl
  · exact isIpChar_of_digit hdigit
  · decide

@[simp] theorem IpAddr.toCanonical_toCanonical (ip : IpAddr) :
    ip.toCanonical.toCanonical = ip.toCanonical := by
  rcases ip with a | a
  · rfl
  · by_cases h : a.toNat / 2 ^ 32 = 0xffff
    · rw [IpAddr.toCanonical, if_pos h, IpAddr.toCanonical]
    · rw [IpAddr.toCanonical, if_neg h, IpAddr.toCanonical, if_neg h]

theorem Netblock.network_network (block : Netblock) :
    Netblock.network ⟨block.network, block.prefixLength⟩ = block.network := by
  have htwice : ∀ {w : ℕ} (a m : BitVec w), a &&& m &&& m = a &&& m := fun a m ↦ by
    rw [BitVec.and_assoc, BitVec.and_self]
  obtain ⟨ip, n⟩ := block
  rcases ip with a | a
  · exact congrArg IpAddr.v4 (htwice a _)
  · exact congrArg IpAddr.v6 (htwice a _)

theorem Netblock.width_network (block : Netblock) : block.network.width = block.address.width := by
  obtain ⟨ip, n⟩ := block
  rcases ip with a | a <;> rfl

section Addresses

variable {lib : Library} (hlib : lib.Lawful)

include hlib

theorem showIp_chars (ip : IpAddr) : ∀ c ∈ showIp lib ip, isIpChar c = true := by
  rcases ip with a | a
  · exact showIpv4_chars a
  · exact hlib.showIpv6_chars a

theorem parse_showIp (ip : IpAddr) : lib.parseIp (showIp lib ip) = some ip := by
  rcases ip with a | a
  · exact hlib.parse_showIpv4 a
  · exact hlib.parse_showIpv6 a

theorem trim_showIp (ip : IpAddr) : trim (showIp lib ip) = showIp lib ip :=
  trim_of_all fun c hc ↦ ipChar_not_whitespace (showIp_chars hlib ip c hc)

theorem canonicalIpLiteral_stable (h : canonicalIpLiteral lib raw = some d) :
    canonicalIpLiteral lib d = some d := by
  obtain ⟨ip, hip, rfl⟩ := Option.map_eq_some_iff.1 h
  obtain ⟨ip', -, rfl⟩ := Option.map_eq_some_iff.1 hip
  have hbare : unbracketed (showIp lib ip'.toCanonical) = showIp lib ip'.toCanonical := by
    rw [unbracketed.eq_def]
    split
    · rename_i inner hinner
      have hbracket := showIp_chars hlib ip'.toCanonical '[' (by rw [hinner]; exact (.head _))
      exact absurd hbracket (by decide)
    · rfl
  rw [canonicalIpLiteral, parseIpLiteral, trim_showIp hlib, hbare, parse_showIp hlib, Option.map_some,
    Option.map_some, IpAddr.toCanonical_toCanonical]

end Addresses

theorem canonicalIpLiteral_trim (lib : Library) (raw : Chars) :
    canonicalIpLiteral lib (trim raw) = canonicalIpLiteral lib raw := by
  rw [canonicalIpLiteral, parseIpLiteral, trim_trim]
  rfl

/-! ## Blocks -/

theorem Netblock.parse_eq_some {lib : Library} {block : Netblock} :
    Netblock.parse lib raw = some block ↔ ∃ address number n ip,
      Pieces.splitOnce '/' (trim raw) = some (address, number) ∧
      parseUnsigned 255 (trim number) = some n ∧ lib.parseIp (trim address) = some ip ∧
      n ≤ ip.width ∧ block = ⟨Netblock.network ⟨ip, n⟩, n⟩ := by
  rw [Netblock.parse]
  simp only [Option.bind_eq_bind, Option.bind_eq_some_iff, Prod.exists, Option.pure_def,
    Option.ite_none_right_eq_some, Option.some.injEq]
  constructor
  · rintro ⟨address, number, hsplit, n, hn, ip, hip, hle, rfl⟩
    exact ⟨address, number, n, ip, hsplit, hn, hip, hle, rfl⟩
  · rintro ⟨address, number, n, ip, hsplit, hn, hip, hle, rfl⟩
    exact ⟨address, number, hsplit, n, hn, ip, hip, hle, rfl⟩

/-- A text with white space around each slash. -/
def spaced (s : Chars) : Chars := s.flatMap fun c ↦ if c = '/' then " / ".toList else [c]

/-- The words of a text, each slash a word of its own. -/
def slashWords (s : Chars) : List Chars := Pieces.words Text.isWhitespace (spaced s)

theorem spaced_of_not_mem (h : '/' ∉ s) : spaced s = s := by
  refine (flatMap_congr fun c hc ↦ if_neg ?_).trans (flatMap_singleton' s)
  rintro rfl
  exact h hc

theorem slashWords_of_not_mem (h : '/' ∉ s) :
    slashWords s = Pieces.words Text.isWhitespace s := by
  rw [slashWords, spaced_of_not_mem h]

theorem slashWords_append (h : '/' ∉ s) (t : Chars) :
    slashWords (s ++ '/' :: t) = Pieces.words Text.isWhitespace s ++ ['/'] :: slashWords t := by
  have hslash : spaced (s ++ '/' :: t) = s ++ ' ' :: (['/'] ++ ' ' :: spaced t) := by
    rw [spaced, flatMap_append, flatMap_cons]
    exact congrArg (· ++ _) (spaced_of_not_mem h)
  rw [slashWords, hslash, words_append_cons (by decide), words_append_cons (by decide),
    words_of_all (s := ['/']) (by simp [Text.isWhitespace]) (by simp), slashWords]
  rfl

theorem slashWords_eq (s : Chars) : slashWords s =
    (Pieces.words Text.isWhitespace s).flatMap slashWords := by
  refine words_flatMap (fun c hc ↦ if_neg ?_) s
  rintro rfl
  exact absurd hc (by decide)

theorem spaced_lower (s : Chars) : spaced (lower s) = lower (spaced s) := by
  rw [spaced, spaced, lower, lower, flatMap_map, map_flatMap]
  refine flatMap_congr fun c _ ↦ ?_
  by_cases h : c = '/'
  · rw [h]
    rfl
  · rw [if_neg h, if_neg fun heq ↦ h ((toLower_eq_iff (by decide) c).1 heq)]
    rfl

theorem slashWords_lower (s : Chars) : slashWords (lower s) = (slashWords s).map lower := by
  rw [slashWords, spaced_lower]
  exact words_map isWhitespace_toLower _

theorem slashWords_trim (s : Chars) : slashWords (trim s) = slashWords s := by
  rw [slashWords_eq, trim, words_trim, ← slashWords_eq]

theorem slashWords_canonicalWhitespace (raw : Chars) :
    slashWords (canonicalWhitespace raw) = slashWords (lower raw) := by
  rw [slashWords_eq, canonicalWhitespace_words, slashWords_lower, slashWords_eq raw,
    map_flatMap, flatMap_map]
  exact flatMap_congr fun w _ ↦ slashWords_lower w

theorem mem_slashWords : ['/'] ∈ slashWords s ↔ '/' ∈ s := by
  constructor
  · intro h
    by_contra hnot
    rw [slashWords_of_not_mem hnot] at h
    exact hnot (mem_of_mem_words h (.head _))
  · intro h
    obtain ⟨before, after, rfl, hbefore⟩ := eq_append_cons_of_mem h
    rw [slashWords_append hbefore]
    exact mem_append_right _ (.head _)

section Blocks

variable {lib : Library} (hlib : lib.Lawful)

include hlib

theorem Netblock.parse_show {block : Netblock} (h : Netblock.parse lib raw = some block) :
    Netblock.parse lib (block.show lib) = some block := by
  obtain ⟨address, number, n, ip, -, hn, -, hle, rfl⟩ := Netblock.parse_eq_some.1 h
  have hshow : Netblock.show lib ⟨Netblock.network ⟨ip, n⟩, n⟩ =
      showIp lib (Netblock.network ⟨ip, n⟩) ++ '/' :: decimal n := by
    rw [Netblock.show, Netblock.network_network ⟨ip, n⟩]
  have hdecimal : ∀ c ∈ decimal n, Text.isWhitespace c = false := fun c hc ↦
    ipChar_not_whitespace (isIpChar_of_digit (decimal_digits n c hc))
  have hchars : ∀ c ∈ showIp lib (Netblock.network ⟨ip, n⟩), Text.isWhitespace c = false :=
    fun c hc ↦ ipChar_not_whitespace (showIp_chars hlib _ c hc)
  have hslash : '/' ∉ showIp lib (Netblock.network ⟨ip, n⟩) := fun hc ↦
    absurd (showIp_chars hlib _ _ hc) (by decide)
  have hsmall : n ≤ 255 := by
    have hwidth : ip.width ≤ 128 := by
      rcases ip with a | a
      · exact Nat.le_of_ble_eq_true rfl
      · exact le_rfl
    omega
  rw [hshow]
  refine Netblock.parse_eq_some.2 ⟨showIp lib (Netblock.network ⟨ip, n⟩), decimal n, n,
    Netblock.network ⟨ip, n⟩, ?_, ?_, ?_, ?_, ?_⟩
  · have htrim : trim (showIp lib (Netblock.network ⟨ip, n⟩) ++ '/' :: decimal n) =
        showIp lib (Netblock.network ⟨ip, n⟩) ++ '/' :: decimal n :=
      trim_of_all (forall_mem_append.2 ⟨hchars, forall_mem_cons.2 ⟨by decide, hdecimal⟩⟩)
    rw [htrim]
    exact splitOnce_append hslash _
  · rw [trim_of_all hdecimal, parseUnsigned_decimal hsmall]
  · rw [trim_showIp hlib, parse_showIp hlib]
  · rw [Netblock.width_network]
    exact hle
  · rw [Netblock.network_network ⟨ip, n⟩]

/-- A block depends on no more than its words, a slash being one. -/
theorem Netblock.parse_of_slashWords {t : Chars} {block : Netblock}
    (hwords : slashWords t = slashWords s) (h : Netblock.parse lib s = some block) :
    Netblock.parse lib t = some block := by
  obtain ⟨address, number, n, ip, hsplit, hn, hip, hle, rfl⟩ := Netblock.parse_eq_some.1 h
  obtain ⟨htext, hslash⟩ := splitOnce_eq_some.1 hsplit
  rw [← slashWords_trim t, ← slashWords_trim s] at hwords
  have hmem : '/' ∈ trim t := by
    rw [← mem_slashWords, hwords, mem_slashWords, htext]
    exact mem_append_right _ (.head _)
  obtain ⟨before, after, ht, hbefore⟩ := eq_append_cons_of_mem hmem
  have hnoword : ['/'] ∉ words Text.isWhitespace address :=
    fun hw ↦ hslash (mem_of_mem_words hw (.head _))
  -- the number holds no second slash
  have hno : '/' ∉ number := fun hc ↦
    absurd (parseUnsigned_chars hn '/' (mem_trim_of_mem hc (by decide))) (by decide)
  rw [ht, htext, slashWords_append hbefore, slashWords_append hslash] at hwords
  obtain ⟨haddress, -, hnumber⟩ := (append_cons_inj_of_notMem hnoword
    (mem_slashWords.not.2 hno)).1 hwords.symm
  have hno' : '/' ∉ after := by
    rw [← mem_slashWords, ← hnumber, mem_slashWords]
    exact hno
  rw [slashWords_of_not_mem hno, slashWords_of_not_mem hno'] at hnumber
  have hnumberText : trim after = trim number :=
    trim_eq_of_words (fun c hc ↦ dialled_not_whitespace (parseUnsigned_chars hn c hc)) hnumber.symm
  have haddressText : trim before = trim address :=
    trim_eq_of_words (hlib.parse_chars _ _ hip) haddress.symm
  refine Netblock.parse_eq_some.2 ⟨before, after, n, ip, ?_, ?_, ?_, hle, rfl⟩
  · rw [ht]
    exact splitOnce_append hbefore after
  · rw [hnumberText, hn]
  · rw [haddressText, hip]

theorem Netblock.parse_lower (raw : Chars) :
    Netblock.parse lib (lower raw) = Netblock.parse lib raw := by
  have hsplit := splitOnce_map (toLower_eq_iff (x := '/') (by decide)) (trim raw)
  rw [Netblock.parse, Netblock.parse, trim_lower, lower, hsplit]
  rcases splitOnce '/' (trim raw) with _ | ⟨address, number⟩
  · rfl
  · have haddress := hlib.parse_lower (trim address)
    have hnumber := parseUnsigned_lower 255 (trim number)
    rw [← trim_lower] at haddress hnumber
    simp only [Option.map_some, Option.bind_eq_bind, Option.bind_some, Prod.map]
    rw [show number.map Char.toLower = lower number from rfl,
      show address.map Char.toLower = lower address from rfl, haddress, hnumber]

/-- A block that is refused is refused with the white space inside it squeezed. -/
theorem Netblock.parse_canonicalWhitespace (h : Netblock.parse lib raw = none) :
    Netblock.parse lib (canonicalWhitespace raw) = none := by
  rw [← Netblock.parse_lower hlib] at h
  rcases hcw : Netblock.parse lib (canonicalWhitespace raw) with _ | block
  · rfl
  · have hsome := Netblock.parse_of_slashWords hlib (slashWords_canonicalWhitespace raw).symm hcw
    exact absurd (h.symm.trans hsome) (by simp)

end Blocks

/-! ## A library -/

/-- The address whose four numbers stand between the dots of `s`. -/
def readIpv4 (s : Chars) : BitVec 32 :=
  match s.splitOn '.' with
  | [a, b, c, d] =>
    let number := fun part ↦ Nat.ofDigitChars 10 part 0
    BitVec.ofNat 32 (((number a * 256 + number b) * 256 + number c) * 256 + number d)
  | _ => 0

/-- IPv6 addresses as one decimal number after two colons. -/
def plainIpv6 (a : BitVec 128) : Chars := "::".toList ++ decimal a.toNat

/-- Reads an IPv4 address as the standard library does, and an IPv6 address as `plainIpv6` writes
it. -/
def plainParseIp (s : Chars) : Option IpAddr :=
  let s := lower s
  if showIpv4 (readIpv4 s) = s then some (.v4 (readIpv4 s))
  else
    let a := BitVec.ofNat 128 (Nat.ofDigitChars 10 (s.drop 2) 0)
    if plainIpv6 a = s then some (.v6 a) else none

/-- A library whose only letters are the ASCII ones. -/
def Library.plain : Library where
  isAlphabetic := Char.isAlpha
  parseIp := plainParseIp
  showIpv6 := plainIpv6

theorem readIpv4_showIpv4 (a : BitVec 32) : readIpv4 (showIpv4 a) = a := by
  have hdot : ∀ n, '.' ∉ decimal n := fun n hc ↦ absurd (decimal_digits n _ hc) (by decide)
  have hnumber : ∀ n, Nat.ofDigitChars 10 (decimal n) 0 = n := fun n ↦ Nat.ofDigitChars_ten_toDigits
  rw [readIpv4, showIpv4, splitOn_append_cons_self_of_not_mem (hdot _),
    splitOn_append_cons_self_of_not_mem (hdot _),
    splitOn_append_cons_self_of_not_mem (hdot _), splitOn_eq_singleton (hdot _)]
  simp only [hnumber]
  refine BitVec.eq_of_toNat_eq ?_
  rw [BitVec.toNat_ofNat]
  have hlt := a.isLt
  omega

/-- Digits, dots and colons. -/
def IsPlain (s : Chars) : Prop := ∀ c ∈ s, isAsciiDigit c = true ∨ c = '.' ∨ c = ':'

theorem isPlain_showIpv4 (a : BitVec 32) : IsPlain (showIpv4 a) :=
  fun _ hc ↦ (mem_showIpv4 hc).imp_right .inl

theorem isPlain_plainIpv6 (a : BitVec 128) : IsPlain (plainIpv6 a) :=
  forall_mem_append.2 ⟨by simp, fun _ hc ↦ .inl (decimal_digits _ _ hc)⟩

theorem IsPlain.lower_eq (h : IsPlain s) : lower s = s := by
  refine lower_of_all fun c hc ↦ ?_
  rcases h c hc with hdigit | rfl | rfl
  · exact toLower_of_isDigit hdigit
  · rfl
  · rfl

/-- Lower-casing makes digits, dots and colons of themselves only. -/
theorem IsPlain.eq_of_lower (h : IsPlain (lower s)) : lower s = s := by
  refine lower_of_all fun c hc ↦ ?_
  have hplain := h c.toLower (mem_map.2 ⟨c, hc, rfl⟩)
  have hletter : c.toLower.isAlpha = false := by
    rcases hplain with hdigit | hdot | hcolon
    · rw [isAsciiDigit, Char.isDigit, Bool.and_eq_true, decide_eq_true_eq, decide_eq_true_eq] at hdigit
      have hlow : (48 : UInt32) ≤ c.toLower.val := hdigit.1
      have hhigh : c.toLower.val ≤ 57 := hdigit.2
      change (decide ('A'.val ≤ c.toLower.val ∧ c.toLower.val ≤ 'Z'.val) ||
        (decide ('a'.val ≤ c.toLower.val) && decide (c.toLower.val ≤ 'z'.val))) = false
      simp only [Bool.or_eq_false_iff, Bool.and_eq_false_iff, decide_eq_false_iff_not,
        UInt32.le_iff_toNat_le] at *
      have h65 : 'A'.val.toNat = 65 := rfl
      have h97 : 'a'.val.toNat = 97 := rfl
      have h57 : (57 : UInt32).toNat = 57 := rfl
      omega
    · rw [hdot]
      rfl
    · rw [hcolon]
      rfl
  exact ((toLower_eq_iff hletter c).1 rfl).symm

theorem IsPlain.not_whitespace (h : IsPlain (lower s)) : ∀ c ∈ s, Text.isWhitespace c = false := by
  rw [h.eq_of_lower] at h
  intro c hc
  rcases h c hc with hdigit | rfl | rfl
  · exact ipChar_not_whitespace (isIpChar_of_digit hdigit)
  · decide
  · decide

theorem plainParseIp_eq {ip : IpAddr} (h : plainParseIp s = some ip) :
    IsPlain (lower s) ∧ lower s = showIp Library.plain ip := by
  rw [plainParseIp] at h
  simp only at h
  split at h
  · rename_i hshow
    cases h
    exact ⟨hshow ▸ isPlain_showIpv4 _, hshow.symm⟩
  · split at h
    · rename_i hshow
      cases h
      exact ⟨hshow ▸ isPlain_plainIpv6 _, hshow.symm⟩
    · simp at h

theorem plainIpv6_ne_showIpv4 (a : BitVec 128) (b : BitVec 32) : showIpv4 b ≠ plainIpv6 a := by
  intro heq
  have hcolon : ':' ∈ showIpv4 b := by
    rw [heq]
    exact .head _
  rcases mem_showIpv4 hcolon with h | h
  · exact absurd h (by decide)
  · exact absurd h (by decide)

theorem Library.plain_lawful : Library.plain.Lawful where
  parse_showIpv4 a := by
    change plainParseIp _ = _
    rw [plainParseIp, (isPlain_showIpv4 a).lower_eq]
    simp only
    rw [readIpv4_showIpv4, if_pos rfl]
  parse_v4 s a h := by
    obtain ⟨hplain, hlower⟩ := plainParseIp_eq h
    rw [← hplain.eq_of_lower, hlower]
    rfl
  parse_showIpv6 a := by
    have hread : BitVec.ofNat 128 (Nat.ofDigitChars 10 ((plainIpv6 a).drop 2) 0) = a := by
      have hdigits : Nat.ofDigitChars 10 ((plainIpv6 a).drop 2) 0 = a.toNat :=
        Nat.ofDigitChars_ten_toDigits
      rw [hdigits, BitVec.ofNat_toNat, BitVec.setWidth_eq]
    change plainParseIp (plainIpv6 a) = _
    rw [plainParseIp, (isPlain_plainIpv6 a).lower_eq]
    simp only
    rw [if_neg (plainIpv6_ne_showIpv4 a _), hread, if_pos rfl]
  showIpv6_chars a c hc := by
    rcases isPlain_plainIpv6 a c hc with hdigit | rfl | rfl
    · exact isIpChar_of_digit hdigit
    · decide
    · decide
  parse_lower s := by
    change plainParseIp _ = plainParseIp _
    rw [plainParseIp, lower_lower, plainParseIp]
  parse_chars s ip h := (plainParseIp_eq h).1.not_whitespace

end Huntsman.Canonical
