import Huntsman.Canonical.Stable
import Huntsman.Lib.Utf8
import Huntsman.TextNorm.Escape

/-!
# Values cut to what is shown of them

A value of a field is shown up to a bound.  `capValueWithin` trims it and, when its rendering is
wider than the bound, keeps as much of it as leaves room for a marker, which names the length of the
whole and of what is kept.  A character that the report escapes counts at the length of its escape.
A value that was read short of its whole length is marked even when it fits.

Whether a value was read short is told by comparing its declared length with its length after it is
trimmed.  `capValue` declares the length before, so a value with whitespace around it is marked as
though it had been read short (`capsExactly_iff`).
-/

set_option autoImplicit false

namespace Huntsman.Exif

open Canonical (Chars trim decimal)
open Offsets (total within)
open TextNorm (isEscaped escapeDefault)

/-! ## The source -/

def maxMetadataValueBytes : ℕ := 8192

/-- The bytes of a text. -/
def len (s : Chars) : ℕ := total Char.utf8Size s

def renderedLen (c : Char) : ℕ := if isEscaped c then (escapeDefault c).length else c.utf8Size

def renderedWidth (text : Chars) : ℕ := total renderedLen text

def cutMarker (whole kept : ℕ) : Chars :=
  " … (".toList ++ decimal whole ++ " bytes, first ".toList ++ decimal kept ++ " shown)".toList

/-- The room that a marker leaves under a bound. -/
def roomFor (whole bound : ℕ) : ℕ := bound - len (cutMarker whole whole)

/-- What is shown of a value, and whether it is marked. -/
def capValueWithin (raw : Chars) (declared bound : ℕ) : Chars × Bool :=
  let value := trim raw
  let whole := max declared (len value)
  let readShort := len value < whole
  if ¬ readShort ∧ renderedWidth value ≤ bound then (value, false)
  else
    let kept := within renderedLen (roomFor whole bound) 0 value
    (kept ++ cutMarker whole (len kept), true)

def capValueCut (value : Chars) : Chars × Bool :=
  capValueWithin value (len value) maxMetadataValueBytes

def capValue (value : Chars) : Chars := (capValueCut value).1

/-! ## Lengths -/

theorem len_append (s t : Chars) : len (s ++ t) = len s + len t := Offsets.total_append s t

theorem renderedWidth_append (s t : Chars) :
    renderedWidth (s ++ t) = renderedWidth s + renderedWidth t := Offsets.total_append s t

theorem len_trim_le (s : Chars) : len (trim s) ≤ len s := by
  obtain ⟨l, r, hs, -, -⟩ := Pieces.exists_trim Text.isWhitespace s
  have hlen := congrArg len hs
  rw [len_append, len_append] at hlen
  exact hlen ▸ (Nat.le_add_right _ _).trans (Nat.le_add_left _ _)

/-- Trimming takes some bytes when it takes something. -/
theorem trim_eq_of_len {s : Chars} (h : len s ≤ len (trim s)) : trim s = s := by
  obtain ⟨l, r, hs, -, -⟩ := Pieces.exists_trim Text.isWhitespace s
  have hlen := congrArg len hs
  rw [len_append, len_append] at hlen
  have hnil : ∀ t : Chars, len t = 0 → t = [] := by
    intro t ht
    rcases t with _ | ⟨c, t⟩
    · rfl
    · have hsize := c.utf8Size_pos
      rw [len, Offsets.total_cons] at ht
      omega
  have hpart : len (trim s) = len (Pieces.trim Text.isWhitespace s) := rfl
  have hl := hnil l (by omega)
  have hr := hnil r (by omega)
  rw [hl, hr, List.append_nil, List.nil_append] at hs
  exact hs.symm

theorem length_decimal_mono {m n : ℕ} (h : m ≤ n) : (decimal m).length ≤ (decimal n).length := by
  have hlt := (Nat.length_toDigits_le_iff (b := 10) (by decide) Nat.length_toDigits_pos).1
    (le_refl (Nat.toDigits 10 n).length)
  exact (Nat.length_toDigits_le_iff (by decide) Nat.length_toDigits_pos).2 (h.trans_lt hlt)

/-- The longest escape is that of a code point of six digits. -/
theorem renderedLen_le (c : Char) : renderedLen c ≤ 10 := by
  rw [renderedLen]
  split
  · have hdigits : (Nat.toDigits 16 c.toNat).length ≤ 6 := by
      have hmax : c.toNat < 0x110000 := by
        have hvalid := c.valid
        rw [UInt32.isValidChar, Nat.isValidChar] at hvalid
        have hval : c.toNat = c.val.toNat := rfl
        omega
      exact (Nat.length_toDigits_le_iff (by decide) (by decide)).2 (hmax.trans (by decide))
    rw [escapeDefault]
    split_ifs <;> simp
    omega
  · exact c.utf8Size_le_four.trans (by decide)

/-! ## The marker -/

/-- A printable character of ASCII is a byte, and is shown as it is. -/
theorem renderedLen_plain {c : Char} (h : 32 ≤ c.toNat ∧ c.toNat < 127) :
    renderedLen c = 1 ∧ c.utf8Size = 1 := by
  have hsize : c.utf8Size = 1 := Utf8.size_ascii (by omega)
  have hescaped : isEscaped c = false := by
    simp [isEscaped, TextNorm.isControl]
    omega
  rw [renderedLen, hescaped]
  exact ⟨hsize, hsize⟩

theorem renderedWidth_plain {s : Chars} (h : ∀ c ∈ s, 32 ≤ c.toNat ∧ c.toNat < 127) :
    renderedWidth s = s.length :=
  Offsets.total_eq_length fun c hc ↦ (renderedLen_plain (h c hc)).1

theorem len_plain {s : Chars} (h : ∀ c ∈ s, 32 ≤ c.toNat ∧ c.toNat < 127) : len s = s.length :=
  Offsets.total_eq_length fun c hc ↦ (renderedLen_plain (h c hc)).2

theorem decimal_range (n : ℕ) : ∀ c ∈ decimal n, 48 ≤ c.toNat ∧ c.toNat ≤ 57 := by
  intro c hc
  have hdigit := Nat.isDigit_of_mem_toDigits (by decide) (by decide) hc
  rw [Char.isDigit, Bool.and_eq_true, decide_eq_true_eq, decide_eq_true_eq] at hdigit
  exact hdigit

theorem decimal_plain (n : ℕ) : ∀ c ∈ decimal n, 32 ≤ c.toNat ∧ c.toNat < 127 := by
  intro c hc
  have hdigit := decimal_range n c hc
  omega

/-- What a marker measures, shown and in bytes. -/
theorem marker_measure (whole kept : ℕ) :
    renderedWidth (cutMarker whole kept) =
        27 + (decimal whole).length + (decimal kept).length ∧
      len (cutMarker whole kept) = 27 + (decimal whole).length + (decimal kept).length := by
  have hopen : renderedWidth " … (".toList = 6 ∧ len " … (".toList = 6 := by decide
  have hmiddle : ∀ c ∈ " bytes, first ".toList, 32 ≤ c.toNat ∧ c.toNat < 127 := by simp
  have hclose : ∀ c ∈ " shown)".toList, 32 ≤ c.toNat ∧ c.toNat < 127 := by simp
  rw [cutMarker]
  simp only [renderedWidth_append, len_append, hopen.1, hopen.2,
    renderedWidth_plain (decimal_plain _), len_plain (decimal_plain _), renderedWidth_plain hmiddle,
    len_plain hmiddle, renderedWidth_plain hclose, len_plain hclose]
  simp
  omega

theorem marker_le_of_kept_le {whole kept : ℕ} (h : kept ≤ whole) :
    renderedWidth (cutMarker whole kept) ≤ len (cutMarker whole whole) := by
  have hlength := length_decimal_mono h
  rw [(marker_measure whole kept).1, (marker_measure whole whole).2]
  omega

theorem marker_le_of_lt {whole : ℕ} (h : whole < 2 ^ 64) : len (cutMarker whole whole) ≤ 67 := by
  have hlength : (decimal whole).length ≤ 20 :=
    (Nat.length_toDigits_le_iff (by decide) (by decide)).2 (h.trans (by decide))
  rw [(marker_measure whole whole).2]
  omega

/-- A marker is not empty, and neither begins nor ends like what is trimmed off. -/
theorem getLast_cutMarker (s : Chars) (whole kept : ℕ) :
    (s ++ cutMarker whole kept).getLast? = some ')' := by
  rw [cutMarker, ← List.append_assoc, List.getLast?_append]
  rfl

theorem cutMarker_ne_nil {whole kept : ℕ} : cutMarker whole kept ≠ [] := by
  intro hnil
  have hlast := getLast_cutMarker [] whole kept
  rw [hnil] at hlast
  cases hlast

/-- A marker is made of its words and of digits. -/
theorem not_mem_cutMarker {c : Char} {whole kept : ℕ} (hdigit : c.isDigit = false)
    (hc : c ∉ " … ( bytes, first shown)".toList) : c ∉ cutMarker whole kept := by
  have hdecimal : ∀ n, c ∉ decimal n := fun n hmem ↦
    absurd (Nat.isDigit_of_mem_toDigits (by decide) (by decide) hmem) (by simp [hdigit])
  have hopen : " … (".toList ⊆ " … ( bytes, first shown)".toList := by simp
  have hmiddle : " bytes, first ".toList ⊆ " … ( bytes, first shown)".toList := by simp
  have hclose : " shown)".toList ⊆ " … ( bytes, first shown)".toList := by simp
  simp only [cutMarker, List.mem_append, not_or]
  exact ⟨⟨⟨⟨fun h ↦ hc (hopen h), hdecimal _⟩, fun h ↦ hc (hmiddle h)⟩, hdecimal _⟩,
    fun h ↦ hc (hclose h)⟩

/-! ## What is kept -/

variable {raw : Chars} {declared bound : ℕ}

/-- What is shown of a value that is marked. -/
def keptOf (raw : Chars) (declared bound : ℕ) : Chars :=
  within renderedLen (roomFor (max declared (len (trim raw))) bound) 0 (trim raw)

theorem keptOf_isPrefix : keptOf raw declared bound <+: trim raw := Offsets.within_isPrefix _ _ _ _

theorem keptOf_eq_iff : keptOf raw declared bound = trim raw ↔
    renderedWidth (trim raw) ≤ roomFor (max declared (len (trim raw))) bound := by
  rw [keptOf, Offsets.within_eq_self_iff (Nat.zero_le _), Nat.zero_add]
  rfl

theorem len_mono {s t : Chars} (h : s <+: t) : len s ≤ len t := by
  obtain ⟨rest, rfl⟩ := h
  rw [len_append]
  exact Nat.le_add_right _ _

/-- The part of a value that is shown. -/
def shown (raw : Chars) (declared bound : ℕ) : Chars :=
  if (capValueWithin raw declared bound).2 then keptOf raw declared bound else trim raw

/-- A value is left as it is when it was not read short and fits. -/
theorem capValueWithin_whole (hdeclared : declared ≤ len (trim raw))
    (hfits : renderedWidth (trim raw) ≤ bound) :
    capValueWithin raw declared bound = (trim raw, false) := by
  rw [capValueWithin, Nat.max_eq_right hdeclared]
  exact if_pos ⟨lt_irrefl _, hfits⟩

/-- And otherwise it is marked. -/
theorem capValueWithin_marked (h : len (trim raw) < declared ∨ bound < renderedWidth (trim raw)) :
    capValueWithin raw declared bound =
      (keptOf raw declared bound ++
        cutMarker (max declared (len (trim raw))) (len (keptOf raw declared bound)), true) := by
  rw [capValueWithin]
  refine if_neg ?_
  rintro ⟨hshort, hfits⟩
  rcases h with h | h
  · exact hshort (h.trans_le (le_max_left _ _))
  · exact absurd hfits (Nat.not_le_of_lt h)

/-- A value that is too wide is cut, and its marker names both lengths. -/
theorem capValueWithin_cut (h : bound < renderedWidth (trim raw)) :
    ∃ kept rest, trim raw = kept ++ rest ∧ rest ≠ [] ∧ capValueWithin raw declared bound =
      (kept ++ cutMarker (max declared (len (trim raw))) (len kept), true) := by
  have hprefix : keptOf raw declared bound <+: trim raw := keptOf_isPrefix
  obtain ⟨rest, hrest⟩ := hprefix
  refine ⟨_, rest, hrest.symm, fun hnil ↦ ?_, capValueWithin_marked (.inr h)⟩
  rw [hnil, List.append_nil, keptOf_eq_iff] at hrest
  exact absurd (hrest.trans (Nat.sub_le _ _)) (Nat.not_le_of_lt h)

/-- What is shown is no wider than a bound that holds its marker. -/
theorem renderedWidth_capValueWithin_le (hbound : len (cutMarker (max declared (len (trim raw)))
      (max declared (len (trim raw)))) ≤ bound) :
    renderedWidth (capValueWithin raw declared bound).1 ≤ bound := by
  by_cases hmarked : len (trim raw) < declared ∨ bound < renderedWidth (trim raw)
  · rw [capValueWithin_marked hmarked]
    have hwidth : 0 + renderedWidth (keptOf raw declared bound) ≤
        roomFor (max declared (len (trim raw))) bound :=
      Offsets.total_within_le (Nat.zero_le _) _
    have hlen : len (keptOf raw declared bound) ≤ max declared (len (trim raw)) :=
      (len_mono keptOf_isPrefix).trans (le_max_right _ _)
    have hmarker := marker_le_of_kept_le hlen
    rw [roomFor] at hwidth
    rw [renderedWidth_append]
    omega
  · obtain ⟨hdeclared, hfits⟩ := not_or.1 hmarked
    rw [capValueWithin_whole (Nat.not_lt.1 hdeclared) (Nat.not_lt.1 hfits)]
    exact Nat.not_lt.1 hfits

/-! ## What is meant -/

/-- A value is marked exactly when not all of it is shown or it was read short. -/
def MarksExactly (raw : Chars) (declared bound : ℕ) : Prop :=
  (capValueWithin raw declared bound).2 = true ↔
    shown raw declared bound ≠ trim raw ∨ len raw < declared

/-- What is meant by cutting a value for display. -/
structure CapsExactly (v : Chars) : Prop where
  whole : renderedWidth (trim v) ≤ maxMetadataValueBytes → capValue v = trim v
  cut : maxMetadataValueBytes < renderedWidth (trim v) → ∃ kept rest, trim v = kept ++ rest ∧
    rest ≠ [] ∧ capValue v = kept ++ cutMarker (len v) (len kept) ∧
      renderedWidth (capValue v) ≤ maxMetadataValueBytes
  marks : ∀ declared bound, len (cutMarker (max declared (len (trim v)))
    (max declared (len (trim v)))) ≤ bound → MarksExactly v declared bound
  idempotent : capValue (capValue v) = capValue v

/-- A value is marked for nothing when the length declared for it is between its lengths trimmed and
not trimmed, and all of it is shown. -/
theorem marksExactly_iff : MarksExactly raw declared bound ↔
    ¬ (len (trim raw) < declared ∧ declared ≤ len raw ∧
      renderedWidth (trim raw) ≤ roomFor declared bound) := by
  have htrim := len_trim_le raw
  by_cases hmarked : len (trim raw) < declared ∨ bound < renderedWidth (trim raw)
  · rw [MarksExactly, shown, capValueWithin_marked hmarked, if_pos rfl, Ne, keptOf_eq_iff]
    simp only [true_iff]
    rcases Nat.lt_or_ge (len (trim raw)) declared with hshort | hshort
    · rw [Nat.max_eq_left hshort.le]
      omega
    · rw [Nat.max_eq_right hshort]
      have hroom : roomFor (len (trim raw)) bound ≤ bound := Nat.sub_le _ _
      omega
  · obtain ⟨hdeclared, hfits⟩ := not_or.1 hmarked
    rw [MarksExactly, shown, capValueWithin_whole (Nat.not_lt.1 hdeclared) (Nat.not_lt.1 hfits)]
    simp
    omega

variable {v : Chars}

theorem capValue_whole (htrim : trim v = v) (hfits : renderedWidth v ≤ maxMetadataValueBytes) :
    capValue v = v := by
  rw [capValue, capValueCut,
    capValueWithin_whole (by rw [htrim]) (by rwa [htrim])]
  exact htrim

/-- The marker of a text leaves room under the bound. -/
theorem marker_le_bound (hlen : len v < 2 ^ 64) :
    len (cutMarker (max (len v) (len (trim v))) (max (len v) (len (trim v)))) ≤
      maxMetadataValueBytes := by
  rw [Nat.max_eq_left (len_trim_le v)]
  exact (marker_le_of_lt hlen).trans (by decide)

theorem capValue_cut (hlen : len v < 2 ^ 64)
    (h : maxMetadataValueBytes < renderedWidth (trim v)) : ∃ kept rest, trim v = kept ++ rest ∧
      rest ≠ [] ∧ capValue v = kept ++ cutMarker (len v) (len kept) ∧
        renderedWidth (capValue v) ≤ maxMetadataValueBytes := by
  obtain ⟨kept, rest, hsplit, hrest, hvalue⟩ := capValueWithin_cut h
  refine ⟨kept, rest, hsplit, hrest, ?_, renderedWidth_capValueWithin_le (marker_le_bound hlen)⟩
  rw [capValue, capValueCut, hvalue, Nat.max_eq_left (len_trim_le v)]

/-- What is shown of a value that is marked is not trimmed, and fits. -/
theorem capValue_marked (hlen : len v < 2 ^ 64) (hne : trim v ≠ [])
    (h : len (trim v) < len v ∨ maxMetadataValueBytes < renderedWidth (trim v)) :
    trim (capValue v) = capValue v ∧ renderedWidth (capValue v) ≤ maxMetadataValueBytes := by
  have hwhole : max (len v) (len (trim v)) = len v := Nat.max_eq_left (len_trim_le v)
  have hmarker := marker_le_of_lt hlen
  refine ⟨?_, renderedWidth_capValueWithin_le (marker_le_bound hlen)⟩
  rw [capValue, capValueCut, capValueWithin_marked h]
  refine Pieces.Trimmed.trim_eq ⟨?_, ?_⟩
  · -- The first character of the value is kept, and it is no whitespace.
    obtain ⟨c, rest, hvalue⟩ := List.exists_cons_of_ne_nil hne
    have hkept : keptOf v (len v) maxMetadataValueBytes ≠ [] := by
      rw [keptOf, hvalue]
      refine Offsets.within_ne_nil ?_ _
      have hfirst := renderedLen_le c
      rw [roomFor, ← hvalue, hwhole, maxMetadataValueBytes]
      omega
    obtain ⟨d, more, hmore⟩ := List.exists_cons_of_ne_nil hkept
    have hprefix : keptOf v (len v) maxMetadataValueBytes <+: trim v := keptOf_isPrefix
    obtain ⟨after, hafter⟩ := hprefix
    intro a ha
    rw [hmore, List.cons_append, List.head?_cons, Option.mem_some_iff] at ha
    refine (Pieces.trimmed_trim Text.isWhitespace v).1 a ?_
    change a ∈ (trim v).head?
    rw [← hafter, hmore, List.cons_append, ha]
    rfl
  · intro a ha
    rw [getLast_cutMarker, Option.mem_some_iff] at ha
    rw [← ha]
    decide

/-- Only a value of nothing but whitespace is changed again. -/
theorem idempotent_iff (hlen : len v < 2 ^ 64) :
    capValue (capValue v) = capValue v ↔ (trim v = [] → v = []) := by
  constructor
  · -- What is shown of whitespace is a marker, and it begins with a space.
    intro hsame hnil
    by_contra hne
    have hshort : len (trim v) < len v := by
      refine lt_of_le_of_ne (len_trim_le v) fun hlen' ↦ hne ?_
      rw [← trim_eq_of_len hlen'.ge, hnil]
    have hvalue : capValue v = cutMarker (len v) 0 := by
      rw [capValue, capValueCut, capValueWithin_marked (.inl hshort),
        Nat.max_eq_left hshort.le, keptOf, hnil]
      rfl
    have hmarker : len (cutMarker (len v) 0) ≤ 67 :=
      (marker_measure _ _).2 ▸ (marker_measure _ _).1 ▸
        (marker_le_of_kept_le (Nat.zero_le _)).trans (marker_le_of_lt hlen)
    have hspace : trim (cutMarker (len v) 0) ≠ cutMarker (len v) 0 := by
      intro htrim
      have hhead := (Pieces.trim_eq_self_iff.1 htrim).1 ' ' rfl
      exact absurd hhead (by decide)
    have hmore : trim (cutMarker (len v) 0) ≠ [] := by
      intro hnone
      have hclose : ')' ∈ trim (cutMarker (len v) 0) :=
        Pieces.mem_trim_of_mem (List.mem_of_getLast? (getLast_cutMarker [] _ _)) (by decide)
      rw [hnone] at hclose
      cases hclose
    have hagain := capValue_marked (v := cutMarker (len v) 0) (hmarker.trans_lt (by decide)) hmore
      (.inl (lt_of_le_of_ne (len_trim_le _) fun hlen' ↦ hspace (trim_eq_of_len hlen'.ge)))
    rw [hvalue] at hsame
    rw [hsame] at hagain
    exact hspace hagain.1
  · intro hblank
    by_cases hnil : trim v = []
    · obtain rfl := hblank hnil
      rfl
    · by_cases hmarked : len (trim v) < len v ∨ maxMetadataValueBytes < renderedWidth (trim v)
      · obtain ⟨htrim, hwide⟩ := capValue_marked hlen hnil hmarked
        exact capValue_whole htrim hwide
      · obtain ⟨hlen', hfits⟩ := not_or.1 hmarked
        have htrim := trim_eq_of_len (Nat.not_lt.1 hlen')
        rw [htrim] at hfits
        rw [capValue_whole htrim (Nat.not_lt.1 hfits), capValue_whole htrim (Nat.not_lt.1 hfits)]

/-- **A value is cut as is meant exactly when it has no whitespace at its ends**; what goes wrong
otherwise is that a value all of which is shown is marked, and that the marker of a value of
whitespace is marked again. -/
theorem capsExactly_iff (v : {v : Chars // len v < 2 ^ 64}) :
    (CapsExactly v.1 ↔ trim v.1 = v.1) ∧
      (∀ declared bound, MarksExactly v.1 declared bound ↔
        ¬ (len (trim v.1) < declared ∧ declared ≤ len v.1 ∧
          renderedWidth (trim v.1) ≤ roomFor declared bound)) ∧
      (capValue (capValue v.1) = capValue v.1 ↔ (trim v.1 = [] → v.1 = [])) := by
  refine ⟨⟨fun h ↦ ?_, fun htrim ↦ ?_⟩, fun declared bound ↦ marksExactly_iff, idempotent_iff v.2⟩
  · by_contra hne
    have hshort : len (trim v.1) < len v.1 :=
      lt_of_le_of_ne (len_trim_le v.1) fun hlen ↦ hne (trim_eq_of_len hlen.ge)
    have hmax : max (len v.1) (len (trim v.1)) = len v.1 := Nat.max_eq_left hshort.le
    -- A bound that leaves room for all of the value shows that nothing was cut.
    refine marksExactly_iff.1 (h.marks (len v.1)
      (renderedWidth (trim v.1) + len (cutMarker (len v.1) (len v.1))) ?_) ⟨hshort, le_refl _, ?_⟩
    · rw [hmax]
      exact Nat.le_add_left _ _
    · rw [roomFor, Nat.add_sub_cancel]
  · exact {
      whole := fun hfits ↦ by
        rw [htrim] at hfits ⊢
        exact capValue_whole htrim hfits
      cut := capValue_cut v.2
      marks := fun declared bound _ ↦ marksExactly_iff.2 (by rw [htrim]; omega)
      idempotent := (idempotent_iff v.2).2 fun hnil ↦ htrim.symm.trans hnil }

/-- A letter with a space after it is shown whole, and is marked. -/
theorem not_capsExactly : trim "a ".toList = "a".toList ∧
    capValue "a ".toList = "a … (2 bytes, first 1 shown)".toList ∧ ¬ CapsExactly "a ".toList := by
  refine ⟨by decide, by decide, fun h ↦ ?_⟩
  have hsame := h.whole (by decide)
  exact absurd hsame (by decide)

end Huntsman.Exif
