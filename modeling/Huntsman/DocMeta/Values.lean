import Huntsman.Exif.Cap
import Mathlib.Algebra.Order.BigOperators.Group.List

/-!
# The values of one key

A field of a document's metadata holds the distinct values of its key, in the order they were given
and joined by `; `, as long as they fit a bound.  A first value that is too wide is cut for display,
and the values that do not fit are counted in a marker that closes the field.

A later value that is too wide is cut for display as well before it is asked whether it fits.  The
marker of a cut value may be shorter than the room that was left for it, so a short field may take a
cut value and show it as though it were one of its own (`told_iff`).
-/

set_option autoImplicit false

namespace Huntsman.DocMeta

open List

open Canonical (Chars trim decimal)
open Exif (len renderedWidth cutMarker capValueWithin maxMetadataValueBytes)

/-! ## The source -/

def valuesMarkerReserve : ℕ := 52

def valueBound : ℕ := maxMetadataValueBytes - valuesMarkerReserve

def valuesMarker (count : ℕ) : Chars :=
  " … (".toList ++ decimal count ++ " more value(s) not kept)".toList

/-- What is shown of a value. -/
def capped (value : Chars) : Chars := (capValueWithin value 0 valueBound).1

/-- The text of a key, whether it takes no more, and how many of its values are not kept. -/
structure Field where
  text : Chars
  full : Bool
  more : ℕ

/-- The field of a key's first value. -/
def Field.first (value : Chars) : Field := ⟨capped value, (capValueWithin value 0 valueBound).2, 0⟩

/-- A further value of the key. -/
def Field.add (f : Field) (value : Chars) : Field :=
  if f.full = true ∨ valueBound < renderedWidth f.text + 2 + renderedWidth (capped value) then
    ⟨f.text, true, f.more + 1⟩
  else { f with text := f.text ++ "; ".toList ++ capped value }

/-- The marker of values that are not kept, if there are any. -/
def closing (count : ℕ) : Chars := if count = 0 then [] else valuesMarker count

/-- The field of a key that was given these values. -/
def fieldOf (first : Chars) (rest : List Chars) : Field := rest.foldl Field.add (Field.first first)

/-! ## What is meant -/

/-- The values joined by `; `. -/
def joined (first : Chars) (rest : List Chars) : Chars := "; ".toList.intercalate (first :: rest)

/-- What a field's text tells of the values of its key, and how many are counted in it. -/
inductive Told (first : Chars) (rest : List Chars) (text : Chars) (count : ℕ) : Prop
  | whole (later counted : List Chars) (split : rest = later ++ counted)
      (count_eq : count = counted.length)
      (text_eq : text = joined first later ++ closing count)
  | cut (kept beyond : Chars) (split : first = kept ++ beyond) (ne_nil : beyond ≠ [])
      (count_eq : count = rest.length)
      (text_eq : text = kept ++ cutMarker (len first) (len kept) ++ closing count)

/-- No value too wide for a field fits, cut, after the values before it. -/
def KeepsWhole (first : Chars) (rest : List Chars) : Prop :=
  ∀ before v after, rest = before ++ v :: after → valueBound < renderedWidth v →
    renderedWidth (joined first before) ≤ valueBound →
      valueBound < renderedWidth (joined first before) + 2 + renderedWidth (capped v)

/-- A value as it is recorded: trimmed, not empty, and a text. -/
structure Proper (v : Chars) : Prop where
  trimmed : trim v = v
  ne_nil : v ≠ []
  len_lt : len v < 2 ^ 64

/-! ## What is shown of a value -/

variable {v : Chars}

theorem capped_whole (h : Proper v) (hfits : renderedWidth v ≤ valueBound) :
    capValueWithin v 0 valueBound = (v, false) := by
  rw [Exif.capValueWithin_whole (Nat.zero_le _) (by rwa [h.trimmed]), h.trimmed]

theorem marker_le_valueBound (h : Proper v) :
    len (cutMarker (max 0 (len (trim v))) (max 0 (len (trim v)))) ≤ valueBound := by
  rw [Nat.zero_max, h.trimmed]
  exact (Exif.marker_le_of_lt h.len_lt).trans (by decide)

theorem capped_le (h : Proper v) : renderedWidth (capped v) ≤ valueBound :=
  Exif.renderedWidth_capValueWithin_le (marker_le_valueBound h)

theorem capped_cut (h : Proper v) (hwide : valueBound < renderedWidth v) :
    ∃ kept beyond, v = kept ++ beyond ∧ beyond ≠ [] ∧
      capValueWithin v 0 valueBound = (kept ++ cutMarker (len v) (len kept), true) := by
  obtain ⟨kept, beyond, hsplit, hbeyond, hvalue⟩ :=
    Exif.capValueWithin_cut (show valueBound < renderedWidth (trim v) by rwa [h.trimmed])
  rw [Nat.zero_max, h.trimmed] at hvalue
  exact ⟨kept, beyond, h.trimmed ▸ hsplit, hbeyond, hvalue⟩

/-- What is shown of a value is not empty, no wider than it, and has no more semicolons. -/
theorem capped_spec (h : Proper v) : capped v ≠ [] ∧ (valueBound < renderedWidth v ∨ capped v = v) ∧
    (capped v).count ';' ≤ v.count ';' := by
  rcases Nat.lt_or_ge valueBound (renderedWidth v) with hwide | hfits
  · obtain ⟨kept, beyond, hsplit, -, hvalue⟩ := capped_cut h hwide
    have hplain : (cutMarker (len v) (len kept)).count ';' = 0 :=
      count_eq_zero.2 (Exif.not_mem_cutMarker (by decide) (by decide))
    rw [capped, hvalue]
    refine ⟨?_, .inl hwide, ?_⟩
    · exact append_ne_nil_of_right_ne_nil _ Exif.cutMarker_ne_nil
    · rw [count_append, hplain, hsplit, count_append]
      omega
  · rw [capped, capped_whole h hfits]
    exact ⟨h.ne_nil, .inr rfl, le_refl _⟩

/-! ## Texts joined -/

theorem joined_append (first : Chars) (rest more : List Chars) :
    joined first (rest ++ more) = joined first rest ++ more.flatMap ("; ".toList ++ ·) := by
  rw [joined, joined, Pieces.intercalate_cons_eq_append_flatMap,
    Pieces.intercalate_cons_eq_append_flatMap, flatMap_append, append_assoc]

theorem joined_concat (first : Chars) (rest : List Chars) (v : Chars) :
    joined first (rest ++ [v]) = joined first rest ++ "; ".toList ++ v := by
  rw [joined_append, flatMap_singleton, append_assoc]

theorem renderedWidth_joined_concat (first : Chars) (rest : List Chars) (v : Chars) :
    renderedWidth (joined first (rest ++ [v])) =
      renderedWidth (joined first rest) + 2 + renderedWidth v := by
  have hsep : renderedWidth "; ".toList = 2 := by decide
  rw [joined_concat, Exif.renderedWidth_append, Exif.renderedWidth_append, hsep]

theorem renderedWidth_joined_le (first : Chars) (rest more : List Chars) :
    renderedWidth (joined first rest) ≤ renderedWidth (joined first (rest ++ more)) := by
  rw [joined_append, Exif.renderedWidth_append]
  exact Nat.le_add_right _ _

theorem count_joined (first : Chars) (rest : List Chars) : (joined first rest).count ';' =
    ((first :: rest).map (List.count ';')).sum + rest.length := by
  induction rest using reverseRecOn with
  | nil => simp [joined, intercalate_singleton]
  | append_singleton rest v ih =>
    have hsep : "; ".toList.count ';' = 1 := by decide
    rw [joined_concat, count_append, count_append, hsep, ih]
    simp only [map_cons, map_append, sum_cons, sum_append, map_nil,
      sum_nil, length_append, length_singleton]
    omega

theorem renderedWidth_lt_joined (first : Chars) {rest : List Chars} (h : v ∈ rest) :
    renderedWidth v < renderedWidth (joined first rest) := by
  obtain ⟨before, after, rfl⟩ := append_of_mem h
  have hle := renderedWidth_joined_le first (before ++ [v]) after
  rw [append_assoc, singleton_append, renderedWidth_joined_concat] at hle
  omega

/-! ## The closing marker -/

theorem closing_spec (count : ℕ) : (closing count).count ';' = 0 ∧
    renderedWidth (closing count) = if count = 0 then 0 else 30 + (decimal count).length := by
  rw [closing]
  by_cases hcount : count = 0
  · rw [if_pos hcount, if_pos hcount]
    exact ⟨rfl, rfl⟩
  · have hopen : " … (".toList.count ';' = 0 ∧ renderedWidth " … (".toList = 6 := by decide
    have hclose : " more value(s) not kept)".toList.count ';' = 0 ∧
        renderedWidth " more value(s) not kept)".toList = 24 := by decide
    have hdigits : (decimal count).count ';' = 0 := by
      refine count_eq_zero.2 fun hmem ↦ ?_
      exact absurd (Nat.isDigit_of_mem_toDigits (by decide) (by decide) hmem) (by decide)
    rw [if_neg hcount, if_neg hcount, valuesMarker]
    simp only [count_append, Exif.renderedWidth_append, hopen, hclose, hdigits,
      Exif.renderedWidth_plain (Exif.decimal_plain _)]
    exact ⟨trivial, by omega⟩

theorem closing_mono {m n : ℕ} (h : m ≤ n) :
    renderedWidth (closing m) ≤ renderedWidth (closing n) := by
  have hlength := Exif.length_decimal_mono h
  rw [(closing_spec m).2, (closing_spec n).2]
  split_ifs <;> omega

theorem closing_le {count : ℕ} (h : count < 2 ^ 64) :
    renderedWidth (closing count) ≤ valuesMarkerReserve := by
  have hlength : (decimal count).length ≤ 20 :=
    (Nat.length_toDigits_le_iff (by decide) (by decide)).2 (h.trans (by decide))
  rw [(closing_spec count).2, valuesMarkerReserve]
  split_ifs <;> omega

/-! ## What a field shows -/

/-- A field shows some of the values after its first, and counts the rest. -/
structure Shows (first : Chars) (rest : List Chars) (f : Field) (later counted : List Chars) :
    Prop where
  split : rest = later ++ counted
  text : f.text = joined (capped first) (later.map capped)
  more : f.more = counted.length
  fits : renderedWidth f.text ≤ valueBound
  full : f.full = true ↔ counted ≠ [] ∨ valueBound < renderedWidth first
  alone : valueBound < renderedWidth first → later = []
  next : renderedWidth first ≤ valueBound → ∀ w ∈ counted.head?,
    valueBound < renderedWidth f.text + 2 + renderedWidth (capped w)

variable {first : Chars} {rest later counted : List Chars} {f : Field}

theorem shows_first (h : Proper v) : Shows v [] (Field.first v) [] [] where
  split := rfl
  text := by rw [map_nil, joined, intercalate_singleton, Field.first]
  more := rfl
  fits := capped_le h
  full := by
    rcases Nat.lt_or_ge valueBound (renderedWidth v) with hwide | hfits
    · obtain ⟨kept, beyond, -, -, hvalue⟩ := capped_cut h hwide
      rw [Field.first, hvalue]
      exact iff_of_true rfl (.inr hwide)
    · rw [Field.first, capped_whole h hfits]
      exact iff_of_false Bool.false_ne_true (by simp [hfits])
  alone := fun _ ↦ rfl
  next := fun _ _ hw ↦ absurd hw (by simp)

theorem Shows.add (h : Shows first rest f later counted) (v : Chars) :
    ∃ later' counted', Shows first (rest ++ [v]) (f.add v) later' counted' := by
  by_cases hmore : f.full = true ∨
      valueBound < renderedWidth f.text + 2 + renderedWidth (capped v)
  · refine ⟨later, counted ++ [v], ?_⟩
    rw [Field.add, if_pos hmore]
    exact {
      split := by rw [h.split, append_assoc]
      text := h.text
      more := by rw [h.more, length_append, length_singleton]
      fits := h.fits
      full := iff_of_true rfl (.inl (append_ne_nil_of_right_ne_nil _ (cons_ne_nil _ _)))
      alone := h.alone
      next := fun hfirst w hw ↦ by
        rcases counted with _ | ⟨u, counted⟩
        · obtain rfl : v = w := Option.some.inj hw
          exact hmore.resolve_left fun hfull ↦
            (h.full.1 hfull).elim (absurd rfl) (Nat.not_lt.2 hfirst)
        · exact h.next hfirst w hw }
  · obtain ⟨hfull, hfits⟩ := not_or.1 hmore
    obtain ⟨hcounted, hfirst⟩ := not_or.1 (mt h.full.2 hfull)
    have hnone : counted = [] := not_not.1 hcounted
    refine ⟨later ++ [v], [], ?_⟩
    have htext : f.text ++ "; ".toList ++ capped v =
        joined (capped first) ((later ++ [v]).map capped) := by
      rw [h.text, map_append, map_singleton, joined_concat]
    rw [Field.add, if_neg hmore]
    exact {
      split := by rw [h.split, hnone, append_nil, append_nil]
      text := htext
      more := by rw [h.more, hnone]
      fits := by
        rw [htext, map_append, map_singleton, renderedWidth_joined_concat, ← h.text]
        exact Nat.not_lt.1 hfits
      full := iff_of_false hfull (by simpa using hfirst)
      alone := fun hwide ↦ absurd hwide hfirst
      next := fun _ _ hw ↦ absurd hw (by simp) }

theorem exists_shows (hfirst : Proper first) (rest : List Chars) :
    ∃ later counted, Shows first rest (fieldOf first rest) later counted := by
  induction rest using reverseRecOn with
  | nil => exact ⟨[], [], shows_first hfirst⟩
  | append_singleton rest v ih =>
    obtain ⟨later, counted, h⟩ := ih
    rw [fieldOf, foldl_append, foldl_cons, foldl_nil, ← fieldOf]
    exact h.add v

theorem capped_of_le (h : Proper v) (hfits : renderedWidth v ≤ valueBound) : capped v = v :=
  (capped_spec h).2.1.resolve_left (Nat.not_lt.2 hfits)

theorem map_capped {vs : List Chars} (h : ∀ v ∈ vs, Proper v)
    (hfits : ∀ v ∈ vs, renderedWidth v ≤ valueBound) : vs.map capped = vs := by
  have hsame : ∀ v ∈ vs, capped v = id v := fun v hv ↦ capped_of_le (h v hv) (hfits v hv)
  rw [map_congr_left hsame, map_id]

/-- What is shown, joined, measures no more when more of it is cut off. -/
theorem Shows.width_shown_le (h : Shows first rest f later counted) {before more : List Chars}
    (hlater : later = before ++ more) :
    renderedWidth (joined (capped first) (before.map capped)) ≤ valueBound := by
  have hfits := h.fits
  rw [h.text, hlater, map_append] at hfits
  exact (renderedWidth_joined_le _ _ _).trans hfits

/-- When no later value is cut, all that is shown is whole. -/
theorem Shows.later_fits (h : Shows first rest f later counted) (hkeeps : KeepsWhole first rest)
    (hfirst : Proper first) (hrest : ∀ v ∈ rest, Proper v)
    (hfits : renderedWidth first ≤ valueBound) : ∀ v ∈ later, renderedWidth v ≤ valueBound := by
  have hprefix : ∀ before more, later = before ++ more →
      ∀ v ∈ before, renderedWidth v ≤ valueBound := by
    intro before
    induction before using reverseRecOn with
    | nil => exact fun _ _ v hv ↦ absurd hv not_mem_nil
    | append_singleton before w ih =>
      intro more hlater v hv
      rw [append_assoc] at hlater
      have hbefore := ih _ hlater
      rcases mem_append.1 hv with hv | hv
      · exact hbefore v hv
      · rw [mem_singleton.1 hv]
        by_contra hwide
        have hsplit : rest = before ++ w :: (more ++ counted) := by
          rw [h.split, hlater, append_assoc, append_assoc]
          rfl
        have hwhole : before.map capped = before :=
          map_capped (fun u hu ↦ hrest u (hsplit ▸ mem_append_left _ hu)) hbefore
        have hshown := h.width_shown_le (hlater.trans (append_assoc _ _ _).symm)
        rw [map_append, map_singleton, hwhole, capped_of_le hfirst hfits,
          renderedWidth_joined_concat] at hshown
        have hnot := hkeeps before w _ hsplit (Nat.not_le.1 hwide) (by omega)
        exact absurd hshown (Nat.not_le_of_lt hnot)
  exact hprefix later [] (append_nil _).symm

/-- When no later value is cut, a field tells of each value, and counts those that it counts. -/
theorem Shows.told (h : Shows first rest f later counted) (hkeeps : KeepsWhole first rest)
    (hfirst : Proper first) (hrest : ∀ v ∈ rest, Proper v) :
    Told first rest (f.text ++ closing f.more) f.more := by
  rcases Nat.lt_or_ge valueBound (renderedWidth first) with hwide | hfits
  · obtain ⟨kept, beyond, hsplit, hbeyond, hvalue⟩ := capped_cut hfirst hwide
    have hnone := h.alone hwide
    refine .cut kept beyond hsplit hbeyond ?_ ?_
    · rw [h.more, h.split, hnone, nil_append]
    · rw [h.text, hnone, map_nil, joined, intercalate_singleton, capped, hvalue]
  · refine .whole later counted h.split h.more ?_
    rw [h.text, capped_of_le hfirst hfits,
      map_capped (fun v hv ↦ hrest v (h.split ▸ mem_append_left _ hv))
        (h.later_fits hkeeps hfirst hrest hfits)]

/-- What is shown of texts has no more semicolons than they have. -/
theorem count_capped_le {vs : List Chars} (h : ∀ v ∈ vs, Proper v) :
    ((vs.map capped).map (List.count ';')).sum ≤ (vs.map (List.count ';')).sum := by
  rw [map_map]
  exact sum_le_sum fun v hv ↦ (capped_spec (h v hv)).2.2

/-- A value that is too wide and is shown after the first is not told of: not all of it is there,
and it is not counted. -/
theorem Shows.not_told (h : Shows first rest f later counted) (hfirst : Proper first)
    (hrest : ∀ v ∈ rest, Proper v) (hv : v ∈ later) (hwide : valueBound < renderedWidth v)
    {count : ℕ} : ¬ Told first rest (f.text ++ closing f.more) count := by
  have hfits : renderedWidth first ≤ valueBound := by
    by_contra hfirstWide
    rw [h.alone (Nat.not_le.1 hfirstWide)] at hv
    cases hv
  have hlater : ∀ w ∈ later, Proper w := fun w hw ↦
    hrest w (h.split ▸ List.mem_append_left _ hw)
  have htext : f.text = joined first (later.map capped) := by
    rw [h.text, capped_of_le hfirst hfits]
  have hcount : (f.text ++ closing f.more).count ';' =
      first.count ';' + ((later.map capped).map (List.count ';')).sum + later.length := by
    rw [List.count_append, (closing_spec _).1, htext, count_joined, List.map_cons, List.sum_cons,
      List.length_map, Nat.add_zero]
  rintro (⟨later', counted', hsplit, hcount', htext'⟩ | ⟨kept, beyond, hsplit, -, -, htext'⟩)
  · have hcounts := congrArg (List.count ';') htext'
    rw [hcount, List.count_append, (closing_spec _).1, count_joined, List.map_cons, List.sum_cons,
      Nat.add_zero] at hcounts
    rw [h.split] at hsplit
    rcases Nat.lt_trichotomy later.length later'.length with hlt | heq | hgt
    · -- A text that tells of more values has more semicolons.
      obtain ⟨more, rfl⟩ := List.prefix_of_prefix_length_le (List.prefix_append later counted)
        (hsplit ▸ List.prefix_append later' counted') hlt.le
      have hle := count_capped_le hlater
      rw [List.map_append, List.sum_append, List.length_append] at hcounts
      rw [List.length_append] at hlt
      omega
    · -- With the same values, they are the whole ones that would have to be there.
      obtain ⟨rfl, rfl⟩ := List.append_inj hsplit heq
      rw [hcount', h.more] at htext'
      have hsame := List.append_cancel_right htext'
      have hlt := renderedWidth_lt_joined first hv
      have hle := h.fits
      rw [hsame] at hle
      omega
    · obtain ⟨more, rfl⟩ := List.prefix_of_prefix_length_le (hsplit ▸ List.prefix_append later' _)
        (List.prefix_append later counted) hgt.le
      by_cases hsome : ∃ w ∈ later', valueBound < renderedWidth w
      · -- A value that is too wide does not fit with the marker that would have to be there.
        obtain ⟨w, hw, hwWide⟩ := hsome
        have hwidths := congrArg renderedWidth htext'
        rw [Exif.renderedWidth_append, Exif.renderedWidth_append] at hwidths
        have hlt := renderedWidth_lt_joined first hw
        have hle := h.fits
        have hmarkers : renderedWidth (closing f.more) ≤ renderedWidth (closing count) := by
          refine closing_mono ?_
          have hlengths := congrArg List.length hsplit
          simp only [List.length_append] at hlengths
          rw [h.more, hcount']
          omega
        omega
      · -- And otherwise the text that tells of fewer values has fewer semicolons.
        have hall : ∀ w ∈ later', renderedWidth w ≤ valueBound := fun w hw ↦
          Nat.not_lt.1 fun hwWide ↦ hsome ⟨w, hw, hwWide⟩
        rw [List.map_append, List.map_append, List.sum_append,
          map_capped (fun w hw ↦ hlater w (List.mem_append_left _ hw)) hall,
          List.length_append] at hcounts
        rw [List.length_append] at hgt
        omega
  · have hcounts := congrArg (List.count ';') htext'
    have hplain : (cutMarker (len first) (len kept)).count ';' = 0 :=
      List.count_eq_zero.2 (Exif.not_mem_cutMarker (by decide) (by decide))
    have hkept : first.count ';' = kept.count ';' + beyond.count ';' := by
      rw [hsplit, List.count_append]
    have hpos := List.length_pos_of_mem hv
    rw [hcount, List.count_append, List.count_append, hplain, (closing_spec _).1] at hcounts
    omega

/-- **A field tells of every value of its key, exactly when no later value that is too wide fits,
cut, after the values before it.** -/
theorem told_iff (hfirst : Proper first) (hrest : ∀ v ∈ rest, Proper v) :
    (∃ count, Told first rest ((fieldOf first rest).text ++ closing (fieldOf first rest).more)
      count) ↔ KeepsWhole first rest := by
  obtain ⟨later, counted, h⟩ := exists_shows hfirst rest
  refine ⟨?_, fun hkeeps ↦ ⟨_, h.told hkeeps hfirst hrest⟩⟩
  rintro ⟨count, htold⟩ before v after hsplit hwide hbefore
  by_contra hfits
  have hfits' := Nat.not_lt.1 hfits
  refine h.not_told hfirst hrest ?_ hwide htold
  have hmem : ∀ w ∈ before, w ∈ rest := fun w hw ↦ hsplit ▸ mem_append_left _ hw
  have hfirstFits : renderedWidth first ≤ valueBound := by
    have hle := renderedWidth_joined_le first [] before
    rw [joined, intercalate_singleton] at hle
    exact hle.trans hbefore
  have hwhole : before.map capped = before := map_capped (fun w hw ↦ hrest w (hmem w hw))
    fun w hw ↦ (renderedWidth_lt_joined first hw).le.trans hbefore
  have hsplits : later ++ counted = (before ++ [v]) ++ after := by
    rw [← h.split, hsplit, append_assoc, singleton_append]
  rcases Nat.lt_or_ge before.length later.length with hlt | hle
  · obtain ⟨more, rfl⟩ := prefix_of_prefix_length_le
      (hsplits ▸ prefix_append _ after) (prefix_append later counted)
      (by rw [length_append]; exact hlt)
    exact mem_append_left _ (mem_append_right _ (mem_singleton_self v))
  · -- What is shown would stop before the value, though there is room for the next.
    obtain ⟨more, rfl⟩ := prefix_of_prefix_length_le
      (hsplits ▸ prefix_append later counted)
      ((prefix_append before [v]).trans (prefix_append _ after)) hle
    obtain ⟨w, tail, hw⟩ : ∃ w tail, more ++ [v] = w :: tail :=
      exists_cons_of_ne_nil (append_ne_nil_of_right_ne_nil _ (cons_ne_nil _ _))
    have hcounted : counted = w :: (tail ++ after) := by
      rw [append_assoc, append_assoc, append_cancel_left_eq, ← append_assoc,
        hw] at hsplits
      exact hsplits
    have hnext := h.next hfirstFits w (by rw [hcounted]; rfl)
    have hshown : renderedWidth (joined first (((later ++ more) ++ [v]).map capped)) =
        renderedWidth (joined first (later ++ more)) + 2 + renderedWidth (capped v) := by
      rw [map_append, hwhole, map_singleton, renderedWidth_joined_concat]
    have hfewer := renderedWidth_joined_le first ((later ++ [w]).map capped) (tail.map capped)
    rw [← map_append, append_assoc, singleton_append, ← hw, ← append_assoc,
      hshown, map_append, map_singleton, renderedWidth_joined_concat] at hfewer
    rw [h.text, capped_of_le hfirst hfirstFits] at hnext
    omega

end Huntsman.DocMeta
