import Huntsman.Canonical.Numbers

/-!
# One number has one canonical form

A number may be spelled with one of several prefixes (`auSpellings`, `foreignSpellings`), and a
spelling be written with separators, direction marks, Arabic-Indic digits and words after it
(`Written`).  However it is written it is read as the one canonical form, and what is read is never
anything but the digits that are there (`ReadFrom`).
-/

set_option autoImplicit false

namespace Huntsman.Canonical

variable {s t n p digits : Chars} {c d : Char}

/-! ## Spellings -/

/-- How an Australian national number is spelled. -/
def auSpellings (n : Chars) : List Chars :=
  ["+61".toList ++ n, "+610".toList ++ n, "0061".toList ++ n, "001161".toList ++ n, n] ++
    if len n = 9 then ["0".toList ++ n, "61".toList ++ n] else []

/-- How another number is spelled. -/
def foreignSpellings (digits : Chars) : List Chars :=
  ['+' :: digits, "00".toList ++ digits, "0011".toList ++ digits]

/-- The digits of a number that is not Australian, whose code is no part of a prefix. -/
structure IsForeign (digits : Chars) : Prop where
  e164 : phoneE164Error ('+' :: digits) = none
  code : ¬ "61".toList <+: digits ∧ ¬ "11".toList <+: digits
  /-- A code `1` has ten digits after it. -/
  american : "1".toList <+: digits → len digits = 11

/-- A character between digits that ends no number. -/
def IsSeparator (lib : Library) (c : Char) : Prop :=
  lib.isAlphabetic c = false ∧ isDialled c = false ∧ easternDigit c = none ∧
    c ≠ '#' ∧ c ≠ ';' ∧ c ≠ ','

/-- `Written lib s t`: the text `t` is the spelling `s`, each digit in one of its forms, with
separators and direction marks anywhere and words after the last digit. -/
inductive Written (lib : Library) : Chars → Chars → Prop
  | words {words : Chars} (h : ∀ c ∈ words, isDialled c = false ∧ easternDigit c = none) :
      Written lib [] words
  | digit {c d : Char} {s t : Chars} (h : c = d ∨ easternDigit c = some d)
      (ht : Written lib s t) : Written lib (d :: s) (c :: t)
  | apart {c : Char} {s t : Chars} (h : IsSeparator lib c ∨ isDirectionMark c = true)
      (ht : Written lib s t) : Written lib s (c :: t)

/-- What is dialled of a spelling. -/
structure IsDialling (s : Chars) : Prop where
  head : ∀ c ∈ s.head?, isDialled c = true
  tail : ∀ c ∈ s.tail, isAsciiDigit c = true

theorem IsDialling.all (h : IsDialling s) : ∀ c ∈ s, isDialled c = true := by
  rcases s with _ | ⟨first, rest⟩
  · simp
  · refine List.forall_mem_cons.2 ⟨h.head first rfl, fun c hc ↦ ?_⟩
    rw [isDialled, h.tail c hc, Bool.true_or]

theorem IsDialling.of_digits (h : ∀ c ∈ s, isAsciiDigit c = true) : IsDialling s := by
  refine ⟨fun c hc ↦ ?_, fun c hc ↦ h c (List.mem_of_mem_tail hc)⟩
  rw [isDialled, h c (List.mem_of_mem_head? hc), Bool.true_or]

theorem westernDigits_cons (c : Char) (t : Chars) : westernDigits (c :: t) =
    if isDirectionMark c then westernDigits t
    else (easternDigit c).getD c :: westernDigits t := by
  rw [westernDigits, List.filter_cons]
  split_ifs with hnot hmark hmark
  · exact absurd hnot (by rw [hmark]; decide)
  · rfl
  · rfl
  · exact absurd (by simpa using hmark) hnot

/-- A digit in one of its forms is read as that digit. -/
theorem westernDigits_dialled_cons (h : c = d ∨ easternDigit c = some d)
    (hd : isDialled d = true) (t : Chars) : westernDigits (c :: t) = d :: westernDigits t := by
  rcases h with rfl | h
  · have hone := westernDigits_dialled (s := [c]) (by simpa using hd)
    rw [← List.singleton_append, westernDigits_append, hone, List.singleton_append]
  · have hmark : isDirectionMark c = false := by
      rw [easternDigit] at h
      simp only [isDirectionMark, Bool.or_eq_false_iff, beq_eq_false_iff_ne,
        Bool.and_eq_false_iff, decide_eq_false_iff_not]
      split_ifs at h <;> omega
    rw [westernDigits_cons, hmark, if_neg Bool.false_ne_true, h, Option.getD_some]

/-- What stands between digits is left out or stays what it is. -/
theorem westernDigits_apart {lib : Library} (h : IsSeparator lib c ∨ isDirectionMark c = true)
    (t : Chars) : westernDigits (c :: t) = westernDigits t ∨
      IsSeparator lib c ∧ westernDigits (c :: t) = c :: westernDigits t := by
  rw [westernDigits_cons]
  by_cases hmark : isDirectionMark c = true
  · exact Or.inl (if_pos hmark)
  · have hsep := h.resolve_right hmark
    exact Or.inr ⟨hsep, by rw [if_neg hmark, hsep.2.2.1, Option.getD_none]⟩

theorem westernDigits_words (h : ∀ c ∈ t, isDialled c = false ∧ easternDigit c = none) :
    ∀ c ∈ westernDigits t, isDialled c = false := by
  intro d hd
  obtain ⟨c, hc, rfl⟩ := List.mem_map.1 hd
  obtain ⟨hnot, heastern⟩ := h c (List.mem_of_mem_filter hc)
  rwa [heastern, Option.getD_none]

theorem Written.dials {lib : Library} (h : Written lib s t)
    (hs : ∀ c ∈ s, isDialled c = true) : dialled (westernDigits t) = s := by
  induction h with
  | words h => exact dialled_of_none (westernDigits_words h)
  | @digit c d s t hc _ ih =>
    obtain ⟨hd, hs⟩ := List.forall_mem_cons.1 hs
    rw [westernDigits_dialled_cons hc hd, dialled, List.filter_cons_of_pos (by exact hd)]
    exact congrArg (d :: ·) (ih hs)
  | @apart c s t hc _ ih =>
    rcases westernDigits_apart hc t with hw | ⟨hsep, hw⟩
    · rw [hw]
      exact ih hs
    · rw [hw, dialled, List.filter_cons_of_neg (by rw [← isDialled, hsep.2.1]; decide)]
      exact ih hs

/-- No marker stands between the digits. -/
theorem Written.no_marker {lib : Library} (h : Written lib s t) {seen : Bool}
    (hs : IsDialling s) (hseen : seen = true → ∀ c ∈ s, isAsciiDigit c = true) :
    hasDigitsAfterAMarkerAux lib seen false (westernDigits t) = false := by
  induction h generalizing seen with
  | words h => exact hasDigitsAfterAMarkerAux_none lib (westernDigits_words h) seen false
  | @digit c d s t hc _ ih =>
    rw [westernDigits_dialled_cons hc (hs.head d rfl), hasDigitsAfterAMarkerAux]
    split_ifs with hdigit hmarker
    · rw [Bool.false_or]
      exact ih (.of_digits hs.tail) fun _ ↦ hs.tail
    · exact absurd (hseen (Bool.and_eq_true_iff.1 hmarker).1 d List.mem_cons_self) hdigit
    · exact ih (.of_digits hs.tail) fun _ ↦ hs.tail
  | @apart c s t hc _ ih =>
    rcases westernDigits_apart hc t with hw | ⟨⟨halpha, hnot, -, hhash, hsemi, hcomma⟩, hw⟩
    · rw [hw]
      exact ih hs hseen
    · rw [isDialled, Bool.or_eq_false_iff] at hnot
      rw [hw, hasDigitsAfterAMarkerAux, if_neg (by rw [hnot.1]; decide), halpha,
        beq_eq_false_iff_ne.2 hhash, beq_eq_false_iff_ne.2 hsemi, beq_eq_false_iff_ne.2 hcomma,
        Bool.or_self, Bool.or_self, Bool.or_self, Bool.and_false, if_neg Bool.false_ne_true]
      exact ih hs hseen

/-- What is dialled, once nothing else is left. -/
def readDialled (digits : Chars) : Option Chars :=
  if digits.head? = some '+' then finishPhone digits
  else
    match ("0011".toList.isPrefixOf? digits).or ("00".toList.isPrefixOf? digits) with
    | some international =>
      if "+1".toList.isPrefixOf ('+' :: international) && len ('+' :: international) != 12 then none
      else finishPhone ('+' :: international)
    | none => normaliseAuPhone digits

theorem canonicalPhone_eq (lib : Library) (raw : Chars) : canonicalPhone lib raw =
    if hasDigitsAfterAMarker lib (westernDigits raw) then none
    else readDialled (dialled (westernDigits raw)) := by
  rw [canonicalPhone, readDialled]
  simp only [normaliseAuPhone, dialled_dropWhile, hasDigitsAfterAMarker_dropWhile]
  have hall : dialled (dialled (westernDigits raw)) = dialled (westernDigits raw) :=
    dialled_of_all fun c hc ↦ (List.mem_filter.1 hc).2
  rewrite [hall]
  rfl

/-- **A spelling is read alike however it is written.** -/
theorem canonicalPhone_written {lib : Library} (h : Written lib s t) (hs : IsDialling s) :
    canonicalPhone lib t = readDialled s := by
  have hmarker : hasDigitsAfterAMarker lib (westernDigits t) = false :=
    h.no_marker hs fun hseen ↦ absurd hseen Bool.false_ne_true
  rw [canonicalPhone_eq, hmarker, if_neg Bool.false_ne_true, h.dials hs.all]

/-! ## What the prefixes are -/

/-- The first digit of an Australian national number. -/
theorem auNationalKey_first (h : auNationalKey n = some p) :
    ∃ first rest, n = first :: rest ∧ first ∈ "1234578".toList := by
  rw [auNationalKey] at h
  split at h
  · rename_i hok
    have hok := (Bool.and_eq_true_iff.1 hok).1
    simp only [Bool.or_eq_true, Bool.and_eq_true, beq_iff_eq, List.isPrefixOf_iff_prefix] at hok
    rcases hok with (⟨-, hfirst⟩ | ⟨-, (⟨rest, rfl⟩ | ⟨rest, rfl⟩) | ⟨rest, rfl⟩⟩) | ⟨-, rest, rfl⟩
    · obtain ⟨first, hhead, hfirst⟩ := (Option.any_eq_true ..).1 hfirst
      obtain ⟨rest, rfl⟩ := List.head?_eq_some_iff.1 hhead
      refine ⟨first, rest, rfl, ?_⟩
      have hsub : "234578".toList ⊆ "1234578".toList := by decide
      exact hsub (List.contains_iff_mem.1 hfirst)
    all_goals exact ⟨'1', _, rfl, by decide⟩
  · exact absurd h (Option.some_ne_none p).symm

theorem auNationalKey_digits (h : auNationalKey n = some p) : ∀ c ∈ n, isAsciiDigit c = true := by
  obtain ⟨rfl, hok, -⟩ := auNationalKey_some h
  obtain ⟨digits, hdigits, hall⟩ := phoneE164_digits hok
  obtain rfl := (List.cons.inj hdigits).2
  exact fun c hc ↦ hall c (by simp [hc])

/-- A national number, maybe after a trunk zero. -/
def nationalOf (s : Chars) : Option Chars :=
  match s with
  | '0' :: n => if len n = 9 then auNationalKey n else auNationalKey s
  | _ => auNationalKey s

/-- What no international prefix begins. -/
theorem normaliseAuPhone_plain (hs : ∀ c ∈ s, isDialled c = true) (hhead : s.head? ≠ some '+')
    (h00 : "00".toList.isPrefixOf? s = none) : normaliseAuPhone s = if '+' ∈ s then none else
      (("61".toList.isPrefixOf? s).bind fun n ↦ if len n = 9 then auNationalKey n else none).or
        (nationalOf s) := by
  have hcode : ("+61".toList.isPrefixOf? s).or ("0061".toList.isPrefixOf? s) = none := by
    rw [Option.or_eq_none_iff, Option.eq_none_iff_forall_ne_some, Option.eq_none_iff_forall_ne_some]
    refine ⟨fun rest h ↦ ?_, fun rest h ↦ ?_⟩ <;>
      rw [List.isPrefixOf?_eq_some_iff_append_eq] at h <;> subst h
    · exact hhead rfl
    · exact absurd h00 (Option.some_ne_none ("61".toList ++ rest))
  rw [normaliseAuPhone, dialled_of_all hs, hcode]
  dsimp only
  congr 1
  rcases "61".toList.isPrefixOf? s with _ | n
  · rfl
  · rw [Option.bind_some]
    dsimp only
    rcases (if len n = 9 then auNationalKey n else none) with _ | key <;> rfl

theorem finishPhone_trunk (h : auNationalKey n = some p) :
    finishPhone ("+610".toList ++ n) = some p := by
  have hall : dialled ("+610".toList ++ n) = "+610".toList ++ n := by
    refine dialled_of_all fun c hc ↦ ?_
    rcases List.mem_append.1 hc with hc | hc
    · exact List.all_eq_true.1 (by decide) c hc
    · rw [isDialled, auNationalKey_digits h c hc, Bool.true_or]
  have hstrip : "+61".toList.isPrefixOf? ("+610".toList ++ n) = some ('0' :: n) := rfl
  have hcode : "+61".toList.isPrefixOf ("+610".toList ++ n) = true := rfl
  rw [finishPhone, if_pos hcode, normaliseAuPhone, hall, hstrip]
  simp only [Option.some_or, h, Option.isSome_some, if_true]

/-- An Australian number without an international prefix. -/
theorem normaliseAuPhone_national (h : auNationalKey n = some p) :
    ("00".toList.isPrefixOf? n = none ∧ normaliseAuPhone n = some p) ∧
    ∀ before ∈ ["0".toList, "61".toList], len n = 9 →
      "00".toList.isPrefixOf? (before ++ n) = none ∧ normaliseAuPhone (before ++ n) = some p := by
  have hdigits := auNationalKey_digits h
  have hall (before : Chars) (hb : before.all isAsciiDigit = true) :
      ∀ c ∈ before ++ n, isAsciiDigit c = true := fun c hc ↦
    (List.mem_append.1 hc).elim (List.all_eq_true.1 hb c) (hdigits c)
  obtain ⟨first, rest, rfl, hfirst⟩ := auNationalKey_first h
  -- the first digit is none of those the prefixes begin with
  have hother : '0' ≠ first ∧ '6' ≠ first :=
    ⟨fun heq ↦ absurd (heq ▸ hfirst) (by decide), fun heq ↦ absurd (heq ▸ hfirst) (by decide)⟩
  have h00 : "00".toList.isPrefixOf? (first :: rest) = none := by
    simp [List.isPrefixOf?, hother.1]
  have h61 : "61".toList.isPrefixOf? (first :: rest) = none := by
    simp [List.isPrefixOf?, hother.2]
  have hplain : nationalOf (first :: rest) = some p := by
    rw [nationalOf.eq_def]
    split
    · rename_i heq
      exact absurd (List.cons.inj heq).1.symm hother.1
    · exact h
  have hplainly {s : Chars} (hs : ∀ c ∈ s, isAsciiDigit c = true)
      (h00 : "00".toList.isPrefixOf? s = none) : normaliseAuPhone s =
        (("61".toList.isPrefixOf? s).bind fun n ↦ if len n = 9 then auNationalKey n else none).or
          (nationalOf s) := by
    have hplus : '+' ∉ s := fun hmem ↦ absurd (hs _ hmem) (by decide)
    rw [normaliseAuPhone_plain (IsDialling.of_digits hs).all
      (fun hhead ↦ hplus (List.mem_of_mem_head? hhead)) h00, if_neg hplus]
  refine ⟨⟨h00, ?_⟩, fun before hbefore hlen ↦ ?_⟩
  · rw [hplainly hdigits h00, h61, Option.bind_none, Option.none_or, hplain]
  · simp only [List.mem_cons, List.not_mem_nil, or_false] at hbefore
    rcases hbefore with rfl | rfl
    · have hzero : "00".toList.isPrefixOf? ("0".toList ++ first :: rest) = none := by
        simp [List.isPrefixOf?, hother.1]
      have h61 : "61".toList.isPrefixOf? ("0".toList ++ first :: rest) = none := rfl
      have htrunk : nationalOf ("0".toList ++ first :: rest) = some p := (if_pos hlen).trans h
      exact ⟨hzero, by
        rw [hplainly (hall _ (by decide)) hzero, h61, Option.bind_none, Option.none_or, htrunk]⟩
    · have hsome : "61".toList.isPrefixOf? ("61".toList ++ first :: rest) =
          some (first :: rest) := rfl
      exact ⟨rfl, by
        rw [hplainly (hall _ (by decide)) rfl, hsome, Option.bind_some, if_pos hlen, h,
          Option.some_or]⟩

/-- Digits that no international prefix begins are read as a national number. -/
theorem readDialled_plain (hs : ∀ c ∈ s, isAsciiDigit c = true)
    (h00 : "00".toList.isPrefixOf? s = none) : readDialled s = normaliseAuPhone s := by
  have hplus : s.head? ≠ some '+' := fun h ↦ absurd (hs _ (List.mem_of_mem_head? h)) (by decide)
  have h0011 : "0011".toList.isPrefixOf? s = none := by
    refine Option.eq_none_iff_forall_ne_some.2 fun rest hrest ↦ ?_
    rw [List.isPrefixOf?_eq_some_iff_append_eq] at hrest
    subst hrest
    exact absurd h00 (Option.some_ne_none ("11".toList ++ rest))
  rw [readDialled, if_neg hplus, h0011, h00]
  rfl

theorem IsDialling.plus (h : ∀ c ∈ s, isAsciiDigit c = true) : IsDialling ('+' :: s) :=
  ⟨fun c hc ↦ by rw [← Option.some.inj hc]; rfl, h⟩

/-- Each spelling of an Australian number is read as that number. -/
theorem readDialled_au (h : auNationalKey n = some p) :
    ∀ s ∈ auSpellings n, IsDialling s ∧ readDialled s = some p := by
  have hdigits := auNationalKey_digits h
  have hall (before : Chars) (hb : before.all isAsciiDigit = true) :
      ∀ c ∈ before ++ n, isAsciiDigit c = true := fun c hc ↦
    (List.mem_append.1 hc).elim (List.all_eq_true.1 hb c) (hdigits c)
  have hfinish : finishPhone ("+61".toList ++ n) = some p := by
    have hp := (auNationalKey_some h).1
    exact hp ▸ finishPhone_stable (Or.inl ⟨n, h⟩)
  obtain ⟨⟨hbare, hread⟩, hprefixed⟩ := normaliseAuPhone_national h
  intro s hs
  rw [auSpellings, List.mem_append] at hs
  rcases hs with hs | hs
  · simp only [List.mem_cons, List.not_mem_nil, or_false] at hs
    rcases hs with rfl | rfl | rfl | rfl | rfl
    · exact ⟨.plus (hall "61".toList (by decide)), hfinish⟩
    · exact ⟨.plus (hall "610".toList (by decide)), finishPhone_trunk h⟩
    · exact ⟨.of_digits (hall _ (by decide)), hfinish⟩
    · exact ⟨.of_digits (hall _ (by decide)), hfinish⟩
    · exact ⟨.of_digits hdigits, (readDialled_plain hdigits hbare).trans hread⟩
  · split_ifs at hs with hlen
    · obtain ⟨before, hbefore, hb, rfl⟩ : ∃ before ∈ ["0".toList, "61".toList],
          before.all isAsciiDigit = true ∧ before ++ n = s := by
        simp only [List.mem_cons, List.not_mem_nil, or_false] at hs
        rcases hs with rfl | rfl
        · exact ⟨_, List.mem_cons_self, by decide, rfl⟩
        · exact ⟨_, List.mem_cons_of_mem _ List.mem_cons_self, by decide, rfl⟩
      obtain ⟨h00, hread⟩ := hprefixed before hbefore hlen
      exact ⟨.of_digits (hall before hb), (readDialled_plain (hall before hb) h00).trans hread⟩
    · exact absurd hs List.not_mem_nil

/-- Each spelling of another number is read as that number. -/
theorem readDialled_foreign (h : IsForeign digits) :
    ∀ s ∈ foreignSpellings digits, IsDialling s ∧ readDialled s = some ('+' :: digits) := by
  obtain ⟨digits', heq, hdigits⟩ := phoneE164_digits h.e164
  obtain rfl := (List.cons.inj heq).2
  have hau : ¬ "+61".toList.isPrefixOf ('+' :: digits) = true := fun hpre ↦
    h.code.1 (List.cons_prefix_cons.1 (List.isPrefixOf_iff_prefix.1 hpre)).2
  have hfinish : finishPhone ('+' :: digits) = some ('+' :: digits) := by
    rw [finishPhone, if_neg hau, h.e164]
    rfl
  have hlong : ¬ ("+1".toList.isPrefixOf ('+' :: digits) && len ('+' :: digits) != 12) = true := by
    rw [Bool.and_eq_true, List.isPrefixOf_iff_prefix, bne_iff_ne]
    rintro ⟨hpre, hlen⟩
    refine hlen ?_
    rw [len_cons, h.american (List.cons_prefix_cons.1 hpre).2]
    rfl
  have hzeros {before : Chars} (hb : before.all isAsciiDigit = true)
      (hstrip : ("0011".toList.isPrefixOf? (before ++ digits)).or
        ("00".toList.isPrefixOf? (before ++ digits)) = some digits)
      (hhead : (before ++ digits).head? ≠ some '+') :
      IsDialling (before ++ digits) ∧ readDialled (before ++ digits) = some ('+' :: digits) := by
    refine ⟨.of_digits fun c hc ↦
      (List.mem_append.1 hc).elim (List.all_eq_true.1 hb c) (hdigits c), ?_⟩
    rw [readDialled, if_neg hhead, hstrip]
    dsimp only
    rw [if_neg hlong, hfinish]
  intro s hs
  simp only [foreignSpellings, List.mem_cons, List.not_mem_nil, or_false] at hs
  rcases hs with rfl | rfl | rfl
  · exact ⟨.plus hdigits, hfinish⟩
  · have h11 : "0011".toList.isPrefixOf? ("00".toList ++ digits) = none := by
      refine Option.eq_none_iff_forall_ne_some.2 fun rest hrest ↦ h.code.2 ⟨rest, ?_⟩
      have hrest' : "11".toList.isPrefixOf? digits = some rest := hrest
      exact List.isPrefixOf?_eq_some_iff_append_eq.1 hrest'
    exact hzeros (by decide) (by rw [h11]; rfl) (Option.some_inj.not.2 (by decide))
  · exact hzeros (by decide) rfl (Option.some_inj.not.2 (by decide))

/-! ## What is read -/

/-- `p` has the digits that were dialled, without the international prefix or the trunk zero, and
with the code of a national number. -/
def ReadFrom (digits p : Chars) : Prop :=
  (∃ before ∈ ["+".toList, "00".toList, "0011".toList], ∃ q, digits = before ++ q ∧
    (p = '+' :: q ∨ ∃ n, q = "610".toList ++ n ∧ p = "+61".toList ++ n)) ∨
  ∃ before ∈ [[], "0".toList, "61".toList], ∃ n, digits = before ++ n ∧
    auNationalKey n = some p ∧ p = "+61".toList ++ n

/-- What is read after a `+`. -/
theorem finishPhone_from (hs : ∀ c ∈ s, isDialled c = true) (h : finishPhone ('+' :: s) = some p) :
    p = '+' :: s ∨ ∃ n, s = "610".toList ++ n ∧ p = "+61".toList ++ n := by
  rw [finishPhone] at h
  split_ifs at h with hau
  · obtain ⟨rest, hrest⟩ := List.isPrefixOf_iff_prefix.1 hau
    obtain rfl : "61".toList ++ rest = s := (List.cons.inj hrest).2
    have hall : dialled ('+' :: ("61".toList ++ rest)) = '+' :: ("61".toList ++ rest) :=
      dialled_of_all (List.forall_mem_cons.2 ⟨rfl, hs⟩)
    have hstrip : "+61".toList.isPrefixOf? ('+' :: ("61".toList ++ rest)) = some rest := rfl
    rw [normaliseAuPhone, hall, hstrip, Option.some_or] at h
    dsimp only at h
    split at h
    · split_ifs at h
      · exact Or.inr ⟨_, rfl, (auNationalKey_some h).1⟩
      · exact Or.inl (auNationalKey_some h).1
    · exact Or.inl (auNationalKey_some h).1
  · exact Or.inl (Option.some.inj h).symm

/-- What is read of a national number. -/
theorem nationalOf_from (h : nationalOf s = some p) : ∃ before ∈ [[], "0".toList, "61".toList],
    ∃ n, s = before ++ n ∧ auNationalKey n = some p ∧ p = "+61".toList ++ n := by
  rw [nationalOf.eq_def] at h
  split at h
  · split_ifs at h
    · exact ⟨"0".toList, by simp, _, rfl, h, (auNationalKey_some h).1⟩
    · exact ⟨_, List.mem_cons_self, _, rfl, h, (auNationalKey_some h).1⟩
  · exact ⟨_, List.mem_cons_self, _, rfl, h, (auNationalKey_some h).1⟩

/-- The digits of what is read are those that were dialled. -/
theorem readDialled_from (hs : ∀ c ∈ s, isDialled c = true) (h : readDialled s = some p) :
    ReadFrom s p := by
  rw [readDialled] at h
  split_ifs at h with hplus
  · obtain ⟨rest, rfl⟩ := List.head?_eq_some_iff.1 hplus
    exact Or.inl ⟨_, List.mem_cons_self, rest, rfl,
      finishPhone_from (fun c hc ↦ hs c (List.mem_cons_of_mem _ hc)) h⟩
  split at h
  · rename_i international hstrip
    obtain ⟨before, hbefore, rfl⟩ : ∃ before ∈ ["+".toList, "00".toList, "0011".toList],
        before ++ international = s := by
      rcases Option.or_eq_some_iff.1 hstrip with h0011 | ⟨-, h00⟩
      · exact ⟨_, by simp, List.isPrefixOf?_eq_some_iff_append_eq.1 h0011⟩
      · exact ⟨_, by simp, List.isPrefixOf?_eq_some_iff_append_eq.1 h00⟩
    split_ifs at h
    exact Or.inl ⟨before, hbefore, international, rfl,
      finishPhone_from (fun c hc ↦ hs c (List.mem_append_right _ hc)) h⟩
  · rename_i hstrip
    rw [normaliseAuPhone_plain hs hplus (Option.or_eq_none_iff.1 hstrip).2] at h
    split_ifs at h
    refine Or.inr ?_
    rcases Option.or_eq_some_iff.1 h with hcode | ⟨-, hnational⟩
    · obtain ⟨n, hn, hkey⟩ := Option.bind_eq_some_iff.1 hcode
      split_ifs at hkey
      exact ⟨"61".toList, by simp, n, (List.isPrefixOf?_eq_some_iff_append_eq.1 hn).symm, hkey,
        (auNationalKey_some hkey).1⟩
    · exact nationalOf_from hnational

/-- **One number has one canonical form.**  Every spelling of a number is read as it, however it is
written; and every text that is read as a number has the digits of that number. -/
theorem canonicalPhone_canonical (lib : Library) :
    (∀ n p, auNationalKey n = some p → p = "+61".toList ++ n ∧
      ∀ s ∈ auSpellings n, ∀ t, Written lib s t → canonicalPhone lib t = some p) ∧
    (∀ digits, IsForeign digits → ∀ s ∈ foreignSpellings digits, ∀ t, Written lib s t →
      canonicalPhone lib t = some ('+' :: digits)) ∧
    ∀ t p, canonicalPhone lib t = some p → phoneE164Error p = none ∧
      canonicalPhone lib p = some p ∧ ReadFrom (dialled (westernDigits t)) p := by
  refine ⟨fun n p h ↦ ⟨(auNationalKey_some h).1, fun s hs t ht ↦ ?_⟩, fun digits h s hs t ht ↦ ?_,
    fun t p h ↦ ⟨(canonicalPhone_some lib h).e164, canonicalPhone_stable lib h, ?_⟩⟩
  · obtain ⟨hdial, hread⟩ := readDialled_au h s hs
    rw [canonicalPhone_written ht hdial, hread]
  · obtain ⟨hdial, hread⟩ := readDialled_foreign h s hs
    rw [canonicalPhone_written ht hdial, hread]
  · rw [canonicalPhone_eq] at h
    split_ifs at h
    exact readDialled_from (fun c hc ↦ (List.mem_filter.1 hc).2) h

/-- `+61 (0)4…` with the `4` an Arabic-Indic digit. -/
example : canonicalPhone Library.plain
    ("+61 (0)".toList ++ Char.ofNat 0x0664 :: "12 345 678 (office)".toList) =
      some "+61412345678".toList := by
  decide +kernel

end Huntsman.Canonical
