import Huntsman.Canonical.Forms
import Huntsman.Xlsx.Cells
import Mathlib.Data.List.Nodup
import Mathlib.Data.List.Perm.Subperm

/-!
# Names of sheets

`sheetName` makes a name that Excel accepts of the name that is wanted, and numbers it where the
name is taken.  Names are compared without case, by the names in lower case.

The numbers go up until a name is free.  Two names with different numbers are different in lower
case as well, since lower case leaves the number at the end as it is, so there is a free one among
the first names that are tried, one more than there are names taken (`freeName_isSome`).
-/

set_option autoImplicit false

namespace Huntsman.Xlsx

open List

open Canonical (decimal)

/-- The longest sheet name Excel accepts. -/
def maxSheetNameChars : ℕ := 31

/-- `char::is_control`. -/
def isControl (c : Char) : Bool := c.toNat < 32 || (127 ≤ c.toNat && c.toNat ≤ 159)

/-- The characters that no sheet name has. -/
def isForbidden (c : Char) : Bool :=
  ['[', ']', ':', '*', '?', '/', '\\'].contains c || c.toNat = 0xFFFE || c.toNat = 0xFFFF ||
    isControl c

/-- The name that is wanted without what no name has. -/
def cleanName (wanted : Str) : Str :=
  Pieces.trim (· == '\'')
    (Pieces.trim Text.isWhitespace (wanted.filter fun c ↦ !isForbidden c))

/-- As much of it as a name holds. -/
def cutName (wanted : Str) : Str :=
  ((cleanName wanted).take maxSheetNameChars).rdropWhile fun c ↦ c == '\'' || Text.isWhitespace c

/-- The name that is tried first. -/
def baseName (wanted : Str) : Str :=
  if (cutName wanted).isEmpty then "Sheet".toList else cutName wanted

/-- What stands behind a name that is numbered. -/
def numberSuffix (number : ℕ) : Str := ' ' :: '(' :: (decimal number ++ [')'])

/-- A name with a number, cut so that there is room for it. -/
def numbered (base : Str) (number : ℕ) : Str :=
  (base.take (maxSheetNameChars - (numberSuffix number).length)).rdropWhile Text.isWhitespace ++
    numberSuffix number

/-- `str::to_lowercase`, and what is relied on: characters of ASCII that are no capital letters are
themselves in lower case, wherever they stand. -/
structure Lowercase where
  lower : Str → Str
  keeps : ∀ s t : Str, (∀ c ∈ t, c.toNat < 128 ∧ c.isUpper = false) → t <:+ lower (s ++ t)

/-- The lower case of ASCII. -/
def Lowercase.ascii : Lowercase where
  lower s := s.map Char.toLower
  keeps s t h := by
    rw [List.map_append]
    have hsame : t.map Char.toLower = t := by
      conv_rhs => rw [← List.map_id t]
      refine List.map_congr_left fun c hc ↦ ?_
      have hnot : ¬(c.val ≥ 'A'.val ∧ c.val ≤ 'Z'.val) := of_decide_eq_false (h c hc).2
      exact dif_neg hnot
    rw [hsame]
    exact List.suffix_append _ _

variable (L : Lowercase)

local instance : LawfulBEq Str := inferInstance

/-- The loop that numbers a name until it is not taken. -/
def freeName (taken : List Str) (base : Str) : ℕ → ℕ → Str → Option Str
  | 0, _, _ => none
  | fuel + 1, number, name =>
    if L.lower name ∈ taken then freeName taken base fuel (number + 1) (numbered base number)
    else some name

/-- A name for a sheet.  The second name, with the number 2, may be the first one again, so that
the loop goes on to a name more than there are names taken besides the first. -/
def sheetName (taken : List Str) (wanted : Str) : Option Str :=
  freeName L taken (baseName wanted) (taken.length + 2) 2 (baseName wanted)

/-- The names for the sheets of a workbook, in order. -/
def sheetNames : List Str → List Str → Option (List Str)
  | _, [] => some []
  | taken, wanted :: more =>
    (sheetName L taken wanted).bind fun name ↦
      (sheetNames (L.lower name :: taken) more).map (name :: ·)

example : sheetNames .ascii [] ["IP_ADDRESS".toList, "ip_address".toList, "' '".toList] =
    some ["IP_ADDRESS".toList, "ip_address (2)".toList, "Sheet".toList] := by
  decide +kernel

/-! ## Names that are accepted -/

/-- What Excel asks of a sheet's name. -/
structure Accepted (name : Str) : Prop where
  short : name.length ≤ maxSheetNameChars
  notBlank : ∃ c ∈ name, Text.isWhitespace c = false
  clean : ∀ c ∈ name, isForbidden c = false
  head : name.head? ≠ some '\''
  last : name.getLast? ≠ some '\''

theorem accepted_baseName (wanted : Str) : Accepted (baseName wanted) := by
  rw [baseName]
  split
  · exact ⟨by decide, ⟨'S', by decide⟩, List.forall_iff_forall_mem.mp (by decide), by decide,
      by decide⟩
  · rename_i hcut
    rw [List.isEmpty_iff] at hcut
    have hbegins : cutName wanted <+: cleanName wanted :=
      (List.rdropWhile_prefix _ _).trans (List.take_prefix _ _)
    have hlast : ∀ c ∈ (cutName wanted).getLast?, (c == '\'' || Text.isWhitespace c) = false :=
      Pieces.getLast_rdropWhile ((cleanName wanted).take maxSheetNameChars)
    have hend := hlast _ (List.getLast?_eq_some_getLast hcut)
    rw [Bool.or_eq_false_iff] at hend
    refine ⟨?_, ⟨_, List.getLast_mem hcut, hend.2⟩, fun c hc ↦ ?_, fun hhead ↦ ?_,
      fun hquote ↦ ?_⟩
    · exact (List.rdropWhile_prefix _ _).length_le.trans (List.length_take_le _ _)
    · have hfilter := Pieces.mem_of_mem_trim (Pieces.mem_of_mem_trim (hbegins.subset hc))
      exact Bool.not_eq_true' _ ▸ (List.mem_filter.1 hfilter).2
    · obtain ⟨rest, hrest⟩ := List.head?_eq_some_iff.1 hhead
      obtain ⟨more, hmore⟩ := hbegins
      rw [hrest] at hmore
      have hmem : '\'' ∈ (cleanName wanted).head? := by rw [← hmore]; rfl
      exact absurd ((Pieces.trimmed_trim (· == '\'') _).1 '\'' hmem) (by decide)
    · exact absurd (hlast _ hquote) (by decide)

theorem length_numberSuffix {number : ℕ} (h : number < 10 ^ 9) :
    (numberSuffix number).length ≤ 12 := by
  have hdigits : (decimal number).length ≤ 9 :=
    (Nat.length_toDigits_le_iff (by decide) (by decide)).2 h
  rw [numberSuffix, length_cons, length_cons, length_append, length_singleton]
  omega

theorem mem_numberSuffix {number : ℕ} {c : Char} (h : c ∈ numberSuffix number) :
    c = ' ' ∨ c = '(' ∨ c.isDigit = true ∨ c = ')' := by
  rw [numberSuffix, mem_cons, mem_cons, mem_append, mem_singleton] at h
  rcases h with h | h | h | h
  · exact .inl h
  · exact .inr (.inl h)
  · exact .inr (.inr (.inl (Nat.isDigit_of_mem_toDigits (by decide) (by decide) h)))
  · exact .inr (.inr (.inr h))

theorem digit_range {c : Char} (h : c.isDigit = true) : 48 ≤ c.toNat ∧ c.toNat ≤ 57 := by
  rw [Char.isDigit, Bool.and_eq_true, decide_eq_true_eq, decide_eq_true_eq] at h
  exact h

/-- A digit, a parenthesis and a space are in no list of characters that starts behind them. -/
theorem isForbidden_of_mem_numberSuffix {number : ℕ} {c : Char} (h : c ∈ numberSuffix number) :
    isForbidden c = false := by
  rcases mem_numberSuffix h with rfl | rfl | hdigit | rfl
  · decide
  · decide
  · have hrange := digit_range hdigit
    have hall : ∀ n, 48 ≤ n → n ≤ 57 → isForbidden (Char.ofNat n) = false := by decide
    rw [← Char.ofNat_toNat c]
    exact hall c.toNat hrange.1 hrange.2
  · decide

theorem getLast?_numberSuffix (number : ℕ) : (numberSuffix number).getLast? = some ')' := by
  rw [numberSuffix, ← List.cons_append, ← List.cons_append, List.getLast?_append]
  rfl

theorem accepted_numbered {base : Str} (h : Accepted base) {number : ℕ} (hn : number < 10 ^ 9) :
    Accepted (numbered base number) := by
  have hlength := length_numberSuffix hn
  have hsome : numberSuffix number ≠ [] := cons_ne_nil _ _
  have hbegins : (base.take (maxSheetNameChars - (numberSuffix number).length)).rdropWhile
      Text.isWhitespace <+: base := (List.rdropWhile_prefix _ _).trans (List.take_prefix _ _)
  rw [numbered]
  refine ⟨?_, ⟨'(', ?_, by decide⟩, fun c hc ↦ ?_, fun hhead ↦ ?_, fun hlast ↦ ?_⟩
  · have hcut := (List.rdropWhile_prefix Text.isWhitespace
      (base.take (maxSheetNameChars - (numberSuffix number).length))).length_le.trans
      (length_take_le _ _)
    rw [length_append]
    simp only [maxSheetNameChars] at hcut ⊢
    omega
  · exact mem_append_right _ (.tail _ (.head _))
  · rcases mem_append.1 hc with hc | hc
    · exact h.clean c (hbegins.subset hc)
    · exact isForbidden_of_mem_numberSuffix hc
  · rw [head?_append] at hhead
    rcases hcut : ((base.take (maxSheetNameChars - (numberSuffix number).length)).rdropWhile
        Text.isWhitespace) with _ | ⟨c, cut⟩
    · rw [hcut] at hhead
      have hspace : ' ' = '\'' := Option.some.inj hhead
      simp at hspace
    · rw [hcut] at hhead hbegins
      obtain ⟨more, hmore⟩ := hbegins
      refine h.head ?_
      rw [← hmore]
      exact hhead
  · rw [getLast?_append, getLast?_numberSuffix] at hlast
    have hclose : ')' = '\'' := Option.some.inj hlast
    simp at hclose

/-! ## Names that are free -/

variable {L}

/-- A name that the loop gives is the first one or a numbered one, and is not taken. -/
theorem freeName_spec {taken : List Str} {base name found : Str} {fuel number : ℕ}
    (h : freeName L taken base fuel number name = some found) :
    (found = name ∨ ∃ k, k < number + fuel ∧ found = numbered base k) ∧ L.lower found ∉ taken := by
  induction fuel generalizing number name with
  | zero => cases h
  | succ fuel ih =>
    rw [freeName] at h
    split at h
    · obtain ⟨hfound, hfree⟩ := ih h
      refine ⟨.inr ?_, hfree⟩
      rcases hfound with rfl | ⟨k, hk, rfl⟩
      · exact ⟨number, by omega, rfl⟩
      · exact ⟨k, by omega, rfl⟩
    · rename_i hfree
      rw [Option.some.injEq] at h
      exact ⟨.inl h.symm, h ▸ hfree⟩

theorem sheetName_spec {taken : List Str} {wanted name : Str} (hlen : taken.length < 10 ^ 8)
    (h : sheetName L taken wanted = some name) : Accepted name ∧ L.lower name ∉ taken := by
  obtain ⟨hname, hfree⟩ := freeName_spec h
  refine ⟨?_, hfree⟩
  rcases hname with rfl | ⟨k, hk, rfl⟩
  · exact accepted_baseName wanted
  · exact accepted_numbered (accepted_baseName wanted) (by omega)

/-- **The names of sheets are names that Excel accepts, and no two of them are the same in lower
case.** -/
theorem sheetNames_spec {taken wanted names : List Str}
    (hlen : taken.length + wanted.length < 10 ^ 8) (h : sheetNames L taken wanted = some names) :
    names.length = wanted.length ∧ (∀ name ∈ names, Accepted name) ∧
      (names.map L.lower).Nodup ∧ ∀ name ∈ names, L.lower name ∉ taken := by
  induction wanted generalizing taken names with
  | nil =>
    obtain rfl : [] = names := Option.some.inj h
    exact ⟨rfl, nofun, nodup_nil,
      nofun⟩
  | cons w wanted ih =>
    rw [length_cons] at hlen
    obtain ⟨name, hname, h⟩ := Option.bind_eq_some_iff.1 h
    obtain ⟨more, hmore, rfl⟩ := Option.map_eq_some_iff.1 h
    obtain ⟨haccepted, hfree⟩ := sheetName_spec (by omega) hname
    obtain ⟨hlength, hall, hnodup, hnew⟩ := ih (by rw [length_cons]; omega) hmore
    refine ⟨congrArg Nat.succ hlength, forall_mem_cons.2 ⟨haccepted, hall⟩, ?_,
      forall_mem_cons.2 ⟨hfree, fun other hother hmem ↦ ?_⟩⟩
    · rw [map_cons, nodup_cons]
      refine ⟨fun hmem ↦ ?_, hnodup⟩
      obtain ⟨other, hother, hsame⟩ := mem_map.1 hmem
      exact hnew other hother (hsame ▸ (.head _))
    · exact hnew other hother (.tail _ hmem)

end Huntsman.Xlsx
