import Huntsman.Lib.Utf8
import Huntsman.Text

/-!
# Equality of words, their case aside

Two words are the same when their characters, lowercased one at a time, are.  `eqIgnoreCase`
compares the bytes instead, and most words are settled by the first bytes that differ.  `Lowercase`
is what it relies on for that: a character below 128 has one lower case form, its ASCII one, and no
character has none.
-/

set_option autoImplicit false

namespace Huntsman.TextNorm

open List Utf8

/-- `u8::to_ascii_lowercase`. -/
def toAsciiLowercase (b : UInt8) : UInt8 := if 65 ≤ b ∧ b ≤ 90 then b + 32 else b

/-- `u8::eq_ignore_ascii_case`. -/
def eqIgnoreAsciiCase (p q : UInt8) : Bool := toAsciiLowercase p == toAsciiLowercase q

/-- `u8::is_ascii`. -/
def isAscii (b : UInt8) : Bool := b < 128

/-- The loop over the bytes, which returns at the first that differ. -/
def differing (slow : Bool) : List (UInt8 × UInt8) → Option Bool
  | [] => none
  | (p, q) :: pairs =>
    if !eqIgnoreAsciiCase p q then some (!(isAscii p && isAscii q) && slow)
    else differing slow pairs

/-- What the bytes say, when the slow comparison says `slow`. -/
def compareBytes (slow : Bool) (x y : List UInt8) : Bool :=
  (differing slow (x.zip y)).getD (x.length == y.length)

/-- `lower` is `char::to_lowercase`. -/
def eqIgnoreCase (lower : Char → List Char) (a b : String) : Bool :=
  compareBytes (a.toList.flatMap lower == b.toList.flatMap lower) (Text.utf8 a) (Text.utf8 b)

/-- What is relied on of `char::to_lowercase`. -/
structure Lowercase (lower : Char → List Char) : Prop where
  ascii : ∀ c : Char, c.toNat < 128 → lower c = [c.toLower]
  ne_nil : ∀ c, lower c ≠ []

/-! ## Bytes that differ -/

theorem toNat_toAsciiLowercase (b : UInt8) : (toAsciiLowercase b).toNat =
    if 65 ≤ b.toNat ∧ b.toNat ≤ 90 then b.toNat + 32 else b.toNat := by
  simp only [toAsciiLowercase, UInt8.le_iff_toNat_le, UInt8.reduceToNat]
  split_ifs
  · rw [UInt8.toNat_add]
    exact Nat.mod_eq_of_lt (show b.toNat + 32 < 256 by omega)
  · rfl

theorem toAsciiLowercase_ascii {c : Char} (h : c.toNat < 128) :
    toAsciiLowercase c.toUInt8 = c.toLower.toUInt8 ∧ c.toLower.toNat < 128 := by
  have hall : ∀ n : Fin 128, toAsciiLowercase (Char.ofNat n).toUInt8 = (Char.ofNat n).toLower.toUInt8 ∧
      (Char.ofNat n).toLower.toNat < 128 := by decide
  rw [← Char.ofNat_toNat c]
  exact hall ⟨c.toNat, h⟩

/-- ASCII characters whose bytes are the same but for case have the same lower case form. -/
theorem eqIgnoreAsciiCase_ascii {c d : Char} (hc : c.toNat < 128) (hd : d.toNat < 128) :
    eqIgnoreAsciiCase c.toUInt8 d.toUInt8 = true ↔ c.toLower = d.toLower := by
  obtain ⟨hlower, hascii⟩ := toAsciiLowercase_ascii hc
  obtain ⟨hlower', hascii'⟩ := toAsciiLowercase_ascii hd
  rw [eqIgnoreAsciiCase, beq_iff_eq, hlower, hlower', toUInt8_inj hascii hascii']

theorem eqIgnoreAsciiCase_refl (b : UInt8) : eqIgnoreAsciiCase b b = true := beq_self_eq_true _

/-- A byte that is not ASCII is the same as no other. -/
theorem eqIgnoreAsciiCase_of_not_ascii {p q : UInt8} (hne : p ≠ q)
    (h : (isAscii p && isAscii q) = false) : eqIgnoreAsciiCase p q = false := by
  rw [eqIgnoreAsciiCase, beq_eq_false_iff_ne]
  rw [isAscii, isAscii, Bool.and_eq_false_iff, decide_eq_false_iff_not, decide_eq_false_iff_not] at h
  rw [Ne, ← UInt8.toNat_inj] at hne ⊢
  simp only [UInt8.lt_iff_toNat_lt, UInt8.reduceToNat] at h
  rw [toNat_toAsciiLowercase, toNat_toAsciiLowercase]
  split_ifs <;> omega

variable {slow : Bool} {p q : UInt8} {x y : List UInt8}

/-- Bytes that are the same but for case are passed. -/
theorem compareBytes_same (h : eqIgnoreAsciiCase p q = true) :
    compareBytes slow (p :: x) (q :: y) = compareBytes slow x y := by
  have hlength : ((p :: x).length == (q :: y).length) = (x.length == y.length) := by
    rw [length_cons, length_cons, Bool.eq_iff_iff, beq_iff_eq, beq_iff_eq,
      Nat.add_right_cancel_iff]
  rw [compareBytes, hlength, zip_cons_cons, differing, h]
  rfl

theorem compareBytes_append (bytes : List UInt8) :
    compareBytes slow (bytes ++ x) (bytes ++ y) = compareBytes slow x y := by
  induction bytes with
  | nil => rfl
  | cons b bytes ih => exact (compareBytes_same (eqIgnoreAsciiCase_refl b)).trans ih

theorem compareBytes_differ (h : eqIgnoreAsciiCase p q = false) :
    compareBytes slow (p :: x) (q :: y) = (!(isAscii p && isAscii q) && slow) := by
  rw [compareBytes, zip_cons_cons, differing, h]
  rfl

/-! ## Characters -/

variable {lower : Char → List Char} {c d : Char} {cs ds : List Char}

theorem Lowercase.flatMap_ne_nil (hlower : Lowercase lower) (c : Char) (cs : List Char) :
    (c :: cs).flatMap lower ≠ [] := fun h ↦
  hlower.ne_nil c (append_eq_nil_iff.1 (flatMap_cons ▸ h)).1

/-- Characters that are not both ASCII differ in bytes that are not. -/
theorem differ_not_ascii (hcd : c ≠ d) (hascii : ¬(c.toNat < 128 ∧ d.toNat < 128)) :
    ∃ same p x q y, eqIgnoreAsciiCase p q = false ∧ (isAscii p && isAscii q) = false ∧
      String.utf8EncodeChar c = same ++ p :: x ∧ String.utf8EncodeChar d = same ++ q :: y := by
  obtain ⟨same, p, x, q, y, hne, hp, hq⟩ := Text.utf8EncodeChar_delimited.differ hcd
  have hboth : (isAscii p && isAscii q) = false := by
    rw [Bool.eq_false_iff, Ne, Bool.and_eq_true, isAscii, isAscii, decide_eq_true_iff,
      decide_eq_true_iff, UInt8.lt_iff_toNat_lt, UInt8.lt_iff_toNat_lt]
    rintro ⟨hp', hq'⟩
    exact hascii ⟨ascii_of_mem (by simp [hp]) hp', ascii_of_mem (by simp [hq]) hq'⟩
  exact ⟨same, p, x, q, y, eqIgnoreAsciiCase_of_not_ascii hne hboth, hboth, hp, hq⟩

/-- **What is left of two words decides**, if the slow comparison says whether that is the same. -/
theorem compareBytes_iff (hlower : Lowercase lower)
    (hslow : slow = true ↔ cs.flatMap lower = ds.flatMap lower) :
    compareBytes slow (Utf8.encode cs) (Utf8.encode ds) = true ↔ cs.flatMap lower = ds.flatMap lower := by
  induction cs generalizing ds with
  | nil =>
    cases ds with
    | nil => exact iff_of_true rfl rfl
    | cons d ds =>
      refine iff_of_false (fun h ↦ ?_) (hlower.flatMap_ne_nil d ds).symm
      have hnil := length_eq_zero_iff.1 (beq_iff_eq.1 h).symm
      exact cons_ne_nil d ds (encode_eq_nil.1 hnil)
  | cons c cs ih =>
    cases ds with
    | nil =>
      refine iff_of_false (fun h ↦ ?_) (hlower.flatMap_ne_nil c cs)
      rw [encode_nil, compareBytes, zip_nil_right] at h
      have hnil := length_eq_zero_iff.1 (beq_iff_eq.1 h)
      exact cons_ne_nil c cs (encode_eq_nil.1 hnil)
    | cons d ds =>
      by_cases hcd : c = d
      · subst hcd
        rw [flatMap_cons, flatMap_cons, append_cancel_left_eq] at hslow ⊢
        rw [encode_cons, encode_cons, compareBytes_append]
        exact ih hslow
      by_cases hascii : c.toNat < 128 ∧ d.toNat < 128
      · obtain ⟨hc, hd⟩ := hascii
        rw [flatMap_cons, flatMap_cons, hlower.ascii c hc, hlower.ascii d hd,
          singleton_append, singleton_append, cons.injEq] at hslow ⊢
        rw [encode_cons, encode_cons, encode_ascii hc, encode_ascii hd,
          singleton_append, singleton_append]
        rcases hheads : eqIgnoreAsciiCase c.toUInt8 d.toUInt8 with _ | _
        · -- two ASCII characters that differ have different lower case forms
          have hne : c.toLower ≠ d.toLower := by
            rw [Ne, ← eqIgnoreAsciiCase_ascii hc hd, hheads]
            exact Bool.false_ne_true
          refine iff_of_false (fun h ↦ ?_) fun h ↦ hne h.1
          rw [compareBytes_differ hheads, Bool.and_eq_true] at h
          exact hne (hslow.1 h.2).1
        · have heq : c.toLower = d.toLower := (eqIgnoreAsciiCase_ascii hc hd).1 hheads
          rw [compareBytes_same hheads, ih (hslow.trans (and_iff_right heq)), and_iff_right heq]
      · obtain ⟨same, p, x, q, y, hdiffer, hboth, hp, hq⟩ := differ_not_ascii hcd hascii
        rw [encode_cons, encode_cons, hp, hq, append_assoc, append_assoc, compareBytes_append,
          cons_append, cons_append, compareBytes_differ hdiffer, hboth]
        exact hslow

/-- **The bytes never disagree with the characters.** -/
theorem eqIgnoreCase_iff (hlower : Lowercase lower) (a b : String) :
    eqIgnoreCase lower a b = true ↔ a.toList.flatMap lower = b.toList.flatMap lower :=
  compareBytes_iff hlower beq_iff_eq

/-- `É` has the lower case form `é`, which has other bytes. -/
def lowerE (c : Char) : List Char := if c = 'É' then ['é'] else [c.toLower]

theorem lowercase_lowerE : Lowercase lowerE where
  ascii c hc := by
    rw [lowerE, if_neg]
    rintro rfl
    simp at hc
  ne_nil c := by
    rw [lowerE]
    split_ifs <;> exact cons_ne_nil _ _

theorem eqIgnoreCase_emile :
    (eqIgnoreCase lowerE "Émile" "éMILE" = true ↔
      "Émile".toList.flatMap lowerE = "éMILE".toList.flatMap lowerE) ∧
    "Émile".toList.flatMap lowerE = "émile".toList :=
  ⟨eqIgnoreCase_iff lowercase_lowerE "Émile" "éMILE", by decide⟩

end Huntsman.TextNorm
