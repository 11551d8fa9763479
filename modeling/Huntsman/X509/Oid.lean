import Huntsman.Canonical.Numbers
import Huntsman.Lib.Base128
import Mathlib.Data.List.Nodup
import Mathlib.Data.Nat.Bitwise

/-!
# Object identifiers of a certificate

An object identifier is a list of numbers, its arcs, and nothing bounds an arc: the identifiers made
of a UUID have one of 128 bits.  In a certificate the first two arcs are folded into one number, and
each number is written in bytes of seven bits.

`oidText` gathers the bits of a number in a word of 64, so what it prints is the number's remainder
modulo `2 ^ 64` (`oidText_contents`).  An identifier whose numbers fit the word is printed as it is,
one that has a larger number is printed as another identifier, and the two are taken for each other
wherever the reader asks for an identifier by its text (`readExactly_iff_fits`).
-/

set_option autoImplicit false

namespace Huntsman.X509

open List

open Canonical (Chars decimal)

/-! ## The source -/

/-- A byte read: the arcs that are finished, and the one that is gathered. -/
def readOctet (state : List UInt64 × UInt64) (octet : UInt8) : List UInt64 × UInt64 :=
  let arc := (state.2 <<< 7) ||| (octet &&& 0x7f).toUInt64
  if octet &&& 0x80 = 0 then (state.1 ++ [arc], 0) else (state.1, arc)

def arcs (octets : List UInt8) : List UInt64 := (octets.foldl readOctet ([], 0)).1

/-- The first two arcs of the number they are folded into. -/
def topAndSecond (first : ℕ) : ℕ × ℕ :=
  if first < 40 then (0, first) else if first < 80 then (1, first - 40) else (2, first - 80)

/-- The text of the numbers of an identifier. -/
def printArcs : List ℕ → Chars
  | [] => []
  | first :: rest =>
    decimal (topAndSecond first).1 ++ '.' :: decimal (topAndSecond first).2 ++
      rest.flatMap fun arc ↦ '.' :: decimal arc

/-- An object identifier in dotted form. -/
def oidText (octets : List UInt8) : String :=
  String.ofList (printArcs ((arcs octets).map UInt64.toNat))

/-- The short names of name attribute types. -/
def attributeNames : List (String × String) := [
  ("2.5.4.3", "CN"),
  ("2.5.4.4", "SN"),
  ("2.5.4.5", "serialNumber"),
  ("2.5.4.6", "C"),
  ("2.5.4.7", "L"),
  ("2.5.4.8", "ST"),
  ("2.5.4.9", "street"),
  ("2.5.4.10", "O"),
  ("2.5.4.11", "OU"),
  ("2.5.4.12", "title"),
  ("2.5.4.15", "businessCategory"),
  ("2.5.4.17", "postalCode"),
  ("2.5.4.42", "GN"),
  ("2.5.4.97", "organizationIdentifier"),
  ("1.2.840.113549.1.9.1", "emailAddress"),
  ("0.9.2342.19200300.100.1.25", "DC"),
  ("0.9.2342.19200300.100.1.1", "UID"),
  ("1.3.6.1.4.1.311.60.2.1.1", "jurisdictionL"),
  ("1.3.6.1.4.1.311.60.2.1.2", "jurisdictionST"),
  ("1.3.6.1.4.1.311.60.2.1.3", "jurisdictionC")]

/-- The names of signature algorithms. -/
def signatureNames : List (String × String) := [
  ("1.2.840.113549.1.1.4", "md5WithRSAEncryption"),
  ("1.2.840.113549.1.1.5", "sha1WithRSAEncryption"),
  ("1.2.840.113549.1.1.10", "rsassaPss"),
  ("1.2.840.113549.1.1.11", "sha256WithRSAEncryption"),
  ("1.2.840.113549.1.1.12", "sha384WithRSAEncryption"),
  ("1.2.840.113549.1.1.13", "sha512WithRSAEncryption"),
  ("1.2.840.10045.4.1", "ecdsa-with-SHA1"),
  ("1.2.840.10045.4.3.2", "ecdsa-with-SHA256"),
  ("1.2.840.10045.4.3.3", "ecdsa-with-SHA384"),
  ("1.2.840.10045.4.3.4", "ecdsa-with-SHA512"),
  ("1.3.101.112", "ED25519"),
  ("1.3.101.113", "ED448")]

/-- What `public_key` calls the kinds of key, before the size or the curve. -/
def keyNames : List (String × String) := [
  ("1.2.840.113549.1.1.1", "RSA"),
  ("1.2.840.10045.2.1", "EC"),
  ("1.3.101.112", "Ed25519"),
  ("1.3.101.113", "Ed448")]

/-- What it calls the curves. -/
def curveNames : List (String × String) := [
  ("1.2.840.10045.3.1.7", "P-256"),
  ("1.3.132.0.34", "P-384"),
  ("1.3.132.0.35", "P-521")]

/-- The name in a table, or the dotted form itself. -/
def named (names : List (String × String)) (kind : String) : String :=
  (names.lookup kind).getD kind

def attributeName (kind : String) : String := named attributeNames kind

def signatureName (kind : String) : String := named signatureNames kind

/-- What `extensions` reads. -/
inductive Extension where
  | alternativeNames
  | isCa
  | precertificate
deriving DecidableEq

/-- The extension of a certificate that an identifier is taken for. -/
def extension (kind : String) : Option Extension :=
  if kind = "2.5.29.17" then some .alternativeNames
  else if kind = "2.5.29.19" then some .isCa
  else if kind = "1.3.6.1.4.1.11129.2.4.3" then some .precertificate
  else none

/-! ## Object identifiers -/

/-- An object identifier. -/
structure Oid where
  first : ℕ
  second : ℕ
  rest : List ℕ
  first_le : first ≤ 2
  second_lt : first < 2 → second < 40
deriving DecidableEq

namespace Oid

variable (a b : Oid)

/-- The numbers that are written of an identifier. -/
def numbers : List ℕ := (40 * a.first + a.second) :: a.rest

/-- The contents octets. -/
def contents : List UInt8 := a.numbers.flatMap Base128.write

/-- The dotted decimal form. -/
def dotted : String :=
  String.ofList (['.'].intercalate ((a.first :: a.second :: a.rest).map decimal))

/-- The numbers that are written all fit a word. -/
def Fits : Prop := ∀ n ∈ a.numbers, n < 2 ^ 64

instance : DecidablePred Fits := fun a ↦ inferInstanceAs (Decidable (∀ n ∈ a.numbers, n < 2 ^ 64))

end Oid

/-! ## The word that a number is gathered in -/

/-- Seven bits more of a number in a word. -/
def addBits (arc : UInt64) (bits : ℕ) : UInt64 := (arc <<< 7) ||| UInt64.ofNat bits

theorem readOctet_eq : readOctet = Base128.step addBits 0 := by
  funext state octet
  have hbits : (octet &&& 0x7f).toUInt64 = UInt64.ofNat (octet.toNat % 128) := by
    apply UInt64.toNat_inj.1
    rw [UInt8.toNat_toUInt64, UInt8.toNat_and, UInt64.toNat_ofNat', Nat.mod_eq_of_lt (by omega)]
    exact Nat.and_two_pow_sub_one_eq_mod octet.toNat 7
  have hlast : octet &&& 0x80 = 0 ↔ octet.toNat < 128 := by
    have hlt := octet.toNat_lt
    have hbit : octet.toNat &&& 128 = (octet.toNat.testBit 7).toNat * 128 :=
      Nat.and_two_pow octet.toNat 7
    rw [← UInt8.toNat_inj, UInt8.toNat_and]
    change octet.toNat &&& 128 = 0 ↔ _
    rw [hbit, Nat.testBit_eq_decide_div_mod_eq]
    by_cases h : octet.toNat / 2 ^ 7 % 2 = 1
    · rw [decide_eq_true h, Bool.toNat_true]
      omega
    · rw [decide_eq_false h, Bool.toNat_false]
      omega
  rw [readOctet, Base128.step, hbits]
  exact if_congr hlast rfl rfl

/-- The word keeps the remainder of a number. -/
theorem addBits_ofNat (n bits : ℕ) (hbits : bits < 128) :
    addBits (UInt64.ofNat n) bits = UInt64.ofNat (128 * n + bits) := by
  apply UInt64.toNat_inj.1
  have hshift : (UInt64.ofNat n <<< 7).toNat = (n % 2 ^ 57) <<< 7 := by
    rw [UInt64.toNat_shiftLeft, UInt64.toNat_ofNat', Nat.shiftLeft_eq, Nat.shiftLeft_eq]
    change n % 2 ^ 64 * 2 ^ 7 % 2 ^ 64 = _
    omega
  rw [addBits, UInt64.toNat_or, hshift, UInt64.toNat_ofNat', UInt64.toNat_ofNat',
    Nat.mod_eq_of_lt (a := bits) (by omega), ← Nat.shiftLeft_add_eq_or_of_lt hbits,
    Nat.shiftLeft_eq]
  omega

/-- What is read of numbers that are written is their remainders. -/
theorem arcs_write (ns : List ℕ) :
    (arcs (ns.flatMap Base128.write)).map UInt64.toNat = ns.map (· % 2 ^ 64) := by
  have hread := Base128.foldl_step_flatMap rfl addBits_ofNat ns []
  rw [arcs, readOctet_eq, show (0 : UInt64) = UInt64.ofNat 0 from rfl, hread, nil_append,
    map_map]
  exact map_congr_left fun n _ ↦ UInt64.toNat_ofNat'

/-! ## The text of numbers -/

/-- The dots are between the arcs, or one is after each. -/
theorem printArcs_append (first : ℕ) (rest : List ℕ) :
    printArcs (first :: rest) ++ ['.'] =
      ((topAndSecond first).1 :: (topAndSecond first).2 :: rest).flatMap
        fun arc ↦ decimal arc ++ ['.'] := by
  have hrest : ∀ ns : List ℕ, '.' :: ns.flatMap (fun arc ↦ decimal arc ++ ['.']) =
      (ns.flatMap fun arc ↦ '.' :: decimal arc) ++ ['.'] := by
    intro ns
    induction ns with
    | nil => rfl
    | cons n ns ih =>
      rw [flatMap_cons, flatMap_cons, append_assoc, singleton_append, ih,
        append_assoc, cons_append]
  rw [flatMap_cons, flatMap_cons, printArcs]
  simp only [append_assoc, cons_append, nil_append, hrest]

theorem delimited_arc : Codes.Delimited fun arc : ℕ ↦ decimal arc ++ ['.'] := by
  intro m n s t h
  have hdot : ∀ n, '.' ∉ decimal n := fun n hmem ↦
    absurd (Canonical.decimal_digits n _ hmem) (by decide)
  have hsplit := congrArg (Pieces.splitOnce '.') h
  simp only [append_assoc, singleton_append] at hsplit
  rw [Pieces.splitOnce_append (hdot m), Pieces.splitOnce_append (hdot n)] at hsplit
  obtain ⟨hdigits, hrest⟩ := Prod.mk.inj (Option.some.inj hsplit)
  exact ⟨Canonical.decimal_injective hdigits, hrest⟩

theorem topAndSecond_injective : Function.Injective topAndSecond := by
  intro m n h
  rw [topAndSecond, topAndSecond] at h
  grind

/-- Different numbers have different texts. -/
theorem printArcs_injective {first first' : ℕ} {rest rest' : List ℕ}
    (h : printArcs (first :: rest) = printArcs (first' :: rest')) :
    first :: rest = first' :: rest' := by
  have hdots := congrArg (· ++ ['.']) h
  simp only [printArcs_append] at hdots
  have hne : ∀ n, decimal n ++ ['.'] ≠ [] := fun n ↦ append_ne_nil_of_right_ne_nil _ (by simp)
  have hlists := delimited_arc.flatMap_injective hne hdots
  injection hlists with htop hsecond
  injection hsecond with hsecond hrest
  rw [topAndSecond_injective (Prod.ext htop hsecond), hrest]

namespace Oid

variable (a b : Oid)

theorem topAndSecond_eq : topAndSecond (40 * a.first + a.second) = (a.first, a.second) := by
  have hle := a.first_le
  have hlt := a.second_lt
  rw [topAndSecond]
  grind

theorem dotted_eq : a.dotted = String.ofList (printArcs a.numbers) := by
  rw [dotted, numbers, printArcs, topAndSecond_eq, map_cons,
    Pieces.intercalate_cons_eq_append_flatMap, flatMap_map, flatMap_cons]
  simp only [cons_append, append_assoc, nil_append]

theorem numbers_injective : Function.Injective numbers := by
  intro a b h
  injection h with hfirst hrest
  have htop := congrArg topAndSecond hfirst
  rw [topAndSecond_eq, topAndSecond_eq] at htop
  obtain ⟨hfirst, hsecond⟩ := Prod.mk.inj htop
  cases a
  cases b
  cases hfirst
  cases hsecond
  cases hrest
  rfl

theorem dotted_injective : Function.Injective dotted := by
  intro a b h
  rw [dotted_eq, dotted_eq] at h
  exact numbers_injective (printArcs_injective (String.ofList_injective h))

/-- What is printed of an identifier is the text of its numbers' remainders. -/
theorem oidText_contents :
    oidText a.contents = String.ofList (printArcs (a.numbers.map (· % 2 ^ 64))) := by
  rw [oidText, contents, arcs_write]

/-- An identifier is printed as it is when its numbers fit the word, and otherwise never. -/
theorem oidText_eq_dotted : oidText a.contents = a.dotted ↔ a.Fits := by
  rw [oidText_contents, dotted_eq]
  constructor
  · intro h n hn
    have hnumbers : a.numbers.map (· % 2 ^ 64) = a.numbers.map id := by
      rw [map_id]
      exact printArcs_injective (String.ofList_injective h)
    have hmod : n % 2 ^ 64 = n := map_inj_left.1 hnumbers n hn
    omega
  · intro h
    have hmod : ∀ n ∈ a.numbers, n % 2 ^ 64 = id n := fun n hn ↦ Nat.mod_eq_of_lt (h n hn)
    rw [map_congr_left hmod, map_id]

/-- Two identifiers are printed alike when their numbers have the same remainders. -/
theorem oidText_eq_iff : oidText a.contents = oidText b.contents ↔
    a.numbers.map (· % 2 ^ 64) = b.numbers.map (· % 2 ^ 64) := by
  rw [oidText_contents, oidText_contents]
  constructor
  · intro h
    exact printArcs_injective (String.ofList_injective h)
  · intro h
    rw [h]

/-- A dotted form has a dot. -/
theorem dot_mem_dotted : '.' ∈ a.dotted.toList := by
  rw [dotted_eq, String.toList_ofList, numbers, printArcs]
  simp

end Oid

/-! ## What is asked of a text -/

/-- Each name of a table is there once, and none has a dot. -/
structure Distinguishes (names : List (String × String)) : Prop where
  nodup : (names.map Prod.snd).Nodup
  plain : ∀ p ∈ names, '.' ∉ p.2.toList

theorem named_cases (names : List (String × String)) (kind : String) :
    (kind, named names kind) ∈ names ∨ named names kind = kind := by
  rw [named]
  cases h : names.lookup kind with
  | none => exact .inr rfl
  | some name =>
    obtain ⟨before, after, heq, -⟩ := lookup_eq_some_iff.1 h
    left
    rw [heq, Option.getD_some]
    exact mem_append_right _ ((.head _) ..)

/-- Dotted forms with one name are the same. -/
theorem Distinguishes.named_injective {names : List (String × String)} (h : Distinguishes names)
    {kind kind' : String} (hkind : '.' ∈ kind.toList) (hkind' : '.' ∈ kind'.toList)
    (heq : named names kind = named names kind') : kind = kind' := by
  rcases named_cases names kind with hmem | hself
  · rcases named_cases names kind' with hmem' | hself'
    · rw [← heq] at hmem'
      exact congrArg Prod.fst (inj_on_of_nodup_map h.nodup hmem hmem' rfl)
    · rw [heq, hself'] at hmem
      exact absurd hkind' (h.plain _ hmem)
  · rcases named_cases names kind' with hmem' | hself'
    · rw [← heq, hself] at hmem'
      exact absurd hkind (h.plain _ hmem')
    · rw [← hself, heq, hself']

theorem attributeNames_distinguishes : Distinguishes attributeNames := ⟨by decide, by decide⟩

theorem signatureNames_distinguishes : Distinguishes signatureNames := ⟨by decide, by decide⟩

theorem keyNames_distinguishes : Distinguishes keyNames := ⟨by decide, by decide⟩

theorem curveNames_distinguishes : Distinguishes curveNames := ⟨by decide, by decide⟩

theorem extension_injective {kind kind' : String} {e : Extension} (h : extension kind = some e)
    (h' : extension kind' = some e) : kind = kind' := by
  rw [extension] at h h'
  grind

/-- Two identifiers are printed as they are, and nothing takes the one for the other. -/
structure ReadExactly (a b : Oid) : Prop where
  left : oidText a.contents = a.dotted
  right : oidText b.contents = b.dotted
  text : oidText a.contents = oidText b.contents → a = b
  attributeType : attributeName (oidText a.contents) = attributeName (oidText b.contents) → a = b
  signature : signatureName (oidText a.contents) = signatureName (oidText b.contents) → a = b
  key : named keyNames (oidText a.contents) = named keyNames (oidText b.contents) → a = b
  curve : named curveNames (oidText a.contents) = named curveNames (oidText b.contents) → a = b
  extension : ∀ e, extension (oidText a.contents) = some e →
    extension (oidText b.contents) = some e → a = b

/-- **Two identifiers are read exactly when all their numbers fit the word**, and they have one text
when their numbers have the same remainders. -/
theorem readExactly_iff_fits (a b : Oid) : (ReadExactly a b ↔ a.Fits ∧ b.Fits) ∧
    (oidText a.contents = oidText b.contents ↔
      a.numbers.map (· % 2 ^ 64) = b.numbers.map (· % 2 ^ 64)) := by
  refine ⟨⟨fun h ↦ ⟨a.oidText_eq_dotted.1 h.left, b.oidText_eq_dotted.1 h.right⟩, ?_⟩,
    a.oidText_eq_iff b⟩
  rintro ⟨ha, hb⟩
  rw [← Oid.oidText_eq_dotted] at ha hb
  have hdot : '.' ∈ (oidText a.contents).toList := ha ▸ a.dot_mem_dotted
  have hdot' : '.' ∈ (oidText b.contents).toList := hb ▸ b.dot_mem_dotted
  have htext (h : oidText a.contents = oidText b.contents) : a = b :=
    Oid.dotted_injective (ha.symm.trans (h.trans hb))
  exact {
    left := ha
    right := hb
    text := htext
    attributeType := fun h ↦ htext (attributeNames_distinguishes.named_injective hdot hdot' h)
    signature := fun h ↦ htext (signatureNames_distinguishes.named_injective hdot hdot' h)
    key := fun h ↦ htext (keyNames_distinguishes.named_injective hdot hdot' h)
    curve := fun h ↦ htext (curveNames_distinguishes.named_injective hdot hdot' h)
    extension := fun _ h h' ↦ htext (extension_injective h h') }

def basicConstraints : Oid := ⟨2, 5, [29, 19], by decide, by decide⟩

/-- An identifier whose last arc is `2 ^ 64` more. -/
def wideConstraints : Oid := ⟨2, 5, [29, 2 ^ 64 + 19], by decide, by decide⟩

/-- An identifier whose last arc does not fit the word is printed as another, and a certificate that
has it is taken for one that says whether it is an authority's. -/
theorem not_readExactly :
    wideConstraints ≠ basicConstraints ∧
      wideConstraints.dotted = "2.5.29.18446744073709551635" ∧
      oidText wideConstraints.contents = "2.5.29.19" ∧
      extension (oidText wideConstraints.contents) = some .isCa ∧
      extension (oidText basicConstraints.contents) = some .isCa ∧
      ¬ ReadExactly wideConstraints basicConstraints := by
  have htext : oidText wideConstraints.contents = "2.5.29.19" := by
    rw [Oid.oidText_contents]
    decide
  have htext' : oidText basicConstraints.contents = "2.5.29.19" := by
    rw [Oid.oidText_contents]
    decide
  refine ⟨by decide, by decide, htext, by rw [htext]; decide, by rw [htext']; decide, fun h ↦ ?_⟩
  have hsame := h.text (htext.trans htext'.symm)
  exact absurd hsame (by decide)

end Huntsman.X509
