import Huntsman.Apk.Archive
import Huntsman.Ledger
import Mathlib.Data.Option.Basic

/-!
# Certificates

The elements of a DER text, and what a certificate is known by: the SHA-256 of its DER and of its
public key's.  Of a certificate's names only their structure is read here, as far as it decides
whether the text is a certificate.
-/

set_option autoImplicit false

namespace Huntsman.Apk

open Bytes Ledger

theorem guard_ok {p : Prop} [Decidable p] {u : Unit} : (guard p : Option Unit) = some u ↔ p := by
  by_cases h : p <;> simp [guard, h]

/-- A range of a text, from its first position to the one after its last. -/
abbrev Span := ℕ × ℕ

/-- The bytes of a range. -/
def cut (data : List UInt8) (s : Span) : List UInt8 := (data.drop s.1).take (s.2 - s.1)

namespace Der

def sequence : UInt8 := 0x30

def oid : UInt8 := 0x06

def integer : UInt8 := 0x02

def bitString : UInt8 := 0x03

def null : UInt8 := 0x05

def context0 : UInt8 := 0xa0

/-- One DER element: its tag, where it begins, and the range of its contents. -/
structure Tlv where
  tag : UInt8
  pos : ℕ
  start : ℕ
  fin : ℕ
deriving DecidableEq

/-- The contents of an element. -/
def Tlv.span (t : Tlv) : Span := (t.start, t.fin)

/-- The length of an element's contents and of what stands before them. -/
def lengthAt (data : List UInt8) (pos : ℕ) : Option (ℕ × ℕ) := do
  let first ← data[pos + 1]?
  if first.toNat < 128 then return (first.toNat, 2)
  else
    let count := first.toNat % 128
    guard (¬ (count = 0 ∨ 4 < count))
    let bytes ← slice data (pos + 2) (pos + 2 + count)
    return (bytes.foldl (fun sum byte ↦ 256 * sum + byte.toNat) 0, 2 + count)

/-- The element at `pos`, inside `limit`. -/
def tlv (data : List UInt8) (pos limit : ℕ) : Option Tlv := do
  let tag ← data[pos]?
  guard (tag.toNat % 32 ≠ 31)
  let length ← lengthAt data pos
  guard (pos + length.2 + length.1 ≤ limit ∧ pos + length.2 + length.1 ≤ data.length)
  return ⟨tag, pos, pos + length.2, pos + length.2 + length.1⟩

theorem lengthAt_header {data : List UInt8} {pos : ℕ} {length : ℕ × ℕ}
    (h : lengthAt data pos = some length) : 2 ≤ length.2 := by
  simp only [lengthAt, Option.bind_eq_bind, Option.bind_eq_some_iff] at h
  obtain ⟨first, -, h⟩ := h
  split at h
  · rw [← Option.some.inj h]
  · simp only [Option.bind_eq_some_iff] at h
    obtain ⟨-, -, bytes, -, h⟩ := h
    rw [← Option.some.inj h]
    exact Nat.le_add_right 2 _

theorem tlv_lt {data : List UInt8} {pos limit : ℕ} {t : Tlv} (h : tlv data pos limit = some t) :
    pos < t.fin ∧ t.fin ≤ limit := by
  simp only [tlv, Option.bind_eq_bind, Option.bind_eq_some_iff, guard_ok] at h
  obtain ⟨tag, -, -, -, length, hlength, -, hle, h⟩ := h
  have hheader := lengthAt_header hlength
  rw [← Option.some.inj h]
  simp only
  omega

/-- The elements from `pos` on, which have to fill the range up to `limit`. -/
def childrenFrom (data : List UInt8) (limit pos : ℕ) : Option (List Tlv) :=
  if pos < limit then
    match _hchild : tlv data pos limit with
    | none => none
    | some child => (childrenFrom data limit child.fin).map (child :: ·)
  else some []
termination_by limit - pos
decreasing_by
  have hlt := tlv_lt _hchild
  omega

def children (data : List UInt8) (outer : Tlv) : Option (List Tlv) :=
  childrenFrom data outer.fin outer.start

/-- Whether a name is a sequence of sets of attributes, each of a type and a value. -/
def name (data : List UInt8) (t : Tlv) : Option Unit := do
  let sets ← children data t
  sets.forM fun set ↦ do
    let pairs ← children data set
    pairs.forM fun pair ↦ do
      match ← children data pair with
      | [type, _] => guard (type.tag = oid)
      | _ => none

end Der

/-- What a signing certificate is known by. -/
structure Certificate where
  scheme : String
  sha256 : Str
  publicKeySha256 : Str
deriving DecidableEq

open Der in
/-- The certificate `der`, if it is one. -/
def certificate (sha256 : List UInt8 → Digest) (der : List UInt8) (scheme : String) :
    Option Certificate := do
  let outer ← tlv der 0 der.length
  guard (outer.tag = sequence ∧ outer.fin = der.length)
  let tbs ← (← children der outer).head?
  guard (tbs.tag = sequence)
  let fields ← children der tbs
  let first ← fields.head?
  match fields.drop (if first.tag = context0 then 1 else 0) with
  | serial :: _ :: issuer :: validity :: subject :: spki :: _ =>
    guard (serial.tag = integer ∧ validity.tag = sequence ∧ spki.tag = sequence)
    let times ← children der validity
    guard (times.length = 2)
    name der subject
    name der issuer
    return ⟨scheme, hex32 (sha256 der), hex32 (sha256 (cut der (spki.pos, spki.fin)))⟩
  | _ => none

theorem certificate_sha256 {sha256 : List UInt8 → Digest} {der : List UInt8} {scheme : String}
    {c : Certificate} (h : certificate sha256 der scheme = some c) : c.sha256 = hex32 (sha256 der) := by
  simp only [certificate, Option.bind_eq_bind, Option.bind_eq_some_iff] at h
  obtain ⟨outer, -, -, -, list, -, tbs, -, -, -, fields, -, first, -, h⟩ := h
  split at h
  · simp only [Option.bind_eq_some_iff] at h
    obtain ⟨-, -, times, -, -, -, -, -, -, -, h⟩ := h
    rw [← Option.some.inj h]
  · simp at h

end Huntsman.Apk
