import Huntsman.Apk.Archive

/-!
# Compiled XML

Android compiles XML to a stream of chunks: a pool of strings, a map from the first of the strings
to resource ids, and the elements' starts, texts and ends.  `xmlNodes` reads the elements of such a
stream.

A range that the source takes without a check is `range` here and an index is `at?`: out of bounds
they stop the program, `Fault.outOfBounds`.
-/

set_option autoImplicit false

namespace Huntsman.Axml

open Bytes
open Apk (le16 le32)

/-- Why a reader gave no result. -/
inductive Fault where
  | refused (reason : String)
  /-- A range or an index out of bounds: the program stops. -/
  | outOfBounds
deriving DecidableEq

/-- What `ok_or` makes of a missing value. -/
def orRefuse {α : Type} (reason : String) : Option α → Except Fault α
  | none => .error (.refused reason)
  | some a => .ok a

/-- What must be there. -/
def at? {α : Type} : Option α → Except Fault α
  | none => .error .outOfBounds
  | some a => .ok a

/-- `&data[a..b]`. -/
def range (data : List UInt8) (a b : ℕ) : Except Fault (List UInt8) := at? (slice data a b)

def xmlType : ℕ := 0x0003

def stringPoolType : ℕ := 0x0001

def resourceMapType : ℕ := 0x0180

def startElementType : ℕ := 0x0102

def endElementType : ℕ := 0x0103

def cdataType : ℕ := 0x0104

def noIndex : UInt32 := 0xffffffff

def maxDepth : ℕ := 64

def maxStrings : ℕ := 65536

def typeReference : UInt8 := 0x01

def typeString : UInt8 := 0x03

def typeIntDec : UInt8 := 0x10

def typeIntHex : UInt8 := 0x11

def typeIntBoolean : UInt8 := 0x12

/-- The framework attributes that are read, by their resource ids. -/
def attributeIds : List (UInt32 × String) :=
  [(0x01010003, "name"), (0x0101000e, "enabled"), (0x0101000f, "debuggable"),
    (0x01010010, "exported"), (0x01010018, "authorities"), (0x01010027, "scheme"),
    (0x01010028, "host"), (0x01010029, "port"), (0x0101002a, "path"), (0x0101002b, "pathPrefix"),
    (0x0101002c, "pathPattern"), (0x0101000b, "sharedUserId"), (0x0101020c, "minSdkVersion"),
    (0x0101021b, "versionCode"), (0x0101021c, "versionName"), (0x01010270, "targetSdkVersion"),
    (0x01010271, "maxSdkVersion"), (0x01010272, "testOnly"), (0x01010280, "allowBackup"),
    (0x010104ec, "usesCleartextTraffic"), (0x010104ee, "autoVerify"),
    (0x01010527, "networkSecurityConfig")]

/-- A number in hexadecimal, of at least `width` digits. -/
def hex (width n : ℕ) : String := String.ofList ((Nat.toDigits 16 n).leftpad width '0')

/-! ## Chunks -/

/-- The type of a chunk, the size of its header and its whole size. -/
abbrev Chunk := ℕ × ℕ × ℕ

def chunk (data : List UInt8) (pos limit : ℕ) : Except Fault Chunk := do
  let kind ← orRefuse "truncated chunk header" (le16 data pos)
  let header ← orRefuse "truncated chunk header" (le16 data (pos + 2))
  let size ← orRefuse "truncated chunk header" (le32 data (pos + 4))
  Except.ensure (¬ (header.toNat < 8 ∨ size.toNat < header.toNat ∨ limit < pos + size.toNat))
    (Fault.refused ("chunk 0x" ++ hex 4 kind.toNat ++ " at " ++ toString pos ++
      " has an invalid size"))
  return (kind.toNat, header.toNat, size.toNat)

theorem chunk_ok {data : List UInt8} {pos limit : ℕ} {c : Chunk} (h : chunk data pos limit = .ok c) :
    8 ≤ c.2.1 ∧ c.2.1 ≤ c.2.2 ∧ pos + c.2.2 ≤ limit := by
  simp only [chunk, Except.bind_ok, Except.ensure_ok] at h
  obtain ⟨kind, -, header, -, size, -, -, hsize, h⟩ := h
  rw [← Except.ok.inj h]
  simp only
  omega

/-- What the chunks of a stream make of a state, one after the other, and where they end. -/
def walkChunks {σ : Type} (step : ℕ → Chunk → σ → Except Fault σ) (data : List UInt8) (size pos : ℕ)
    (s : σ) : Except Fault (ℕ × σ) :=
  if pos + 8 ≤ size then
    match _hchunk : chunk data pos size with
    | .error e => .error e
    | .ok c =>
      match step pos c s with
      | .error e => .error e
      | .ok s => walkChunks step data size (pos + c.2.2) s
  else .ok (pos, s)
termination_by size - pos
decreasing_by
  have hc := chunk_ok _hchunk
  omega

/-! ## Strings -/

/-- A length of one byte, or of two with the high bit of the first set, and how many bytes it
takes. -/
def utf8Length (data : List UInt8) (pos : ℕ) : Option (ℕ × ℕ) := do
  let first ← data[pos]?
  if first.toNat < 0x80 then return (first.toNat, 1)
  else
    let second ← data[pos + 1]?
    return (256 * (first.toNat % 0x80) + second.toNat, 2)

def utf16Length (data : List UInt8) (pos : ℕ) : Option (ℕ × ℕ) := do
  let first ← le16 data pos
  if first.toNat < 0x8000 then return (first.toNat, 2)
  else
    let second ← le16 data (pos + 2)
    return (65536 * (first.toNat % 0x8000) + second.toNat, 4)

/-- The units of two bytes. -/
def units : List UInt8 → List UInt16
  | a :: b :: rest => word16 b a :: units rest
  | _ => []

def replacement : Char := Char.ofNat 0xFFFD

/-- The characters of `String::from_utf16_lossy`. -/
def utf16Chars : List UInt16 → List Char
  | [] => []
  | [u] => [if 0xD800 ≤ u.toNat ∧ u.toNat ≤ 0xDFFF then replacement else Char.ofNat u.toNat]
  | u :: v :: rest =>
    if u.toNat < 0xD800 ∨ 0xDFFF < u.toNat then Char.ofNat u.toNat :: utf16Chars (v :: rest)
    else if u.toNat ≤ 0xDBFF ∧ 0xDC00 ≤ v.toNat ∧ v.toNat ≤ 0xDFFF then
      Char.ofNat (0x10000 + 0x400 * (u.toNat - 0xD800) + (v.toNat - 0xDC00)) :: utf16Chars rest
    else replacement :: utf16Chars (v :: rest)

def fromUtf16Lossy (us : List UInt16) : String := String.ofList (utf16Chars us)

def poolString (data : List UInt8) (pos : ℕ) (utf8 : Bool) : Option String :=
  if utf8 then do
    let skip ← utf8Length data pos
    let length ← utf8Length data (pos + skip.2)
    let start := pos + skip.2 + length.2
    let raw ← slice data start (start + length.1)
    return Text.fromUtf8Lossy raw
  else do
    let length ← utf16Length data pos
    let start := pos + length.2
    let raw ← slice data start (start + 2 * length.1)
    return fromUtf16Lossy (units raw)

/-- The string at an offset, an empty one where there is none. -/
def poolEntry (data : List UInt8) (pos header size stringsStart : ℕ) (utf8 : Bool) (i : ℕ) :
    Except Fault String := do
  let offset ← orRefuse "truncated string pool offsets" (le32 data (pos + header + 4 * i))
  let start := pos + stringsStart + offset.toNat
  if start < pos + size then do
    let body ← range data 0 (pos + size)
    return (poolString body start utf8).getD ""
  else return ""

/-- The strings of the pool at `pos`. -/
def stringPool (data : List UInt8) (pos header size : ℕ) : Except Fault (List String) := do
  let count ← orRefuse "truncated string pool" (le32 data (pos + 8))
  let flags ← orRefuse "truncated string pool" (le32 data (pos + 16))
  let stringsStart ← orRefuse "truncated string pool" (le32 data (pos + 20))
  Except.ensure (count.toNat ≤ maxStrings)
    (Fault.refused ("string pool holds over " ++ toString maxStrings ++ " strings"))
  (List.range count.toNat).mapM
    (poolEntry data pos header size stringsStart.toNat (flags.toNat.testBit 8))

/-! ## Attributes -/

/-- One attribute as Android reads it. -/
structure Attribute where
  name : String
  value : String
  boolean : Option Bool
  /-- The resource id, when the attribute is a reference. -/
  reference : Option UInt32
deriving DecidableEq

/-- The text of a typed value. -/
def valueText (strings : List String) (kind : UInt8) (value : UInt32) : String :=
  if kind = typeString then strings[value.toNat]?.getD ""
  else if kind = typeIntDec then toString value.toInt32.toInt
  else if kind = typeIntBoolean then toString (value != 0)
  else if kind = typeReference then "@0x" ++ hex 8 value.toNat
  else if kind = typeIntHex then "0x" ++ hex 1 value.toNat
  else "0x" ++ hex 8 value.toNat

structure Document where
  strings : List String
  resourceIds : List UInt32
deriving DecidableEq

namespace Document

variable (document : Document)

def string (index : UInt32) : Option String := document.strings[index.toNat]?

/-- The framework's name for a known resource id, else the name in the pool. -/
def attributeName (name : UInt32) : String :=
  match (document.resourceIds[name.toNat]?).bind fun id ↦ attributeIds.find? (·.1 == id) with
  | some known => known.2
  | none => (document.string name).getD ""

/-- An attribute by its name, raw value, type and value. -/
def attributeOf (name raw : UInt32) (kind : UInt8) (value : UInt32) : Attribute where
  name := document.attributeName name
  value :=
    if raw = noIndex then valueText document.strings kind value else (document.string raw).getD ""
  boolean := if kind = typeIntBoolean then some (value != 0) else none
  reference := if kind = typeReference ∧ raw = noIndex then some value else none

def attributeAt (data : List UInt8) (pos : ℕ) : Option Attribute := do
  let name ← le32 data (pos + 4)
  let raw ← le32 data (pos + 8)
  let kind ← data[pos + 15]?
  let value ← le32 data (pos + 16)
  return document.attributeOf name raw kind value

def attributes (data : List UInt8) (node header : ℕ) : Option (List Attribute) := do
  let ext := node + header
  let start ← le16 data (ext + 8)
  let width ← le16 data (ext + 10)
  let count ← le16 data (ext + 12)
  if width.toNat < 20 then none
  else (List.range count.toNat).mapM fun i ↦
    document.attributeAt data (ext + start.toNat + i * width.toNat)

end Document

/-- The words of four bytes. -/
def words : List UInt8 → List UInt32
  | a :: b :: c :: d :: rest => word32 d c b a :: words rest
  | _ => []

/-- The document with the pool or the resource map of a chunk. -/
def Document.take (document : Document) (data : List UInt8) (pos : ℕ) (c : Chunk) :
    Except Fault Document :=
  if c.1 = stringPoolType then do
    let strings ← stringPool data pos c.2.1 c.2.2
    return { document with strings }
  else do
    let ids ← range data (pos + c.2.1) (pos + c.2.2)
    return { document with resourceIds := words ids }

/-! ## Nodes -/

structure XmlNode where
  name : String
  parent : Option ℕ
  attributes : List (String × String)
  text : String
deriving DecidableEq

/-- The nodes so far, and those that are open, the innermost first. -/
structure Nodes where
  document : Document
  nodes : List XmlNode
  stack : List ℕ
deriving DecidableEq

def Nodes.init : Nodes := ⟨⟨[], []⟩, [], []⟩

def maxNodes : ℕ := 4096

def maxAttributes : ℕ := 256

def maxText : ℕ := 2048

/-- The start of an element. -/
def Nodes.start (s : Nodes) (data : List UInt8) (pos header : ℕ) : Except Fault Nodes := do
  Except.ensure (¬ (maxNodes ≤ s.nodes.length ∨ maxDepth ≤ s.stack.length))
    (Fault.refused "resource XML exceeds node/depth budget")
  let nameIndex ← orRefuse "truncated resource XML element" (le32 data (pos + header + 4))
  let attributes ← orRefuse "truncated resource XML attributes"
    (s.document.attributes data pos header)
  Except.ensure (attributes.length ≤ maxAttributes)
    (Fault.refused "resource XML element exceeds attribute budget")
  let node : XmlNode :=
    { name := (s.document.string nameIndex).getD ""
      parent := s.stack.head?
      attributes := attributes.map fun a ↦ (a.name, a.value)
      text := "" }
  return { s with nodes := s.nodes ++ [node], stack := s.nodes.length :: s.stack }

/-- Text in the innermost element that is open. -/
def Nodes.cdata (s : Nodes) (data : List UInt8) (pos header : ℕ) : Except Fault Nodes := do
  let index ← orRefuse "resource XML text outside root" s.stack.head?
  let stringIndex ← orRefuse "truncated resource XML text" (le32 data (pos + header))
  let value := (s.document.string stringIndex).getD ""
  let node ← at? s.nodes[index]?
  Except.ensure (node.text.utf8ByteSize + value.utf8ByteSize ≤ maxText)
    (Fault.refused "resource XML text exceeds budget")
  return { s with nodes := s.nodes.set index { node with text := node.text ++ value } }

/-- The end of the innermost element that is open. -/
def Nodes.close (s : Nodes) (data : List UInt8) (pos header : ℕ) : Except Fault Nodes := do
  let nameIndex ← orRefuse "truncated resource XML closing element"
    (le32 data (pos + header + 4))
  let index ← orRefuse "resource XML closing element without start" s.stack.head?
  let node ← at? s.nodes[index]?
  Except.ensure (node.name = (s.document.string nameIndex).getD "")
    (Fault.refused "mismatched resource XML closing element")
  return { s with stack := s.stack.tail }

/-- Whether a chunk is the string pool or a resource map, for a document that reads it. -/
def Document.reads (document : Document) (c : Chunk) : Prop :=
  (c.1 = stringPoolType ∧ document.strings = []) ∨ c.1 = resourceMapType

instance (document : Document) (c : Chunk) : Decidable (document.reads c) :=
  inferInstanceAs (Decidable (_ ∨ _))

def Nodes.chunk (data : List UInt8) (pos : ℕ) (c : Chunk) (s : Nodes) : Except Fault Nodes :=
  if s.document.reads c then do
    return { s with document := ← s.document.take data pos c }
  else if c.1 = startElementType then s.start data pos c.2.1
  else if c.1 = cdataType then s.cdata data pos c.2.1
  else if c.1 = endElementType then s.close data pos c.2.1
  else .ok s

def xmlNodes (data : List UInt8) : Except Fault (List XmlNode) := do
  let c ← chunk data 0 data.length
  Except.ensure (c.1 = xmlType) (Fault.refused "not Android binary XML")
  let last ← walkChunks (Nodes.chunk data) data c.2.2 c.2.1 Nodes.init
  Except.ensure (¬ (last.1 ≠ c.2.2 ∨ last.2.stack ≠ [] ∨ last.2.nodes = []))
    (Fault.refused "incomplete resource XML")
  return last.2.nodes

end Huntsman.Axml
