import Huntsman.Axml.Decode

/-!
# Writing compiled XML

An element tree as the format has it: names and values are indices of a pool of strings, a resource
map gives ids to the first of them, and the elements' chunks stand in document order with unknown
chunks between them.  `Doc.bytes` is the document as it is written and `Doc.nodes` what it says.

What the format leaves open is open here: the headers' extra bytes, where an element's attributes
start and how far they are apart, and what stands between the offsets of the pool and its strings.
-/

set_option autoImplicit false

namespace Huntsman.Axml

open Bytes

/-- `u16::to_le_bytes`. -/
def le16Bytes (n : ℕ) : List UInt8 := (bytes16 (UInt16.ofNat n)).reverse

/-- `u32::to_le_bytes`. -/
def le32Bytes (n : ℕ) : List UInt8 := (bytes32 (UInt32.ofNat n)).reverse

@[simp] theorem length_le16Bytes (n : ℕ) : (le16Bytes n).length = 2 := rfl

@[simp] theorem length_le32Bytes (n : ℕ) : (le32Bytes n).length = 4 := rfl

/-- A chunk: its type, what its header has after the sizes, and its body. -/
structure Piece where
  kind : ℕ
  extra : List UInt8
  body : List UInt8

namespace Piece

def header (p : Piece) : ℕ := 8 + p.extra.length

def size (p : Piece) : ℕ := p.header + p.body.length

def bytes (p : Piece) : List UInt8 :=
  le16Bytes p.kind ++ (le16Bytes p.header ++ (le32Bytes p.size ++ (p.extra ++ p.body)))

theorem length_bytes (p : Piece) : p.bytes.length = p.size := by
  simp only [bytes, List.length_append, length_le16Bytes, length_le32Bytes, size, header]
  omega

/-- A chunk whose type and header can be written. -/
structure Fits (p : Piece) : Prop where
  kind : p.kind < 2 ^ 16
  header : p.header < 2 ^ 16

/-- A chunk that is none of those that are read. -/
structure Unknown (p : Piece) : Prop extends p.Fits where
  other : p.kind ∉ [stringPoolType, resourceMapType, startElementType, endElementType, cdataType]

end Piece

/-! ## Strings -/

/-- The units of a character in UTF-16. -/
def utf16Char (c : Char) : List UInt16 :=
  if c.toNat < 0x10000 then [UInt16.ofNat c.toNat]
  else [UInt16.ofNat (0xD800 + (c.toNat - 0x10000) / 0x400),
    UInt16.ofNat (0xDC00 + (c.toNat - 0x10000) % 0x400)]

def utf16 (s : String) : List UInt16 := s.toList.flatMap utf16Char

/-- A length in one byte, or in two with the high bit of the first set. -/
def utf8Prefix (n : ℕ) : List UInt8 :=
  if n < 0x80 then [UInt8.ofNat n] else [UInt8.ofNat (0x80 + n / 256), UInt8.ofNat n]

def utf16Prefix (n : ℕ) : List UInt8 :=
  if n < 0x8000 then le16Bytes n else le16Bytes (0x8000 + n / 65536) ++ le16Bytes n

/-- A string of the pool: its length, itself and a zero.  In UTF-8 its length in UTF-16 is first. -/
def stringBytes (utf8 : Bool) (s : String) : List UInt8 :=
  if utf8 then
    utf8Prefix (utf16 s).length ++ (utf8Prefix (Text.utf8 s).length ++ (Text.utf8 s ++ [0]))
  else utf16Prefix (utf16 s).length ++ ((utf16 s).flatMap (fun u ↦ le16Bytes u.toNat) ++ [0, 0])

/-- Whether a string's lengths can be written. -/
def StringFits (utf8 : Bool) (s : String) : Prop :=
  if utf8 then (utf16 s).length < 2 ^ 15 ∧ (Text.utf8 s).length < 2 ^ 15
  else (utf16 s).length < 2 ^ 31

instance (utf8 : Bool) (s : String) : Decidable (StringFits utf8 s) :=
  inferInstanceAs (Decidable (ite _ _ _))

/-- Where each of some texts starts when they are written one after the other. -/
def offsets : ℕ → List (List UInt8) → List ℕ
  | _, [] => []
  | n, text :: rest => n :: offsets (n + text.length) rest

/-- The pool of strings. -/
structure Pool where
  strings : List String
  flags : UInt32
  /-- The number of styles. -/
  styles : List UInt8
  /-- Where the styles start, and what else the header has. -/
  rest : List UInt8
  /-- What stands between the offsets and the strings. -/
  gap : List UInt8
  tail : List UInt8

namespace Pool

variable (pool : Pool)

/-- Whether the strings are in UTF-8. -/
def utf8 : Bool := pool.flags.toNat.testBit 8

def texts : List (List UInt8) := pool.strings.map (stringBytes pool.utf8)

def headerSize : ℕ := 8 + (4 + pool.styles.length + 4 + 4 + pool.rest.length)

def stringsStart : ℕ := pool.headerSize + 4 * pool.strings.length + pool.gap.length

def piece : Piece where
  kind := stringPoolType
  extra := le32Bytes pool.strings.length ++ (pool.styles ++ (le32Bytes pool.flags.toNat ++
    (le32Bytes pool.stringsStart ++ pool.rest)))
  body := (offsets 0 pool.texts).flatMap le32Bytes ++ (pool.gap ++ (pool.texts.flatten ++ pool.tail))

structure Fits : Prop where
  styles : pool.styles.length = 4
  header : pool.headerSize < 2 ^ 16
  strings : ∀ s ∈ pool.strings, StringFits pool.utf8 s

end Pool

/-! ## Elements -/

/-- The value of an attribute: a string, or what its type says. -/
inductive Value where
  /-- A string as it is in the source, whatever the type. -/
  | raw (index : ℕ) (kind : UInt8) (data : UInt32)
  | string (index : ℕ)
  | int (n : Int32)
  | boolean (data : UInt32)
  | reference (id : UInt32)
  | hex (n : UInt32)
  | other (kind : UInt8) (n : UInt32)

namespace Value

/-- The index of the raw value, the type and the data. -/
def typed : Value → ℕ × UInt8 × ℕ
  | raw index kind data => (index, kind, data.toNat)
  | string index => (noIndex.toNat, typeString, index)
  | int n => (noIndex.toNat, typeIntDec, n.toUInt32.toNat)
  | boolean data => (noIndex.toNat, typeIntBoolean, data.toNat)
  | reference id => (noIndex.toNat, typeReference, id.toNat)
  | hex n => (noIndex.toNat, typeIntHex, n.toNat)
  | other kind n => (noIndex.toNat, kind, n.toNat)

/-- What a value says. -/
def text (strings : List String) : Value → String
  | raw index _ _ => strings[index]?.getD ""
  | string index => strings[index]?.getD ""
  | int n => toString n.toInt
  | boolean data => if data = 0 then "false" else "true"
  | reference id => "@0x" ++ Axml.hex 8 id.toNat
  | hex n => "0x" ++ Axml.hex 1 n.toNat
  | other _ n => "0x" ++ Axml.hex 8 n.toNat

def Fits (strings : List String) : Value → Prop
  | raw index _ _ => index < strings.length
  | string index => index < strings.length
  | other kind _ => kind ∉ [typeString, typeIntDec, typeIntBoolean, typeReference, typeIntHex]
  | _ => True

end Value

/-- An attribute of an element. -/
structure Attr where
  ns : UInt32
  name : ℕ
  value : Value

namespace Attr

def bytes (pad : List UInt8) (a : Attr) : List UInt8 :=
  le32Bytes a.ns.toNat ++ (le32Bytes a.name ++ (le32Bytes a.value.typed.1 ++ ([8, 0, 0] ++
    ([a.value.typed.2.1] ++ (le32Bytes a.value.typed.2.2 ++ pad)))))

/-- The framework's name where the map gives a known id, else the pool's. -/
def nameIn (strings : List String) (ids : List UInt32) (name : ℕ) : String :=
  match ids[name]? with
  | none => strings[name]?.getD ""
  | some id =>
    match attributeIds.lookup id with
    | none => strings[name]?.getD ""
    | some known => known

end Attr

/-- The two chunks of an element. -/
structure Head where
  startExtra : List UInt8
  ns : UInt32
  name : ℕ
  /-- What stands between the fixed fields and the attributes. -/
  gap : List UInt8
  /-- What stands after each attribute. -/
  pad : List UInt8
  attributes : List Attr
  endExtra : List UInt8

namespace Head

variable (head : Head)

def startPiece : Piece where
  kind := startElementType
  extra := head.startExtra
  body := le32Bytes head.ns.toNat ++ (le32Bytes head.name ++ (le16Bytes (14 + head.gap.length) ++
    (le16Bytes (20 + head.pad.length) ++ (le16Bytes head.attributes.length ++ (head.gap ++
      head.attributes.flatMap (Attr.bytes head.pad))))))

def endPiece : Piece where
  kind := endElementType
  extra := head.endExtra
  body := le32Bytes head.ns.toNat ++ le32Bytes head.name

structure Fits (strings : List String) : Prop where
  startHeader : head.startPiece.header < 2 ^ 16
  endHeader : head.endPiece.header < 2 ^ 16
  start : 14 + head.gap.length < 2 ^ 16
  width : 20 + head.pad.length < 2 ^ 16
  name : head.name < strings.length
  attributes : ∀ a ∈ head.attributes, a.name < strings.length ∧ a.value.Fits strings

end Head

/-- Text in an element. -/
structure TextRef where
  extra : List UInt8
  index : ℕ
  rest : List UInt8

def TextRef.piece (t : TextRef) : Piece where
  kind := cdataType
  extra := t.extra
  body := le32Bytes t.index ++ t.rest

/-- What stands in a document: an element with what is in it, text, or a chunk that is not read. -/
inductive Tree where
  | element (head : Head) (contents : List Tree)
  | text (t : TextRef)
  | other (p : Piece)

namespace Tree

mutual

/-- The chunks of a tree, in document order. -/
def pieces : Tree → List Piece
  | element head contents => head.startPiece :: (piecesAll contents ++ [head.endPiece])
  | text t => [t.piece]
  | other p => [p]

def piecesAll : List Tree → List Piece
  | [] => []
  | t :: ts => t.pieces ++ piecesAll ts

end

mutual

/-- How many elements a tree has. -/
def count : Tree → ℕ
  | element _ contents => countAll contents + 1
  | _ => 0

def countAll : List Tree → ℕ
  | [] => 0
  | t :: ts => t.count + countAll ts

end

mutual

/-- How deep its elements are nested. -/
def depth : Tree → ℕ
  | element _ contents => depthAll contents + 1
  | _ => 0

def depthAll : List Tree → ℕ
  | [] => 0
  | t :: ts => max t.depth (depthAll ts)

end

/-- The text directly in an element, by what is in it. -/
def ownText (strings : List String) : List Tree → String
  | [] => ""
  | text t :: ts => strings[t.index]?.getD "" ++ ownText strings ts
  | _ :: ts => ownText strings ts

mutual

/-- The elements of a tree in document order, the first of them the `index`th. -/
def nodes (strings : List String) (ids : List UInt32) (parent : Option ℕ) (index : ℕ) :
    Tree → List XmlNode
  | element head contents =>
    { name := strings[head.name]?.getD ""
      parent
      attributes := head.attributes.map fun a ↦
        (Attr.nameIn strings ids a.name, a.value.text strings)
      text := ownText strings contents } :: nodesAll strings ids (some index) (index + 1) contents
  | _ => []

def nodesAll (strings : List String) (ids : List UInt32) (parent : Option ℕ) (index : ℕ) :
    List Tree → List XmlNode
  | [] => []
  | t :: ts => t.nodes strings ids parent index ++
      nodesAll strings ids parent (index + t.count) ts

end

mutual

/-- What can be written, and every element within the limits on attributes and text. -/
def Fits (strings : List String) : Tree → Prop
  | element head contents => head.Fits strings ∧ head.attributes.length ≤ maxAttributes ∧
      (ownText strings contents).utf8ByteSize ≤ maxText ∧ FitsAll strings contents
  | text t => t.piece.header < 2 ^ 16 ∧ t.index < strings.length
  | other p => p.Unknown

def FitsAll (strings : List String) : List Tree → Prop
  | [] => True
  | t :: ts => t.Fits strings ∧ FitsAll strings ts

end

end Tree

/-! ## Documents -/

/-- The resource map: its header's extra bytes and the ids. -/
structure IdMap where
  extra : List UInt8
  ids : List UInt32

def IdMap.piece (m : IdMap) : Piece where
  kind := resourceMapType
  extra := m.extra
  body := m.ids.flatMap fun id ↦ le32Bytes id.toNat

/-- A document: the pool, an optional resource map and an element, with unknown chunks between. -/
structure Doc where
  extra : List UInt8
  before : List Piece
  pool : Pool
  between : List Piece
  idMap : Option IdMap
  middle : List Piece
  head : Head
  contents : List Tree
  after : List Piece

namespace Doc

variable (doc : Doc)

def ids : List UInt32 :=
  match doc.idMap with
  | none => []
  | some m => m.ids

def root : Tree := .element doc.head doc.contents

/-- The chunks in order. -/
def pieces : List Piece :=
  doc.before ++ (doc.pool.piece :: (doc.between ++ ((doc.idMap.map IdMap.piece).toList ++
    (doc.middle ++ (doc.root.pieces ++ doc.after)))))

def piece : Piece where
  kind := xmlType
  extra := doc.extra
  body := doc.pieces.flatMap Piece.bytes

/-- The document as it is written. -/
def bytes : List UInt8 := doc.piece.bytes

/-- What a document says. -/
def nodes : List XmlNode := doc.root.nodes doc.pool.strings doc.ids none 0

/-- A document that can be written, within the limits on its tree. -/
structure Fits : Prop where
  size : doc.piece.size < 2 ^ 32
  header : doc.piece.header < 2 ^ 16
  unknown : ∀ p ∈ doc.before ++ doc.between ++ doc.middle ++ doc.after, p.Unknown
  pool : doc.pool.Fits
  idMap : ∀ m ∈ doc.idMap, m.piece.header < 2 ^ 16
  root : doc.root.Fits doc.pool.strings
  depth : doc.root.depth ≤ maxDepth
  count : doc.root.count ≤ maxNodes

end Doc

end Huntsman.Axml
