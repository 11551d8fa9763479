import Huntsman.Dns.Parse

/-!
# The wire form of an answer

How RFC 1035 lays an answer out: header, questions and records, each name as its labels up to the
root's zero octet, or as some labels and a pointer to where the message has the rest.  `Layout` is a
message to be laid out, with all that has to fit for that; `Layout.bytes` lays it out, and
`Layout.answer` is what it says.

This is the statement of what a reader has to undo, and is not translated from the reader.
-/

set_option autoImplicit false

namespace Huntsman.Dns

open Bytes

/-! ## Names -/

/-- A name that has a wire form. -/
structure Name where
  labels : List (List UInt8)
  sized : ∀ l ∈ labels, 1 ≤ l.length ∧ l.length ≤ 63
  short : 1 + (labels.map fun l ↦ 1 + l.length).sum ≤ maxNameOctets

/-- The labels, each after its length. -/
def labelsBytes (labels : List (List UInt8)) : List UInt8 :=
  labels.flatMap fun l ↦ UInt8.ofNat l.length :: l

/-- The labels to the end of the name. -/
def wholeBytes (labels : List (List UInt8)) : List UInt8 := labelsBytes labels ++ [0]

/-- A pointer to an offset of the message. -/
def pointerBytes (offset : ℕ) : List UInt8 :=
  [UInt8.ofNat (0xC0 + offset / 256), UInt8.ofNat offset]

/-- A name as a message writes it: whole, or so many labels and then a pointer. -/
structure Spelled where
  name : Name
  cut : Option (ℕ × ℕ)

namespace Spelled

def bytes (s : Spelled) : List UInt8 :=
  match s.cut with
  | none => wholeBytes s.name.labels
  | some (kept, offset) => labelsBytes (s.name.labels.take kept) ++ pointerBytes offset

/-- The same name without compression. -/
def plain (s : Spelled) : Spelled := ⟨s.name, none⟩

/-- The pointer, if there is one, is to an uncompressed occurrence of the labels it stands for. -/
def Pointed (body : List UInt8) (s : Spelled) : Prop :=
  ∀ kept offset, s.cut = some (kept, offset) →
    offset < 2 ^ 14 ∧ Holds body offset (wholeBytes (s.name.labels.drop kept))

/-- The name as text. -/
def text (s : Spelled) : String := nameText (s.name.labels.map labelText)

theorem plain_pointed (body : List UInt8) (s : Spelled) : s.plain.Pointed body := by
  rintro kept offset h
  exact absurd h (by simp [plain])

end Spelled

/-! ## Records -/

/-- The types whose data is one name. -/
inductive NameKind where
  | ns | cname | ptr | dname
deriving DecidableEq

def NameKind.code : NameKind → UInt16
  | .ns => 2
  | .cname => 5
  | .ptr => 12
  | .dname => 39

/-- The types whose data has a form of its own. -/
def knownKinds : List UInt16 := [1, 28, 2, 5, 12, 39, 15, 16, 6, 33, 257]

inductive Rdata where
  | a (address : List.Vector UInt8 4)
  | aaaa (address : List.Vector UInt8 16)
  | name (kind : NameKind) (target : Spelled)
  | mx (preference : UInt16) (exchange : Spelled)
  | txt (strings : List (List UInt8))
  | soa (mname rname : Spelled) (serial refresh retry expire minimum : UInt32)
  | srv (priority weight port : UInt16) (target : Spelled)
  | caa (flags : UInt8) (tag value : List UInt8)
  | other (kind : UInt16) (bytes : List UInt8)

namespace Rdata

def kind : Rdata → UInt16
  | .a _ => 1
  | .aaaa _ => 28
  | .name kind _ => kind.code
  | .mx _ _ => 15
  | .txt _ => 16
  | .soa .. => 6
  | .srv .. => 33
  | .caa .. => 257
  | .other kind _ => kind

def bytes : Rdata → List UInt8
  | .a address => address.toList
  | .aaaa address => address.toList
  | .name _ target => target.bytes
  | .mx preference exchange => bytes16 preference ++ exchange.bytes
  | .txt strings => labelsBytes strings
  | .soa mname rname serial refresh retry expire minimum =>
    mname.bytes ++ (rname.bytes ++ (bytes32 serial ++ (bytes32 refresh ++ (bytes32 retry ++
      (bytes32 expire ++ bytes32 minimum)))))
  | .srv priority weight port target =>
    bytes16 priority ++ (bytes16 weight ++ (bytes16 port ++ target.bytes))
  | .caa flags tag value => flags :: UInt8.ofNat tag.length :: (tag ++ value)
  | .other _ bytes => bytes

/-- What the data says. -/
def data : Rdata → Data
  | .a address => .a address
  | .aaaa address => .aaaa address
  | .name _ target => .name target.text
  | .mx preference exchange => .mx preference exchange.text
  | .txt strings => .txt (strings.map Text.fromUtf8Lossy)
  | .soa mname rname serial refresh retry expire minimum =>
    .soa mname.text rname.text serial refresh retry expire minimum
  | .srv priority weight port target => .srv priority weight port target.text
  | .caa flags tag value => .caa flags (Text.fromUtf8Lossy tag) (Text.fromUtf8Lossy value)
  | .other _ bytes => .other bytes

def names : Rdata → List Spelled
  | .name _ target => [target]
  | .mx _ exchange => [exchange]
  | .soa mname rname .. => [mname, rname]
  | .srv _ _ _ target => [target]
  | _ => []

def plain : Rdata → Rdata
  | .name kind target => .name kind target.plain
  | .mx preference exchange => .mx preference exchange.plain
  | .soa mname rname serial refresh retry expire minimum =>
    .soa mname.plain rname.plain serial refresh retry expire minimum
  | .srv priority weight port target => .srv priority weight port target.plain
  | data => data

/-- Every length fits where it is written, and data without a form is of a type without one. -/
def Fits : Rdata → Prop
  | .txt strings =>
    (∀ s ∈ strings, s.length < 2 ^ 8) ∧ (strings.map fun s ↦ 1 + s.length).sum < 2 ^ 16
  | .caa _ tag value => tag.length < 2 ^ 8 ∧ 2 + tag.length + value.length < 2 ^ 16
  | .other kind bytes => kind ∉ knownKinds ∧ bytes.length < 2 ^ 16
  | _ => True

end Rdata

structure Answer where
  name : Spelled
  cls : UInt16
  ttl : UInt32
  rdata : Rdata
  fits : rdata.Fits

namespace Answer

def bytes (r : Answer) : List UInt8 :=
  r.name.bytes ++ ((bytes16 r.rdata.kind ++ (bytes16 r.cls ++ (bytes32 r.ttl ++
    bytes16 (UInt16.ofNat r.rdata.bytes.length)))) ++ r.rdata.bytes)

/-- What the record says. -/
def record (r : Answer) : Record := ⟨r.name.text, r.rdata.kind, r.ttl, r.rdata.data⟩

def names (r : Answer) : List Spelled := r.name :: r.rdata.names

theorem plain_fits {d : Rdata} (h : d.Fits) : d.plain.Fits := by
  cases d <;> exact h

def plain (r : Answer) : Answer := ⟨r.name.plain, r.cls, r.ttl, r.rdata.plain, plain_fits r.fits⟩

end Answer

/-! ## Messages -/

structure Asked where
  name : Spelled
  kind : UInt16
  cls : UInt16

def Asked.bytes (q : Asked) : List UInt8 := q.name.bytes ++ (bytes16 q.kind ++ bytes16 q.cls)

def Asked.question (q : Asked) : Question := ⟨q.name.text, q.kind⟩

def Asked.plain (q : Asked) : Asked := ⟨q.name.plain, q.kind, q.cls⟩

/-- A header with the answer bit set, but for the counts of questions and answers. -/
structure Header where
  id : UInt16
  opcode : Fin 16
  authoritative : Bool
  truncated : Bool
  recursionDesired : Bool
  recursionAvailable : Bool
  reserved : Fin 8
  rcode : Fin 16
  authority : UInt16
  additional : UInt16

/-- The flags word, its answer bit first. -/
def Header.flags (h : Header) : ℕ :=
  2 ^ 15 + h.opcode.val * 2 ^ 11 + h.authoritative.toNat * 2 ^ 10 + h.truncated.toNat * 2 ^ 9 +
    h.recursionDesired.toNat * 2 ^ 8 + h.recursionAvailable.toNat * 2 ^ 7 + h.reserved.val * 2 ^ 4 +
    h.rcode.val

structure Layout where
  header : Header
  questions : List Asked
  answers : List Answer
  questions_fit : questions.length < 2 ^ 16
  answers_fit : answers.length < 2 ^ 16

namespace Layout

variable (m : Layout)

def headerBytes : List UInt8 :=
  bytes16 m.header.id ++ (bytes16 (UInt16.ofNat m.header.flags) ++
    (bytes16 (UInt16.ofNat m.questions.length) ++ (bytes16 (UInt16.ofNat m.answers.length) ++
      (bytes16 m.header.authority ++ bytes16 m.header.additional))))

def bytes : List UInt8 :=
  m.headerBytes ++ (m.questions.flatMap Asked.bytes ++ m.answers.flatMap Answer.bytes)

def names : List Spelled := m.questions.map Asked.name ++ m.answers.flatMap Answer.names

/-- The same message without compression. -/
def plain : Layout where
  header := m.header
  questions := m.questions.map Asked.plain
  answers := m.answers.map Answer.plain
  questions_fit := by
    rw [List.length_map]
    exact m.questions_fit
  answers_fit := by
    rw [List.length_map]
    exact m.answers_fit

/-- Every pointer in the message is to an uncompressed occurrence of what it stands for. -/
def Pointed (body : List UInt8) : Prop := ∀ s ∈ m.names, s.Pointed body

/-- What the message says. -/
def answer (errors : List ExtendedError) : Message where
  id := m.header.id
  rcode := UInt8.ofNat m.header.rcode.val
  truncated := m.header.truncated
  question := m.questions.head?.map Asked.question
  answers := m.answers.map Answer.record
  extendedErrors := errors

end Layout

end Huntsman.Dns
