import Huntsman.Lib.Bytes
import Huntsman.Text
import Mathlib.Data.Vector.Basic

/-!
# Reading a DNS answer

`parse` reads a DNS message in its wire form: the header, the questions, the answer records each by
its type, and, as far as they read cleanly, the extended errors of the additional section.  Names
may be compressed, and `readName` follows the pointers.

An address is its octets in network order.
-/

set_option autoImplicit false

namespace Huntsman.Dns

open Bytes

/-- Pointers followed in one name before the name is refused as a loop. -/
def maxPointers : ℕ := 32

/-- The longest name in wire form, with its length octets and the root's zero octet. -/
def maxNameOctets : ℕ := 255

inductive WireError where
  | truncated | badName | notAnswer
  | badQuery (name : String)
deriving DecidableEq

structure ExtendedError where
  code : UInt16
  text : String
deriving DecidableEq

structure Question where
  name : String
  kind : UInt16
deriving DecidableEq

/-- A record's data, read by its type. -/
inductive Data where
  | a (address : List.Vector UInt8 4)
  | aaaa (address : List.Vector UInt8 16)
  | name (name : String)
  | mx (preference : UInt16) (exchange : String)
  | txt (strings : List String)
  | soa (mname rname : String) (serial refresh retry expire minimum : UInt32)
  | srv (priority weight port : UInt16) (target : String)
  | caa (flags : UInt8) (tag value : String)
  | other (bytes : List UInt8)
deriving DecidableEq

structure Record where
  name : String
  kind : UInt16
  ttl : UInt32
  data : Data
deriving DecidableEq

/-- What an answer said. -/
structure Message where
  id : UInt16
  rcode : UInt8
  truncated : Bool
  question : Option Question
  answers : List Record
  extendedErrors : List ExtendedError
deriving DecidableEq

/-! ## Names -/

/-- A byte's decimal digits, three of them. -/
def threeDigits (n : ℕ) : List Char :=
  [Char.ofNat (48 + n / 100), Char.ofNat (48 + n / 10 % 10), Char.ofNat (48 + n % 10)]

/-- A label byte as presentation text. -/
def escape (byte : UInt8) : List Char :=
  if byte = 0x2E ∨ byte = 0x5C then ['\\', Char.ofNat byte.toNat]
  else if 0x21 ≤ byte ∧ byte ≤ 0x7E then [Char.ofNat byte.toNat]
  else '\\' :: threeDigits byte.toNat

/-- A label as presentation text. -/
def labelText (label : List UInt8) : String := String.ofList (label.flatMap escape)

/-- The name its labels make. -/
def nameText (labels : List String) : String :=
  if labels = [] then "." else ".".intercalate labels

/-- A range of the message that has to be there. -/
def range (body : List UInt8) (a b : ℕ) : Except WireError (List UInt8) :=
  match slice body a b with
  | none => .error .truncated
  | some bytes => .ok bytes

/-- The labels from `pos` on, where `resume` is where the message goes on after the first
pointer. -/
def readLabels (body : List UInt8) (pos : ℕ) (labels : List String) (resume : Option ℕ)
    (pointers octets : ℕ) : Except WireError (String × ℕ) :=
  match body[pos]? with
  | none => .error .truncated
  | some length =>
    if length = 0 then .ok (nameText labels, resume.getD (pos + 1))
    else if length ≤ 63 then
      if maxNameOctets < octets + (1 + length.toNat) then .error .badName
      else
        match slice body (pos + 1) (pos + 1 + length.toNat) with
        | none => .error .truncated
        | some label =>
          readLabels body (pos + (1 + length.toNat)) (labels ++ [labelText label]) resume pointers
            (octets + (1 + length.toNat))
    else if 0xC0 ≤ length then
      match body[pos + 1]? with
      | none => .error .truncated
      | some low =>
        if maxPointers < pointers + 1 then .error .badName
        else
          readLabels body (length.toNat % 64 * 256 + low.toNat) labels
            (some (resume.getD (pos + 2))) (pointers + 1) octets
    else .error .badName
termination_by (maxNameOctets + 1 - octets) + (maxPointers + 1 - pointers)

/-- The name at `pos`, and where the message goes on after it. -/
def readName (body : List UInt8) (pos : ℕ) : Except WireError (String × ℕ) :=
  readLabels body pos [] none 0 1

/-- The name a record's data holds at `start`, which must end by the data's `stop`. -/
def nameWithin (body : List UInt8) (start stop : ℕ) : Except WireError String := do
  if stop ≤ start then throw .truncated
  let read ← readName body start
  if stop < read.2 then throw .truncated
  return read.1

/-! ## Records -/

/-- The word at `i` of bytes that are long enough. -/
def word (bytes : List UInt8) (i : ℕ) : UInt16 := word16 (bytes.getD i 0) (bytes.getD (i + 1) 0)

/-- The number at `i` of bytes that are long enough. -/
def number (bytes : List UInt8) (i : ℕ) : UInt32 :=
  word32 (bytes.getD i 0) (bytes.getD (i + 1) 0) (bytes.getD (i + 2) 0) (bytes.getD (i + 3) 0)

/-- The word at `i` of a record's data. -/
def short (rdata : List UInt8) (i : ℕ) : Except WireError UInt16 := do
  let bytes ← range rdata i (i + 2)
  return word bytes 0

/-- An address of `n` octets. -/
def address (n : ℕ) (rdata : List UInt8) : Except WireError (List.Vector UInt8 n) :=
  if h : rdata.length = n then .ok ⟨rdata, h⟩ else .error .truncated

/-- The character-strings of a TXT record, each as text. -/
def characterStrings (rdata : List UInt8) : Except WireError (List String) :=
  match rdata with
  | [] => .ok []
  | length :: rest => do
    let text ← range rest 0 length.toNat
    let more ← characterStrings (rest.drop length.toNat)
    return Text.fromUtf8Lossy text :: more
termination_by rdata.length
decreasing_by
  rw [List.length_drop, List.length_cons]
  omega

def readSoa (body : List UInt8) (start stop : ℕ) : Except WireError Data := do
  let mname ← readName body start
  let rname ← readName body mname.2
  let numbers ← range body rname.2 (rname.2 + 20)
  if stop < rname.2 + 20 then throw .truncated
  return .soa mname.1 rname.1 (number numbers 0) (number numbers 4) (number numbers 8)
    (number numbers 12) (number numbers 16)

def readCaa (rdata : List UInt8) : Except WireError Data :=
  match rdata with
  | flags :: length :: rest => do
    let tag ← range rest 0 length.toNat
    return .caa flags (Text.fromUtf8Lossy tag) (Text.fromUtf8Lossy (rest.drop length.toNat))
  | _ => .error .truncated

def readMx (body rdata : List UInt8) (start stop : ℕ) : Except WireError Data := do
  let preference ← short rdata 0
  let exchange ← nameWithin body (start + 2) stop
  return .mx preference exchange

def readSrv (body rdata : List UInt8) (start stop : ℕ) : Except WireError Data := do
  let priority ← short rdata 0
  let weight ← short rdata 2
  let port ← short rdata 4
  let target ← nameWithin body (start + 6) stop
  return .srv priority weight port target

def readData (body : List UInt8) (kind : UInt16) (start stop : ℕ) : Except WireError Data :=
  let rdata := (body.drop start).take (stop - start)
  if kind = 1 then (address 4 rdata).map .a
  else if kind = 28 then (address 16 rdata).map .aaaa
  else if kind = 2 ∨ kind = 5 ∨ kind = 12 ∨ kind = 39 then (nameWithin body start stop).map .name
  else if kind = 15 then readMx body rdata start stop
  else if kind = 16 then (characterStrings rdata).map .txt
  else if kind = 6 then readSoa body start stop
  else if kind = 33 then readSrv body rdata start stop
  else if kind = 257 then readCaa rdata
  else .ok (.other rdata)

def readRecord (body : List UInt8) (pos : ℕ) : Except WireError (Record × ℕ) := do
  let name ← readName body pos
  let fixed ← range body name.2 (name.2 + 10)
  let start := name.2 + 10
  let stop := start + (word fixed 8).toNat
  if body.length < stop then throw .truncated
  let data ← readData body (word fixed 0) start stop
  return (⟨name.1, word fixed 0, number fixed 4, data⟩, stop)

/-! ## Messages -/

/-- The extended errors among the options of an OPT record. -/
def optionErrors (options : List UInt8) : List ExtendedError :=
  if 4 ≤ options.length then
    let code := word options 0
    let length := (word options 2).toNat
    match slice options 4 (4 + length) with
    | none => []
    | some value =>
      let rest := optionErrors (options.drop (4 + length))
      if code = 15 ∧ 2 ≤ value.length then
        ⟨word value 0, Text.trimEndMatches (Char.ofNat 0) (Text.fromUtf8Lossy (value.drop 2))⟩ :: rest
      else rest
  else []
termination_by options.length
decreasing_by
  rw [List.length_drop]
  omega

/-- The extended errors of the records left, the next of which is number `index`; only what reads
cleanly is kept. -/
def readErrors (body : List UInt8) (authority : ℕ) : ℕ → ℕ → ℕ → List ExtendedError
  | 0, _, _ => []
  | left + 1, index, pos =>
    match readRecord body pos with
    | .error _ => []
    | .ok (record, next) =>
      let found :=
        match record.data with
        | .other options =>
          if authority ≤ index ∧ record.kind = 41 then optionErrors options else []
        | _ => []
      found ++ readErrors body authority left (index + 1) next

def extendedErrors (body : List UInt8) (pos : ℕ) (authority additional : UInt16) :
    List ExtendedError :=
  readErrors body authority.toNat (authority.toNat + additional.toNat) 0 pos

/-- The questions left, of which the first of all is kept. -/
def readQuestions (body : List UInt8) :
    ℕ → Option Question → ℕ → Except WireError (Option Question × ℕ)
  | 0, first, pos => .ok (first, pos)
  | left + 1, first, pos => do
    let name ← readName body pos
    let kind ← range body name.2 (name.2 + 4)
    readQuestions body left (some (first.getD ⟨name.1, word kind 0⟩)) (name.2 + 4)

/-- The answer records left. -/
def readAnswers (body : List UInt8) : ℕ → ℕ → Except WireError (List Record × ℕ)
  | 0, pos => .ok ([], pos)
  | left + 1, pos => do
    let record ← readRecord body pos
    let more ← readAnswers body left record.2
    return (record.1 :: more.1, more.2)

def parse (body : List UInt8) : Except WireError Message := do
  let header ← range body 0 12
  let flags := word header 2
  if flags &&& 0x8000 = 0 then throw .notAnswer
  let first ← readQuestions body (word header 4).toNat none 12
  let answers ← readAnswers body (word header 6).toNat first.2
  return {
    id := word header 0
    rcode := (flags &&& 0x0F).toUInt8
    truncated := flags &&& 0x0200 != 0
    question := first.1
    answers := answers.1
    extendedErrors := extendedErrors body answers.2 (word header 8) (word header 10) }

end Huntsman.Dns
