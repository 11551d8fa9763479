import Huntsman.Graph.Types
import Huntsman.Lib.Offsets
import Huntsman.Lib.Pieces
import Huntsman.Lib.Refusal

/-!
# The text of a line of YAML

What is read within one line of a document: where a leading quoted scalar ends, where a key ends and
where a comment begins, and what a scalar says.  A `str` is the list of its characters here, and its
offsets count bytes, as the source's do.

An error is a line and a reason.  What would end the process instead is a fault of its own: a slice
that cuts a character, an index past the end, a difference below zero.  The readers have the three
others: blocks nested past what there is room for, a loop that is not left, and a call that comes
back without having read anything.

`Library` is what the reading takes from Rust's standard library that depends on floating point or
on tables.
-/

set_option autoImplicit false

namespace Huntsman.Yaml

open Huntsman.Graph (Json)

/-- The largest file read. -/
def maxBytes : ℕ := 256 * 1024

/-- Nesting deeper than this is refused. -/
def maxDepth : ℕ := 64

/-- Why a document could not be read. -/
structure YamlError where
  line : ℕ
  reason : String
deriving DecidableEq

inductive Fault where
  | boundary
  | outOfBounds
  | underflow
  | tooDeep
  | endless
  | stalled
deriving DecidableEq

/-- How the reading ends without a value. -/
inductive Stop where
  | refused (error : YamlError)
  | fault (fault : Fault)
deriving DecidableEq

def refuse {α : Type} (line : ℕ) (reason : String) : Except Stop α := .error (.refused ⟨line, reason⟩)

def fault {α : Type} (fault : Fault) : Except Stop α := .error (.fault fault)

/-! ## Text -/

abbrev Chars := List Char

/-- `str::len`. -/
def len (s : Chars) : ℕ := Offsets.total Char.utf8Size s

/-- `str::trim_start`. -/
def trimStart (s : Chars) : Chars := s.dropWhile Text.isWhitespace

/-- `str::trim_end`. -/
def trimEnd (s : Chars) : Chars := s.rdropWhile Text.isWhitespace

/-- `str::trim`. -/
def trim (s : Chars) : Chars := Pieces.trim Text.isWhitespace s

/-- `&text[n..]`. -/
def sliceFrom (text : Chars) (n : ℕ) : Except Stop Chars :=
  match Offsets.cut Char.utf8Size text n with
  | none => fault .boundary
  | some parts => .ok parts.2

/-- `&text[..n]`. -/
def sliceTo (text : Chars) (n : ℕ) : Except Stop Chars :=
  match Offsets.cut Char.utf8Size text n with
  | none => fault .boundary
  | some parts => .ok parts.1

/-- `a - b`. -/
def sub (a b : ℕ) : Except Stop ℕ := if b ≤ a then .ok (a - b) else fault .underflow

structure Library where
  /-- The number that `str::parse::<f64>` makes of a text, as JSON has it, when it is finite. -/
  float : Chars → Option String
  /-- A text as `{:?}` writes it. -/
  debug : Chars → String

def isBlank (text : Chars) : Bool := text.isEmpty || text.head? == some '#'

def isItem (text : Chars) : Bool := text == ['-'] || ['-', ' '].isPrefixOf text

/-! ## Quotes, keys and comments -/

/-- The offset past the closing quote, of what follows an opening one up to `index`. -/
def closing (quote : Char) : ℕ → Chars → Option ℕ
  | _, [] => none
  | index, c :: rest =>
    if quote = '"' ∧ c = '\\' then
      match rest with
      | [] => none
      | d :: more => closing quote (index + c.utf8Size + d.utf8Size) more
    else if c = quote then
      match rest with
      | [] => some (index + 1)
      | d :: more =>
        if quote = '\'' ∧ d = '\'' then closing quote (index + c.utf8Size + d.utf8Size) more
        else some (index + 1)
    else closing quote (index + c.utf8Size) rest

/-- Where a leading quoted scalar ends, just past its closing quote; 0 when `text` does not start
with a quote, and its length when the quote is never closed. -/
def afterQuote (text : Chars) : ℕ :=
  match text with
  | [] => 0
  | c :: rest =>
    if c = '"' ∨ c = '\'' then (closing c c.utf8Size rest).getD (len text) else 0

/-- The loop of `split_key`, from `index` on. -/
def splitKeyFrom (text : Chars) : ℕ → Char → Chars → Except Stop (Option (Chars × Chars))
  | _, _, [] => .ok none
  | index, previous, c :: rest =>
    if c = '#' ∧ 0 < index ∧ previous = ' ' then .ok none
    else if c = ':' then do
      let after ← sliceFrom text (index + 1)
      if after.head? = none ∨ after.head? = some ' ' then do
        let key ← sliceTo text index
        return some (trimEnd key, trim after)
      else splitKeyFrom text (index + c.utf8Size) c rest
    else splitKeyFrom text (index + c.utf8Size) c rest

/-- A line's key and the rest after `: `, outside any quotes. -/
def splitKey (text : Chars) : Except Stop (Option (Chars × Chars)) := do
  let start := afterQuote text
  let rest ← sliceFrom text start
  splitKeyFrom text start ' ' rest

/-- The loop of `strip_comment`, from `index` on. -/
def stripCommentFrom (text : Chars) : ℕ → Char → Chars → Except Stop Chars
  | _, _, [] => .ok (trimEnd text)
  | index, previous, c :: rest =>
    if c = '#' ∧ previous = ' ' then do
      let before ← sliceTo text index
      return trimEnd before
    else stripCommentFrom text (index + c.utf8Size) c rest

/-- `text` without a ` #` comment, outside quotes. -/
def stripComment (text : Chars) : Except Stop Chars := do
  let start := afterQuote text
  let rest ← sliceFrom text start
  stripCommentFrom text start (if start = 0 then ' ' else '"') rest

inductive Chomp where
  | strip
  | clip
  | keep
deriving DecidableEq

def chomp : Chars → Option Chomp
  | [] => some .clip
  | ['-'] => some .strip
  | ['+'] => some .keep
  | _ => none

/-- `>`, `|`, `>-`, `|+`... with nothing after but a comment: whether it is folded, and how it
ends. -/
def blockScalarStyle (text : Chars) : Except Stop (Option (Bool × Chomp)) := do
  match ← stripComment text with
  | [] => return none
  | c :: rest =>
    if c = '>' ∨ c = '|' then return (chomp rest).map fun chomp ↦ (c == '>', chomp)
    else return none

/-! ## Quoted scalars -/

/-- What is between the quotes. -/
def stripQuotes (quote : Char) (text : Chars) : Option Chars :=
  match text with
  | [] => none
  | c :: rest => if c = quote ∧ rest.getLast? = some quote then some rest.dropLast else none

/-- `char::to_digit(16)`. -/
def hexValue (c : Char) : Option ℕ :=
  if '0' ≤ c ∧ c ≤ '9' then some (c.toNat - 48)
  else if 'a' ≤ c ∧ c ≤ 'f' then some (c.toNat - 87)
  else if 'A' ≤ c ∧ c ≤ 'F' then some (c.toNat - 55)
  else none

/-- The number of hexadecimal digits. -/
def hexNumber (digits : Chars) : Option ℕ :=
  digits.foldlM (fun n c ↦ (hexValue c).map fun d ↦ 16 * n + d) 0

/-- `u32::from_str_radix` for base 16. -/
def fromStrRadix (text : Chars) : Option ℕ :=
  let digits := match text with
    | '+' :: rest => rest
    | _ => text
  if digits = [] then none else (hexNumber digits).filter fun n ↦ decide (n < 2 ^ 32)

/-- `char::from_u32`. -/
def fromU32 (n : ℕ) : Option Char := if n.isValidChar then some (Char.ofNat n) else none

/-- The character that `width` digits stand for. -/
def escapedChar (width : ℕ) (digits : Chars) : Option Char :=
  ((fromStrRadix digits).filter fun _ ↦ len digits == width).bind fromU32

def simpleEscape : Char → Option Char
  | '\\' => some '\\'
  | '"' => some '"'
  | '/' => some '/'
  | 'n' => some '\n'
  | 't' => some '\t'
  | 'r' => some '\r'
  | '0' => some (Char.ofNat 0)
  | ' ' => some ' '
  | _ => none

def escapeWidth : Char → Option ℕ
  | 'x' => some 2
  | 'u' => some 4
  | 'U' => some 8
  | _ => none

/-- The loop of `double_quoted`; the first `skip` characters were read as part of an escape. -/
def unescape (number : ℕ) : ℕ → Chars → Except Stop Chars
  | _, [] => .ok []
  | skip + 1, _ :: rest => unescape number skip rest
  | 0, c :: rest =>
    if c = '"' then refuse number "a stray quote inside a double-quoted scalar"
    else if c ≠ '\\' then do
      let more ← unescape number 0 rest
      return c :: more
    else
      match rest.head?.bind simpleEscape, rest.head?.bind escapeWidth with
      | some escaped, _ => do
        let more ← unescape number 1 rest
        return escaped :: more
      | none, some width =>
        match escapedChar width ((rest.drop 1).take width) with
        | none => refuse number "a bad \\x, \\u or \\U escape"
        | some escaped => do
          let more ← unescape number (1 + width) rest
          return escaped :: more
      | none, none => refuse number "an unknown escape in a double-quoted scalar"

def doubleQuoted (text : Chars) (number : ℕ) : Except Stop Chars :=
  match stripQuotes '"' text with
  | none => refuse number "unterminated or multi-line double-quoted scalar"
  | some inner => unescape number 0 inner

/-- The loop of `single_quoted`. -/
def unquote (number : ℕ) : Chars → Except Stop Chars
  | [] => .ok []
  | c :: rest =>
    if c = '\'' then
      match rest with
      | [] => refuse number "a stray quote inside a single-quoted scalar"
      | d :: more =>
        if d = '\'' then do
          let after ← unquote number more
          return c :: after
        else refuse number "a stray quote inside a single-quoted scalar"
    else do
      let after ← unquote number rest
      return c :: after

def singleQuoted (text : Chars) (number : ℕ) : Except Stop Chars :=
  match stripQuotes '\'' text with
  | none => refuse number "unterminated or multi-line single-quoted scalar"
  | some inner => unquote number inner

/-! ## Scalars -/

/-- The values that a scalar has. -/
inductive Scalar where
  | null
  | boolean (value : Bool)
  | number (text : String)
  | string (text : Chars)

def Scalar.value : Scalar → Json
  | .null => .null
  | .boolean value => .boolean value
  | .number text => .number text
  | .string text => .string (String.ofList text)

/-- `str::parse::<i64>`. -/
def parseI64 (text : Chars) : Option ℤ :=
  let digits := match text with
    | '+' :: rest => rest
    | '-' :: rest => rest
    | _ => text
  if digits = [] ∨ digits.all Char.isDigit = false then none
  else
    let n : ℤ := Nat.ofDigitChars 10 digits 0
    let value := if text.head? = some '-' then -n else n
    if -2 ^ 63 ≤ value ∧ value < 2 ^ 63 then some value else none

/-- Whether a float may hold the character. -/
def isFloatChar (c : Char) : Bool := c.isDigit || c ∈ ['.', '-', '+', 'e', 'E']

def nulls : List Chars := ["", "~", "null", "Null", "NULL"].map String.toList

def trues : List Chars := ["true", "True", "TRUE"].map String.toList

def falses : List Chars := ["false", "False", "FALSE"].map String.toList

variable (lib : Library)

/-- A scalar that is not quoted. -/
def plain (text : Chars) : Scalar :=
  if nulls.contains text then .null
  else if trues.contains text then .boolean true
  else if falses.contains text then .boolean false
  else
    match parseI64 text with
    | some integer => .number (toString integer)
    | none =>
      match if text.all isFloatChar then lib.float text else none with
      | some number => .number number
      | none => .string text

def scalar (text : Chars) (number : ℕ) : Except Stop Scalar := do
  let text ← stripComment text
  match text.head? with
  | none => return plain lib text
  | some c =>
    if c = '"' then (doubleQuoted text number).map Scalar.string
    else if c = '\'' then (singleQuoted text number).map Scalar.string
    else if c ∈ ['[', '\x7b'] then refuse number "flow collections are not supported"
    else if c ∈ ['&', '*', '!'] then refuse number "anchors, aliases and tags are not supported"
    else if c ∈ ['|', '>'] then refuse number "a block scalar indicator here is not supported"
    else if c ∈ ['%', '@', '\x60'] then refuse number "a plain scalar cannot start with this"
    else return plain lib text

def keyText (key : Chars) (number : ℕ) : Except Stop Chars := do
  match ← scalar lib key number with
  | .string text => return text
  | .null => return []
  | .boolean value => return (toString value).toList
  | .number text => return text.toList

end Huntsman.Yaml
