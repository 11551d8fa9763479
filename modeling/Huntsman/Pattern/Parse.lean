import Huntsman.Pattern.Node

/-!
# Reading a pattern

The parser takes the source character by character.  A `Parser` is its state: how many characters
it has read and which are left.  The depth of open groups is not a field here but the recursion:
`alternation n` may open `n` more groups inside each other, and `alternation 0` refuses one.

The loops of the source go on until something stops them, and each pass reads a character, so a loop
here is given as many passes as there are characters left.  That this is enough is
`concatLoop_unroll`, `alternationLoop_unroll` and `classLoop_unroll`: each loop is the one of the
source, whose next pass starts over with what is then left.
-/

set_option autoImplicit false

namespace Huntsman.Pattern

/-- Groups nested deeper than this are refused. -/
def maxDepth : ℕ := 64

structure PatternError where
  pattern : String
  offset : ℕ
  reason : String
deriving DecidableEq

structure Parser where
  source : String
  pos : ℕ
  /-- The characters from `pos` on. -/
  rest : List Char
  ignoreCase : Bool

/-- What a part of the parser answers: the part it read, and where it stopped. -/
abbrev Parsed (α : Type) := Except PatternError (α × Parser)

inductive Escaped where
  | char (c : Char)
  | perl (kind : Perl) (negated : Bool)
  | assert (assertion : Assertion)

namespace Parser

def fail {α : Type} (p : Parser) (reason : String) : Parsed α :=
  .error ⟨p.source, p.pos, reason⟩

def peek (p : Parser) : Option Char := p.rest.head?

/-- `n` characters further on. -/
def skip (p : Parser) (n : ℕ) : Parser := { p with pos := p.pos + n, rest := p.rest.drop n }

def eat (p : Parser) (c : Char) : Bool × Parser :=
  if p.peek = some c then (true, p.skip 1) else (false, p)

/-- `eat` twice: the second is tried only after the first, which stays eaten. -/
def eatBoth (p : Parser) (a b : Char) : Bool × Parser :=
  match p.eat a with
  | (true, p) => p.eat b
  | (false, p) => (false, p)

/-! ## Escapes and classes -/

/-- The escapes that are one letter. -/
def named (inClass : Bool) : Char → Option Escaped
  | 'd' => some (.perl .digit false)
  | 'D' => some (.perl .digit true)
  | 'w' => some (.perl .word false)
  | 'W' => some (.perl .word true)
  | 's' => some (.perl .space false)
  | 'S' => some (.perl .space true)
  | 'b' => some (if inClass then .char (Char.ofNat 8) else .assert .wordBoundary)
  | 'B' => if inClass then none else some (.assert .notWordBoundary)
  | 'A' => if inClass then none else some (.assert .start)
  | 'Z' => if inClass then none else some (.assert .absoluteEnd)
  | 't' => some (.char '\t')
  | 'n' => some (.char '\n')
  | 'r' => some (.char '\r')
  | 'f' => some (.char (Char.ofNat 12))
  | 'v' => some (.char (Char.ofNat 11))
  | _ => none

def hexValue (c : Char) : Option ℕ :=
  if '0' ≤ c ∧ c ≤ '9' then some (c.toNat - '0'.toNat)
  else if 'a' ≤ c ∧ c ≤ 'f' then some (c.toNat - 'a'.toNat + 10)
  else if 'A' ≤ c ∧ c ≤ 'F' then some (c.toNat - 'A'.toNat + 10)
  else none

/-- The two hex digits of `\x`.  `from_str_radix` takes a leading `+`, so `\x+a` is read too. -/
def hexPair : List Char → Option ℕ
  | ['+', low] => hexValue low
  | [high, low] => (hexValue high).bind fun h ↦ (hexValue low).map fun l ↦ 16 * h + l
  | _ => none

def escape (p : Parser) (inClass : Bool) : Parsed Escaped :=
  match p.peek with
  | none => p.fail "pattern ends with \\"
  | some c =>
    let p := p.skip 1
    match named inClass c with
    | some item => .ok (item, p)
    | none =>
      if c = 'x' then
        match hexPair (p.rest.take 2) with
        | none => p.fail "\\x needs two hex digits"
        | some value => .ok (.char (Char.ofNat value), p.skip 2)
      else if c.isDigit then p.fail "backreferences are not supported"
      else if c.isAlpha then p.fail "unknown escape"
      else .ok (.char c, p)

/-- The upper end of a range, whose `-` has been read. -/
def rangeEnd (p : Parser) : Parsed Char :=
  match p.peek with
  | none => p.fail "missing ]"
  | some next =>
    let p := p.skip 1
    if next = '\\' then
      match p.escape true with
      | .error e => .error e
      | .ok (.char c, p) => .ok (c, p)
      | .ok (_, p) => p.fail "a range ends in a class escape"
    else .ok (next, p)

/-- A class item that starts with the character `low`. -/
def classRange (p : Parser) (low : Char) : Parsed ClassItem :=
  if p.peek = some '-' ∧ (p.rest[1]?).any (· ≠ ']') then
    match (p.skip 1).rangeEnd with
    | .error e => .error e
    | .ok (high, p) =>
      if high < low then p.fail "range out of order" else .ok (.range low high, p)
  else .ok (.range low low, p)

/-- The class item at `c`, which has been read. -/
def classItem (p : Parser) (c : Char) : Parsed ClassItem :=
  if c = '\\' then
    match p.escape true with
    | .error e => .error e
    | .ok (.char low, p) => p.classRange low
    | .ok (.perl kind negated, p) => .ok (.perl kind negated, p)
    | .ok (.assert _, p) => p.fail "assertion in a class"
  else p.classRange c

/-- The items of a class, up to the `]` that is not the first. -/
def classLoop : ℕ → Bool → List ClassItem → Parser → Parsed (List ClassItem)
  | 0, _, _, p => p.fail "missing ]"
  | fuel + 1, first, items, p =>
    match p.peek with
    | none => p.fail "missing ]"
    | some c =>
      if c = ']' ∧ first = false then .ok (items, p.skip 1)
      else
        match (p.skip 1).classItem c with
        | .error e => .error e
        | .ok (item, p) => classLoop fuel false (items ++ [item]) p

def charClass (p : Parser) : Parsed Node :=
  let (negated, p) := p.eat '^'
  match classLoop p.rest.length true [] p with
  | .error e => .error e
  | .ok (items, p) => .ok (.charClass ⟨items, negated⟩, p)

/-! ## Quantifiers -/

/-- `str::parse` of a run of digits as a `u32`. -/
def parseDigits (digits : List Char) : Option ℕ :=
  let value := digits.foldl (fun n c ↦ 10 * n + (c.toNat - '0'.toNat)) 0
  if digits = [] ∨ 2 ^ 32 ≤ value then none else some value

def number (p : Parser) : Option ℕ × Parser :=
  let digits := p.rest.takeWhile Char.isDigit
  (parseDigits digits, p.skip digits.length)

abbrev Bounds := ℕ × Option ℕ

/-- The rest of `{n}`, `{n,}`, `{n,m}`, `{,m}` or `{,}` after its brace. -/
def countedBody (p : Parser) : Option (Bounds × Parser) :=
  let digitsAt := p.pos
  let (min, p) := p.number
  if digitsAt < p.pos ∧ min = none then none
  else
    match p.eat '}' with
    | (true, p) => min.map fun min ↦ ((min, some min), p)
    | (false, p) =>
      match p.eat ',' with
      | (false, _) => none
      | (true, p) =>
        let min := min.getD 0
        match p.eat '}' with
        | (true, p) => some ((min, none), p)
        | (false, p) =>
          match p.number with
          | (none, _) => none
          | (some max, p) =>
            match p.eat '}' with
            | (true, p) => some ((min, some max), p)
            | (false, _) => none

/-- A counted quantifier; anything malformed leaves the `{` to be read as a literal. -/
def counted (p : Parser) : Option (Bounds × Parser) :=
  match p.eat '{' with
  | (true, p) => p.countedBody
  | (false, _) => none

/-- The bounds of the quantifier at this position. -/
def quantifier (p : Parser) : Option (Bounds × Parser) :=
  match p.peek with
  | some '*' => some ((0, none), p.skip 1)
  | some '+' => some ((1, none), p.skip 1)
  | some '?' => some ((0, some 1), p.skip 1)
  | some '{' => p.counted
  | _ => none

/-- Whether a quantifier has something to repeat in `atom`. -/
def repeatable : Node → Bool
  | .assert _ | .empty => false
  | _ => true

def quantified (p : Parser) (atom : Node) : Parsed Node :=
  match p.quantifier with
  | none => .ok (atom, p)
  | some ((min, max), p) =>
    if max.any (· < min) then p.fail "repetition bounds out of order"
    else if repeatable atom = false then p.fail "nothing to repeat"
    -- laziness changes which match is found, never whether one is
    else .ok (.repeated atom min max, (p.eat '?').2)

/-! ## Atoms, concatenations and alternations -/

/-- A group's name, up to and with its `>`. -/
def skipName (p : Parser) : Parser :=
  p.skip (Nat.min ((p.rest.takeWhile (· != '>')).length + 1) p.rest.length)

/-- What follows a `(`: whether a group's body does, or a flag was set instead. -/
def opening (p : Parser) : Parsed Bool :=
  match p.eat '?' with
  | (false, p) => .ok (true, p)
  | (true, p) =>
    match p.eat ':' with
    | (true, p) => .ok (true, p)
    | (false, p) =>
      match p.eatBoth 'P' '<' with
      | (true, p) => .ok (true, p.skipName)
      | (false, p) =>
        match p.eatBoth 'i' ')' with
        | (true, p) => .ok (false, { p with ignoreCase := true })
        | (false, p) =>
          p.fail
            "lookaround, backreferences and inline flags other than (?i) are not supported"

section Levels

-- How the inside of a group is read, `none` where no group may be opened any more.
variable (alternation : Option (Parser → Parsed Node))

def group (p : Parser) : Parsed Node :=
  match p.opening with
  | .error e => .error e
  | .ok (false, p) => .ok (.empty, p)
  | .ok (true, p) =>
    match alternation with
    | none => p.fail "groups nested too deeply"
    | some alternation =>
      match alternation p with
      | .error e => .error e
      | .ok (inner, p) =>
        match p.eat ')' with
        | (true, p) => .ok (inner, p)
        | (false, p) => p.fail "missing )"

/-- The node an escape outside a class stands for. -/
def escapedNode : Escaped → Node
  | .char c => .char c
  | .perl kind negated => .charClass ⟨[.perl kind negated], false⟩
  | .assert assertion => .assert assertion

def atom (p : Parser) : Parsed Node :=
  match p.peek with
  | none => p.fail "pattern ends early"
  | some c =>
    let p := p.skip 1
    match c with
    | '.' => .ok (.any, p)
    | '^' => .ok (.assert .start, p)
    | '$' => .ok (.assert .end, p)
    | '[' => p.charClass
    | '(' => group alternation p
    | '\\' =>
      match p.escape false with
      | .error e => .error e
      | .ok (item, p) => .ok (escapedNode item, p)
    | '*' | '+' | '?' => p.fail "nothing to repeat"
    | c => .ok (.char c, p)

/-- An atom and its quantifier. -/
def item (p : Parser) : Parsed Node :=
  match atom alternation p with
  | .error e => .error e
  | .ok (node, p) => p.quantified node

def concatLoop : ℕ → List Node → Parser → Parsed (List Node)
  | 0, items, p => .ok (items, p)
  | fuel + 1, items, p =>
    match p.peek with
    | none => .ok (items, p)
    | some c =>
      if c = '|' ∨ c = ')' then .ok (items, p)
      else
        match item alternation p with
        | .error e => .error e
        | .ok (node, p) => concatLoop fuel (items ++ [node]) p

/-- One item stands for itself. -/
def concatOf : List Node → Node
  | [] => .empty
  | [node] => node
  | items => .concat items

def concat (p : Parser) : Parsed Node :=
  match concatLoop alternation p.rest.length [] p with
  | .error e => .error e
  | .ok (items, p) => .ok (concatOf items, p)

def alternationLoop : ℕ → List Node → Parser → Parsed (List Node)
  | 0, branches, p => .ok (branches, p)
  | fuel + 1, branches, p =>
    match p.eat '|' with
    | (false, p) => .ok (branches, p)
    | (true, p) =>
      match concat alternation p with
      | .error e => .error e
      | .ok (branch, p) => alternationLoop fuel (branches ++ [branch]) p

/-- One branch stands for itself. -/
def alternationOf : List Node → Node
  | [node] => node
  | branches => .alt branches

def alternationWith (p : Parser) : Parsed Node :=
  match concat alternation p with
  | .error e => .error e
  | .ok (first, p) =>
    match alternationLoop alternation p.rest.length [first] p with
    | .error e => .error e
    | .ok (branches, p) => .ok (alternationOf branches, p)

end Levels

/-- An alternation inside which groups may still be nested `level` deep. -/
def alternation : ℕ → Parser → Parsed Node
  | 0, p => alternationWith none p
  | level + 1, p => alternationWith (some (alternation level)) p

end Parser

/-- The tree of a pattern, and the case rule in force: the caller's, or what `(?i)` set. -/
def parse (source : String) (ignoreCase : Bool) : Except PatternError (Node × Bool) :=
  match Parser.alternation maxDepth ⟨source, 0, source.toList, ignoreCase⟩ with
  | .error e => .error e
  | .ok (node, p) =>
    if p.rest = [] then .ok (node, p.ignoreCase)
    else .error ⟨source, p.pos, "unbalanced )"⟩

end Huntsman.Pattern
