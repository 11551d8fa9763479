import Huntsman.Pattern.Parse

/-!
# The grammar of patterns

What a pattern may be, with no word about how it is read.

The parser takes two forms more than the grammar has, and `wide` says whether they are in:
`\x+a`, since the digits of `\x` are given to a reader of numbers that takes a sign, and `(?Pi)`,
since the `P` of a named group is taken before it is known that a `<` follows.
-/

set_option autoImplicit false

namespace Huntsman.Pattern.Grammar

open Huntsman.Pattern.Parser

/-- A relation of the characters where a part starts, those left after it and what it stands for. -/
abbrev Reading (α : Type) := List Char → List Char → α → Prop

section Parts

variable (wide : Bool)

/-- What may stand after a `\`. -/
inductive Escape (inClass : Bool) : Reading Escaped
  | named {c s e} (h : named inClass c = some e) : Escape inClass (c :: s) s e
  | hex {high low s n m} (h : hexValue high = some n) (h' : hexValue low = some m) :
    Escape inClass ('x' :: high :: low :: s) s (.char (Char.ofNat (16 * n + m)))
  | signed {low s n} (hwide : wide = true) (h : hexValue low = some n) :
    Escape inClass ('x' :: '+' :: low :: s) s (.char (Char.ofNat n))
  | plain {c s} (h : c.isAlphanum = false) : Escape inClass (c :: s) s (.char c)

/-! ## Classes -/

inductive ClassChar : Reading Char
  | plain {c s} (h : c ≠ '\\') : ClassChar (c :: s) s c
  | escaped {s t c} (h : Escape wide true s t (.char c)) : ClassChar ('\\' :: s) t c

/-- What starts with the `-` of a range: the last character of a class is one for itself. -/
inductive RangeSign : List Char → Prop
  | mk {c s} (h : c ≠ ']') : RangeSign ('-' :: c :: s)

inductive ClassEntry : Reading ClassItem
  | perl {s t kind negated} (h : Escape wide true s t (.perl kind negated)) :
    ClassEntry ('\\' :: s) t (.perl kind negated)
  | single {s t c} (h : ClassChar wide s t c) (hsign : ¬RangeSign t) : ClassEntry s t (.range c c)
  | range {s t u low high} (h : ClassChar wide s ('-' :: t) low) (hsign : RangeSign ('-' :: t))
    (h' : ClassChar wide t u high) (hle : low ≤ high) : ClassEntry s u (.range low high)

/-- The entries of a class and its `]`, which as the first entry would be one for itself. -/
inductive ClassEntries : Bool → List Char → List Char → List ClassItem → Prop
  | close {s} : ClassEntries false (']' :: s) s []
  | cons {first s t u item items}
    (hopen : s.head? = some ']' → first = true) (h : ClassEntry wide s t item)
    (hrest : ClassEntries false t u items) : ClassEntries first s u (item :: items)

inductive CharClass : Reading Class
  | negated {s t items} (h : ClassEntries wide true s t items) :
    CharClass ('^' :: s) t ⟨items, true⟩
  | plain {s t items} (hs : s.head? ≠ some '^')
    (h : ClassEntries wide true s t items) : CharClass s t ⟨items, false⟩

/-! ## Quantifiers -/

/-- A number of a counted quantifier: digits for a number below `2 ^ 32`. -/
def Bound (digits : List Char) (n : ℕ) : Prop :=
  (∀ d ∈ digits, d.isDigit = true) ∧ parseDigits digits = some n

inductive Quantifier : Reading Bounds
  | star {s} : Quantifier ('*' :: s) s (0, none)
  | plus {s} : Quantifier ('+' :: s) s (1, none)
  | optional {s} : Quantifier ('?' :: s) s (0, some 1)
  | exactly {digits n s} (h : Bound digits n) :
    Quantifier ('{' :: (digits ++ '}' :: s)) s (n, some n)
  | any {s} : Quantifier ('{' :: ',' :: '}' :: s) s (0, none)
  | atLeast {digits n s} (h : Bound digits n) :
    Quantifier ('{' :: (digits ++ ',' :: '}' :: s)) s (n, none)
  | atMost {digits n s} (h : Bound digits n) :
    Quantifier ('{' :: ',' :: (digits ++ '}' :: s)) s (0, some n)
  | between {low high n m s} (h : Bound low n) (h' : Bound high m) :
    Quantifier ('{' :: (low ++ ',' :: (high ++ '}' :: s))) s (n, some m)

/-- The mark after a quantifier, which is not the start of anything else. -/
inductive Lazy : List Char → List Char → Prop
  | mark {s} : Lazy ('?' :: s) s
  | none {s} (h : s.head? ≠ some '?') : Lazy s s

/-! ## Groups -/

/-- What follows the `(` of a group. -/
inductive Opening : List Char → List Char → Prop
  | captured {s} (h : s.head? ≠ some '?') : Opening s s
  | uncaptured {s} : Opening ('?' :: ':' :: s) s
  | named {name s} (h : '>' ∉ name) : Opening ('?' :: 'P' :: '<' :: (name ++ '>' :: s)) s

inductive Flag : List Char → List Char → Prop
  | plain {s} : Flag ('?' :: 'i' :: ')' :: s) s
  | loose {s} (hwide : wide = true) : Flag ('?' :: 'P' :: 'i' :: ')' :: s) s

/-! ## Atoms, concatenations and alternations -/

/-- The characters that do not stand for themselves.  A `{` does where no quantifier is read. -/
def special : List Char := ['.', '^', '$', '[', '(', '\\', '*', '+', '?', '|', ')']

-- What a group may hold.
variable (inner : Reading Node)

inductive Atom : Reading Node
  | any {s} : Atom ('.' :: s) s .any
  | start {s} : Atom ('^' :: s) s (.assert .start)
  | «end» {s} : Atom ('$' :: s) s (.assert .end)
  | charClass {s t k} (h : CharClass wide s t k) : Atom ('[' :: s) t (.charClass k)
  | escape {s t e} (h : Escape wide false s t e) : Atom ('\\' :: s) t (escapedNode e)
  | group {s t u node} (h : Opening s t) (hinner : inner t (')' :: u) node) : Atom ('(' :: s) u node
  | flag {s t} (h : Flag wide s t) : Atom ('(' :: s) t .empty
  | char {c s} (h : c ∉ special) : Atom (c :: s) s (.char c)

/-- An atom and its quantifier, which an assertion and what is empty cannot have. -/
inductive Item : Reading Node
  | once {s t node} (h : Atom wide inner s t node) (hnone : ∀ u b, ¬Quantifier t u b) :
    Item s t node
  | repeated {s t u v node min max} (h : Atom wide inner s t node)
    (hquantifier : Quantifier t u (min, max)) (hrepeatable : repeatable node = true)
    (hbounds : ∀ m ∈ max, min ≤ m) (hlazy : Lazy u v) : Item s v (.repeated node min max)

/-- The items up to the end, a `|` or a `)`. -/
inductive Items : List Char → List Char → List Node → Prop
  | nil {s} (h : ∀ c ∈ s.head?, c = '|' ∨ c = ')') : Items s s []
  | cons {s t u node nodes} (h : Item wide inner s t node) (hrest : Items t u nodes) :
    Items s u (node :: nodes)

inductive Branches : List Char → List Char → List Node → Prop
  | last {s t nodes} (h : Items wide inner s t nodes) (ht : t.head? ≠ some '|') :
    Branches s t [concatOf nodes]
  | more {s t u nodes branches} (h : Items wide inner s ('|' :: t) nodes)
    (hrest : Branches t u branches) : Branches s u (concatOf nodes :: branches)

def AlternationOf (s t : List Char) (node : Node) : Prop :=
  ∃ branches, Branches wide inner s t branches ∧ node = alternationOf branches

end Parts

/-- An alternation in which groups are nested at most `level` deep. -/
def Alternation (wide : Bool) : ℕ → Reading Node
  | 0 => AlternationOf wide fun _ _ _ ↦ False
  | level + 1 => AlternationOf wide (Alternation wide level)

/-- The text is a pattern, and this is its tree. -/
def Derives (wide : Bool) (source : String) (node : Node) : Prop :=
  Alternation wide maxDepth source.toList [] node

end Huntsman.Pattern.Grammar
