import Huntsman.Text

/-!
# Patterns and what they mean

A correlation rule's regular expression is read into a `Node`.  This file has the tree and its
meaning: `Node.Matches` says between which positions of a text a tree matches, one clause for each
kind of node, with no word about how a match is found.

What the standard library knows of Unicode beyond white space is a parameter: which characters are
numeric or alphanumeric and what a character's case mappings are (`Unicode`).
-/

set_option autoImplicit false

namespace Huntsman.Pattern

/-- The tests and mappings of `char` that patterns use. -/
structure Unicode where
  isNumeric : Char → Bool
  isAlphanumeric : Char → Bool
  toLowercase : Char → List Char
  toUppercase : Char → List Char

/-- The lower case of `c`, where that is one character. -/
def Unicode.lower (u : Unicode) (c : Char) : Char :=
  match u.toLowercase c with
  | [one] => one
  | _ => c

/-- The upper case of `c`, where that is one character. -/
def Unicode.upper (u : Unicode) (c : Char) : Char :=
  match u.toUppercase c with
  | [one] => one
  | _ => c

inductive Perl where
  | digit | word | space
deriving DecidableEq

def Perl.test (u : Unicode) : Perl → Char → Bool
  | .digit, c => u.isNumeric c
  | .word, c => u.isAlphanumeric c || c == '_'
  | .space, c => Text.isWhitespace c

inductive ClassItem where
  | range (low high : Char)
  | perl (kind : Perl) (negated : Bool)
deriving DecidableEq

def ClassItem.test (u : Unicode) : ClassItem → Char → Bool
  | .range low high, c => decide (low ≤ c) && decide (c ≤ high)
  | .perl kind negated, c => kind.test u c != negated

structure Class where
  items : List ClassItem
  negated : Bool
deriving DecidableEq

def Class.test (u : Unicode) (k : Class) (c : Char) (ignoreCase : Bool) : Bool :=
  let hit := fun c ↦ k.items.any fun item ↦ item.test u c
  let found := hit c || (ignoreCase && (hit (u.lower c) || hit (u.upper c)))
  found != k.negated

inductive Assertion where
  | start | «end» | absoluteEnd | wordBoundary | notWordBoundary
deriving DecidableEq

inductive Node where
  | empty
  | char (c : Char)
  | any
  | charClass (k : Class)
  | assert (assertion : Assertion)
  | concat (items : List Node)
  | alt (branches : List Node)
  | repeated (node : Node) (min : ℕ) (max : Option ℕ)

def isWord (u : Unicode) (c : Option Char) : Bool :=
  c.any fun c ↦ u.isAlphanumeric c || c == '_'

/-- Whether an assertion holds at position `pos` of a text. -/
def holds (u : Unicode) (assertion : Assertion) (pos : ℕ) (chars : List Char) : Bool :=
  match assertion with
  | .start => pos == 0
  -- the end, or just before a final newline
  | .end => pos == chars.length || (pos + 1 == chars.length && chars[pos]? == some '\n')
  | .absoluteEnd => pos == chars.length
  | .wordBoundary | .notWordBoundary =>
    let before := if pos = 0 then none else chars[pos - 1]?
    let boundary := isWord u before != isWord u chars[pos]?
    boundary == decide (assertion = .wordBoundary)

/-- Whether a literal character of a pattern stands for a character of the text. -/
def sameChar (u : Unicode) (ignoreCase : Bool) (want c : Char) : Bool :=
  want == c || (ignoreCase && u.lower want == u.lower c)

/-! ## The meaning of a tree -/

/-- `R` holds `n` times in a row. -/
def Times (R : ℕ → ℕ → Prop) : ℕ → ℕ → ℕ → Prop
  | 0, i, j => i = j
  | n + 1, i, j => ∃ k, R i k ∧ Times R n k j

/-- A character of the text that passes a test. -/
def Reads (chars : List Char) (test : Char → Bool) (i j : ℕ) : Prop :=
  ∃ c, chars[i]? = some c ∧ test c = true ∧ j = i + 1

section Meaning

variable (u : Unicode) (ignoreCase : Bool) (chars : List Char)

mutual

/-- The tree matches the characters of the text from `i` to `j`. -/
def Node.Matches : Node → ℕ → ℕ → Prop
  | .empty, i, j => i = j
  | .char want, i, j => Reads chars (sameChar u ignoreCase want) i j
  | .any, i, j => Reads chars (· != '\n') i j
  | .charClass k, i, j => Reads chars (k.test u · ignoreCase) i j
  | .assert assertion, i, j => holds u assertion i chars = true ∧ i = j
  | .concat items, i, j => MatchesAll items i j
  | .alt branches, i, j => MatchesAny branches i j
  | .repeated node min max, i, j =>
    ∃ n, min ≤ n ∧ (∀ m ∈ max, n ≤ m) ∧ Times (fun i j ↦ node.Matches i j) n i j

/-- The trees match one after the other. -/
def MatchesAll : List Node → ℕ → ℕ → Prop
  | [], i, j => i = j
  | item :: rest, i, j => ∃ k, item.Matches i k ∧ MatchesAll rest k j

/-- One of the trees matches. -/
def MatchesAny : List Node → ℕ → ℕ → Prop
  | [], _, _ => False
  | branch :: rest, i, j => branch.Matches i j ∨ MatchesAny rest i j

end

end Meaning

variable {R : ℕ → ℕ → Prop} {n i j : ℕ}

theorem Times.le {bound : ℕ}
    (hR : ∀ {i j}, R i j → i ≤ bound → i ≤ j ∧ j ≤ bound) (h : Times R n i j) (hi : i ≤ bound) :
    i ≤ j ∧ j ≤ bound := by
  induction n generalizing i with
  | zero =>
    cases h
    exact ⟨le_rfl, hi⟩
  | succ n ih =>
    obtain ⟨k, hk, hrest⟩ := h
    obtain ⟨hik, hkb⟩ := hR hk hi
    obtain ⟨hkj, hjb⟩ := ih hrest hkb
    exact ⟨hik.trans hkj, hjb⟩

theorem Times.add {m k : ℕ} (h : Times R m i j) (h' : Times R n j k) :
    Times R (m + n) i k := by
  induction m generalizing i with
  | zero =>
    cases h
    rw [Nat.zero_add]
    exact h'
  | succ m ih =>
    obtain ⟨l, hl, hrest⟩ := h
    rw [Nat.succ_add]
    exact ⟨l, hl, ih hrest⟩

theorem Times.split {m k : ℕ} (h : Times R (m + n) i k) :
    ∃ j, Times R m i j ∧ Times R n j k := by
  induction m generalizing i with
  | zero =>
    rw [Nat.zero_add] at h
    exact ⟨i, rfl, h⟩
  | succ m ih =>
    rw [Nat.succ_add] at h
    obtain ⟨l, hl, hrest⟩ := h
    obtain ⟨j, hj, hend⟩ := ih hrest
    exact ⟨j, ⟨l, hl, hj⟩, hend⟩

theorem Reads.le {chars : List Char} {test : Char → Bool} (h : Reads chars test i j) :
    i ≤ j ∧ j ≤ chars.length := by
  obtain ⟨c, hc, -, rfl⟩ := h
  have hlt : i < chars.length := by
    by_contra hge
    rw [List.getElem?_eq_none (Nat.le_of_not_lt hge)] at hc
    simp at hc
  omega

/-! ## Trees the parser builds

A repetition whose bounds are out of order matches nothing and an alternation of no branches
neither; both are refused or never built. -/

mutual

def Node.Formed : Node → Prop
  | .concat items => FormedAll items
  | .alt branches => branches ≠ [] ∧ FormedAll branches
  | .repeated node min max => node.Formed ∧ ∀ m ∈ max, min ≤ m
  | _ => True

def FormedAll : List Node → Prop
  | [] => True
  | item :: rest => item.Formed ∧ FormedAll rest

end

theorem formedAll_iff {items : List Node} : FormedAll items ↔ ∀ item ∈ items, item.Formed := by
  induction items with
  | nil => simp [FormedAll]
  | cons item rest ih => rw [FormedAll, ih, List.forall_mem_cons]

end Huntsman.Pattern
