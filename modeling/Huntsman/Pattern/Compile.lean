import Huntsman.Pattern.Parse

/-!
# Compiling a pattern

The compiler writes a tree as a list of instructions.  Where a jump's target is not known yet it
writes a placeholder and patches it later.  A repetition compiles its body once; every further copy
is the code written for the first, with its jumps shifted (`Compiler.copy`).
-/

set_option autoImplicit false

namespace Huntsman.Pattern

/-- The most instructions one pattern compiles to, a class counting once for each item. -/
def maxProgram : ℕ := 20000

inductive Inst where
  | char (c : Char)
  | any
  | charClass (k : Class)
  | assert (assertion : Assertion)
  | split (first second : ℕ)
  | jmp (target : ℕ)
  | matched
deriving DecidableEq

/-- What an instruction counts against the limit. -/
def Inst.weight : Inst → ℕ
  | .charClass k => Nat.max k.items.length 1
  | _ => 1

/-- An instruction moved on by `shift`, with its targets. -/
def Inst.shift (shift : ℕ) : Inst → Inst
  | .split first second => .split (first + shift) (second + shift)
  | .jmp target => .jmp (target + shift)
  | inst => inst

structure Compiler where
  prog : List Inst
  cost : ℕ

namespace Compiler

/-- A new last instruction. -/
def emit (c : Compiler) (inst : Inst) : Except String Compiler :=
  if maxProgram < c.cost + inst.weight then
    .error "compiles to more than 20000 instructions"
  else .ok ⟨c.prog ++ [inst], c.cost + inst.weight⟩

/-- The instructions at the given places, each replaced by what `inst` says for it. -/
def patch (c : Compiler) (places : List ℕ) (inst : ℕ → Inst) : Compiler :=
  { c with prog := places.foldl (fun prog i ↦ prog.set i (inst i)) c.prog }

/-- The span of the code of a repeated body, once it was compiled. -/
abbrev Body := Option (ℕ × ℕ)

section Repeat

/-- How a repetition's body is compiled. -/
abbrev Compile := Compiler → Except String Compiler

variable (body : Compile)

/-- One more copy of a repeated body. -/
def copy (c : Compiler) : Body → Except String (Body × Compiler)
  | none =>
    match body c with
    | .error e => .error e
    | .ok c' => .ok (some (c.prog.length, c'.prog.length), c')
  | some (start, stop) =>
    -- every jump of the body lands inside it or just past its end, so one shift fits them all
    let code := (c.prog.take stop).drop start
    let shift := c.prog.length - start
    match code.foldlM (fun c inst ↦ c.emit (inst.shift shift)) c with
    | .error e => .error e
    | .ok c' => .ok (some (start, stop), c')

/-- The copies a repetition has at least.  A body that compiles to nothing is written once. -/
def required : ℕ → Body → Compiler → Except String (Body × Compiler)
  | 0, span, c => .ok (span, c)
  | n + 1, span, c =>
    match copy body c span with
    | .error e => .error e
    | .ok (span, c') =>
      if c'.prog.length = c.prog.length then .ok (span, c') else required n span c'

/-- The copies a repetition may have beyond that, each after a split that is still open. -/
def optional : ℕ → Body → Compiler → Except String (List ℕ × Compiler)
  | 0, _, c => .ok ([], c)
  | n + 1, span, c =>
    match c.emit (.split 0 0) with
    | .error e => .error e
    | .ok c₁ =>
      match copy body c₁ span with
      | .error e => .error e
      | .ok (span, c₂) =>
        match optional n span c₂ with
        | .error e => .error e
        | .ok (splits, c₃) => .ok (c.prog.length :: splits, c₃)

/-- A loop back to before the body. -/
def unbounded (span : Body) (c : Compiler) : Except String Compiler :=
  match c.emit (.split 0 0) with
  | .error e => .error e
  | .ok c₁ =>
    match copy body c₁ span with
    | .error e => .error e
    | .ok (_, c₂) =>
      match c₂.emit (.jmp c.prog.length) with
      | .error e => .error e
      | .ok c₃ => .ok (c₃.patch [c.prog.length] fun i ↦ .split (i + 1) c₃.prog.length)

def repetition (min : ℕ) (max : Option ℕ) (c : Compiler) : Except String Compiler :=
  match required body min none c with
  | .error e => .error e
  | .ok (span, c) =>
    match max with
    | none => unbounded body span c
    | some max =>
      match optional body (max - min) span c with
      | .error e => .error e
      | .ok (splits, c) => .ok (c.patch splits fun i ↦ .split (i + 1) c.prog.length)

end Repeat

mutual

def node : Node → Compiler → Except String Compiler
  | .empty, c => .ok c
  | .char x, c => c.emit (.char x)
  | .any, c => c.emit .any
  | .charClass k, c => c.emit (.charClass k)
  | .assert assertion, c => c.emit (.assert assertion)
  | .concat items, c => nodes items c
  | .alt branches, c =>
    match alternatives branches c with
    | .error e => .error e
    | .ok (jumps, c) => .ok (c.patch jumps fun _ ↦ .jmp c.prog.length)
  | .repeated body min max, c => repetition (fun c ↦ node body c) min max c

/-- The trees one after the other. -/
def nodes : List Node → Compiler → Except String Compiler
  | [], c => .ok c
  | item :: rest, c =>
    match node item c with
    | .error e => .error e
    | .ok c => nodes rest c

/-- The branches of an alternation, and where their jumps to its end are still open. -/
def alternatives : List Node → Compiler → Except String (List ℕ × Compiler)
  | [], c => .ok ([], c)
  | [branch], c =>
    match node branch c with
    | .error e => .error e
    | .ok c => .ok ([], c)
  | branch :: next :: rest, c =>
    match c.emit (.split 0 0) with
    | .error e => .error e
    | .ok c₁ =>
      match node branch c₁ with
      | .error e => .error e
      | .ok c₂ =>
        match c₂.emit (.jmp 0) with
        | .error e => .error e
        | .ok c₃ =>
          match alternatives (next :: rest)
              (c₃.patch [c.prog.length] fun i ↦ .split (i + 1) c₃.prog.length) with
          | .error e => .error e
          | .ok (jumps, c₄) => .ok (c₂.prog.length :: jumps, c₄)

end

end Compiler

structure Program where
  prog : List Inst
  ignoreCase : Bool

/-- `Pattern::build`. -/
def build (source : String) (ignoreCase : Bool) : Except PatternError Program :=
  match parse source ignoreCase with
  | .error e => .error e
  | .ok (tree, rule) =>
    match Compiler.node tree ⟨[], 0⟩ with
    | .error reason => .error ⟨source, 0, reason⟩
    | .ok c =>
      match c.emit .matched with
      | .error reason => .error ⟨source, 0, reason⟩
      | .ok c => .ok ⟨c.prog, rule⟩

/-- `Pattern::new`. -/
def new (source : String) : Except PatternError Program := build source false

/-- `Pattern::new_ignore_case`. -/
def newIgnoreCase (source : String) : Except PatternError Program := build source true

end Huntsman.Pattern
