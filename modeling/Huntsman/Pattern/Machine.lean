import Huntsman.Pattern.Compile

/-!
# Running a pattern

`isMatch` runs the program over the text with a set of threads at each position, every instruction
visited at most once a position.  An access outside the program or the marks, where the source would
panic, answers `none` here, and so does a search that runs out of fuel; `isMatch_iff` shows that
neither happens.
-/

set_option autoImplicit false

namespace Huntsman.Pattern

/-- The instructions live at one position: a sparse set, so each is visited once. -/
structure Threads where
  seen : List Bool
  visited : List ℕ
  dense : List ℕ

namespace Threads

def new (size : ℕ) : Threads := ⟨List.replicate size false, [], []⟩

/-- Mark `pc`, and whether it was new. -/
def insert (t : Threads) (pc : ℕ) : Option (Bool × Threads) :=
  match t.seen[pc]? with
  | none => none
  | some true => some (false, t)
  | some false => some (true, { t with seen := t.seen.set pc true, visited := t.visited ++ [pc] })

def clear (t : Threads) : Threads :=
  ⟨t.visited.foldl (fun seen pc ↦ seen.set pc false) t.seen, [], []⟩

end Threads

section Machine

variable (u : Unicode) (ignoreCase : Bool) (prog : List Inst) (chars : List Char)

/-- Whether an instruction reads the character `c`. -/
def Inst.advances (c : Char) : Inst → Bool
  | .char want => sameChar u ignoreCase want c
  | .any => c != '\n'
  | .charClass k => k.test u c ignoreCase
  | _ => false

/-- Follow every jump, split and assertion from the instructions on the stack. -/
def addLoop (pos : ℕ) : ℕ → List ℕ → Threads → Option (Bool × Threads)
  | 0, _, _ => none
  | _ + 1, [], t => some (false, t)
  | fuel + 1, pc :: stack, t =>
    match t.insert pc with
    | none => none
    | some (false, t) => addLoop pos fuel stack t
    | some (true, t) =>
      match prog[pc]? with
      | none => none
      | some .matched => some (true, t)
      | some (.jmp target) => addLoop pos fuel (target :: stack) t
      | some (.split first second) => addLoop pos fuel (first :: second :: stack) t
      | some (.assert assertion) =>
        addLoop pos fuel (if holds u assertion pos chars then (pc + 1) :: stack else stack) t
      | some (.char _) | some .any | some (.charClass _) =>
        addLoop pos fuel stack { t with dense := t.dense ++ [pc] }

def add (pos pc : ℕ) (t : Threads) : Option (Bool × Threads) :=
  addLoop u prog chars pos (3 * prog.length + 2) [pc] t

/-- The threads that read `c`, followed to what they lead to at position `pos`. -/
def advance (c : Char) (pos : ℕ) : List ℕ → Threads → Option (Bool × Threads)
  | [], next => some (false, next)
  | pc :: rest, next =>
    match prog[pc]? with
    | none => none
    | some inst =>
      if inst.advances u ignoreCase c then
        match add u prog chars pos (pc + 1) next with
        | some (false, next) => advance c pos rest next
        | other => other
      else advance c pos rest next

/-- The search from position `pos` on, where `rest` is the text. -/
def search : List Char → ℕ → Threads → Threads → Option Bool
  | rest, pos, current, next =>
    -- a thread starts at every position: a search, not an anchored match
    match add u prog chars pos 0 current with
    | none => none
    | some (true, _) => some true
    | some (false, current) =>
      match rest with
      | [] => some false
      | c :: rest =>
        match advance u ignoreCase prog chars c (pos + 1) current.dense next.clear with
        | none => none
        | some (true, _) => some true
        | some (false, next) => search rest (pos + 1) next current

end Machine

/-- `Pattern::is_match`. -/
def Program.isMatch (u : Unicode) (p : Program) (text : String) : Option Bool :=
  search u p.ignoreCase p.prog text.toList text.toList 0 (.new p.prog.length) (.new p.prog.length)

/-! ## One step -/

section Steps

variable (u : Unicode) (ignoreCase : Bool) (prog : List Inst) (chars : List Char)

/-- Where an instruction at `pc` leads without reading, at position `pos`. -/
def Inst.follows (pos pc : ℕ) : Inst → List ℕ
  | .jmp target => [target]
  | .split first second => [first, second]
  | .assert assertion => if holds u assertion pos chars then [pc + 1] else []
  | _ => []

/-- `pc` leads to `pc'` at position `pos` without reading. -/
def Follows (pos pc pc' : ℕ) : Prop :=
  ∃ inst, prog[pc]? = some inst ∧ pc' ∈ inst.follows u chars pos pc

/-- One step of the machine, from an instruction and a position to the next. -/
inductive Step : ℕ × ℕ → ℕ × ℕ → Prop
  | follow {pc pc' i : ℕ} (h : Follows u prog chars i pc pc') : Step (pc, i) (pc', i)
  | read {pc i : ℕ} {inst : Inst} {c : Char} (hinst : prog[pc]? = some inst)
      (hc : chars[i]? = some c) (h : inst.advances u ignoreCase c = true) :
      Step (pc, i) (pc + 1, i + 1)

end Steps

end Huntsman.Pattern
