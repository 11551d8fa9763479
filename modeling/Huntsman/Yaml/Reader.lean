import Huntsman.Lib.Loop
import Huntsman.Yaml.Line

/-!
# Reading a YAML document

The reader goes through the lines of a document: `block` sees whether a sequence, a mapping or a
scalar starts at the current line, and what it finds there is read in the same way, one level
deeper.  An item such as `- key: value` is read by taking its dash off: the line is rewritten to
what is left of it, at the column that is at, and read again.

`block` says how deep it is and is refused past `maxDepth`.  Here it is told besides how many blocks
may still be opened within each other, `room`, and ends with a fault when there is none.
-/

set_option autoImplicit false

namespace Huntsman.Yaml

open Huntsman.Graph (Json)

structure Line where
  /-- 1-based, for errors. -/
  number : ℕ
  indent : ℕ
  /-- The content after the indentation, comments not yet removed. -/
  text : Chars

structure Reader where
  lines : List Line
  pos : ℕ

/-- What a reader makes of what starts at the current line, with the reader after it. -/
abbrev Call := Reader → ℕ → ℕ → Except Stop (Json × Reader)

/-- `&list[a..b]`. -/
def between {α : Type} (list : List α) (a b : ℕ) : Except Stop (List α) :=
  if a ≤ b ∧ b ≤ list.length then .ok ((list.take b).drop a) else fault .outOfBounds

namespace Reader

def current (r : Reader) : Option Line := r.lines[r.pos]?

/-- The reader `n` lines on. -/
def advance (r : Reader) (n : ℕ) : Reader := { r with pos := r.pos + n }

/-- The reader past the lines that satisfy `p`. -/
def skipWhile (r : Reader) (p : Line → Bool) : Reader :=
  r.advance ((r.lines.drop r.pos).takeWhile p).length

def skipBlank (r : Reader) : Reader := r.skipWhile fun line ↦ isBlank line.text

/-- The current line with another column and text. -/
def rewrite (r : Reader) (indent : ℕ) (text : Chars) : Except Stop Reader :=
  match r.current with
  | none => fault .outOfBounds
  | some line =>
    .ok { r with lines := r.lines.set r.pos { line with indent := indent, text := text } }

/-- The lines from the current one on. -/
def rest (r : Reader) : List Line := r.lines.drop r.pos

theorem current_eq (r : Reader) : r.current = r.rest.head? := List.head?_drop.symm

theorem rest_advance (r : Reader) (n : ℕ) : (r.advance n).rest = r.rest.drop n :=
  List.drop_drop.symm

theorem rest_skipWhile (r : Reader) (p : Line → Bool) :
    (r.skipWhile p).rest = r.rest.dropWhile p := by
  have hsplit : r.rest.takeWhile p ++ r.rest.dropWhile p = r.rest := List.takeWhile_append_dropWhile
  rw [skipWhile, rest_advance, ← rest]
  nth_rewrite 2 [← hsplit]
  exact List.drop_left

end Reader

/-! ## Block scalars -/

/-- One line of a folded scalar, added to what there is; the flag says that the last line was
blank. -/
def foldLine (s : Chars × Bool) (line : Chars) : Chars × Bool :=
  if line = [] then (s.1 ++ ['\n'], true)
  else if line.head? = some ' ' then
    -- A more-indented line keeps its own line, as YAML folds.
    let out := if s.2 = false ∧ s.1.getLast? ≠ some '\n' then s.1 ++ ['\n'] else s.1
    (out ++ line ++ ['\n'], true)
  else
    let out := if s.2 then s.1 else s.1 ++ [' ']
    (out ++ line, false)

/-- The end of a block scalar. -/
def chomped (chomp : Chomp) (trailingBlank : ℕ) (out : Chars) : Chars :=
  match chomp with
  | .strip => if out.getLast? = some '\n' then out.dropLast else out
  | .clip => if out ≠ [] ∧ out.getLast? ≠ some '\n' then out ++ ['\n'] else out
  | .keep =>
    let out := if out.getLast? ≠ some '\n' then out ++ ['\n'] else out
    out ++ List.replicate trailingBlank '\n'

/-- What the lines of a block scalar say. -/
def blockText (style : Bool × Chomp) (number : ℕ) (body : List Line) : Except Stop Chars :=
  match body.find? fun line ↦ !line.text.isEmpty with
  | none => .ok []
  | some first =>
    if body.any fun line ↦ !line.text.isEmpty && decide (line.indent < first.indent) then
      refuse number "a block scalar line is indented less than its first line"
    else do
      let lines ← body.mapM fun line ↦
        if line.text = [] then .ok [] else do
          let extra ← sub line.indent first.indent
          return List.replicate extra ' ' ++ line.text
      let trailingBlank := (lines.reverse.takeWhile List.isEmpty).length
      let stop ← sub lines.length trailingBlank
      let content ← between lines 0 stop
      let out := if style.1 then (content.foldl foldLine ([], true)).1 else ['\n'].intercalate content
      return chomped style.2 trailingBlank out

/-- The lines of a `>` or `|` scalar under a key or item at `parent` indentation. -/
def blockScalar (r : Reader) (parent : ℕ) (style : Bool × Chomp) (number : ℕ) :
    Except Stop (Json × Reader) := do
  let after := r.skipWhile fun line ↦ line.text.isEmpty || decide (parent < line.indent)
  let body ← between r.lines r.pos after.pos
  let text ← blockText style number body
  return (.string (String.ofList text), after)

/-! ## Sequences -/

variable (lib : Library)

/-- A scalar that takes the rest of the current line. -/
def lineScalar (r : Reader) (text : Chars) (number : ℕ) : Except Stop (Json × Reader) := do
  let value ← scalar lib text number
  return (value.value, r.advance 1)

/-- Whether a sequence or a mapping starts with the text. -/
def startsNode (text : Chars) : Except Stop Bool :=
  if isItem text then .ok true else (splitKey text).map Option.isSome

/-- `- rest`: `rest` is read as a node at its own column. -/
def readRest (block : Call) (indent depth : ℕ) (r : Reader) (line : Line) (rest : Chars) :
    Except Stop (Json × Reader) := do
  let width ← sub (len line.text) (len rest)
  let r ← r.rewrite (indent + width) rest
  if ← startsNode rest then block r (indent + width) (depth + 1)
  else
    match ← blockScalarStyle rest with
    | some style => blockScalar (r.advance 1) indent style line.number
    | none => lineScalar lib r rest line.number

/-- The item that `line`, the current one, begins. -/
def readItem (block : Call) (indent depth : ℕ) (r : Reader) (line : Line) :
    Except Stop (Json × Reader) := do
  let after ← sliceFrom line.text 1
  let rest := trimStart after
  if isBlank rest then
    let r := (r.advance 1).skipBlank
    match r.current with
    | none => return (.null, r)
    | some next => if indent < next.indent then block r next.indent (depth + 1) else return (.null, r)
  else readRest lib block indent depth r line rest

def sequencePass (block : Call) (indent depth : ℕ) (s : List Json × Reader) :
    Except Stop (Pass (Json × Reader) (List Json × Reader)) :=
  let r := s.2.skipBlank
  match r.current with
  | none => .ok (.leave (.array s.1, r))
  | some line =>
    if line.indent ≠ indent ∨ isItem line.text = false then
      if indent < line.indent then refuse line.number "unexpected indentation in a sequence"
      else .ok (.leave (.array s.1, r))
    else do
      let item ← readItem lib block indent depth r line
      return .again (s.1 ++ [item.1], item.2)

def sequence (block : Call) : Call := fun r indent depth ↦
  Loop.tryFor (.fault .endless) (sequencePass lib block indent depth) (r.lines.length + 1) ([], r)

/-! ## Mappings -/

/-- `Map::insert`: the fields are in the order of their names. -/
def insertField (key : String) (value : Json) : List (String × Json) → List (String × Json)
  | [] => [(key, value)]
  | field :: fields =>
    if key < field.1 then (key, value) :: field :: fields
    else if key = field.1 then (key, value) :: fields
    else field :: insertField key value fields

/-- What the loop of `mapping` keeps. -/
structure Members where
  map : List (String × Json)
  keys : List String
  reader : Reader

/-- The value of a key whose line goes on with `rest`. -/
def readValue (block sequence : Call) (indent depth : ℕ) (r : Reader) (rest : Chars) (number : ℕ) :
    Except Stop (Json × Reader) := do
  match ← blockScalarStyle rest with
  | some style => blockScalar (r.advance 1) indent style number
  | none =>
    if isBlank rest then
      let r := (r.advance 1).skipBlank
      match r.current with
      | none => return (.null, r)
      | some next =>
        if indent < next.indent then block r next.indent (depth + 1)
        -- A sequence may sit at its key's indentation.
        else if next.indent = indent ∧ isItem next.text then sequence r indent (depth + 1)
        else return (.null, r)
    else lineScalar lib r rest number

def mappingPass (block sequence : Call) (indent depth : ℕ) (s : Members) :
    Except Stop (Pass (Json × Reader) Members) :=
  let r := s.reader.skipBlank
  match r.current with
  | none => .ok (.leave (.object s.map, r))
  | some line =>
    if line.indent < indent ∨ (line.indent = indent ∧ isItem line.text) then
      .ok (.leave (.object s.map, r))
    else if indent < line.indent then refuse line.number "unexpected indentation in a mapping"
    else do
      match ← splitKey line.text with
      | none => refuse line.number "expected `key: value`"
      | some (key, rest) =>
        let key ← keyText lib key line.number
        let name := String.ofList key
        if name ∈ s.keys then refuse line.number ("duplicate key " ++ lib.debug key)
        else
          let value ← readValue lib block sequence indent depth r rest line.number
          return .again ⟨insertField name value.1 s.map, name :: s.keys, value.2⟩

def mapping (block sequence : Call) : Call := fun r indent depth ↦
  Loop.tryFor (.fault .endless) (mappingPass lib block sequence indent depth) (r.lines.length + 1)
    ⟨[], [], r⟩

/-! ## Documents -/

/-- How `block` begins, with what is done when there is a line and it is not too deep. -/
def opened (go : Line → Call) : Call := fun r indent depth ↦
  match r.current with
  | none => .ok (.null, r)
  | some line =>
    if maxDepth < depth then refuse line.number "nested too deeply" else go line r indent depth

/-- The node that `line`, the current one, begins. -/
def node (sequence mapping : Call) (line : Line) : Call := fun r indent depth ↦
  if isItem line.text then sequence r indent depth
  else do
    match ← splitKey line.text with
    | some _ => mapping r indent depth
    | none => lineScalar lib r line.text line.number

/-- The node starting at the current line, which is at `indent`. -/
def block : ℕ → Call
  | 0 => opened fun _ _ _ _ ↦ fault .tooDeep
  | room + 1 => opened
    (node lib (sequence lib (block room)) (mapping lib (block room) (sequence lib (block room))))

/-- The lines of a document, from the one after `index` on. -/
def splitLines : ℕ → List Chars → Except Stop (List Line)
  | _, [] => .ok []
  | index, raw :: raws => do
    let body := raw.dropWhile (· == ' ')
    if body.head? = some '\t' then refuse (index + 1) "a tab in indentation"
    else
      let indent ← sub (len raw) (len body)
      let lines ← splitLines (index + 1) raws
      return ⟨index + 1, indent, trimEnd body⟩ :: lines

/-- The mark that a document may begin with. -/
def isStart (line : Line) : Bool :=
  decide (line.indent = 0) && (line.text == ['-', '-', '-'] || ['-', '-', '-', ' '].isPrefixOf line.text)

/-- The reader at the first line of a document's value. -/
def atStart (lines : List Line) : Reader :=
  let r := Reader.skipBlank ⟨lines, 0⟩
  if r.current.any isStart then (r.advance 1).skipBlank else r.skipBlank

/-- A document's value, with `read` for its nodes. -/
def parseWith (read : Call) (text : Chars) : Except Stop Json :=
  if maxBytes < len text then refuse 1 "larger than 262144 bytes"
  else do
    let lines ← splitLines 0 (Text.linesAux [] text)
    let r := atStart lines
    match r.current with
    | none => return .null
    | some first =>
      let value ← read r first.indent 0
      match value.2.skipBlank.current with
      | none => return value.1
      | some line =>
        if line.text ≠ ['.', '.', '.'] then refuse line.number "content after the end of the document"
        else return value.1

/-- Read one YAML document, with room for `room` blocks within each other. -/
def parse (room : ℕ) (text : Chars) : Except Stop Json := parseWith (block lib room) text

end Huntsman.Yaml
