import Huntsman.Yaml.Quote

/-!
# What a document spells

A document is said here by what its lines are, not by how they are read: a node is a scalar, the
items of a sequence or the entries of a mapping; what a dash or a key stands for is on its line, or
below it and further in.  A scalar and a key may be quoted, or be any other that the rules for one
line take (`Written`, `Keyed`), and what is around them is arbitrary.

A document is read as what it spells (`parse_document`).  So a quoted text is read as the text it
quotes wherever a document has it, as a value, as a key or as an item.
-/

set_option autoImplicit false

namespace Huntsman.Yaml

open Except List
open Huntsman.Graph (Json)

/-! ## The grammar -/

/-- A scalar as a line has it, and its value. -/
inductive Written (lib : Library) : Chars → Json → Prop where
  | quoted (style : QuoteStyle) (s : Chars) {tail : Chars} (comment : IsComment tail) :
    Written lib (style.quote s ++ tail) (.string (String.ofList s))
  | other {text : Chars} {value : Scalar} (blank : isBlank text = false)
    (node : startsNode text = .ok false) (block : blockScalarStyle text = .ok none)
    (reads : ∀ number, scalar lib text number = .ok value) : Written lib text value.value

/-- A line that has a key, the key, and what follows its colon. -/
inductive Keyed (lib : Library) : Chars → String → Chars → Prop where
  | quoted (style : QuoteStyle) (s : Chars) (k : ℕ) {tail : Chars}
    (colon : tail.head? = none ∨ tail.head? = some ' ') :
    Keyed lib (style.quote s ++ (List.replicate k ' ' ++ ':' :: tail)) (String.ofList s) (trim tail)
  | other {text key name tail : Chars} (blank : isBlank text = false) (item : isItem text = false)
    (split : splitKey text = .ok (some (key, tail)))
    (reads : ∀ number, keyText lib key number = .ok name) : Keyed lib text (String.ofList name) tail

/-- An item's line, and what follows its dash. -/
def Dashed (whole text : Chars) : Prop := isItem whole = true ∧ trimStart (whole.drop 1) = text

/-- The lines from the first on that is not blank. -/
def skip (lines : List Line) : List Line := lines.dropWhile fun line ↦ isBlank line.text

def insertAll (map : List (String × Json)) (fields : List (String × Json)) : List (String × Json) :=
  fields.foldl (fun map field ↦ insertField field.1 field.2 map) map

/-- What some lines are. -/
inductive Part where
  | node (value : Json)
  | items (indent : ℕ) (values : List Json)
  | entries (indent : ℕ) (fields : List (String × Json))
  /-- What an item or an entry stands for, with `text` after its dash or its colon. -/
  | value (item : Bool) (indent : ℕ) (text : Chars) (value : Json)

/-- The lines begin with this part, which is `depth` levels down, and go on with the rest. -/
inductive Spells (lib : Library) : ℕ → Part → List Line → List Line → Prop where
  | scalar {depth : ℕ} {line : Line} {more : List Line} {value : Json} (shallow : depth ≤ maxDepth)
    (written : Written lib line.text value) : Spells lib depth (.node value) (line :: more) more
  | sequence {depth : ℕ} {line : Line} {more rest : List Line} {values : List Json}
    (shallow : depth ≤ maxDepth) (item : isItem line.text = true)
    (items : Spells lib depth (.items line.indent values) (line :: more) rest) :
    Spells lib depth (.node (.array values)) (line :: more) rest
  | mapping {depth : ℕ} {line : Line} {more rest : List Line} {fields : List (String × Json)}
    {name : String} {text : Chars} (shallow : depth ≤ maxDepth) (keyed : Keyed lib line.text name text)
    (distinct : (fields.map Prod.fst).Nodup)
    (entries : Spells lib depth (.entries line.indent fields) (line :: more) rest) :
    Spells lib depth (.node (.object (insertAll [] fields))) (line :: more) rest
  | noItem {depth indent : ℕ} {lines : List Line}
    (stop : ∀ next ∈ (skip lines).head?,
      next.indent < indent ∨ next.indent = indent ∧ isItem next.text = false) :
    Spells lib depth (.items indent []) lines (skip lines)
  | item {depth indent : ℕ} {lines more mid rest : List Line} {line : Line} {text : Chars} {value : Json}
    {values : List Json} (first : skip lines = line :: more) (column : line.indent = indent)
    (dashed : Dashed line.text text) (stands : Spells lib depth (.value true indent text value) more mid)
    (items : Spells lib depth (.items indent values) mid rest) :
    Spells lib depth (.items indent (value :: values)) lines rest
  /-- A node that begins on the item's own line. -/
  | itemNode {depth indent : ℕ} {lines more mid rest : List Line} {line : Line} {text : Chars}
    {value : Json} {values : List Json} (first : skip lines = line :: more)
    (column : line.indent = indent) (dashed : Dashed line.text text) (blank : isBlank text = false)
    (node : startsNode text = .ok true)
    (stands : Spells lib (depth + 1) (.node value)
      (⟨line.number, indent + (len line.text - len text), text⟩ :: more) mid)
    (items : Spells lib depth (.items indent values) mid rest) :
    Spells lib depth (.items indent (value :: values)) lines rest
  | noEntry {depth indent : ℕ} {lines : List Line}
    (stop : ∀ next ∈ (skip lines).head?,
      next.indent < indent ∨ next.indent = indent ∧ isItem next.text = true) :
    Spells lib depth (.entries indent []) lines (skip lines)
  | entry {depth indent : ℕ} {lines more mid rest : List Line} {line : Line} {name : String}
    {text : Chars} {value : Json} {fields : List (String × Json)} (first : skip lines = line :: more)
    (column : line.indent = indent) (keyed : Keyed lib line.text name text)
    (stands : Spells lib depth (.value false indent text value) more mid)
    (entries : Spells lib depth (.entries indent fields) mid rest) :
    Spells lib depth (.entries indent ((name, value) :: fields)) lines rest
  | valueScalar {depth indent : ℕ} {item : Bool} {text : Chars} {value : Json} {more : List Line}
    (written : Written lib text value) : Spells lib depth (.value item indent text value) more more
  | valueBlock {depth indent : ℕ} {item : Bool} {text s : Chars} {style : Bool × Chomp}
    {more : List Line} (blank : isBlank text = false) (node : startsNode text = .ok false)
    (block : blockScalarStyle text = .ok (some style))
    (body : ∀ number, blockText style number
      (more.takeWhile fun line ↦ line.text.isEmpty || decide (indent < line.indent)) = .ok s) :
    Spells lib depth (.value item indent text (.string (String.ofList s))) more
      (more.dropWhile fun line ↦ line.text.isEmpty || decide (indent < line.indent))
  | valueNull {depth indent : ℕ} {item : Bool} {text : Chars} {more : List Line}
    (blank : isBlank text = true)
    (stop : ∀ next ∈ (skip more).head?,
      next.indent < indent ∨ next.indent = indent ∧ (item = false → isItem next.text = false)) :
    Spells lib depth (.value item indent text .null) more (skip more)
  | valueBelow {depth indent : ℕ} {item : Bool} {text : Chars} {value : Json} {next : Line}
    {more after rest : List Line} (blank : isBlank text = true) (first : skip more = next :: after)
    (deeper : indent < next.indent) (node : Spells lib (depth + 1) (.node value) (next :: after) rest) :
    Spells lib depth (.value item indent text value) more rest
  /-- A sequence at its key's indentation. -/
  | valueSame {depth indent : ℕ} {text : Chars} {values : List Json} {next : Line}
    {more after rest : List Line} (blank : isBlank text = true) (first : skip more = next :: after)
    (column : next.indent = indent) (item : isItem next.text = true)
    (items : Spells lib (depth + 1) (.items indent values) (next :: after) rest) :
    Spells lib depth (.value false indent text (.array values)) more rest

/-- A text is made of lines, of which the last need not end in a line break. -/
inductive IsLines : Chars → List Chars → Prop where
  | nil : IsLines [] []
  | last {raw : Chars} (plain : '\n' ∉ raw) (nonempty : raw ≠ []) : IsLines raw [raw]
  | line {raw text : Chars} {raws : List Chars} (plain : '\n' ∉ raw) (bare : raw.getLast? ≠ some '\r')
    (more : IsLines text raws) : IsLines (raw ++ '\n' :: text) (raw :: raws)

/-- The lines of a document's value, past its `---`. -/
def valueLines (lines : List Line) : List Line :=
  if (skip lines).head?.any isStart then skip ((skip lines).drop 1) else skip lines

/-- A text within the reader's limits, and the value that its lines spell. -/
inductive Document (lib : Library) : Chars → Json → Prop where
  | intro {text : Chars} {raws : List Chars} {lines rest : List Line} {value : Json}
    (isLines : IsLines text raws) (small : len text ≤ maxBytes) (split : splitLines 0 raws = .ok lines)
    (spells : Spells lib 0 (.node value) (valueLines lines) rest)
    (stop : ∀ next ∈ (skip rest).head?, next.text = ['.', '.', '.']) : Document lib text value

/-! ## What the rules say of one line -/

section Lines

variable {lib : Library} {text tail : Chars} {value : Json} {name : String}

theorem startsNode_false (h : startsNode text = .ok false) :
    isItem text = false ∧ splitKey text = .ok none := by
  rw [startsNode] at h
  split at h
  · cases h
  · rename_i hitem
    obtain ⟨key, hkey, hsome⟩ := map_eq_ok.1 h
    rw [Option.isSome_eq_false_iff, Option.isNone_iff_eq_none] at hsome
    exact ⟨Bool.eq_false_iff.2 hitem, by rw [hkey, hsome]⟩

theorem Written.node (h : Written lib text value) :
    isBlank text = false ∧ startsNode text = .ok false ∧ blockScalarStyle text = .ok none := by
  cases h with
  | quoted style s comment =>
    refine ⟨isBlank_quote style s _, ?_, blockScalarStyle_quote style s comment⟩
    rw [startsNode, isItem_quote, splitKey_comment style s comment]
    rfl
  | other blank node block _ => exact ⟨blank, node, block⟩

theorem Written.scalar (h : Written lib text value) (number : ℕ) :
    ∃ read, scalar lib text number = .ok read ∧ read.value = value := by
  cases h with
  | quoted style s comment => exact ⟨.string s, scalar_quote style s comment, rfl⟩
  | other _ _ _ reads => exact ⟨_, reads number, rfl⟩

theorem Keyed.line (h : Keyed lib text name tail) : isBlank text = false ∧ isItem text = false := by
  cases h with
  | quoted style s k colon => exact ⟨isBlank_quote style s _, isItem_quote style s _⟩
  | other blank item _ _ => exact ⟨blank, item⟩

theorem Keyed.split (h : Keyed lib text name tail) : ∃ key, splitKey text = .ok (some (key, tail)) ∧
    ∀ number, ∃ read, keyText lib key number = .ok read ∧ String.ofList read = name := by
  cases h with
  | quoted style s k colon =>
    exact ⟨_, splitKey_quote style s k colon, fun number ↦ ⟨s, keyText_quote style s, rfl⟩⟩
  | other _ _ split reads => exact ⟨_, split, fun number ↦ ⟨_, reads number, rfl⟩⟩

theorem Dashed.slice {whole : Chars} (h : Dashed whole text) :
    ∃ after, sliceFrom whole 1 = .ok after ∧ trimStart after = text ∧ len text ≤ len whole := by
  obtain ⟨hitem, htext⟩ := h
  obtain ⟨after, rfl⟩ : ∃ after, whole = '-' :: after := by
    rw [isItem, Bool.or_eq_true, beq_iff_eq, isPrefixOf_iff_prefix] at hitem
    rcases hitem with h | ⟨after, h⟩
    · exact ⟨[], h⟩
    · exact ⟨' ' :: after, h.symm⟩
  refine ⟨after, sliceFrom_append ['-'] after, htext, ?_⟩
  rw [← htext, len_cons]
  exact Nat.le_trans (len_le_of_suffix (dropWhile_suffix _)) (Nat.le_add_left _ _)

theorem blockScalarStyle_blank (h : isBlank text = true) : blockScalarStyle text = .ok none := by
  cases text with
  | nil => rfl
  | cons c rest =>
    have hc : c = '#' := by simpa [isBlank] using h
    subst hc
    have hstrip : stripComment ('#' :: rest) = .ok [] := by
      rw [stripComment]
      refine bind_ok.2 ⟨'#' :: rest, sliceFrom_append [] _, ?_⟩
      rw [stripCommentFrom, if_pos ⟨rfl, rfl⟩]
      exact bind_ok.2 ⟨[], sliceTo_append [] _, rfl⟩
    rw [blockScalarStyle, hstrip]
    rfl

end Lines

/-! ## The reader at a part -/

theorem Reader.rest_skipBlank (r : Reader) : r.skipBlank.rest = skip r.rest := r.rest_skipWhile _

variable {r : Reader} {s : Chars}

theorem Reader.current_of_rest {line : Line} {more : List Line}
    (h : r.rest = line :: more) : r.current = some line := by
  rw [Reader.current_eq, h]
  rfl

theorem Reader.rest_next {line : Line} {more : List Line} (h : r.rest = line :: more) :
    (r.advance 1).rest = more := by
  rw [Reader.rest_advance, h]
  rfl

theorem Reader.rest_rewrite {line : Line} {more : List Line}
    (h : r.rest = line :: more) (indent : ℕ) (text : Chars) :
    ∃ r₁, r.rewrite indent text = .ok r₁ ∧ r₁.rest = ⟨line.number, indent, text⟩ :: more := by
  refine ⟨{ r with lines := r.lines.set r.pos ⟨line.number, indent, text⟩ }, ?_, ?_⟩
  · rw [Reader.rewrite, Reader.current_of_rest h]
  · show (r.lines.set r.pos _).drop r.pos = _
    rw [drop_set, if_neg (Nat.lt_irrefl _), Nat.sub_self, ← Reader.rest, h]
    rfl

/-- The reading comes to this value and leaves these lines. -/
def Leaves (value : Json) (rest : List Line) (x : Except Stop (Json × Reader)) : Prop :=
  ∃ r, x = .ok (value, r) ∧ r.rest = rest

variable {lib : Library} {depth indent room : ℕ} {value : Json} {text : Chars}
  {lines more rest : List Line}

theorem Reader.between_skipWhile (h : r.pos ≤ r.lines.length) (p : Line → Bool) :
    between r.lines r.pos (r.skipWhile p).pos = .ok (r.rest.takeWhile p) := by
  have hcount : (r.skipWhile p).pos - r.pos = (r.rest.takeWhile p).length :=
    Nat.add_sub_cancel_left _ _
  rw [between_eq (r.le_skipWhile p) (Reader.skipWhile_le h p), drop_take, hcount, ← Reader.rest,
    ← prefix_iff_eq_take.1 (List.takeWhile_prefix p)]

theorem blockScalar_leaves {line : Line} (h : r.rest = line :: more)
    {style : Bool × Chomp} {number : ℕ} (hbody : blockText style number
      (more.takeWhile fun line ↦ line.text.isEmpty || decide (indent < line.indent)) = .ok s) :
    Leaves (.string (String.ofList s))
      (more.dropWhile fun line ↦ line.text.isEmpty || decide (indent < line.indent))
      (blockScalar (r.advance 1) indent style number) := by
  have hpos : (r.advance 1).pos ≤ (r.advance 1).lines.length :=
    Reader.pos_lt (Reader.current_of_rest h)
  have hrest := Reader.rest_next h
  rw [← hrest] at hbody ⊢
  refine ⟨_, bind_ok.2 ⟨_, Reader.between_skipWhile hpos _, bind_ok.2 ⟨s, hbody, rfl⟩⟩, ?_⟩
  exact Reader.rest_skipWhile _ _

theorem lineScalar_leaves {line : Line} (h : r.rest = line :: more) {number : ℕ}
    (hwritten : Written lib text value) : Leaves value more (lineScalar lib r text number) := by
  obtain ⟨read, hread, rfl⟩ := hwritten.scalar number
  refine ⟨r.advance 1, ?_, Reader.rest_next h⟩
  rw [lineScalar, hread]
  rfl

theorem length_skip_le (lines : List Line) : (skip lines).length ≤ lines.length :=
  (dropWhile_suffix _).length_le

theorem length_of_skip {line : Line} (h : skip lines = line :: more) : more.length < lines.length := by
  have := length_skip_le lines
  rw [h, length_cons] at this
  exact this

/-- What the reader makes of a part, with room for the levels there may yet be. -/
def Reads (lib : Library) (depth : ℕ) : Part → List Line → List Line → Prop
  | .node value, lines, rest => ∀ room r, maxDepth < depth + room → r.rest = lines →
      ∀ line ∈ lines.head?, Leaves value rest (block lib room r line.indent depth)
  | .items indent values, lines, rest => ∀ room fuel r before, maxDepth < depth + 1 + room →
      r.rest = lines → lines.length < fuel → Leaves (.array (before ++ values)) rest
        (Loop.tryFor (.fault .endless) (sequencePass lib (block lib room) indent depth) fuel (before, r))
  | .entries indent fields, lines, rest => ∀ room fuel s, maxDepth < depth + 1 + room →
      s.reader.rest = lines → lines.length < fuel → (fields.map Prod.fst).Nodup →
        (∀ field ∈ fields, field.1 ∉ s.keys) → Leaves (.object (insertAll s.map fields)) rest
          (Loop.tryFor (.fault .endless)
            (mappingPass lib (block lib room) (sequence lib (block lib room)) indent depth) fuel s)
  | .value true indent text value, more, rest => ∀ room r line, maxDepth < depth + 1 + room →
      r.rest = line :: more → Dashed line.text text →
        Leaves value rest (readItem lib (block lib room) indent depth r line)
  | .value false indent text value, more, rest => ∀ room r line number, maxDepth < depth + 1 + room →
      r.rest = line :: more → Leaves value rest
        (readValue lib (block lib room) (sequence lib (block lib room)) indent depth r text number)

theorem block_node (lib : Library) (indent : ℕ) {line : Line} (hshallow : depth ≤ maxDepth)
    (hroom : maxDepth < depth + room) (hline : r.rest = line :: more) :
    ∃ inner, maxDepth < depth + 1 + inner ∧ block lib room r indent depth =
      node lib (sequence lib (block lib inner))
        (mapping lib (block lib inner) (sequence lib (block lib inner))) line r indent depth := by
  cases room with
  | zero => omega
  | succ inner =>
    refine ⟨inner, by omega, ?_⟩
    rw [block, opened, Reader.current_of_rest hline]
    exact if_neg (by omega)

/-- A loop of the reader is told enough passes. -/
theorem Reader.fuel (h : r.rest = lines) : lines.length < r.lines.length + 1 := by
  rw [← h, Reader.rest, length_drop]
  omega

/-! ## Each part is read -/

theorem reads_scalar {line : Line} (hshallow : depth ≤ maxDepth)
    (hwritten : Written lib line.text value) : Reads lib depth (.node value) (line :: more) more := by
  intro room r hroom hrest first hfirst
  cases hfirst
  obtain ⟨inner, -, hblock⟩ := block_node lib line.indent hshallow hroom hrest
  obtain ⟨hitem, hkey⟩ := startsNode_false hwritten.node.2.1
  rw [hblock, node, hitem, hkey]
  exact lineScalar_leaves hrest hwritten

theorem reads_sequence {line : Line} {values : List Json} (hshallow : depth ≤ maxDepth)
    (hitem : isItem line.text = true)
    (items : Reads lib depth (.items line.indent values) (line :: more) rest) :
    Reads lib depth (.node (.array values)) (line :: more) rest := by
  intro room r hroom hrest first hfirst
  cases hfirst
  obtain ⟨inner, hinner, hblock⟩ := block_node lib line.indent hshallow hroom hrest
  rw [hblock, node, if_pos hitem]
  exact items inner _ r [] hinner hrest (Reader.fuel hrest)

theorem reads_mapping {line : Line} {fields : List (String × Json)} {name : String}
    (hshallow : depth ≤ maxDepth) (hkeyed : Keyed lib line.text name text)
    (hdistinct : (fields.map Prod.fst).Nodup)
    (entries : Reads lib depth (.entries line.indent fields) (line :: more) rest) :
    Reads lib depth (.node (.object (insertAll [] fields))) (line :: more) rest := by
  intro room r hroom hrest first hfirst
  cases hfirst
  obtain ⟨inner, hinner, hblock⟩ := block_node lib line.indent hshallow hroom hrest
  obtain ⟨key, hkey, -⟩ := hkeyed.split
  rw [hblock, node, hkeyed.line.2, hkey]
  exact entries inner _ ⟨[], [], r⟩ hinner hrest (Reader.fuel hrest) hdistinct
    fun _ _ ↦ not_mem_nil

theorem reads_noItem (hstop : ∀ next ∈ (skip lines).head?,
    next.indent < indent ∨ next.indent = indent ∧ isItem next.text = false) :
    Reads lib depth (.items indent []) lines (skip lines) := by
  intro room fuel r before _ hrest hfuel
  obtain ⟨fuel, rfl⟩ := Nat.exists_eq_succ_of_ne_zero (Nat.ne_of_gt (Nat.zero_lt_of_lt hfuel))
  have hskip : r.skipBlank.rest = skip lines := by rw [Reader.rest_skipBlank, hrest]
  refine ⟨r.skipBlank, Loop.tryFor_leave ?_, hskip⟩
  rw [sequencePass, append_nil, Reader.current_eq, hskip]
  rcases hnext : (skip lines).head? with _ | next
  · rfl
  · have hnext := hstop next hnext
    have hend : next.indent ≠ indent ∨ isItem next.text = false :=
      hnext.imp Nat.ne_of_lt And.right
    have hle : ¬ indent < next.indent := by omega
    simp only
    rw [if_pos hend, if_neg hle]

/-- A pass of the loop over the items of a sequence. -/
theorem reads_more {line : Line} {values : List Json} {mid : List Line}
    (hfirst : skip lines = line :: more) (hcolumn : line.indent = indent)
    (hdashed : Dashed line.text text) (hmid : mid.length ≤ more.length)
    (stands : ∀ room r, maxDepth < depth + 1 + room → r.rest = line :: more →
      Leaves value mid (readItem lib (block lib room) indent depth r line))
    (items : Reads lib depth (.items indent values) mid rest) :
    Reads lib depth (.items indent (value :: values)) lines rest := by
  intro room fuel r before hroom hrest hfuel
  obtain ⟨fuel, rfl⟩ := Nat.exists_eq_succ_of_ne_zero (Nat.ne_of_gt (Nat.zero_lt_of_lt hfuel))
  have hskip : r.skipBlank.rest = line :: more := by rw [Reader.rest_skipBlank, hrest, hfirst]
  have hlength := length_of_skip hfirst
  obtain ⟨r₁, hitem, hr₁⟩ := stands room r.skipBlank hroom hskip
  have hpass : sequencePass lib (block lib room) indent depth (before, r) =
      .ok (.again (before ++ [value], r₁)) := by
    have hgo : ¬ (line.indent ≠ indent ∨ isItem line.text = false) := by
      rw [hcolumn, hdashed.1]
      simp
    rw [sequencePass, Reader.current_of_rest hskip]
    simp only
    rw [if_neg hgo, hitem]
    rfl
  rw [Nat.succ_eq_add_one, Loop.tryFor_again hpass]
  have hrun := items room fuel r₁ (before ++ [value]) hroom hr₁ (by omega)
  rwa [append_assoc] at hrun

/-- An item's line with something after its dash. -/
theorem readItem_rest {line : Line} (hdashed : Dashed line.text text)
    (hblank : isBlank text = false) (block : Call) :
    readItem lib block indent depth r line = readRest lib block indent depth r line text := by
  obtain ⟨after, hslice, hafter, -⟩ := hdashed.slice
  rw [readItem, hslice]
  show (if isBlank (trimStart after) then _ else _) = _
  rw [hafter, hblank]
  rfl

/-- An item's line with nothing after its dash but a comment. -/
theorem readItem_blank {line : Line} (hdashed : Dashed line.text text)
    (hblank : isBlank text = true) (block : Call) :
    readItem lib block indent depth r line =
      match (r.advance 1).skipBlank.current with
      | none => .ok (.null, (r.advance 1).skipBlank)
      | some next =>
        if indent < next.indent then block (r.advance 1).skipBlank next.indent (depth + 1)
        else .ok (.null, (r.advance 1).skipBlank) := by
  obtain ⟨after, hslice, hafter, -⟩ := hdashed.slice
  rw [readItem, hslice]
  show (if isBlank (trimStart after) then _ else _) = _
  rw [hafter, hblank]
  rfl

/-- What is left of an item's line, rewritten. -/
theorem readRest_leaves {line : Line} (hdashed : Dashed line.text text)
    (hrest : r.rest = line :: more) {nested : Bool} (hnested : startsNode text = .ok nested)
    (block : Call)
    (hread : ∀ r₁ : Reader,
      r₁.rest = ⟨line.number, indent + (len line.text - len text), text⟩ :: more →
        Leaves value rest (if nested then
          block r₁ (indent + (len line.text - len text)) (depth + 1)
        else blockScalarStyle text >>= fun
          | some style => blockScalar (r₁.advance 1) indent style line.number
          | none => lineScalar lib r₁ text line.number)) :
    Leaves value rest (readRest lib block indent depth r line text) := by
  obtain ⟨-, -, -, hlen⟩ := hdashed.slice
  obtain ⟨r₁, hrewrite, hr₁⟩ := Reader.rest_rewrite hrest (indent + (len line.text - len text)) text
  rw [readRest, sub_eq hlen]
  show Leaves value rest (r.rewrite _ _ >>= _)
  rw [hrewrite, hnested]
  exact hread r₁ hr₁

theorem readItem_node {line : Line} (hdashed : Dashed line.text text)
    (hblank : isBlank text = false) (hnode : startsNode text = .ok true) (hroom : maxDepth < depth + 1 + room)
    (hrest : r.rest = line :: more) (stands : Reads lib (depth + 1) (.node value)
      (⟨line.number, indent + (len line.text - len text), text⟩ :: more) rest) :
    Leaves value rest (readItem lib (block lib room) indent depth r line) := by
  rw [readItem_rest hdashed hblank]
  exact readRest_leaves hdashed hrest hnode _ fun r₁ hr₁ ↦ stands room r₁ hroom hr₁ _ rfl

theorem reads_valueScalar {item : Bool} (hwritten : Written lib text value) :
    Reads lib depth (.value item indent text value) more more := by
  obtain ⟨hblank, hnode, hblock⟩ := hwritten.node
  cases item with
  | true =>
    intro room r line _ hrest hdashed
    rw [readItem_rest hdashed hblank]
    refine readRest_leaves hdashed hrest hnode _ fun r₁ hr₁ ↦ ?_
    rw [hblock]
    exact lineScalar_leaves hr₁ hwritten
  | false =>
    intro room r line number _ hrest
    rw [readValue, hblock]
    show Leaves value more (if isBlank text then _ else _)
    rw [hblank]
    exact lineScalar_leaves hrest hwritten

theorem reads_valueBlock {item : Bool} {style : Bool × Chomp}
    (hblank : isBlank text = false) (hnode : startsNode text = .ok false)
    (hblock : blockScalarStyle text = .ok (some style))
    (hbody : ∀ number, blockText style number
      (more.takeWhile fun line ↦ line.text.isEmpty || decide (indent < line.indent)) = .ok s) :
    Reads lib depth (.value item indent text (.string (String.ofList s))) more
      (more.dropWhile fun line ↦ line.text.isEmpty || decide (indent < line.indent)) := by
  cases item with
  | true =>
    intro room r line _ hrest hdashed
    rw [readItem_rest hdashed hblank]
    refine readRest_leaves hdashed hrest hnode _ fun r₁ hr₁ ↦ ?_
    rw [hblock]
    exact blockScalar_leaves hr₁ (hbody line.number)
  | false =>
    intro room r line number _ hrest
    rw [readValue, hblock]
    exact blockScalar_leaves hrest (hbody number)

/-- What an entry's value is read from, with nothing after its key but a comment. -/
theorem readValue_blank (hblank : isBlank text = true) (block sequence : Call)
    (number : ℕ) :
    readValue lib block sequence indent depth r text number =
      match (r.advance 1).skipBlank.current with
      | none => .ok (.null, (r.advance 1).skipBlank)
      | some next =>
        if indent < next.indent then block (r.advance 1).skipBlank next.indent (depth + 1)
        else if next.indent = indent ∧ isItem next.text then
          sequence (r.advance 1).skipBlank indent (depth + 1)
        else .ok (.null, (r.advance 1).skipBlank) := by
  rw [readValue, blockScalarStyle_blank hblank]
  show (if isBlank text then _ else _) = _
  rw [hblank]
  rfl

/-- The reader below a line, with blank lines skipped. -/
theorem Reader.rest_below {line : Line} (h : r.rest = line :: more) :
    (r.advance 1).skipBlank.rest = skip more := by
  rw [Reader.rest_skipBlank, Reader.rest_next h]

theorem reads_valueNull {item : Bool} (hblank : isBlank text = true)
    (hstop : ∀ next ∈ (skip more).head?,
      next.indent < indent ∨ next.indent = indent ∧ (item = false → isItem next.text = false)) :
    Reads lib depth (.value item indent text .null) more (skip more) := by
  cases item with
  | true =>
    intro room r line _ hrest hdashed
    have hbelow := Reader.rest_below hrest
    refine ⟨(r.advance 1).skipBlank, ?_, hbelow⟩
    rw [readItem_blank hdashed hblank, Reader.current_eq, hbelow]
    rcases hnext : (skip more).head? with _ | next
    · rfl
    · have hle : ¬ indent < next.indent := by
        have := hstop next hnext
        omega
      simp only
      rw [if_neg hle]
  | false =>
    intro room r line number _ hrest
    have hbelow := Reader.rest_below hrest
    refine ⟨(r.advance 1).skipBlank, ?_, hbelow⟩
    rw [readValue_blank hblank, Reader.current_eq, hbelow]
    rcases hnext : (skip more).head? with _ | next
    · rfl
    · have hnext := hstop next hnext
      have hle : ¬ indent < next.indent := by omega
      have hsame : ¬ (next.indent = indent ∧ isItem next.text = true) := by
        rintro ⟨hcolumn, hitem⟩
        rcases hnext with hlt | ⟨-, hnot⟩
        · omega
        · rw [hnot rfl] at hitem
          cases hitem
      simp only
      rw [if_neg hle, if_neg hsame]

theorem reads_valueBelow {item : Bool} {next : Line} {after : List Line} (hblank : isBlank text = true)
    (hfirst : skip more = next :: after) (hdeeper : indent < next.indent)
    (node : Reads lib (depth + 1) (.node value) (next :: after) rest) :
    Reads lib depth (.value item indent text value) more rest := by
  cases item with
  | true =>
    intro room r line hroom hrest hdashed
    have hbelow := (Reader.rest_below hrest).trans hfirst
    rw [readItem_blank hdashed hblank, Reader.current_of_rest hbelow]
    simp only
    rw [if_pos hdeeper]
    exact node room _ hroom hbelow next rfl
  | false =>
    intro room r line number hroom hrest
    have hbelow := (Reader.rest_below hrest).trans hfirst
    rw [readValue_blank hblank, Reader.current_of_rest hbelow]
    simp only
    rw [if_pos hdeeper]
    exact node room _ hroom hbelow next rfl

theorem reads_valueSame {values : List Json} {next : Line} {after : List Line}
    (hblank : isBlank text = true) (hfirst : skip more = next :: after)
    (hcolumn : next.indent = indent) (hitem : isItem next.text = true)
    (items : Reads lib (depth + 1) (.items indent values) (next :: after) rest) :
    Reads lib depth (.value false indent text (.array values)) more rest := by
  intro room r line number hroom hrest
  have hbelow := (Reader.rest_below hrest).trans hfirst
  have hle : ¬ indent < next.indent := by omega
  rw [readValue_blank hblank, Reader.current_of_rest hbelow]
  simp only
  rw [if_neg hle, if_pos ⟨hcolumn, hitem⟩]
  exact items room _ _ [] (by omega) hbelow (Reader.fuel hbelow)

theorem reads_noEntry (hstop : ∀ next ∈ (skip lines).head?,
    next.indent < indent ∨ next.indent = indent ∧ isItem next.text = true) :
    Reads lib depth (.entries indent []) lines (skip lines) := by
  intro room fuel s _ hrest hfuel _ _
  obtain ⟨fuel, rfl⟩ := Nat.exists_eq_succ_of_ne_zero (Nat.ne_of_gt (Nat.zero_lt_of_lt hfuel))
  have hskip : s.reader.skipBlank.rest = skip lines := by rw [Reader.rest_skipBlank, hrest]
  refine ⟨s.reader.skipBlank, Loop.tryFor_leave ?_, hskip⟩
  rw [mappingPass, Reader.current_eq, hskip]
  rcases hnext : (skip lines).head? with _ | next
  · rfl
  · simp only
    rw [if_pos (hstop next hnext)]
    rfl

/-- A pass of the loop over the entries of a mapping. -/
theorem reads_entry {line : Line} {name : String} {fields : List (String × Json)} {mid : List Line}
    (hfirst : skip lines = line :: more) (hcolumn : line.indent = indent)
    (hkeyed : Keyed lib line.text name text) (hmid : mid.length ≤ more.length)
    (stands : Reads lib depth (.value false indent text value) more mid)
    (entries : Reads lib depth (.entries indent fields) mid rest) :
    Reads lib depth (.entries indent ((name, value) :: fields)) lines rest := by
  intro room fuel s hroom hrest hfuel hdistinct hfresh
  obtain ⟨fuel, rfl⟩ := Nat.exists_eq_succ_of_ne_zero (Nat.ne_of_gt (Nat.zero_lt_of_lt hfuel))
  have hskip : s.reader.skipBlank.rest = line :: more := by
    rw [Reader.rest_skipBlank, hrest, hfirst]
  have hlength := length_of_skip hfirst
  obtain ⟨r₁, hvalue, hr₁⟩ := stands room s.reader.skipBlank line line.number hroom hskip
  obtain ⟨key, hkey, htext⟩ := hkeyed.split
  obtain ⟨read, hread, hname⟩ := htext line.number
  have hpass : mappingPass lib (block lib room) (sequence lib (block lib room)) indent depth s =
      .ok (.again ⟨insertField name value s.map, name :: s.keys, r₁⟩) := by
    have hgo : ¬ (line.indent < indent ∨ line.indent = indent ∧ isItem line.text = true) := by
      rw [hcolumn, hkeyed.line.2]
      simp
    have hle : ¬ indent < line.indent := by omega
    have hnew : String.ofList read ∉ s.keys := by
      rw [hname]
      exact hfresh (name, value) (.head _)
    rw [mappingPass, Reader.current_of_rest hskip]
    simp only
    rw [if_neg hgo, if_neg hle, hkey]
    refine bind_ok.2 ⟨_, rfl, bind_ok.2 ⟨read, hread, ?_⟩⟩
    rw [if_neg hnew, hvalue, hname]
    rfl
  rw [Nat.succ_eq_add_one, Loop.tryFor_again hpass]
  rw [map_cons, nodup_cons] at hdistinct
  refine entries room fuel _ hroom hr₁ (by omega) hdistinct.2 fun field hfield hmem ↦ ?_
  rcases mem_cons.1 hmem with heq | hold
  · exact hdistinct.1 (mem_map.2 ⟨field, hfield, heq⟩)
  · exact hfresh field (.tail _ hfield) hold

/-! ## A document is read as what it spells -/

/-- How many lines a part takes. -/
def Takes (lines rest : List Line) : Part → Prop
  | .node _ => rest.length < lines.length
  | .items _ values => rest.length + values.length ≤ lines.length
  | .entries _ fields => rest.length + fields.length ≤ lines.length
  | .value _ _ _ _ => rest.length ≤ lines.length

theorem skip_line {line : Line} (h : isBlank line.text = false) (more : List Line) :
    skip (line :: more) = line :: more :=
  dropWhile_cons_of_neg (by rw [h]; decide)

theorem isBlank_of_item (h : isItem text = true) : isBlank text = false := by
  rw [isItem, Bool.or_eq_true, beq_iff_eq, isPrefixOf_iff_prefix] at h
  rcases h with rfl | ⟨after, rfl⟩ <;> rfl

/-- A sequence that a line begins has an item. -/
theorem Spells.items_ne_nil {line : Line} {values : List Json} (hitem : isItem line.text = true)
    (h : Spells lib depth (.items line.indent values) (line :: more) rest) : values ≠ [] := by
  rintro rfl
  cases h with
  | noItem stop =>
    rcases stop line (by rw [skip_line (isBlank_of_item hitem)]; rfl) with hlt | ⟨-, hnot⟩
    · exact Nat.lt_irrefl _ hlt
    · rw [hitem] at hnot
      cases hnot

/-- A mapping that a line begins has an entry. -/
theorem Spells.entries_ne_nil {line : Line} {name : String} {fields : List (String × Json)}
    (hkeyed : Keyed lib line.text name text)
    (h : Spells lib depth (.entries line.indent fields) (line :: more) rest) : fields ≠ [] := by
  rintro rfl
  cases h with
  | noEntry stop =>
    rcases stop line (by rw [skip_line hkeyed.line.1]; rfl) with hlt | ⟨-, hitem⟩
    · exact Nat.lt_irrefl _ hlt
    · rw [hkeyed.line.2] at hitem
      cases hitem

theorem Spells.takes {part : Part} (h : Spells lib depth part lines rest) : Takes lines rest part := by
  induction h with
  | scalar _ _ => exact Nat.lt_succ_self _
  | sequence _ hitem items ih =>
    have hlength := length_pos_iff.2 (items.items_ne_nil hitem)
    have hle : _ + _ ≤ _ := ih
    show _ < _
    omega
  | mapping _ hkeyed _ entries ih =>
    have hlength := length_pos_iff.2 (entries.entries_ne_nil hkeyed)
    have hle : _ + _ ≤ _ := ih
    show _ < _
    omega
  | noItem _ => exact length_skip_le _
  | noEntry _ => exact length_skip_le _
  | item hfirst _ _ _ _ ihvalue ihitems =>
    have hlength := length_of_skip hfirst
    have hmid : _ ≤ _ := ihvalue
    have hle : _ + _ ≤ _ := ihitems
    show _ + (_ + 1) ≤ _
    omega
  | itemNode hfirst _ _ _ _ _ _ ihvalue ihitems =>
    have hlength := length_of_skip hfirst
    have hmid : _ < _ + 1 := ihvalue
    have hle : _ + _ ≤ _ := ihitems
    show _ + (_ + 1) ≤ _
    omega
  | entry hfirst _ _ _ _ ihvalue ihentries =>
    have hlength := length_of_skip hfirst
    have hmid : _ ≤ _ := ihvalue
    have hle : _ + _ ≤ _ := ihentries
    show _ + (_ + 1) ≤ _
    omega
  | valueScalar _ => exact le_rfl
  | valueBlock _ _ _ _ => exact (dropWhile_suffix _).length_le
  | valueNull _ _ => exact length_skip_le _
  | valueBelow _ hfirst _ _ ih =>
    have hlength := length_of_skip hfirst
    have hlt : _ < _ + 1 := ih
    show _ ≤ _
    omega
  | valueSame _ hfirst _ _ _ ih =>
    have hlength := length_of_skip hfirst
    have hle : _ + _ ≤ _ + 1 := ih
    show _ ≤ _
    omega

/-- **A part is read as what it is.** -/
theorem Spells.reads {part : Part} (h : Spells lib depth part lines rest) :
    Reads lib depth part lines rest := by
  induction h with
  | scalar shallow written => exact reads_scalar shallow written
  | sequence shallow item _ ih => exact reads_sequence shallow item ih
  | mapping shallow keyed distinct _ ih => exact reads_mapping shallow keyed distinct ih
  | noItem stop => exact reads_noItem stop
  | item first column dashed stands _ ihvalue ihitems =>
    exact reads_more first column dashed stands.takes
      (fun room r hroom hrest ↦ ihvalue room r _ hroom hrest dashed) ihitems
  | itemNode first column dashed blank node stands _ ihvalue ihitems =>
    exact reads_more first column dashed (Nat.le_of_lt_succ stands.takes)
      (fun room r hroom hrest ↦ readItem_node dashed blank node hroom hrest ihvalue) ihitems
  | noEntry stop => exact reads_noEntry stop
  | entry first column keyed stands _ ihvalue ihentries =>
    exact reads_entry first column keyed stands.takes ihvalue ihentries
  | valueScalar written => exact reads_valueScalar written
  | valueBlock blank node block body => exact reads_valueBlock blank node block body
  | valueNull blank stop => exact reads_valueNull blank stop
  | valueBelow blank first deeper _ ih => exact reads_valueBelow blank first deeper ih
  | valueSame blank first column item _ ih => exact reads_valueSame blank first column item ih

theorem linesAux_append {raw : Chars} (h : '\n' ∉ raw) (text : Chars) : ∀ piece,
    Text.linesAux piece (raw ++ text) = Text.linesAux (raw.reverse ++ piece) text := by
  induction raw with
  | nil => exact fun piece ↦ rfl
  | cons c raw ih =>
    rw [mem_cons, not_or] at h
    intro piece
    rw [cons_append, Text.linesAux, if_neg fun hc ↦ h.1 hc.symm, ih h.2, reverse_cons,
      append_assoc, singleton_append]

/-- The lines that a text is made of are the lines of the text. -/
theorem IsLines.linesAux {raws : List Chars} (h : IsLines text raws) :
    Text.linesAux [] text = raws := by
  induction h with
  | nil => rfl
  | @last raw plain nonempty =>
    have happend := linesAux_append plain [] []
    rw [append_nil, append_nil] at happend
    rw [happend, Text.linesAux, if_neg (fun h ↦ nonempty (reverse_eq_nil_iff.1 h)),
      reverse_reverse]
  | @line raw text raws plain bare more ih =>
    have hdrop : Text.dropReturn raw.reverse = raw.reverse := by
      rw [Text.dropReturn, head?_reverse, if_neg bare]
    rw [linesAux_append plain, append_nil, Text.linesAux, if_pos rfl, hdrop,
      reverse_reverse, ih]

end Huntsman.Yaml
