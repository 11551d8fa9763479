import Huntsman.Yaml.Reader

/-!
# Reading a document ends, within bounds

A document is read or refused, whatever it is.  Each slice is made where a character ends and each
difference is one that is there; the loops of the readers are left, since each pass over one reads a
line; and there are never more than `maxDepth + 1` blocks open within each other.

`Checked` has the same readers with their calls watched.  A call must find the reader past where its
caller began, and leave it past where it found it.  No watch is ever set off
(`parse_within_bounds`).
-/

set_option autoImplicit false

namespace Huntsman.Yaml

open Except List

/-! ## Within a line -/

theorem len_append (s t : Chars) : len (s ++ t) = len s + len t := Offsets.total_append s t

theorem len_cons (c : Char) (s : Chars) : len (c :: s) = c.utf8Size + len s :=
  Offsets.total_cons c s

theorem len_le_of_suffix {s t : Chars} (h : s <:+ t) : len s ≤ len t := by
  obtain ⟨r, rfl⟩ := h
  rw [len_append]
  omega

theorem sliceFrom_append (s t : Chars) : sliceFrom (s ++ t) (len s) = .ok t := by
  rw [sliceFrom, len, Offsets.cut_append Char.utf8Size_pos]

theorem sliceTo_append (s t : Chars) : sliceTo (s ++ t) (len s) = .ok s := by
  rw [sliceTo, len, Offsets.cut_append Char.utf8Size_pos]

theorem sub_eq {a b : ℕ} (h : b ≤ a) : sub a b = .ok (a - b) := if_pos h

theorem between_eq {α : Type} {l : List α} {a b : ℕ} (hab : a ≤ b) (hb : b ≤ l.length) :
    between l a b = .ok ((l.take b).drop a) := if_pos ⟨hab, hb⟩

/-- A closing quote is a character of the text, and one byte long. -/
theorem closing_boundary {quote : Char} (hquote : quote = '"' ∨ quote = '\'') {rest : Chars} :
    ∀ {index k : ℕ}, closing quote index rest = some k →
      ∃ s t, rest = s ++ t ∧ k = index + len s := by
  have hone : quote.utf8Size = 1 := by rcases hquote with rfl | rfl <;> rfl
  induction rest using twoStepInduction with
  | nil =>
    intro index k h
    cases h
  | singleton c =>
    intro index k h
    rw [closing] at h
    split at h
    · cases h
    · split at h
      · rename_i hc
        cases h
        exact ⟨[c], [], rfl, by rw [hc, len_cons, hone]; rfl⟩
      · cases h
  | cons_cons c d more ih ih' =>
    intro index k h
    rw [closing] at h
    split at h
    · obtain ⟨s, t, hmore, hk⟩ := ih h
      refine ⟨c :: d :: s, t, by rw [hmore]; rfl, ?_⟩
      rw [hk, len_cons, len_cons]
      omega
    · split at h
      · rename_i hc
        split at h
        · obtain ⟨s, t, hmore, hk⟩ := ih h
          refine ⟨c :: d :: s, t, by rw [hmore]; rfl, ?_⟩
          rw [hk, len_cons, len_cons]
          omega
        · cases h
          exact ⟨[c], d :: more, rfl, by rw [hc, len_cons, hone]; rfl⟩
      · obtain ⟨s, t, hmore, hk⟩ := ih' d h
        refine ⟨c :: s, t, by rw [hmore]; rfl, ?_⟩
        rw [hk, len_cons]
        omega

theorem afterQuote_boundary (text : Chars) :
    ∃ s t, text = s ++ t ∧ afterQuote text = len s := by
  cases text with
  | nil => exact ⟨[], [], rfl, rfl⟩
  | cons c rest =>
    rw [afterQuote]
    split
    · rename_i hquote
      rcases h : closing c c.utf8Size rest with _ | k
      · exact ⟨c :: rest, [], (append_nil _).symm, rfl⟩
      · obtain ⟨s, t, hrest, hk⟩ := closing_boundary hquote h
        exact ⟨c :: s, t, by rw [hrest]; rfl, by rw [Option.getD_some, hk, len_cons]⟩
    · exact ⟨[], c :: rest, rfl, rfl⟩

theorem splitKeyFrom_ok (rest : Chars) : ∀ (s : Chars) (previous : Char),
    ∃ key, splitKeyFrom (s ++ rest) (len s) previous rest = .ok key := by
  induction rest with
  | nil => exact fun s previous ↦ ⟨none, rfl⟩
  | cons c rest ih =>
    intro s previous
    have hnext := ih (s ++ [c]) c
    rw [append_assoc, len_append, len_cons] at hnext
    rw [splitKeyFrom]
    split
    · exact ⟨none, rfl⟩
    · split
      · rename_i hc
        subst hc
        have hafter := sliceFrom_append (s ++ [':']) rest
        rw [append_assoc, len_append] at hafter
        refine Exists.imp (fun key hkey ↦ bind_ok.2 ⟨rest, hafter, hkey⟩) ?_
        split
        · exact ⟨_, bind_ok.2 ⟨s, sliceTo_append s _, rfl⟩⟩
        · exact hnext
      · exact hnext

theorem splitKey_ok (text : Chars) : ∃ key, splitKey text = .ok key := by
  obtain ⟨s, t, rfl, hstart⟩ := afterQuote_boundary text
  obtain ⟨key, hkey⟩ := splitKeyFrom_ok t s ' '
  refine ⟨key, ?_⟩
  rw [splitKey, hstart]
  exact bind_ok.2 ⟨t, sliceFrom_append s t, hkey⟩

theorem startsNode_ok (text : Chars) : ∃ nested, startsNode text = .ok nested := by
  obtain ⟨key, hkey⟩ := splitKey_ok text
  rw [startsNode]
  split
  · exact ⟨_, rfl⟩
  · exact ⟨_, by rw [hkey]; rfl⟩

theorem stripCommentFrom_ok (rest : Chars) : ∀ (s : Chars) (previous : Char),
    ∃ text, stripCommentFrom (s ++ rest) (len s) previous rest = .ok text := by
  induction rest with
  | nil => exact fun s previous ↦ ⟨_, rfl⟩
  | cons c rest ih =>
    intro s previous
    have hnext := ih (s ++ [c]) c
    rw [append_assoc, len_append, len_cons] at hnext
    rw [stripCommentFrom]
    split
    · exact ⟨_, bind_ok.2 ⟨s, sliceTo_append s _, rfl⟩⟩
    · exact hnext

theorem stripComment_ok (text : Chars) : ∃ stripped, stripComment text = .ok stripped := by
  obtain ⟨s, t, rfl, hstart⟩ := afterQuote_boundary text
  obtain ⟨stripped, hstripped⟩ := stripCommentFrom_ok t s (if len s = 0 then ' ' else '"')
  refine ⟨stripped, ?_⟩
  rw [stripComment, hstart]
  exact bind_ok.2 ⟨t, sliceFrom_append s t, hstripped⟩

theorem blockScalarStyle_ok (text : Chars) : ∃ style, blockScalarStyle text = .ok style := by
  obtain ⟨stripped, hstripped⟩ := stripComment_ok text
  rw [blockScalarStyle]
  refine Exists.imp (fun style hstyle ↦ bind_ok.2 ⟨stripped, hstripped, hstyle⟩) ?_
  cases stripped with
  | nil => exact ⟨_, rfl⟩
  | cons c rest =>
    simp only
    split
    · exact ⟨_, rfl⟩
    · exact ⟨_, rfl⟩

/-! ## What a refusal names -/

/-- A refusal names a line of a document of `n` lines, and there is no fault. -/
def InDoc (n : ℕ) : Stop → Prop
  | .refused refusal => 1 ≤ refusal.line ∧ refusal.line ≤ n
  | .fault _ => False

/-- A result, or a refusal at a line of the document. -/
abbrev Within {α : Type} (n : ℕ) (x : Except Stop α) : Prop := Meets (InDoc n) (fun _ ↦ True) x

variable {lib : Library} {n number : ℕ}

section Scalars

variable (h : 1 ≤ number ∧ number ≤ n)

include h

theorem unescape_within (text : Chars) : ∀ skip, Within n (unescape number skip text) := by
  induction text with
  | nil => exact fun skip ↦ by cases skip <;> exact trivial
  | cons c rest ih =>
    intro skip
    cases skip with
    | succ skip => exact ih skip
    | zero =>
      have hnext : ∀ (d : Char) (skip : ℕ),
          Within n (unescape number skip rest >>= fun more ↦ pure (d :: more)) :=
        fun d skip ↦ (ih skip).bind fun _ _ ↦ trivial
      rw [unescape]
      split
      · exact h
      · split
        · exact hnext c 0
        · split
          · exact hnext _ 1
          · split
            · exact h
            · exact hnext _ _
          · exact h

theorem unquote_within (text : Chars) : Within n (unquote number text) := by
  induction text using twoStepInduction with
  | nil => exact trivial
  | singleton c =>
    rw [unquote]
    split
    · exact h
    · exact trivial
  | cons_cons c d more ih ih' =>
    rw [unquote]
    split
    · split
      · exact ih.bind fun _ _ ↦ trivial
      · exact h
    · exact (ih' d).bind fun _ _ ↦ trivial

theorem doubleQuoted_within (text : Chars) : Within n (doubleQuoted text number) := by
  rw [doubleQuoted]
  split
  · exact h
  · exact unescape_within h _ 0

theorem singleQuoted_within (text : Chars) : Within n (singleQuoted text number) := by
  rw [singleQuoted]
  split
  · exact h
  · exact unquote_within h _

theorem scalar_within (text : Chars) : Within n (scalar lib text number) := by
  have hstripped : Within n (stripComment text) := by
    obtain ⟨stripped, hstripped⟩ := stripComment_ok text
    rw [hstripped]
    exact trivial
  refine hstripped.bind fun stripped _ ↦ ?_
  split
  · exact trivial
  · split
    · exact (doubleQuoted_within h _).map fun _ _ ↦ trivial
    · split
      · exact (singleQuoted_within h _).map fun _ _ ↦ trivial
      · split
        · exact h
        · split
          · exact h
          · split
            · exact h
            · split
              · exact h
              · exact trivial

theorem keyText_within (key : Chars) : Within n (keyText lib key number) := by
  refine (scalar_within h key).bind fun scalar _ ↦ ?_
  cases scalar <;> exact trivial

end Scalars

/-! ## The readers, watched -/

namespace Checked

/-- How much of the current line is left. -/
def width (r : Reader) : ℕ := (r.current.map fun line ↦ len line.text).getD 0

/-- A line further than `outer`, or in the same line with less of it left. -/
def Past (outer r : Reader) : Prop :=
  outer.pos < r.pos ∨ outer.pos = r.pos ∧ width r < width outer

instance (outer r : Reader) : Decidable (Past outer r) := inferInstanceAs (Decidable (_ ∨ _))

/-- A call that must find the reader past `outer`. -/
def within (outer : Reader) (call : Call) : Call := fun r indent depth ↦
  if Past outer r then call r indent depth else fault .stalled

/-- A call that must leave the reader past where it found it. -/
def watched (call : Call) : Call := fun r indent depth ↦ do
  let read ← call r indent depth
  if Past r read.2 then return read else fault .stalled

variable (lib : Library)

def sequence (block : Call) : Call := watched fun r ↦ Yaml.sequence lib (within r block) r

def mapping (block : Call) : Call :=
  watched fun r ↦ Yaml.mapping lib (within r block) (within r (sequence lib block)) r

def block : ℕ → Call
  | 0 => watched (opened fun _ _ _ _ ↦ fault .tooDeep)
  | room + 1 => watched (opened
    (node lib (sequence lib (block room)) (mapping lib (block room))))

def parse (room : ℕ) (text : Chars) : Except Stop Graph.Json := parseWith (block lib room) text

end Checked

/-! ## Where the reader is -/

/-- A reader of a document of `n` lines. -/
structure Reader.Sound (n : ℕ) (r : Reader) : Prop where
  pos_le : r.pos ≤ r.lines.length
  number : ∀ line ∈ r.lines, 1 ≤ line.number ∧ line.number ≤ n

/-- The reader after a call that began at `r₀`. -/
structure After (n : ℕ) (r₀ r : Reader) : Prop where
  sound : r.Sound n
  length : r.lines.length = r₀.lines.length
  pos_lt : r₀.pos < r.pos

/-- The reader between the passes of a loop that began at `r₀`. -/
structure Between (n : ℕ) (r₀ r : Reader) : Prop where
  sound : r.Sound n
  length : r.lines.length = r₀.lines.length
  pos : r = r₀ ∨ r₀.pos < r.pos

/-- The reader where a node at `indent` begins. -/
structure Ready (n indent : ℕ) (r : Reader) : Prop where
  sound : r.Sound n
  line : ∃ line, r.current = some line ∧ line.indent = indent ∧ isBlank line.text = false

variable {r r₀ outer : Reader} {x : Except Stop (Graph.Json × Reader)} {line₀ : Line}

theorem Reader.pos_lt {line : Line} (h : r.current = some line) :
    r.pos < r.lines.length := (List.getElem?_eq_some_iff.1 h).1

theorem Reader.Sound.current (hr : r.Sound n) {line : Line}
    (h : r.current = some line) : 1 ≤ line.number ∧ line.number ≤ n :=
  hr.number line (mem_of_getElem? h)

theorem Reader.Sound.advance (hr : r.Sound n) {line : Line}
    (h : r.current = some line) : (r.advance 1).Sound n := ⟨Reader.pos_lt h, hr.number⟩

theorem Reader.skipWhile_le (h : r.pos ≤ r.lines.length) (p : Line → Bool) :
    (r.skipWhile p).pos ≤ r.lines.length := by
  have hle : (r.rest.takeWhile p).length ≤ r.rest.length := (List.takeWhile_prefix p).length_le
  rw [Reader.rest, length_drop] at hle
  show r.pos + _ ≤ r.lines.length
  omega

theorem Reader.Sound.skipWhile (hr : r.Sound n) (p : Line → Bool) :
    (r.skipWhile p).Sound n := ⟨Reader.skipWhile_le hr.pos_le p, hr.number⟩

theorem Reader.le_skipWhile (r : Reader) (p : Line → Bool) : r.pos ≤ (r.skipWhile p).pos :=
  Nat.le_add_right _ _

/-- The line the reader is at when it has skipped all that satisfies `p`. -/
theorem Reader.current_skipWhile {p : Line → Bool} {line : Line}
    (h : (r.skipWhile p).current = some line) : p line = false := by
  rw [Reader.current_eq, Reader.rest_skipWhile] at h
  exact Pieces.head_dropWhile r.rest line h

theorem Reader.skipBlank_eq {line : Line} (h : r.current = some line)
    (hblank : isBlank line.text = false) : r.skipBlank = r := by
  have htake : r.rest.takeWhile (fun line ↦ isBlank line.text) = [] := by
    rw [Reader.current_eq] at h
    obtain ⟨more, hmore⟩ := head?_eq_some_iff.1 h
    rw [hmore, takeWhile_cons_of_neg (by rw [hblank]; decide)]
  show r.advance (r.rest.takeWhile _).length = r
  rw [htake]
  rfl

theorem After.trans {r₁ r₂ : Reader} (h : After n r₁ r₂)
    (hlength : r₁.lines.length = r₀.lines.length) (hpos : r₀.pos ≤ r₁.pos) : After n r₀ r₂ :=
  ⟨h.sound, h.length.trans hlength, Nat.lt_of_le_of_lt hpos h.pos_lt⟩

/-- What `watched` and `within` look for is there. -/
theorem After.past (h : After n r₀ r) : Checked.Past r₀ r := .inl h.pos_lt

theorem Reader.Sound.rewrite (hr : r.Sound n) {line : Line}
    (h : r.current = some line) (indent : ℕ) (text : Chars) :
    ∃ r₁, r.rewrite indent text = .ok r₁ ∧ r₁.Sound n ∧ r₁.pos = r.pos ∧
      r₁.lines.length = r.lines.length ∧ r₁.current = some ⟨line.number, indent, text⟩ := by
  have hpos := Reader.pos_lt h
  refine ⟨{ r with lines := r.lines.set r.pos ⟨line.number, indent, text⟩ }, ?_, ⟨?_, ?_⟩, rfl,
    length_set, getElem?_set_self hpos⟩
  · rw [Reader.rewrite, h]
  · rw [length_set]
    exact hr.pos_le
  · intro other hother
    rcases mem_or_eq_of_mem_set hother with hold | heq
    · exact hr.number other hold
    · have hnumber : 1 ≤ line.number ∧ line.number ≤ n := hr.current h
      rw [heq]
      exact hnumber

/-- The call found the line that begins at the current one blank up to the next. -/
theorem Reader.Sound.ready (hr : r.Sound n) {line : Line}
    (h : r.skipBlank.current = some line) : Ready n line.indent r.skipBlank :=
  ⟨hr.skipWhile _, line, h, rfl, Reader.current_skipWhile h⟩

/-! ## One level of the reader -/

theorem blockText_within (h : 1 ≤ number ∧ number ≤ n) (style : Bool × Chomp) (body : List Line) :
    Within n (blockText style number body) := by
  rw [blockText]
  split
  · exact trivial
  · rename_i first _
    split
    · exact h
    · rename_i hany
      refine (meets_mapM fun line hline ↦ ?_).bind fun lines _ ↦ ?_
      · split
        · exact trivial
        · rename_i htext
          have hle : first.indent ≤ line.indent := by
            by_contra hlt
            have hindented : decide (line.indent < first.indent) = true := decide_eq_true (by omega)
            refine hany (any_eq_true.2 ⟨line, hline, ?_⟩)
            rw [hindented, Bool.and_true]
            simpa using htext
          rw [sub_eq hle]
          exact trivial
      · have hle : (lines.reverse.takeWhile isEmpty).length ≤ lines.length := by
          have hlength := (List.takeWhile_prefix (l := lines.reverse) isEmpty).length_le
          rwa [length_reverse] at hlength
        show Within n (sub lines.length _ >>= _)
        rw [sub_eq hle]
        show Within n (between lines 0 _ >>= _)
        rw [between_eq (Nat.zero_le _) (Nat.sub_le _ _)]
        exact trivial

/-- A call that comes back leaves the reader past where it began. -/
abbrev Answers (n : ℕ) (r₀ : Reader) (x y : Except Stop (Graph.Json × Reader)) : Prop :=
  Both (InDoc n) (fun read ↦ After n r₀ read.2) x y

theorem blockScalar_answers (h : 1 ≤ number ∧ number ≤ n) {line : Line}
    (hr : r.Sound n) (hline : r.current = some line) (parent : ℕ) (style : Bool × Chomp) :
    Answers n r (blockScalar (r.advance 1) parent style number)
      (blockScalar (r.advance 1) parent style number) := by
  refine Meets.both ?_
  have hsound := (hr.advance hline).skipWhile fun line ↦
    line.text.isEmpty || decide (parent < line.indent)
  have hle := (r.advance 1).le_skipWhile fun line ↦
    line.text.isEmpty || decide (parent < line.indent)
  have hbody : between (r.advance 1).lines (r.advance 1).pos _ = _ := between_eq hle hsound.pos_le
  rw [blockScalar, hbody]
  exact (blockText_within h style _).bind fun text _ ↦ ⟨hsound, rfl, hle⟩

theorem lineScalar_answers (h : 1 ≤ number ∧ number ≤ n) {line : Line}
    (hr : r.Sound n) (hline : r.current = some line) (hlength : r.lines.length = r₀.lines.length)
    (hpos : r₀.pos ≤ r.pos) (text : Chars) :
    Answers n r₀ (lineScalar lib r text number) (lineScalar lib r text number) :=
  Meets.both ((scalar_within h text).bind fun _ _ ↦
    ⟨hr.advance hline, hlength, Nat.lt_succ_of_le hpos⟩)

variable {block block' : Call} {depth indent : ℕ}

/-- What a level of the reader asks of the blocks below it: they answer the same, watched or not. -/
def Serves (n depth : ℕ) (block block' : Call) : Prop :=
  ∀ d, depth < d → ∀ (r : Reader) (indent : ℕ), Ready n indent r →
    Answers n r (block r indent d) (block' r indent d)

/-- A call that finds the reader past `outer` is made. -/
theorem within_answers {d : ℕ}
    {call : Call} (hpast : Checked.Past outer r) (h : Answers n r₀ (call r indent d) x) :
    Answers n r₀ (Checked.within outer call r indent d) x := by
  rw [Checked.within, if_pos hpast]
  exact h

/-- What is left of an item's line is read in that line, with less of it left. -/
theorem readRest_answers (hblock : Serves n depth block block') {line : Line}
    {rest : Chars} (hr : r.Sound n) (hline : r.current = some line) (hlen : len rest < len line.text)
    (hblank : isBlank rest = false) (houter : r = outer ∨ outer.pos < r.pos) :
    Answers n r (readRest lib (Checked.within outer block) indent depth r line rest)
      (readRest lib block' indent depth r line rest) := by
  have hnumber := hr.current hline
  obtain ⟨nested, hnested⟩ := startsNode_ok rest
  obtain ⟨style, hstyle⟩ := blockScalarStyle_ok rest
  obtain ⟨r₁, hrewrite, hr₁, hpos, hlength, hcurrent⟩ := hr.rewrite hline
    (indent + (len line.text - len rest)) rest
  have hafter : ∀ {x y : Except Stop (Graph.Json × Reader)}, Answers n r₁ x y → Answers n r x y :=
    fun h ↦ ⟨h.eq, h.meets.mono (fun _ h ↦ h) fun _ h ↦ h.trans hlength (Nat.le_of_eq hpos.symm)⟩
  rw [readRest, readRest, sub_eq (Nat.le_of_lt hlen), hnested, hstyle]
  show Answers n r (r.rewrite _ _ >>= _) (r.rewrite _ _ >>= _)
  rw [hrewrite]
  apply hafter
  cases nested with
  | true =>
    have hpast : Checked.Past outer r₁ := by
      rcases houter with rfl | hlt
      · refine .inr ⟨hpos.symm, ?_⟩
        rw [Checked.width, Checked.width, hcurrent, hline]
        exact hlen
      · exact .inl (by omega)
    exact within_answers hpast (hblock _ (Nat.lt_succ_self depth) r₁ _ ⟨hr₁, _, hcurrent, rfl, hblank⟩)
  | false =>
    cases style with
    | some style => exact blockScalar_answers hnumber hr₁ hcurrent indent style
    | none => exact lineScalar_answers hnumber hr₁ hcurrent rfl le_rfl rest

/-- An item is read past where its sequence began, and in its own line with less of it left. -/
theorem readItem_answers (hblock : Serves n depth block block') {line : Line}
    (hr : r.Sound n) (hline : r.current = some line) (hitem : isItem line.text = true)
    (houter : r = outer ∨ outer.pos < r.pos) :
    Answers n r (readItem lib (Checked.within outer block) indent depth r line)
      (readItem lib block' indent depth r line) := by
  have hnumber := hr.current hline
  obtain ⟨tail, htext⟩ : ∃ tail, line.text = '-' :: tail := by
    rw [isItem, Bool.or_eq_true, beq_iff_eq, isPrefixOf_iff_prefix] at hitem
    rcases hitem with h | ⟨tail, h⟩
    · exact ⟨[], h⟩
    · exact ⟨' ' :: tail, h.symm⟩
  have hslice : sliceFrom line.text 1 = .ok tail := by
    rw [htext]
    exact sliceFrom_append ['-'] tail
  have hrest : len (trimStart tail) < len line.text := by
    have := len_le_of_suffix (dropWhile_suffix (l := tail) Text.isWhitespace)
    rw [htext, len_cons]
    exact Nat.lt_of_le_of_lt this (Nat.lt_add_of_pos_left (Char.utf8Size_pos _))
  rw [readItem, readItem, hslice]
  show Answers n r (if isBlank (trimStart tail) then _ else _) (if isBlank (trimStart tail) then _ else _)
  have houter' : outer.pos ≤ r.pos := by
    rcases houter with rfl | h
    · exact le_rfl
    · exact Nat.le_of_lt h
  split
  · have hnext := hr.advance hline
    have hle := (r.advance 1).le_skipWhile fun line ↦ isBlank line.text
    have hlt : r.pos < (r.advance 1).skipBlank.pos := hle
    split
    · exact .ok ⟨hnext.skipWhile _, rfl, hlt⟩
    · rename_i next hcurrent
      split
      · refine within_answers (.inl (by omega)) ?_
        obtain ⟨heq, hmeets⟩ := hblock _ (Nat.lt_succ_self depth) _ _ (hnext.ready hcurrent)
        exact ⟨heq, hmeets.mono (fun _ h ↦ h) fun _ h ↦ h.trans rfl (Nat.le_of_lt hlt)⟩
      · exact .ok ⟨hnext.skipWhile _, rfl, hlt⟩
  · rename_i hblank
    exact readRest_answers hblock hr hline hrest (Bool.eq_false_iff.2 hblank) houter

/-- The reader when a pass begins: where the node began or past it, with blank lines skipped. -/
theorem Between.skipBlank (h : Between n r₀ r)
    (hline : r₀.current = some line₀) (hblank : isBlank line₀.text = false) :
    Between n r₀ r.skipBlank := by
  refine ⟨h.sound.skipWhile _, h.length, ?_⟩
  rcases h.pos with rfl | hlt
  · exact .inl (Reader.skipBlank_eq hline hblank)
  · exact .inr (Nat.lt_of_lt_of_le hlt (r.le_skipWhile _))

theorem Between.le (h : Between n r₀ r) : r₀.pos ≤ r.pos := by
  rcases h.pos with rfl | hlt
  · exact le_rfl
  · exact Nat.le_of_lt hlt

/-- What reads on from between two passes ends past where the loop began. -/
theorem Between.after (h : Between n r₀ r) {y : Except Stop (Graph.Json × Reader)}
    (hxy : Answers n r x y) :
    Both (InDoc n) (fun read ↦ Between n r₀ read.2 ∧ r.pos < read.2.pos) x y :=
  ⟨hxy.eq, hxy.meets.mono (fun _ h ↦ h) fun _ hread ↦
    ⟨⟨hread.sound, hread.length.trans h.length, .inr (Nat.lt_of_le_of_lt h.le hread.pos_lt)⟩,
      hread.pos_lt⟩⟩

/-- How far the reader is from the end of the document. -/
def left (r : Reader) : ℕ := r.lines.length - r.pos

theorem left_lt {r' : Reader} (h : Between n r₀ r) (h' : Between n r₀ r') (hlt : r.pos < r'.pos) :
    left r' < left r := by
  have := h'.sound.pos_le
  rw [left, left, h.length, h'.length]
  rw [h'.length] at this
  omega

/-- A loop that is left past where it began. -/
theorem Between.leave (h : Between n r₀ r) (hne : r ≠ r₀) : After n r₀ r :=
  ⟨h.sound, h.length, h.pos.resolve_left hne⟩

theorem watched_answers {call : Call}
    (h : Answers n r (call r indent depth) x) :
    Answers n r (Checked.watched call r indent depth) x := by
  obtain ⟨rfl, hmeets⟩ := h
  rw [Checked.watched]
  rcases hcall : call r indent depth with e | read
  · rw [hcall] at hmeets
    exact .error hmeets
  · rw [hcall] at hmeets
    show Answers n r (if Checked.Past r read.2 then _ else _) _
    rw [if_pos hmeets.past]
    exact .ok hmeets

/-- One pass of the loop of `sequence`, which is not left where it began. -/
theorem sequencePass_answers (hblock : Serves n depth block block')
    (hline : r.current = some line₀) (hindent : line₀.indent = indent)
    (hblank : isBlank line₀.text = false) (hitem : isItem line₀.text = true)
    {s : List Graph.Json × Reader} (hs : Between n r s.2) :
    Both (InDoc n)
      (Pass.Meets (fun read ↦ After n r read.2) fun s' ↦ Between n r s'.2 ∧ left s'.2 < left s.2)
      (sequencePass lib (Checked.within r block) indent depth s)
      (sequencePass lib block' indent depth s) := by
  have hskip := hs.skipBlank hline hblank
  rw [sequencePass, sequencePass]
  rcases hcurrent : s.2.skipBlank.current with _ | line
  · refine .ok (hskip.leave fun heq ↦ ?_)
    rw [heq, hline] at hcurrent
    cases hcurrent
  · simp only
    split
    · split
      · exact .error (hskip.sound.current hcurrent)
      · rename_i hend _
        refine .ok (hskip.leave fun heq ↦ ?_)
        rw [heq, hline] at hcurrent
        cases hcurrent
        rw [hitem] at hend
        exact hend.elim (fun h ↦ h hindent) Bool.noConfusion
    · rename_i hgo
      have hthis : isItem line.text = true := by
        rw [not_or, Bool.not_eq_false] at hgo
        exact hgo.2
      refine (hskip.after (readItem_answers hblock hskip.sound hcurrent hthis hskip.pos)).bind
        fun item hread ↦ .ok ⟨hread.1, left_lt hs hread.1 ?_⟩
      exact Nat.lt_of_le_of_lt (s.2.le_skipWhile _) hread.2

theorem sequence_answers (hblock : Serves n depth block block') (hr : Ready n indent r)
    (hitem : ∀ line ∈ r.current, isItem line.text = true) :
    Answers n r (Checked.sequence lib block r indent depth) (Yaml.sequence lib block' r indent depth) := by
  obtain ⟨line₀, hline, hindent, hblank⟩ := hr.line
  refine watched_answers (Loop.tryFor_both (InDoc n) _ (fun s ↦ Between n r s.2) (fun s ↦ left s.2)
    (fun s hs ↦ sequencePass_answers hblock hline hindent hblank (hitem line₀ hline) hs) ?_ ?_)
  · exact ⟨hr.sound, rfl, .inl rfl⟩
  · exact Nat.lt_succ_of_le (Nat.sub_le _ _)

/-- The value of a key is read past the key's line. -/
theorem readValue_answers (hnumber : 1 ≤ number ∧ number ≤ n) (hblock : Serves n depth block block')
    {line : Line} (hr : r.Sound n) (hline : r.current = some line)
    (houter : outer.pos ≤ r.pos) (rest : Chars) :
    Answers n r
      (readValue lib (Checked.within outer block) (Checked.within outer (Checked.sequence lib block))
        indent depth r rest number)
      (readValue lib block' (Yaml.sequence lib block') indent depth r rest number) := by
  obtain ⟨style, hstyle⟩ := blockScalarStyle_ok rest
  have hnext := hr.advance hline
  have hlt : r.pos < (r.advance 1).skipBlank.pos := (r.advance 1).le_skipWhile _
  have hbelow : ∀ {x y : Except Stop (Graph.Json × Reader)},
      Answers n (r.advance 1).skipBlank x y → Answers n r x y :=
    fun h ↦ ⟨h.eq, h.meets.mono (fun _ h ↦ h) fun _ h ↦ h.trans rfl (Nat.le_of_lt hlt)⟩
  rw [readValue, readValue, hstyle]
  cases style with
  | some style => exact blockScalar_answers hnumber hr hline indent style
  | none =>
    show Answers n r (if isBlank rest then _ else _) (if isBlank rest then _ else _)
    split
    · split
      · exact .ok ⟨hnext.skipWhile _, rfl, hlt⟩
      · rename_i next hcurrent
        have hready := hnext.ready hcurrent
        split
        · exact hbelow (within_answers (.inl (by omega))
            (hblock _ (Nat.lt_succ_self depth) _ _ hready))
        · split
          · rename_i hsame
            rw [hsame.1] at hready
            refine hbelow (within_answers (.inl (by omega)) (sequence_answers (fun d hd ↦ ?_) hready ?_))
            · exact hblock d (by omega)
            · intro line hmem
              rw [hcurrent] at hmem
              cases hmem
              exact hsame.2
          · exact .ok ⟨hnext.skipWhile _, rfl, hlt⟩
    · exact lineScalar_answers hnumber hr hline rfl le_rfl rest

/-- One pass of the loop of `mapping`, which is not left where it began. -/
theorem mappingPass_answers (hblock : Serves n depth block block')
    (hline : r.current = some line₀) (hindent : line₀.indent = indent)
    (hblank : isBlank line₀.text = false) (hitem : isItem line₀.text = false)
    {s : Members} (hs : Between n r s.reader) :
    Both (InDoc n)
      (Pass.Meets (fun read ↦ After n r read.2) fun s' ↦
        Between n r s'.reader ∧ left s'.reader < left s.reader)
      (mappingPass lib (Checked.within r block) (Checked.within r (Checked.sequence lib block))
        indent depth s)
      (mappingPass lib block' (Yaml.sequence lib block') indent depth s) := by
  have hskip := hs.skipBlank hline hblank
  rw [mappingPass, mappingPass]
  rcases hcurrent : s.reader.skipBlank.current with _ | line
  · refine .ok (hskip.leave fun heq ↦ ?_)
    rw [heq, hline] at hcurrent
    cases hcurrent
  · have hnumber := hskip.sound.current hcurrent
    obtain ⟨key, hkey⟩ := splitKey_ok line.text
    simp only [hkey]
    split
    · rename_i hend
      refine .ok (hskip.leave fun heq ↦ ?_)
      rw [heq, hline] at hcurrent
      cases hcurrent
      rw [hitem, hindent] at hend
      exact hend.elim (lt_irrefl _) fun h ↦ Bool.noConfusion h.2
    · split
      · exact .error hnumber
      · rcases key with _ | ⟨key, rest⟩
        · exact .error hnumber
        · refine (keyText_within hnumber key).both.bind fun name _ ↦ ?_
          split
          · exact .error hnumber
          · refine (hskip.after (readValue_answers hnumber hblock hskip.sound hcurrent hskip.le
              rest)).bind fun value hread ↦ .ok ⟨hread.1, left_lt hs hread.1 ?_⟩
            exact Nat.lt_of_le_of_lt (s.reader.le_skipWhile _) hread.2

theorem mapping_answers (hblock : Serves n depth block block') (hr : Ready n indent r)
    (hitem : ∀ line ∈ r.current, isItem line.text = false) :
    Answers n r (Checked.mapping lib block r indent depth)
      (Yaml.mapping lib block' (Yaml.sequence lib block') r indent depth) := by
  obtain ⟨line₀, hline, hindent, hblank⟩ := hr.line
  refine watched_answers (Loop.tryFor_both (InDoc n) _ (fun s ↦ Between n r s.reader)
    (fun s ↦ left s.reader)
    (fun s hs ↦ mappingPass_answers hblock hline hindent hblank (hitem line₀ hline) hs) ?_ ?_)
  · exact ⟨hr.sound, rfl, .inl rfl⟩
  · exact Nat.lt_succ_of_le (Nat.sub_le _ _)

/-! ## The whole reader -/

/-- A block that is too deep is refused whatever room there is, and one that is not has room. -/
theorem opened_answers (hr : Ready n indent r) {go go' : Line → Call}
    (h : depth ≤ maxDepth → ∀ line, r.current = some line →
      Answers n r (go line r indent depth) (go' line r indent depth)) :
    Answers n r (opened go r indent depth) (opened go' r indent depth) := by
  obtain ⟨line, hline, -, -⟩ := hr.line
  rw [opened, opened, hline]
  show Answers n r (if maxDepth < depth then _ else _) (if maxDepth < depth then _ else _)
  split
  · exact .error (hr.sound.current hline)
  · exact h (by omega) line hline

theorem node_answers (hblock : Serves n depth block block') (hr : Ready n indent r)
    {line : Line} (hline : r.current = some line) :
    Answers n r
      (node lib (Checked.sequence lib block) (Checked.mapping lib block) line r indent depth)
      (node lib (Yaml.sequence lib block') (Yaml.mapping lib block' (Yaml.sequence lib block'))
        line r indent depth) := by
  obtain ⟨key, hkey⟩ := splitKey_ok line.text
  have honly : ∀ other ∈ r.current, other = line := fun other hother ↦ by
    rw [hline] at hother
    exact (Option.some.inj hother).symm
  rw [node, node]
  split
  · rename_i hitem
    exact sequence_answers hblock hr fun other hother ↦ by rw [honly other hother, hitem]
  · rename_i hitem
    rw [hkey]
    cases key with
    | some key =>
      exact mapping_answers hblock hr fun other hother ↦ by
        rw [honly other hother, Bool.eq_false_iff.2 hitem]
    | none => exact lineScalar_answers (hr.sound.current hline) hr.sound hline rfl le_rfl line.text

/-- **A block reads on or refuses**, and so does it watched, with any room for the levels there may
yet be. -/
theorem block_answers : ∀ {room room' depth : ℕ} {r : Reader} {indent : ℕ}, maxDepth < depth + room →
    maxDepth < depth + room' → Ready n indent r →
      Answers n r (Checked.block lib room r indent depth) (Yaml.block lib room' r indent depth)
  | 0, 0, _, _, _, hroom, _, hr =>
    watched_answers (opened_answers hr fun hdepth ↦ absurd hroom (by omega))
  | 0, room' + 1, _, _, _, hroom, _, hr =>
    watched_answers (opened_answers hr fun hdepth ↦ absurd hroom (by omega))
  | room + 1, 0, _, _, _, _, hroom', hr =>
    watched_answers (opened_answers hr fun hdepth ↦ absurd hroom' (by omega))
  | room + 1, room' + 1, depth, _, _, hroom, hroom', hr =>
    watched_answers (opened_answers hr fun _ _ hline ↦ node_answers
      (fun _ _ _ _ hready ↦ block_answers (by omega) (by omega) hready) hr hline)

theorem splitLines_meets {raws : List Chars} : ∀ {index : ℕ}, index + raws.length ≤ n →
    Meets (InDoc n) (fun lines ↦ ∀ line ∈ lines, 1 ≤ line.number ∧ line.number ≤ n)
      (splitLines index raws) := by
  induction raws with
  | nil => exact fun _ _ h ↦ nomatch h
  | cons raw raws ih =>
    intro index hindex
    rw [length_cons] at hindex
    have hnumber : 1 ≤ index + 1 ∧ index + 1 ≤ n := by omega
    rw [splitLines, sub_eq (len_le_of_suffix (dropWhile_suffix _))]
    show Meets _ _ (if _ then _ else _)
    split
    · exact hnumber
    · refine (ih (by omega)).bind fun lines hlines line hline ↦ ?_
      rcases mem_cons.1 hline with rfl | hline
      · exact hnumber
      · exact hlines line hline

theorem linesAux_ne_nil {text piece : Chars} (h : piece ≠ [] ∨ text ≠ []) :
    Text.linesAux piece text ≠ [] := by
  induction text generalizing piece with
  | nil =>
    rw [Text.linesAux, if_neg (h.resolve_right fun hne ↦ hne rfl)]
    exact cons_ne_nil _ _
  | cons c text ih =>
    rw [Text.linesAux]
    split
    · exact cons_ne_nil _ _
    · exact ih (.inl (cons_ne_nil _ _))

theorem atStart_sound {lines : List Line}
    (h : ∀ line ∈ lines, 1 ≤ line.number ∧ line.number ≤ n) {first : Line}
    (hfirst : (atStart lines).current = some first) : Ready n first.indent (atStart lines) := by
  have hr : (Reader.skipBlank ⟨lines, 0⟩).Sound n := Reader.Sound.skipWhile ⟨Nat.zero_le _, h⟩ _
  rw [atStart] at hfirst ⊢
  split at hfirst
  · rename_i hstart
    rw [if_pos hstart]
    rcases hcurrent : (Reader.skipBlank ⟨lines, 0⟩).current with _ | start
    · rw [hcurrent] at hstart
      cases hstart
    · exact (hr.advance hcurrent).ready hfirst
  · rename_i hstart
    rw [if_neg hstart]
    exact hr.ready hfirst

theorem parseWith_answers {read read' : Call} (text : Chars)
    (h : ∀ (n indent : ℕ) (r : Reader), Ready n indent r →
      Answers n r (read r indent 0) (read' r indent 0)) :
    Both (InDoc (Text.linesAux [] text).length) (fun _ ↦ True) (parseWith read text)
      (parseWith read' text) := by
  rw [parseWith, parseWith]
  split
  · rename_i hlarge
    refine .error ⟨le_rfl, length_pos_iff.2 (linesAux_ne_nil (.inr ?_))⟩
    rintro rfl
    exact absurd hlarge (by decide)
  · refine (splitLines_meets (Nat.le_of_eq (Nat.zero_add _))).both.bind fun lines hlines ↦ ?_
    rcases hfirst : (atStart lines).current with _ | first
    · simp only [hfirst]
      exact .ok trivial
    · simp only [hfirst]
      refine (h _ _ _ (atStart_sound hlines hfirst)).bind fun value hvalue ↦ ?_
      split
      · exact .ok trivial
      · rename_i line hline
        split
        · exact .error ((hvalue.sound.skipWhile _).current hline)
        · exact .ok trivial

/-- **Every document is read or refused, within bounds.**  Whatever the text, and with room for
`maxDepth + 1` blocks or for more, the reader with its calls watched comes to what the reader does:
a value, or a refusal at a line of the document, which is the first one when the document is too
large. -/
theorem parse_within_bounds (lib : Library) (text : Chars) (more more' : ℕ) :
    Checked.parse lib (maxDepth + 1 + more) text = parse lib (maxDepth + 1 + more') text ∧
      ((∃ value, parse lib (maxDepth + 1 + more') text = .ok value) ∨
        ∃ error, parse lib (maxDepth + 1 + more') text = .error (.refused error) ∧
          1 ≤ error.line ∧ error.line ≤ (Text.linesAux [] text).length ∧
            (maxBytes < len text → error.line = 1)) := by
  have hboth : Both (InDoc (Text.linesAux [] text).length) (fun _ ↦ True)
      (Checked.parse lib (maxDepth + 1 + more) text) (parse lib (maxDepth + 1 + more') text) :=
    parseWith_answers text fun n indent r hready ↦ block_answers (by omega) (by omega) hready
  have hmeets := hboth.meets
  refine ⟨hboth.eq, ?_⟩
  rw [hboth.eq] at hmeets
  rcases hparse : parse lib (maxDepth + 1 + more') text with stop | value
  · rw [hparse] at hmeets
    cases stop with
    | fault _ => exact hmeets.elim
    | refused error =>
      refine .inr ⟨error, rfl, hmeets.1, hmeets.2, fun hlarge ↦ ?_⟩
      rw [parse, parseWith, if_pos hlarge] at hparse
      cases hparse
      rfl
  · exact .inl ⟨value, rfl⟩

end Huntsman.Yaml
