import Huntsman.Elements.Walk
import Huntsman.Lib.Template

/-!
# Titles of what the correlation rules found

A rule has a headline with placeholders, each the name of a field between braces.  `title` fills
them in with what a hit has in those fields: it reads the placeholders off the headline one after
the other, and replaces each in the title as it is by then.

What stands in an element's value is replaced too, if it looks like a placeholder that is still to
come.  So a title is the headline with its placeholders filled in, whatever the values are, exactly
when the headline has no more than one placeholder that names a field (`fillsOnce_iff`).
-/

set_option autoImplicit false

namespace Huntsman.SfCorrelate

open Canonical (Chars)
open Elements (DataElement)
open Pieces (splitOnce)
open Scan (replace occurrences)
open Template (mark names expand fill only Known)

/-! ## The source -/

inductive Scope where
  | own
  | source
  | child
  | entity
deriving DecidableEq

inductive Attr where
  | type
  | module
  | data
deriving DecidableEq

structure Field where
  scope : Scope
  attr : Attr
deriving DecidableEq

def Attr.parse (text : Chars) : Option Attr :=
  if text = "type".toList then some .type
  else if text = "module".toList then some .module
  else if text = "data".toList then some .data
  else none

def Field.parse (text : Chars) : Option Field :=
  match splitOnce '.' text with
  | some (scope, attr) =>
    if scope = "source".toList then (Attr.parse attr).map fun attr ↦ ⟨.source, attr⟩
    else if scope = "child".toList then (Attr.parse attr).map fun attr ↦ ⟨.child, attr⟩
    else if scope = "entity".toList then (Attr.parse attr).map fun attr ↦ ⟨.entity, attr⟩
    else none
  | none => (Attr.parse text).map fun attr ↦ ⟨.own, attr⟩

/-- One collected element, with its source, children and entity, of so many elements. -/
structure Hit (size : ℕ) where
  element : Fin size
  collection : ℕ
  source : List (Fin size)
  child : List (Fin size)
  entity : List (Fin size)

def Hit.scoped {size : ℕ} (hit : Hit size) : Scope → List (Fin size)
  | .own => [hit.element]
  | .source => hit.source
  | .child => hit.child
  | .entity => hit.entity

section Scan

variable (elements : List DataElement) (hit : Hit elements.length)

def attr (index : Fin elements.length) : Attr → Chars
  | .type => (elements.get index).kind.toList
  | .module => (elements.get index).module.toList
  | .data => (elements.get index).data.toList

def values (field : Field) : List Chars :=
  (hit.scoped field.scope).map fun index ↦ attr elements index field.attr

def firstLine (value : Chars) : Chars := (value.filter (· ≠ '\r')).takeWhile (· ≠ '\n')

/-- The title when the placeholders of the rest of the headline are replaced in it. -/
def titleFrom (rest title : Chars) : Chars :=
  match _hopen : splitOnce '{' rest with
  | none => title
  | some (_, after) =>
    match _hclose : splitOnce '}' after with
    | none => title
    | some (name, rest) =>
      titleFrom rest
        (match (Field.parse name).bind fun field ↦ (values elements hit field).head? with
        | some value => replace ('{' :: (name ++ ['}'])) (firstLine value) title
        | none => title)
termination_by rest.length
decreasing_by
  rw [(Pieces.splitOnce_eq_some.1 _hopen).1, (Pieces.splitOnce_eq_some.1 _hclose).1]
  simp
  omega

def title (headline : Chars) : Chars := titleFrom elements hit headline headline

/-! ## What is meant -/

/-- What is put in for a placeholder of this name. -/
def value (name : Chars) : Option Chars :=
  ((Field.parse name).bind fun field ↦ (values elements hit field).head?).map firstLine

end Scan

/-- The placeholders of a headline that name a field. -/
def placeholders (headline : Chars) : List Chars :=
  (names '{' '}' headline).filter fun name ↦ (Field.parse name).isSome

/-- Whatever a hit's values are, its title is the headline with the placeholders filled in. -/
def FillsOnce (headline : Chars) : Prop :=
  ∀ elements (hit : Hit (List.length elements)),
    title elements hit headline = expand '{' '}' (value elements hit) headline

variable {elements : List DataElement} {hit : Hit elements.length}

theorem titleFrom_eq (rest title : Chars) : titleFrom elements hit rest title =
    fill '{' '}' (value elements hit) (names '{' '}' rest) title := by
  fun_induction titleFrom elements hit rest title with
  | case1 rest title hopen =>
    rw [names, Template.parse_none fun before after h ↦ by rw [hopen] at h; cases h]
    rfl
  | case2 rest title before after hopen hclose =>
    rw [names, Template.parse_none fun before' after' h ↦ by
      rw [hopen] at h
      cases h
      exact hclose]
    rfl
  | case3 rest title before after hopen name rest' hclose ih =>
    rw [names, Template.parse_some hopen hclose, List.map_cons, fill, ih, value]
    cases (Field.parse name).bind fun field ↦ (values elements hit field).head? with
    | none => rfl
    | some first => rfl

/-- A title depends on nothing but the first values of the fields that the headline names. -/
theorem title_congr {elements' : List DataElement} {hit' : Hit elements'.length} {headline : Chars}
    (h : ∀ name ∈ placeholders headline, ∀ field ∈ Field.parse name,
      (values elements hit field).head? = (values elements' hit' field).head?) :
    title elements hit headline = title elements' hit' headline := by
  have hvalue : ∀ name ∈ names '{' '}' headline,
      value elements hit name = value elements' hit' name := by
    intro name hname
    rw [value, value]
    cases hfield : Field.parse name with
    | none => rfl
    | some field =>
      have hsame := h name (List.mem_filter.2 ⟨hname, by rw [hfield]; rfl⟩) field hfield
      rw [Option.bind_some, Option.bind_some, hsame]
  rw [title, title, titleFrom_eq, titleFrom_eq]
  exact Template.fill_congr hvalue headline

/-! ## Fields -/

/-- A field as it is written. -/
def Field.print (field : Field) : Chars :=
  (match field.scope with
    | .own => []
    | .source => "source.".toList
    | .child => "child.".toList
    | .entity => "entity.".toList) ++
  match field.attr with
  | .type => "type".toList
  | .module => "module".toList
  | .data => "data".toList

theorem Attr.eq_of_parse {text : Chars} {attr : Attr} (h : Attr.parse text = some attr) :
    text = Field.print ⟨.own, attr⟩ := by
  rw [Attr.parse] at h
  split_ifs at h with htype hmodule hdata
  · cases h
    exact htype
  · cases h
    exact hmodule
  · cases h
    exact hdata

theorem Field.eq_of_parse {name : Chars} {field : Field} (h : Field.parse name = some field) :
    name = field.print := by
  rw [Field.parse] at h
  split at h
  · rename_i scope attr hsplit
    obtain ⟨rfl, -⟩ := Pieces.splitOnce_eq_some.1 hsplit
    have hscoped : ∀ s, (Attr.parse attr).map (fun attr ↦ (⟨s, attr⟩ : Field)) = some field →
        field.scope = s ∧ attr = Field.print ⟨.own, field.attr⟩ := by
      intro s hs
      obtain ⟨a, ha, rfl⟩ := Option.map_eq_some_iff.1 hs
      exact ⟨rfl, Attr.eq_of_parse ha⟩
    split_ifs at h with hsource hchild hentity
    · obtain ⟨hscope, rfl⟩ := hscoped _ h
      rw [hsource, Field.print, Field.print, hscope]
      rfl
    · obtain ⟨hscope, rfl⟩ := hscoped _ h
      rw [hchild, Field.print, Field.print, hscope]
      rfl
    · obtain ⟨hscope, rfl⟩ := hscoped _ h
      rw [hentity, Field.print, Field.print, hscope]
      rfl
  · obtain ⟨attr, hattr, rfl⟩ := Option.map_eq_some_iff.1 h
    exact Attr.eq_of_parse hattr

theorem known_of_parse {name : Chars} (h : (Field.parse name).isSome) : Known '{' '}' 'x' name := by
  obtain ⟨field, hfield⟩ := Option.isSome_iff_exists.1 h
  rw [Field.eq_of_parse hfield]
  rcases field with ⟨scope, attr⟩
  cases scope <;> cases attr <;> exact ⟨by decide, by decide, by decide⟩

/-- A placeholder is on one line. -/
theorem mark_print_line (field : Field) : ∀ c ∈ mark '{' '}' field.print, c ≠ '\r' ∧ c ≠ '\n' := by
  have hall : (mark '{' '}' field.print).all (fun c ↦ c ≠ '\r' ∧ c ≠ '\n') = true := by
    rcases field with ⟨scope, attr⟩
    cases scope <;> cases attr <;> decide
  exact fun c hc ↦ of_decide_eq_true (List.all_eq_true.1 hall c hc)

/-! ## Hits -/

/-- An element with these values. -/
def elementOf (w : Chars → Chars) (scope : Scope) : DataElement :=
  { kind := .ofList (w (Field.print ⟨scope, .type⟩))
    module := .ofList (w (Field.print ⟨scope, .module⟩))
    data := .ofList (w (Field.print ⟨scope, .data⟩))
    id := "", source := none, confidence := 0, created := 0, entity := none, raw := .null }

/-- Each of a hit's fields may have any one line. -/
theorem exists_hit (w : Chars → Chars) (hw : ∀ name, ∀ c ∈ w name, c ≠ '\r' ∧ c ≠ '\n') :
    ∃ elements, ∃ hit : Hit (List.length elements),
      value elements hit = only (fun name ↦ (Field.parse name).isSome) w := by
  refine ⟨[.own, .source, .child, .entity].map (elementOf w),
    ⟨(0 : Fin 4), 0, [(1 : Fin 4)], [(2 : Fin 4)], [(3 : Fin 4)]⟩, funext fun name ↦ ?_⟩
  rw [value, only]
  cases hfield : Field.parse name with
  | none => rfl
  | some field =>
    have hname := Field.eq_of_parse hfield
    have hline : firstLine (w name) = w name := by
      have hfilter : (w name).filter (· ≠ '\r') = w name :=
        List.filter_eq_self.2 fun c hc ↦ decide_eq_true (hw name c hc).1
      rw [firstLine, hfilter]
      exact List.takeWhile_eq_self_iff.2 fun c hc ↦ decide_eq_true (hw name c hc).2
    have hvalue : ∀ text : Chars, text = w name →
        firstLine (String.ofList text).toList = w name := by
      rintro _ rfl
      rw [String.toList_ofList, hline]
    rw [Option.bind_some, Option.isSome_some, if_pos rfl]
    rcases field with ⟨scope, attr⟩
    cases scope <;> cases attr <;> exact congrArg some (hvalue _ (congrArg w hname.symm))

/-! ## Titles -/

/-- **A headline's titles are its placeholders filled in, whatever the values are, exactly when it
has at most one placeholder that names a field**, and has that one only once.  Of other headlines,
titles are so where no value has an opening brace.  In any case a title depends on the named fields
alone. -/
theorem fillsOnce_iff (headline : Chars) :
    (FillsOnce headline ↔ (placeholders headline).length ≤ 1 ∧
      ∀ name ∈ placeholders headline, occurrences (mark '{' '}' name) headline = 1) ∧
    (∀ elements (hit : Hit (List.length elements)),
      (∀ name ∈ names '{' '}' headline, '{' ∉ name) → '{' ∉ (Template.parse '{' '}' headline).2 →
      (∀ name first, value elements hit name = some first → '{' ∉ first) →
        title elements hit headline = expand '{' '}' (value elements hit) headline) ∧
    ∀ elements elements' (hit : Hit (List.length elements)) (hit' : Hit (List.length elements')),
      (∀ name ∈ placeholders headline, ∀ field ∈ Field.parse name,
        (values elements hit field).head? = (values elements' hit' field).head?) →
        title elements hit headline = title elements' hit' headline := by
  have hoc : '{' ≠ '}' := by decide
  refine ⟨⟨fun h ↦ ?_, ?_⟩, fun elements hit hnames htail hvalue ↦ ?_,
    fun _ _ _ _ ↦ title_congr⟩
  · by_contra hnot
    have hbad : 1 < (placeholders headline).length ∨ ∃ name ∈ names '{' '}' headline,
        (Field.parse name).isSome ∧ 1 < occurrences (mark '{' '}' name) headline := by
      by_contra hgood
      obtain ⟨hfew, honce⟩ := not_or.1 hgood
      refine hnot ⟨Nat.not_lt.1 hfew, fun name hname ↦ ?_⟩
      obtain ⟨hmem, hfield⟩ := List.mem_filter.1 hname
      have hle : ¬ 1 < occurrences (mark '{' '}' name) headline := fun hlt ↦
        honce ⟨name, hmem, hfield, hlt⟩
      have hpos := (List.count_pos_iff.2 hmem).trans_le
        (Template.count_names_le (o := '{') (c := '}') name headline)
      omega
    obtain ⟨w, hw, hne⟩ := Template.exists_fill_ne hoc (fun name ↦ known_of_parse) hbad
    obtain ⟨elements, hit, hhit⟩ := exists_hit w fun name c hc ↦ by
      rcases hw name c hc with rfl | ⟨other, hother, hmem⟩
      · decide
      · obtain ⟨field, hfield⟩ := Option.isSome_iff_exists.1 hother
        exact mark_print_line field c (Field.eq_of_parse hfield ▸ hmem)
    refine hne ?_
    rw [← hhit, ← h elements hit, title, titleFrom_eq]
  · rintro ⟨hfew, honce⟩ elements hit
    rw [title, titleFrom_eq]
    refine Template.fill_eq_expand_of_once fun name hname hvalue ↦ ?_
    have hsome : ∀ other, (value elements hit other).isSome → (Field.parse other).isSome := by
      intro other hother
      rw [value] at hother
      cases hfield : Field.parse other with
      | none => rw [hfield] at hother; exact hother
      | some field => rfl
    have hself := Option.isSome_iff_ne_none.2 hvalue
    refine ⟨?_, honce name (List.mem_filter.2 ⟨hname, hsome name hself⟩)⟩
    have hsub : ((names '{' '}' headline).filter fun other ↦ (value elements hit other).isSome)
        |>.Sublist (placeholders headline) := List.monotone_filter_right _ hsome
    have hone : name ∈ (names '{' '}' headline).filter fun other ↦
        (value elements hit other).isSome := List.mem_filter.2 ⟨hname, hself⟩
    have hlength := hsub.length_le.trans hfew
    generalize (names '{' '}' headline).filter (fun other ↦ (value elements hit other).isSome) =
      l at hone hlength
    rcases l with _ | ⟨first, _ | ⟨second, l⟩⟩
    · cases hone
    · rw [List.mem_singleton.1 hone]
    · simp at hlength
  · rw [title, titleFrom_eq]
    exact Template.fill_eq_expand_of_plain hoc hnames htail hvalue

/-- A value that looks like the next placeholder is filled in as well. -/
theorem not_fillsOnce : ¬ FillsOnce "\x7bdata\x7d by \x7bmodule\x7d".toList := by
  intro h
  have hsame := h [⟨⟨"URL", "\x7bmodule\x7d", none, "crawler", 100, 0, none, .null⟩, "1", false⟩]
    ⟨(0 : Fin 1), 0, [], [], []⟩
  have hparse : Template.parse '{' '}' "\x7bdata\x7d by \x7bmodule\x7d".toList =
      ([([], "data".toList), (" by ".toList, "module".toList)], []) := by
    have hend : Template.parse '{' '}' [] = ([], []) :=
      Template.parse_none fun _ _ h ↦ by cases h
    have hsecond : Template.parse '{' '}' " by \x7bmodule\x7d".toList =
        ([(" by ".toList, "module".toList)], []) := by
      rw [Template.parse_some
        (by decide : splitOnce '{' " by \x7bmodule\x7d".toList =
          some (" by ".toList, "module\x7d".toList))
        (by decide : splitOnce '}' "module\x7d".toList = some ("module".toList, [])), hend]
    rw [Template.parse_some
      (by decide : splitOnce '{' "\x7bdata\x7d by \x7bmodule\x7d".toList =
        some ([], "data\x7d by \x7bmodule\x7d".toList))
      (by decide : splitOnce '}' "data\x7d by \x7bmodule\x7d".toList =
        some ("data".toList, " by \x7bmodule\x7d".toList)), hsecond]
  rw [title, titleFrom_eq, names, expand, hparse] at hsame
  exact absurd hsame (by decide)

end Huntsman.SfCorrelate
