import Huntsman.Lib.Pieces
import Huntsman.Lib.Scan
import Mathlib.Algebra.Order.BigOperators.Group.Finset

/-!
# Filling in a text with placeholders

A placeholder is a name between an opening and a closing sign.  `parse` takes a text apart at its
placeholders, from left to right, and `write` puts it together again with a text for each name.

Placeholders can be filled in by `write`, or by replacing one after the other in what the others
have left.  The second way finds placeholders in what was filled in as well.
-/

set_option autoImplicit false

universe u

namespace Template

open Option

open Pieces (splitOnce)
open Scan (replace occurrences Clear)

variable {α : Type u} {o c : α} {s t name name' : List α} {text : List α → List α}
  {parts : List (List α × List α)} {tail : List α}

/-- A placeholder. -/
def mark (o c : α) (name : List α) : List α := o :: (name ++ [c])

/-- A text taken apart, put together with a text for each name. -/
def write (text : List α → List α) (parts : List (List α × List α)) (tail : List α) : List α :=
  parts.flatMap (fun part ↦ part.1 ++ text part.2) ++ tail

theorem mark_ne_nil (o c : α) (name : List α) : mark o c name ≠ [] := List.cons_ne_nil _ _

/-- No placeholder begins behind the opening sign of one. -/
theorem clear_mark_tail (hoc : o ≠ c) (hname : o ∉ name) (name' : List α) :
    Clear (mark o c name') (name ++ [c]) := by
  refine Clear.of_not_mem ?_ _
  rw [List.mem_append, List.mem_singleton, not_or]
  exact ⟨hname, hoc⟩

theorem write_cons (part : List α × List α) : write text (part :: parts) tail =
    part.1 ++ (text part.2 ++ write text parts tail) := by
  rw [write, List.flatMap_cons, List.append_assoc, List.append_assoc, write]

theorem write_append (parts₁ parts₂ : List (List α × List α)) (text : List α → List α)
    (tail : List α) : write text (parts₁ ++ parts₂) tail =
      write text parts₁ [] ++ write text parts₂ tail := by
  rw [write, write, write, List.flatMap_append, List.append_nil, List.append_assoc]

theorem write_congr {text' : List α → List α}
    (h : ∀ part ∈ parts, text part.2 = text' part.2) (tail : List α) :
    write text parts tail = write text' parts tail := by
  rw [write, write, List.flatMap_congr fun part hpart ↦ by rw [h part hpart]]

variable [DecidableEq α]

/-- What stands before each placeholder, its name, and what stands after the last. -/
def parse (o c : α) (s : List α) : List (List α × List α) × List α :=
  match _hopen : splitOnce o s with
  | none => ([], s)
  | some (before, after) =>
    match _hclose : splitOnce c after with
    | none => ([], s)
    | some (name, rest) => ((before, name) :: (parse o c rest).1, (parse o c rest).2)
termination_by s.length
decreasing_by
  all_goals
    rw [(Pieces.splitOnce_eq_some.1 _hopen).1, (Pieces.splitOnce_eq_some.1 _hclose).1]
    simp
    omega

/-- The names of the placeholders. -/
def names (o c : α) (s : List α) : List (List α) := (parse o c s).1.map Prod.snd

/-! ## Taking apart -/

/-- A text without a placeholder is not taken apart. -/
theorem parse_none (h : ∀ before after, splitOnce o s = some (before, after) →
    splitOnce c after = none) : parse o c s = ([], s) := by
  rw [parse]
  split
  · rfl
  · rename_i before after hopen
    split
    · rfl
    · rename_i name rest hclose
      rw [h before after hopen] at hclose
      cases hclose

theorem parse_some {before after rest : List α} (hopen : splitOnce o s = some (before, after))
    (hclose : splitOnce c after = some (name, rest)) :
    parse o c s = ((before, name) :: (parse o c rest).1, (parse o c rest).2) := by
  rw [parse]
  split
  · rename_i hnone
    rw [hopen] at hnone
    cases hnone
  · rename_i hsome
    obtain ⟨rfl, rfl⟩ := Prod.mk.inj (some.inj (hopen.symm.trans hsome))
    split
    · rename_i hnone
      rw [hclose] at hnone
      cases hnone
    · rename_i hsome'
      obtain ⟨rfl, rfl⟩ := Prod.mk.inj (some.inj (hclose.symm.trans hsome'))
      rfl

/-- **A text is what it was taken apart into**, with each placeholder as it is written. -/
theorem write_parse (o c : α) (s : List α) :
    write (mark o c) (parse o c s).1 (parse o c s).2 = s := by
  fun_induction parse o c s with
  | case1 s hopen => rfl
  | case2 s before after hopen hclose => rfl
  | case3 s before after hopen name rest hclose ih =>
    obtain ⟨rfl, -⟩ := Pieces.splitOnce_eq_some.1 hopen
    obtain ⟨rfl, -⟩ := Pieces.splitOnce_eq_some.1 hclose
    rw [write_cons, ih, mark]
    simp

/-- No opening sign stands before a placeholder, and no closing one in its name. -/
theorem free_of_mem_parse {part : List α × List α} (h : part ∈ (parse o c s).1) :
    o ∉ part.1 ∧ c ∉ part.2 := by
  fun_induction parse o c s with
  | case1 s hopen => cases h
  | case2 s before after hopen hclose => cases h
  | case3 s before after hopen name rest hclose ih =>
    rcases List.mem_cons.1 h with rfl | h
    · exact ⟨(Pieces.splitOnce_eq_some.1 hopen).2, (Pieces.splitOnce_eq_some.1 hclose).2⟩
    · exact ih h

/-! ## Marks -/

/-- A placeholder whose name is free of closing signs ends at the first of them. -/
theorem eq_of_mark_isPrefix (hname : c ∉ name) (hname' : c ∉ name')
    (h : mark o c name <+: mark o c name' ++ t) : name = name' := by
  obtain ⟨rest, hrest⟩ := h
  have htail : name ++ c :: rest = name' ++ c :: t := by
    have hcons := List.tail_eq_of_cons_eq hrest
    simpa using hcons
  have hsplit := congrArg (splitOnce c) htail
  rw [Pieces.splitOnce_append hname, Pieces.splitOnce_append hname'] at hsplit
  exact (Prod.mk.inj (some.inj hsplit)).1

theorem occurrences_mark (hoc : o ≠ c) (hopen : o ∉ name) (t : List α) :
    occurrences (mark o c name) (mark o c name ++ t) = 1 + occurrences (mark o c name) t := by
  have hbegins : mark o c name <+: o :: (name ++ [c] ++ t) := List.prefix_append (mark o c name) t
  have htail := (clear_mark_tail hoc hopen name).occurrences_append t
  change occurrences (mark o c name) (o :: (name ++ [c] ++ t)) = _
  rw [occurrences, if_pos hbegins, htail]

theorem occurrences_mark_of_ne (hoc : o ≠ c) (hopen : o ∉ name) (hclose : c ∉ name)
    (hclose' : c ∉ name') (hne : name' ≠ name) (t : List α) :
    occurrences (mark o c name') (mark o c name ++ t) = occurrences (mark o c name') t := by
  have hnot : ¬ mark o c name' <+: o :: (name ++ [c] ++ t) := fun hbegins ↦
    hne (eq_of_mark_isPrefix (t := t) hclose' hclose hbegins)
  have htail := (clear_mark_tail hoc hopen name').occurrences_append t
  change occurrences (mark o c name') (o :: (name ++ [c] ++ t)) = _
  rw [occurrences, if_neg hnot, Nat.zero_add, htail]

/-- Replacing a placeholder brings what is put in its place, as often as it is there. -/
theorem count_replace (hoc : o ≠ c) (hopen : o ∉ name) {x : α} (hx : x ∉ mark o c name)
    (new s : List α) : (replace (mark o c name) new s).count x =
      s.count x + occurrences (mark o c name) s * new.count x := by
  induction s using Scan.search_induction (mark_ne_nil o c name) with
  | nil => simp [replace, Scan.replaceAux, occurrences]
  | found rest ih =>
    rw [Scan.replace_found (mark_ne_nil _ _ _), occurrences_mark hoc hopen, List.count_append,
      List.count_append, ih, List.count_eq_zero_of_not_mem hx, Nat.add_mul, Nat.one_mul]
    omega
  | skip a s hnot ih =>
    rw [Scan.replace_skip hnot, occurrences, if_neg hnot, Nat.zero_add, List.count_cons,
      List.count_cons, ih]
    omega

/-- The other placeholders stay, and those that are put in come to them. -/
theorem occurrences_replace_le (hoc : o ≠ c) (hopen : o ∉ name) (hclose : c ∉ name)
    (hopen' : o ∉ name') (hclose' : c ∉ name') (hne : name' ≠ name) (new s : List α) :
    occurrences (mark o c name') s +
        occurrences (mark o c name) s * occurrences (mark o c name') new ≤
      occurrences (mark o c name') (replace (mark o c name) new s) := by
  induction s using Scan.search_induction (mark_ne_nil o c name) with
  | nil => simp [occurrences]
  | found rest ih =>
    rw [Scan.replace_found (mark_ne_nil _ _ _), occurrences_mark hoc hopen,
      occurrences_mark_of_ne hoc hopen hclose hclose' hne]
    have hle := Scan.occurrences_append_le (mark o c name') new (replace (mark o c name) new rest)
    rw [Nat.add_mul, Nat.one_mul]
    omega
  | skip a s hnot ih =>
    rw [Scan.replace_skip hnot]
    have hbegins : mark o c name' <+: a :: s →
        mark o c name' <+: a :: replace (mark o c name) new s := by
      rintro ⟨rest, hrest⟩
      have hcons : o :: (name' ++ [c] ++ rest) = a :: s := hrest
      cases hcons
      rw [Scan.replace_clear (clear_mark_tail hoc hopen' name)]
      exact ⟨_, rfl⟩
    rw [occurrences, occurrences, occurrences, if_neg hnot, Nat.zero_add]
    by_cases h : mark o c name' <+: a :: s
    · rw [if_pos h, if_pos (hbegins h)]
      omega
    · rw [if_neg h]
      omega

/-- What is put in has placeholders of its own. -/
theorem occurrences_replace_self_le (hoc : o ≠ c) (hopen : o ∉ name) (new s : List α) :
    occurrences (mark o c name) s * occurrences (mark o c name) new ≤
      occurrences (mark o c name) (replace (mark o c name) new s) := by
  induction s using Scan.search_induction (mark_ne_nil o c name) with
  | nil => simp [occurrences]
  | found rest ih =>
    rw [Scan.replace_found (mark_ne_nil _ _ _), occurrences_mark hoc hopen]
    have hle := Scan.occurrences_append_le (mark o c name) new (replace (mark o c name) new rest)
    rw [Nat.add_mul, Nat.one_mul]
    omega
  | skip a s hnot ih =>
    rw [Scan.replace_skip hnot, occurrences, if_neg hnot, Nat.zero_add]
    refine ih.trans ?_
    rw [occurrences]
    exact Nat.le_add_left _ _

/-! ## Filling in -/

/-- Each placeholder filled in, those of a name without a value left as they are. -/
def expand (o c : α) (value : List α → Option (List α)) (s : List α) : List α :=
  write (fun name ↦ (value name).getD (mark o c name)) (parse o c s).1 (parse o c s).2

/-- The placeholders of one name after the other replaced. -/
def fill (o c : α) (value : List α → Option (List α)) : List (List α) → List α → List α
  | [], s => s
  | name :: rest, s =>
    fill o c value rest
      (match value name with
      | some new => replace (mark o c name) new s
      | none => s)

variable {value : List α → Option (List α)} {names' : List (List α)}

theorem fill_cons_some {new : List α} (h : value name = some new) (s : List α) :
    fill o c value (name :: names') s = fill o c value names' (replace (mark o c name) new s) := by
  rw [fill, h]

theorem fill_cons_none (h : value name = none) (s : List α) :
    fill o c value (name :: names') s = fill o c value names' s := by
  rw [fill, h]

theorem fill_none (h : ∀ name ∈ names', value name = none) (s : List α) :
    fill o c value names' s = s := by
  induction names' with
  | nil => rfl
  | cons name rest ih =>
    rw [fill_cons_none (h name (.head _))]
    exact ih fun other hother ↦ h other (.tail _ hother)

theorem fill_congr {value' : List α → Option (List α)}
    (h : ∀ name ∈ names', value name = value' name) (s : List α) :
    fill o c value names' s = fill o c value' names' s := by
  induction names' generalizing s with
  | nil => rfl
  | cons name rest ih =>
    rw [fill, fill, h name (.head _)]
    exact ih (fun other hother ↦ h other (.tail _ hother)) _

theorem fill_append (names₁ names₂ : List (List α)) (s : List α) :
    fill o c value (names₁ ++ names₂) s = fill o c value names₂ (fill o c value names₁ s) := by
  induction names₁ generalizing s with
  | nil => rfl
  | cons name rest ih => exact ih _

theorem count_le_occurrences_write (name tail : List α) (parts : List (List α × List α)) :
    (parts.map Prod.snd).count name + occurrences (mark o c name) tail ≤
      occurrences (mark o c name) (write (mark o c) parts tail) := by
  induction parts with
  | nil => exact (Nat.zero_add _).le
  | cons part parts ih =>
    have hle := Scan.occurrences_append_le (mark o c name) part.1
      (mark o c part.2 ++ write (mark o c) parts tail)
    have hle' := Scan.occurrences_append_le (mark o c name) (mark o c part.2)
      (write (mark o c) parts tail)
    have hself : (if part.2 == name then 1 else 0) ≤
        occurrences (mark o c name) (mark o c part.2) := by
      split
      · rename_i heq
        rw [eq_of_beq heq]
        exact Scan.occurrences_pos_of_isPrefix (List.prefix_refl _)
      · exact Nat.zero_le _
    rw [List.map_cons, List.count_cons, write_cons]
    omega

/-- A placeholder of a text is there at least as often as its name is among the names. -/
theorem count_names_le (name s : List α) :
    (names o c s).count name ≤ occurrences (mark o c name) s := by
  have hle := count_le_occurrences_write (o := o) (c := c) name (parse o c s).2 (parse o c s).1
  rw [write_parse] at hle
  exact (Nat.le_add_right _ _).trans hle

/-- **With one name that has a value, written once, both ways are the same.** -/
theorem fill_eq_expand_of_once (h : ∀ name ∈ names o c s, value name ≠ none →
    (names o c s).filter (fun other ↦ (value other).isSome) = [name] ∧
      occurrences (mark o c name) s = 1) :
    fill o c value (names o c s) s = expand o c value s := by
  have hall := write_parse o c s
  by_cases hnone : ∀ name ∈ names o c s, value name = none
  · rw [fill_none hnone, expand]
    conv_lhs => rw [← hall]
    exact write_congr (fun part hpart ↦ by
      rw [hnone _ (List.mem_map_of_mem hpart), getD_none]) _
  · obtain ⟨name, hname, hvalue⟩ := not_forall₂.1 hnone
    obtain ⟨new, hnew⟩ := ne_none_iff_exists'.1 hvalue
    obtain ⟨hfilter, honce⟩ := h name hname hvalue
    obtain ⟨names₁, names₂, hsplit, hbefore, -, hafter⟩ := List.filter_eq_cons_iff.1 hfilter
    obtain ⟨parts₁, rest, hparts, rfl, hrest⟩ := List.map_eq_append_iff.1 hsplit
    obtain ⟨part, parts₂, rfl, rfl, rfl⟩ := List.map_eq_cons_iff.1 hrest
    have hbefore : ∀ other ∈ parts₁.map Prod.snd, value other = none := fun other hother ↦
      not_isSome_iff_eq_none.1 (hbefore other hother)
    have hafter : ∀ other ∈ parts₂.map Prod.snd, value other = none := fun other hother ↦
      not_isSome_iff_eq_none.1 (List.filter_eq_nil_iff.1 hafter other hother)
    have hleft : ∀ {parts : List (List α × List α)} {tail : List α},
        (∀ other ∈ parts.map Prod.snd, value other = none) →
          write (fun other ↦ (value other).getD (mark o c other)) parts tail =
            write (mark o c) parts tail := fun {parts tail} hparts ↦
      write_congr (fun part hpart ↦ by
        rw [hparts _ (List.mem_map_of_mem hpart), getD_none]) tail
    rw [hsplit, fill_append, fill_none hbefore, fill_cons_some hnew, fill_none hafter, expand,
      hparts, write_append, write_cons, hleft hbefore, hleft hafter, hnew, getD_some,
      ← List.append_assoc]
    rw [hparts, write_append, write_cons, ← List.append_assoc] at hall
    generalize (parse o c s).2 = tail at hall ⊢
    rw [← hall] at honce ⊢
    exact Scan.replace_once (mark_ne_nil _ _ _) honce

/-! ## Values without an opening sign -/

/-- The texts of names that may have values. -/
def textOf (o c : α) (value : List α → Option (List α)) (name : List α) : List α :=
  (value name).getD (mark o c name)

/-- Replacing one placeholder, where nothing else has an opening sign. -/
theorem replace_write (hoc : o ≠ c) {done : List α → Option (List α)} {new : List α}
    (hclose : c ∉ name) (hparts : ∀ part ∈ parts, o ∉ part.1 ∧ o ∉ part.2 ∧ c ∉ part.2)
    (hdone : ∀ other w, done other = some w → o ∉ w)
    (hfirst : done name = none ∨ done name = some new) (htail : o ∉ tail) :
    replace (mark o c name) new (write (textOf o c done) parts tail) =
      write (textOf o c (Function.update done name (some new))) parts tail := by
  have hpass : ∀ {u : List α}, o ∉ u → ∀ rest,
      replace (mark o c name) new (u ++ rest) = u ++ replace (mark o c name) new rest :=
    fun hu rest ↦ Scan.replace_clear (Clear.of_not_mem hu _) rest
  induction parts with
  | nil =>
    have hend := hpass htail []
    rw [List.append_nil] at hend
    exact hend.trans (List.append_nil _)
  | cons part parts ih =>
    obtain ⟨hbefore, hopen', hclose'⟩ := hparts part (.head _)
    rw [write_cons, write_cons, hpass hbefore,
      ← ih fun part hpart ↦ hparts part (.tail _ hpart), textOf, textOf]
    refine congrArg _ ?_
    by_cases hname : part.2 = name
    · rw [hname, Function.update_self, getD_some]
      rcases hfirst with hnone | hsome
      · rw [hnone, getD_none, Scan.replace_found (mark_ne_nil _ _ _)]
      · rw [hsome, getD_some, hpass (hdone _ _ hsome)]
    · rw [Function.update_of_ne hname]
      cases hw : done part.2 with
      | some w => rw [getD_some, hpass (hdone _ _ hw)]
      | none =>
        -- A placeholder of another name is passed over.
        have hnot : ∀ rest, ¬ mark o c name <+: o :: (part.2 ++ [c] ++ rest) := fun rest h ↦
          hname (eq_of_mark_isPrefix (t := rest) hclose hclose' h).symm
        rw [getD_none]
        change replace _ _ (o :: (part.2 ++ [c] ++ _)) = o :: (part.2 ++ [c] ++ _)
        rw [Scan.replace_skip (hnot _), Scan.replace_clear (clear_mark_tail hoc hopen' name)]

/-- **With values that have no opening sign, both ways are the same**, where the text has none but
for its placeholders. -/
theorem fill_eq_expand_of_plain (hoc : o ≠ c) (hnames : ∀ name ∈ names o c s, o ∉ name)
    (htail : o ∉ (parse o c s).2) (hvalue : ∀ name new, value name = some new → o ∉ new) :
    fill o c value (names o c s) s = expand o c value s := by
  have hparts : ∀ part ∈ (parse o c s).1, o ∉ part.1 ∧ o ∉ part.2 ∧ c ∉ part.2 := fun part hpart ↦
    ⟨(free_of_mem_parse hpart).1, hnames _ (List.mem_map_of_mem hpart),
      (free_of_mem_parse hpart).2⟩
  have hsteps : ∀ rest done, (∀ name, done name = none ∨ done name = value name) →
      (∀ name ∈ rest, c ∉ name) →
      (∀ name ∈ names o c s, name ∈ rest ∨ done name = value name) →
        fill o c value rest (write (textOf o c done) (parse o c s).1 (parse o c s).2) =
          expand o c value s := by
    intro rest
    induction rest with
    | nil =>
      intro done _ _ hall
      exact write_congr (fun part hpart ↦ by
        rw [textOf, (hall _ (List.mem_map_of_mem hpart)).resolve_left List.not_mem_nil]) _
    | cons name rest ih =>
      intro done hdone hclose hall
      have hclose' := fun other hother ↦ hclose other (.tail _ hother)
      cases hnew : value name with
      | none =>
        rw [fill_cons_none hnew]
        refine ih done hdone hclose' fun other hother ↦ ?_
        rcases hall other hother with hmem | hsame
        · rcases List.mem_cons.1 hmem with rfl | hmem
          · exact .inr ((hdone other).elim (fun h ↦ h.trans hnew.symm) id)
          · exact .inl hmem
        · exact .inr hsame
      | some new =>
        rw [fill_cons_some hnew, replace_write hoc (hclose name (.head _)) hparts
          (fun other w hw ↦ hvalue other w ((hdone other).elim
            (fun h ↦ absurd (h.symm.trans hw) (by simp)) fun h ↦ h.symm.trans hw))
          ((hdone name).imp_right fun h ↦ h.trans hnew) htail]
        have hupdate : ∀ other, other ≠ name →
            Function.update done name (some new) other = done other :=
          fun other hother ↦ Function.update_of_ne hother _ _
        have hself : Function.update done name (some new) name = value name := by
          rw [Function.update_self, hnew]
        refine ih _ (fun other ↦ ?_) hclose' fun other hother ↦ ?_
        · by_cases hother : other = name
          · exact .inr (hother ▸ hself)
          · exact hupdate other hother ▸ hdone other
        · by_cases hother' : other = name
          · exact .inr (hother' ▸ hself)
          · rw [hupdate other hother']
            exact (hall other hother).imp_left fun hmem ↦
              (List.mem_cons.1 hmem).resolve_left hother'
  have hstart := hsteps (names o c s) (fun _ ↦ none) (fun _ ↦ .inl rfl)
    (fun name hname ↦ by
      obtain ⟨part, hpart, rfl⟩ := List.mem_map.1 hname
      exact (free_of_mem_parse hpart).2) fun name hname ↦ .inl hname
  have hwrite := write_parse o c s
  rwa [show textOf o c (fun _ ↦ none) = mark o c from rfl, hwrite] at hstart

/-! ## Where they differ -/

section Differ

variable {x : α}

/-- Names without signs, and without a letter. -/
structure Known (o c x : α) (name : List α) : Prop where
  free_open : o ∉ name
  free_close : c ∉ name
  free : x ∉ mark o c name

theorem count_expand (hx : ∀ name, value name ≠ none → x ∉ mark o c name) (s : List α) :
    (expand o c value s).count x =
      s.count x + ((names o c s).map fun name ↦ ((value name).getD []).count x).sum := by
  have hparts : ∀ parts : List (List α × List α), ∀ tail,
      (write (fun name ↦ (value name).getD (mark o c name)) parts tail).count x =
        (write (mark o c) parts tail).count x +
          ((parts.map Prod.snd).map fun name ↦ ((value name).getD []).count x).sum := by
    intro parts tail
    induction parts with
    | nil => rfl
    | cons part parts ih =>
      have hpart : ((value part.2).getD (mark o c part.2)).count x =
          (mark o c part.2).count x + ((value part.2).getD []).count x := by
        cases hvalue : value part.2 with
        | none => simp
        | some new =>
          have hnot := hx part.2 (by rw [hvalue]; exact some_ne_none new)
          rw [getD_some, getD_some, List.count_eq_zero_of_not_mem hnot, Nat.zero_add]
      rw [write_cons, write_cons, List.map_cons, List.map_cons, List.sum_cons, List.count_append,
        List.count_append, List.count_append, List.count_append, hpart, ih]
      omega
  rw [expand, hparts, write_parse, names]

/-- A name's value is put in for each of its placeholders, and nothing of it is lost. -/
theorem count_fill_le (hoc : o ≠ c) (hknown : ∀ name, value name ≠ none → Known o c x name)
    {new : List α} (hnew : value name = some new) (hmem : name ∈ names') (s : List α) :
    s.count x + occurrences (mark o c name) s * new.count x ≤
      (fill o c value names' s).count x := by
  have hgrow : ∀ rest s, s.count x ≤ (fill o c value rest s).count x := by
    intro rest
    induction rest with
    | nil => exact fun s ↦ le_refl _
    | cons other rest ih =>
      intro s
      cases hother : value other with
      | none =>
        rw [fill_cons_none hother]
        exact ih s
      | some w =>
        have hfree := hknown other (by rw [hother]; exact some_ne_none w)
        rw [fill_cons_some hother]
        refine le_trans ?_ (ih _)
        rw [count_replace hoc hfree.free_open hfree.free]
        exact Nat.le_add_right _ _
  have hname := hknown name (by rw [hnew]; exact some_ne_none new)
  induction names' generalizing s with
  | nil => cases hmem
  | cons other rest ih =>
    by_cases hother : name = other
    · rw [← hother, fill_cons_some hnew]
      refine le_trans ?_ (hgrow _ _)
      rw [count_replace hoc hname.free_open hname.free]
    · have hrest := ih ((List.mem_cons.1 hmem).resolve_left hother)
      cases hw : value other with
      | none =>
        rw [fill_cons_none hw]
        exact hrest s
      | some w =>
        have hfree := hknown other (by rw [hw]; exact some_ne_none w)
        rw [fill_cons_some hw]
        refine le_trans ?_ (hrest _)
        have hstay := occurrences_replace_le hoc hfree.free_open hfree.free_close hname.free_open
          hname.free_close hother w s
        rw [count_replace hoc hfree.free_open hfree.free]
        have hmul := Nat.mul_le_mul_right (new.count x) ((Nat.le_add_right _ _).trans hstay)
        omega

/-- In one pass, a letter that only one name's value has is put in once for each placeholder. -/
theorem count_expand_of_only (hx : ∀ name, value name ≠ none → x ∉ mark o c name) (name s : List α)
    (honly : ∀ other, other ≠ name → ((value other).getD []).count x = 0) :
    (expand o c value s).count x =
      s.count x + (names o c s).count name * ((value name).getD []).count x := by
  rw [count_expand hx]
  congr 1
  generalize names o c s = all
  induction all with
  | nil => exact (Nat.zero_mul _).symm
  | cons other rest ih =>
    rw [List.map_cons, List.sum_cons, ih]
    by_cases hother : other = name
    · rw [hother, List.count_cons_self, Nat.add_mul, Nat.one_mul, Nat.add_comm]
    · rw [honly other hother, List.count_cons_of_ne hother, Nat.zero_add]

variable {known : List α → Bool}

/-- The values of the known names. -/
def only (known : List α → Bool) (value : List α → List α) (name : List α) : Option (List α) :=
  if known name then some (value name) else none

omit [DecidableEq α] in
theorem only_known {value : List α → List α} (h : known name) :
    only known value name = some (value name) := if_pos h

omit [DecidableEq α] in
theorem known_of_only {value : List α → List α} (hknown : ∀ name, known name → Known o c x name)
    {other : List α} (h : only known value other ≠ none) : Known o c x other :=
  hknown other (by
    by_contra hnot
    exact h (if_neg hnot))

/-- A placeholder inside another is filled in as well. -/
theorem fill_ne_of_occurrences (hoc : o ≠ c)
    (hknown : ∀ name, known name → Known o c x name) (hmem : name ∈ names o c s)
    (hname : known name) (h : (names o c s).count name < occurrences (mark o c name) s) :
    fill o c (only known (Function.update (fun _ ↦ []) name [x])) (names o c s) s ≠
      expand o c (only known (Function.update (fun _ ↦ []) name [x])) s := by
  have hvalue : only known (Function.update (fun _ ↦ []) name [x]) name = some [x] := by
    rw [only_known hname, Function.update_self]
  have hall : ∀ other, only known (Function.update (fun _ ↦ []) name [x]) other ≠ none →
      Known o c x other := fun _ ↦ known_of_only hknown
  intro heq
  have hfill := count_fill_le hoc hall hvalue hmem s
  rw [heq, count_expand_of_only (fun other hother ↦ (hall other hother).free) name s, hvalue,
    getD_some, List.count_singleton_self] at hfill
  · omega
  · intro other hother
    rw [only]
    split
    · rw [Function.update_of_ne hother, getD_some, List.count_nil]
    · exact List.count_nil

/-- A value that is a placeholder of a later name is filled in. -/
theorem fill_ne_of_later (hoc : o ≠ c) (hknown : ∀ name, known name → Known o c x name)
    {before after : List (List α)} (hsplit : names o c s = before ++ name :: after)
    (hbefore : ∀ other ∈ before, known other = false) (hname : known name)
    (hlater : name' ∈ after) (hname' : known name') (hne : name' ≠ name) :
    let value := only known
      (Function.update (Function.update (fun _ ↦ []) name (mark o c name')) name' [x])
    fill o c value (names o c s) s ≠ expand o c value s := by
  intro value heq
  have hall : ∀ other, value other ≠ none → Known o c x other := fun _ ↦ known_of_only hknown
  have hfirst : value name = some (mark o c name') := by
    change only known _ name = _
    rw [only_known hname, Function.update_of_ne hne.symm, Function.update_self]
  have hsecond : value name' = some [x] := by
    change only known _ name' = _
    rw [only_known hname', Function.update_self]
  have hnone : ∀ other ∈ before, value other = none := fun other hother ↦ by
    change only known _ other = _
    rw [only, hbefore other hother, if_neg Bool.false_ne_true]
  have hfree := hknown name hname
  have hfree' := hknown name' hname'
  have hone : (mark o c name').count x = 0 := List.count_eq_zero_of_not_mem hfree'.free
  have hfill := count_fill_le hoc hall hsecond hlater (replace (mark o c name) (mark o c name') s)
  rw [hsplit, fill_append, fill_none hnone, fill_cons_some hfirst] at heq
  rw [heq, count_expand_of_only (fun other hother ↦ (hall other hother).free) name' s, hsecond,
    getD_some, List.count_singleton_self,
    count_replace hoc hfree.free_open hfree.free, hone] at hfill
  · have hmore := occurrences_replace_le hoc hfree.free_open hfree.free_close hfree'.free_open
      hfree'.free_close hne (mark o c name') s
    have hself : occurrences (mark o c name') (mark o c name') = 1 := by
      have hmark := occurrences_mark hoc hfree'.free_open ([] : List α)
      rwa [List.append_nil] at hmark
    have hcount := count_names_le (o := o) (c := c) name' s
    have hcount' := count_names_le (o := o) (c := c) name s
    have hpos : 0 < (names o c s).count name := List.count_pos_iff.2 (by rw [hsplit]; simp)
    rw [hself] at hmore
    omega
  · intro other hother
    change ((only known _ other).getD []).count x = 0
    rw [only]
    split
    · rw [getD_some, Function.update_of_ne hother]
      by_cases heq' : other = name
      · rw [heq', Function.update_self, hone]
      · rw [Function.update_of_ne heq', List.count_nil]
    · exact List.count_nil

/-- A value that is the name's own placeholder is filled in again at the next one. -/
theorem fill_ne_of_again (hoc : o ≠ c) (hknown : ∀ name, known name → Known o c x name)
    {before after : List (List α)} (hsplit : names o c s = before ++ name :: after)
    (hbefore : ∀ other ∈ before, known other = false) (hname : known name)
    (hagain : name ∈ after) :
    let value := only known (Function.update (fun _ ↦ []) name (mark o c name ++ [x]))
    fill o c value (names o c s) s ≠ expand o c value s := by
  intro value heq
  have hall : ∀ other, value other ≠ none → Known o c x other := fun _ ↦ known_of_only hknown
  have hvalue : value name = some (mark o c name ++ [x]) := by
    change only known _ name = _
    rw [only_known hname, Function.update_self]
  have hnone : ∀ other ∈ before, value other = none := fun other hother ↦ by
    change only known _ other = _
    rw [only, hbefore other hother, if_neg Bool.false_ne_true]
  have hfree := hknown name hname
  have hone : (mark o c name ++ [x]).count x = 1 := by
    rw [List.count_append, List.count_eq_zero_of_not_mem hfree.free, List.count_singleton_self]
  have hfill := count_fill_le hoc hall hvalue hagain
    (replace (mark o c name) (mark o c name ++ [x]) s)
  rw [hsplit, fill_append, fill_none hnone, fill_cons_some hvalue] at heq
  rw [heq, count_expand_of_only (fun other hother ↦ (hall other hother).free) name s, hvalue,
    getD_some, count_replace hoc hfree.free_open hfree.free, hone] at hfill
  · have hmore := occurrences_replace_self_le hoc hfree.free_open (mark o c name ++ [x]) s
    have hself : 1 ≤ occurrences (mark o c name) (mark o c name ++ [x]) := by
      rw [occurrences_mark hoc hfree.free_open]
      exact Nat.le_add_right _ _
    have hmul := Nat.mul_le_mul_left (occurrences (mark o c name) s) hself
    have hcount := count_names_le (o := o) (c := c) name s
    have hpos : 0 < (names o c s).count name := List.count_pos_iff.2 (by rw [hsplit]; simp)
    omega
  · intro other hother
    change ((only known _ other).getD []).count x = 0
    rw [only]
    split
    · rw [getD_some, Function.update_of_ne hother, List.count_nil]
    · exact List.count_nil

/-- **With more than one placeholder of a known name, or one that is written once more elsewhere,
the two ways differ for some values.** -/
theorem exists_fill_ne (hoc : o ≠ c) (hknown : ∀ name, known name → Known o c x name)
    (h : 1 < ((names o c s).filter known).length ∨
      ∃ name ∈ names o c s, known name ∧ 1 < occurrences (mark o c name) s) :
    ∃ value : List α → List α,
      (∀ name, ∀ y ∈ value name, y = x ∨ ∃ other, known other ∧ y ∈ mark o c other) ∧
        fill o c (only known value) (names o c s) s ≠ expand o c (only known value) s := by
  have hnil : ∀ name : List α, ∀ y ∈ ([] : List α),
      y = x ∨ ∃ other, known other ∧ y ∈ mark o c other := fun _ _ hy ↦ absurd hy List.not_mem_nil
  by_cases hmany : 1 < ((names o c s).filter known).length
  · obtain ⟨name, rest, hfilter⟩ := List.exists_cons_of_length_pos (Nat.zero_lt_of_lt hmany)
    obtain ⟨before, after, hsplit, hbefore, hname, hrest⟩ := List.filter_eq_cons_iff.1 hfilter
    have hbefore : ∀ other ∈ before, known other = false := fun other hother ↦
      Bool.eq_false_iff.2 (hbefore other hother)
    rw [hfilter, List.length_cons] at hmany
    obtain ⟨name', hname'⟩ := List.exists_mem_of_length_pos (l := rest) (by omega)
    rw [← hrest] at hname'
    obtain ⟨hlater, hname'⟩ := List.mem_filter.1 hname'
    by_cases hne : name' = name
    · refine ⟨_, ?_, fill_ne_of_again hoc hknown hsplit hbefore hname (hne ▸ hlater)⟩
      intro other y hy
      by_cases hother : other = name
      · rw [hother, Function.update_self, List.mem_append, List.mem_singleton] at hy
        exact hy.symm.imp_right fun hy ↦ ⟨name, hname, hy⟩
      · rw [Function.update_of_ne hother] at hy
        exact hnil other y hy
    · refine ⟨_, ?_, fill_ne_of_later hoc hknown hsplit hbefore hname hlater hname' hne⟩
      intro other y hy
      by_cases hother : other = name'
      · rw [hother, Function.update_self, List.mem_singleton] at hy
        exact .inl hy
      · rw [Function.update_of_ne hother] at hy
        by_cases hother' : other = name
        · rw [hother', Function.update_self] at hy
          exact .inr ⟨name', hname', hy⟩
        · rw [Function.update_of_ne hother'] at hy
          exact hnil other y hy
  · obtain ⟨name, hmem, hname, honce⟩ := h.resolve_left hmany
    have hcount : (names o c s).count name ≤ 1 := by
      rw [← List.count_filter hname]
      exact List.count_le_length.trans (Nat.not_lt.1 hmany)
    refine ⟨_, ?_, fill_ne_of_occurrences hoc hknown hmem hname
      (hcount.trans_lt honce)⟩
    intro other y hy
    by_cases hother : other = name
    · rw [hother, Function.update_self, List.mem_singleton] at hy
      exact .inl hy
    · rw [Function.update_of_ne hother] at hy
      exact hnil other y hy

end Differ

end Template
