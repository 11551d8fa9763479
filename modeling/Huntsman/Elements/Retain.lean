import Huntsman.Elements.Walk
import Huntsman.Lib.Loop
import Huntsman.Lib.Worklist

/-!
# Elements of the wanted types

A scan that asks for some types only saves the elements of these types, and with each of them the
chain it was found through, so that no saved element names a source that was not saved.  The chain
is climbed from each wanted element in turn, up to the first element that is kept already.

That is a search of the sources that leaves its seen set closed (`climb_spec`); so what is kept is
the least set that holds what is wanted and the source of whatever it holds (`typeFilter_isLeast`).
-/

set_option autoImplicit false

open Relation

namespace Huntsman.Elements

open List

variable (elements : List DataElement)

/-- One of the elements. -/
abbrev Held := {element : DataElement // element ∈ elements}

/-- The element of an id, the last one where there are several. -/
def byId (id : String) : Option (Held elements) :=
  elements.attach.reverse.find? fun element ↦ element.1.id == id

/-- A climb from an element: what is kept by now, and the element to keep next. -/
structure Climb where
  retained : List String
  cursor : Option (Held elements)

variable {elements}

/-- Keep one element and go on to its source. -/
def Climb.pass (s : Climb elements) : Pass (List String) (Climb elements) :=
  match s.cursor with
  | none => .leave s.retained
  | some found =>
    if found.1.id ∈ s.retained then .leave s.retained
    else .again ⟨found.1.id :: s.retained, found.1.source.bind (byId elements)⟩

/-- How many elements are not kept yet. -/
def Climb.left (s : Climb elements) : ℕ :=
  (elements.filter fun element ↦ element.id ∉ s.retained).length

/-- A climb that goes on has kept one more element. -/
theorem Climb.pass_falls (s s' : Climb elements) (h : s.pass = .again s') : s'.left < s.left := by
  unfold Climb.pass at h
  split at h
  · cases h
  · rename_i found hcursor
    split at h
    · cases h
    · rename_i hnew
      cases h
      have hfewer : elements.filter (fun element ↦ element.id ∉ found.1.id :: s.retained) =
          (elements.filter fun element ↦ element.id ∉ s.retained).filter
            fun element ↦ element.id ≠ found.1.id := by
        rw [filter_filter]
        refine filter_congr fun element _ ↦ ?_
        simp only [mem_cons, not_or, Bool.decide_and]
      rw [Climb.left, Climb.left, hfewer]
      refine length_filter_lt_length_iff_exists.2 ⟨found.1, ?_, by simp⟩
      exact mem_filter.2 ⟨found.2, decide_eq_true hnew⟩

variable (elements) in
/-- Keep an element and the chain it was found through. -/
def climb (retained : List String) (element : Held elements) : List String :=
  Loop.run Climb.pass Climb.left Climb.pass_falls ⟨retained, some element⟩

/-- Keep an element of a wanted type and its chain. -/
def keepChain (targetKind : String) (types retained : List String) (element : Held elements) :
    List String :=
  if element.1.kind ≠ "ROOT" ∧ element.1.kind ≠ targetKind ∧ element.1.kind ∉ types then retained
  else climb elements retained element

/-- The elements of a scan that asks for `types`. -/
def typeFilter (targetKind : String) (types : List String) (elements : List DataElement) :
    List DataElement :=
  let retained := elements.attach.foldl (keepChain targetKind types) []
  elements.filter fun element ↦ element.id ∈ retained

/-- The elements that are saved: all of them, unless the scan asks for some types. -/
def savedElements (targetKind : String) (types : List String) (elements : List DataElement) :
    List DataElement :=
  if types.isEmpty then elements else typeFilter targetKind types elements

/-! ## What is kept -/

/-- `p` is the element that `e` was found from. -/
def Source (e p : Held elements) : Prop := e.1.source = some p.1.id

/-- An element that a scan for `types` keeps for its own sake. -/
def Wanted (targetKind : String) (types : List String) (element : DataElement) : Prop :=
  element.kind = "ROOT" ∨ element.kind = targetKind ∨ element.kind ∈ types

theorem not_wanted {targetKind : String} {types : List String} {element : DataElement} :
    ¬ Wanted targetKind types element ↔
      element.kind ≠ "ROOT" ∧ element.kind ≠ targetKind ∧ element.kind ∉ types := by
  rw [Wanted, not_or, not_or]

/-- `S` holds what is wanted, and the source of whatever it holds. -/
structure Keeps (targetKind : String) (types : List String) (elements : List DataElement)
    (S : Set DataElement) : Prop where
  wanted : ∀ e ∈ elements, Wanted targetKind types e → e ∈ S
  source : ∀ e ∈ S, ∀ p ∈ elements, e.source = some p.id → p ∈ S

/-- A climb from `root` that began when `old` was kept, as a search. -/
def Climb.Searches (old : List String) (root : Held elements) (s : Climb elements) : Prop :=
  Exploring Source {e | e.1.id ∈ old} root {e | e.1.id ∈ s.retained} {e | s.cursor = some e}

section Distinct

variable (hids : (elements.map (·.id)).Nodup)
include hids

theorem held_eq {e p : Held elements} (h : e.1.id = p.1.id) : e = p :=
  Subtype.ext (inj_on_of_nodup_map hids e.2 p.2 h)

theorem byId_eq_some {id : String} {p : Held elements} :
    byId elements id = some p ↔ p.1.id = id := by
  constructor
  · intro h
    have hid := find?_some h
    exact beq_iff_eq.1 hid
  · rintro rfl
    rcases hfind : byId elements p.1.id with _ | q
    · have hnone := find?_eq_none.1 hfind p (mem_reverse.2 (mem_attach _ p))
      exact absurd (beq_self_eq_true p.1.id) hnone
    · have hid := find?_some hfind
      rw [held_eq hids (beq_iff_eq.1 hid)]

theorem bind_byId_eq_some {e p : Held elements} :
    e.1.source.bind (byId elements) = some p ↔ Source e p := by
  rw [Option.bind_eq_some_iff, Source]
  constructor
  · rintro ⟨id, hsource, hid⟩
    rw [hsource, (byId_eq_some hids).1 hid]
  · intro hsource
    exact ⟨p.1.id, hsource, (byId_eq_some hids).2 rfl⟩

/-- **One climb keeps the element, and all it was found through**, when what was kept before has its
sources kept too. -/
theorem climb_spec {retained : List String} (root : Held elements)
    (hold : ∀ e : Held elements, e.1.id ∈ retained → ∀ p, Source e p → p.1.id ∈ retained) :
    (∀ e : Held elements, e.1.id ∈ climb elements retained root ↔
        e.1.id ∈ retained ∨ ReflTransGen Source root e) ∧
      ∀ e : Held elements, e.1.id ∈ climb elements retained root →
        ∀ p, Source e p → p.1.id ∈ climb elements retained root := by
  refine Loop.run_meets (Climb.Searches retained root)
    (fun kept ↦ (∀ e : Held elements, e.1.id ∈ kept ↔
        e.1.id ∈ retained ∨ ReflTransGen Source root e) ∧
      ∀ e : Held elements, e.1.id ∈ kept → ∀ p, Source e p → p.1.id ∈ kept)
    (fun s hs ↦ ?_) (Exploring.start hold fun e ↦ eq_comm.trans Option.some_inj)
  · rcases hcursor : s.cursor with _ | found
    · rw [Climb.pass, hcursor]
      have hempty : ∀ e, e ∉ {e | s.cursor = some e} := by simp [hcursor]
      exact ⟨hs.done hempty, hs.done_closed hempty⟩
    · have hkeep : ∀ e ∈ {e | s.cursor = some e}, e = found := fun e he ↦ by
        rw [Set.mem_ofPred_eq, hcursor] at he
        exact (Option.some.inj he).symm
      by_cases hfound : found.1.id ∈ s.retained
      · -- the first element that was kept already ends the climb
        have hnone : Exploring Source {e | e.1.id ∈ retained} root {e | e.1.id ∈ s.retained} ∅ :=
          hs.skip hfound (fun e he ↦ .inr (hkeep e he)) (fun e he ↦ absurd he (Set.notMem_empty e))
        simp only [Climb.pass, hcursor, if_pos hfound]
        exact ⟨hnone.done Set.notMem_empty, hnone.done_closed Set.notMem_empty⟩
      · simp only [Climb.pass, hcursor, if_neg hfound]
        refine hs.visit hcursor (fun e ↦ ?_) (fun e he ↦ .inr (hkeep e he))
          (fun e he ↦ .inr ((bind_byId_eq_some hids).1 he))
          (fun e he ↦ .inr ((bind_byId_eq_some hids).2 he))
        rw [Set.mem_ofPred_eq, mem_cons]
        exact or_congr_left ⟨held_eq hids, fun h ↦ h ▸ rfl⟩

theorem foldl_climb_spec (targetKind : String) (types : List String) (roots : List (Held elements))
    {retained : List String}
    (hold : ∀ e : Held elements, e.1.id ∈ retained → ∀ p, Source e p → p.1.id ∈ retained) :
    ∀ e : Held elements, e.1.id ∈ roots.foldl (keepChain targetKind types) retained ↔
      e.1.id ∈ retained ∨
        ∃ root ∈ roots, Wanted targetKind types root.1 ∧ ReflTransGen Source root e := by
  induction roots generalizing retained with
  | nil => simp
  | cons root roots ih =>
    intro e
    rw [foldl_cons, exists_mem_cons_iff]
    by_cases hwanted : Wanted targetKind types root.1
    · obtain ⟨hkept, hclosed⟩ := climb_spec hids root hold
      rw [keepChain, if_neg (by rw [← not_wanted, not_not]; exact hwanted), ih hclosed, hkept,
        or_assoc, and_iff_right hwanted]
    · rw [keepChain, if_pos (not_wanted.1 hwanted), ih hold]
      simp only [hwanted, false_and, false_or]

/-- **What is kept is the least set** that holds the root, the elements of the target's type and of
the wanted types, and the source of whatever it holds; and it is kept in order.  A scan that names
no type is not filtered. -/
theorem typeFilter_isLeast (targetKind : String) (types : List String) :
    IsLeast {S | Keeps targetKind types elements S} {e | e ∈ typeFilter targetKind types elements} ∧
      (typeFilter targetKind types elements).Sublist elements ∧
      savedElements targetKind types elements =
        if types.isEmpty then elements else typeFilter targetKind types elements := by
  have hkept : ∀ e : Held elements, e.1 ∈ typeFilter targetKind types elements ↔
      ∃ root : Held elements, Wanted targetKind types root.1 ∧ ReflTransGen Source root e := by
    intro e
    have hspec := foldl_climb_spec hids targetKind types elements.attach
      (fun e he ↦ absurd he not_mem_nil) e
    rw [typeFilter, mem_filter, and_iff_right e.2, decide_eq_true_iff]
    simpa using hspec
  refine ⟨⟨⟨fun e he hwanted ↦ ?_, fun e he p hp hsource ↦ ?_⟩, fun S hS e he ↦ ?_⟩,
    filter_sublist, rfl⟩
  · exact (hkept ⟨e, he⟩).2 ⟨⟨e, he⟩, hwanted, .refl⟩
  · have hmem : e ∈ elements := (mem_filter.1 he).1
    obtain ⟨root, hwanted, hchain⟩ := (hkept ⟨e, hmem⟩).1 he
    exact (hkept ⟨p, hp⟩).2 ⟨root, hwanted, hchain.tail hsource⟩
  · have hmem : e ∈ elements := (mem_filter.1 he).1
    obtain ⟨root, hwanted, hchain⟩ := (hkept ⟨e, hmem⟩).1 he
    -- a set that holds sources holds the chain, element by element
    have hin : ∀ p : Held elements, ReflTransGen Source root p → p.1 ∈ S := by
      intro p hp
      induction hp with
      | refl => exact hS.wanted root.1 root.2 hwanted
      | tail _ hsource ih => exact hS.source _ ih _ (Subtype.property _) hsource
    exact hin ⟨e, hmem⟩ hchain

end Distinct

/-- Two elements that name each other as their source. -/
def circle : List DataElement :=
  [⟨⟨"EMAILADDR", "a@b.c", some "2", "m", 100, 0, none, .null⟩, "1", false⟩,
    ⟨⟨"USERNAME", "a", some "1", "m", 100, 0, none, .null⟩, "2", false⟩]

theorem typeFilter_isLeast_circle :
    IsLeast {S | Keeps "INTERNET_NAME" ["EMAILADDR"] circle S}
        {e | e ∈ typeFilter "INTERNET_NAME" ["EMAILADDR"] circle} ∧
      (typeFilter "INTERNET_NAME" ["EMAILADDR"] circle).Sublist circle ∧
      savedElements "INTERNET_NAME" ["EMAILADDR"] circle =
        typeFilter "INTERNET_NAME" ["EMAILADDR"] circle :=
  typeFilter_isLeast (by decide) "INTERNET_NAME" ["EMAILADDR"]

end Huntsman.Elements
