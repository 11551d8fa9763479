import Mathlib.Algebra.BigOperators.Group.List.Basic
import Mathlib.Algebra.Ring.Nat
import Mathlib.Data.List.Nodup

/-!
# Slots

A list whose entries are known by their place grows at its end, and one of its entries at a time is
replaced.  An entry of the new list is the new one, or was there before.  Where the entries are made
of elements that do not repeat, replacing one is making the list again (`List.map_set_of_nodup`).
-/

set_option autoImplicit false

universe u

namespace List

variable {α : Type u} {xs : List α} {i j : ℕ} {x y : α}

theorem lt_of_getElem?_eq_some (h : xs[i]? = some x) : i < xs.length :=
  (getElem?_eq_some_iff.1 h).1

theorem getElem?_set_cases (h : (xs.set i x)[j]? = some y) :
    (j = i ∧ y = x) ∨ (j ≠ i ∧ xs[j]? = some y) := by
  by_cases heq : j = i
  · rw [heq, getElem?_set_self'] at h
    cases hi : xs[i]? with
    | none => simp [hi] at h
    | some z => exact .inl ⟨heq, by simpa [hi] using h.symm⟩
  · rw [getElem?_set_ne (Ne.symm heq)] at h
    exact .inr ⟨heq, h⟩

theorem getElem?_append_cases (h : (xs ++ [x])[j]? = some y) :
    (j = xs.length ∧ y = x) ∨ xs[j]? = some y := by
  rcases Nat.lt_trichotomy j xs.length with hlt | heq | hgt
  · rw [getElem?_append_left hlt] at h
    exact .inr h
  · subst heq
    exact .inl ⟨rfl, by simpa using h.symm⟩
  · rw [getElem?_eq_none (by simp; omega)] at h
    simp at h

/-- Where no element repeats, what is made of one of them is replaced at its place. -/
theorem map_set_of_nodup {β : Type*} (hxs : xs.Nodup) (hx : xs[i]? = some x) (f g : α → β)
    (hother : ∀ y, y ≠ x → g y = f y) : (xs.map f).set i (g x) = xs.map g := by
  refine ext_getElem? fun j ↦ ?_
  rw [getElem?_set, getElem?_map, getElem?_map, length_map]
  split
  · rename_i hij
    rw [if_pos (lt_of_getElem?_eq_some hx), ← hij, hx, Option.map_some]
  · rename_i hij
    cases hj : xs[j]? with
    | none => rfl
    | some y =>
      rw [Option.map_some, Option.map_some, hother y]
      rintro rfl
      exact hij ((getElem?_inj (lt_of_getElem?_eq_some hx) hxs).1 (hx.trans hj.symm))

/-- And where it is a number, the sum grows with it. -/
theorem sum_map_of_nodup (hxs : xs.Nodup) (hx : x ∈ xs) {f g : α → ℕ}
    (hother : ∀ y, y ≠ x → g y = f y) (hsame : g x = f x + 1) :
    (xs.map g).sum = (xs.map f).sum + 1 := by
  obtain ⟨s, t, rfl⟩ := append_of_mem hx
  obtain ⟨hnot, -⟩ := nodup_cons.1 (nodup_middle.1 hxs)
  have hsides : ∀ y ∈ s ++ t, g y = f y := fun y hy ↦ hother y fun heq ↦ hnot (heq ▸ hy)
  rw [map_append, map_append, map_cons, map_cons, sum_append, sum_append, sum_cons, sum_cons, hsame,
    map_congr_left fun y hy ↦ hsides y (mem_append_left _ hy),
    map_congr_left fun y hy ↦ hsides y (mem_append_right _ hy)]
  omega

theorem lookup_cons_ite {κ β : Type*} [BEq κ] [LawfulBEq κ] [DecidableEq κ] (k a : κ) (b : β) (l : List (κ × β)) :
    ((k, b) :: l).lookup a = if a = k then some b else l.lookup a := by
  rw [lookup_cons]
  by_cases h : a = k
  · rw [h, beq_self_eq_true, if_pos rfl]
  · rw [beq_eq_false_iff_ne.2 h, if_neg h]

theorem lookup_eq_some_of_mem {κ β : Type*} [BEq κ] [LawfulBEq κ] {k : κ} {b : β}
    {l : List (κ × β)} (hl : (l.map Prod.fst).Nodup) (h : (k, b) ∈ l) : l.lookup k = some b := by
  classical
  induction l with
  | nil => exact absurd h not_mem_nil
  | cons p l ih =>
    rw [map_cons, nodup_cons] at hl
    rw [lookup_cons_ite]
    rcases mem_cons.1 h with rfl | h
    · rw [if_pos rfl]
    · rw [if_neg, ih hl.2 h]
      rintro rfl
      exact hl.1 (mem_map.2 ⟨_, h, rfl⟩)

/-! ## Lists side by side -/

section Beside

variable {β : Type*} {r : α → β → Prop} {ys : List β}

theorem forall₂_mem_left (h : Forall₂ r xs ys) (hx : x ∈ xs) : ∃ y ∈ ys, r x y := by
  induction h with
  | nil => exact absurd hx not_mem_nil
  | cons hxy _ ih =>
    rcases mem_cons.1 hx with rfl | hx
    · exact ⟨_, mem_cons_self, hxy⟩
    · obtain ⟨y, hy, hr⟩ := ih hx
      exact ⟨y, mem_cons_of_mem _ hy, hr⟩

theorem forall₂_mem_right {y : β} (h : Forall₂ r xs ys) (hy : y ∈ ys) : ∃ x ∈ xs, r x y := by
  obtain ⟨x, hx, hr⟩ := forall₂_mem_left h.flip hy
  exact ⟨x, hx, hr⟩

end Beside

end List
