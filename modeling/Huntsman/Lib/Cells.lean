import Mathlib.Data.Fintype.Card

/-!
# Loops that write cells

An array that a loop writes is a function here, and a write is `Function.update`.  When each pass
writes one cell, from what it held, a cell ends as what the passes that write it make of it, in
their order (`foldl_update`).

Where it matters that an array is never read or written out of bounds, it is a list, and a write
answers `none` there (`write`).
-/

set_option autoImplicit false

universe u v w

open Function

namespace Cells

open List

variable {κ : Type u} {α : Type v} {β : Type w} [DecidableEq κ]

/-- **A cell is what the passes that write it make of it.** -/
theorem foldl_update (key : β → κ) (write : β → α → α) (passes : List β) (cells : κ → α) (k : κ) :
    passes.foldl (fun cells pass ↦ update cells (key pass) (write pass (cells (key pass)))) cells k =
      (passes.filter fun pass ↦ key pass = k).foldl (fun held pass ↦ write pass held) (cells k) := by
  induction passes generalizing cells with
  | nil => rfl
  | cons pass passes ih =>
    rw [foldl_cons, ih]
    by_cases h : key pass = k
    · rw [filter_cons_of_pos (by simpa using h), foldl_cons, h, update_self]
    · rw [filter_cons_of_neg (by simpa using h), update_of_ne (Ne.symm h)]

/-- A cell that counts the passes that write it. -/
theorem foldl_count (key : β → κ) (passes : List β) (k : κ) :
    passes.foldl (fun cells pass ↦ update cells (key pass) (cells (key pass) + 1)) (fun _ ↦ 0) k =
      (passes.filter fun pass ↦ key pass = k).length := by
  have hcount : ∀ (l : List β) (start : ℕ), l.foldl (fun held _ ↦ held + 1) start =
      start + l.length := by
    intro l
    induction l with
    | nil => exact fun _ ↦ rfl
    | cons _ l ih =>
      intro start
      rw [foldl_cons, ih, length_cons]
      omega
  rw [foldl_update key fun _ held ↦ held + 1, hcount, Nat.zero_add]

/-- What is put at the end one after the other stands there in order. -/
theorem foldl_concat (l start : List β) :
    l.foldl (fun held pass ↦ held ++ [pass]) start = start ++ l := by
  rw [foldl_append_eq_append, ← flatMap_def, flatMap_singleton']

/-- A cell that keeps the passes that write it. -/
theorem foldl_push (key : β → κ) (passes : List β) (k : κ) :
    passes.foldl (fun cells pass ↦ update cells (key pass) (cells (key pass) ++ [pass]))
      (fun _ ↦ []) k = passes.filter fun pass ↦ key pass = k := by
  rw [foldl_update key fun pass held ↦ held ++ [pass], foldl_concat, nil_append]

/-- How many of all indices pass a test. -/
theorem length_filter_finRange {n : ℕ} (p : Fin n → Prop) [DecidablePred p] :
    ((List.finRange n).filter fun i ↦ p i).length = (Finset.univ.filter p).card := by
  rw [← toFinset_card_of_nodup ((nodup_finRange n).filter _)]
  congr 1
  ext i
  simp

/-! ## Arrays with bounds -/

/-- Write a cell, unless it is out of bounds. -/
def write (xs : List α) (i : ℕ) (x : α) : Option (List α) :=
  if i < xs.length then some (xs.set i x) else none

/-- Count a cell up, unless it is out of bounds. -/
def bump (xs : List ℕ) (i : ℕ) : Option (List ℕ) := do
  let held ← xs[i]?
  write xs i (held + 1)

section Bounds

variable {n : ℕ}

theorem read_ofFn (f : Fin n → α) (i : Fin n) : (List.ofFn f)[(i : ℕ)]? = some (f i) := by
  rw [List.getElem?_ofFn, dif_pos i.2]

theorem write_ofFn (f : Fin n → α) (i : Fin n) (x : α) :
    write (List.ofFn f) i x = some (List.ofFn (update f i x)) := by
  rw [write, if_pos (by simp)]
  congr 1
  refine List.ext_getElem (by simp) fun j hj hj' ↦ ?_
  rw [List.length_ofFn] at hj'
  rw [List.getElem_set, List.getElem_ofFn, List.getElem_ofFn]
  by_cases h : (i : ℕ) = j
  · subst h
    rw [if_pos rfl, update_self]
  · rw [if_neg h, update_of_ne fun heq ↦ h (congrArg Fin.val heq).symm]

theorem bump_ofFn (f : Fin n → ℕ) (i : Fin n) :
    bump (List.ofFn f) i = some (List.ofFn (update f i (f i + 1))) := by
  rw [bump, read_ofFn]
  exact write_ofFn f i _

/-- Counting a cell up for every pass. -/
theorem foldlM_bump (passes : List (Fin n)) : ∀ f : Fin n → ℕ,
    (passes.map Fin.val).foldlM bump (List.ofFn f) =
      some (List.ofFn (passes.foldl (fun f i ↦ update f i (f i + 1)) f)) := by
  induction passes with
  | nil => exact fun _ ↦ rfl
  | cons i passes ih =>
    intro f
    rw [map_cons, foldlM_cons, bump_ofFn]
    exact ih _

/-- A list of what is read at every index lists a function. -/
theorem mapM_range {g : ℕ → Option α} {f : Fin n → α} (h : ∀ i : Fin n, g i = some (f i)) :
    (List.range n).mapM g = some (List.ofFn f) := by
  have hmap : ∀ l : List (Fin n), (l.map Fin.val).mapM g = some (l.map f) := by
    intro l
    induction l with
    | nil => rfl
    | cons i l ih => rw [map_cons, mapM_cons, h, ih]; rfl
  rw [← map_coe_finRange_eq_range, hmap, ofFn_eq_map]

end Bounds

end Cells
