import Mathlib.Data.List.Induction
import Mathlib.Data.List.Nodup
import Mathlib.Order.Basic

/-!
# Folding what is the same together

A list of records without repetitions is made by adding one record at a time: into the first that is
the same, and else at the end (`add`).  "The same" is any test; it need not be transitive, and may
change with what was folded in.  Two rules describe such a list.

* When combining two records loses nothing of either, in a sense `Covers` that is transitive, then
  nothing that was added is lost (`add_covers`, `foldl_add_covers`).
* When being the same is having the same key, the list has one record for each key, in the order in
which the keys came (`foldl_add_keys`), and each is the combination of all that were added under its
key (`foldl_add_grouped`).  Of a list that ascends these are the keys of the least records
(`eraseDups_map`).
-/

set_option autoImplicit false

namespace Groups

open List

variable {α κ : Type*}

/-- Fold a record into the first that is the same, else put it at the end. -/
def add (same : α → α → Bool) (combine : α → α → α) : List α → α → List α
  | [], x => [x]
  | y :: ys, x => if same y x then combine y x :: ys else y :: add same combine ys x

variable {same : α → α → Bool} {combine : α → α → α}

/-! ## Losing nothing -/

section Covers

variable {Covers : α → α → Prop}

/-- Each record of `ys` is covered by one of `zs`. -/
def CoversAll (Covers : α → α → Prop) (zs ys : List α) : Prop := ∀ y ∈ ys, ∃ z ∈ zs, Covers z y

theorem CoversAll.refl (hrefl : ∀ x, Covers x x) (ys : List α) : CoversAll Covers ys ys :=
  fun y hy ↦ ⟨y, hy, hrefl y⟩

theorem CoversAll.trans (htrans : ∀ x y z, Covers x y → Covers y z → Covers x z)
    {xs ys zs : List α} (h : CoversAll Covers xs ys) (h' : CoversAll Covers ys zs) :
    CoversAll Covers xs zs := by
  intro z hz
  obtain ⟨y, hy, hyz⟩ := h' z hz
  obtain ⟨x, hx, hxy⟩ := h y hy
  exact ⟨x, hx, htrans x y z hxy hyz⟩

theorem add_covers (hrefl : ∀ x, Covers x x)
    (hcombine : ∀ y x, same y x = true → Covers (combine y x) y ∧ Covers (combine y x) x)
    (ys : List α) (x : α) : CoversAll Covers (add same combine ys x) (x :: ys) := by
  induction ys with
  | nil => exact CoversAll.refl hrefl [x]
  | cons y ys ih =>
    rw [add]
    split
    · rename_i hsame
      obtain ⟨hy, hx⟩ := hcombine y x hsame
      intro z hz
      rw [mem_cons, mem_cons] at hz
      rcases hz with rfl | rfl | hz
      · exact ⟨_, (.head _), hx⟩
      · exact ⟨_, (.head _), hy⟩
      · exact ⟨z, .tail _ hz, hrefl z⟩
    · intro z hz
      rw [mem_cons, mem_cons] at hz
      rcases hz with rfl | rfl | hz
      · obtain ⟨kept, hkept, hcovers⟩ := ih z (.head _)
        exact ⟨kept, .tail _ hkept, hcovers⟩
      · exact ⟨z, (.head _), hrefl z⟩
      · obtain ⟨kept, hkept, hcovers⟩ := ih z (.tail _ hz)
        exact ⟨kept, .tail _ hkept, hcovers⟩

/-- **Nothing is lost.**  Whatever was there and whatever was added is covered in the end. -/
theorem foldl_add_covers (hrefl : ∀ x, Covers x x)
    (htrans : ∀ x y z, Covers x y → Covers y z → Covers x z)
    (hcombine : ∀ y x, same y x = true → Covers (combine y x) y ∧ Covers (combine y x) x)
    (xs ys : List α) : CoversAll Covers (xs.foldl (add same combine) ys) (ys ++ xs) := by
  induction xs generalizing ys with
  | nil =>
    rw [append_nil]
    exact CoversAll.refl hrefl ys
  | cons x xs ih =>
    refine (ih (add same combine ys x)).trans htrans fun z hz ↦ ?_
    have hone := add_covers hrefl hcombine ys x
    rw [mem_append, mem_cons] at hz
    rcases hz with hz | rfl | hz
    · obtain ⟨kept, hkept, hcovers⟩ := hone z (.tail _ hz)
      exact ⟨kept, mem_append_left _ hkept, hcovers⟩
    · obtain ⟨kept, hkept, hcovers⟩ := hone z (.head _)
      exact ⟨kept, mem_append_left _ hkept, hcovers⟩
    · exact ⟨z, mem_append_right _ hz, hrefl z⟩

end Covers

/-! ## Grouping by a key -/

section Keyed

variable [DecidableEq κ] {key : α → κ}

/-- Fold a record into the first with its key. -/
abbrev addByKey (key : α → κ) (combine : α → α → α) : List α → α → List α :=
  add (fun y x ↦ key y = key x) combine

theorem addByKey_keys (hkey : ∀ y x, key y = key x → key (combine y x) = key y) (ys : List α)
    (x : α) : (addByKey key combine ys x).map key =
      if key x ∈ ys.map key then ys.map key else ys.map key ++ [key x] := by
  induction ys with
  | nil => rfl
  | cons y ys ih =>
    rw [addByKey, add]
    by_cases hsame : key y = key x
    · rw [if_pos (decide_eq_true hsame), map_cons, map_cons, hkey y x hsame,
        if_pos (hsame ▸ (.head _))]
    · rw [if_neg (by simpa using hsame), map_cons, map_cons]
      rw [addByKey] at ih
      have hmem : key x ∈ key y :: ys.map key ↔ key x ∈ ys.map key := by
        rw [mem_cons, or_iff_right (Ne.symm hsame)]
      rw [ih, ite_cond_congr (propext hmem)]
      split <;> rfl

/-- No key twice. -/
theorem foldl_add_nodup (hkey : ∀ y x, key y = key x → key (combine y x) = key y) (xs : List α) :
    ((xs.foldl (addByKey key combine) []).map key).Nodup := by
  induction xs using reverseRecOn with
  | nil => exact nodup_nil
  | append_singleton xs x ih =>
    rw [foldl_append, foldl_cons, foldl_nil, addByKey_keys hkey]
    split
    · exact ih
    · rename_i hnew
      rw [← concat_eq_append]
      exact ih.concat hnew

/-- A record with a key of its own is put at the end. -/
theorem addByKey_new {ys : List α} {x : α} (h : key x ∉ ys.map key) :
    addByKey key combine ys x = ys ++ [x] := by
  induction ys with
  | nil => rfl
  | cons y ys ih =>
    rw [map_cons, mem_cons, not_or] at h
    rw [addByKey, add, if_neg (by simpa using Ne.symm h.1), cons_append]
    exact congrArg (y :: ·) (ih h.2)

/-- Records with one of each key are left as they are. -/
theorem foldl_add_of_nodup {xs : List α} (h : (xs.map key).Nodup) :
    xs.foldl (addByKey key combine) [] = xs := by
  induction xs using reverseRecOn with
  | nil => rfl
  | append_singleton xs x ih =>
    rw [map_append, nodup_append] at h
    rw [foldl_append, foldl_cons, foldl_nil, ih h.1]
    exact addByKey_new fun hx ↦ h.2.2 _ hx _ (.head _) rfl

/-- Grouping twice is grouping once. -/
theorem foldl_add_foldl_add (hkey : ∀ y x, key y = key x → key (combine y x) = key y) (xs : List α) :
    (xs.foldl (addByKey key combine) []).foldl (addByKey key combine) [] =
      xs.foldl (addByKey key combine) [] :=
  foldl_add_of_nodup (foldl_add_nodup hkey xs)

/-- **One record for each key**, in the order in which the keys came. -/
theorem foldl_add_keys (hkey : ∀ y x, key y = key x → key (combine y x) = key y) (xs : List α) :
    (xs.foldl (addByKey key combine) []).map key = (xs.map key).eraseDups := by
  induction xs using reverseRecOn with
  | nil => rfl
  | append_singleton xs x ih =>
    rw [foldl_append, foldl_cons, foldl_nil, addByKey_keys hkey, ih, map_append,
      eraseDups_append, map_singleton, removeAll]
    split
    · rename_i hmem
      rw [mem_eraseDups] at hmem
      have hnone : [key x].filter (fun k ↦ !(xs.map key).elem k) = [] := by
        rw [filter_cons_of_neg (by simpa using hmem), filter_nil]
      rw [hnone, eraseDups_nil, append_nil]
    · rename_i hnew
      rw [mem_eraseDups] at hnew
      have hall : [key x].filter (fun k ↦ !(xs.map key).elem k) = [key x] := by
        rw [filter_cons_of_pos, filter_nil]
        rw [Bool.not_eq_true', ← Bool.not_eq_true]
        exact fun hmem ↦ hnew (mem_of_elem_eq_true hmem)
      rw [hall]
      rfl

theorem mem_addByKey {ys : List α} (hnodup : (ys.map key).Nodup) {x z : α}
    (hz : z ∈ addByKey key combine ys x) :
    (z ∈ ys ∧ key z ≠ key x) ∨ (∃ y ∈ ys, key y = key x ∧ z = combine y x) ∨
      (z = x ∧ key x ∉ ys.map key) := by
  induction ys with
  | nil => exact .inr (.inr ⟨mem_singleton.1 hz, not_mem_nil⟩)
  | cons y ys ih =>
    rw [map_cons, nodup_cons] at hnodup
    rw [addByKey, add] at hz
    by_cases hsame : key y = key x
    · rw [if_pos (decide_eq_true hsame), mem_cons] at hz
      rcases hz with rfl | hz
      · exact .inr (.inl ⟨y, (.head _), hsame, rfl⟩)
      · refine .inl ⟨.tail _ hz, fun hx ↦ hnodup.1 ?_⟩
        rw [hsame, ← hx]
        exact mem_map_of_mem hz
    · rw [if_neg (by simpa using hsame), mem_cons] at hz
      rcases hz with rfl | hz
      · exact .inl ⟨(.head _), hsame⟩
      · rcases ih hnodup.2 hz with ⟨hmem, hne⟩ | ⟨y', hmem, hkey, rfl⟩ | ⟨rfl, hnot⟩
        · exact .inl ⟨.tail _ hmem, hne⟩
        · exact .inr (.inl ⟨y', .tail _ hmem, hkey, rfl⟩)
        · refine .inr (.inr ⟨rfl, ?_⟩)
          rw [map_cons, mem_cons, not_or]
          exact ⟨Ne.symm hsame, hnot⟩

/-- **Each record is the combination of those with its key**, in whatever sense `Made` survives
combining with one more. -/
theorem foldl_add_grouped {Made : α → List α → Prop}
    (hkey : ∀ y x, key y = key x → key (combine y x) = key y) (hone : ∀ x, Made x [x])
    (hmore : ∀ y x made, key y = key x → Made y made → Made (combine y x) (made ++ [x]))
    (xs : List α) : ∀ z ∈ xs.foldl (addByKey key combine) [],
      Made z (xs.filter fun x ↦ key x = key z) := by
  induction xs using reverseRecOn with
  | nil => exact nofun
  | append_singleton xs x ih =>
    intro z hz
    have hkeys := foldl_add_keys hkey xs
    rw [foldl_append, foldl_cons, foldl_nil] at hz
    rw [filter_append]
    rcases mem_addByKey (foldl_add_nodup hkey xs) hz with ⟨hmem, hne⟩ | ⟨y, hmem, hsame, rfl⟩ | ⟨rfl, hnot⟩
    · have hnone : [x].filter (fun x ↦ key x = key z) = [] := by
        simpa using Ne.symm hne
      rw [hnone, append_nil]
      exact ih z hmem
    · have hall : [x].filter (fun x' ↦ key x' = key (combine y x)) = [x] := by
        simp [hkey y x hsame, hsame]
      rw [hall, hkey y x hsame]
      exact hmore y x _ hsame (ih y hmem)
    · have hnone : xs.filter (fun x' ↦ key x' = key z) = [] := by
        rw [filter_eq_nil_iff]
        intro x' hx' hsame
        rw [hkeys] at hnot
        refine hnot ?_
        rw [← of_decide_eq_true hsame, mem_eraseDups]
        exact mem_map_of_mem hx'
      have hall : [z].filter (fun x' ↦ key x' = key z) = [z] := by simp
      rw [hnone, hall]
      exact hone z

/-- The keys of an ascending list, in the order in which they come: each comes with the least that
has it. -/
theorem eraseDups_map [Preorder α] [DecidableLT α] {xs : List α} (hxs : xs.Pairwise (· < ·)) :
    (xs.map key).eraseDups = (xs.filter fun x ↦ ∀ y ∈ xs, y < x → key y ≠ key x).map key := by
  induction xs using reverseRecOn with
  | nil => rfl
  | append_singleton xs x ih =>
    obtain ⟨hpairs, -, hlast⟩ := pairwise_append.1 hxs
    have hless : ∀ y ∈ xs, y < x := fun y hy ↦ hlast y hy x (mem_singleton_self x)
    have hfirst : xs.filter (fun z ↦ ∀ y ∈ xs ++ [x], y < z → key y ≠ key z)
        = xs.filter fun z ↦ ∀ y ∈ xs, y < z → key y ≠ key z := by
      refine filter_congr fun z hz ↦ decide_eq_decide.2 ⟨fun h y hy ↦ ?_, fun h y hy hyz ↦ ?_⟩
      · exact h y (mem_append_left _ hy)
      · rcases mem_append.1 hy with hy | hy
        · exact h y hy hyz
        · obtain rfl := mem_singleton.1 hy
          exact absurd hyz (lt_asymm (hless z hz))
    rw [map_append, eraseDups_append, ih hpairs, filter_append, map_append,
      hfirst, map_singleton, removeAll]
    congr 1
    by_cases hmem : key x ∈ xs.map key
    · obtain ⟨y, hy, hkey⟩ := mem_map.1 hmem
      rw [filter_cons_of_neg (by simpa using ⟨y, hy, hkey⟩), filter_cons_of_neg]
      · rfl
      · rw [decide_eq_true_eq]
        exact fun h ↦ h y (mem_append_left _ hy) (hless y hy) hkey
    · rw [filter_cons_of_pos (by simpa using hmem), filter_cons_of_pos]
      · rfl
      · rw [decide_eq_true_eq]
        intro y hy hyx hkey
        rcases mem_append.1 hy with hy | hy
        · exact hmem (hkey ▸ mem_map_of_mem hy)
        · exact lt_irrefl x (mem_singleton.1 hy ▸ hyx)

end Keyed

/-! ## First occurrences -/

section Firsts

variable [BEq α] [LawfulBEq α]

theorem eraseDups_concat (xs : List α) (x : α) :
    (xs ++ [x]).eraseDups = if x ∈ xs then xs.eraseDups else xs.eraseDups ++ [x] := by
  rw [eraseDups_append, removeAll]
  by_cases h : x ∈ xs
  · rw [if_pos h, filter_cons_of_neg (by simpa using h), filter_nil, eraseDups_nil,
      append_nil]
  · rw [if_neg h, filter_cons_of_pos (by simpa using h), filter_nil]
    rfl

theorem nodup_eraseDups (xs : List α) : xs.eraseDups.Nodup := by
  induction xs using reverseRecOn with
  | nil => exact nodup_nil
  | append_singleton xs x ih =>
    rw [eraseDups_concat]
    split
    · exact ih
    · rename_i h
      exact ih.append (nodup_singleton x)
        (disjoint_singleton.2 fun hmem ↦ h (mem_eraseDups.1 hmem))

theorem eraseDups_of_nodup {xs : List α} (h : xs.Nodup) : xs.eraseDups = xs := by
  induction xs using reverseRecOn with
  | nil => rfl
  | append_singleton xs x ih =>
    obtain ⟨hxs, -, hnot⟩ := nodup_append'.1 h
    rw [eraseDups_concat, if_neg (disjoint_singleton.1 hnot), ih hxs]

theorem length_eraseDups_le (xs : List α) : xs.eraseDups.length ≤ xs.length := by
  induction xs using reverseRecOn with
  | nil => exact Nat.le_refl _
  | append_singleton xs x ih =>
    rw [eraseDups_concat, length_append, length_singleton]
    split
    · exact Nat.le_succ_of_le ih
    · rw [length_append, length_singleton]
      exact Nat.succ_le_succ ih

/-- Only a list without repetitions has as many first occurrences as elements. -/
theorem length_eraseDups_eq_iff {xs : List α} : xs.eraseDups.length = xs.length ↔ xs.Nodup := by
  induction xs using reverseRecOn with
  | nil => exact iff_of_true rfl nodup_nil
  | append_singleton xs x ih =>
    rw [eraseDups_concat, length_append, length_singleton]
    by_cases h : x ∈ xs
    · have hle := length_eraseDups_le xs
      rw [if_pos h]
      refine iff_of_false (by omega) fun hnodup ↦ ?_
      exact disjoint_singleton.1 (nodup_append'.1 hnodup).2.2 h
    · rw [if_neg h, length_append, length_singleton, Nat.add_right_cancel_iff, ih]
      refine ⟨fun hnodup ↦ ?_, fun hnodup ↦ (nodup_append'.1 hnodup).1⟩
      exact hnodup.append (nodup_singleton x) (disjoint_singleton.2 h)

end Firsts

end Groups
