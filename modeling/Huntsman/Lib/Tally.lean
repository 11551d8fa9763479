import Mathlib.Algebra.Order.BigOperators.Group.Finset
import Mathlib.Algebra.Ring.Nat
import Std.Data.TreeMap

/-!
# Sums over the entries of a map

`tally weight m` adds up the weights of the entries of a map: how many of its entries are of one
kind, what they cost together, how large they are together.

A tally depends on the entries only (`tally_congr`), and replacing one entry changes it by the
difference of two weights (`tally_insert`).
-/

set_option autoImplicit false

universe u v

open Std

variable {κ : Type u} {β : Type v} {cmp : κ → κ → Ordering}

/-- The sum of the weights of the entries of a map. -/
def tally (weight : κ → β → ℕ) (m : TreeMap κ β cmp) : ℕ :=
  (m.toList.map fun e ↦ weight e.1 e.2).sum

/-- The weight of the entry at a key, none being nothing. -/
def weighAt (weight : κ → β → ℕ) (m : TreeMap κ β cmp) (k : κ) : ℕ :=
  (m[k]?).elim 0 (weight k)

variable {weight : κ → β → ℕ} {m : TreeMap κ β cmp} {k : κ}

theorem weighAt_of_some {v : β} (h : m[k]? = some v) : weighAt weight m k = weight k v := by
  rw [weighAt, h, Option.elim_some]

variable [TransCmp cmp]

theorem weighAt_of_not_mem (h : k ∉ m) : weighAt weight m k = 0 := by
  rw [weighAt, TreeMap.getElem?_eq_none h, Option.elim_none]

variable [DecidableEq κ] [LawfulEqCmp cmp]

theorem weighAt_insert (v : β) (j : κ) :
    weighAt weight (m.insert k v) j = if j = k then weight k v else weighAt weight m j := by
  rw [weighAt, TreeMap.getElem?_insert]
  by_cases h : j = k
  · subst h
    simp
  · simp [h, Ne.symm h, weighAt]

/-- A tally is a sum over any finite set that has every key. -/
theorem tally_eq_sum (S : Finset κ) (h : ∀ k, k ∈ m → k ∈ S) :
    tally weight m = ∑ k ∈ S, weighAt weight m k := by
  have hlist : m.toList.map (fun e ↦ weight e.1 e.2) = m.keys.map (weighAt weight m) := by
    rw [← TreeMap.map_fst_toList_eq_keys, List.map_map]
    refine List.map_congr_left ?_
    rintro ⟨k, v⟩ hkv
    exact (weighAt_of_some (TreeMap.mem_toList_iff_getElem?_eq_some.1 hkv)).symm
  have hnodup : m.keys.Nodup := by
    rw [List.Nodup]
    exact TreeMap.distinct_keys.imp fun hne heq ↦ hne (by simp [heq])
  have hsub : m.keys.toFinset ⊆ S := by
    intro k hk
    exact h k (TreeMap.mem_keys.1 (List.mem_toFinset.1 hk))
  rw [tally, hlist, ← List.sum_toFinset _ hnodup]
  refine Finset.sum_subset hsub ?_
  intro k _ hk
  refine weighAt_of_not_mem fun hmem ↦ hk ?_
  exact List.mem_toFinset.2 (TreeMap.mem_keys.2 hmem)

/-- **A tally depends on the entries only.** -/
theorem tally_congr {β' : Type v} {weight' : κ → β' → ℕ} {m' : TreeMap κ β' cmp}
    (h : ∀ k, weighAt weight m k = weighAt weight' m' k) : tally weight m = tally weight' m' := by
  rw [tally_eq_sum (m.keys.toFinset ∪ m'.keys.toFinset),
    tally_eq_sum (m.keys.toFinset ∪ m'.keys.toFinset)]
  · exact Finset.sum_congr rfl fun k _ ↦ h k
  all_goals
    intro k hk
    simp [TreeMap.mem_keys, hk]

/-- **Replacing an entry** changes a tally by the difference of the two weights. -/
theorem tally_insert (weight : κ → β → ℕ) {old : β} (h : m[k]? = some old) (v : β) :
    tally weight (m.insert k v) + weight k old = tally weight m + weight k v := by
  have hk : k ∈ m.keys.toFinset := by
    rw [List.mem_toFinset, TreeMap.mem_keys, TreeMap.mem_iff_isSome_getElem?, h]
    rfl
  rw [tally_eq_sum m.keys.toFinset, tally_eq_sum (m := m) m.keys.toFinset,
    ← Finset.add_sum_erase _ _ hk, ← Finset.add_sum_erase (a := k) _ (weighAt weight m) hk,
    weighAt_insert, if_pos rfl, weighAt_of_some h]
  · have hrest : ∑ j ∈ m.keys.toFinset.erase k, weighAt weight (m.insert k v) j
        = ∑ j ∈ m.keys.toFinset.erase k, weighAt weight m j := by
      refine Finset.sum_congr rfl fun j hj ↦ ?_
      rw [weighAt_insert, if_neg (Finset.ne_of_mem_erase hj)]
    omega
  · intro j hj
    simp [TreeMap.mem_keys, hj]
  · intro j hj
    rw [TreeMap.mem_insert] at hj
    rcases hj with hj | hj
    · rw [LawfulEqCmp.compare_eq_iff_eq] at hj
      exact hj ▸ hk
    · simp [TreeMap.mem_keys, hj]

/-- Replacing an entry by one that weighs the same changes no tally. -/
theorem tally_insert_same (weight : κ → β → ℕ) {old : β} (h : m[k]? = some old) {v : β}
    (hv : weight k v = weight k old) : tally weight (m.insert k v) = tally weight m := by
  have := tally_insert weight h v
  omega
