import Mathlib.Data.List.AList
import Mathlib.Data.List.MinMax

/-!
# Maps that are gone through in no particular order

A hash map lists its entries in an order of its own, which may be another one each time.  An
`Iteration` is such an order, and what is proved for all of them does not depend on it.

`AList.minByKey` goes through a map for the entry whose key is least.
-/

set_option autoImplicit false

universe u v w

/-- An order in which the elements of a list can be gone through. -/
structure Iteration (α : Type u) where
  order : List α → List α
  perm : ∀ elements, (order elements).Perm elements

/-- The order they are listed in. -/
def Iteration.asListed (α : Type u) : Iteration α := ⟨id, fun _ ↦ .refl _⟩

namespace AList

variable {κ : Type u} {ν : κ → Type v} {γ : Type w} [LinearOrder γ]

/-- `iter().min_by_key(key)` -/
def minByKey (m : AList ν) (iteration : Iteration (Sigma ν)) (key : Sigma ν → γ) :
    Option (Sigma ν) :=
  (iteration.order m.entries).argmin key

variable {m : AList ν} {iteration : Iteration (Sigma ν)} {key : Sigma ν → γ} {entry : Sigma ν}

theorem minByKey_mem (h : m.minByKey iteration key = some entry) : entry ∈ m.entries :=
  (iteration.perm _).mem_iff.1 (List.argmin_mem h)

theorem minByKey_le (h : m.minByKey iteration key = some entry) {other : Sigma ν}
    (hother : other ∈ m.entries) : key entry ≤ key other :=
  List.le_of_mem_argmin ((iteration.perm _).mem_iff.2 hother) h

theorem minByKey_eq_none : m.minByKey iteration key = none ↔ m.entries = [] := by
  rw [minByKey, List.argmin_eq_none]
  have hperm := iteration.perm m.entries
  exact ⟨fun h ↦ (h ▸ hperm).symm.eq_nil, fun h ↦ (hperm.trans (.of_eq h)).eq_nil⟩

/-- A map with an entry has a least one. -/
theorem exists_minByKey (iteration : Iteration (Sigma ν)) (key : Sigma ν → γ) (h : m.entries ≠ []) :
    ∃ entry, m.minByKey iteration key = some entry :=
  Option.ne_none_iff_exists'.1 (mt minByKey_eq_none.1 h)

end AList
