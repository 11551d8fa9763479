import Mathlib.Combinatorics.SimpleGraph.Finite

/-!
# Cores of a graph

A set of nodes is a `k`-core of a graph when each of them has at least `k` neighbours in it, and the
core number of a node is the largest `k` such that it lies in a `k`-core (`IsCoreNumber`).

Peeling finds core numbers.  It takes nodes away one at a time, always one of least degree, and when
it has taken one it lowers the degrees of those of its neighbours whose degree is greater.  The
degree that a node is taken with is its core number: `Peeling.take` is one step of this, and
`Peeling.done` is what it comes to.
-/

set_option autoImplicit false

namespace Cores

open Finset

variable {V : Type*} (G : SimpleGraph V) [DecidableRel G.Adj]

/-- How many neighbours a node has in a set. -/
def degreeIn (S : Finset V) (v : V) : ℕ := (S.filter (G.Adj v)).card

/-- Each node of the set has at least `k` neighbours in it. -/
def IsCore (k : ℕ) (S : Finset V) : Prop := ∀ v ∈ S, k ≤ degreeIn G S v

/-- The largest `k` such that the node lies in a set of nodes that each have at least `k` neighbours
in the set. -/
def IsCoreNumber (v : V) (k : ℕ) : Prop := IsGreatest {k | ∃ S, v ∈ S ∧ IsCore G k S} k

variable {G}

theorem degreeIn_mono {S T : Finset V} (h : S ⊆ T) (v : V) : degreeIn G S v ≤ degreeIn G T v :=
  card_le_card (filter_subset_filter _ h)

/-- A peeling under way: which nodes are left, the degree of the last one taken, and the degrees. -/
structure Peeling (G : SimpleGraph V) [DecidableRel G.Adj] (left : Finset V) (level : ℕ)
    (degree : V → ℕ) : Prop where
  /-- A node that is left has as many neighbours left as its degree says, down to the level. -/
  degree_eq : ∀ v ∈ left, degree v = max (degreeIn G left v) level
  /-- The nodes that are left lie in a core of the level. -/
  core : ∃ S, left ⊆ S ∧ IsCore G level S
  /-- A core in which a node was taken is of no higher level. -/
  bound : ∀ k S, IsCore G k S → ¬S ⊆ left → k ≤ level
  taken : ∀ v ∉ left, IsCoreNumber G v (degree v) ∧ degree v ≤ level

theorem Peeling.begin [Fintype V] {degree : V → ℕ}
    (h : ∀ v, degree v = degreeIn G Finset.univ v) : Peeling G Finset.univ 0 degree where
  degree_eq := fun v _ ↦ by rw [h, Nat.max_zero]
  core := ⟨univ, Finset.Subset.refl _, fun _ _ ↦ Nat.zero_le _⟩
  bound := fun _ S _ hS ↦ absurd (subset_univ S) hS
  taken := fun v hv ↦ absurd (mem_univ v) hv

variable {left : Finset V} {level : ℕ} {degree : V → ℕ}

/-- No degree that is left is below the level. -/
theorem Peeling.level_le (h : Peeling G left level degree) {v : V} (hv : v ∈ left) :
    level ≤ degree v := by
  rw [h.degree_eq v hv]
  exact Nat.le_max_right _ _

/-- **When no node is left every degree is a core number.** -/
theorem Peeling.done (h : Peeling G ∅ level degree) (v : V) : IsCoreNumber G v (degree v) :=
  (h.taken v (notMem_empty v)).1

/-- **The degree that a node is taken with is its core number.** -/
theorem Peeling.isCoreNumber (h : Peeling G left level degree) {v : V} (hv : v ∈ left)
    (hleast : ∀ u ∈ left, degree v ≤ degree u) : IsCoreNumber G v (degree v) := by
  refine ⟨?_, ?_⟩
  · -- Above the level those that are left are a core, and at the level they lie in one.
    rcases Nat.eq_or_lt_of_le (h.level_le hv) with heq | hlt
    · obtain ⟨S, hS, hcore⟩ := h.core
      exact ⟨S, hS hv, heq ▸ hcore⟩
    · refine ⟨left, hv, fun u hu ↦ ?_⟩
      have hdegree := h.degree_eq u hu
      have := hleast u hu
      omega
  · rintro k ⟨S, hvS, hcore⟩
    by_cases hS : S ⊆ left
    · calc k ≤ degreeIn G S v := hcore v hvS
        _ ≤ degreeIn G left v := degreeIn_mono hS v
        _ ≤ degree v := by
          rw [h.degree_eq v hv]
          exact Nat.le_max_left _ _
    · exact (h.bound k S hcore hS).trans (h.level_le hv)

/-- The degrees when a node has been taken. -/
def lowered (G : SimpleGraph V) [DecidableRel G.Adj] (degree : V → ℕ) (v u : V) : ℕ :=
  if G.Adj v u ∧ degree v < degree u then degree u - 1 else degree u

variable [DecidableEq V]

theorem degreeIn_insert {S : Finset V} {u : V} (hu : u ∉ S) (v : V) :
    degreeIn G (insert u S) v = degreeIn G S v + if G.Adj v u then 1 else 0 := by
  rw [degreeIn, filter_insert]
  split
  · rw [card_insert_of_notMem fun h ↦ hu (mem_filter.1 h).1]
    rfl
  · rfl

/-- **Taking a node of least degree.** -/
theorem Peeling.take (h : Peeling G left level degree) {v : V} (hv : v ∈ left)
    (hleast : ∀ u ∈ left, degree v ≤ degree u) :
    Peeling G (left.erase v) (degree v) (lowered G degree v) where
  degree_eq := by
    intro u hu
    obtain ⟨hne, hu⟩ := mem_erase.1 hu
    have hold := h.degree_eq u hu
    have hlevel := h.level_le hv
    have hsplit : degreeIn G left u = degreeIn G (left.erase v) u + if G.Adj u v then 1 else 0 := by
      rw [← degreeIn_insert (notMem_erase v left), insert_erase hv]
    have := hleast u hu
    rw [lowered]
    by_cases hadj : G.Adj v u
    · rw [if_pos hadj.symm] at hsplit
      by_cases hlt : degree v < degree u
      · rw [if_pos ⟨hadj, hlt⟩]
        omega
      · rw [if_neg fun h ↦ hlt h.2]
        omega
    · rw [if_neg fun h ↦ hadj h.symm] at hsplit
      rw [if_neg fun h ↦ hadj h.1]
      omega
  core := by
    rcases Nat.eq_or_lt_of_le (h.level_le hv) with heq | hlt
    · obtain ⟨S, hS, hcore⟩ := h.core
      exact ⟨S, (erase_subset _ _).trans hS, heq ▸ hcore⟩
    · refine ⟨left, erase_subset _ _, fun u hu ↦ ?_⟩
      have hdegree := h.degree_eq u hu
      have := hleast u hu
      omega
  bound := by
    intro k S hcore hS
    by_cases hsub : S ⊆ left
    · have hvS : v ∈ S := by
        by_contra hvS
        exact hS fun u hu ↦ mem_erase.2 ⟨fun heq ↦ hvS (heq ▸ hu), hsub hu⟩
      exact (h.isCoreNumber hv hleast).2 ⟨S, hvS, hcore⟩
    · exact (h.bound k S hcore hsub).trans (h.level_le hv)
  taken := by
    intro u hu
    by_cases heq : u = v
    · subst heq
      have hself : lowered G degree u u = degree u := if_neg fun h ↦ G.irrefl h.1
      rw [hself]
      exact ⟨h.isCoreNumber hv hleast, le_rfl⟩
    · have huleft : u ∉ left := fun hmem ↦ hu (mem_erase.2 ⟨heq, hmem⟩)
      obtain ⟨hnumber, hle⟩ := h.taken u huleft
      have hlevel := h.level_le hv
      have hsame : lowered G degree v u = degree u := if_neg fun h ↦ by omega
      rw [hsame]
      exact ⟨hnumber, hle.trans hlevel⟩

end Cores
