import Mathlib.Data.Finset.Pairwise
import Mathlib.Order.Lattice.Nat

/-!
# The largest pairwise related subset

`cliqueNumber r s` is how many elements of `s` can be chosen so that any two of them are related.
Every number up to it can be chosen (`exists_card_eq`), and choosing from a list without repetitions
is choosing a sublist (`exists_sublist_iff`).
-/

set_option autoImplicit false

universe u

namespace Cliques

open Finset

variable {α : Type u} {r : α → α → Prop} {s t : Finset α} {k : ℕ}

open Classical in
/-- The size of the largest subset of which any two elements are related. -/
noncomputable def cliqueNumber (r : α → α → Prop) (s : Finset α) : ℕ :=
  (s.powerset.filter fun t : Finset α ↦ (t : Set α).Pairwise r).sup Finset.card

theorem card_le_cliqueNumber (hsub : t ⊆ s) (hpairs : (t : Set α).Pairwise r) :
    t.card ≤ cliqueNumber r s := by
  classical
  exact le_sup (f := card)
    (mem_filter.2 ⟨mem_powerset.2 hsub, hpairs⟩)

theorem exists_eq_cliqueNumber (r : α → α → Prop) (s : Finset α) :
    ∃ t ⊆ s, (t : Set α).Pairwise r ∧ t.card = cliqueNumber r s := by
  classical
  have hempty : (s.powerset.filter fun t : Finset α ↦ (t : Set α).Pairwise r).Nonempty :=
    ⟨∅, mem_filter.2 ⟨empty_mem_powerset s, by simp⟩⟩
  obtain ⟨t, ht, hcard⟩ := exists_mem_eq_sup _ hempty card
  rw [mem_filter, mem_powerset] at ht
  exact ⟨t, ht.1, ht.2, hcard.symm⟩

theorem cliqueNumber_le_card (r : α → α → Prop) (s : Finset α) : cliqueNumber r s ≤ s.card := by
  obtain ⟨t, hsub, -, hcard⟩ := exists_eq_cliqueNumber r s
  exact hcard ▸ card_le_card hsub

/-- One element is related to all the others. -/
theorem cliqueNumber_pos (h : s.Nonempty) : 1 ≤ cliqueNumber r s := by
  obtain ⟨a, ha⟩ := h
  rw [← card_singleton a]
  exact card_le_cliqueNumber (singleton_subset_iff.2 ha) (by simp)

/-- **A part of what was chosen is chosen too.** -/
theorem exists_card_eq (hk : k ≤ cliqueNumber r s) :
    ∃ t ⊆ s, (t : Set α).Pairwise r ∧ t.card = k := by
  obtain ⟨t, hsub, hpairs, hcard⟩ := exists_eq_cliqueNumber r s
  obtain ⟨t', hsub', hcard'⟩ := exists_subset_card_eq (hcard.symm ▸ hk : k ≤ t.card)
  exact ⟨t', hsub'.trans hsub, hpairs.mono (coe_subset.2 hsub'), hcard'⟩

/-- Choosing from a list is choosing a sublist. -/
theorem exists_sublist_iff [DecidableEq α] {l : List α}
    (hsymm : ∀ a ∈ l, ∀ b ∈ l, r a b → r b a) (hl : l.Nodup) :
    (∃ chosen : List α, chosen.Sublist l ∧ chosen.length = k ∧ chosen.Pairwise r) ↔
      k ≤ cliqueNumber r l.toFinset := by
  constructor
  · rintro ⟨chosen, hsub, rfl, hpairs⟩
    rw [← List.toFinset_card_of_nodup (hl.sublist hsub)]
    refine card_le_cliqueNumber ?_ ?_
    · intro a ha
      rw [List.mem_toFinset] at ha ⊢
      exact hsub.subset ha
    · intro a ha b hb hne
      rw [mem_coe, List.mem_toFinset] at ha hb
      have hboth : chosen.Pairwise fun a b ↦ r a b ∧ r b a := hpairs.imp_of_mem fun ha hb hab ↦
        ⟨hab, hsymm _ (hsub.subset ha) _ (hsub.subset hb) hab⟩
      have : Std.Symm fun a b ↦ r a b ∧ r b a := ⟨fun _ _ ↦ And.symm⟩
      exact (hboth.forall ha hb hne).1
  · intro hk
    obtain ⟨t, hsub, hpairs, hcard⟩ := exists_card_eq hk
    have hmem : ∀ {a}, a ∈ l.filter (· ∈ t) ↔ a ∈ t := by
      intro a
      rw [List.mem_filter, decide_eq_true_eq]
      exact and_iff_right_of_imp fun ha ↦ List.mem_toFinset.1 (hsub ha)
    have hnodup : (l.filter (· ∈ t)).Nodup := hl.filter _
    refine ⟨l.filter (· ∈ t), List.filter_sublist, ?_, ?_⟩
    · rw [← List.toFinset_card_of_nodup hnodup, ← hcard]
      congr 1
      ext a
      rw [List.mem_toFinset, hmem]
    · exact hnodup.pairwise_of_forall_ne fun a ha b hb hne ↦ hpairs (hmem.1 ha) (hmem.1 hb) hne

end Cliques
