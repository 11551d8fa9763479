import Mathlib.Combinatorics.SimpleGraph.Connectivity.Connected
import Mathlib.SetTheory.Cardinal.Finite

/-!
# What falls apart when a vertex or an edge is taken out of a graph

Taking a vertex out leaves more connected components than there were exactly when two neighbours of
the vertex are separated by it, and taking an edge out exactly when the ends of the edge are.
-/

set_option autoImplicit false

universe u

namespace Separation

variable {V : Type u} {G H : SimpleGraph V} {v x y : V}

/-- A set that no edge leaves is not left. -/
theorem not_reachable (S : V → Prop) (closed : ∀ x y, H.Adj x y → S x → S y) (hx : S x) (hy : ¬ S y) :
    ¬ H.Reachable x y := by
  intro h
  rw [SimpleGraph.reachable_iff_reflTransGen] at h
  apply hy
  clear hy
  induction h with
  | refl => exact hx
  | tail _ hadj ih => exact closed _ _ hadj ih

/-! ## Without a vertex -/

theorem induce_reachable (hx : x ≠ v) (hy : y ≠ v) :
    (G.induce {v}ᶜ).Reachable ⟨x, hx⟩ ⟨y, hy⟩ ↔ (G.deleteIncidenceSet v).Reachable x y := by
  constructor
  · let inclusion : G.induce {v}ᶜ →g G.deleteIncidenceSet v := {
      toFun := Subtype.val
      map_rel' := fun {a b} hadj ↦ SimpleGraph.deleteIncidenceSet_adj.2 ⟨hadj, a.2, b.2⟩ }
    exact fun h ↦ h.map inclusion
  · intro h
    rw [SimpleGraph.reachable_iff_reflTransGen] at h
    have hleft : ∃ hy : y ≠ v, (G.induce {v}ᶜ).Reachable ⟨x, hx⟩ ⟨y, hy⟩ := by
      clear hy
      induction h with
      | refl => exact ⟨hx, .refl _⟩
      | tail _ hadj ih =>
        obtain ⟨_, hreach⟩ := ih
        obtain ⟨hadj, -, hy⟩ := SimpleGraph.deleteIncidenceSet_adj.1 hadj
        exact ⟨hy, hreach.trans (SimpleGraph.Adj.reachable hadj)⟩
    exact hleft.2

/-- If the neighbours of a vertex are joined without it, so is whatever was joined. -/
theorem reachable_of_neighbours (hjoined : ∀ u w, G.Adj v u → G.Adj v w →
      (G.deleteIncidenceSet v).Reachable u w)
    (hx : x ≠ v) (hy : y ≠ v) (h : G.Reachable x y) : (G.deleteIncidenceSet v).Reachable x y := by
  rw [SimpleGraph.reachable_iff_reflTransGen] at h
  -- A walk that comes to the vertex has come to one of its neighbours.
  have hwalk : (y ≠ v → (G.deleteIncidenceSet v).Reachable x y) ∧
      (y = v → ∃ u, G.Adj v u ∧ (G.deleteIncidenceSet v).Reachable x u) := by
    clear hy
    induction h with
    | refl => exact ⟨fun _ ↦ .refl _, fun heq ↦ absurd heq hx⟩
    | @tail y z _ hadj ih =>
      by_cases hy : y = v
      · subst hy
        obtain ⟨u, hu, hreach⟩ := ih.2 rfl
        exact ⟨fun _ ↦ hreach.trans (hjoined u z hu hadj), fun heq ↦ absurd heq hadj.ne'⟩
      · refine ⟨fun hz ↦ (ih.1 hy).trans (SimpleGraph.Adj.reachable ?_), fun heq ↦ ⟨y, ?_, ih.1 hy⟩⟩
        · exact SimpleGraph.deleteIncidenceSet_adj.2 ⟨hadj, hy, hz⟩
        · exact heq ▸ hadj.symm
  exact hwalk.1 hy

/-- **A vertex holds components together** exactly when two of its neighbours are separated without
it. -/
theorem card_lt_card_induce_iff [Finite V] (v : V) :
    Nat.card G.ConnectedComponent < Nat.card (G.induce {v}ᶜ).ConnectedComponent ↔
      ∃ u w, G.Adj v u ∧ G.Adj v w ∧ ¬ (G.deleteIncidenceSet v).Reachable u w := by
  have hfinite : Finite G.ConnectedComponent := Quot.finite _
  have hfinite' : Finite (G.induce {v}ᶜ).ConnectedComponent := Quot.finite _
  let whole : (G.induce {v}ᶜ).ConnectedComponent → G.ConnectedComponent :=
    SimpleGraph.ConnectedComponent.map (SimpleGraph.Embedding.induce {v}ᶜ).toHom
  constructor
  · intro hlt
    by_contra hnone
    push Not at hnone
    refine hlt.not_ge (Nat.card_le_card_of_injective whole ?_)
    intro a b
    induction a using SimpleGraph.ConnectedComponent.ind with | h a => ?_
    induction b using SimpleGraph.ConnectedComponent.ind with | h b => ?_
    intro heq
    rw [SimpleGraph.ConnectedComponent.eq]
    exact (induce_reachable a.2 b.2).2
      (reachable_of_neighbours hnone a.2 b.2 (SimpleGraph.ConnectedComponent.eq.1 heq))
  · rintro ⟨u, w, hu, hw, hseparate⟩
    by_contra hge
    have hsurjective : Function.Surjective whole := by
      intro c
      induction c using SimpleGraph.ConnectedComponent.ind with | h c => ?_
      by_cases hc : c = v
      · subst hc
        exact ⟨SimpleGraph.connectedComponentMk _ ⟨u, hu.ne'⟩,
          SimpleGraph.ConnectedComponent.eq.2 hu.symm.reachable⟩
      · exact ⟨SimpleGraph.connectedComponentMk _ ⟨c, hc⟩, rfl⟩
    have hinjective := (hsurjective.bijective_of_nat_card_le (Nat.not_lt.1 hge)).1
    have hsame : whole (SimpleGraph.connectedComponentMk _ ⟨u, hu.ne'⟩) =
        whole (SimpleGraph.connectedComponentMk _ ⟨w, hw.ne'⟩) :=
      SimpleGraph.ConnectedComponent.eq.2 (hu.symm.reachable.trans hw.reachable)
    exact hseparate ((induce_reachable hu.ne' hw.ne').1
      (SimpleGraph.ConnectedComponent.eq.1 (hinjective hsame)))

/-! ## Without an edge -/

/-- If the ends of an edge are joined without it, so is whatever was joined. -/
theorem reachable_of_ends {a b : V} (hjoined : (G.deleteEdges {s(x, y)}).Reachable x y)
    (h : G.Reachable a b) : (G.deleteEdges {s(x, y)}).Reachable a b := by
  rw [SimpleGraph.reachable_iff_reflTransGen] at h
  induction h with
  | refl => exact .refl _
  | @tail c d _ hadj ih =>
    refine ih.trans ?_
    by_cases hedge : s(c, d) = s(x, y)
    · rcases Sym2.eq_iff.1 hedge with ⟨rfl, rfl⟩ | ⟨rfl, rfl⟩
      · exact hjoined
      · exact hjoined.symm
    · exact SimpleGraph.Adj.reachable (SimpleGraph.deleteEdges_adj.2 ⟨hadj, hedge⟩)

/-- **An edge holds components together** exactly when its ends are separated without it. -/
theorem card_lt_card_deleteEdges_iff [Finite V] (hadj : G.Adj x y) :
    Nat.card G.ConnectedComponent < Nat.card (G.deleteEdges {s(x, y)}).ConnectedComponent ↔
      ¬ (G.deleteEdges {s(x, y)}).Reachable x y := by
  have hfinite : Finite G.ConnectedComponent := Quot.finite _
  have hfinite' : Finite (G.deleteEdges {s(x, y)}).ConnectedComponent := Quot.finite _
  have hle : G.deleteEdges {s(x, y)} ≤ G := SimpleGraph.deleteEdges_le _
  have hsurjective := SimpleGraph.ConnectedComponent.surjective_map_ofLE hle
  constructor
  · intro hlt hreach
    have hinjective : Function.Injective
        (SimpleGraph.ConnectedComponent.map (SimpleGraph.Hom.ofLE hle)) := by
      intro a b
      induction a using SimpleGraph.ConnectedComponent.ind with | h a => ?_
      induction b using SimpleGraph.ConnectedComponent.ind with | h b => ?_
      intro heq
      rw [SimpleGraph.ConnectedComponent.eq]
      exact reachable_of_ends hreach (SimpleGraph.ConnectedComponent.eq.1 heq)
    exact hlt.not_ge (Nat.card_le_card_of_injective _ hinjective)
  · intro hseparate
    by_contra hge
    have hinjective := (hsurjective.bijective_of_nat_card_le (Nat.not_lt.1 hge)).1
    refine hseparate (SimpleGraph.ConnectedComponent.eq.1 (@hinjective
      (SimpleGraph.connectedComponentMk _ x) (SimpleGraph.connectedComponentMk _ y) ?_))
    exact SimpleGraph.ConnectedComponent.eq.2 hadj.reachable

end Separation
