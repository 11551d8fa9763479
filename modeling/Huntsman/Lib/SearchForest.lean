import Huntsman.Lib.Separation

/-!
# The forest of a depth-first search

A depth-first search of an undirected graph leaves a forest, in which every vertex but the roots has
a parent, and the order in which it met the vertices.  No edge of the graph goes across: of its two
ends one is below the other (`SearchForest`).

The low point of a vertex is the earliest vertex that an edge from its subtree goes to, the edges to
parents apart (`LowPoints`).  It tells which vertices and edges hold the graph together
(`LowPoints.separates_iff`, `LowPoints.bridge_iff`).
-/

set_option autoImplicit false

open Relation

universe u

variable {V : Type u} {G : SimpleGraph V} {parent parent' : V → Option V} {disc low : V → ℕ}
  {a b c p u v w x : V}

/-! ## Climbing -/

/-- A vertex is in the subtree of another: climbing from it to parents comes there. -/
def Below (parent : V → Option V) : V → V → Prop := ReflTransGen fun v p ↦ parent v = some p

namespace Below

theorem refl (v : V) : Below parent v v := ReflTransGen.refl

theorem single (h : parent v = some p) : Below parent v p := ReflTransGen.single h

theorem trans (h : Below parent u v) (h' : Below parent v w) : Below parent u w :=
  ReflTransGen.trans h h'

theorem mono (hkeeps : ∀ v p, parent v = some p → parent' v = some p) (h : Below parent u v) :
    Below parent' u v :=
  ReflTransGen.mono hkeeps _ _ h

/-- The ancestors of a vertex are a chain. -/
theorem chain (hu : Below parent x u) (hw : Below parent x w) :
    Below parent u w ∨ Below parent w u :=
  ReflTransGen.total_of_right_unique (fun _ _ _ h h' ↦ Option.some.inj (h.symm.trans h')) hu hw

theorem climb (h : Below parent v w) (hne : v ≠ w) (hp : parent v = some p) : Below parent p w := by
  rcases ReflTransGen.cases_head h with heq | ⟨q, hq, hrest⟩
  · exact absurd heq hne
  · obtain rfl := Option.some.inj (hp.symm.trans hq)
    exact hrest

theorem eq_of_root (h : Below parent v w) (hroot : parent v = none) : w = v := by
  rcases ReflTransGen.cases_head h with rfl | ⟨q, hq, -⟩
  · rfl
  · cases hroot.symm.trans hq

theorem exists_parent (h : Below parent v w) (hne : v ≠ w) :
    ∃ p, parent v = some p ∧ Below parent p w :=
  (ReflTransGen.cases_head h).resolve_left hne

theorem exists_child (h : Below parent v w) (hne : v ≠ w) :
    ∃ c, parent c = some w ∧ Below parent v c := by
  rcases ReflTransGen.cases_tail h with heq | ⟨c, hc, hparent⟩
  · exact absurd heq.symm hne
  · exact ⟨c, hparent, hc⟩

/-- Climbing is possible in a graph that has the edges passed. -/
theorem reachable {H : SimpleGraph V} (h : Below parent v w)
    (hedges : ∀ y p, parent y = some p → Below parent v y → Below parent p w → H.Adj y p) :
    H.Reachable v w := by
  induction h using ReflTransGen.head_induction_on with
  | refl => exact .refl _
  | @head v q hq hrest ih =>
    have hfirst : H.Adj v q := hedges v q hq (.refl _) hrest
    refine hfirst.reachable.trans (ih fun y p hp hy hw ↦ hedges y p hp ?_ hw)
    exact (single hq).trans hy

end Below

/-! ## The forest -/

/-- Every vertex has been met, and no edge goes across. -/
structure SearchForest (G : SimpleGraph V) (parent : V → Option V) (disc : V → ℕ) : Prop where
  adj : ∀ v p, parent v = some p → G.Adj v p
  earlier : ∀ v p, parent v = some p → disc p < disc v
  across : ∀ u w, G.Adj u w → Below parent u w ∨ Below parent w u

namespace SearchForest

theorem eq_or_lt (h : SearchForest G parent disc) (hbelow : Below parent u w) :
    u = w ∨ disc w < disc u := by
  induction hbelow using ReflTransGen.head_induction_on with
  | refl => exact .inl rfl
  | @head v q hq _ ih =>
    have hlt := h.earlier v q hq
    rcases ih with rfl | hrest
    · exact .inr hlt
    · exact .inr (hrest.trans hlt)

theorem disc_le (h : SearchForest G parent disc) (hbelow : Below parent u w) : disc w ≤ disc u := by
  rcases h.eq_or_lt hbelow with rfl | hlt
  · exact le_rfl
  · exact hlt.le

theorem not_below (h : SearchForest G parent disc) (hlt : disc w < disc c) : ¬ Below parent w c :=
  fun hbelow ↦ (h.disc_le hbelow).not_gt hlt

/-- An edge that leaves a subtree goes to an ancestor. -/
theorem leaves (h : SearchForest G parent disc) (hx : Below parent x c) (hadj : G.Adj x w)
    (hw : ¬ Below parent w c) : Below parent c w := by
  rcases h.across x w hadj with hxw | hwx
  · exact (hx.chain hxw).resolve_right hw
  · exact absurd (hwx.trans hx) hw

/-- A neighbour is in the subtree of a child, or is an ancestor. -/
theorem neighbour (h : SearchForest G parent disc) (hadj : G.Adj v u) :
    (∃ c, parent c = some v ∧ Below parent u c) ∨ ∃ p, parent v = some p ∧ Below parent p u := by
  rcases h.across v u hadj with hvu | huv
  · exact .inr (hvu.exists_parent hadj.ne)
  · exact .inl (huv.exists_child hadj.ne')

/-- A child is joined to its whole subtree without its parent. -/
theorem subtree_reachable (h : SearchForest G parent disc) (hc : parent c = some v)
    (hu : Below parent u c) : (G.deleteIncidenceSet v).Reachable u c := by
  have hlt := h.earlier c v hc
  refine hu.reachable fun y q hq _ hqc ↦ SimpleGraph.deleteIncidenceSet_adj.2 ⟨h.adj y q hq, ?_, ?_⟩
  · rintro rfl
    exact h.not_below hlt ((Below.single hq).trans hqc)
  · rintro rfl
    exact h.not_below hlt hqc

/-- The way up to an ancestor is open without an edge that is not on it. -/
theorem reachable_deleteEdges (h : SearchForest G parent disc) (hbelow : Below parent u w)
    (hedges : ∀ y q, parent y = some q → Below parent u y → Below parent q w →
      s(y, q) ≠ s(a, b)) : (G.deleteEdges {s(a, b)}).Reachable u w :=
  hbelow.reachable fun y q hq huy hqw ↦
    SimpleGraph.deleteEdges_adj.2 ⟨h.adj y q hq, hedges y q hq huy hqw⟩

/-- The ancestors of a vertex are joined without it. -/
theorem ancestors_reachable (h : SearchForest G parent disc) (hp : parent v = some p)
    (hw : Below parent p w) : (G.deleteIncidenceSet v).Reachable p w := by
  have hlt := h.earlier v p hp
  refine hw.reachable fun y q hq hpy _ ↦ SimpleGraph.deleteIncidenceSet_adj.2 ⟨h.adj y q hq, ?_, ?_⟩
  · rintro rfl
    exact h.not_below hlt hpy
  · rintro rfl
    exact h.not_below hlt (hpy.trans (Below.single hq))

end SearchForest

/-! ## Low points -/

/-- The low point of each vertex: the earliest vertex that its subtree has an edge to, other than
from a vertex to its parent. -/
structure LowPoints (G : SimpleGraph V) (parent : V → Option V) (disc low : V → ℕ) : Prop
    extends SearchForest G parent disc where
  low_le : ∀ c x w, Below parent x c → G.Adj x w → parent x ≠ some w → low c ≤ disc w
  attained : ∀ c, ∃ x w, Below parent x c ∧ (w = x ∨ G.Adj x w ∧ parent x ≠ some w) ∧ disc w = low c

namespace LowPoints

/-- From the subtree of a child whose low point is no earlier than the parent, edges go to the
parent only. -/
theorem stays (h : LowPoints G parent disc low) (hc : parent c = some v) (hlow : disc v ≤ low c)
    (hx : Below parent x c) (hadj : G.Adj x w) (hw : ¬ Below parent w c) : w = v := by
  have hcw := h.leaves hx hadj hw
  have hvw : Below parent v w := hcw.climb (fun heq ↦ hw (heq ▸ .refl _)) hc
  rcases h.eq_or_lt hvw with heq | hlt
  · exact heq.symm
  · -- An edge further up would make the low point earlier, unless it goes to a parent.
    have hparent : parent x ≠ some w := by
      intro hparent
      by_cases hxc : x = c
      · subst hxc
        rw [Option.some.inj (hc.symm.trans hparent)] at hlt
        exact lt_irrefl _ hlt
      · exact hw (hx.climb hxc hparent)
    exact absurd (hlow.trans (h.low_le c x w hx hadj hparent)) hlt.not_ge

/-- From the subtree of a child whose low point is not later than the parent there is an edge to an
ancestor, other than from the child to its parent. -/
theorem escapes (h : LowPoints G parent disc low) (hc : parent c = some v) (hlow : low c ≤ disc v) :
    ∃ x w, Below parent x c ∧ G.Adj x w ∧ parent x ≠ some w ∧ Below parent v w ∧
      disc w = low c := by
  obtain ⟨x, w, hx, hw, hdisc⟩ := h.attained c
  have hlt : disc w < disc c := (hdisc ▸ hlow).trans_lt (h.earlier c v hc)
  rcases hw with rfl | ⟨hadj, hparent⟩
  · exact absurd hx (h.not_below hlt)
  · have hcw := h.leaves hx hadj (h.not_below hlt)
    exact ⟨x, w, hx, hadj, hparent, hcw.climb (fun heq ↦ hlt.ne (heq ▸ rfl)) hc, hdisc⟩

/-- A vertex separates two of its neighbours: the subtree of a child from its own parent, or the
subtrees of two children. -/
theorem separates_iff (h : LowPoints G parent disc low) (v : V) :
    (∃ u w, G.Adj v u ∧ G.Adj v w ∧ ¬ (G.deleteIncidenceSet v).Reachable u w) ↔
      (parent v ≠ none ∧ ∃ c, parent c = some v ∧ disc v ≤ low c) ∨
      (parent v = none ∧ ∃ c d, c ≠ d ∧ parent c = some v ∧ parent d = some v) := by
  constructor
  · rintro ⟨u, w, hu, hw, hseparate⟩
    by_contra hnone
    rw [not_or, not_and, not_and] at hnone
    apply hseparate
    rcases hroot : parent v with _ | p
    · -- All neighbours are in the subtree of one child.
      have hchild : ∀ u, G.Adj v u → ∃ c, parent c = some v ∧
          (G.deleteIncidenceSet v).Reachable u c := by
        intro u hu
        rcases h.neighbour hu with ⟨c, hc, huc⟩ | ⟨p, hp, -⟩
        · exact ⟨c, hc, h.subtree_reachable hc huc⟩
        · cases hroot.symm.trans hp
      obtain ⟨c, hc, huc⟩ := hchild u hu
      obtain ⟨d, hd, hwd⟩ := hchild w hw
      have heq : c = d := by
        by_contra hne
        exact hnone.2 hroot ⟨c, d, hne, hc, hd⟩
      exact huc.trans (heq ▸ hwd.symm)
    · -- All neighbours are joined to the parent.
      have hparent : ∀ u, G.Adj v u → (G.deleteIncidenceSet v).Reachable u p := by
        intro u hu
        rcases h.neighbour hu with ⟨c, hc, huc⟩ | ⟨q, hq, hqu⟩
        · have hlow : low c < disc v := by
            by_contra hge
            exact hnone.1 (by rw [hroot]; exact Option.some_ne_none p) ⟨c, hc, Nat.not_lt.1 hge⟩
          obtain ⟨x, w, hx, hadj, -, hvw, hdisc⟩ := h.escapes hc hlow.le
          have hwv : w ≠ v := fun heq ↦ hlow.ne (heq ▸ hdisc.symm)
          have hxv : x ≠ v := fun heq ↦ h.not_below (h.earlier c v hc) (heq ▸ hx)
          have hup : (G.deleteIncidenceSet v).Adj x w :=
            SimpleGraph.deleteIncidenceSet_adj.2 ⟨hadj, hxv, hwv⟩
          have hpw : Below parent p w := hvw.climb hwv.symm hroot
          exact ((h.subtree_reachable hc huc).trans (h.subtree_reachable hc hx).symm).trans
            (hup.reachable.trans (h.ancestors_reachable hroot hpw).symm)
        · obtain rfl := Option.some.inj (hroot.symm.trans hq)
          exact (h.ancestors_reachable hroot hqu).symm
      exact (hparent u hu).trans (hparent w hw).symm
  · rintro (⟨hroot, c, hc, hlow⟩ | ⟨hroot, c, d, hne, hc, hd⟩)
    · obtain ⟨p, hp⟩ := Option.ne_none_iff_exists'.1 hroot
      refine ⟨c, p, (h.adj c v hc).symm, h.adj v p hp,
        Separation.not_reachable (Below parent · c) (fun x y hxy hx ↦ ?_) (.refl c) ?_⟩
      · obtain ⟨hadj, -, hy⟩ := SimpleGraph.deleteIncidenceSet_adj.1 hxy
        by_contra hleft
        exact hy (h.stays hc hlow hx hadj hleft)
      · exact h.not_below ((h.earlier v p hp).trans (h.earlier c v hc))
    · refine ⟨c, d, (h.adj c v hc).symm, (h.adj d v hd).symm,
        Separation.not_reachable (Below parent · c) (fun x y hxy hx ↦ ?_) (.refl c) fun hdc ↦ ?_⟩
      · obtain ⟨hadj, -, hy⟩ := SimpleGraph.deleteIncidenceSet_adj.1 hxy
        by_contra hleft
        have hcy := h.leaves hx hadj hleft
        exact hy ((hcy.climb (fun heq ↦ hleft (heq ▸ .refl _)) hc).eq_of_root hroot)
      · exact h.not_below (h.earlier c v hc) (hdc.climb hne.symm hd)

/-! ### Edges -/

/-- The edge from a child to its parent separates them when the low point of the child is later than
the parent. -/
theorem child_iff (h : LowPoints G parent disc low) (hc : parent c = some v) :
    ¬ (G.deleteEdges {s(c, v)}).Reachable c v ↔ disc v < low c := by
  have hlt := h.earlier c v hc
  constructor
  · intro hseparate
    by_contra hge
    obtain ⟨x, w, hx, hadj, hparent, hvw, -⟩ := h.escapes hc (Nat.not_lt.1 hge)
    apply hseparate
    have hdown : (G.deleteEdges {s(c, v)}).Reachable x c := by
      refine h.reachable_deleteEdges hx fun y q hq _ hqc hmem ↦ ?_
      rcases Sym2.eq_iff.1 hmem with ⟨-, rfl⟩ | ⟨rfl, -⟩
      · exact h.not_below hlt hqc
      · exact h.not_below hlt ((Below.single hq).trans hqc)
    have hover : (G.deleteEdges {s(c, v)}).Adj x w := by
      refine SimpleGraph.deleteEdges_adj.2 ⟨hadj, fun hmem ↦ ?_⟩
      rcases Sym2.eq_iff.1 hmem with ⟨rfl, rfl⟩ | ⟨rfl, -⟩
      · exact hparent hc
      · exact h.not_below hlt hx
    have hup : (G.deleteEdges {s(c, v)}).Reachable v w := by
      refine h.reachable_deleteEdges hvw fun y q hq hvy _ hmem ↦ ?_
      rcases Sym2.eq_iff.1 hmem with ⟨rfl, -⟩ | ⟨-, rfl⟩
      · exact h.not_below hlt hvy
      · exact h.not_below hlt (hvy.trans (Below.single hq))
    exact hdown.symm.trans (hover.reachable.trans hup.symm)
  · intro hlow
    refine Separation.not_reachable (Below parent · c) (fun x y hxy hx ↦ ?_) (.refl c)
      (h.not_below hlt)
    obtain ⟨hadj, hedge⟩ := SimpleGraph.deleteEdges_adj.1 hxy
    by_contra hleft
    obtain rfl := h.stays hc hlow.le hx hadj hleft
    by_cases hxc : x = c
    · exact hedge (hxc ▸ rfl)
    · have hparent : parent x ≠ some y := fun hparent ↦
        h.not_below hlt (hx.climb hxc hparent)
      exact (h.low_le c x y hx hadj hparent).not_gt hlow

/-- An edge that is not from a child to its parent does not separate its ends. -/
theorem reachable_of_below (h : LowPoints G parent disc low) (hadj : G.Adj a b)
    (hab : Below parent a b) (hparent : parent a ≠ some b) :
    (G.deleteEdges {s(a, b)}).Reachable a b := by
  have hlt : disc b < disc a := (h.eq_or_lt hab).resolve_left hadj.ne
  refine h.reachable_deleteEdges hab fun y q hq _ _ hmem ↦ ?_
  rcases Sym2.eq_iff.1 hmem with ⟨rfl, rfl⟩ | ⟨rfl, rfl⟩
  · exact hparent hq
  · exact (h.earlier y q hq).not_gt hlt

/-- The edges that separate their ends. -/
theorem bridge_iff (h : LowPoints G parent disc low) (hadj : G.Adj a b) :
    ¬ (G.deleteEdges {s(a, b)}).Reachable a b ↔
      (parent a = some b ∧ disc b < low a) ∨ (parent b = some a ∧ disc a < low b) := by
  have hswap : (G.deleteEdges {s(a, b)}).Reachable a b ↔
      (G.deleteEdges {s(b, a)}).Reachable b a := by
    rw [Sym2.eq_swap, SimpleGraph.reachable_comm]
  by_cases hab : parent a = some b
  · have hba : parent b ≠ some a := fun hba ↦
      (h.earlier a b hab).not_gt (h.earlier b a hba)
    rw [h.child_iff hab]
    exact ⟨fun hlow ↦ .inl ⟨hab, hlow⟩, fun hor ↦ (hor.resolve_right fun hand ↦ hba hand.1).2⟩
  by_cases hba : parent b = some a
  · rw [hswap, h.child_iff hba]
    exact ⟨fun hlow ↦ .inr ⟨hba, hlow⟩, fun hor ↦ (hor.resolve_left fun hand ↦ hab hand.1).2⟩
  · refine iff_of_false (not_not.2 ?_) (not_or.2 ⟨fun hand ↦ hab hand.1, fun hand ↦ hba hand.1⟩)
    rcases h.across a b hadj with hbelow | hbelow
    · exact h.reachable_of_below hadj hbelow hab
    · exact hswap.2 (h.reachable_of_below hadj.symm hbelow hba)

end LowPoints
