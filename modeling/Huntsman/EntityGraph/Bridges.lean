import Huntsman.EntityGraph.Build
import Huntsman.Lib.Loop
import Huntsman.Lib.LowLink
import Mathlib.Algebra.BigOperators.Fin
import Mathlib.Data.Sym.Sym2.Order

/-!
# Cut vertices and bridges

`cutVerticesAndBridges` searches the graph depth first, with a stack of nodes and how many of the
neighbours of each have been looked at.  It notes when each node is met, and the earliest node that
was seen from it or from below it, other than the parent of the node that saw it.

The stack makes the moves of `LowLink`.  What is noted in the end is what the low points say of the
whole graph (`cutVerticesAndBridges_spec`).
-/

set_option autoImplicit false

namespace Huntsman

namespace EntityGraph

open Function List Option

variable (graph : EntityGraph)

/-! ## The algorithm -/

/-- A node, the node it was met from, and how many of its neighbours have been looked at. -/
structure Frame where
  node : graph.Node
  parent : Option graph.Node
  cursor : ℕ

/-- The locals of the search. -/
structure Dfs where
  disc : graph.Node → ℕ
  low : graph.Node → ℕ
  isCut : graph.Node → Bool
  bridges : List (graph.Node × graph.Node)
  timer : ℕ
  rootChildren : ℕ
  stack : List graph.Frame

variable {graph}

/-- A node is met. -/
def Dfs.discover (s : graph.Dfs) (node : graph.Node) : graph.Dfs :=
  { s with
    timer := s.timer + 1
    disc := update s.disc node (s.timer + 1)
    low := update s.low node (s.timer + 1) }

/-- A node has no more neighbours to look at, and has a parent. -/
def Dfs.retreat (start : graph.Node) (s : graph.Dfs) (node parent : graph.Node) : graph.Dfs :=
  let low := update s.low parent (min (s.low parent) (s.low node))
  { s with
    low
    isCut := if parent ≠ start ∧ low node ≥ s.disc parent then update s.isCut parent true
      else s.isCut
    bridges := if low node > s.disc parent then s.bridges ++ [(parent ⊓ node, parent ⊔ node)]
      else s.bridges }

/-- One pass of the loop over the stack. -/
def searchPass (start : graph.Node) (s : graph.Dfs) : Pass graph.Dfs graph.Dfs :=
  match s.stack with
  | [] => .leave s
  | frame :: below =>
    match (graph.adj frame.node)[frame.cursor]? with
    | some next =>
      let stack := { frame with cursor := frame.cursor + 1 } :: below
      if s.disc next = 0 then
        .again { s.discover next with
          rootChildren := if frame.parent = none then s.rootChildren + 1 else s.rootChildren
          stack := ⟨next, some frame.node, 0⟩ :: stack }
      else if some next ≠ frame.parent then
        .again { s with
          low := update s.low frame.node (min (s.low frame.node) (s.disc next))
          stack }
      else .again { s with stack }
    | none =>
      let s := { s with stack := below }
      match frame.parent with
      | some parent => .again (s.retreat start frame.node parent)
      | none => .again s

/-- What a pass that goes round again does. -/
inductive Turn (start : graph.Node) (s : graph.Dfs) : graph.Dfs → Prop where
  | discover {frame : graph.Frame} {below : List graph.Frame} {next : graph.Node}
      (hstack : s.stack = frame :: below)
      (hnext : (graph.adj frame.node)[frame.cursor]? = some next) (hfresh : s.disc next = 0) :
      Turn start s { s.discover next with
        rootChildren := if frame.parent = none then s.rootChildren + 1 else s.rootChildren
        stack := ⟨next, some frame.node, 0⟩ :: { frame with cursor := frame.cursor + 1 } :: below }
  | look {frame : graph.Frame} {below : List graph.Frame} {next : graph.Node}
      (hstack : s.stack = frame :: below)
      (hnext : (graph.adj frame.node)[frame.cursor]? = some next) (hmet : s.disc next ≠ 0)
      (hparent : some next ≠ frame.parent) :
      Turn start s { s with
        low := update s.low frame.node (min (s.low frame.node) (s.disc next))
        stack := { frame with cursor := frame.cursor + 1 } :: below }
  | skip {frame : graph.Frame} {below : List graph.Frame} {next : graph.Node}
      (hstack : s.stack = frame :: below)
      (hnext : (graph.adj frame.node)[frame.cursor]? = some next) (hmet : s.disc next ≠ 0)
      (hparent : some next = frame.parent) :
      Turn start s { s with stack := { frame with cursor := frame.cursor + 1 } :: below }
  | retreat {frame : graph.Frame} {below : List graph.Frame} {parent : graph.Node}
      (hstack : s.stack = frame :: below)
      (hlast : (graph.adj frame.node)[frame.cursor]? = none)
      (hparent : frame.parent = some parent) :
      Turn start s (Dfs.retreat start { s with stack := below } frame.node parent)
  | close {frame : graph.Frame} {below : List graph.Frame}
      (hstack : s.stack = frame :: below)
      (hlast : (graph.adj frame.node)[frame.cursor]? = none) (hparent : frame.parent = none) :
      Turn start s { s with stack := below }

theorem searchPass_turn {start : graph.Node} {s s' : graph.Dfs}
    (h : searchPass start s = .again s') : Turn start s s' := by
  rw [searchPass] at h
  split at h
  · cases h
  rename_i frame below hstack
  split at h
  · rename_i next hnext
    split at h
    · rename_i hfresh
      cases h
      exact .discover hstack hnext hfresh
    · rename_i hmet
      split at h <;> cases h
      · rename_i hparent
        exact .look hstack hnext hmet hparent
      · rename_i hparent
        exact .skip hstack hnext hmet (not_not.1 hparent)
  · rename_i hlast
    split at h <;> cases h
    · rename_i parent hparent
      exact .retreat hstack hlast hparent
    · rename_i hparent
      exact .close hstack hlast hparent

/-- How often the loop can still go round: once for each neighbour that is to be looked at, and once
for each node that is to be closed. -/
def remaining (s : graph.Dfs) : ℕ :=
  (Finset.univ.sum fun v ↦ if s.disc v = 0 then (graph.adj v).length + 1 else 0) +
    (s.stack.map fun frame ↦ (graph.adj frame.node).length - frame.cursor + 1).sum

theorem sum_discover {s : graph.Dfs} {next : graph.Node} (h : s.disc next = 0)
    (g : graph.Node → ℕ) :
    (Finset.univ.sum fun v ↦ if (s.discover next).disc v = 0 then g v else 0) + g next =
      Finset.univ.sum fun v ↦ if s.disc v = 0 then g v else 0 := by
  have hdisc : (s.discover next).disc = update s.disc next (s.timer + 1) := rfl
  rw [hdisc, ← Finset.sum_erase_add _ _ (Finset.mem_univ next),
    ← Finset.sum_erase_add _ (fun v ↦ if s.disc v = 0 then g v else 0) (Finset.mem_univ next),
    if_pos h, update_self, if_neg (Nat.succ_ne_zero _), Nat.add_zero]
  refine congrArg (· + g next) (Finset.sum_congr rfl fun v hv ↦ ?_)
  rw [update_of_ne (Finset.ne_of_mem_erase hv)]

theorem searchPass_falls (start : graph.Node) (s s' : graph.Dfs)
    (h : searchPass start s = .again s') : remaining s' < remaining s := by
  have hcursor : ∀ {frame : graph.Frame} {next : graph.Node},
      (graph.adj frame.node)[frame.cursor]? = some next →
        frame.cursor < (graph.adj frame.node).length := fun hnext ↦
    (List.getElem?_eq_some_iff.1 hnext).1
  cases searchPass_turn h with
  | discover hstack hnext hfresh =>
    have hlt := hcursor hnext
    have hsum := sum_discover hfresh fun v ↦ (graph.adj v).length + 1
    simp only [remaining, hstack, List.map_cons, List.sum_cons]
    omega
  | look hstack hnext hmet hparent | skip hstack hnext hmet hparent =>
    have hlt := hcursor hnext
    simp only [remaining, hstack, List.map_cons, List.sum_cons]
    omega
  | retreat hstack hlast hparent | close hstack hlast hparent =>
    simp only [remaining, Dfs.retreat, hstack, List.map_cons, List.sum_cons]
    omega

/-- Search from a node, unless it has been met. -/
def searchFrom (s : graph.Dfs) (start : graph.Node) : graph.Dfs :=
  if s.disc start ≠ 0 then s
  else
    let s := Loop.run (searchPass start) remaining (searchPass_falls start)
      { s.discover start with rootChildren := 0, stack := [⟨start, none, 0⟩] }
    if s.rootChildren > 1 then { s with isCut := update s.isCut start true } else s

/-- Nothing has been met. -/
def Dfs.new : graph.Dfs where
  disc _ := 0
  low _ := 0
  isCut _ := false
  bridges := []
  timer := 0
  rootChildren := 0
  stack := []

/-- The nodes and the edges that hold the graph together. -/
def cutVerticesAndBridges (graph : EntityGraph) :
    List graph.Node × List (graph.Node × graph.Node) :=
  let s := (List.finRange graph.nodeCount).foldl searchFrom Dfs.new
  ((List.finRange graph.nodeCount).filter s.isCut,
    s.bridges.insertionSort fun left right ↦ toLex left ≤ toLex right)

/-! ## What the closed nodes say -/

/-- The cut vertices and the bridges that can be told from the nodes that are closed, the root of
`root` apart: a node with a parent has a closed child whose low point is no earlier than the node, a
root has two closed children, and a bridge goes to a closed child whose low point is later. -/
structure Judged (l : LowLink graph.Node) (root : Option graph.Node) (isCut : graph.Node → Bool)
    (bridges : List (graph.Node × graph.Node)) : Prop where
  isCut : ∀ v, isCut v = true ↔
    (l.parent v ≠ none ∧ ∃ c, l.Done c v ∧ l.disc v ≤ l.low c) ∨
    (l.parent v = none ∧ root ≠ some v ∧ ∃ c d, c ≠ d ∧ l.Done c v ∧ l.Done d v)
  nodup : bridges.Nodup
  bridges : ∀ e, e ∈ bridges ↔
    ∃ c p, l.Done c p ∧ l.disc p < l.low c ∧ e = (p ⊓ c, p ⊔ c)

section

variable {l l' : LowLink graph.Node} {root : Option graph.Node} {isCut : graph.Node → Bool}
  {bridges : List (graph.Node × graph.Node)}

theorem Judged.keep (h : Judged l root isCut bridges) (hkeeps : l.Keeps l')
    (hdone : ∀ c p, l'.Done c p ↔ l.Done c p) : Judged l' root isCut bridges := by
  refine ⟨fun v ↦ (h.isCut v).trans ?_, h.nodup, fun e ↦ (h.bridges e).trans ?_⟩
  · constructor
    · rintro (⟨hparent, c, hc, hlow⟩ | ⟨hparent, hroot, c, d, hne, hc, hd⟩)
      · obtain ⟨hdisc', hlow', hparent'⟩ := hkeeps c v hc
        exact .inl ⟨hparent' ▸ hparent, c, (hdone c v).2 hc, by rwa [hdisc', hlow']⟩
      · obtain ⟨-, -, hparent'⟩ := hkeeps c v hc
        exact .inr ⟨hparent' ▸ hparent, hroot, c, d, hne, (hdone c v).2 hc, (hdone d v).2 hd⟩
    · rintro (⟨hparent, c, hc, hlow⟩ | ⟨hparent, hroot, c, d, hne, hc, hd⟩)
      · have hc := (hdone c v).1 hc
        obtain ⟨hdisc', hlow', hparent'⟩ := hkeeps c v hc
        exact .inl ⟨hparent' ▸ hparent, c, hc, by rwa [← hdisc', ← hlow']⟩
      · have hc := (hdone c v).1 hc
        obtain ⟨-, -, hparent'⟩ := hkeeps c v hc
        exact .inr ⟨hparent' ▸ hparent, hroot, c, d, hne, hc, (hdone d v).1 hd⟩
  · refine exists_congr fun c ↦ exists_congr fun p ↦ ?_
    rw [hdone]
    refine and_congr_right fun hc ↦ ?_
    obtain ⟨hdisc', hlow', -⟩ := hkeeps c p hc
    rw [hdisc', hlow']

/-- A search begins at a node without closed children. -/
theorem Judged.begin {r : graph.Node} (h : Judged l none isCut bridges)
    (hnone : ∀ c, ¬ l.Done c r) : Judged l (some r) isCut bridges := by
  refine ⟨fun v ↦ (h.isCut v).trans (or_congr_right (and_congr_right fun _ ↦ ?_)), h.nodup,
    h.bridges⟩
  refine and_congr_left fun hchildren ↦ iff_of_true (some_ne_none v).symm fun heq ↦ ?_
  obtain ⟨c, -, -, hc, -⟩ := hchildren
  exact hnone c (some.inj heq ▸ hc)

/-- A search is over when all children of its root have been closed. -/
theorem Judged.finish {r : graph.Node} (h : Judged l (some r) isCut bridges)
    (hroot : l.parent r = none) (many : Prop) [Decidable many]
    (hmany : many ↔ ∃ c d, c ≠ d ∧ l.Done c r ∧ l.Done d r) :
    Judged l none (if many then update isCut r true else isCut) bridges := by
  refine ⟨fun v ↦ ?_, h.nodup, h.bridges⟩
  by_cases hv : v = r
  · subst hv
    have hfalse : isCut v = false := by
      rw [Bool.eq_false_iff, ne_eq, h.isCut, not_or]
      exact ⟨fun hparent ↦ hparent.1 hroot, fun hchildren ↦ hchildren.2.1 rfl⟩
    have hnew : (if many then update isCut v true else isCut) v = true ↔ many := by
      split
      · rename_i hyes
        exact iff_of_true (update_self ..) hyes
      · rename_i hno
        exact iff_of_false (by rw [hfalse]; exact Bool.false_ne_true) hno
    rw [hnew, hmany]
    constructor
    · exact fun hchildren ↦ .inr ⟨hroot, (some_ne_none v).symm, hchildren⟩
    · rintro (⟨hparent, -⟩ | ⟨-, -, hchildren⟩)
      · exact absurd hroot hparent
      · exact hchildren
  · have hnew : (if many then update isCut r true else isCut) v = isCut v := by
      split
      · exact update_of_ne hv ..
      · rfl
    rw [hnew, h.isCut]
    refine or_congr_right (and_congr_right fun _ ↦ and_congr_left fun _ ↦ ?_)
    exact iff_of_true (fun heq ↦ hv (some.inj heq).symm) (some_ne_none v).symm

/-- The pair of a child and its parent is the pair of no other. -/
theorem pair_eq {c p c' p' : graph.Node} (h : (p ⊓ c, p ⊔ c) = (p' ⊓ c', p' ⊔ c')) :
    (c = c' ∧ p = p') ∨ (c = p' ∧ p = c') := by
  have hsym : s(p, c) = s(p', c') := Sym2.inf_eq_inf_and_sup_eq_sup.1 (Prod.mk.inj h)
  rcases Sym2.eq_iff.1 hsym with ⟨hp, hc⟩ | ⟨hp, hc⟩
  · exact .inl ⟨hc, hp⟩
  · exact .inr ⟨hc, hp⟩

variable {start v p : graph.Node} {rest : List graph.Node}

/-- A node is closed, which has a parent. -/
theorem Judged.back (h : Judged l (some start) isCut bridges) (hsound : l.Sound graph.toSimple)
    (hpath : l.path = v :: rest) (hp : l.parent v = some p)
    (hroot : l.parent p = none ↔ p = start) :
    Judged (l.back v) (some start)
      (if p ≠ start ∧ l.low v ≥ l.disc p then update isCut p true else isCut)
      (if l.low v > l.disc p then bridges ++ [(p ⊓ v, p ⊔ v)] else bridges) := by
  have hkeeps := hsound.keeps_back hpath
  have hdone := hsound.done_back hpath
  have hlow : (l.back v).low v = l.low v := hsound.back_low hpath (hsound.not_mem_rest hpath)
  have hopen : p ∈ l.path := hsound.parent_mem (hpath ▸ (.head _)) hp
  refine ⟨fun u ↦ ?_, ?_, fun e ↦ ?_⟩
  · -- Only `v` is closed in addition, and so only its parent is told of in addition.
    have hnew : (if p ≠ start ∧ l.low v ≥ l.disc p then update isCut p true else isCut) u = true ↔
        isCut u = true ∨ (p ≠ start ∧ l.disc p ≤ l.low v) ∧ u = p := by
      split
      · rename_i hcut
        by_cases hu : u = p
        · subst hu
          rw [update_self]
          exact iff_of_true rfl (.inr ⟨hcut, rfl⟩)
        · rw [update_of_ne hu]
          exact (or_iff_left fun h ↦ hu h.2).symm
      · rename_i hcut
        exact (or_iff_left fun h ↦ hcut h.1).symm
    rw [hnew, h.isCut]
    constructor
    · rintro ((⟨hparent, c, hc, hle⟩ | ⟨hparent, hstart, c, d, hne, hc, hd⟩) | ⟨⟨hne, hle⟩, rfl⟩)
      · exact .inl ⟨hparent, c, (hdone c u).2 (.inl hc), (hkeeps c u hc).2.1 ▸ hle⟩
      · exact .inr ⟨hparent, hstart, c, d, hne, (hdone c u).2 (.inl hc), (hdone d u).2 (.inl hd)⟩
      · exact .inl ⟨fun hnone ↦ hne (hroot.1 hnone), v, (hdone v u).2 (.inr ⟨rfl, hp⟩),
          hlow ▸ hle⟩
    · rintro (⟨hparent, c, hc, hle⟩ | ⟨hparent, hstart, c, d, hne, hc, hd⟩)
      · rcases (hdone c u).1 hc with hc | ⟨rfl, hu⟩
        · exact .inl (.inl ⟨hparent, c, hc, (hkeeps c u hc).2.1 ▸ hle⟩)
        · obtain rfl := some.inj (hp.symm.trans hu)
          exact .inr ⟨⟨fun heq ↦ hparent (hroot.2 heq), hlow ▸ hle⟩, rfl⟩
      · -- A root that is told of is not the root of this search.
        have hold : ∀ c, (l.back v).Done c u → l.Done c u := by
          intro c hc
          refine ((hdone c u).1 hc).resolve_right fun hnew ↦ hstart ?_
          obtain rfl := some.inj (hp.symm.trans hnew.2)
          exact congrArg some (hroot.1 hparent).symm
        exact .inl (.inr ⟨hparent, hstart, c, d, hne, hold c hc, hold d hd⟩)
  · split
    · refine nodup_append.2 ⟨h.nodup, nodup_singleton _, fun e he e' he' heq ↦ ?_⟩
      obtain rfl := mem_singleton.1 he'
      subst heq
      obtain ⟨c, q, hc, -, heq⟩ := (h.bridges _).1 he
      rcases pair_eq heq with ⟨rfl, -⟩ | ⟨-, rfl⟩
      · exact hc.2 (hpath ▸ (.head _))
      · exact hc.2 hopen
    · exact h.nodup
  · have hnew : e ∈ (if l.low v > l.disc p then bridges ++ [(p ⊓ v, p ⊔ v)] else bridges) ↔
        e ∈ bridges ∨ l.disc p < l.low v ∧ e = (p ⊓ v, p ⊔ v) := by
      split
      · rename_i hlater
        rw [mem_append, mem_singleton]
        exact or_congr_right (and_iff_right hlater).symm
      · rename_i hlater
        exact (or_iff_left fun h ↦ hlater h.1).symm
    rw [hnew, h.bridges]
    constructor
    · rintro (⟨c, q, hc, hlt, rfl⟩ | ⟨hlt, rfl⟩)
      · exact ⟨c, q, (hdone c q).2 (.inl hc), (hkeeps c q hc).2.1 ▸ hlt, rfl⟩
      · exact ⟨v, p, (hdone v p).2 (.inr ⟨rfl, hp⟩), hlow ▸ hlt, rfl⟩
    · rintro ⟨c, q, hc, hlt, rfl⟩
      rcases (hdone c q).1 hc with hc | ⟨rfl, hq⟩
      · exact .inl ⟨c, q, hc, (hkeeps c q hc).2.1 ▸ hlt, rfl⟩
      · obtain rfl := some.inj (hp.symm.trans hq)
        exact .inr ⟨hlow ▸ hlt, rfl⟩

end

/-! ## What the search keeps -/

/-- The search as it stands; the parents of the nodes that are closed, and the edges that have been
looked along, are not among its locals. -/
def Dfs.toLowLink (s : graph.Dfs) (parent : graph.Node → Option graph.Node)
    (seen : graph.Node → graph.Node → Prop) : LowLink graph.Node :=
  ⟨parent, s.disc, s.low, s.stack.map Frame.node, seen⟩

/-- A frame of the search from `root`. -/
structure Frame.Fits (frame : graph.Frame) (root : Option graph.Node)
    (parent : graph.Node → Option graph.Node) (seen : graph.Node → graph.Node → Prop) : Prop where
  met_from : frame.parent = parent frame.node
  looked : ∀ w ∈ (graph.adj frame.node).take frame.cursor, seen frame.node w
  base : parent frame.node = none → root = some frame.node

/-- Where the search from `root` stands, or the search between two roots. -/
structure Standing (root : Option graph.Node) (s : graph.Dfs)
    (parent : graph.Node → Option graph.Node) (seen : graph.Node → graph.Node → Prop) : Prop where
  sound : (s.toLowLink parent seen).Sound graph.toSimple
  judged : Judged (s.toLowLink parent seen) root s.isCut s.bridges
  time : ∀ v, s.disc v ≤ s.timer
  frames : ∀ frame ∈ s.stack, frame.Fits root parent seen
  base : ∀ r, root = some r → parent r = none ∧ s.disc r ≠ 0
  children : ∀ r, root = some r →
    s.rootChildren = (Finset.univ.filter fun c ↦ parent c = some r).card

section

variable {root : Option graph.Node} {s s' : graph.Dfs}
  {parent parent' : graph.Node → Option graph.Node}
  {seen seen' : graph.Node → graph.Node → Prop} {frame : graph.Frame} {below : List graph.Frame}
  {next start : graph.Node}

theorem Frame.Fits.mono (h : frame.Fits root parent seen)
    (hparent : parent' frame.node = parent frame.node)
    (hseen : ∀ w, seen frame.node w → seen' frame.node w) : frame.Fits root parent' seen' :=
  ⟨h.met_from.trans hparent.symm, fun w hw ↦ hseen w (h.looked w hw), fun hnone ↦
    h.base (hparent.symm.trans hnone)⟩

/-- A frame of which one neighbour more has been looked at. -/
theorem Frame.Fits.advance (h : frame.Fits root parent seen)
    (hnext : (graph.adj frame.node)[frame.cursor]? = some next) :
    ({ frame with cursor := frame.cursor + 1 } : graph.Frame).Fits root parent
      fun a b ↦ seen a b ∨ (a = frame.node ∧ b = next) := by
  refine ⟨h.met_from, fun w hw ↦ ?_, h.base⟩
  simp only [take_add_one, hnext, toList_some, mem_append,
    mem_singleton] at hw
  exact hw.imp (h.looked w) fun heq ↦ ⟨rfl, heq⟩

theorem Standing.path (_ : Standing root s parent seen) (hstack : s.stack = frame :: below) :
    (s.toLowLink parent seen).path = frame.node :: below.map Frame.node := by
  rw [Dfs.toLowLink, hstack, map_cons]

theorem adj_of_next (hnext : (graph.adj frame.node)[frame.cursor]? = some next) :
    graph.toSimple.Adj frame.node next := mem_of_getElem? hnext

/-- A node is met. -/
theorem Standing.discover (h : Standing root s parent seen) (hstack : s.stack = frame :: below)
    (hnext : (graph.adj frame.node)[frame.cursor]? = some next) (hfresh : s.disc next = 0) :
    Standing root { s.discover next with
        rootChildren := if frame.parent = none then s.rootChildren + 1 else s.rootChildren
        stack := ⟨next, some frame.node, 0⟩ :: { frame with cursor := frame.cursor + 1 } :: below }
      (update parent next (some frame.node))
      fun a b ↦ seen a b ∨ (a = frame.node ∧ b = next) := by
  have hpath := h.path hstack
  have htime : ∀ u, s.disc u < s.timer + 1 := fun u ↦ Nat.lt_succ_of_le (h.time u)
  have hsearch : ({ s.discover next with
        rootChildren := if frame.parent = none then s.rootChildren + 1 else s.rootChildren
        stack := ⟨next, some frame.node, 0⟩ ::
          { frame with cursor := frame.cursor + 1 } :: below } : graph.Dfs).toLowLink
        (update parent next (some frame.node))
        (fun a b ↦ seen a b ∨ (a = frame.node ∧ b = next)) =
      (s.toLowLink parent seen).meet frame.node next (s.timer + 1) := by
    simp only [Dfs.toLowLink, LowLink.meet, Dfs.discover, hstack, map_cons]
  have hunmet : parent next = none := h.sound.parent_of_unmet hfresh
  have hmet : ∀ f ∈ s.stack, f.node ≠ next := fun f hf heq ↦
    h.sound.path_met f.node (mem_map_of_mem hf) (heq ▸ hfresh)
  have hframe : frame ∈ s.stack := hstack ▸ (.head _)
  have hfits := h.frames frame hframe
  refine {
    sound := hsearch ▸ h.sound.meet hpath (adj_of_next hnext) hfresh htime
    judged := hsearch ▸ h.judged.keep (h.sound.keeps_meet hfresh) (h.sound.done_meet hfresh)
    time := fun v ↦ ?_
    frames := fun f hf ↦ ?_
    base := fun r hr ↦ ?_
    children := fun r hr ↦ ?_ }
  · by_cases hv : v = next
    · subst hv
      simp only [Dfs.discover, update_self, le_refl]
    · simp only [Dfs.discover, update_of_ne hv]
      exact (htime v).le
  · rcases mem_cons.1 hf with rfl | hf
    · have hself : update parent next (some frame.node) next = some frame.node := update_self ..
      exact ⟨hself.symm, fun w hw ↦ absurd hw not_mem_nil, fun hnone ↦
        absurd (hself.symm.trans hnone) (some_ne_none _)⟩
    rcases mem_cons.1 hf with rfl | hf
    · exact (hfits.advance hnext).mono (update_of_ne (hmet frame hframe) ..) fun w hw ↦ hw
    · have hf : f ∈ s.stack := hstack ▸ .tail _ hf
      exact (h.frames f hf).mono (update_of_ne (hmet f hf) ..) fun w hw ↦ .inl hw
  · have hr := h.base r hr
    have hne : r ≠ next := fun heq ↦ hr.2 (heq ▸ hfresh)
    refine ⟨(update_of_ne hne ..).trans hr.1, ?_⟩
    simpa only [Dfs.discover, update_of_ne hne] using hr.2
  · have hcount : (Finset.univ.filter fun c ↦ update parent next (some frame.node) c = some r) =
        if frame.node = r then insert next (Finset.univ.filter fun c ↦ parent c = some r)
        else Finset.univ.filter fun c ↦ parent c = some r := by
      ext c
      by_cases hc : c = next
      · subst hc
        split <;> simp [*]
      · split <;> simp [hc]
    have hroot : frame.parent = none ↔ frame.node = r := by
      rw [hfits.met_from]
      constructor
      · exact fun hnone ↦ some.inj ((hfits.base hnone).symm.trans hr)
      · rintro rfl
        exact (h.base _ hr).1
    rw [hcount, h.children r hr]
    by_cases hnode : frame.node = r
    · rw [if_pos (hroot.2 hnode), if_pos hnode, Finset.card_insert_of_notMem]
      simp [hunmet]
    · rw [if_neg (mt hroot.1 hnode), if_neg hnode]

/-- A neighbour that was met before is looked at. -/
theorem Standing.look (h : Standing root s parent seen) (hstack : s.stack = frame :: below)
    (hnext : (graph.adj frame.node)[frame.cursor]? = some next) (hmet : s.disc next ≠ 0)
    {low : graph.Node → ℕ}
    (hlow : low = ((s.toLowLink parent seen).look frame.node next).low) :
    Standing root { s with low, stack := { frame with cursor := frame.cursor + 1 } :: below } parent
      fun a b ↦ seen a b ∨ (a = frame.node ∧ b = next) := by
  have hpath := h.path hstack
  have hsearch : ({ s with low, stack := { frame with cursor := frame.cursor + 1 } :: below } :
        graph.Dfs).toLowLink parent (fun a b ↦ seen a b ∨ (a = frame.node ∧ b = next)) =
      (s.toLowLink parent seen).look frame.node next := by
    rw [hlow]
    simp only [Dfs.toLowLink, LowLink.look, hstack, map_cons]
  have hframe : frame ∈ s.stack := hstack ▸ (.head _)
  have hopen : frame.node ∈ (s.toLowLink parent seen).path := hpath ▸ (.head _)
  refine {
    sound := hsearch ▸ h.sound.look hpath (adj_of_next hnext) hmet
    judged := hsearch ▸ h.judged.keep (LowLink.Sound.keeps_look hopen) fun _ _ ↦ Iff.rfl
    time := h.time
    frames := fun f hf ↦ ?_
    base := h.base
    children := h.children }
  rcases mem_cons.1 hf with rfl | hf
  · exact (h.frames frame hframe).advance hnext
  · exact (h.frames f (hstack ▸ .tail _ hf)).mono rfl fun w hw ↦ .inl hw

/-- All neighbours of a node have been looked at when its frame has none left. -/
theorem Standing.looked (h : Standing root s parent seen) (hstack : s.stack = frame :: below)
    (hlast : (graph.adj frame.node)[frame.cursor]? = none) (w : graph.Node)
    (hadj : graph.toSimple.Adj frame.node w) : seen frame.node w := by
  refine (h.frames frame (hstack ▸ (.head _))).looked w ?_
  rw [take_of_length_le (getElem?_eq_none_iff.1 hlast)]
  exact hadj

/-- A node is closed. -/
theorem Standing.back (h : Standing root s parent seen) (hstack : s.stack = frame :: below)
    (hlast : (graph.adj frame.node)[frame.cursor]? = none) {low : graph.Node → ℕ}
    (hlow : low = ((s.toLowLink parent seen).back frame.node).low) {isCut : graph.Node → Bool}
    {bridges : List (graph.Node × graph.Node)}
    (hjudged : Judged ((s.toLowLink parent seen).back frame.node) root isCut bridges) :
    Standing root { s with low, isCut, bridges, stack := below } parent seen := by
  have hpath := h.path hstack
  have hsearch :
      ({ s with low, isCut, bridges, stack := below } : graph.Dfs).toLowLink parent seen =
        (s.toLowLink parent seen).back frame.node := by
    rw [hlow]
    simp only [Dfs.toLowLink, LowLink.back, hstack, map_cons, tail_cons]
  exact {
    sound := hsearch ▸ h.sound.back hpath (h.looked hstack hlast)
    judged := hsearch ▸ hjudged
    time := h.time
    frames := fun f hf ↦ h.frames f (hstack ▸ .tail _ hf)
    base := h.base
    children := h.children }

/-- **A pass** goes on with a search that stands. -/
theorem Standing.turn (h : Standing (some start) s parent seen) (hturn : Turn start s s') :
    ∃ parent' seen', Standing (some start) s' parent' seen' := by
  cases hturn with
  | discover hstack hnext hfresh => exact ⟨_, _, h.discover hstack hnext hfresh⟩
  | @look frame below next hstack hnext hmet hparent =>
    have hfits := h.frames frame (hstack ▸ (.head _))
    refine ⟨_, _, h.look hstack hnext hmet ?_⟩
    have hparent : parent frame.node ≠ some next := fun heq ↦
      hparent (heq.symm.trans hfits.met_from.symm)
    exact (LowLink.look_low (s := s.toLowLink parent seen) hparent).symm
  | @skip frame below next hstack hnext hmet hparent =>
    have hfits := h.frames frame (hstack ▸ (.head _))
    refine ⟨_, _, h.look hstack hnext hmet ?_⟩
    have hparent : parent frame.node = some next := hfits.met_from.symm.trans hparent.symm
    exact (LowLink.look_low_of_parent (s := s.toLowLink parent seen) hparent).symm
  | @retreat frame below p hstack hlast hparent =>
    have hfits := h.frames frame (hstack ▸ (.head _))
    have hpath := h.path hstack
    have hp : parent frame.node = some p := hfits.met_from.symm.trans hparent
    have hne : frame.node ≠ p := by
      rintro heq
      exact lt_irrefl _ (heq ▸ h.sound.earlier frame.node p hp)
    have hroot : parent p = none ↔ p = start := by
      constructor
      · intro hnone
        have hopen := h.sound.parent_mem (hpath ▸ (.head _)) hp
        obtain ⟨f, hf, rfl⟩ := mem_map.1 hopen
        exact (some.inj ((h.frames f hf).base hnone)).symm
      · rintro rfl
        exact (h.base _ rfl).1
    have hsame : update s.low p (min (s.low p) (s.low frame.node)) frame.node = s.low frame.node :=
      update_of_ne hne ..
    refine ⟨parent, seen, h.back hstack hlast ?_ ?_⟩
    · exact (LowLink.back_low_of_parent (s := s.toLowLink parent seen) hp).symm
    · rw [hsame]
      exact h.judged.back h.sound hpath hp hroot
  | @close frame below hstack hlast hparent =>
    have hfits := h.frames frame (hstack ▸ (.head _))
    have hpath := h.path hstack
    have hp : parent frame.node = none := hfits.met_from.symm.trans hparent
    refine ⟨parent, seen, h.back hstack hlast ?_ ?_⟩
    · exact (LowLink.back_low_of_root (s := s.toLowLink parent seen) hp).symm
    · refine h.judged.keep (h.sound.keeps_back hpath) fun c p ↦ ?_
      rw [h.sound.done_back hpath]
      exact or_iff_left fun hnew ↦ some_ne_none p (hnew.2.symm.trans hp)

/-! ## The whole search -/

theorem Standing.new :
    Standing none (Dfs.new : graph.Dfs) (fun _ ↦ none) fun _ _ ↦ False where
  sound := {
    adj := fun _ _ hp ↦ absurd hp.symm (some_ne_none _)
    earlier := fun _ _ hp ↦ absurd hp.symm (some_ne_none _)
    met := fun _ _ hp ↦ absurd hp.symm (some_ne_none _)
    chain := isChain_nil
    path_met := nofun
    last := fun _ _ ↦ rfl
    seen_from := fun _ _ hseen ↦ hseen.elim
    seen_met := fun _ _ hseen ↦ hseen.elim
    across := fun _ _ hseen ↦ hseen.elim
    seen_low := fun _ _ hseen ↦ hseen.elim
    closed := fun _ _ hmet ↦ absurd rfl hmet
    low_le := fun _ ↦ le_rfl
    low_child := fun _ _ hp ↦ absurd hp.symm (some_ne_none _)
    attained := fun _ hmet ↦ absurd rfl hmet }
  judged := by
    have hnone : ∀ c p,
        ¬ ((Dfs.new : graph.Dfs).toLowLink (fun _ ↦ none) fun _ _ ↦ False).Done c p :=
      fun c p hdone ↦ some_ne_none p hdone.1.symm
    refine ⟨fun v ↦ iff_of_false Bool.false_ne_true ?_, nodup_nil, fun e ↦
      iff_of_false not_mem_nil ?_⟩
    · rintro (⟨-, c, hc, -⟩ | ⟨-, -, c, -, -, hc, -⟩)
      · exact hnone c v hc
      · exact hnone c v hc
    · rintro ⟨c, p, hc, -⟩
      exact hnone c p hc
  time := fun _ ↦ le_rfl
  frames := nofun
  base := fun _ hr ↦ absurd hr (some_ne_none _).symm
  children := fun _ hr ↦ absurd hr (some_ne_none _).symm

/-- A search from a new root. -/
theorem Standing.begin (h : Standing none s parent seen) (hstack : s.stack = [])
    (hfresh : s.disc start = 0) :
    Standing (some start) { s.discover start with rootChildren := 0, stack := [⟨start, none, 0⟩] }
      parent seen := by
  have hpath : (s.toLowLink parent seen).path = [] := by
    rw [Dfs.toLowLink, hstack, map_nil]
  have hsearch : ({ s.discover start with rootChildren := 0, stack := [⟨start, none, 0⟩] } :
        graph.Dfs).toLowLink parent seen =
      (s.toLowLink parent seen).root start (s.timer + 1) := rfl
  have hunmet : parent start = none := h.sound.parent_of_unmet hfresh
  have hchildless : ∀ c, parent c ≠ some start := fun c hc ↦ h.sound.met c start hc hfresh
  have hjudged :
      Judged ((s.toLowLink parent seen).root start (s.timer + 1)) none s.isCut s.bridges :=
    h.judged.keep (h.sound.keeps_root hfresh) (h.sound.done_root hpath hfresh)
  refine {
    sound := hsearch ▸ h.sound.root hpath hfresh (Nat.succ_ne_zero _)
    judged := hsearch ▸ hjudged.begin fun c hc ↦ hchildless c hc.1
    time := fun v ↦ ?_
    frames := fun f hf ↦ ?_
    base := fun r hr ↦ ?_
    children := fun r hr ↦ ?_ }
  · by_cases hv : v = start
    · subst hv
      simp only [Dfs.discover, update_self, le_refl]
    · simp only [Dfs.discover, update_of_ne hv]
      exact (h.time v).trans (Nat.le_succ _)
  · obtain rfl := mem_singleton.1 hf
    exact ⟨hunmet.symm, nofun, fun _ ↦ rfl⟩
  · cases hr
    refine ⟨hunmet, ?_⟩
    simp only [Dfs.discover, update_self]
    exact Nat.succ_ne_zero _
  · cases hr
    rw [eq_comm, Finset.card_eq_zero, Finset.filter_eq_empty_iff]
    exact fun c _ ↦ hchildless c

theorem Turn.met (hturn : Turn start s s') {v : graph.Node} (hv : s.disc v ≠ 0) :
    s'.disc v ≠ 0 := by
  cases hturn with
  | @discover frame below next hstack hnext hfresh =>
    have hne : v ≠ next := fun heq ↦ hv (heq ▸ hfresh)
    simpa only [Dfs.discover, update_of_ne hne] using hv
  | look | skip | retreat | close => exact hv

theorem searchPass_leave {r : graph.Dfs} (h : searchPass start s = .leave r) :
    s.stack = [] ∧ r = s := by
  rw [searchPass] at h
  split at h
  · rename_i hnil
    exact ⟨hnil, (Pass.leave.inj h).symm⟩
  split at h <;> split at h
  · cases h
  · split at h <;> cases h
  · cases h
  · cases h

/-- The loop over the stack closes every node that it meets. -/
theorem Standing.run (h : Standing (some start) s parent seen) {t : graph.Dfs}
    (ht : t = Loop.run (searchPass start) remaining (searchPass_falls start) s) :
    (∃ parent seen, Standing (some start) t parent seen) ∧ t.stack = [] ∧
      ∀ v, s.disc v ≠ 0 → t.disc v ≠ 0 := by
  rw [ht]
  refine Loop.run_inv
    (fun t ↦ (∃ parent seen, Standing (some start) t parent seen) ∧
      ∀ v, s.disc v ≠ 0 → t.disc v ≠ 0)
    (fun t ↦ (∃ parent seen, Standing (some start) t parent seen) ∧ t.stack = [] ∧
      ∀ v, s.disc v ≠ 0 → t.disc v ≠ 0)
    (fun t t' ht hpass ↦ ?_) (fun t r ht hpass ↦ ?_) ⟨⟨parent, seen, h⟩, fun v hv ↦ hv⟩
  · obtain ⟨⟨parent, seen, ht⟩, hmet⟩ := ht
    have hturn := searchPass_turn hpass
    exact ⟨ht.turn hturn, fun v hv ↦ hturn.met (hmet v hv)⟩
  · obtain ⟨hempty, rfl⟩ := searchPass_leave hpass
    exact ⟨ht.1, hempty, ht.2⟩

/-- A search whose root has been closed is over. -/
theorem Standing.finish (h : Standing (some start) s parent seen) (hempty : s.stack = []) :
    Standing none (if s.rootChildren > 1 then { s with isCut := update s.isCut start true } else s)
      parent seen := by
  have hclosed : ∀ c p, (s.toLowLink parent seen).Done c p ↔ parent c = some p := by
    intro c p
    refine and_iff_left ?_
    rw [Dfs.toLowLink, hempty]
    exact not_mem_nil
  have hmany : s.rootChildren > 1 ↔ ∃ c d, c ≠ d ∧ (s.toLowLink parent seen).Done c start ∧
      (s.toLowLink parent seen).Done d start := by
    simp only [h.children start rfl, gt_iff_lt, Finset.one_lt_card, Finset.mem_filter,
      Finset.mem_univ, true_and, hclosed]
    constructor
    · rintro ⟨c, hc, d, hd, hne⟩
      exact ⟨c, d, hne, hc, hd⟩
    · rintro ⟨c, d, hne, hc, hd⟩
      exact ⟨c, hc, d, hd, hne⟩
  have hjudged := h.judged.finish (h.base start rfl).1 (s.rootChildren > 1) hmany
  have hframes : ∀ frame ∈ s.stack, frame.Fits none parent seen := fun f hf ↦
    absurd hf (hempty ▸ not_mem_nil)
  have hbase : ∀ r : graph.Node, none = some r → parent r = none ∧ s.disc r ≠ 0 := fun r hr ↦
    absurd hr (some_ne_none r).symm
  have hchildren : ∀ r : graph.Node, none = some r →
      s.rootChildren = (Finset.univ.filter fun c ↦ parent c = some r).card := fun r hr ↦
    absurd hr (some_ne_none r).symm
  by_cases hcut : s.rootChildren > 1
  · rw [if_pos hcut] at hjudged ⊢
    exact ⟨h.sound, hjudged, h.time, hframes, hbase, hchildren⟩
  · rw [if_neg hcut] at hjudged ⊢
    exact ⟨h.sound, hjudged, h.time, hframes, hbase, hchildren⟩

/-- Between two roots: no node is open. -/
def Rested (s : graph.Dfs) : Prop :=
  s.stack = [] ∧ ∃ parent seen, Standing none s parent seen

/-- **The search from a node** meets it, and rests. -/
theorem searchFrom_rests (h : Rested s) (start : graph.Node) :
    Rested (searchFrom s start) ∧ (searchFrom s start).disc start ≠ 0 ∧
      ∀ v, s.disc v ≠ 0 → (searchFrom s start).disc v ≠ 0 := by
  obtain ⟨hstack, parent, seen, hstands⟩ := h
  rw [searchFrom]
  split
  · rename_i hmet
    exact ⟨⟨hstack, parent, seen, hstands⟩, hmet, fun v hv ↦ hv⟩
  rename_i hfresh
  have hfresh : s.disc start = 0 := not_not.1 hfresh
  have hfirst : ∀ v, s.disc v ≠ 0 ∨ v = start → (s.discover start).disc v ≠ 0 := by
    intro v hv
    by_cases heq : v = start
    · subst heq
      simp only [Dfs.discover, update_self]
      exact Nat.succ_ne_zero _
    · simpa only [Dfs.discover, update_of_ne heq] using hv.resolve_right heq
  obtain ⟨⟨parent', seen', hdone⟩, hempty, hmet⟩ := (hstands.begin hstack hfresh).run rfl
  have hfinish := hdone.finish hempty
  have hdisc : ∀ t : graph.Dfs,
      (if t.rootChildren > 1 then { t with isCut := update t.isCut start true } else t).disc =
        t.disc ∧
      (if t.rootChildren > 1 then { t with isCut := update t.isCut start true } else t).stack =
        t.stack := by
    intro t
    split <;> exact ⟨rfl, rfl⟩
  refine ⟨⟨(hdisc _).2.trans hempty, parent', seen', hfinish⟩, ?_, fun v hv ↦ ?_⟩
  · rw [(hdisc _).1]
    exact hmet start (hfirst start (.inr rfl))
  · rw [(hdisc _).1]
    exact hmet v (hfirst v (.inl hv))

theorem foldl_searchFrom (starts : List graph.Node) (h : Rested s) :
    Rested (starts.foldl searchFrom s) ∧
      ∀ v, s.disc v ≠ 0 ∨ v ∈ starts → (starts.foldl searchFrom s).disc v ≠ 0 := by
  induction starts generalizing s with
  | nil => exact ⟨h, fun v hv ↦ hv.resolve_right not_mem_nil⟩
  | cons start starts ih =>
    obtain ⟨hrests, hstart, hkept⟩ := searchFrom_rests h start
    obtain ⟨hall, hmet⟩ := ih hrests
    refine ⟨hall, fun v hv ↦ hmet v ?_⟩
    rcases hv with hv | hv
    · exact .inl (hkept v hv)
    · rcases mem_cons.1 hv with rfl | hv
      · exact .inl hstart
      · exact .inr hv

end

/-- **What holds the graph together.**  The nodes found are those without which the other nodes have
more connected components than the graph, and the edges found are those without which it has more,
each once and in ascending order. -/
theorem cutVerticesAndBridges_spec (entities : List Entity) (relations : List EntityRelation) :
    let graph := build entities relations
    let found := cutVerticesAndBridges graph
    (found.1.Pairwise (· < ·) ∧ ∀ v, v ∈ found.1 ↔
      Nat.card graph.toSimple.ConnectedComponent <
        Nat.card (graph.toSimple.induce {v}ᶜ).ConnectedComponent) ∧
    (found.2.Pairwise fun left right ↦ toLex left < toLex right) ∧
    ∀ left right, (left, right) ∈ found.2 ↔ left < right ∧ graph.toSimple.Adj left right ∧
      Nat.card graph.toSimple.ConnectedComponent <
        Nat.card (graph.toSimple.deleteEdges {s(left, right)}).ConnectedComponent := by
  intro graph found
  obtain ⟨⟨hempty, parent, seen, hstands⟩, hmet⟩ :=
    foldl_searchFrom (finRange graph.nodeCount) (s := Dfs.new) ⟨rfl, _, _, Standing.new⟩
  generalize hs : (finRange graph.nodeCount).foldl searchFrom Dfs.new = s
    at hempty hstands hmet
  have hpath : (s.toLowLink parent seen).path = [] := by
    rw [Dfs.toLowLink, hempty, map_nil]
  have hlow := hstands.sound.lowPoints hpath fun v ↦ hmet v (.inr (mem_finRange v))
  have hdone : ∀ c p, (s.toLowLink parent seen).Done c p ↔ parent c = some p := fun c p ↦
    and_iff_left (hpath ▸ not_mem_nil)
  have hfound : found = ((finRange graph.nodeCount).filter s.isCut,
      s.bridges.insertionSort fun left right ↦ toLex left ≤ toLex right) := by
    rw [← hs]
    rfl
  rw [hfound]
  refine ⟨⟨(pairwise_lt_finRange _).filter _, fun v ↦ ?_⟩, ?_, fun left right ↦ ?_⟩
  · refine mem_filter.trans ((and_iff_right (mem_finRange v)).trans ?_)
    rw [Separation.card_lt_card_induce_iff, hlow.separates_iff, hstands.judged.isCut]
    simp only [hdone]
    refine or_congr_right (and_congr_right fun _ ↦ and_iff_right (some_ne_none v).symm)
  · have hle := pairwise_insertionSort (fun left right ↦ toLex left ≤ toLex right) s.bridges
    have hnodup := (perm_insertionSort (fun left right ↦ toLex left ≤ toLex right)
      s.bridges).nodup_iff.2 hstands.judged.nodup
    exact (hle.and hnodup).imp fun h ↦ lt_of_le_of_ne h.1 fun heq ↦ h.2 (toLex.injective heq)
  · rw [mem_insertionSort, hstands.judged.bridges]
    simp only [hdone]
    constructor
    · rintro ⟨c, p, hc, hlt, heq⟩
      cases heq
      have hadj := hlow.adj c p hc
      have hadj' : graph.toSimple.Adj (p ⊓ c) (p ⊔ c) := by
        rcases le_total p c with hle | hle
        · rw [inf_eq_left.2 hle, sup_eq_right.2 hle]
          exact hadj.symm
        · rw [inf_eq_right.2 hle, sup_eq_left.2 hle]
          exact hadj
      refine ⟨inf_lt_sup.2 hadj.ne', hadj', ?_⟩
      rw [Separation.card_lt_card_deleteEdges_iff hadj', hlow.bridge_iff hadj']
      rcases le_total p c with hle | hle
      · rw [inf_eq_left.2 hle, sup_eq_right.2 hle]
        exact .inr ⟨hc, hlt⟩
      · rw [inf_eq_right.2 hle, sup_eq_left.2 hle]
        exact .inl ⟨hc, hlt⟩
    · rintro ⟨hlt, hadj, hcard⟩
      rw [Separation.card_lt_card_deleteEdges_iff hadj, hlow.bridge_iff hadj] at hcard
      rcases hcard with ⟨hc, hearly⟩ | ⟨hc, hearly⟩
      · exact ⟨left, right, hc, hearly, by rw [inf_eq_right.2 hlt.le, sup_eq_left.2 hlt.le]⟩
      · exact ⟨right, left, hc, hearly, by rw [inf_eq_left.2 hlt.le, sup_eq_right.2 hlt.le]⟩

end EntityGraph

end Huntsman
