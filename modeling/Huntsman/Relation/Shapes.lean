import Huntsman.Lib.Cells
import Huntsman.Relation.Search
import Huntsman.UnionFind

/-!
# The shapes of the components

Whether a search can be skipped is decided by the `Shape` of the component of identity relations
that its start falls in: whether every two of its nodes are joined by an edge, and whether every
edge is as wide as the narrower of the widest edges at its ends.  `shapes` finds both in one pass
over the edges at every node and one over all edges.  What a set flag says is `complete_spec` and
`bounded_spec`.
-/

set_option autoImplicit false

namespace Huntsman

namespace IdentityIndex

open Function List

variable {index : IdentityIndex}

/-! ## Components -/

/-- The nodes, joined by every edge. -/
def joinedNodes (index : IdentityIndex) : UnionFind index.uids.length :=
  (List.finRange index.edges.length).foldl
    (fun sets (edge : index.Edge) ↦ (sets.union (fromNode edge) (toNode edge)).2) (.new _)

/-- The component of identity relations each node falls in, named by one of its nodes. -/
def components (index : IdentityIndex) : index.Node → index.Node :=
  ((List.finRange index.uids.length).foldl
    (fun (s : (index.Node → index.Node) × UnionFind index.uids.length) node ↦
      (update s.1 node (s.2.find node).1, (s.2.find node).2)) (id, index.joinedNodes)).1

theorem foldl_find {n : ℕ} {root : Fin n → Fin n} (nodes : List (Fin n)) :
    ∀ (s : (Fin n → Fin n) × UnionFind n), s.2.Roots root → ∀ node,
      (nodes.foldl (fun s node ↦ (update s.1 node (s.2.find node).1, (s.2.find node).2)) s).1 node =
        if node ∈ nodes then root node else s.1 node := by
  induction nodes with
  | nil => exact fun _ _ _ ↦ (if_neg not_mem_nil).symm
  | cons first nodes ih =>
    intro s hroots node
    obtain ⟨hroot, hroots'⟩ := UnionFind.find_spec hroots first
    rw [foldl_cons, ih _ hroots' node]
    simp only [mem_cons]
    by_cases hmem : node ∈ nodes
    · rw [if_pos hmem, if_pos (.inr hmem)]
    · by_cases heq : node = first
      · rw [if_neg hmem, if_pos (.inl heq), heq, update_self, hroot]
      · rw [if_neg hmem, if_neg (not_or.2 ⟨heq, hmem⟩), update_of_ne heq]

/-- **Two nodes fall in one component exactly when edges connect them.** -/
theorem components_eq_iff {left right : index.Node} :
    index.components left = index.components right ↔
      Relation.EqvGen (fun a b ↦ ∃ edge : index.Edge, fromNode edge = a ∧ toNode edge = b) left right := by
  obtain ⟨root, hroots, hjoined⟩ := UnionFind.run_roots
    ((finRange index.edges.length).map fun edge : index.Edge ↦
      UnionFind.Op.union (fromNode edge) (toNode edge))
  have hsets : index.joinedNodes = UnionFind.run ((finRange index.edges.length).map
      fun edge : index.Edge ↦ UnionFind.Op.union (fromNode edge) (toNode edge)) := by
    rw [UnionFind.run, foldl_map]
    rfl
  have hroot : ∀ node, index.components node = root node := fun node ↦ by
    rw [components, foldl_find _ _ (hsets ▸ hroots), if_pos (mem_finRange node)]
  have hpairs : ∀ edges : List index.Edge, UnionFind.pairs (edges.map fun edge ↦
      UnionFind.Op.union (fromNode edge) (toNode edge)) =
        edges.map fun edge ↦ (fromNode edge, toNode edge) := by
    intro edges
    induction edges with
    | nil => rfl
    | cons edge edges ih => exact congrArg _ ih
  rw [hroot, hroot, hjoined, UnionFind.Joined, hpairs]
  simp only [mem_map, mem_finRange, true_and, Prod.mk.injEq]

theorem components_across {edge : index.Edge} {node : index.Node} (h : edge ∈ incidentAt node) :
    index.components (across edge node) = index.components node := by
  have hends : index.components (fromNode edge) = index.components (toNode edge) :=
    components_eq_iff.2 (.rel _ _ ⟨edge, rfl, rfl⟩)
  rw [across]
  split
  · rename_i hfrom
    rw [← hends, hfrom]
  · rename_i hfrom
    rw [hends, (mem_incidentAt.1 h).resolve_left hfrom]

/-! ## The edges at each node -/

/-- How far an edge of a confidence narrows the paths that take it. -/
def width (confidence : F64) : F64 := F64.min (.number fullWidth) confidence

theorem width_eq (confidence : F64) : width confidence = .number (fullWidth ⊓ narrowing confidence) :=
  min_number fullWidth confidence

/-- What is noted of the edges at each node. -/
structure Census (index : IdentityIndex) where
  /-- The widest edge at each node. -/
  widest : index.Node → F64
  /-- How many nodes each node is joined to. -/
  neighbours : index.Node → ℕ
  /-- The last node each node was counted for. -/
  counted : index.Node → Option index.Node

namespace Census

/-- Note an edge at a node.  A self-loop joins no two nodes. -/
def note (node : index.Node) (census : Census index) (edge : index.Edge) : Census index :=
  let other := across edge node
  if other = node then census
  else
    let widest := update census.widest node ((census.widest node).max (width (confidence edge)))
    if census.counted other = some node then { census with widest := widest }
    else
      { widest := widest
        neighbours := update census.neighbours node (census.neighbours node + 1)
        counted := update census.counted other (some node) }

/-- Note the edges at a node. -/
def noteNode (census : Census index) (node : index.Node) : Census index :=
  (incidentAt node).foldl (note node) census

/-- Nothing is noted of a node. -/
structure Blank (census : Census index) (node : index.Node) : Prop where
  widest : census.widest node = .number ⊥
  neighbours : census.neighbours node = 0
  counted : ∀ other, census.counted other ≠ some node

/-- The nodes that a node is joined to by edges. -/
def others (node : index.Node) (edges : List index.Edge) : Finset index.Node :=
  Finset.univ.filter fun other ↦ other ≠ node ∧ ∃ edge ∈ edges, across edge node = other

theorem mem_others {node other : index.Node} {edges : List index.Edge} :
    other ∈ others node edges ↔ other ≠ node ∧ ∃ edge ∈ edges, across edge node = other := by
  rw [others, Finset.mem_filter, and_iff_right (Finset.mem_univ _)]

theorem others_append (node : index.Node) (edges : List index.Edge) (edge : index.Edge) :
    others node (edges ++ [edge]) =
      if across edge node = node then others node edges
      else insert (across edge node) (others node edges) := by
  ext other
  split
  · rename_i hloop
    simp only [mem_others, mem_append, mem_singleton, or_and_right, exists_or,
      exists_eq_left, hloop]
    exact and_congr_right fun hne ↦ or_iff_left (Ne.symm hne)
  · rename_i hne
    rw [Finset.mem_insert, mem_others, mem_others]
    simp only [mem_append, mem_singleton, or_and_right, exists_or, exists_eq_left]
    constructor
    · rintro ⟨hother, h | h⟩
      · exact .inr ⟨hother, h⟩
      · exact .inl h.symm
    · rintro (rfl | ⟨hother, h⟩)
      · exact ⟨hne, .inr rfl⟩
      · exact ⟨hother, .inl h⟩

/-- What noting edges at a node comes to, of a node of which nothing was noted. -/
structure Notes (node : index.Node) (edges : List index.Edge) (before after : Census index) :
    Prop where
  widest : ∃ w, after.widest node = .number w ∧ ∀ edge ∈ edges, across edge node ≠ node →
    fullWidth ⊓ narrowing (confidence edge) ≤ w
  neighbours : after.neighbours node = (others node edges).card
  counted : ∀ other, after.counted other = some node ↔ other ∈ others node edges
  /-- What was noted of the other nodes stays. -/
  kept : ∀ node', node' ≠ node → after.widest node' = before.widest node' ∧
    after.neighbours node' = before.neighbours node' ∧
    ∀ other, after.counted other = some node' → before.counted other = some node'

theorem Notes.note {node : index.Node} {edges : List index.Edge} {before after : Census index}
    (h : Notes node edges before after) (edge : index.Edge) :
    Notes node (edges ++ [edge]) before (after.note node edge) := by
  obtain ⟨w, hw, hwidest⟩ := h.widest
  rw [Census.note]
  split
  · -- A self-loop is not noted.
    rename_i hloop
    refine ⟨⟨w, hw, fun e he hne ↦ ?_⟩, ?_, fun other ↦ ?_, h.kept⟩
    · rcases mem_append.1 he with he | he
      · exact hwidest e he hne
      · exact absurd hloop (mem_singleton.1 he ▸ hne)
    · rw [others_append, if_pos hloop, h.neighbours]
    · rw [others_append, if_pos hloop, h.counted]
  rename_i hne
  have hwide : ∃ w', (after.widest node).max (width (confidence edge)) = .number w' ∧
      ∀ e ∈ edges ++ [edge], across e node ≠ node →
        fullWidth ⊓ narrowing (confidence e) ≤ w' := by
    refine ⟨w ⊔ (fullWidth ⊓ narrowing (confidence edge)), ?_, fun e he hne ↦ ?_⟩
    · rw [hw, width_eq]
      rfl
    · rcases mem_append.1 he with he | he
      · exact (hwidest e he hne).trans le_sup_left
      · exact mem_singleton.1 he ▸ le_sup_right
  have hset := others_append node edges edge
  rw [if_neg hne] at hset
  split
  · rename_i hcounted
    rw [Finset.insert_eq_self.2 ((h.counted _).1 hcounted)] at hset
    refine ⟨?_, by rw [hset, h.neighbours], fun other ↦ by rw [hset, h.counted],
      fun node' hnode' ↦ ?_⟩
    · simp only [update_self]
      exact hwide
    · simp only [update_of_ne hnode']
      exact h.kept node' hnode'
  · rename_i hcounted
    have hnew : across edge node ∉ others node edges := fun hmem ↦ hcounted ((h.counted _).2 hmem)
    refine ⟨?_, ?_, fun other ↦ ?_, fun node' hnode' ↦ ?_⟩
    · simp only [update_self]
      exact hwide
    · simp only [update_self, hset, Finset.card_insert_of_notMem hnew, h.neighbours]
    · rw [hset, Finset.mem_insert, ← h.counted]
      by_cases heq : other = across edge node
      · simp only [heq, update_self, true_or]
      · simp only [update_of_ne heq, or_iff_right heq]
    · obtain ⟨hwidest', hneighbours', hcounted'⟩ := h.kept node' hnode'
      refine ⟨(update_of_ne hnode' _ _).trans hwidest', (update_of_ne hnode' _ _).trans hneighbours',
        fun other hother ↦ hcounted' other ?_⟩
      by_cases heq : other = across edge node
      · simp only [heq, update_self] at hother
        exact absurd (Option.some.inj hother).symm hnode'
      · simpa only [update_of_ne heq] using hother

theorem noteNode_notes {node : index.Node} {census : Census index} (hblank : Blank census node) :
    Notes node (incidentAt node) census (census.noteNode node) := by
  rw [noteNode]
  induction incidentAt node using reverseRecOn with
  | nil =>
    have hnone : others node ([] : List index.Edge) = ∅ := by
      rw [others, Finset.filter_eq_empty_iff]
      rintro other - ⟨-, edge, hedge, -⟩
      exact not_mem_nil hedge
    refine ⟨⟨⊥, hblank.widest, nofun⟩, ?_, fun other ↦ ?_,
      fun _ _ ↦ ⟨rfl, rfl, fun _ h ↦ h⟩⟩
    · rw [hnone, Finset.card_empty]
      exact hblank.neighbours
    · rw [hnone]
      exact iff_of_false (hblank.counted other) (Finset.notMem_empty other)
  | append_singleton edges edge ih =>
    rw [foldl_append, foldl_cons, foldl_nil]
    exact ih.note edge

/-- What is noted of a node is so. -/
structure Noted (census : Census index) (node : index.Node) : Prop where
  widest : ∃ w, census.widest node = .number w ∧ ∀ edge ∈ incidentAt node,
    across edge node ≠ node → fullWidth ⊓ narrowing (confidence edge) ≤ w
  neighbours : census.neighbours node = (others node (incidentAt node)).card

/-- Note the edges at nodes one after the other, from nothing noted. -/
def ofNodes (nodes : List index.Node) : Census index :=
  nodes.foldl noteNode ⟨fun _ ↦ .number ⊥, fun _ ↦ 0, fun _ ↦ none⟩

/-- **The census is right**: a node that a mark was left for is not the one that is counted for. -/
theorem ofNodes_noted {nodes : List index.Node} (hnodup : nodes.Nodup) :
    (∀ node ∈ nodes, Noted (ofNodes nodes) node) ∧
      ∀ node, node ∉ nodes → Blank (ofNodes nodes) node := by
  induction nodes using reverseRecOn with
  | nil => exact ⟨nofun, fun _ _ ↦ ⟨rfl, rfl, by simp [ofNodes]⟩⟩
  | append_singleton nodes last ih =>
    rw [nodup_append] at hnodup
    obtain ⟨hnodup, -, hdisjoint⟩ := hnodup
    obtain ⟨hnoted, hblank⟩ := ih hnodup
    have hlast : last ∉ nodes := fun h ↦ hdisjoint last h last (mem_singleton_self last) rfl
    have hnotes := noteNode_notes (hblank last hlast)
    rw [show ofNodes (nodes ++ [last]) = (ofNodes nodes).noteNode last by
      rw [ofNodes, foldl_append]; rfl]
    refine ⟨fun node hnode ↦ ?_, fun node hnode ↦ ?_⟩
    · by_cases heq : node = last
      · rw [heq]
        exact ⟨hnotes.widest, hnotes.neighbours⟩
      · obtain ⟨hwidest, hneighbours, -⟩ := hnotes.kept node heq
        have hold := hnoted node ((mem_append.1 hnode).resolve_right
          fun h ↦ heq (mem_singleton.1 h))
        exact ⟨hwidest ▸ hold.widest, hneighbours ▸ hold.neighbours⟩
    · rw [mem_append, mem_singleton, not_or] at hnode
      obtain ⟨hwidest, hneighbours, hcounted⟩ := hnotes.kept node hnode.2
      have hold := hblank node hnode.1
      exact ⟨hwidest.trans hold.widest, hneighbours.trans hold.neighbours,
        fun other h ↦ hold.counted other (hcounted other h)⟩

end Census

/-- What is noted of the edges at every node. -/
def census (index : IdentityIndex) : Census index := .ofNodes (List.finRange index.uids.length)

theorem census_noted (node : index.Node) : index.census.Noted node :=
  (Census.ofNodes_noted (nodup_finRange _)).1 node (mem_finRange node)

/-! ## Shapes -/

/-- What one component of the identity relations looks like, where that lets a search be skipped. -/
structure Shape (index : IdentityIndex) where
  /-- Every two of the component's nodes are joined by an edge. -/
  complete : Bool
  /-- Every edge is as wide as the narrower of the widest edges at its two ends. -/
  bounded : Bool
  /-- The number of the basis every edge rests on, when one basis carries them all. -/
  basis : Option (Fin index.bases.length)

/-- Note what a further edge rests on, and whether several bases carry the component's edges. -/
def Shape.rest (shape : Shape index) (mixed : Bool) (restsOn : Fin index.bases.length) :
    Shape index × Bool :=
  match shape.basis with
  | none => if mixed then (shape, mixed) else ({ shape with basis := some restsOn }, mixed)
  | some basis => if basis ≠ restsOn then ({ shape with basis := none }, true) else (shape, mixed)

@[simp] theorem Shape.rest_complete (shape : Shape index) (mixed : Bool)
    (restsOn : Fin index.bases.length) : (shape.rest mixed restsOn).1.complete = shape.complete := by
  rw [Shape.rest]
  split <;> split <;> rfl

@[simp] theorem Shape.rest_bounded (shape : Shape index) (mixed : Bool)
    (restsOn : Fin index.bases.length) : (shape.rest mixed restsOn).1.bounded = shape.bounded := by
  rw [Shape.rest]
  split <;> split <;> rfl

/-- How many nodes each component has. -/
def sizes (component : index.Node → index.Node) : index.Node → ℕ :=
  (List.finRange index.uids.length).foldl
    (fun size node ↦ update size (component node) (size (component node) + 1)) fun _ ↦ 0

/-- Whether a node has as many neighbours as its component has other nodes. -/
def joinedToAll (component : index.Node → index.Node) (node : index.Node) : Bool :=
  index.census.neighbours node + 1 == sizes component (component node)

/-- Whether an edge is as wide as the narrower of the widest edges at its two ends.  It is never
wider than the widest edge at either end. -/
def asWide (edge : index.Edge) : Bool :=
  (width (confidence edge)).ge
    (F64.min (index.census.widest (fromNode edge)) (index.census.widest (toNode edge)))

def noteComplete (component : index.Node → index.Node) (shapes : index.Node → Shape index)
    (node : index.Node) : index.Node → Shape index :=
  update shapes (component node)
    { shapes (component node) with
      complete := (shapes (component node)).complete && joinedToAll component node }

/-- What one edge says of the shape of its component, and whether its edges rest on several
bases. -/
def noteEdge (component : index.Node → index.Node)
    (s : (index.Node → Shape index) × (index.Node → Bool)) (edge : index.Edge) :
    (index.Node → Shape index) × (index.Node → Bool) :=
  if fromNode edge = toNode edge then s
  else
    let root := component (fromNode edge)
    let shape := { s.1 root with bounded := (s.1 root).bounded && asWide edge }
    let noted := shape.rest (s.2 root) (basisOf edge)
    (update s.1 root noted.1, update s.2 root noted.2)

/-- The shape of the component each node falls in, given each node's component. -/
def shapes (index : IdentityIndex) (component : index.Node → index.Node) :
    index.Node → Shape index :=
  let complete := (List.finRange index.uids.length).foldl (noteComplete component)
    fun _ ↦ ⟨true, true, none⟩
  let both := (List.finRange index.edges.length).foldl (noteEdge component)
    (complete, fun _ ↦ false)
  fun node ↦ both.1 (component node)

theorem noteEdge_complete (component : index.Node → index.Node)
    (s : (index.Node → Shape index) × (index.Node → Bool)) (edge : index.Edge) (root : index.Node) :
    ((noteEdge component s edge).1 root).complete = (s.1 root).complete := by
  rw [noteEdge]
  split
  · rfl
  · by_cases heq : root = component (fromNode edge)
    · simp only [heq, update_self, Shape.rest_complete]
    · simp only [update_of_ne heq]

theorem noteEdge_bounded {component : index.Node → index.Node}
    {s : (index.Node → Shape index) × (index.Node → Bool)} {edge : index.Edge} {root : index.Node}
    (h : ((noteEdge component s edge).1 root).bounded = true) :
    (s.1 root).bounded = true ∧
      (fromNode edge ≠ toNode edge → component (fromNode edge) = root → asWide edge = true) := by
  rw [noteEdge] at h
  split at h
  · rename_i hloop
    exact ⟨h, fun hne ↦ absurd hloop hne⟩
  · by_cases heq : root = component (fromNode edge)
    · simp only [heq, update_self, Shape.rest_bounded, Bool.and_eq_true] at h
      exact ⟨heq ▸ h.1, fun _ _ ↦ h.2⟩
    · simp only [update_of_ne heq] at h
      exact ⟨h, fun _ hroot ↦ absurd hroot.symm heq⟩

theorem foldl_noteEdge {component : index.Node → index.Node} (edges : List index.Edge)
    (s : (index.Node → Shape index) × (index.Node → Bool)) (root : index.Node) :
    ((edges.foldl (noteEdge component) s).1 root).complete = (s.1 root).complete ∧
      (((edges.foldl (noteEdge component) s).1 root).bounded = true → ∀ edge ∈ edges,
        fromNode edge ≠ toNode edge → component (fromNode edge) = root → asWide edge = true) := by
  induction edges using reverseRecOn with
  | nil => exact ⟨rfl, fun _ _ h ↦ absurd h not_mem_nil⟩
  | append_singleton edges last ih =>
    rw [foldl_append, foldl_cons, foldl_nil]
    refine ⟨(noteEdge_complete component _ last root).trans ih.1, fun h edge hedge ↦ ?_⟩
    obtain ⟨hbounded, hlast⟩ := noteEdge_bounded h
    rcases mem_append.1 hedge with hedge | hedge
    · exact ih.2 hbounded edge hedge
    · exact mem_singleton.1 hedge ▸ hlast

theorem foldl_noteComplete (component : index.Node → index.Node) (nodes : List index.Node)
    (root : index.Node) :
    (nodes.foldl (noteComplete component) (fun _ ↦ ⟨true, true, none⟩) root).complete =
      (nodes.filter fun node ↦ component node = root).all (joinedToAll component) := by
  have hall : ∀ (l : List index.Node) (shape : Shape index),
      (l.foldl (fun shape node ↦
        { shape with complete := shape.complete && joinedToAll component node }) shape).complete =
        (shape.complete && l.all (joinedToAll component)) := by
    intro l
    induction l with
    | nil => exact fun shape ↦ (Bool.and_true _).symm
    | cons node l ih =>
      intro shape
      rw [foldl_cons, ih, all_cons, Bool.and_assoc]
  have hcell := Cells.foldl_update component (fun node (shape : Shape index) ↦
    { shape with complete := shape.complete && joinedToAll component node }) nodes
    (fun _ ↦ ⟨true, true, none⟩) root
  have hfold : nodes.foldl (noteComplete component) (fun _ ↦ ⟨true, true, none⟩) root =
      (nodes.filter fun node ↦ component node = root).foldl (fun shape node ↦
        { shape with complete := shape.complete && joinedToAll component node })
          ⟨true, true, none⟩ := hcell
  rw [hfold, hall, Bool.true_and]

/-- **In a complete component every two nodes are joined by an edge.** -/
theorem complete_spec {start other : index.Node}
    (h : (index.shapes index.components start).complete = true) (hne : other ≠ start)
    (hsame : index.components other = index.components start) :
    ∃ edge ∈ incidentAt start, across edge start = other := by
  let members := (Finset.univ.filter fun node ↦ index.components node = index.components start)
  have hcount : (Census.others start (incidentAt start)).card + 1 = members.card := by
    have hjoined : joinedToAll index.components start = true := by
      simp only [shapes] at h
      rw [(foldl_noteEdge _ _ _).1, foldl_noteComplete, all_eq_true] at h
      exact h start (mem_filter.2 ⟨mem_finRange start, by simp⟩)
    rw [joinedToAll, beq_iff_eq, (census_noted start).neighbours, sizes, Cells.foldl_count] at hjoined
    rw [hjoined, Cells.length_filter_finRange]
  have hsub : Census.others start (incidentAt start) ⊆ members.erase start := by
    intro node hnode
    obtain ⟨hne, edge, hedge, rfl⟩ := Census.mem_others.1 hnode
    exact Finset.mem_erase.2 ⟨hne, Finset.mem_filter.2
      ⟨Finset.mem_univ _, components_across hedge⟩⟩
  have hstart : start ∈ members := Finset.mem_filter.2 ⟨Finset.mem_univ _, rfl⟩
  have hcard := Finset.card_erase_of_mem hstart
  have hall := Finset.eq_of_subset_of_card_le hsub (by omega)
  have hother : other ∈ members.erase start :=
    Finset.mem_erase.2 ⟨hne, Finset.mem_filter.2 ⟨Finset.mem_univ _, hsame⟩⟩
  rw [← hall] at hother
  exact (Census.mem_others.1 hother).2

/-- **In a bounded component no edge is narrower than both of two edges at its ends.** -/
theorem bounded_spec {start left right : index.Node} {edge first last : index.Edge}
    (h : (index.shapes index.components start).bounded = true)
    (hsame : index.components left = index.components start) (hne : left ≠ right)
    (hedge : edge ∈ incidentAt left) (hacross : across edge left = right)
    (hfirst : first ∈ incidentAt left) (hfirst' : across first left ≠ left)
    (hlast : last ∈ incidentAt right) (hlast' : across last right ≠ right) :
    narrowing (confidence first) ⊓ narrowing (confidence last) ⊓ fullWidth ≤
      narrowing (confidence edge) := by
  obtain ⟨wl, hwl, hleft⟩ := (census_noted left).widest
  obtain ⟨wr, hwr, hright⟩ := (census_noted right).widest
  have hwide : wl ⊓ wr ≤ fullWidth ⊓ narrowing (confidence edge) := by
    have hends : fromNode edge = left ∧ toNode edge = right ∨
        fromNode edge = right ∧ toNode edge = left := by
      rw [across] at hacross
      split at hacross
      · rename_i hfrom
        exact .inl ⟨hfrom, hacross⟩
      · rename_i hfrom
        exact .inr ⟨hacross, (mem_incidentAt.1 hedge).resolve_left hfrom⟩
    have hwhole : fromNode edge ≠ toNode edge → index.components (fromNode edge) =
        index.components start → asWide edge = true := by
      simp only [shapes] at h
      exact (foldl_noteEdge _ _ _).2 h edge (mem_finRange edge)
    have hright' : index.components right = index.components start :=
      hacross ▸ (components_across hedge).trans hsame
    rcases hends with ⟨hfrom, hto⟩ | ⟨hfrom, hto⟩
    · rw [asWide, hfrom, hto, hwl, hwr, width_eq] at hwhole
      exact of_decide_eq_true (hwhole hne hsame)
    · rw [asWide, hfrom, hto, hwl, hwr, width_eq] at hwhole
      rw [inf_comm wl]
      exact of_decide_eq_true (hwhole (Ne.symm hne) hright')
  have hends : fullWidth ⊓ narrowing (confidence first) ⊓ (fullWidth ⊓ narrowing (confidence last)) ≤
      wl ⊓ wr := inf_le_inf (hleft first hfirst hfirst') (hright last hlast hlast')
  refine le_trans ?_ (hends.trans (hwide.trans inf_le_right))
  exact le_inf (le_inf inf_le_right (inf_le_left.trans inf_le_left))
    (le_inf inf_le_right (inf_le_left.trans inf_le_right))

end IdentityIndex

end Huntsman
