import Huntsman.Relation.Shapes

/-!
# The strongest path between every two nodes

`eachStrongestPath` visits, from each node in uid order, the strongest path to each node after it.
One search from a node finds them all, and from a node in a complete and bounded component there is
no need for one: the edge between two nodes is the strongest path.

`eachSearchedPath` is the same without that short cut.  The two visit the same paths in the same
order (`eachStrongestPath_eq`), because in such a component the search's best path to a node is one
edge (`best_of_skips`), however the heap breaks ties.
-/

set_option autoImplicit false

namespace Huntsman

namespace IdentityIndex

open Function List

variable {index : IdentityIndex}

/-! ## Paths within a complete and bounded component -/

/-- The net of all edges. -/
abbrev wholeNet (index : IdentityIndex) : Net index.Node index.Edge (WithBot (WithTop ℚ)) :=
  index.net fun _ ↦ false

theorem mem_hops {node : index.Node} {hop : index.Edge × index.Node} :
    hop ∈ index.wholeNet.hops node ↔ hop.1 ∈ incidentAt node ∧ hop.2 = across hop.1 node := by
  simp only [net, Bool.not_false, filter_true, mem_map]
  constructor
  · rintro ⟨edge, hedge, rfl⟩
    exact ⟨hedge, rfl⟩
  · rintro ⟨hedge, hacross⟩
    exact ⟨hop.1, hedge, Prod.ext rfl hacross.symm⟩

/-- An edge leads back. -/
theorem across_across {edge : index.Edge} {node : index.Node} (h : edge ∈ incidentAt node) :
    across edge (across edge node) = node := by
  rcases mem_incidentAt.1 h with hfrom | hto
  · rw [across, across, if_pos hfrom, hfrom]
    split
    · rename_i heq
      exact heq.symm
    · rfl
  · by_cases hfrom : fromNode edge = node
    · rw [across, across, if_pos hfrom, hfrom, hto, if_pos rfl]
    · rw [across, across, if_neg hfrom, if_pos rfl, hto]

variable {p : List (index.Edge × index.Node)}

theorem components_last {start : index.Node}
    (hp : index.wholeNet.IsPath start p) :
    index.components (Net.last start p) = index.components start := by
  induction hp with
  | nil => rfl
  | @cons p hop path mem fresh ih =>
    obtain ⟨hedge, hacross⟩ := mem_hops.1 mem
    rw [Net.last, hacross, components_across hedge, ih]

theorem last_mem_nodes (start : index.Node) (p : List (index.Edge × index.Node)) :
    Net.last start p ∈ Net.nodes start p := by
  rw [Net.nodes_eq_cons]
  exact .head _

theorem start_mem_nodes (start : index.Node) (p : List (index.Edge × index.Node)) :
    start ∈ Net.nodes start p :=
  mem_append_right _ (mem_singleton_self start)

/-- A path that takes an edge begins with one at its start, and is no wider. -/
theorem exists_first {start : index.Node}
    (hp : index.wholeNet.IsPath start p) (hne : p ≠ []) :
    ∃ edge ∈ incidentAt start, across edge start ≠ start ∧
      index.wholeNet.pathWidth p ≤ narrowing (confidence edge) := by
  induction hp with
  | nil => exact absurd rfl hne
  | @cons p hop path mem fresh ih =>
    obtain ⟨hedge, hacross⟩ := mem_hops.1 mem
    by_cases hempty : p = []
    · subst hempty
      refine ⟨hop.1, hedge, fun heq ↦ fresh ?_, inf_le_right⟩
      rw [hacross, show across hop.1 (Net.last start []) = start from heq]
      exact start_mem_nodes start []
    · obtain ⟨edge, hedge', hloop, hwidth⟩ := ih hempty
      exact ⟨edge, hedge', hloop, inf_le_left.trans hwidth⟩

/-- A path that takes an edge ends with one at its last node, and is no wider. -/
theorem exists_final {start : index.Node}
    (hp : index.wholeNet.IsPath start p) (hne : p ≠ []) :
    ∃ edge ∈ incidentAt (Net.last start p), across edge (Net.last start p) ≠ Net.last start p ∧
      index.wholeNet.pathWidth p ≤ narrowing (confidence edge) := by
  cases hp with
  | nil => exact absurd rfl hne
  | @cons p hop path mem fresh =>
    obtain ⟨hedge, hacross⟩ := mem_hops.1 mem
    refine ⟨hop.1, ?_, fun heq ↦ fresh ?_, inf_le_right⟩
    · rw [Net.last, hacross]
      exact mem_incidentAt_across hop.1 _
    · rw [Net.last, hacross, across_across hedge] at heq
      rw [hacross, ← heq]
      exact last_mem_nodes start p

/-- Whether the paths from a node need no search. -/
def skips (index : IdentityIndex) (maxDepth : ℕ) (start : index.Node) : Bool :=
  decide (0 < maxDepth) && (index.shapes index.components start).complete &&
    (index.shapes index.components start).bounded

theorem skips_iff {maxDepth : ℕ} {start : index.Node} : index.skips maxDepth start = true ↔
    0 < maxDepth ∧ (index.shapes index.components start).complete = true ∧
      (index.shapes index.components start).bounded = true := by
  rw [skips, Bool.and_eq_true, Bool.and_eq_true, decide_eq_true_eq, and_assoc]

variable {maxDepth : ℕ} {start v : index.Node}

/-- The edge between two nodes of a complete component is a path. -/
theorem exists_edge (h : index.skips maxDepth start = true) (hne : v ≠ start)
    (hsame : index.components v = index.components start) :
    ∃ edge, edge ∈ incidentAt start ∧ across edge start = v ∧
      index.wholeNet.IsPath start [(edge, v)] ∧ [(edge, v)].length ≤ maxDepth := by
  obtain ⟨hdepth, hcomplete, -⟩ := skips_iff.1 h
  obtain ⟨edge, hedge, hacross⟩ := complete_spec hcomplete hne hsame
  refine ⟨edge, hedge, hacross, .cons .nil (mem_hops.2 ⟨hedge, hacross.symm⟩) ?_, hdepth⟩
  rw [Net.nodes, map_nil, nil_append, mem_singleton]
  exact hne

/-- **A node is reached exactly when it is in the component.** -/
theorem reached_iff_of_skips (h : index.skips maxDepth start = true) (hne : v ≠ start) :
    (∃ p, index.wholeNet.IsPath start p ∧ p.length ≤ maxDepth ∧ Net.last start p = v) ↔
      index.components v = index.components start := by
  constructor
  · rintro ⟨p, hp, -, rfl⟩
    exact components_last hp
  · intro hsame
    obtain ⟨edge, -, -, hpath, hdepth⟩ := exists_edge h hne hsame
    exact ⟨_, hpath, hdepth, rfl⟩

/-- **The best path is one edge.**  No path is wider than the edge between its ends, because its
first and last edges are no wider than the widest at those ends, and a path as wide is deeper. -/
theorem best_of_skips (h : index.skips maxDepth start = true) (hne : v ≠ start)
    (hbest : index.wholeNet.IsBest start maxDepth v p) :
    Net.nodes start p = [v, start] := by
  obtain ⟨-, -, hbounded⟩ := skips_iff.1 h
  have hempty : p ≠ [] := by
    rintro rfl
    exact hne hbest.last.symm
  obtain ⟨edge, hedge, hacross, hpath, hdepth⟩ :=
    exists_edge h hne (hbest.last ▸ components_last hbest.path)
  obtain ⟨first, hfirst, hfirst', hwidth₁⟩ := exists_first hbest.path hempty
  obtain ⟨final, hfinal, hfinal', hwidth₂⟩ := exists_final hbest.path hempty
  rw [hbest.last] at hfinal hfinal'
  have hfull : index.wholeNet.pathWidth p ≤ fullWidth := Net.pathWidth_suffix (nil_suffix)
  have hnarrow := bounded_spec hbounded rfl (Ne.symm hne) hedge hacross hfirst hfirst' hfinal hfinal'
  have hle : index.wholeNet.pathWidth p ≤ index.wholeNet.pathWidth [(edge, v)] :=
    le_inf hfull ((le_inf (le_inf hwidth₁ hwidth₂) hfull).trans hnarrow)
  have hshort := hbest.shallowest _ hpath hdepth rfl (le_antisymm (hbest.widest _ hpath hdepth rfl) hle)
  obtain ⟨hop, rfl⟩ : ∃ hop, p = [hop] := by
    match p, hempty, hshort with
    | [hop], _, _ => exact ⟨hop, rfl⟩
    | _ :: _ :: _, _, hshort => simp at hshort
  rw [Net.nodes_cons, show hop.2 = v from hbest.last]
  rfl

/-! ## The order of the nodes -/

def uid (node : index.Node) : String := index.uids.get node

/-- The nodes in uid order. -/
def order (index : IdentityIndex) : List index.Node :=
  (List.finRange index.uids.length).insertionSort fun left right ↦ uid left ≤ uid right

/-- The position of each node in that order. -/
def rank (node : index.Node) : ℕ := index.order.idxOf node

theorem order_nodup : index.order.Nodup :=
  (perm_insertionSort _ _).nodup_iff.2 (nodup_finRange _)

theorem mem_order (node : index.Node) : node ∈ index.order :=
  (mem_insertionSort _).2 (mem_finRange node)

theorem rank_injective {left right : index.Node} (h : rank left = rank right) : left = right :=
  (idxOf_inj (mem_order left)).1 h

theorem order_pairwise : index.order.Pairwise fun left right ↦ rank left < rank right := by
  rw [pairwise_iff_getElem]
  intro i j hi hj hij
  rw [rank, rank, order_nodup.idxOf_getElem, order_nodup.idxOf_getElem]
  exact hij

/-- The nodes of each component, in uid order. -/
def members (component : index.Node → index.Node) : index.Node → List index.Node :=
  index.order.foldl (fun members node ↦
    update members (component node) (members (component node) ++ [node])) fun _ ↦ []

/-- What stands after a position in a list in rank order. -/
theorem dropWhile_rank {nodes : List index.Node} (position : ℕ)
    (h : nodes.Pairwise fun left right ↦ rank left < rank right) :
    nodes.dropWhile (fun node ↦ rank node ≤ position) = nodes.filter fun node ↦ position < rank node := by
  induction nodes with
  | nil => rfl
  | cons node nodes ih =>
    obtain ⟨hnode, hnodes⟩ := pairwise_cons.1 h
    by_cases hle : rank node ≤ position
    · rw [dropWhile_cons_of_pos (by simpa using hle), ih hnodes,
        filter_cons_of_neg (by simpa using hle)]
    · rw [dropWhile_cons_of_neg (by simpa using hle), Eq.comm, filter_eq_self]
      intro other hother
      rw [decide_eq_true_eq]
      rcases mem_cons.1 hother with rfl | hother
      · exact Nat.lt_of_not_le hle
      · exact (Nat.lt_of_not_le hle).trans (hnode other hother)

/-- Sorting by rank puts nodes in the order that all nodes have. -/
theorem sort_rank {nodes : List index.Node} (hnodup : nodes.Nodup) {test : index.Node → Bool}
    (hmem : ∀ node, node ∈ nodes ↔ test node = true) :
    nodes.insertionSort (fun left right ↦ rank left ≤ rank right) = index.order.filter test := by
  have : Std.Total fun left right : index.Node ↦ rank left ≤ rank right := ⟨fun _ _ ↦ Nat.le_total _ _⟩
  have : IsTrans index.Node fun left right ↦ rank left ≤ rank right :=
    ⟨fun _ _ _ ↦ Nat.le_trans⟩
  have : Std.Antisymm fun left right : index.Node ↦ rank left ≤ rank right :=
    ⟨fun _ _ h h' ↦ rank_injective (Nat.le_antisymm h h')⟩
  refine List.Perm.eq_of_pairwise' (r := fun left right : index.Node ↦ rank left ≤ rank right)
    (pairwise_insertionSort _ _) ?_ ?_
  · exact (order_pairwise.filter _).imp Nat.le_of_lt
  · refine (perm_insertionSort _ _).trans ?_
    rw [perm_ext_iff_of_nodup hnodup (order_nodup.filter _)]
    intro node
    rw [hmem, mem_filter, and_iff_right (mem_order node)]

/-! ## Visiting the strongest paths -/

variable {queue : PriorityQueue (Frontier index) Frontier.le} {τ : Type}

/-- Note the first path popped to each node that stands after a position, and accept none. -/
def noteFirst (position : ℕ) (s : (index.Node → Option ℕ) × List index.Node) (node : index.Node)
    (step : ℕ) : Bool × (index.Node → Option ℕ) × List index.Node :=
  (false, if position < rank node ∧ s.1 node = none then
    (update s.1 node (some step), s.2 ++ [node]) else s)

/-- Visit the path noted for a node, and forget it. -/
def visitNoted (visit : τ → List index.Node → τ) (steps : List (Step index))
    (s : (index.Node → Option ℕ) × τ) (node : index.Node) : (index.Node → Option ℕ) × τ :=
  match s.1 node with
  | some step => (update s.1 node none, visit s.2 (path steps step))
  | none => s

/-- Search from a node, and visit the first path to each node after it in uid order. -/
def searchFrom (maxDepth : ℕ) (visit : τ → List index.Node → τ)
    (s : Search index queue × (index.Node → Option ℕ) × τ) (start : index.Node) (position : ℕ) :
    Search index queue × (index.Node → Option ℕ) × τ :=
  let found := s.1.run start (fun _ ↦ false) maxDepth (noteFirst position) (s.2.1, [])
  (found.2.1, (found.2.2.2.insertionSort fun left right ↦ rank left ≤ rank right).foldl
    (visitNoted visit found.2.1.steps) (found.2.2.1, s.2.2))

/-- The paths from a node in a complete and bounded component to each node after it. -/
def directPaths (start : index.Node) (position : ℕ) : List (List index.Node) :=
  ((members index.components (index.components start)).dropWhile fun node ↦
    rank node ≤ position).map fun node ↦ [start, node]

/-- Visit the strongest path from each node to each after it in uid order, without a search from the
nodes that need none. -/
def eachPath (queue : PriorityQueue (Frontier index) Frontier.le) (direct : index.Node → Bool)
    (maxDepth : ℕ) (visit : τ → List index.Node → τ) (t : τ) : τ :=
  (index.order.zipIdx.foldl (fun (s : Search index queue × (index.Node → Option ℕ) × τ) next ↦
    if direct next.1 then (s.1, s.2.1, (directPaths next.1 next.2).foldl visit s.2.2)
    else searchFrom maxDepth visit s next.1 next.2) (Search.new, fun _ ↦ none, t)).2.2

def eachStrongestPath (queue : PriorityQueue (Frontier index) Frontier.le) (maxDepth : ℕ)
    (visit : τ → List index.Node → τ) (t : τ) : τ :=
  eachPath queue (index.skips maxDepth) maxDepth visit t

/-- The same with a search from every node. -/
def eachSearchedPath (queue : PriorityQueue (Frontier index) Frontier.le) (maxDepth : ℕ)
    (visit : τ → List index.Node → τ) (t : τ) : τ :=
  eachPath queue (fun _ ↦ false) maxDepth visit t

/-- The paths that a search from a node finds to each node after it. -/
def searchedPaths (queue : PriorityQueue (Frontier index) Frontier.le) (maxDepth : ℕ)
    (start : index.Node) (position : ℕ) : List (List index.Node) :=
  (searchFrom maxDepth (fun seen path ↦ seen ++ [path])
    ((Search.new : Search index queue), fun _ ↦ none, []) start position).2.2

/-! ## What a search visits -/

/-- What the paths popped leave noted. -/
structure Notes (position : ℕ) (popped : List (Frontier index))
    (s : (index.Node → Option ℕ) × List index.Node) : Prop where
  first : ∀ node, s.1 node = if position < rank node then
    (popped.find? fun state ↦ state.node = node).map Frontier.step else none
  nodup : s.2.Nodup
  mem : ∀ node, node ∈ s.2 ↔ s.1 node ≠ none

theorem offered_noteFirst (position : ℕ) (popped : List (Frontier index)) :
    Notes position popped (Search.offered (noteFirst position) (fun _ ↦ none, []) popped) := by
  induction popped using reverseRecOn with
  | nil => exact ⟨fun _ ↦ by simp [Search.offered], nodup_nil, fun _ ↦ by simp [Search.offered]⟩
  | append_singleton popped state ih =>
    rw [Search.offered, foldl_append, foldl_cons, foldl_nil, ← Search.offered]
    generalize Search.offered (noteFirst position) (fun _ ↦ none, []) popped = s at ih ⊢
    have hfind : ∀ node, (popped ++ [state]).find? (fun state ↦ state.node = node) =
        (popped.find? fun state ↦ state.node = node).or
          (if state.node = node then some state else none) := fun node ↦ by
      rw [find?_append, find?_singleton]
      simp only [decide_eq_true_eq]
    simp only [noteFirst]
    split
    · rename_i hnew
      refine ⟨fun node ↦ (update_apply s.1 state.node (some state.step) node).trans ?_, ?_,
        fun node ↦ ?_⟩
      · by_cases heq : node = state.node
        · have hnone := ih.first state.node
          rw [hnew.2, if_pos hnew.1, Eq.comm, Option.map_eq_none_iff] at hnone
          rw [if_pos heq, heq, if_pos hnew.1, hfind, hnone, if_pos rfl]
          rfl
        · rw [if_neg heq, ih.first, hfind, if_neg (Ne.symm heq), Option.or_none]
      · rw [← concat_eq_append]
        exact ih.nodup.concat fun hmem ↦ (ih.mem _).1 hmem hnew.2
      · rw [mem_append, mem_singleton, ih.mem]
        show _ ↔ update s.1 state.node (some state.step) node ≠ none
        by_cases heq : node = state.node
        · simp [heq]
        · rw [update_of_ne heq, or_iff_left heq]
    · rename_i hold
      refine ⟨fun node ↦ ?_, ih.nodup, ih.mem⟩
      rw [ih.first, hfind]
      by_cases heq : state.node = node
      · subst heq
        by_cases hafter : position < rank state.node
        · have hsome := ih.first state.node
          rw [if_pos hafter] at hsome
          have hne : popped.find? (fun other ↦ other.node = state.node) ≠ none := fun hnone ↦
            hold ⟨hafter, by rw [hsome, hnone]; rfl⟩
          obtain ⟨other, hother⟩ := Option.ne_none_iff_exists'.1 hne
          rw [if_pos hafter, if_pos hafter, hother]
          rfl
        · rw [if_neg hafter, if_neg hafter]
      · rw [if_neg heq, Option.or_none]

/-- Visiting forgets what was noted, and visits the path noted for each node. -/
theorem foldl_visitNoted (visit : τ → List index.Node → τ) (steps : List (Step index))
    {nodes : List index.Node} (hnodup : nodes.Nodup) : ∀ s : (index.Node → Option ℕ) × τ,
      (∀ node, (nodes.foldl (visitNoted visit steps) s).1 node =
        if node ∈ nodes then none else s.1 node) ∧
      (nodes.foldl (visitNoted visit steps) s).2 =
        (nodes.filterMap fun node ↦ (s.1 node).map (path steps)).foldl visit s.2 := by
  induction nodes with
  | nil => exact fun s ↦ ⟨fun _ ↦ (if_neg not_mem_nil).symm, rfl⟩
  | cons node nodes ih =>
    intro s
    obtain ⟨hnew, hnodup⟩ := nodup_cons.1 hnodup
    obtain ⟨hfirst, hvisit⟩ := ih hnodup (visitNoted visit steps s node)
    have hforgets : ∀ other, (visitNoted visit steps s node).1 other =
        if other = node then none else s.1 other := fun other ↦ by
      rw [visitNoted]
      split
      · by_cases heq : other = node
        · simp only [heq, update_self, if_true]
        · simp only [update_of_ne heq, if_neg heq]
      · rename_i hnone
        split
        · rename_i heq
          rw [heq, hnone]
        · rfl
    rw [foldl_cons]
    refine ⟨fun other ↦ ?_, ?_⟩
    · rw [hfirst, hforgets]
      simp only [mem_cons]
      by_cases heq : other = node
      · simp [heq]
      · simp [heq]
    · have hsame : nodes.filterMap (fun other ↦
          ((visitNoted visit steps s node).1 other).map (path steps)) =
            nodes.filterMap fun other ↦ (s.1 other).map (path steps) :=
        filterMap_congr fun other hother ↦ by
          rw [hforgets, if_neg (ne_of_mem_of_not_mem hother hnew)]
      rw [hvisit, hsame, visitNoted]
      cases hnoted : s.1 node with
      | none => rw [filterMap_cons_none (by rw [hnoted]; rfl)]
      | some step =>
        rw [filterMap_cons_some (b := path steps step) (by rw [hnoted]; rfl), foldl_cons]

/-- A search begins from scratch. -/
theorem run_new {σ : Type} (search : Search index queue) (start : index.Node)
    (removed : Fin index.bases.length → Bool) (maxDepth : ℕ)
    (accept : σ → index.Node → ℕ → Bool × σ) (s : σ) :
    search.run start removed maxDepth accept s = Search.new.run start removed maxDepth accept s := by
  have hbegin : search.begin start = Search.begin (Search.new : Search index queue) start := by
    simp only [Search.begin, Search.drained_eq_none _ search.listed,
      Search.drained_eq_none _ (Search.new : Search index queue).listed]
  rw [Search.run, hbegin]
  rfl

/-- What a search from a node leaves noted. -/
theorem exists_notes (queue : PriorityQueue (Frontier index) Frontier.le) (maxDepth : ℕ)
    (start : index.Node) (position : ℕ) : ∃ popped paths,
      Search.Ran (fun _ ↦ false) start maxDepth (noteFirst position) (fun _ ↦ none, []) popped paths
        ((Search.new : Search index queue).run start (fun _ ↦ false) maxDepth (noteFirst position)
          (fun _ ↦ none, [])) ∧
      paths.waiting = 0 ∧
      Notes position popped ((Search.new : Search index queue).run start (fun _ ↦ false) maxDepth
        (noteFirst position) (fun _ ↦ none, [])).2.2 := by
  obtain ⟨popped, paths, hran⟩ := Search.run_spec (Search.new : Search index queue) start
    (fun _ ↦ false) maxDepth (noteFirst position) (fun _ ↦ none, [])
  refine ⟨popped, paths, hran, hran.exhausted (Search.run_of_never _ _ _ _ (fun _ _ _ ↦ rfl) _), ?_⟩
  rw [hran.offers]
  exact offered_noteFirst position popped

/-- **A search visits the same paths whatever is done with them**, and leaves nothing noted. -/
theorem searchFrom_spec (visit : τ → List index.Node → τ)
    {s : Search index queue × (index.Node → Option ℕ) × τ} (hs : s.2.1 = fun _ ↦ none)
    (maxDepth : ℕ) (start : index.Node) (position : ℕ) :
    (searchFrom maxDepth visit s start position).2.1 = (fun _ ↦ none) ∧
      (searchFrom maxDepth visit s start position).2.2 =
        (searchedPaths queue maxDepth start position).foldl visit s.2.2 := by
  obtain ⟨popped, paths, -, -, hnotes⟩ := exists_notes queue maxDepth start position
  have hnodup := (perm_insertionSort (fun left right : index.Node ↦ rank left ≤ rank right)
    _).nodup_iff.2 hnotes.nodup
  simp only [searchedPaths, searchFrom]
  rw [run_new s.1, hs]
  obtain ⟨hfirst, hvisit⟩ := foldl_visitNoted visit ((Search.new : Search index queue).run start
    (fun _ ↦ false) maxDepth (noteFirst position) (fun _ ↦ none, [])).2.1.steps hnodup
    (((Search.new : Search index queue).run start (fun _ ↦ false) maxDepth (noteFirst position)
      (fun _ ↦ none, [])).2.2.1, s.2.2)
  obtain ⟨-, hrecord⟩ := foldl_visitNoted (fun seen path ↦ seen ++ [path])
    ((Search.new : Search index queue).run start
      (fun _ ↦ false) maxDepth (noteFirst position) (fun _ ↦ none, [])).2.1.steps hnodup
    (((Search.new : Search index queue).run start (fun _ ↦ false) maxDepth (noteFirst position)
      (fun _ ↦ none, [])).2.2.1, [])
  refine ⟨funext fun node ↦ ?_, ?_⟩
  · rw [hfirst]
    split
    · rfl
    · rename_i hnot
      rw [mem_insertionSort] at hnot
      exact not_not.1 (mt (hnotes.mem node).2 hnot)
  · rw [hvisit, hrecord, Cells.foldl_concat, nil_append]

theorem searchedPaths_eq (queue : PriorityQueue (Frontier index) Frontier.le) (maxDepth : ℕ)
    (start : index.Node) (position : ℕ) :
    searchedPaths queue maxDepth start position =
      ((((Search.new : Search index queue).run start (fun _ ↦ false) maxDepth (noteFirst position)
        (fun _ ↦ none, [])).2.2.2.insertionSort fun left right ↦ rank left ≤ rank right).filterMap
          fun node ↦ (((Search.new : Search index queue).run start (fun _ ↦ false) maxDepth
            (noteFirst position) (fun _ ↦ none, [])).2.2.1 node).map
              (path ((Search.new : Search index queue).run start (fun _ ↦ false) maxDepth
                (noteFirst position) (fun _ ↦ none, [])).2.1.steps)) := by
  obtain ⟨popped, paths, -, -, hnotes⟩ := exists_notes queue maxDepth start position
  have hnodup := (perm_insertionSort (fun left right : index.Node ↦ rank left ≤ rank right)
    _).nodup_iff.2 hnotes.nodup
  rw [searchedPaths, searchFrom]
  exact (foldl_visitNoted _ _ hnodup _).2.trans (by rw [Cells.foldl_concat, nil_append])

/-- **The short cut visits what the search would.** -/
theorem directPaths_eq (queue : PriorityQueue (Frontier index) Frontier.le)
    (h : index.skips maxDepth start = true) {position : ℕ}
    (hposition : rank start ≤ position) :
    directPaths start position = searchedPaths queue maxDepth start position := by
  obtain ⟨popped, paths, hran, hdone, hnotes⟩ := exists_notes queue maxDepth start position
  rw [searchedPaths_eq]
  generalize (Search.new : Search index queue).run start (fun _ ↦ false) maxDepth
    (noteFirst position) (fun _ ↦ none, []) = found at hran hnotes ⊢
  have hne : ∀ {node : index.Node}, position < rank node → node ≠ start := by
    rintro node hafter rfl
    omega
  -- A path was popped to exactly the nodes of the component.
  have hpopped : ∀ {node : index.Node}, position < rank node →
      ((popped.find? fun state ↦ state.node = node) ≠ none ↔
        index.components node = index.components start) := by
    intro node hafter
    rw [← reached_iff_of_skips h (hne hafter), ← hran.inv.taken_iff hdone, hran.taken,
      ← Option.isSome_iff_ne_none, find?_isSome]
    simp only [mem_map, exists_exists_and_eq_and, decide_eq_true_eq]
    exact exists_congr fun state ↦ and_congr_right fun hstate ↦ by
      rw [(hran.tells state hstate).last]
  have hmem : ∀ node, node ∈ found.2.2.2 ↔
      (decide (index.components node = index.components start) && decide (position < rank node)) =
        true := by
    intro node
    rw [hnotes.mem, hnotes.first, Bool.and_eq_true, decide_eq_true_eq, decide_eq_true_eq]
    by_cases hafter : position < rank node
    · rw [if_pos hafter, ne_eq, Option.map_eq_none_iff, ← ne_eq, hpopped hafter, and_iff_left hafter]
    · rw [if_neg hafter]
      exact iff_of_false (fun h ↦ h rfl) fun h ↦ hafter h.2
  have hpath : ∀ node ∈ found.2.2.2,
      (found.2.2.1 node).map (path found.2.1.steps) = some [start, node] := by
    intro node hnode
    have hnoted := hnotes.first node
    have hafter : position < rank node := by
      rw [hmem, Bool.and_eq_true, decide_eq_true_eq, decide_eq_true_eq] at hnode
      exact hnode.2
    rw [if_pos hafter] at hnoted
    cases hfind : popped.find? fun state ↦ state.node = node with
    | none =>
      rw [hfind] at hnoted
      exact absurd hnoted ((hnotes.mem node).1 hnode)
    | some state =>
      have hfirst := Search.find_hopsOf hran.tells hfind
      rw [← hran.taken] at hfirst
      have hnodes := best_of_skips h (hne hafter) (hran.inv.first_best hfirst)
      rw [hnoted, hfind, Option.map_some, Option.map_some, path,
        (hran.tells state (mem_of_find?_eq_some hfind)).nodes, hnodes]
      rfl
  rw [directPaths, members, Cells.foldl_push, dropWhile_rank _ (order_pairwise.filter _),
    filter_filter, sort_rank hnotes.nodup hmem]
  have hsame : index.order.filter (fun node ↦ decide (position < rank node) &&
      decide (index.components node = index.components start)) =
      index.order.filter fun node ↦ decide (index.components node = index.components start) &&
        decide (position < rank node) := filter_congr fun node _ ↦ Bool.and_comm _ _
  rw [hsame, ← filterMap_eq_map]
  exact filterMap_congr fun node hnode ↦
    (hpath node ((hmem node).2 (mem_filter.1 hnode).2)).symm

/-- The position that a node is visited from is its own. -/
theorem rank_of_mem_zipIdx {position : ℕ}
    (h : (start, position) ∈ index.order.zipIdx) : rank start = position := by
  obtain ⟨hlt, hget⟩ := List.getElem?_eq_some_iff.1 (List.mem_zipIdx_iff_getElem?.1 h)
  exact (congrArg index.order.idxOf hget.symm).trans (order_nodup.idxOf_getElem position hlt)

theorem eachPath_eq (queue : PriorityQueue (Frontier index) Frontier.le) (direct : index.Node → Bool)
    (hdirect : ∀ node, direct node = true → index.skips maxDepth node = true)
    (visit : τ → List index.Node → τ) (t : τ) :
    eachPath queue direct maxDepth visit t =
      (index.order.zipIdx.flatMap fun next ↦ searchedPaths queue maxDepth next.1 next.2).foldl
        visit t := by
  rw [eachPath]
  have hall : ∀ (nexts : List (index.Node × ℕ)),
      (∀ next ∈ nexts, next ∈ index.order.zipIdx) →
      ∀ s : Search index queue × (index.Node → Option ℕ) × τ, s.2.1 = (fun _ ↦ none) →
      (nexts.foldl (fun s next ↦
        if direct next.1 then (s.1, s.2.1, (directPaths next.1 next.2).foldl visit s.2.2)
        else searchFrom maxDepth visit s next.1 next.2) s).2.2 =
        (nexts.flatMap fun next ↦ searchedPaths queue maxDepth next.1 next.2).foldl visit s.2.2 := by
    intro nexts
    induction nexts with
    | nil => exact fun _ _ _ ↦ rfl
    | cons next nexts ih =>
      intro hnexts s hs
      have hrest := fun other hother ↦ hnexts other (mem_cons_of_mem next hother)
      rw [foldl_cons, flatMap_cons, foldl_append]
      split
      · rename_i hnext
        have hrank := rank_of_mem_zipIdx (hnexts next (.head _))
        rw [ih hrest (s.1, s.2.1, (directPaths next.1 next.2).foldl visit s.2.2) hs,
          directPaths_eq queue (hdirect _ hnext) hrank.le]
      · obtain ⟨hfirst, hvisit⟩ := searchFrom_spec visit hs maxDepth next.1 next.2
        rw [ih hrest _ hfirst, hvisit]
  exact hall _ (fun _ h ↦ h) _ rfl

/-- **The short cut changes nothing**: the same paths are visited in the same order. -/
theorem eachStrongestPath_eq (queue : PriorityQueue (Frontier index) Frontier.le) (maxDepth : ℕ)
    (visit : τ → List index.Node → τ) (t : τ) :
    eachStrongestPath queue maxDepth visit t = eachSearchedPath queue maxDepth visit t := by
  rw [eachStrongestPath, eachSearchedPath, eachPath_eq queue _ fun _ h ↦ h,
    eachPath_eq queue _ fun _ h ↦ Bool.noConfusion h]

end IdentityIndex

/-! ## Brokers -/

open IdentityIndex

/-- How deep a path whose intermediate nodes `connectionBrokers` scores may run. -/
def brokerMaxDepth : ℕ := 6

/-- Count a path for every node on it but its two ends. -/
def scorePath {index : IdentityIndex} (scores : index.Node → ℕ) (path : List index.Node) :
    index.Node → ℕ :=
  path.tail.dropLast.foldl (fun scores node ↦ Function.update scores node (scores node + 1)) scores

/-- The uids that have a score, most first, then by uid. -/
def ranked {index : IdentityIndex} (scores : index.Node → ℕ) : List (String × ℕ) :=
  (((List.finRange index.uids.length).filter fun node ↦ 0 < scores node).map fun node ↦
    (uid node, scores node)).insertionSort fun left right ↦
      right.2 < left.2 ∨ right.2 = left.2 ∧ left.1 ≤ right.1

/-- The uids that the strongest paths, within six relations, between other uids pass through, with
how many such paths pass through each. -/
def connectionBrokers (relations : List Relation)
    (queue : PriorityQueue (IdentityIndex.Frontier (.new relations)) IdentityIndex.Frontier.le) :
    List (String × ℕ) :=
  ranked (eachStrongestPath queue brokerMaxDepth scorePath fun _ ↦ 0)

/-- The same with a search from every node. -/
def searchedBrokers (relations : List Relation)
    (queue : PriorityQueue (IdentityIndex.Frontier (.new relations)) IdentityIndex.Frontier.le) :
    List (String × ℕ) :=
  ranked (eachSearchedPath queue brokerMaxDepth scorePath fun _ ↦ 0)

/-- **The short cut is sound.**  From a node of a complete and bounded component it visits, as node
sequences and in their order, the paths that the search would report; so what is made of the paths
visited is the same, and so are the brokers. -/
theorem connectionBrokers_eq (relations : List Relation)
    (queue : PriorityQueue (IdentityIndex.Frontier (.new relations)) IdentityIndex.Frontier.le) :
    (∀ maxDepth, ∀ next ∈ (IdentityIndex.new relations).order.zipIdx,
      skips (.new relations) maxDepth next.1 = true →
        directPaths next.1 next.2 = searchedPaths queue maxDepth next.1 next.2) ∧
    (∀ (maxDepth : ℕ) (visited : List (List (IdentityIndex.new relations).Node)),
      eachStrongestPath queue maxDepth (fun visited path ↦ visited ++ [path]) visited =
        eachSearchedPath queue maxDepth (fun visited path ↦ visited ++ [path]) visited) ∧
    connectionBrokers relations queue = searchedBrokers relations queue := by
  refine ⟨fun maxDepth next hnext hskips ↦ ?_, fun maxDepth visited ↦ ?_, ?_⟩
  · exact directPaths_eq queue hskips (rank_of_mem_zipIdx hnext).le
  · exact eachStrongestPath_eq queue maxDepth _ visited
  · rw [connectionBrokers, searchedBrokers, eachStrongestPath_eq]

end Huntsman
