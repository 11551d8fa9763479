import Huntsman.Lib.Loop
import Huntsman.Lib.PriorityQueue
import Huntsman.Lib.WidestPath
import Huntsman.Relation.Index
import Mathlib.Algebra.Order.BigOperators.Group.Finset
import Mathlib.Data.Fintype.BigOperators
import Mathlib.Data.List.Find

/-!
# The widest-path search

`Search.run` looks at the paths from a node over the edges that were not removed: wider first, then
shallower.  The paths that wait are kept in a binary heap, of which only its contract is used, that
it gives back a greatest one, and the nodes of a path are read back through the steps that made it.

Each pass of its loop is a step of the search of `Huntsman.Lib.WidestPath` (`runPass_step`).  So the
first path it pops to a node is one of the best that lead there within the depth, and it pops none
to a node exactly when there is none (`run_first_best`).
-/

set_option autoImplicit false

namespace Huntsman

namespace IdentityIndex

open Function List

variable {index : IdentityIndex}

/-! ## Widths -/

/-- What a confidence narrows a path to.  One that is not a number narrows none. -/
def narrowing : F64 → WithBot (WithTop ℚ)
  | .nan => ⊤
  | .number value => value

/-- How wide the paths of a search start out. -/
def fullWidth : WithBot (WithTop ℚ) := ((1 : ℚ) : WithTop ℚ)

/-- The edges that were not removed, as a net. -/
def net (index : IdentityIndex) (removed : Fin index.bases.length → Bool) :
    Net index.Node index.Edge (WithBot (WithTop ℚ)) where
  hops node := ((incidentAt node).filter fun edge ↦ !removed (basisOf edge)).map fun edge ↦
    (edge, across edge node)
  width edge := narrowing (confidence edge)
  top := fullWidth

theorem min_number (w : WithBot (WithTop ℚ)) (c : F64) :
    F64.min (.number w) c = .number (w ⊓ narrowing c) := by
  cases c with
  | nan =>
    rw [narrowing, inf_top_eq]
    rfl
  | number value => rfl

/-! ## Steps -/

/-- One step of a search: the node it reached, the step it was taken from and the edge it took.  The
first step of a search takes no edge. -/
structure Step (index : IdentityIndex) where
  node : index.Node
  parent : Option ℕ
  edge : Option index.Edge

/-- The steps that lead to a step, back to the first.  Steps are kept the last one first, so that
number `step` is the one with that many behind it, and a parent is among those. -/
def trail : List (Step index) → ℕ → List (Step index)
  | [], _ => []
  | last :: earlier, step =>
    if step = earlier.length then
      last :: match last.parent with
        | some parent => trail earlier parent
        | none => []
    else trail earlier step

/-- Whether `node` lies on the path that ends at `step`. -/
def onPath (steps : List (Step index)) (step : ℕ) (node : index.Node) : Bool :=
  (trail steps step).any fun taken ↦ taken.node = node

/-- The nodes of the path that ends at `step`, from the node the search started at. -/
def path (steps : List (Step index)) (step : ℕ) : List index.Node :=
  ((trail steps step).map Step.node).reverse

/-- The edges the path that ends at `step` took, from its last back to its first. -/
def edgesOf (steps : List (Step index)) (step : ℕ) : List index.Edge :=
  (trail steps step).filterMap Step.edge

/-! ## The frontier -/

/-- A path waiting to be expanded. -/
structure Frontier (index : IdentityIndex) where
  width : F64
  depth : ℕ
  node : index.Node
  step : ℕ
  /-- A path starts out 1.0 wide, and what is not a number narrows none. -/
  width_ne_nan : width ≠ .nan

namespace Frontier

/-- Wider first, then shallower. -/
def cmp (self other : Frontier index) : Ordering :=
  ((self.width.partialCmp other.width).getD .eq).then (compare other.depth self.depth)

def le (self other : Frontier index) : Prop := self.cmp other ≠ .gt

instance : DecidableRel (@le index) := fun self other ↦
  inferInstanceAs (Decidable (self.cmp other ≠ .gt))

/-- What frontiers are compared by. -/
def key (self : Frontier index) : WithBot (WithTop ℚ) ×ₗ ℕᵒᵈ :=
  toLex (narrowing self.width, OrderDual.toDual self.depth)

theorem le_iff {a b : Frontier index} : a.le b ↔ a.key ≤ b.key := by
  obtain ⟨wa, da, na, sa, ha⟩ := a
  obtain ⟨wb, db, nb, sb, hb⟩ := b
  cases wa with
  | nan => exact absurd rfl ha
  | number x =>
    cases wb with
    | nan => exact absurd rfl hb
    | number y =>
      simp only [le, cmp, key, F64.partialCmp, Option.getD_some, narrowing, Prod.Lex.toLex_le_toLex,
        OrderDual.toDual_le_toDual]
      rcases lt_trichotomy x y with h | rfl | h
      · simp [compare_lt_iff_lt.2 h, h]
      · simp [compare_gt_iff_gt]
      · simp [compare_gt_iff_gt.2 h, h.not_gt, h.ne']

end Frontier

/-! ## The search -/

/-- The scratch space of widest-path searches over one index, kept from search to search. -/
structure Search (index : IdentityIndex) (queue : PriorityQueue (Frontier index) Frontier.le) where
  heap : queue.Queue
  steps : List (Step index)
  /-- The shallowest depth each node has been expanded at in the current search, if it has been. -/
  shallowest : index.Node → Option ℕ
  expanded : List index.Node
  /-- No node has a depth but those that were expanded. -/
  listed : ∀ node, shallowest node ≠ none → node ∈ expanded

namespace Search

variable {queue : PriorityQueue (Frontier index) Frontier.le}

/-- Forget the depths of the nodes that were expanded. -/
def drained (expanded : List index.Node) (shallowest : index.Node → Option ℕ) :
    index.Node → Option ℕ :=
  expanded.foldl (fun shallowest node ↦ update shallowest node none) shallowest

theorem drained_eq_none (expanded : List index.Node) :
    ∀ {shallowest : index.Node → Option ℕ},
      (∀ node, shallowest node ≠ none → node ∈ expanded) → drained expanded shallowest = fun _ ↦ none := by
  induction expanded with
  | nil =>
    intro shallowest h
    exact funext fun node ↦ by_contra fun hne ↦ not_mem_nil (h node hne)
  | cons node expanded ih =>
    intro shallowest h
    refine ih fun other hother ↦ ?_
    change update shallowest node none other ≠ none at hother
    by_cases heq : other = node
    · rw [heq, update_self] at hother
      exact absurd rfl hother
    · rw [update_of_ne heq] at hother
      exact (mem_cons.1 (h other hother)).resolve_left heq

def new : Search index queue where
  heap := queue.empty
  steps := []
  shallowest := fun _ ↦ none
  expanded := []
  listed := fun _ h ↦ absurd rfl h

/-- What a search begins with: the first step, and the path that takes no edge. -/
def begin (search : Search index queue) (start : index.Node) : Search index queue where
  heap := queue.push queue.empty ⟨.number fullWidth, 0, start, 0, by simp⟩
  steps := [⟨start, none, none⟩]
  shallowest := drained search.expanded search.shallowest
  expanded := []
  listed := fun node h ↦ absurd (congrFun (drained_eq_none _ search.listed) node) h

/-- Go on from a path along an edge. -/
def push (state : Frontier index) (search : Search index queue) (edge : index.Edge) :
    Search index queue :=
  { search with
    heap := queue.push search.heap
      ⟨state.width.min (confidence edge), state.depth + 1, across edge state.node,
        search.steps.length, by
          have h := state.width_ne_nan
          cases hw : state.width with
          | nan => exact absurd hw h
          | number w => rw [min_number]; simp⟩
    steps := ⟨across edge state.node, some state.step, some edge⟩ :: search.steps }

/-- Go on from a path along an edge, unless the edge was removed or leads back to the path. -/
def follow (removed : Fin index.bases.length → Bool) (state : Frontier index)
    (search : Search index queue) (edge : index.Edge) : Search index queue :=
  if removed (basisOf edge) then search
  else if onPath search.steps state.step (across edge state.node) then search
  else search.push state edge

/-- The search with what is left in its heap. -/
def withHeap (search : Search index queue) (heap : queue.Queue) : Search index queue :=
  { search with heap := heap }

/-- Note how deep a node is expanded. -/
def mark (search : Search index queue) (node : index.Node) (depth : ℕ) : Search index queue where
  heap := search.heap
  steps := search.steps
  shallowest := update search.shallowest node (some depth)
  expanded := if search.shallowest node = none then search.expanded ++ [node] else search.expanded
  listed := by
    intro other h
    by_cases heq : other = node
    · rw [heq]
      split
      · exact List.mem_append_right _ (List.mem_singleton_self node)
      · rename_i hseen
        exact search.listed node hseen
    · rw [update_of_ne heq] at h
      have := search.listed other h
      split
      · exact List.mem_append_left _ this
      · exact this

/-- Expand the last node of a path. -/
def expand (removed : Fin index.bases.length → Bool) (state : Frontier index)
    (search : Search index queue) : Search index queue :=
  (incidentAt state.node).foldl (follow removed state) (search.mark state.node state.depth)

/-- One pass of the search.  Each path popped is offered to `accept`, by its last node and step,
before it is expanded. -/
def runPass {σ : Type} (removed : Fin index.bases.length → Bool) (maxDepth : ℕ)
    (accept : σ → index.Node → ℕ → Bool × σ) (s : Search index queue × σ) :
    Pass (Option ℕ × Search index queue × σ) (Search index queue × σ) :=
  match queue.pop s.1.heap with
  | none => .leave (none, s)
  | some (state, heap) =>
    let search := s.1.withHeap heap
    let offered := accept s.2 state.node state.step
    if offered.1 then .leave (some state.step, search, offered.2)
    else if maxDepth ≤ state.depth then .again (search, offered.2)
    else match search.shallowest state.node with
      | some seen =>
        if seen ≤ state.depth then .again (search, offered.2)
        else .again (search.expand removed state, offered.2)
      | none => .again (search.expand removed state, offered.2)

theorem shallowest_follow (removed : Fin index.bases.length → Bool) (state : Frontier index)
    (search : Search index queue) (edge : index.Edge) :
    (follow removed state search edge).shallowest = search.shallowest := by
  rw [follow]
  split
  · rfl
  · split <;> rfl

theorem card_follow_le (removed : Fin index.bases.length → Bool) (state : Frontier index)
    (search : Search index queue) (edge : index.Edge) :
    (queue.items (follow removed state search edge).heap).card ≤
      (queue.items search.heap).card + 1 := by
  rw [follow]
  split
  · exact Nat.le_succ _
  · split
    · exact Nat.le_succ _
    · rw [push, queue.items_push, Multiset.card_cons]

theorem foldl_follow (removed : Fin index.bases.length → Bool) (state : Frontier index)
    (edges : List index.Edge) : ∀ search : Search index queue,
    (edges.foldl (follow removed state) search).shallowest = search.shallowest ∧
      (queue.items (edges.foldl (follow removed state) search).heap).card ≤
        (queue.items search.heap).card + edges.length := by
  induction edges with
  | nil => exact fun _ ↦ ⟨rfl, le_rfl⟩
  | cons edge edges ih =>
    intro search
    obtain ⟨hshallowest, hcard⟩ := ih (follow removed state search edge)
    have hone := card_follow_le removed state search edge
    rw [foldl_cons, length_cons]
    exact ⟨hshallowest.trans (shallowest_follow removed state search edge), by omega⟩

/-- How much is left to do: a node is only expanded again on a shallower path, and every expansion
puts at most so many paths in the heap. -/
def measure (maxDepth : ℕ) (search : Search index queue) : ℕ :=
  (∑ node, (search.shallowest node).getD maxDepth) *
    (∑ node : index.Node, (incidentAt node).length + 1) + (queue.items search.heap).card

theorem measure_expand_lt (removed : Fin index.bases.length → Bool) {maxDepth : ℕ}
    {state : Frontier index} {search : Search index queue}
    (h : state.depth < (search.shallowest state.node).getD maxDepth) :
    (search.expand removed state).measure maxDepth < search.measure maxDepth + 1 := by
  obtain ⟨hshallowest, hcard⟩ := foldl_follow removed state (incidentAt state.node)
    (search.mark state.node state.depth)
  have hlength : (incidentAt state.node).length ≤ ∑ node : index.Node, (incidentAt node).length :=
    Finset.single_le_sum (f := fun node : index.Node ↦ (incidentAt node).length)
      (fun _ _ ↦ Nat.zero_le _) (Finset.mem_univ _)
  have hsum : (∑ node, (update search.shallowest state.node (some state.depth) node).getD maxDepth) <
      ∑ node, (search.shallowest node).getD maxDepth := by
    refine Finset.sum_lt_sum (fun node _ ↦ ?_) ⟨state.node, Finset.mem_univ _, ?_⟩
    · by_cases heq : node = state.node
      · rw [heq, update_self]
        exact h.le
      · rw [update_of_ne heq]
    · rw [update_self]
      exact h
  have hmul := Nat.mul_le_mul_right (∑ node : index.Node, (incidentAt node).length + 1) hsum
  rw [Nat.succ_mul] at hmul
  rw [measure, measure, expand, hshallowest]
  simp only [mark] at hcard ⊢
  omega

/-- Every pass leaves less to do. -/
theorem runPass_falls {σ : Type} (removed : Fin index.bases.length → Bool) (maxDepth : ℕ)
    (accept : σ → index.Node → ℕ → Bool × σ) (s s' : Search index queue × σ)
    (h : runPass removed maxDepth accept s = .again s') :
    s'.1.measure maxDepth < s.1.measure maxDepth := by
  rw [runPass] at h
  split at h
  · cases h
  rename_i state heap hpop
  have hcard : (s.1.withHeap heap).measure maxDepth + 1 =
      s.1.measure maxDepth := by
    rw [measure, measure, queue.card_pop hpop, Nat.add_assoc]
    rfl
  simp only at h
  split at h
  · cases h
  split at h
  · cases h
    exact Nat.lt_of_succ_le hcard.le
  rename_i hdepth
  split at h
  · rename_i seen hseen
    split at h
    · cases h
      exact Nat.lt_of_succ_le hcard.le
    · rename_i hlt
      cases h
      exact hcard ▸ measure_expand_lt removed (by rw [hseen, Option.getD_some]; omega)
  · rename_i hnone
    cases h
    exact hcard ▸ measure_expand_lt removed (by rw [hnone, Option.getD_none]; omega)

/-- The widest-path search from `start` over the edges whose basis is not `removed`: the step of the
first path accepted, or `none` once no path is left. -/
def run {σ : Type} (search : Search index queue) (start : index.Node)
    (removed : Fin index.bases.length → Bool) (maxDepth : ℕ)
    (accept : σ → index.Node → ℕ → Bool × σ) (s : σ) : Option ℕ × Search index queue × σ :=
  Loop.run (runPass removed maxDepth accept) (fun s ↦ s.1.measure maxDepth)
    (runPass_falls removed maxDepth accept) (search.begin start, s)

/-! ## What the passes do -/

/-- The hops of the path that ends at `step`, from its last back to its first. -/
def hopsOf (steps : List (Step index)) (step : ℕ) : List (index.Edge × index.Node) :=
  (trail steps step).filterMap fun taken ↦ taken.edge.map fun edge ↦ (edge, taken.node)

/-- More steps do not change how the earlier ones were come to. -/
theorem trail_append (more : List (Step index)) {steps : List (Step index)} {step : ℕ}
    (h : step < steps.length) : trail (more ++ steps) step = trail steps step := by
  induction more with
  | nil => rfl
  | cons last more ih =>
    rw [cons_append, trail, if_neg, ih]
    rw [length_append]
    omega

theorem hopsOf_append (more : List (Step index)) {steps : List (Step index)} {step : ℕ}
    (h : step < steps.length) : hopsOf (more ++ steps) step = hopsOf steps step := by
  rw [hopsOf, hopsOf, trail_append more h]

theorem trail_cons_length (last : Step index) (steps : List (Step index)) {parent : ℕ}
    (h : last.parent = some parent) :
    trail (last :: steps) steps.length = last :: trail steps parent := by
  rw [trail, if_pos rfl, h]

theorem edgesOf_eq (steps : List (Step index)) (step : ℕ) :
    edgesOf steps step = (hopsOf steps step).map Prod.fst := by
  rw [edgesOf, hopsOf, map_filterMap]
  refine filterMap_congr fun taken _ ↦ ?_
  cases taken.edge <;> rfl

variable {removed : Fin index.bases.length → Bool} {start : index.Node} {maxDepth : ℕ}

/-- A frontier says of the path that ends at its step what is so. -/
structure Tells (removed : Fin index.bases.length → Bool) (start : index.Node)
    (steps : List (Step index)) (state : Frontier index) : Prop where
  lt : state.step < steps.length
  nodes : (trail steps state.step).map Step.node = Net.nodes start (hopsOf steps state.step)
  last : Net.last start (hopsOf steps state.step) = state.node
  width : state.width = .number ((index.net removed).pathWidth (hopsOf steps state.step))
  depth : state.depth = (hopsOf steps state.step).length

theorem Tells.append {steps : List (Step index)} {state : Frontier index}
    (h : Tells removed start steps state) (more : List (Step index)) :
    Tells removed start (more ++ steps) state where
  lt := by
    rw [length_append]
    exact Nat.lt_add_left _ h.lt
  nodes := by rw [trail_append more h.lt, hopsOf_append more h.lt, h.nodes]
  last := by rw [hopsOf_append more h.lt, h.last]
  width := by rw [hopsOf_append more h.lt, h.width]
  depth := by rw [hopsOf_append more h.lt, h.depth]

theorem Tells.onPath {steps : List (Step index)} {state : Frontier index}
    (h : Tells removed start steps state) (node : index.Node) :
    IdentityIndex.onPath steps state.step node = true ↔
      node ∈ Net.nodes start (hopsOf steps state.step) := by
  rw [IdentityIndex.onPath, ← h.nodes, any_eq_true, mem_map]
  simp only [decide_eq_true_eq]

theorem Tells.key {steps : List (Step index)} {state : Frontier index}
    (h : Tells removed start steps state) :
    state.key = (index.net removed).key (hopsOf steps state.step) := by
  rw [Frontier.key, Net.key, h.width, h.depth]
  rfl

theorem Tells.begin (start : index.Node) :
    Tells removed start [⟨start, none, none⟩] ⟨.number fullWidth, 0, start, 0, by simp⟩ where
  lt := Nat.zero_lt_one
  nodes := rfl
  last := rfl
  width := rfl
  depth := rfl

theorem hopsOf_cons_length (steps : List (Step index)) (node : index.Node) (parent : ℕ)
    (edge : index.Edge) : hopsOf (⟨node, some parent, some edge⟩ :: steps) steps.length =
      (edge, node) :: hopsOf steps parent := by
  rw [hopsOf, trail_cons_length _ steps rfl]
  rfl

/-- Going on from a path along an edge is what the new frontier tells. -/
theorem Tells.follow {steps : List (Step index)} {state : Frontier index}
    (h : Tells removed start steps state) (edge : index.Edge)
    (hnumber : state.width.min (confidence edge) ≠ .nan) :
    Tells removed start (⟨across edge state.node, some state.step, some edge⟩ :: steps)
      ⟨state.width.min (confidence edge), state.depth + 1, across edge state.node, steps.length,
        hnumber⟩ where
  lt := Nat.lt_succ_self _
  nodes := by
    rw [trail_cons_length _ steps rfl, map_cons, h.nodes, hopsOf_cons_length, Net.nodes_cons]
  last := by
    rw [hopsOf_cons_length]
    rfl
  width := by
    rw [hopsOf_cons_length, Net.pathWidth_cons]
    exact (congrArg (F64.min · (confidence edge)) h.width).trans (min_number _ _)
  depth := by rw [hopsOf_cons_length, length_cons, h.depth]

/-- The paths that wait in the heap. -/
def waiting (search : Search index queue) : Multiset (List (index.Edge × index.Node)) :=
  (queue.items search.heap).map fun state ↦ hopsOf search.steps state.step

/-- Every path in the heap is what its frontier tells. -/
def Sound (removed : Fin index.bases.length → Bool) (start : index.Node)
    (search : Search index queue) : Prop :=
  ∀ state ∈ queue.items search.heap, Tells removed start search.steps state

/-- Going on along an edge puts one path more in the heap. -/
theorem push_waiting {state : Frontier index} {search : Search index queue}
    (hstate : Tells removed start search.steps state) (hsound : Sound removed start search)
    (edge : index.Edge) :
    Tells removed start (search.push state edge).steps state ∧
      Sound removed start (search.push state edge) ∧
      (search.push state edge).waiting =
        ((edge, across edge state.node) :: hopsOf search.steps state.step) ::ₘ search.waiting := by
  refine ⟨hstate.append [_], fun other hother ↦ ?_, ?_⟩
  · rw [push, queue.items_push, Multiset.mem_cons] at hother
    rcases hother with rfl | hother
    · exact hstate.follow edge _
    · exact (hsound other hother).append [_]
  · have hold : ∀ other ∈ queue.items search.heap,
        hopsOf (⟨across edge state.node, some state.step, some edge⟩ :: search.steps) other.step =
          hopsOf search.steps other.step := fun other hother ↦
      hopsOf_append [_] (hsound other hother).lt
    rw [waiting, push, queue.items_push, Multiset.map_cons, Multiset.map_congr rfl hold,
      hopsOf_cons_length]
    rfl

/-- **Following edges puts the continuations of a path in the heap**, and touches no step that was
there. -/
theorem foldl_follow_waiting {state : Frontier index} (edges : List index.Edge) :
    ∀ {search : Search index queue}, Tells removed start search.steps state →
      Sound removed start search →
      ∃ more, (edges.foldl (follow removed state) search).steps = more ++ search.steps ∧
        Sound removed start (edges.foldl (follow removed state) search) ∧
        (edges.foldl (follow removed state) search).waiting =
          Multiset.ofList ((((edges.filter fun edge ↦ !removed (basisOf edge)).map fun edge ↦
            (edge, across edge state.node)).filter fun hop ↦
              hop.2 ∉ Net.nodes start (hopsOf search.steps state.step)).map
                (· :: hopsOf search.steps state.step)) + search.waiting := by
  induction edges with
  | nil => exact fun _ hsound ↦ ⟨[], rfl, hsound, (Multiset.zero_add _).symm⟩
  | cons edge edges ih =>
    intro search hstate hsound
    rw [foldl_cons]
    by_cases hremoved : removed (basisOf edge) = true
    · rw [follow, if_pos hremoved, filter_cons_of_neg (by simpa using hremoved)]
      exact ih hstate hsound
    rw [filter_cons_of_pos (by simpa using hremoved), map_cons]
    by_cases hon : IdentityIndex.onPath search.steps state.step (across edge state.node) = true
    · rw [follow, if_neg hremoved, if_pos hon,
        filter_cons_of_neg (by simpa using (hstate.onPath _).1 hon)]
      exact ih hstate hsound
    rw [follow, if_neg hremoved, if_neg hon,
      filter_cons_of_pos (by simpa using fun h ↦ hon ((hstate.onPath _).2 h))]
    obtain ⟨hstate', hsound', hwaiting⟩ := push_waiting hstate hsound edge
    obtain ⟨more, hsteps, hsound'', hwaiting'⟩ := ih hstate' hsound'
    have hhops : hopsOf (search.push state edge).steps state.step = hopsOf search.steps state.step :=
      hopsOf_append [_] hstate.lt
    refine ⟨more ++ [_], by rw [hsteps, push, append_assoc]; rfl, hsound'', ?_⟩
    rw [hwaiting', hwaiting, hhops, map_cons, ← Multiset.cons_coe, Multiset.cons_add,
      Multiset.add_cons]

/-- The search over paths that a search with its heap and its steps shows. -/
structure Shows (removed : Fin index.bases.length → Bool) (start : index.Node)
    (search : Search index queue) (popped : List (Frontier index))
    (paths : Net.Search index.Node index.Edge) : Prop where
  tells : ∀ state ∈ popped, Tells removed start search.steps state
  sound : Sound removed start search
  taken : paths.taken = popped.map fun state ↦ hopsOf search.steps state.step
  waits : paths.waiting = search.waiting
  /-- The depth noted for a node is the least at which it was expanded. -/
  shallowest : ∀ node depth,
    (∃ p ∈ paths.expanded, Net.last start p = node ∧ p.length ≤ depth) ↔
      ∃ seen, search.shallowest node = some seen ∧ seen ≤ depth

theorem Shows.begin (search : Search index queue) (start : index.Node) :
    Shows removed start (search.begin start) [] Net.Search.init where
  tells := nofun
  sound := by
    intro state hstate
    rw [Search.begin, queue.items_push, queue.items_empty, Multiset.mem_cons] at hstate
    rcases hstate with rfl | hstate
    · exact Tells.begin start
    · exact absurd hstate (Multiset.notMem_zero _)
  taken := rfl
  waits := by
    rw [waiting, Search.begin, queue.items_push, queue.items_empty]
    rfl
  shallowest := by
    intro node depth
    have hnone : (search.begin start).shallowest node = none :=
      congrFun (drained_eq_none _ search.listed) node
    rw [hnone]
    simp [Net.Search.init]

variable {search : Search index queue} {popped : List (Frontier index)}
  {paths : Net.Search index.Node index.Edge} {state : Frontier index} {heap : queue.Queue}

/-- The path popped waited, and no other that waits is better. -/
theorem Shows.pop (h : Shows removed start search popped paths)
    (hpop : queue.pop search.heap = some (state, heap)) :
    Tells removed start search.steps state ∧
      Sound removed start (search.withHeap heap) ∧
      paths.waiting = hopsOf search.steps state.step ::ₘ (search.withHeap heap).waiting ∧
      ∀ q ∈ (search.withHeap heap).waiting,
        (index.net removed).key q ≤ (index.net removed).key (hopsOf search.steps state.step) := by
  have hitems := queue.items_pop _ _ _ hpop
  have hstate : Tells removed start search.steps state :=
    h.sound state (hitems ▸ Multiset.mem_cons_self _ _)
  have hsound : Sound removed start (search.withHeap heap) := fun other hother ↦
    h.sound other (hitems ▸ Multiset.mem_cons_of_mem hother)
  refine ⟨hstate, hsound, ?_, fun q hq ↦ ?_⟩
  · rw [h.waits, waiting, hitems, Multiset.map_cons]
    rfl
  · obtain ⟨other, hother, rfl⟩ := Multiset.mem_map.1 hq
    have hle := Frontier.le_iff.1 (queue.pop_greatest _ _ _ hpop other hother)
    rwa [hstate.key, (hsound other hother).key] at hle

/-- A path that is popped and left. -/
theorem Shows.leave (h : Shows removed start search popped paths)
    (hpop : queue.pop search.heap = some (state, heap)) :
    Shows removed start (search.withHeap heap) (popped ++ [state])
      ⟨paths.taken ++ [hopsOf search.steps state.step], (search.withHeap heap).waiting,
        paths.expanded⟩ := by
  obtain ⟨hstate, hsound, -, -⟩ := h.pop hpop
  refine ⟨fun other hother ↦ ?_, hsound, ?_, rfl, h.shallowest⟩
  · rcases mem_append.1 hother with hother | hother
    · exact h.tells other hother
    · exact mem_singleton.1 hother ▸ hstate
  · rw [h.taken, map_append, map_singleton]
    rfl

/-- A path that is popped and expanded. -/
theorem Shows.expand (h : Shows removed start search popped paths)
    (hpop : queue.pop search.heap = some (state, heap))
    (hnew : ∀ seen, search.shallowest state.node = some seen → state.depth < seen) :
    Shows removed start (Search.expand removed state (search.withHeap heap))
      (popped ++ [state])
      ⟨paths.taken ++ [hopsOf search.steps state.step],
        Multiset.ofList (Net.Search.continuations (index.net removed) start
          (hopsOf search.steps state.step)) + (search.withHeap heap).waiting,
        paths.expanded ++ [hopsOf search.steps state.step]⟩ := by
  obtain ⟨hstate, hsound, -, -⟩ := h.pop hpop
  have hstate' : Tells removed start ((search.withHeap heap).mark state.node state.depth).steps state :=
    hstate
  obtain ⟨more, hsteps, hsound', hwaiting⟩ :=
    foldl_follow_waiting (incidentAt state.node) hstate' hsound
  have hkept : ∀ other, Tells removed start search.steps other →
      hopsOf (Search.expand removed state (search.withHeap heap)).steps other.step =
        hopsOf search.steps other.step := fun other hother ↦ by
    rw [Search.expand, hsteps]
    exact hopsOf_append more hother.lt
  have hleft := h.leave hpop
  refine ⟨fun other hother ↦ ?_, hsound', ?_, ?_, fun node depth ↦ ?_⟩
  · rw [Search.expand, hsteps]
    exact (hleft.tells other hother).append more
  · rw [hleft.taken]
    exact map_congr_left fun other hother ↦ (hkept other (hleft.tells other hother)).symm
  · rw [Search.expand, hwaiting, Net.Search.continuations, hstate.last]
    rfl
  · rw [Search.expand, (foldl_follow removed state _ _).1, mark]
    simp only [mem_append, mem_singleton, or_and_right, exists_or, exists_eq_left,
      h.shallowest, hstate.last, ← hstate.depth]
    by_cases heq : node = state.node
    · subst heq
      rw [update_self]
      constructor
      · rintro (⟨seen, hseen, hle⟩ | ⟨-, hle⟩)
        · exact ⟨_, rfl, (hnew seen hseen).le.trans hle⟩
        · exact ⟨_, rfl, hle⟩
      · rintro ⟨seen, hseen, hle⟩
        exact .inr ⟨rfl, Option.some.inj hseen ▸ hle⟩
    · rw [update_of_ne heq, or_iff_left fun hne ↦ heq hne.1.symm]
      rfl

/-- **Each pass that pops a path is a step of the search over paths.**  When the path is accepted
the heap is left as it is, but the step that would follow takes the same path. -/
theorem Shows.step (h : Shows removed start search popped paths)
    (hpop : queue.pop search.heap = some (state, heap)) (maxDepth : ℕ) :
    ∃ next, Net.Search.Step (index.net removed) start maxDepth paths next ∧
      next.taken = paths.taken ++ [hopsOf search.steps state.step] ∧
      ∀ {σ : Type} (accept : σ → index.Node → ℕ → Bool × σ) (s : σ) (s' : Search index queue × σ),
        runPass removed maxDepth accept (search, s) = .again s' →
          Shows removed start s'.1 (popped ++ [state]) next ∧
            s'.2 = (accept s state.node state.step).2 := by
  obtain ⟨hstate, -, hwaits, hbest⟩ := h.pop hpop
  by_cases hleave : maxDepth ≤ state.depth ∨
      ∃ seen, search.shallowest state.node = some seen ∧ seen ≤ state.depth
  · refine ⟨_, .leave hwaits hbest ?_, rfl, fun accept s s' hpass ↦ ?_⟩
    · rw [hstate.depth, ← h.shallowest] at hleave
      rw [hstate.last]
      exact hleave
    · rw [runPass, hpop] at hpass
      simp only [withHeap] at hpass
      split at hpass
      · cases hpass
      have hagain : s' = (search.withHeap heap, (accept s state.node state.step).2) := by
        split at hpass
        · cases hpass
          rfl
        rename_i hdepth
        obtain ⟨seen, hseen, hle⟩ := hleave.resolve_left hdepth
        rw [hseen] at hpass
        simp only [if_pos hle] at hpass
        cases hpass
        rfl
      rw [hagain]
      exact ⟨h.leave hpop, rfl⟩
  · rw [not_or, Nat.not_le] at hleave
    obtain ⟨hdepth, hnew⟩ := hleave
    have hnew' : ∀ seen, search.shallowest state.node = some seen → state.depth < seen :=
      fun seen hseen ↦ Nat.lt_of_not_le fun hle ↦ hnew ⟨seen, hseen, hle⟩
    refine ⟨_, .expand hwaits hbest (hstate.depth ▸ hdepth), rfl, fun accept s s' hpass ↦ ?_⟩
    rw [runPass, hpop] at hpass
    simp only at hpass
    split at hpass
    · cases hpass
    rw [if_neg (Nat.not_le.2 hdepth)] at hpass
    have hagain : s' = (Search.expand removed state (search.withHeap heap),
        (accept s state.node state.step).2) := by
      split at hpass
      · rename_i seen hseen
        rw [if_neg (Nat.not_le.2 (hnew' seen hseen))] at hpass
        cases hpass
        rfl
      · cases hpass
        rfl
    rw [hagain]
    exact ⟨h.expand hpop hnew', rfl⟩

/-- What `accept` makes of paths offered to it one after the other. -/
def offered {σ : Type} (accept : σ → index.Node → ℕ → Bool × σ) (s : σ)
    (popped : List (Frontier index)) : σ :=
  popped.foldl (fun s state ↦ (accept s state.node state.step).2) s

/-- What a run of the search ends with, in terms of the paths it took. -/
structure Ran {σ : Type} (removed : Fin index.bases.length → Bool) (start : index.Node)
    (maxDepth : ℕ) (accept : σ → index.Node → ℕ → Bool × σ) (s : σ)
    (popped : List (Frontier index)) (paths : Net.Search index.Node index.Edge)
    (result : Option ℕ × Search index queue × σ) : Prop where
  inv : Net.Search.Inv (index.net removed) start maxDepth paths
  taken : paths.taken = popped.map fun state ↦ hopsOf result.2.1.steps state.step
  tells : ∀ state ∈ popped, Tells removed start result.2.1.steps state
  offers : result.2.2 = offered accept s popped
  exhausted : result.1 = none → paths.waiting = 0
  accepted : ∀ step, result.1 = some step → ∃ s node, (accept s node step).1 = true

/-- **A run of the search is a search over paths**, whose paths are offered in the order in which
they are taken, up to the first that is accepted or until none waits. -/
theorem run_spec {σ : Type} (search : Search index queue) (start : index.Node)
    (removed : Fin index.bases.length → Bool) (maxDepth : ℕ)
    (accept : σ → index.Node → ℕ → Bool × σ) (s : σ) : ∃ popped paths,
      Ran removed start maxDepth accept s popped paths
        (search.run start removed maxDepth accept s) := by
  refine Loop.run_inv
    (fun t : Search index queue × σ ↦ ∃ popped paths,
      Net.Search.Inv (index.net removed) start maxDepth paths ∧
        Shows removed start t.1 popped paths ∧ t.2 = offered accept s popped)
    (fun r : Option ℕ × Search index queue × σ ↦ ∃ popped paths,
      Ran removed start maxDepth accept s popped paths r) ?_ ?_
    ⟨[], _, .init, .begin search start, rfl⟩
  · rintro ⟨search, t⟩ s' ⟨popped, paths, hinv, hshows, ht⟩ hpass
    cases hpop : queue.pop search.heap with
    | none =>
      rw [runPass, hpop] at hpass
      cases hpass
    | some top =>
      obtain ⟨state, heap⟩ := top
      obtain ⟨next, hstep, -, hnext⟩ := hshows.step hpop maxDepth
      obtain ⟨hshows', hs'⟩ := hnext accept t s' hpass
      refine ⟨popped ++ [state], next, hinv.step hstep, hshows', ?_⟩
      rw [hs', offered, foldl_append, foldl_cons, foldl_nil]
      exact congrArg (fun t ↦ (accept t state.node state.step).2) ht
  · rintro ⟨search, t⟩ r ⟨popped, paths, hinv, hshows, ht⟩ hpass
    cases hpop : queue.pop search.heap with
    | none =>
      rw [runPass, hpop] at hpass
      cases hpass
      refine ⟨popped, paths, hinv, hshows.taken, hshows.tells, ht, fun _ ↦ ?_, fun _ h ↦ ?_⟩
      · rw [hshows.waits, waiting, queue.items_pop_none _ hpop, Multiset.map_zero]
      · cases h
    | some top =>
      obtain ⟨state, heap⟩ := top
      obtain ⟨next, hstep, htaken, -⟩ := hshows.step hpop maxDepth
      obtain ⟨hstate, -, -, -⟩ := hshows.pop hpop
      rw [runPass, hpop] at hpass
      simp only at hpass
      split at hpass
      · rename_i haccept
        cases hpass
        refine ⟨popped ++ [state], next, hinv.step hstep, ?_, ?_, ?_, fun h ↦ ?_, fun step h ↦ ?_⟩
        · rw [htaken, hshows.taken, map_append, map_singleton]
          rfl
        · intro other hother
          rcases mem_append.1 hother with hother | hother
          · exact hshows.tells other hother
          · exact mem_singleton.1 hother ▸ hstate
        · rw [offered, foldl_append, foldl_cons, foldl_nil]
          exact congrArg (fun t ↦ (accept t state.node state.step).2) ht
        · cases h
        · cases h
          exact ⟨t, state.node, haccept⟩
      · split at hpass
        · cases hpass
        · split at hpass
          · split at hpass <;> cases hpass
          · cases hpass

/-- The search goes on until no path is left, when it accepts none. -/
theorem run_of_never {σ : Type} (search : Search index queue) (start : index.Node)
    (removed : Fin index.bases.length → Bool) (maxDepth : ℕ)
    {accept : σ → index.Node → ℕ → Bool × σ} (hnever : ∀ s node step, (accept s node step).1 = false)
    (s : σ) : (search.run start removed maxDepth accept s).1 = none := by
  obtain ⟨popped, paths, hran⟩ := run_spec search start removed maxDepth accept s
  rw [Option.eq_none_iff_forall_ne_some]
  intro step hstep
  obtain ⟨s', node, haccept⟩ := hran.accepted step hstep
  rw [hnever] at haccept
  cases haccept

/-! ## The paths it finds -/

/-- Keep the paths that are offered besides, each by its last node and step. -/
def recording {σ : Type} (accept : σ → index.Node → ℕ → Bool × σ)
    (s : σ × List (index.Node × ℕ)) (node : index.Node) (step : ℕ) :
    Bool × σ × List (index.Node × ℕ) :=
  ((accept s.1 node step).1, (accept s.1 node step).2, s.2 ++ [(node, step)])

theorem offered_recording {σ : Type} (accept : σ → index.Node → ℕ → Bool × σ)
    (popped : List (Frontier index)) : ∀ s : σ × List (index.Node × ℕ),
    (offered (recording accept) s popped).2 = s.2 ++ popped.map fun state ↦ (state.node, state.step) := by
  induction popped with
  | nil => exact fun s ↦ (append_nil _).symm
  | cons state popped ih =>
    intro s
    rw [offered, foldl_cons, ← offered, ih, recording, append_assoc, map_cons]
    rfl

/-- The first path taken to a node, when the paths taken are those of frontiers. -/
theorem find_hopsOf {steps : List (Step index)} {node : index.Node} :
    ∀ {popped : List (Frontier index)}, (∀ state ∈ popped, Tells removed start steps state) →
      popped.find? (fun state ↦ state.node = node) = some state →
      (popped.map fun state ↦ hopsOf steps state.step).find? (fun p ↦ Net.last start p = node) =
        some (hopsOf steps state.step) := by
  intro popped htells hfind
  rw [find?_map]
  have hsame : popped.find? ((fun p ↦ decide (Net.last start p = node)) ∘
      fun state ↦ hopsOf steps state.step) = popped.find? fun state ↦ state.node = node :=
    find?_congr fun state hstate ↦ by
      rw [Function.comp_apply, (htells state hstate).last]
  rw [hsame, hfind, Option.map_some]

/-- **The first path popped to a node is a best one**, of those without a node twice, over edges
that were not removed, with at most `maxDepth` edges: none is wider, and none as wide is shallower.
When the search was not stopped, a node has no path popped to it exactly when there is none. -/
theorem run_first_best {σ : Type} (search : Search index queue) (start : index.Node)
    (removed : Fin index.bases.length → Bool) (maxDepth : ℕ)
    (accept : σ → index.Node → ℕ → Bool × σ) (s : σ) :
    let result := search.run start removed maxDepth (recording accept) (s, [])
    (∀ node step, result.2.2.2.find? (fun offer ↦ offer.1 = node) = some (node, step) →
      ∃ p, (index.net removed).IsBest start maxDepth node p ∧
        path result.2.1.steps step = (Net.nodes start p).reverse ∧
        edgesOf result.2.1.steps step = p.map Prod.fst) ∧
    (result.1 = none → ∀ node, (∀ offer ∈ result.2.2.2, offer.1 ≠ node) ↔
      ¬∃ p, (index.net removed).IsPath start p ∧ p.length ≤ maxDepth ∧ Net.last start p = node) := by
  intro result
  obtain ⟨popped, paths, hran⟩ := run_spec search start removed maxDepth (recording accept) (s, [])
  have hoffers : result.2.2.2 = popped.map fun state ↦ (state.node, state.step) := by
    rw [hran.offers, offered_recording, nil_append]
  refine ⟨fun node step hfind ↦ ?_, fun hnone node ↦ ?_⟩
  · rw [hoffers, find?_map, Option.map_eq_some_iff] at hfind
    obtain ⟨state, hfind, hstate⟩ := hfind
    cases hstate
    have hfirst := find_hopsOf hran.tells hfind
    rw [← hran.taken] at hfirst
    have htells := hran.tells state (mem_of_find?_eq_some hfind)
    exact ⟨_, hran.inv.first_best hfirst, congrArg reverse htells.nodes, edgesOf_eq _ _⟩
  · rw [← hran.inv.taken_iff (hran.exhausted hnone), hoffers, hran.taken]
    simp only [mem_map, not_exists, not_and, forall_exists_index, and_imp,
      forall_apply_eq_imp_iff₂]
    exact forall₂_congr fun state hstate ↦ by rw [(hran.tells state hstate).last]

end Search

end IdentityIndex

end Huntsman
