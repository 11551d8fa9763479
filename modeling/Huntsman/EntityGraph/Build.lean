import Huntsman.Entity
import Huntsman.Lib.Cells
import Mathlib.Combinatorics.SimpleGraph.Basic
import Mathlib.Data.List.Destutter
import Mathlib.Data.Prod.Lex
import Mathlib.Data.Sym.Sym2.Order
import Mathlib.Data.String.Basic

/-!
# The undirected entity graph

An `EntityGraph` numbers the uids of the entities it is built from in ascending order, and lists for
each its neighbours.  `build` keeps of the relations those between two different known entities, one
edge for each pair however many relations join it.

What the algorithms on the graph rely on is in its fields: the neighbours of a node are listed in
ascending order, each once, a node is not its own neighbour, and neighbours are neighbours of each
other.  So it is a simple graph (`EntityGraph.toSimple`), the one of the relations (`build_spec`).
-/

set_option autoImplicit false

namespace Huntsman

open Function List
open Std (TreeMap LawfulEqCmp)

namespace EntityGraph

inductive RelationKind where
  | sameAs
  | aliasOf
  | associatedWith
  | locatedAt
  | uses
  | owns
  | memberOf
  | mentionedWith
  | exposedWith
  | supports
  | contradicts
deriving DecidableEq

def RelationKind.asStr : RelationKind → String
  | .sameAs => "same_as"
  | .aliasOf => "alias_of"
  | .associatedWith => "associated_with"
  | .locatedAt => "located_at"
  | .uses => "uses"
  | .owns => "owns"
  | .memberOf => "member_of"
  | .mentionedWith => "mentioned_with"
  | .exposedWith => "exposed_with"
  | .supports => "supports"
  | .contradicts => "contradicts"

end EntityGraph

/-- A relation between entities, as far as the graph reads it. -/
structure EntityRelation where
  fromUid : String
  toUid : String
  kind : EntityGraph.RelationKind
  confidence : F64

structure GraphEdge (n : ℕ) where
  toNode : Fin n
  relationKinds : List EntityGraph.RelationKind
  maxConfidence : F64

/-- An undirected graph of entities. -/
structure EntityGraph where
  uids : List String
  /-- The neighbours of each node. -/
  adj : Fin uids.length → List (Fin uids.length)
  edgeMap : TreeMap (Fin uids.length ×ₗ Fin uids.length) (GraphEdge uids.length)
  uids_sorted : uids.Pairwise (· < ·)
  adj_sorted : ∀ node, (adj node).Pairwise (· < ·)
  adj_symm : ∀ left right, right ∈ adj left → left ∈ adj right
  adj_irrefl : ∀ node, node ∉ adj node

namespace EntityGraph

instance {n : ℕ} : LawfulEqCmp (α := Fin n ×ₗ Fin n) compare where
  eq_of_compare {a b} h := by
    rw [Prod.Lex.compare_def, compareLex, compareOn, compareOn, Ordering.then_eq_eq] at h
    exact Prod.ext (LawfulEqCmp.eq_of_compare h.1) (LawfulEqCmp.eq_of_compare h.2)

/-! ## Building a graph -/

/-- The uids, in ascending order, each once. -/
def sortedUids (entities : List Entity) : List String :=
  ((entities.map Entity.uid).insertionSort (· ≤ ·)).destutter (· ≠ ·)

theorem sortedUids_sorted (entities : List Entity) : (sortedUids entities).Pairwise (· < ·) := by
  have hle : (sortedUids entities).Pairwise (· ≤ ·) :=
    (pairwise_insertionSort _ _).sublist (destutter_sublist _ _)
  have hne : (sortedUids entities).IsChain (· ≠ ·) := isChain_destutter _ _
  rw [← isChain_iff_pairwise]
  exact isChain_iff_getElem.2 fun i hi ↦
    lt_of_le_of_ne (isChain_iff_getElem.1 hle.isChain i hi) (isChain_iff_getElem.1 hne i hi)

/-- The position of a uid. -/
def indexOf (uids : List String) (uid : String) : Option (Fin uids.length) :=
  if h : uid ∈ uids then some ⟨uids.idxOf uid, List.idxOf_lt_length_of_mem h⟩ else none

variable {n : ℕ}

/-- What is kept of the relations between two nodes, the lesser first: their kinds and the strongest
confidence. -/
abbrev Pairs (n : ℕ) := TreeMap (Fin n ×ₗ Fin n) (List RelationKind × F64)

/-- The confidence of a relation, normalised. -/
def ingressConfidence (confidence : F64) : F64 :=
  if confidence.isFinite then confidence.clamp (.ofRat 0) (.ofRat 1) else .ofRat 0

/-- Keep a relation between two nodes. -/
def addPair (pairs : Pairs n) (left right : Fin n) (relation : EntityRelation) : Pairs n :=
  let pair := toLex (left ⊓ right, left ⊔ right)
  let kept := pairs[pair]?.getD ([], .ofRat 0)
  pairs.insert pair (if relation.kind ∈ kept.1 then kept.1 else kept.1 ++ [relation.kind],
    kept.2.max (ingressConfidence relation.confidence))

/-- Keep a relation, unless an end is unknown or both are the same. -/
def addRelation {uids : List String} (pairs : Pairs uids.length) (relation : EntityRelation) :
    Pairs uids.length :=
  match indexOf uids relation.fromUid, indexOf uids relation.toUid with
  | some left, some right => if left = right then pairs else addPair pairs left right relation
  | _, _ => pairs

/-- List two nodes as neighbours of each other. -/
def addNeighbours (adj : Fin n → List (Fin n)) (pair : Fin n ×ₗ Fin n) : Fin n → List (Fin n) :=
  let adj := update adj (ofLex pair).1 (adj (ofLex pair).1 ++ [(ofLex pair).2])
  update adj (ofLex pair).2 (adj (ofLex pair).2 ++ [(ofLex pair).1])

/-- Enter an edge, both ways. -/
def addEdge (edgeMap : TreeMap (Fin n ×ₗ Fin n) (GraphEdge n))
    (entry : (Fin n ×ₗ Fin n) × List RelationKind × F64) :
    TreeMap (Fin n ×ₗ Fin n) (GraphEdge n) :=
  let left := (ofLex entry.1).1
  let right := (ofLex entry.1).2
  let edge : GraphEdge n := {
    toNode := right
    relationKinds := entry.2.1.insertionSort fun a b ↦ a.asStr ≤ b.asStr
    maxConfidence := entry.2.2 }
  (edgeMap.insert (toLex (left, right)) edge).insert (toLex (right, left)) { edge with toNode := left }

/-- The pairs of different nodes that relations join. -/
def pairsOf (uids : List String) (relations : List EntityRelation) : Pairs uids.length :=
  relations.foldl addRelation ∅

/-- The neighbours of each node, in ascending order. -/
def adjOf (pairs : Pairs n) (node : Fin n) : List (Fin n) :=
  ((pairs.toList.map Prod.fst).foldl addNeighbours (fun _ ↦ []) node).insertionSort (· ≤ ·)

/-- The lesser node of a pair stands first. -/
def Ordered (pairs : Pairs n) : Prop := ∀ pair ∈ pairs, (ofLex pair).1 < (ofLex pair).2

theorem addPair_ordered {pairs : Pairs n} (h : Ordered pairs) {left right : Fin n}
    (hne : left ≠ right) (relation : EntityRelation) :
    Ordered (addPair pairs left right relation) := by
  intro pair hpair
  rw [addPair, TreeMap.mem_insert, LawfulEqCmp.compare_eq_iff_eq] at hpair
  rcases hpair with rfl | hpair
  · exact inf_lt_sup.2 hne
  · exact h pair hpair

theorem pairsOf_ordered (uids : List String) (relations : List EntityRelation) :
    Ordered (pairsOf uids relations) := by
  rw [pairsOf]
  induction relations using reverseRecOn with
  | nil => exact fun pair hpair ↦ absurd hpair TreeMap.not_mem_emptyc
  | append_singleton relations relation ih =>
    rw [foldl_append, foldl_cons, foldl_nil, addRelation]
    split
    · split
      · exact ih
      · rename_i hne
        exact addPair_ordered ih hne relation
    · exact ih

/-- Both ways round. -/
def bothWays (pair : Fin n ×ₗ Fin n) : List (Fin n × Fin n) :=
  [((ofLex pair).1, (ofLex pair).2), ((ofLex pair).2, (ofLex pair).1)]

/-- What is listed at a node. -/
theorem foldl_addNeighbours (pairs : List (Fin n ×ₗ Fin n)) (node : Fin n) :
    pairs.foldl addNeighbours (fun _ ↦ []) node =
      ((pairs.flatMap bothWays).filter fun way ↦ way.1 = node).map Prod.snd := by
  have hways : pairs.foldl addNeighbours (fun _ ↦ []) =
      (pairs.flatMap bothWays).foldl
        (fun (adj : Fin n → List (Fin n)) (way : Fin n × Fin n) ↦
          update adj way.1 (adj way.1 ++ [way.2])) fun _ ↦ [] := by
    rw [foldl_flatMap]
    rfl
  rw [hways, Cells.foldl_update Prod.fst fun (way : Fin n × Fin n) held ↦ held ++ [way.2]]
  generalize (pairs.flatMap bothWays).filter (fun way ↦ way.1 = node) = ways
  rw [← foldl_map (f := Prod.snd) (g := fun held other ↦ held ++ [other]), Cells.foldl_concat,
    nil_append]

theorem nodup_bothWays {pairs : List (Fin n ×ₗ Fin n)} (hnodup : pairs.Nodup)
    (hordered : ∀ pair ∈ pairs, (ofLex pair).1 < (ofLex pair).2) : (pairs.flatMap bothWays).Nodup := by
  rw [nodup_flatMap]
  refine ⟨fun pair hpair ↦ ?_, hnodup.imp_of_mem fun {left right} hleft hright hne ↦ ?_⟩
  · have hlt := hordered pair hpair
    rw [bothWays, nodup_cons, mem_singleton]
    exact ⟨fun heq ↦ hlt.ne (congrArg Prod.fst heq), nodup_singleton _⟩
  · -- Of two ways that are the same the lesser node stands first in both or in neither.
    have hl := hordered left hleft
    have hr := hordered right hright
    have hpair : ∀ {a b : Fin n ×ₗ Fin n}, (ofLex a).1 = (ofLex b).1 → (ofLex a).2 = (ofLex b).2 →
        a = b := fun h₁ h₂ ↦ Prod.ext h₁ h₂
    intro way hway hway'
    simp only [bothWays, mem_cons, not_mem_nil, or_false] at hway hway'
    rcases hway with rfl | rfl <;> rcases hway' with h | h <;> rw [Prod.mk.injEq] at h
    · exact hne (hpair h.1 h.2)
    · omega
    · omega
    · exact hne (hpair h.2 h.1)

theorem mem_adjOf {pairs : Pairs n} {left right : Fin n} : right ∈ adjOf pairs left ↔
    toLex (left, right) ∈ pairs ∨ toLex (right, left) ∈ pairs := by
  rw [adjOf, mem_insertionSort, foldl_addNeighbours, TreeMap.map_fst_toList_eq_keys]
  simp only [mem_map, mem_filter, mem_flatMap, TreeMap.mem_keys, bothWays,
    mem_cons, not_mem_nil, or_false, decide_eq_true_eq]
  constructor
  · rintro ⟨way, ⟨⟨pair, hpair, rfl | rfl⟩, rfl⟩, rfl⟩
    · exact .inl hpair
    · exact .inr hpair
  · rintro (hpair | hpair)
    · exact ⟨(left, right), ⟨⟨_, hpair, .inl rfl⟩, rfl⟩, rfl⟩
    · exact ⟨(left, right), ⟨⟨_, hpair, .inr rfl⟩, rfl⟩, rfl⟩

theorem adjOf_sorted {pairs : Pairs n} (h : Ordered pairs) (node : Fin n) :
    (adjOf pairs node).Pairwise (· < ·) := by
  have hkeys : pairs.keys.Nodup := TreeMap.distinct_keys.imp fun hne heq ↦
    hne (LawfulEqCmp.compare_eq_iff_eq.2 heq)
  have hways := nodup_bothWays hkeys fun pair hpair ↦ h pair (TreeMap.mem_keys.1 hpair)
  have hnodup : (adjOf pairs node).Nodup := by
    rw [adjOf, (perm_insertionSort _ _).nodup_iff, foldl_addNeighbours,
      TreeMap.map_fst_toList_eq_keys]
    refine (hways.filter _).map_on fun left hleft right hright heq ↦ ?_
    have hl := of_decide_eq_true (mem_filter.1 hleft).2
    have hr := of_decide_eq_true (mem_filter.1 hright).2
    exact Prod.ext (hl.trans hr.symm) heq
  have hle : (adjOf pairs node).Pairwise (· ≤ ·) := pairwise_insertionSort _ _
  exact (hle.and hnodup).imp fun h ↦ lt_of_le_of_ne h.1 h.2

/-- The graph of known entities and relations between them. -/
def build (entities : List Entity) (relations : List EntityRelation) : EntityGraph where
  uids := sortedUids entities
  adj := adjOf (pairsOf (sortedUids entities) relations)
  edgeMap := (pairsOf (sortedUids entities) relations).toList.foldl addEdge ∅
  uids_sorted := sortedUids_sorted entities
  adj_sorted := adjOf_sorted (pairsOf_ordered _ relations)
  adj_symm := fun _ _ h ↦ mem_adjOf.2 (mem_adjOf.1 h).symm
  adj_irrefl := fun node h ↦ by
    rcases mem_adjOf.1 h with h | h
    · exact lt_irrefl _ (pairsOf_ordered _ relations _ h)
    · exact lt_irrefl _ (pairsOf_ordered _ relations _ h)

/-! ## Reading a graph -/

variable (graph : EntityGraph)

abbrev Node := Fin graph.uids.length

def nodeCount : ℕ := graph.uids.length

/-- The neighbours of the node of a number. -/
def neighbours (index : ℕ) : Option (List graph.Node) :=
  if h : index < graph.uids.length then some (graph.adj ⟨index, h⟩) else none

def degree (index : ℕ) : Option ℕ := (graph.neighbours index).map List.length

/-- The graph, as what it is in mathematics. -/
def toSimple : SimpleGraph graph.Node where
  Adj left right := right ∈ graph.adj left
  symm := ⟨fun left right ↦ graph.adj_symm left right⟩
  loopless := ⟨graph.adj_irrefl⟩

instance : DecidableRel graph.toSimple.Adj := fun left right ↦
  inferInstanceAs (Decidable (right ∈ graph.adj left))

/-! ## What is built -/

variable {uids : List String}

theorem indexOf_eq_some (h : uids.Nodup) {uid : String} {node : Fin uids.length} :
    indexOf uids uid = some node ↔ uids.get node = uid := by
  rw [indexOf]
  constructor
  · intro hnode
    split at hnode <;> cases hnode
    exact idxOf_get _
  · rintro rfl
    rw [dif_pos (get_mem ..)]
    exact congrArg some (Fin.ext (h.idxOf_getElem ..))

theorem mem_addRelation (h : uids.Nodup) (pairs : Pairs uids.length) (relation : EntityRelation)
    {a b : Fin uids.length} : toLex (a ⊓ b, a ⊔ b) ∈ addRelation pairs relation ↔
      toLex (a ⊓ b, a ⊔ b) ∈ pairs ∨
        a ≠ b ∧ s(relation.fromUid, relation.toUid) = s(uids.get a, uids.get b) := by
  rw [addRelation]
  split
  · rename_i left right hleft hright
    have hends : s(relation.fromUid, relation.toUid) = s(uids.get a, uids.get b) ↔
        s(left, right) = s(a, b) := by
      rw [← (indexOf_eq_some h).1 hleft, ← (indexOf_eq_some h).1 hright]
      exact (Sym2.map.injective (nodup_iff_injective_get.1 h)).eq_iff (a := s(left, right))
        (b := s(a, b))
    have hsame : s(left, right) = s(a, b) → (left = right ↔ a = b) := by
      intro hab
      rcases Sym2.eq_iff.1 hab with ⟨rfl, rfl⟩ | ⟨rfl, rfl⟩
      · exact Iff.rfl
      · exact eq_comm
    rw [hends]
    split <;> rename_i heq
    · exact (or_iff_left fun hab ↦ hab.1 ((hsame hab.2).1 heq)).symm
    · rw [addPair, TreeMap.mem_insert, LawfulEqCmp.compare_eq_iff_eq, or_comm]
      refine or_congr_right ⟨fun hpair ↦ ?_, fun hab ↦ ?_⟩
      · have hab : s(left, right) = s(a, b) :=
          Sym2.inf_eq_inf_and_sup_eq_sup.1 (Prod.ext_iff.1 hpair)
        exact ⟨fun h ↦ heq ((hsame hab).2 h), hab⟩
      · exact Prod.ext (congrArg Sym2.inf hab.2) (congrArg Sym2.sup hab.2)
  · rename_i hnone
    refine (or_iff_left ?_).symm
    rintro ⟨-, hends⟩
    rcases Sym2.eq_iff.1 hends with ⟨hfrom, hto⟩ | ⟨hfrom, hto⟩
    all_goals exact hnone _ _ ((indexOf_eq_some h).2 hfrom.symm) ((indexOf_eq_some h).2 hto.symm)

theorem mem_pairsOf (h : uids.Nodup) (relations : List EntityRelation) {a b : Fin uids.length} :
    toLex (a ⊓ b, a ⊔ b) ∈ pairsOf uids relations ↔ a ≠ b ∧ ∃ relation ∈ relations,
      s(relation.fromUid, relation.toUid) = s(uids.get a, uids.get b) := by
  induction relations using reverseRecOn with
  | nil => simp [pairsOf]
  | append_singleton relations relation ih =>
    rw [pairsOf, foldl_append, foldl_cons, foldl_nil, mem_addRelation h, ← pairsOf, ih, ← and_or_left]
    simp [or_and_right, exists_or]

theorem mem_adjOf_iff {n : ℕ} {pairs : Pairs n} (h : Ordered pairs) {a b : Fin n} :
    b ∈ adjOf pairs a ↔ toLex (a ⊓ b, a ⊔ b) ∈ pairs := by
  rw [mem_adjOf]
  rcases le_total a b with hab | hab
  · rw [inf_eq_left.2 hab, sup_eq_right.2 hab]
    exact or_iff_left fun hpair ↦ (h _ hpair).not_ge hab
  · rw [inf_eq_right.2 hab, sup_eq_left.2 hab]
    exact or_iff_right fun hpair ↦ (h _ hpair).not_ge hab

/-- **The graph has the uids of the entities, and an edge between two just when a relation joins
them**, however many do, whichever way round and in whatever order. -/
theorem build_spec (entities : List Entity) (relations : List EntityRelation) :
    let graph := build entities relations
    (∀ uid, uid ∈ graph.uids ↔ ∃ entity ∈ entities, entity.uid = uid) ∧
      ∀ left right, graph.toSimple.Adj left right ↔ left ≠ right ∧ ∃ relation ∈ relations,
        s(relation.fromUid, relation.toUid) = s(graph.uids.get left, graph.uids.get right) := by
  refine ⟨fun uid ↦ ?_, fun left right ↦ ?_⟩
  · show uid ∈ sortedUids entities ↔ _
    rw [sortedUids, (pairwise_insertionSort (· ≤ ·) _).destutter_eq_dedup, mem_dedup,
      mem_insertionSort, mem_map]
  · exact (mem_adjOf_iff (pairsOf_ordered _ relations)).trans
      (mem_pairsOf ((sortedUids_sorted entities).imp ne_of_lt) relations)

end EntityGraph

end Huntsman
