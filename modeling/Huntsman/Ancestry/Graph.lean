import Huntsman.Lib.Refusal
import Huntsman.Text
import Std.Data.TreeMap.Lemmas
import Mathlib.Data.String.Basic

/-!
# The ancestry of evidence

Module count is not source independence.  The graph keeps the upstream ancestry of evidence, so that
a mirror, a derivation or a copied corpus cannot manufacture corroboration by being emitted again.

An `EvidenceAncestryGraph` carries what insertion checks in its fields: a node is kept under its own
id, has a source family, and names a parent if it was derived; and independence evidence is kept
under the ordered pair of the two observed roots it is about.  `insert` and
`insertIndependenceEvidence` are the only ways to make one grow.  Parents may be inserted later, may
be missing and may form cycles: that is found out when ancestry is walked.

The key that a family's spellings share is a parameter, `canonicalFamily`.
-/

set_option autoImplicit false

namespace Huntsman

open Std (TreeMap LawfulEqCmp)

abbrev EvidenceNodeId := String

/-- One piece of evidence. -/
structure EvidenceAncestryNode where
  id : EvidenceNodeId
  /-- Family, corpus, or provider-origin label, canonicalised on insert. -/
  sourceFamily : String
  /-- Direct evidence parents, in ascending order.  Empty means an observed root. -/
  parents : List EvidenceNodeId
  /-- Deterministic, enrichment, or recall derivation. -/
  derived : Bool

inductive IndependenceState where
  | provenIndependent
  | knownDependent
  | unknown
deriving DecidableEq

inductive IndependenceBasis where
  | distinctAuthenticatedPrimaryOrigins
  | distinctDirectSensorObservations
  | explicitUpstreamProvenance
deriving DecidableEq

/-- Explicit, versioned evidence that two observed roots are distinct proof routes. -/
structure IndependenceEvidence where
  leftRoot : EvidenceNodeId
  rightRoot : EvidenceNodeId
  basis : IndependenceBasis
  methodId : String
  methodVersion : UInt32
  /-- In ascending order. -/
  supportingArtifactIds : List String
  observedAtUnix : UInt64
deriving DecidableEq

inductive AncestryError where
  | duplicateNode (id : EvidenceNodeId)
  | missingNode (id : EvidenceNodeId)
  | cycle (id : EvidenceNodeId)
  | emptySourceFamily (id : EvidenceNodeId)
  | derivedWithoutParent (id : EvidenceNodeId)
  | invalidIndependenceEvidence (reason : String)
  | conflictingIndependenceEvidence (left right : EvidenceNodeId)
deriving DecidableEq

def AncestryError.display : AncestryError → String
  | .duplicateNode id => "duplicate evidence node " ++ id
  | .missingNode id => "missing evidence node " ++ id
  | .cycle id => "evidence ancestry cycle at " ++ id
  | .emptySourceFamily id => "evidence node " ++ id ++ " has an empty source family"
  | .derivedWithoutParent id => "derived evidence node " ++ id ++ " names no parent"
  | .invalidIndependenceEvidence reason => "invalid independence evidence: " ++ reason
  | .conflictingIndependenceEvidence left right =>
    "conflicting independence evidence for roots " ++ left ++ "/" ++ right

/-- An observed root: it was not derived, and has no parents. -/
def EvidenceAncestryNode.isRoot (node : EvidenceAncestryNode) : Bool :=
  !node.derived && node.parents.isEmpty

/-- The graph of evidence and what its independence rests on. -/
structure EvidenceAncestryGraph where
  nodes : TreeMap EvidenceNodeId EvidenceAncestryNode
  independenceEvidence : TreeMap EvidenceNodeId (TreeMap EvidenceNodeId IndependenceEvidence)
  /-- A node is kept under its own id. -/
  keyed : ∀ (id : EvidenceNodeId) (node : EvidenceAncestryNode), nodes[id]? = some node → node.id = id
  /-- Every node has a source family. -/
  familied : ∀ (id : EvidenceNodeId) (node : EvidenceAncestryNode), nodes[id]? = some node →
    node.sourceFamily ≠ ""
  /-- A derivation names what it derives from. -/
  derives : ∀ (id : EvidenceNodeId) (node : EvidenceAncestryNode), nodes[id]? = some node →
    node.derived = true → node.parents ≠ []
  /-- Independence evidence is kept under the two observed roots it is about, the lesser first. -/
  paired : ∀ (left : EvidenceNodeId) (records : TreeMap EvidenceNodeId IndependenceEvidence)
    (right : EvidenceNodeId) (evidence : IndependenceEvidence),
    independenceEvidence[left]? = some records → records[right]? = some evidence →
    evidence.leftRoot = left ∧ evidence.rightRoot = right ∧ left < right ∧
      ∀ root ∈ [left, right], ∃ node : EvidenceAncestryNode,
        nodes[root]? = some node ∧ node.isRoot = true

namespace EvidenceAncestryGraph

def empty : EvidenceAncestryGraph where
  nodes := ∅
  independenceEvidence := ∅
  keyed := by simp
  familied := by simp
  derives := by simp
  paired := by simp

/-! ## Nodes -/

theorem eq_of_compare {a b : EvidenceNodeId} (h : compare a b = .eq) : a = b :=
  LawfulEqCmp.eq_of_compare h

/-- Insert one node.  Parents may be inserted later; a missing parent fails at query time. -/
protected def insert (canonicalFamily : String → String) (graph : EvidenceAncestryGraph)
    (node : EvidenceAncestryNode) : Except AncestryError EvidenceAncestryGraph :=
  let family := canonicalFamily node.sourceFamily
  if hfamily : family = "" then .error (.emptySourceFamily node.id)
  else if hderived : node.derived = true ∧ node.parents = [] then
    .error (.derivedWithoutParent node.id)
  else if hnew : node.id ∈ graph.nodes then .error (.duplicateNode node.id)
  else .ok
    { nodes := graph.nodes.insert node.id { node with sourceFamily := family }
      independenceEvidence := graph.independenceEvidence
      keyed := fun id found h ↦ by
        rw [TreeMap.getElem?_insert] at h
        split at h
        · rename_i heq
          cases h
          exact eq_of_compare heq
        · exact graph.keyed id found h
      familied := fun id found h ↦ by
        rw [TreeMap.getElem?_insert] at h
        split at h
        · cases h
          exact hfamily
        · exact graph.familied id found h
      derives := fun id found h ↦ by
        rw [TreeMap.getElem?_insert] at h
        split at h
        · cases h
          exact fun hd hp ↦ hderived ⟨hd, hp⟩
        · exact graph.derives id found h
      paired := fun left records right evidence hleft hright ↦ by
        obtain ⟨hl, hr, hlt, hroots⟩ := graph.paired left records right evidence hleft hright
        refine ⟨hl, hr, hlt, fun root hroot ↦ ?_⟩
        obtain ⟨found, hfound, hobserved⟩ := hroots root hroot
        refine ⟨found, ?_, hobserved⟩
        rw [TreeMap.getElem?_insert, if_neg, hfound]
        intro heq
        rw [eq_of_compare heq, TreeMap.mem_iff_isSome_getElem?, hfound] at hnew
        exact hnew rfl }

/-! ## Independence evidence -/

/-- The two roots of a pair, the lesser first. -/
def canonicalPair (left right : EvidenceNodeId) :
    Except AncestryError (EvidenceNodeId × EvidenceNodeId) :=
  if left = right then
    .error (.invalidIndependenceEvidence "independence requires two distinct roots")
  else .ok (if left < right then (left, right) else (right, left))

/-- A root that evidence names must be an observed one. -/
def checkRoot (graph : EvidenceAncestryGraph) (root : EvidenceNodeId) : Except AncestryError Unit :=
  match graph.nodes[root]? with
  | none => .error (.missingNode root)
  | some node => Except.ensure (node.isRoot = true)
      (.invalidIndependenceEvidence (root ++ " is not an observed root"))

/-- The checks of independence evidence, and the evidence as it is recorded. -/
def checkEvidence (graph : EvidenceAncestryGraph) (evidence : IndependenceEvidence) :
    Except AncestryError IndependenceEvidence := do
  let (left, right) ← canonicalPair evidence.leftRoot evidence.rightRoot
  graph.checkRoot left
  graph.checkRoot right
  let methodId := Text.trim evidence.methodId
  Except.ensure (methodId ≠ "") (.invalidIndependenceEvidence "method_id is empty")
  Except.ensure (evidence.methodVersion ≠ 0)
    (.invalidIndependenceEvidence "method_version must be greater than zero")
  Except.ensure (evidence.supportingArtifactIds ≠ [] ∧
      ∀ artifact ∈ evidence.supportingArtifactIds, Text.trim artifact ≠ "")
    (.invalidIndependenceEvidence "supporting_artifact_ids must contain non-empty ids")
  .ok { evidence with leftRoot := left, rightRoot := right, methodId }

theorem checkRoot_ok {graph : EvidenceAncestryGraph} {root : EvidenceNodeId} {u : Unit}
    (h : graph.checkRoot root = .ok u) :
    ∃ node : EvidenceAncestryNode, graph.nodes[root]? = some node ∧ node.isRoot = true := by
  rw [checkRoot] at h
  split at h
  · cases h
  · rename_i node hnode
    exact ⟨node, hnode, Except.ensure_ok.1 h⟩

theorem canonicalPair_ok {left right : EvidenceNodeId} {pair : EvidenceNodeId × EvidenceNodeId}
    (h : canonicalPair left right = .ok pair) :
    pair.1 < pair.2 ∧ (pair = (left, right) ∨ pair = (right, left)) := by
  rw [canonicalPair] at h
  split at h
  · cases h
  · rename_i hne
    cases h
    split
    · rename_i hlt
      exact ⟨hlt, .inl rfl⟩
    · rename_i hge
      exact ⟨lt_of_le_of_ne (not_lt.1 hge) (Ne.symm hne), .inr rfl⟩

theorem checkEvidence_ok {graph : EvidenceAncestryGraph} {evidence checked : IndependenceEvidence}
    (h : graph.checkEvidence evidence = .ok checked) : checked.leftRoot < checked.rightRoot ∧
      ∀ root ∈ [checked.leftRoot, checked.rightRoot], ∃ node : EvidenceAncestryNode,
        graph.nodes[root]? = some node ∧ node.isRoot = true := by
  rw [checkEvidence] at h
  obtain ⟨⟨left, right⟩, hpair, h⟩ := Except.bind_ok.1 h
  obtain ⟨u, hleft, h⟩ := Except.bind_ok.1 h
  obtain ⟨v, hright, h⟩ := Except.bind_ok.1 h
  obtain ⟨_, -, h⟩ := Except.bind_ok.1 h
  obtain ⟨_, -, h⟩ := Except.bind_ok.1 h
  obtain ⟨_, -, h⟩ := Except.bind_ok.1 h
  cases h
  refine ⟨(canonicalPair_ok hpair).1, fun root hroot ↦ ?_⟩
  rcases List.mem_pair.1 hroot with rfl | rfl
  · exact checkRoot_ok hleft
  · exact checkRoot_ok hright

/-- Insert explicit, versioned evidence that two observed roots are distinct proof routes.  Merely
different labels never satisfy this contract. -/
def insertIndependenceEvidence (graph : EvidenceAncestryGraph) (evidence : IndependenceEvidence) :
    Except AncestryError EvidenceAncestryGraph :=
  match hchecked : graph.checkEvidence evidence with
  | .error e => .error e
  | .ok evidence =>
    let records := (graph.independenceEvidence[evidence.leftRoot]?).getD ∅
    match records[evidence.rightRoot]? with
    | some existing =>
      if existing = evidence then .ok graph
      else .error (.conflictingIndependenceEvidence evidence.leftRoot evidence.rightRoot)
    | none => .ok
      { graph with
        independenceEvidence := graph.independenceEvidence.insert evidence.leftRoot
          (records.insert evidence.rightRoot evidence)
        paired := fun left found right record hleft hright ↦ by
          obtain ⟨hlt, hroots⟩ := checkEvidence_ok hchecked
          rw [TreeMap.getElem?_insert] at hleft
          split at hleft
          · rename_i hkey
            obtain rfl := eq_of_compare hkey
            cases hleft
            rw [TreeMap.getElem?_insert] at hright
            split at hright
            · rename_i hkey'
              obtain rfl := eq_of_compare hkey'
              cases hright
              exact ⟨rfl, rfl, hlt, hroots⟩
            · change ((graph.independenceEvidence[evidence.leftRoot]?).getD ∅)[right]? = _ at hright
              rcases hold : graph.independenceEvidence[evidence.leftRoot]? with _ | old
              · rw [hold] at hright
                simp at hright
              · rw [hold] at hright
                exact graph.paired _ old right record hold hright
          · exact graph.paired left found right record hleft hright }

end EvidenceAncestryGraph

end Huntsman
