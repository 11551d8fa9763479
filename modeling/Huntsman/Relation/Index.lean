import Huntsman.Float
import Mathlib.Data.List.Nodup
import Mathlib.Data.List.GetD
import Mathlib.Data.String.Basic

/-!
# The index of identity relations

Paths of identity relations are looked for in an `IdentityIndex`: the relations that bind
identities, with the uids they join and the evidence they rest on numbered in the order in which
they first came.  Its fields say what numbering promises: every number is one of something that is
there, and the edges listed at a node are those that have it as an end.

A `Relation` is here what the index reads of one.
-/

set_option autoImplicit false

namespace Huntsman

inductive RelationKind where
  | subdomainOf
  | belongsToDomain
  | hostedOn
  | resolvesTo
  | registeredBy
  | coLocatedWith
  | derivedFrom
  | identifiedBy
  | aliasOf
  | locatedAt
  | associatedWith
  | sameAs
  | sameOperator
  | sameIdentity
  | sharesSecretWith
  | employedBy
  | officerOf
  | memberOf
  | controlledBy
  | operatedBy
deriving DecidableEq

/-- Whether the relation says its two ends are one identity. -/
def RelationKind.bindsIdentity : RelationKind → Bool
  | .identifiedBy | .aliasOf | .sameAs | .sameIdentity | .sharesSecretWith => true
  | .subdomainOf | .belongsToDomain | .hostedOn | .resolvesTo | .registeredBy | .coLocatedWith
  | .derivedFrom | .locatedAt | .associatedWith | .sameOperator | .employedBy | .officerOf
  | .memberOf | .controlledBy | .operatedBy => false

structure Relation where
  fromUid : String
  toUid : String
  kind : RelationKind
  confidence : F64
  /-- The one piece of evidence this relation rests on with others. -/
  basis : Option String

/-- What a relation rests on. -/
inductive Basis where
  /-- A basis that relations name. -/
  | named (name : String)
  /-- The link between two entities, the smaller uid first. -/
  | link (left right : String)
deriving DecidableEq

/-- What this relation rests on: its named basis, or else the link between its two entities, the
same whichever way round the relation runs. -/
def Relation.restsOn (relation : Relation) : Basis :=
  match relation.basis with
  | some name => .named name
  | none =>
    if relation.fromUid ≤ relation.toUid then .link relation.fromUid relation.toUid
    else .link relation.toUid relation.fromUid

/-- The identity-binding relations with their uids interned. -/
structure IdentityIndex where
  uids : List String
  /-- The endpoints and confidence of each relation, in input order. -/
  edges : List (ℕ × ℕ × F64)
  /-- The number of what each edge rests on. -/
  basis : List ℕ
  /-- What each basis number stands for. -/
  bases : List Basis
  /-- The edges at each node, in input order.  A self-loop is listed twice. -/
  incident : List (List ℕ)
  uids_nodup : uids.Nodup
  ends_lt : ∀ edge ∈ edges, edge.1 < uids.length ∧ edge.2.1 < uids.length
  basis_length : basis.length = edges.length
  basis_lt : ∀ number ∈ basis, number < bases.length
  incident_length : incident.length = uids.length
  mem_incident : ∀ (node : ℕ) (listed : List ℕ), incident[node]? = some listed → ∀ edge : ℕ,
    edge ∈ listed ↔ ∃ ends : ℕ × ℕ × F64, edges[edge]? = some ends ∧ (ends.1 = node ∨ ends.2.1 = node)

namespace IdentityIndex

/-! ## Building an index -/

def empty : IdentityIndex where
  uids := []
  edges := []
  basis := []
  bases := []
  incident := []
  uids_nodup := List.nodup_nil
  ends_lt := by simp
  basis_length := rfl
  basis_lt := by simp
  incident_length := rfl
  mem_incident := by simp

/-- The number of a uid. -/
def node (index : IdentityIndex) (uid : String) : Option ℕ := index.uids.idxOf? uid

/-- A node for a uid that has none. -/
def addNode (index : IdentityIndex) (uid : String) (hnew : uid ∉ index.uids) : IdentityIndex where
  uids := index.uids ++ [uid]
  edges := index.edges
  basis := index.basis
  bases := index.bases
  incident := index.incident ++ [[]]
  uids_nodup := index.uids_nodup.append (List.nodup_singleton uid)
    (List.disjoint_singleton.2 hnew)
  ends_lt := fun edge hedge ↦ by
    have hends := index.ends_lt edge hedge
    rw [List.length_append, List.length_singleton]
    omega
  basis_length := index.basis_length
  basis_lt := index.basis_lt
  incident_length := by simp [index.incident_length]
  mem_incident := by
    intro node listed hlisted edge
    rw [List.getElem?_append] at hlisted
    split at hlisted
    · exact index.mem_incident node listed hlisted edge
    rename_i hge
    -- No edge has ends beyond the nodes that were there.
    rw [List.getElem?_singleton] at hlisted
    split at hlisted
    · cases hlisted
      refine iff_of_false List.not_mem_nil ?_
      rintro ⟨ends, hends, hnode⟩
      have hlt := index.ends_lt ends (List.mem_of_getElem? hends)
      rw [index.incident_length] at hge
      omega
    · cases hlisted

def intern (index : IdentityIndex) (uid : String) : ℕ × IdentityIndex :=
  if h : uid ∈ index.uids then (index.uids.idxOf uid, index)
  else (index.uids.length, index.addNode uid h)

theorem intern_lt (index : IdentityIndex) (uid : String) :
    (index.intern uid).1 < (index.intern uid).2.uids.length := by
  rw [intern]
  split
  · rename_i h
    exact List.idxOf_lt_length_of_mem h
  · simp [addNode]

theorem uids_length_le_intern (index : IdentityIndex) (uid : String) :
    index.uids.length ≤ (index.intern uid).2.uids.length := by
  rw [intern]
  split
  · exact le_rfl
  · simp [addNode]

/-- An edge between two nodes, listed at both. -/
def addEdge (index : IdentityIndex) (left right : ℕ) (confidence : F64) (restsOn : Basis)
    (hleft : left < index.uids.length) (hright : right < index.uids.length) : IdentityIndex where
  uids := index.uids
  edges := index.edges ++ [(left, right, confidence)]
  basis := index.basis ++ [index.bases.idxOf restsOn]
  bases := if restsOn ∈ index.bases then index.bases else index.bases ++ [restsOn]
  incident := (index.incident.modify left (· ++ [index.edges.length])).modify right
    (· ++ [index.edges.length])
  uids_nodup := index.uids_nodup
  ends_lt := by
    intro edge hedge
    rcases List.mem_append.1 hedge with hedge | hedge
    · exact index.ends_lt edge hedge
    · rw [List.mem_singleton.1 hedge]
      exact ⟨hleft, hright⟩
  basis_length := by simp [index.basis_length]
  basis_lt := by
    intro number hnumber
    rcases List.mem_append.1 hnumber with hnumber | hnumber
    · have := index.basis_lt number hnumber
      split
      · exact this
      · rw [List.length_append]
        omega
    · rw [List.mem_singleton.1 hnumber]
      split
      · rename_i h
        exact List.idxOf_lt_length_of_mem h
      · rename_i h
        rw [List.idxOf_eq_length h]
        simp
  incident_length := by simp [index.incident_length]
  mem_incident := by
    intro node listed hlisted edge
    simp only [List.getElem?_modify, Option.map_eq_map, Option.map_eq_some_iff] at hlisted
    obtain ⟨listed, ⟨old, hold, rfl⟩, rfl⟩ := hlisted
    have hends : (∃ ends : ℕ × ℕ × F64, (index.edges ++ [(left, right, confidence)])[edge]? =
        some ends ∧ (ends.1 = node ∨ ends.2.1 = node)) ↔
        edge ∈ old ∨ edge = index.edges.length ∧ (left = node ∨ right = node) := by
      rw [index.mem_incident node old hold, List.getElem?_append]
      split
      · rename_i hlt
        exact (or_iff_left fun h ↦ absurd h.1 (Nat.ne_of_lt hlt)).symm
      · rename_i hge
        rw [List.getElem?_singleton, List.getElem?_eq_none (Nat.not_lt.1 hge)]
        have heq : edge - index.edges.length = 0 ↔ edge = index.edges.length := by omega
        simp only [heq]
        split <;> simp_all
    rw [hends]
    split <;> split <;> simp_all

/-- The index with one more relation. -/
def add (index : IdentityIndex) (relation : Relation) : IdentityIndex :=
  let first := index.intern relation.fromUid
  let second := first.2.intern relation.toUid
  second.2.addEdge first.1 second.1 relation.confidence relation.restsOn
    (Nat.lt_of_lt_of_le (index.intern_lt relation.fromUid)
      (first.2.uids_length_le_intern relation.toUid))
    (first.2.intern_lt relation.toUid)

def new (relations : List Relation) : IdentityIndex :=
  (relations.filter fun relation ↦ relation.kind.bindsIdentity).foldl add empty

/-! ## Reading an index -/

variable (index : IdentityIndex)

def len : ℕ := index.uids.length

abbrev Node := Fin index.uids.length

abbrev Edge := Fin index.edges.length

variable {index}

def fromNode (edge : index.Edge) : index.Node :=
  ⟨index.edges[edge].1, (index.ends_lt _ (List.getElem_mem edge.2)).1⟩

def toNode (edge : index.Edge) : index.Node :=
  ⟨index.edges[edge].2.1, (index.ends_lt _ (List.getElem_mem edge.2)).2⟩

def confidence (edge : index.Edge) : F64 := index.edges[edge].2.2

/-- The number of what an edge rests on. -/
def basisOf (edge : index.Edge) : Fin index.bases.length :=
  ⟨index.basis.get (edge.cast index.basis_length.symm), index.basis_lt _ (List.get_mem _ _)⟩

/-- The edges listed at a node. -/
def incidentAt (node : index.Node) : List index.Edge :=
  (index.incident.get (node.cast index.incident_length.symm)).pmap Fin.mk fun edge hedge ↦ by
    obtain ⟨ends, hends, -⟩ := (index.mem_incident node _ (List.getElem?_eq_getElem _) edge).1 hedge
    exact (List.getElem?_eq_some_iff.1 hends).1

/-- The end of an edge that is not `node`: its `to` end, unless `node` is its `from` end. -/
def across (edge : index.Edge) (node : index.Node) : index.Node :=
  if fromNode edge = node then toNode edge else fromNode edge

/-- **The edges listed at a node are those that have it as an end.** -/
theorem mem_incidentAt {edge : index.Edge} {node : index.Node} :
    edge ∈ incidentAt node ↔ fromNode edge = node ∨ toNode edge = node := by
  rw [incidentAt, List.mem_pmap]
  constructor
  · rintro ⟨number, hnumber, rfl⟩
    obtain ⟨ends, hends, hnode⟩ :=
      (index.mem_incident node _ (List.getElem?_eq_getElem _) number).1 hnumber
    obtain ⟨hlt, rfl⟩ := List.getElem?_eq_some_iff.1 hends
    exact hnode.imp (fun h ↦ Fin.ext h) fun h ↦ Fin.ext h
  · intro h
    refine ⟨edge, (index.mem_incident node _ (List.getElem?_eq_getElem _) edge).2 ?_, rfl⟩
    exact ⟨index.edges[edge], List.getElem?_eq_getElem edge.2,
      h.imp (congrArg Fin.val) (congrArg Fin.val)⟩

/-- An edge is listed at the end it leads to. -/
theorem mem_incidentAt_across (edge : index.Edge) (node : index.Node) :
    edge ∈ incidentAt (across edge node) := by
  rw [mem_incidentAt, across]
  split
  · exact .inr rfl
  · exact .inl rfl

end IdentityIndex

end Huntsman
