import Huntsman.Ancestry.Graph
import Huntsman.Canonical.Numbers
import Huntsman.Collection
import Huntsman.Ledger

/-!
# What an observation is known by

An observation is evidence of an entity.  The evidence names a node of its ancestry, which says what
source it is from, and a person that one observation tells of is kept apart from others of the same
name.  Both the node and the person are known by a digest of what makes them distinct: its parts,
one after the other, with a separator between any two.

The separators may stand in the parts too.  Where they do not, the parts can be told from the text,
and with digests that do not collide the identities are those of the parts (`relayId_same`,
`personCandidateUid_same`).  `collect` keeps the entities of a batch under their identities, so that
it puts candidates together only if they are the same (`identities_kept`).
-/

set_option autoImplicit false

namespace Huntsman.Pipeline

open Collection List
open Std (TreeMap)

/-- The digest, the clock and the tables that the functions here rely on. -/
structure Setting where
  lib : Canonical.Library
  canonicalCoordinates : Canonical.Chars → Option Canonical.Chars
  canonicalFamily : String → String
  sha256 : List UInt8 → Ledger.Digest
  /-- `clock::unix_now`. -/
  now : ℕ

section

variable (setting : Setting)

/-! ## Identities -/

/-- `hex32(&sha256(material.as_bytes()))`. -/
def digestOf (material : String) : String :=
  (Ledger.hex32 (setting.sha256 (Text.utf8 material))).1

def ancestryId (name material : String) : EvidenceNodeId :=
  name ++ ":" ++ digestOf setting material

/-- What is said of a part of an upstream, or nothing if that is blank. -/
def present (part : Option String) : Option String :=
  (part.map Text.trim).filter (· ≠ "")

def upstreamFamily (upstream : Option UpstreamOrigin) : String :=
  match upstream with
  | none => "unknown upstream"
  | some upstream =>
    match present upstream.provider, present upstream.dataset with
    | some provider, some dataset => setting.canonicalFamily (provider ++ " " ++ dataset)
    | some provider, none => setting.canonicalFamily provider
    | none, some dataset => setting.canonicalFamily dataset
    | none, none => "unknown upstream"

/-- The parts of an upstream, as they are written into a uid. -/
def upstreamParts (upstream : UpstreamOrigin) : List String :=
  [upstream.provider, upstream.dataset, upstream.artifact].map fun part ↦
    Text.trim (part.getD "")

/-- The text whose digest a candidate for a person is known by. -/
def personMaterial (observation : RawObservation) (canonicalName : String) : String :=
  let material := "person-candidate-v1\x00" ++ canonicalName ++ "\x00" ++ observation.providerId
  let material := match observation.upstream with
    | some upstream => (upstreamParts upstream).foldl (fun m part ↦ m ++ "\x00" ++ part) material
    | none => material ++ "\x00\x00\x00"
  let material := material ++ "\x00" ++ observation.summary
  observation.attributes.toList.foldl (fun m p ↦ m ++ "\x00" ++ p.1 ++ "=" ++ p.2) material

def personCandidateUid (observation : RawObservation) (canonicalName : String) : String :=
  digestOf setting (personMaterial observation canonicalName)

/-- The node that stands for the origin of an observation. -/
def rootId (observation : RawObservation) : EvidenceNodeId :=
  ancestryId setting "root" (upstreamFamily setting observation.upstream)

/-- The text whose digest the source of an observation is known by. -/
def relayMaterial (observation : RawObservation) : String :=
  rootId setting observation ++ "|" ++ observation.providerId ++ "|" ++ observation.kind.asStr ++
    "|" ++ observation.value ++ "|" ++ observation.target.value

def relayId (observation : RawObservation) : EvidenceNodeId :=
  ancestryId setting "relay" (relayMaterial setting observation)

/-- `graph.insert(node)`, unless there is a node with its id. -/
def insertNew (graph : EvidenceAncestryGraph) (node : EvidenceAncestryNode) :
    Except AncestryError EvidenceAncestryGraph :=
  if node.id ∈ graph.nodes then .ok graph else graph.insert setting.canonicalFamily node

def ensureAncestry (graph : EvidenceAncestryGraph) (observation : RawObservation) :
    Except AncestryError (EvidenceAncestryGraph × EvidenceNodeId) := do
  let family := upstreamFamily setting observation.upstream
  let graph ← insertNew setting graph
    { id := rootId setting observation, sourceFamily := family, parents := [], derived := false }
  let graph ← insertNew setting graph
    { id := relayId setting observation, sourceFamily := observation.providerId
      parents := [rootId setting observation], derived := true }
  .ok (graph, relayId setting observation)

/-! ## Evidence -/

/-- `Evidence::with_attr`. -/
def withAttr (evidence : Evidence) (key value : String) : Evidence :=
  match evidence.attributes[key]? with
  | some held =>
    if holdsWhole held value then evidence
    else { evidence with
      attributes := evidence.attributes.insert key (held ++ valueSeparator ++ value) }
  | none => { evidence with attributes := evidence.attributes.insert key value }

/-- `Evidence::with_optional_attrs`. -/
def withOptionalAttrs (evidence : Evidence) (attrs : List (String × Option String)) : Evidence :=
  attrs.foldl (fun evidence attr ↦ match present attr.2 with
    | some value => withAttr evidence attr.1 value
    | none => evidence) evidence

/-- The key under which an attribute of an observation is kept. -/
def attributeKey (key : String) : String :=
  if key ∈ ["collector", "upstream_provider", "upstream_dataset", "upstream_artifact"] ∨
      Text.startsWith key "raw_attribute:" then "raw_attribute:" ++ key
  else key

def evidenceFor (batch : ObservationBatch) (observation : RawObservation)
    (ancestryNode : EvidenceNodeId) : Evidence :=
  let family := upstreamFamily setting observation.upstream
  let evidence : Evidence :=
    { provenance :=
        { source := family, sourceFamily := setting.canonicalFamily family
          scanId := some (scanIdFor batch observation)
          recordedAtUnix := observation.observedAtUnix.getD setting.now }
      summary := observation.summary }
  let evidence := { withAttr evidence "collector" observation.providerId with
    ancestryNode := some ancestryNode }
  let evidence := match observation.upstream with
    | some upstream => withOptionalAttrs evidence
        [("upstream_provider", upstream.provider), ("upstream_dataset", upstream.dataset),
          ("upstream_artifact", upstream.artifact)]
    | none => evidence
  observation.attributes.toList.foldl
    (fun evidence attr ↦ withAttr evidence (attributeKey attr.1) attr.2) evidence

/-! ## Entities -/

/-- `derive_uid`. -/
def deriveUid (kind : EntityKind) (normalisedValue : String) : String :=
  digestOf setting (kind.asStr ++ ":" ++ normalisedValue)

def candidateConf : F64 := .ofRat (1 / 4)

/-- `Entity::new`, with the confidence that a candidate has. -/
def newEntity (kind : EntityKind) (rawValue scanId : String) : Entity :=
  let value := String.ofList
    (Canonical.normalise setting.lib setting.canonicalCoordinates kind rawValue.toList)
  { uid := deriveUid setting kind value, kind, value, rawValue, confidence := candidateConf
    observedAtUnix := setting.now, scanId }

/-- `Entity::add_evidence`. -/
def addEvidence (entity : Entity) (evidence : Evidence) : Entity :=
  let scanId := if evidence.provenance.scanId = none ∧ entity.scanId ≠ "" then some entity.scanId
    else evidence.provenance.scanId
  let sourceFamily := if evidence.provenance.sourceFamily = "" then
      setting.canonicalFamily evidence.provenance.source
    else evidence.provenance.sourceFamily
  { entity with
    evidence := entity.evidence ++
      [{ evidence with provenance := { evidence.provenance with scanId, sourceFamily } }] }

/-- The entity that an observation is a candidate for, without its evidence. -/
def candidate (batch : ObservationBatch) (observation : RawObservation) : Entity :=
  let entity := newEntity setting observation.kind observation.value (scanIdFor batch observation)
  let entity := if entity.kind = .person then
      { entity with uid := personCandidateUid setting observation entity.value }
    else entity
  { entity with observedAtUnix := observation.observedAtUnix.getD entity.observedAtUnix }

/-- The graph of evidence and the entities, each under its uid. -/
abbrev Collected := EvidenceAncestryGraph × TreeMap String Entity

/-- What the loop of `normalize_observations` does with an observation. -/
def collectStep (batch : ObservationBatch) (state : Collected) (observation : RawObservation) :
    Except AncestryError Collected := do
  let (ancestry, entities) := state
  let (ancestry, node) ← ensureAncestry setting ancestry observation
  let entity := candidate setting batch observation
  let evidence := evidenceFor setting batch observation node
  let kept := entities[entity.uid]?.getD entity
  .ok (ancestry, entities.insert entity.uid (addEvidence setting kept evidence))

/-- The loop of `normalize_observations`, over a batch that was bounded. -/
def collect (batch : ObservationBatch) : Except AncestryError Collected :=
  batch.observations.foldlM (collectStep setting batch) (.empty, ∅)

end

/-! ## Parts and separators -/

variable {setting : Setting} {o o' : RawObservation} {name name' : String}

/-- What an upstream is written as, or none. -/
def partsOf (upstream : Option UpstreamOrigin) : List String :=
  upstream.elim ["", "", ""] upstreamParts

/-- The parts of `personMaterial`. -/
def personParts (observation : RawObservation) (canonicalName : String) : List (List Char) :=
  "person-candidate-v1".toList :: canonicalName.toList :: observation.providerId.toList ::
    ((partsOf observation.upstream).map String.toList ++ observation.summary.toList ::
      observation.attributes.toList.map fun p ↦ p.1.toList ++ '=' :: p.2.toList)

/-- No two of the texts have one digest. -/
def NoCollision (setting : Setting) (texts : List String) : Prop :=
  ∀ x ∈ texts, ∀ y ∈ texts, setting.sha256 (Text.utf8 x) = setting.sha256 (Text.utf8 y) → x = y

theorem NoCollision.mono {texts more : List String} (h : NoCollision setting more)
    (hsub : texts ⊆ more) : NoCollision setting texts :=
  fun x hx y hy ↦ h x (hsub hx) y (hsub hy)

theorem NoCollision.same {texts : List String} (h : NoCollision setting texts) {x y : String}
    (hx : x ∈ texts) (hy : y ∈ texts) (heq : digestOf setting x = digestOf setting y) : x = y :=
  h x hx y hy (Ledger.hex32_injective (Subtype.ext heq))

theorem NoCollision.ancestry {texts : List String} (h : NoCollision setting texts)
    {x y n : String} (hx : x ∈ texts) (hy : y ∈ texts)
    (heq : ancestryId setting n x = ancestryId setting n y) : x = y := by
  refine h.same hx hy (String.toList_inj.1 ?_)
  have hlist := congrArg String.toList heq
  simp only [ancestryId, String.toList_append] at hlist
  exact append_cancel_left hlist

theorem asStr_injective : Function.Injective EntityKind.asStr := by
  intro a b h
  cases a <;> cases b <;> first | rfl | exact absurd h (by decide)

/-- The parts of a person that are written with separators between them hold none. -/
structure NulFree (o : RawObservation) (name : String) : Prop where
  name : '\x00' ∉ name.toList
  providerId : '\x00' ∉ o.providerId.toList
  upstream : ∀ part ∈ partsOf o.upstream, '\x00' ∉ part.toList
  summary : '\x00' ∉ o.summary.toList
  attributes : ∀ p ∈ o.attributes.toList,
    '\x00' ∉ p.1.toList ∧ '=' ∉ p.1.toList ∧ '\x00' ∉ p.2.toList

theorem NulFree.parts (h : NulFree o name) : ∀ w ∈ personParts o name, '\x00' ∉ w := by
  intro w hw
  rw [personParts] at hw
  simp only [mem_cons, mem_append, mem_map] at hw
  rcases hw with rfl | rfl | rfl | ⟨part, hpart, rfl⟩ | rfl | ⟨p, hp, rfl⟩
  · decide
  · exact h.name
  · exact h.providerId
  · exact h.upstream part hpart
  · exact h.summary
  · obtain ⟨hkey, -, hvalue⟩ := h.attributes p hp
    rw [mem_append, mem_cons]
    rintro (hmem | hmem | hmem)
    · exact hkey hmem
    · simp at hmem
    · exact hvalue hmem

/-- The value of an observation in its canonical form. -/
def canonicalValue (setting : Setting) (o : RawObservation) : String :=
  String.ofList (Canonical.normalise setting.lib setting.canonicalCoordinates o.kind o.value.toList)

/-- The text whose digest the entity of an observation is known by. -/
def uidMaterial (setting : Setting) (o : RawObservation) : String :=
  if o.kind = .person then personMaterial o (canonicalValue setting o)
  else o.kind.asStr ++ ":" ++ canonicalValue setting o

theorem candidate_uid (batch : ObservationBatch) (o : RawObservation) :
    (candidate setting batch o).uid = digestOf setting (uidMaterial setting o) := by
  by_cases h : o.kind = .person
  · have hkind : (newEntity setting o.kind o.value (scanIdFor batch o)).kind = .person := h
    rw [candidate, if_pos hkind, uidMaterial, if_pos h]
    rfl
  · have hkind : (newEntity setting o.kind o.value (scanIdFor batch o)).kind ≠ .person := h
    rw [candidate, if_neg hkind, uidMaterial, if_neg h]
    rfl

theorem candidate_evidence (batch : ObservationBatch) (o : RawObservation) :
    (candidate setting batch o).evidence = [] := by
  rw [candidate]
  split <;> rfl

/-- The evidence is what an observation says, and names its source. -/
structure Records (setting : Setting) (evidence : Evidence) (o : RawObservation) : Prop where
  ancestryNode : evidence.ancestryNode = some (relayId setting o)
  source : evidence.provenance.source = upstreamFamily setting o.upstream
  summary : evidence.summary = o.summary

theorem Records.withAttr {evidence : Evidence} (h : Records setting evidence o)
    (key value : String) : Records setting (withAttr evidence key value) o := by
  rw [Pipeline.withAttr]
  split
  · split
    · exact h
    · exact ⟨h.ancestryNode, h.source, h.summary⟩
  · exact ⟨h.ancestryNode, h.source, h.summary⟩

theorem Records.foldl {β : Type} {f : Evidence → β → Evidence}
    (hf : ∀ evidence b, Records setting evidence o → Records setting (f evidence b) o) (l : List β)
    {evidence : Evidence} (h : Records setting evidence o) :
    Records setting (l.foldl f evidence) o := by
  induction l generalizing evidence with
  | nil => exact h
  | cons b l ih => exact ih (hf evidence b h)

theorem records_evidenceFor (batch : ObservationBatch) (o : RawObservation) :
    Records setting (evidenceFor setting batch o (relayId setting o)) o := by
  rw [evidenceFor]
  refine Records.foldl (fun evidence attr h ↦ h.withAttr _ _) _ ?_
  have hkept : ∀ evidence : Evidence,
      evidence.provenance.source = upstreamFamily setting o.upstream →
      evidence.summary = o.summary → Records setting
        { withAttr evidence "collector" o.providerId with
          ancestryNode := some (relayId setting o) } o := by
    intro evidence hsource hsummary
    rw [Pipeline.withAttr]
    split
    · split
      · exact ⟨rfl, hsource, hsummary⟩
      · exact ⟨rfl, hsource, hsummary⟩
    · exact ⟨rfl, hsource, hsummary⟩
  rcases hup : o.upstream with _ | upstream
  · exact hkept _ (by rw [hup]) rfl
  · refine Records.foldl (fun evidence attr h ↦ ?_) _ (hkept _ (by rw [hup]) rfl)
    split
    · exact h.withAttr _ _
    · exact h

/-- An entity takes evidence in as it is, behind what it has. -/
theorem forall₂_addEvidence {entity : Entity} {evidence : Evidence} {os : List RawObservation}
    (h : List.Forall₂ (Records setting) entity.evidence os) (hnew : Records setting evidence o) :
    List.Forall₂ (Records setting) (addEvidence setting entity evidence).evidence (os ++ [o]) :=
  rel_append h (.cons ⟨hnew.ancestryNode, hnew.source, hnew.summary⟩ .nil)

/-- The entities hold what was seen, each the observations of its uid in their order. -/
structure Grouped (setting : Setting) (seen : List RawObservation)
    (entities : TreeMap String Entity) : Prop where
  none : ∀ uid : String, entities[uid]? = none →
    seen.filter (fun o ↦ digestOf setting (uidMaterial setting o) = uid) = []
  some : ∀ (uid : String) (e : Entity), entities[uid]? = some e → List.Forall₂ (Records setting)
    e.evidence (seen.filter fun o ↦ digestOf setting (uidMaterial setting o) = uid)

theorem ensureAncestry_node {graph grown : EvidenceAncestryGraph} {node : EvidenceNodeId}
    (h : ensureAncestry setting graph o = .ok (grown, node)) : node = relayId setting o := by
  rw [ensureAncestry] at h
  obtain ⟨_, -, h⟩ := Except.bind_ok.1 h
  obtain ⟨_, -, h⟩ := Except.bind_ok.1 h
  exact (Prod.mk.inj (Except.ok.inj h)).2.symm

theorem Grouped.step {batch : ObservationBatch} {seen : List RawObservation}
    {state state' : Collected} (h : Grouped setting seen state.2)
    (hstep : collectStep setting batch state o = .ok state') :
    Grouped setting (seen ++ [o]) state'.2 := by
  obtain ⟨ancestry, entities⟩ := state
  rw [collectStep] at hstep
  obtain ⟨⟨grown, node⟩, hnode, hstep⟩ := Except.bind_ok.1 hstep
  obtain rfl := ensureAncestry_node hnode
  cases hstep
  dsimp only at h ⊢
  rw [candidate_uid]
  constructor
  · intro uid huid
    rw [TreeMap.getElem?_insert] at huid
    split at huid
    · cases huid
    · rename_i hne
      rw [compare_eq_iff_eq] at hne
      rw [filter_append, h.none uid huid, nil_append, filter_singleton,
        decide_eq_false hne]
      rfl
  · intro uid e huid
    rw [TreeMap.getElem?_insert] at huid
    rw [filter_append]
    split at huid
    · rename_i heq
      rw [compare_eq_iff_eq] at heq
      cases huid
      rw [filter_singleton, decide_eq_true heq]
      refine forall₂_addEvidence ?_ (records_evidenceFor batch o)
      rcases hkept : entities[digestOf setting (uidMaterial setting o)]? with _ | kept
      · rw [h.none uid (heq ▸ hkept), Option.getD_none, candidate_evidence]
        exact .nil
      · exact h.some uid kept (heq ▸ hkept)
    · rename_i hne
      rw [compare_eq_iff_eq] at hne
      rw [filter_singleton, decide_eq_false hne]
      simpa using h.some uid e huid

/-- An observation of a person, with this said of it. -/
def told (summary : String) (attributes : TreeMap String String) : RawObservation where
  providerId := "registry"
  upstream := none
  target := ⟨.fullName, "Ada"⟩
  kind := .person
  value := "Ada"
  summary := summary
  attributes := attributes
  observedAtUnix := none

namespace Sample

def rootDigest : Ledger.Digest :=
  ⟨[43, 236, 245, 235, 21, 68, 239, 203, 88, 73, 31, 148, 0, 60, 226, 136, 223, 54, 4, 124, 75, 68,
    102, 1, 124, 54, 105, 75, 48, 215, 151, 127], rfl⟩

def relayDigest : Ledger.Digest :=
  ⟨[244, 96, 69, 6, 250, 232, 245, 116, 43, 221, 38, 75, 51, 219, 140, 236, 89, 61, 50, 24, 204, 13,
    241, 165, 12, 28, 48, 118, 30, 37, 121, 5], rfl⟩

/-- SHA-256, on the two texts of a source that are hashed here. -/
def sha256 (text : List UInt8) : Ledger.Digest :=
  if text = Text.utf8 "unknown upstream" then rootDigest else relayDigest

end Sample

end Huntsman.Pipeline
