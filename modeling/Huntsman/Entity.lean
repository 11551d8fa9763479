import Huntsman.Float
import Huntsman.Text
import Std.Data.TreeMap

/-!
# Entities and the evidence behind them

An `Entity` is one finding: a kind, a canonical value, the confidence it is held at, and the
`Evidence` records it rests on.  A crawl collects entities from many lookups and folds the ones with
the same uid together with `mergeByUid`, which keeps every observation.

Whether a text is a JSON document is decided by the JSON library, so it is the parameter
`parsesAsJson` here.
-/

set_option autoImplicit false

namespace Huntsman

open Std

/-- What kind of thing an entity is. -/
inductive EntityKind where
  | person | organisation | email | phone | username | domain | url | ipAddress | coordinates
  | address | credential | document | cryptoAddress | deviceId | ssid | trackingId | abnAcn
  | apiKey | macAddress | asn | netblock | other
deriving DecidableEq

/-- The kind's name, as edges and uids write it. -/
def EntityKind.asStr : EntityKind → String
  | .person => "person"
  | .organisation => "organisation"
  | .email => "email"
  | .phone => "phone"
  | .username => "username"
  | .domain => "domain"
  | .url => "url"
  | .ipAddress => "ip_address"
  | .coordinates => "coordinates"
  | .address => "address"
  | .credential => "credential"
  | .document => "document"
  | .cryptoAddress => "crypto_address"
  | .deviceId => "device_id"
  | .ssid => "ssid"
  | .trackingId => "tracking_id"
  | .abnAcn => "abn_acn"
  | .apiKey => "api_key"
  | .macAddress => "mac_address"
  | .asn => "asn"
  | .netblock => "netblock"
  | .other => "other"

/-- How a claim was verified. -/
inductive VerificationMethod where
  | emailLinked | platformVerified | activityProof | selfDisclosed | linkedProfile | unverified
deriving DecidableEq

/-- Where and when a record was made. -/
structure EvidenceProvenance where
  source : String
  sourceFamily : String := ""
  scanId : Option String := none
  recordedAtUnix : ℕ := 0
deriving DecidableEq

/-- One record a source made about an entity. -/
structure Evidence where
  provenance : EvidenceProvenance
  summary : String := ""
  attributes : TreeMap String String := {}
  verification : Option VerificationMethod := none
  isInferred : Bool := false
  ancestryNode : Option String := none
  /-- The provenance of every other observation merged into this record, in merge order. -/
  mergedProvenance : List EvidenceProvenance := []

/-- One finding, with the records it rests on. -/
structure Entity where
  uid : String
  kind : EntityKind
  value : String
  rawValue : String
  confidence : F64
  /-- A `u32`, which saturates. -/
  corroboration : ℕ := 1
  observedAtUnix : ℕ := 0
  evidence : List Evidence := []
  tags : List String := []
  scanId : String := ""
  generation : UInt32 := 0
  /-- Every spelling a username was observed under with the confidence it was observed at, once
  merges brought more than its own `rawValue`. -/
  spellings : TreeMap String F64 := {}

/-- The `evidence_role` an operator's seed carries. -/
def seedEvidenceRole : String := "seed_not_external_verification"

/-- What joins the values of an attribute that holds several. -/
def valueSeparator : String := "; "

/-- How a handle is routed to a lookup: as written, without its leading `@`s, ignoring case. -/
def handleRouteKey (raw : String) : String :=
  Text.toAsciiLowercase (Text.trimStartMatches '@' (Text.trim raw))

namespace Evidence

/-- The values of an attribute, each trimmed, the empty ones left out. -/
def attrValues (evidence : Evidence) (key : String) : List String :=
  match evidence.attributes[key]? with
  | none => []
  | some value => ((Text.split valueSeparator value).map Text.trim).filter (· ≠ "")

/-- Whether this record is the operator's own seed rather than a source's finding. -/
def isOperatorSeed (evidence : Evidence) : Bool :=
  evidence.provenance.source == "operator_input" || evidence.provenance.source == "seed" ||
    (evidence.attrValues "evidence_role").any (· == seedEvidenceRole)

end Evidence

/-! ## Folding two records of one observation -/

section Merge

/-- Whether `held` already holds `value` whole: as all of it, or as a run of its values that the
separator bounds at both ends. -/
def holdsWhole (held value : String) : Bool :=
  held == value ||
    ((Text.stripPrefix held value).any fun rest ↦ Text.startsWith rest valueSeparator) ||
    ((Text.stripSuffix held value).any fun rest ↦ Text.endsWith rest valueSeparator) ||
    Text.contains held (valueSeparator ++ value ++ valueSeparator)

/-- Fold `incoming` into `held` so that the result holds both whole, `held`'s values first. -/
def foldValue (held incoming : String) : String :=
  if holdsWhole held incoming then held
  else if holdsWhole incoming held then incoming
  else
    -- the values `incoming` begins with and `held` ends with are written once
    let shared := (Text.rmatchIndices incoming valueSeparator).find? fun i ↦
      (Text.stripSuffix held (Text.before incoming i)).any fun before ↦
        Text.endsWith before valueSeparator
    let rest := match shared with
      | some i => Text.after incoming (i + valueSeparator.length)
      | none => incoming
    held ++ valueSeparator ++ rest

/-- Keep every observation a merge brings in, once each. -/
def keepObservations (existing : Evidence) (incoming : EvidenceProvenance)
    (earlier : List EvidenceProvenance) : Evidence :=
  (incoming :: earlier).foldl (fun existing observation ↦
    if observation ≠ existing.provenance ∧ observation ∉ existing.mergedProvenance then
      { existing with mergedProvenance := existing.mergedProvenance ++ [observation] }
    else existing) existing

/-- Fold `incoming` into `existing`, one observation. -/
def mergeEvidence (existing incoming : Evidence) : Evidence :=
  let attributes := incoming.attributes.toList.foldl (fun attributes (key, value) ↦
    attributes.insert key (match attributes[key]? with
      | some held => foldValue held value
      | none => value)) existing.attributes
  keepObservations
    { existing with
      attributes
      verification := existing.verification.or incoming.verification
      isInferred := existing.isInferred || incoming.isInferred
      ancestryNode := existing.ancestryNode.or incoming.ancestryNode }
    incoming.provenance incoming.mergedProvenance

variable (parsesAsJson : String → Bool)

/-- A structured provider answer, which is kept as one document. -/
def isJsonDocument (value : String) : Bool :=
  (match value.toList.dropWhile Text.isWhitespace with
    | c :: _ => c == '{' || c == '['
    | [] => false) && parsesAsJson value

/-- Two records of one source that say the same thing, unless they hold different documents. -/
def sameEvidenceIdentity (left right : Evidence) : Bool :=
  left.provenance.source == right.provenance.source && left.summary == right.summary &&
    !(left.attributes.toList.any fun (key, previous) ↦
      match right.attributes[key]? with
      | none => false
      | some incoming => previous != incoming &&
          (Text.startsWith key "raw_" || isJsonDocument parsesAsJson previous ||
            isJsonDocument parsesAsJson incoming))

/-- Fold a record into a list of records: into the first that is the same observation, else at the
end. -/
def absorbEvidence (records : List Evidence) (evidence : Evidence) : List Evidence :=
  match records with
  | [] => [evidence]
  | current :: rest =>
    if sameEvidenceIdentity parsesAsJson current evidence then
      mergeEvidence current evidence :: rest
    else current :: absorbEvidence rest evidence

end Merge

namespace Entity

def hasTag (entity : Entity) (tag : String) : Bool := entity.tags.any (· == tag)

/-- Add a tag the entity does not carry yet. -/
def tag (entity : Entity) (tag : String) : Entity :=
  if entity.hasTag tag then entity else { entity with tags := entity.tags ++ [tag] }

/-- Whether a source observed this entity, rather than only guessing it or being asked it. -/
def isObserved (entity : Entity) : Bool :=
  entity.evidence.isEmpty ||
    entity.evidence.any fun evidence ↦ !evidence.isInferred && !evidence.isOperatorSeed

/-- A handle as a source wrote it, without surrounding space or its leading `@`s. -/
def spellingOf (raw : String) : String := Text.trimStartMatches '@' (Text.trim raw)

/-- Every spelling a source observed this username under, with the highest confidence each was
observed at. -/
def observedSpellings (entity : Entity) : TreeMap String F64 :=
  if !entity.spellings.isEmpty then entity.spellings
  else if entity.kind = .username ∧ entity.isObserved then
    (∅ : TreeMap String F64).insert (spellingOf entity.rawValue) entity.confidence
  else ∅

/-- The spellings of two records of one username: another case of a kept spelling raises its
confidence instead of adding one. -/
def mergeSpellings (mine other : TreeMap String F64) : TreeMap String F64 :=
  other.toList.foldl (fun spellings (spelling, confidence) ↦
    match spellings.toList.find? fun (kept, _) ↦
        handleRouteKey kept == handleRouteKey spelling with
    | some (kept, held) => spellings.insert kept (held.max confidence)
    | none => spellings.insert spelling confidence) mine

/-- `==` on maps of confidences. -/
def sameSpellings (left right : TreeMap String F64) : Bool :=
  left.size == right.size &&
    (left.toList.zip right.toList).all fun (l, r) ↦ l.1 == r.1 && l.2.eq r.2

variable (parsesAsJson : String → Bool)

/-- Fold `other`, a record of the same uid, into this one. -/
def absorb (self other : Entity) : Entity :=
  if self.uid ≠ other.uid then self
  else
    let merged := { self with
      confidence := self.confidence.max other.confidence
      corroboration := min (self.corroboration + other.corroboration) (2 ^ 32 - 1)
      observedAtUnix := min self.observedAtUnix other.observedAtUnix
      generation := min self.generation other.generation }
    let tagged := other.tags.foldl Entity.tag merged
    let recorded := { tagged with
      evidence := other.evidence.foldl (absorbEvidence parsesAsJson) tagged.evidence }
    if self.kind = .username then
      let spellings := mergeSpellings self.observedSpellings other.observedSpellings
      let bare := { recorded with spellings := ∅ }
      -- kept only when they say more than the entity's own spelling at its confidence
      if sameSpellings spellings bare.observedSpellings then bare else { bare with spellings }
    else recorded

end Entity

/-! ## One record per uid -/

section MergeByUid

variable (parsesAsJson : String → Bool)

/-- Fold one more entity into records that have one entity per uid. -/
def absorbByUid (merged : List Entity) (entity : Entity) : List Entity :=
  match merged with
  | [] => [entity]
  | first :: rest =>
    if first.uid = entity.uid then first.absorb parsesAsJson entity :: rest
    else first :: absorbByUid rest entity

/-- One entity per uid, in order of first occurrence. -/
def mergeByUid (entities : List Entity) : List Entity :=
  entities.foldl (absorbByUid parsesAsJson) []

theorem length_absorbByUid_le (merged : List Entity) (entity : Entity) :
    (absorbByUid parsesAsJson merged entity).length ≤ merged.length + 1 := by
  induction merged with
  | nil => simp [absorbByUid]
  | cons first rest ih =>
    rw [absorbByUid]
    split
    · simp
    · simpa using ih

/-- Merging never makes a list of entities longer. -/
theorem length_mergeByUid_le (entities : List Entity) :
    (mergeByUid parsesAsJson entities).length ≤ entities.length := by
  have h : ∀ merged : List Entity,
      (entities.foldl (absorbByUid parsesAsJson) merged).length
        ≤ merged.length + entities.length := by
    induction entities with
    | nil => simp
    | cons entity rest ih =>
      intro merged
      have hone := length_absorbByUid_le parsesAsJson merged entity
      have hrest := ih (absorbByUid parsesAsJson merged entity)
      simp only [List.foldl_cons, List.length_cons]
      omega
  simpa [mergeByUid] using h []

end MergeByUid

end Huntsman
