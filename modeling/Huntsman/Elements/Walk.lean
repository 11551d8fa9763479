import Huntsman.Elements.Descriptors
import Huntsman.Lib.Rooted

/-!
# The elements of a scan

A scan's elements are a tree: the root, the target below it, an element for each record of each
entity below the element it was found from, and below these what the records describe.  An element
is known by the hash of its type, its text, its source and its module, and one that is made again
joins the one there is: `Builder.push`.

What an element was found from is named by attributes of the record, or by the crawl's lineage, and
either may name anything.  It is looked up among the elements made so far, so the elements are a
tree all the same, and no record is lost: `elementsWithLineage_tree`.

The hash is the parameter `elementId`, of the four parts.
-/

set_option autoImplicit false

namespace Huntsman.Elements

open Std Text

/-- What is kept of the record an element was made from. -/
inductive Raw where
  | null
  | record (entityKind entityValue : String) (tags : List String) (evidence : Evidence)
  | dnsblClass (label : String)
  | array (records : List Raw)

/-- A record, whole, with the entity it is of. -/
def rawOf (evidence : Evidence) (entity : Entity) : Raw :=
  .record entity.kind.asStr entity.value entity.tags evidence

/-- What is kept when one more is added. -/
def Raw.add : Raw → Raw → Raw
  | held, .null => held
  | .null, raw => raw
  | .array records, raw => .array (records ++ [raw])
  | first, raw => .array [first, raw]

/-- What an element is made of. -/
structure Finding where
  kind : String
  data : String
  /-- The element this one was found from; `none` only for the root. -/
  source : Option String
  module : String
  confidence : ℕ
  /-- Unix milliseconds. -/
  created : ℕ
  entity : Option String
  raw : Raw

structure DataElement extends Finding where
  id : String
  fp : Bool := false

structure Builder where
  out : List DataElement
  /-- Each element's index in `out`, by id. -/
  seen : TreeMap String ℕ

/-- A second record of one element. -/
def DataElement.again (element : DataElement) (new : Finding) : DataElement :=
  { element with created := min element.created new.created, raw := element.raw.add new.raw }

/-- Where a scan that followed its findings found each entity: its value, to the identity of the
first lookup that found it. -/
abbrev Lineage := TreeMap String String

def huntsmanModule : String := "huntsman"

/-- `u64::saturating_mul` by a thousand. -/
def toMillis (seconds : ℕ) : ℕ := min (seconds * 1000) (2 ^ 64 - 1)

/-- The attributes that name the indicator a source was asked about. -/
def parentKeys : List String := ["ip", "domain", "email", "username", "phone", "host", "netblock"]

section Builder

variable (elementId : String → String → String → String → String)

/-- The id of an element. -/
def Finding.id (new : Finding) : String :=
  elementId new.kind new.data (new.source.getD "") new.module

/-- The element of a finding, a new one or the one there is. -/
def Builder.push (b : Builder) (new : Finding) : Builder :=
  let id := new.id elementId
  match b.seen[id]? with
  | none => ⟨b.out ++ [{ new with id }], b.seen.insert id b.out.length⟩
  | some i => { b with out := b.out.modify i (·.again new) }

def rootOf (target : Target) (now : ℕ) : Finding :=
  ⟨"ROOT", trim target.value, none, huntsmanModule, 100, toMillis now, none, .null⟩

/-- The raw records of every entity that is the target. -/
def targetRaw (target : Target) (entities : List Entity) : List Raw :=
  (entities.filter target.names).flatMap fun entity ↦ entity.evidence.map fun evidence ↦
    rawOf evidence entity

def targetOf (target : Target) (entities : List Entity) (now : ℕ) : Finding where
  kind := target.kind
  data := trim target.value
  source := some ((rootOf target now).id elementId)
  module := huntsmanModule
  confidence := 100
  created := toMillis now
  entity := (entities.find? target.names).map (·.uid)
  raw := match targetRaw target entities with
    | [] => .null
    | records => .array records

/-! ## The walk -/

/-- The elements made so far, and the first element of each entity's value. -/
structure Walk where
  builder : Builder
  targetId : String
  byValue : TreeMap String String
  cveScores : TreeMap String F64

/-- One element made: the entity's and the record's index, and its id. -/
abbrev Made := ℕ × ℕ × String

/-- A record of an entity that has no element yet. -/
structure Pending where
  entityIndex : ℕ
  entity : Entity
  evidenceIndex : ℕ
  kind : String

namespace Walk

variable (R : Readers) (target : Target) (now : ℕ) (lineage : Lineage)

/-- The root and the target. -/
def new (entities : List Entity) : Walk :=
  let root := rootOf target now
  let targetFinding := targetOf elementId target entities now
  let targetId := targetFinding.id elementId
  let byValue := (∅ : TreeMap String String).insert (toAsciiLowercase (trim target.value)) targetId
  { builder := ((⟨[], ∅⟩ : Builder).push elementId root).push elementId targetFinding
    targetId
    byValue :=
      if target.kind = "USERNAME" then
        -- a crawl's lineage names a lookup of a username by its identity
        byValue.insert (toAsciiLowercase (String.ofList (Canonical.normalise R.lib
          R.canonicalCoordinates .username (trim target.value).toList))) targetId
      else byValue
    cveScores := cvssScores R entities }

/-- The element a record of `entity` was found from. -/
def sourceOf (walk : Walk) (entity : Entity) (evidence : Option Evidence) : String :=
  ((evidence.bind fun evidence ↦ parentKeys.findSome? fun key ↦
      (evidence.attrValues key).findSome? fun value ↦
        (walk.byValue[toAsciiLowercase value]?).filter fun _ ↦
          !eqIgnoreAsciiCase value entity.value).or
    ((lineage[toAsciiLowercase entity.value]?).bind fun parent ↦ walk.byValue[parent]?)).getD
      walk.targetId

def pushed (walk : Walk) (new : Finding) : Walk :=
  { walk with builder := walk.builder.push elementId new }

/-- The element of a record, or of an entity without any. -/
def findingOf (walk : Walk) (p : Pending) : Finding :=
  let evidence := p.entity.evidence[p.evidenceIndex]?
  { kind := p.kind
    data := if p.entity.rawValue = "" then p.entity.value else p.entity.rawValue
    source := some (walk.sourceOf lineage p.entity evidence)
    module := match evidence with
      | none => huntsmanModule
      | some evidence => evidence.provenance.source
    confidence := R.percent p.entity.confidence
    created := match evidence with
      | none => toMillis now
      | some evidence => toMillis evidence.provenance.recordedAtUnix
    entity := some p.entity.uid
    raw := match evidence with
      | none => .null
      | some evidence => rawOf evidence p.entity }

def place (s : Walk × List Made) (p : Pending) : Walk × List Made :=
  let new := s.1.findingOf R now lineage p
  let id := new.id elementId
  let walk := s.1.pushed elementId new
  ({ walk with byValue := walk.byValue.insertIfNew (toAsciiLowercase p.entity.value) id },
    s.2 ++ [(p.entityIndex, p.evidenceIndex, id)])

/-- The records that have an element of their own, by generation. -/
def pending (entities : List Entity) : List Pending :=
  let all := entities.zipIdx.flatMap fun (entity, index) ↦
    if target.names entity then []
    else
      (List.range (max entity.evidence.length 1)).map fun evidenceIndex ↦
        ⟨index, entity, evidenceIndex, entityType entity target⟩
  all.mergeSort fun p q ↦ p.entity.generation ≤ q.entity.generation

/-- One element for each record, other than the target's own. -/
def entities (walk : Walk) (entities : List Entity) : Walk × List Made :=
  (pending target entities).foldl (place elementId R now lineage) (walk, [])

/-- What a record describes, below its own element; the flag says whether anything malicious was. -/
def describe (entity : Entity) (evidence : Evidence) (parent : String) (s : Walk × Bool)
    (d : Descriptor) : Walk × Bool :=
  if d.1 = "BGP_AS_MEMBER" ∧ target.isAs d.2 = true then s
  else
    let raw :=
      if startsWith d.1 "BLACKLISTED_" then
        match (evidence.attrValues "dnsbl_class").head? with
        | none => .null
        | some label => .dnsblClass label
      else .null
    (s.1.pushed elementId
      { kind := d.1
        data := d.2
        source := some parent
        module := evidence.provenance.source
        confidence := R.percent entity.confidence
        created := toMillis evidence.provenance.recordedAtUnix
        entity := some entity.uid
        raw }, s.2 || startsWith d.1 "MALICIOUS_")

/-- The entity's records and the elements they made. -/
def own (walk : Walk) (index : ℕ) (entity : Entity) (made : List Made) : List (ℕ × String) :=
  if target.names entity then
    (List.range entity.evidence.length).map fun evidenceIndex ↦ (evidenceIndex, walk.targetId)
  else (made.filter fun m ↦ m.1 == index).map fun m ↦ (m.2.1, m.2.2)

def describeRecord (entity : Entity) (s : Walk × Bool) (o : ℕ × String) : Walk × Bool :=
  match entity.evidence[o.1]? with
  | none => s
  | some evidence =>
    (Elements.descriptors R entity evidence s.1.cveScores now).foldl
      (describe elementId R target entity evidence o.2) s

/-- What an entity's records describe, and that the entity is malicious where no record says so. -/
def descriptors (made : List Made) (walk : Walk) (e : Entity × ℕ) : Walk :=
  let entity := e.1
  let s := (walk.own target e.2 entity made).foldl (describeRecord elementId R target now entity)
    (walk, false)
  if s.2 = false ∧ entity.hasTag "malicious" = true then
    match maliciousType entity.kind with
    | none => s.1
    | some kind =>
      let sources := (TreeSet.ofList (entity.evidence.map (·.provenance.source))).toList
      s.1.pushed elementId
        { kind
          data := ", ".intercalate sources ++ " [" ++ entity.rawValue ++ "]"
          source := some ((s.1.byValue[toAsciiLowercase entity.value]?).getD s.1.targetId)
          module := huntsmanModule
          confidence := R.percent entity.confidence
          created := toMillis now
          entity := some entity.uid
          raw := .null }
  else s.1

/-- The type of the domain that a host's element belongs to. -/
def derivedType (kind : String) : Option String :=
  if kind = "INTERNET_NAME" then some "DOMAIN_NAME"
  else if kind = "AFFILIATE_INTERNET_NAME" then some "AFFILIATE_DOMAIN_NAME"
  else if kind = "CO_HOSTED_SITE" then some "CO_HOSTED_SITE_DOMAIN"
  else none

/-- The domain of an element's host. -/
def domainOf (element : DataElement) : Option Finding := do
  let derived ← derivedType element.kind
  let host := toAsciiLowercase (trimEndMatches '.' (trim element.data))
  guard (R.lib.parseIp host.toList = none)
  let domain ← registrableDomain host
  let derived ←
    if derived = "DOMAIN_NAME" ∧ target.claims R domain = false then
      if isProperSubdomainOf host domain then some "DOMAIN_NAME_PARENT" else none
    else some derived
  return ⟨derived, domain, some element.id, "hostdomain", element.confidence, element.created, none,
    .null⟩

/-- Push what was not reported before, by its type and its text. -/
def report (s : Walk × List (String × String)) (new : Finding) : Walk × List (String × String) :=
  if (new.kind, new.data) ∈ s.2 then s
  else (s.1.pushed elementId new, (new.kind, new.data) :: s.2)

/-- The domain each host belongs to, each domain once. -/
def domains (walk : Walk) : Walk :=
  ((walk.builder.out.filterMap (domainOf R target)).foldl (report elementId) (walk, [])).1

def watched : List String :=
  ["PHONE_NUMBER", "DOMAIN_NAME", "AFFILIATE_DOMAIN_NAME", "CO_HOSTED_SITE_DOMAIN", "IBAN_NUMBER",
    "DOMAIN_WHOIS", "AFFILIATE_DOMAIN_WHOIS", "CO_HOSTED_SITE_DOMAIN_WHOIS", "GEOINFO",
    "PHYSICAL_ADDRESS"]

/-- The first element of each text. -/
def firstReads : List String → List DataElement → List DataElement
  | _, [] => []
  | read, element :: rest =>
    if element.data ∈ read then firstReads read rest
    else element :: firstReads (element.data :: read) rest

/-- The countries that the watched elements name. -/
def countries (walk : Walk) : Walk :=
  let named := (firstReads [] (walk.builder.out.filter (·.kind ∈ watched))).flatMap fun element ↦
    (R.ofElement element.kind element.data).map fun country ↦
      (⟨"COUNTRY_NAME", country, some element.id, "countryname", element.confidence,
        element.created, none, .null⟩ : Finding)
  named.foldl (pushed elementId) walk

end Walk

/-- The scan's elements, for a scan that followed its findings. -/
def elementsWithLineage (R : Readers) (target : Target) (entities : List Entity)
    (lineage : Lineage) (now : ℕ) : List DataElement :=
  let placed := (Walk.new elementId R target now entities).entities elementId R target now lineage
    entities
  let described := entities.zipIdx.foldl (Walk.descriptors elementId R target now placed.2) placed.1
  ((described.domains elementId R target).countries elementId R).builder.out

end Builder

end Huntsman.Elements
