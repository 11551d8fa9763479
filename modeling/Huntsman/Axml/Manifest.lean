import Huntsman.Axml.Decode

/-!
# The manifest

`manifest` reads the facts of a compiled `AndroidManifest.xml` that are kept: each element that
starts or ends is shown to a `Reader`, which knows the component and the intent filter that are
open.
-/

set_option autoImplicit false

namespace Huntsman.Axml

open Bytes
open Apk (le16 le32)

def maxListed : ℕ := 256

/-! ## What a manifest declares -/

/-- How a component is reachable from other apps. -/
inductive Exposure where
  | exported
  | implicitByIntentFilter
deriving DecidableEq

structure Component where
  kind : String
  name : String
  exposure : Exposure
deriving DecidableEq

structure IntentFilterDef where
  component : String
  componentKind : String
  actions : List String
  categories : List String
  schemes : List String
  hosts : List String
deriving DecidableEq

structure Manifest where
  package : Option String := none
  label : Option String := none
  labelResourceId : Option UInt32 := none
  versionCode : Option String := none
  versionName : Option String := none
  sharedUserId : Option String := none
  minSdk : Option String := none
  targetSdk : Option String := none
  permissions : List String := []
  permissionsOmitted : ℕ := 0
  debuggable : Option Bool := none
  testOnly : Option Bool := none
  allowBackup : Option Bool := none
  usesCleartextTraffic : Option Bool := none
  networkSecurityConfig : Bool := false
  networkSecurityConfigResourceId : Option UInt32 := none
  components : ℕ := 0
  reachableComponents : List Component := []
  reachableComponentsOmitted : ℕ := 0
  deepLinkSchemes : List String := []
  deepLinkHosts : List String := []
  deepLinkHostsOmitted : ℕ := 0
  appLinksAutoVerify : Bool := false
  providerAuthorities : List String := []
  explicitlyExportedProviderAuthorities : List String := []
  intentFilters : List IntentFilterDef := []
  intentFiltersOmitted : ℕ := 0
deriving DecidableEq

/-! ## Attributes by name -/

def value (attributes : List Attribute) (name : String) : Option String :=
  (attributes.find? (·.name == name)).map (·.value)

def reference (attributes : List Attribute) (name : String) : Option UInt32 :=
  (attributes.find? (·.name == name)).bind (·.reference)

/-- `str::parse::<bool>`. -/
def parseBool (s : String) : Option Bool :=
  if s = "true" then some true else if s = "false" then some false else none

def flag (attributes : List Attribute) (name : String) : Option Bool :=
  (attributes.find? (·.name == name)).bind fun a ↦ a.boolean.or (parseBool a.value)

/-! ## Reading elements -/

/-- A list with a limit, the items it was given and how many of them it left out. -/
structure Capped where
  list : List String
  omitted : ℕ
  seen : List String

/-- An item that is not empty and was not given before. -/
def pushCapped (c : Capped) (item : String) : Capped :=
  if item = "" ∨ item ∈ c.seen then c
  else if c.list.length < maxListed then ⟨c.list ++ [item], c.omitted, item :: c.seen⟩
  else ⟨c.list, c.omitted + 1, item :: c.seen⟩

def COMPONENTS : List String := ["activity", "activity-alias", "service", "receiver", "provider"]

/-- The component that is open. -/
structure Open where
  kind : String
  name : String
  exported : Option Bool
  filtered : Bool
  enabled : Option Bool
  authorities : List String

structure IntentFilterState where
  actions : List String := []
  categories : List String := []
  schemes : List String := []
  hosts : List String := []

structure Reader where
  manifest : Manifest := {}
  permissions : List String := []
  hosts : List String := []
  schemes : List String := []
  authorities : List String := []
  applicationEnabled : Option Bool := none
  opened : Option Open := none
  intentFilter : Option IntentFilterState := none

/-- The authorities seen so far, those of all providers and those of this one. -/
abbrev Authorities := List String × List String × List String

/-- One authority of a provider, in the list of all of them and in its own. -/
def addAuthority (s : Authorities) (authority : String) : Authorities :=
  let all := pushCapped ⟨s.2.1, 0, s.1⟩ authority
  let own :=
    if authority ≠ "" ∧ s.2.2.length < maxListed ∧ authority ∉ s.2.2 then s.2.2 ++ [authority]
    else s.2.2
  (all.seen, all.list, own)

def collectProviderAuthorities (seen listed : List String) (attributes : List Attribute) :
    Authorities :=
  ((Text.split ";" ((value attributes "authorities").getD "")).map Text.trim).foldl addAuthority
    (seen, listed, [])

namespace Reader

/-- The scheme and the host of an intent filter. -/
def recordFilterData (r : Reader) (attributes : List Attribute) : Reader :=
  let r :=
    match value attributes "scheme" with
    | none => r
    | some scheme =>
      let c := pushCapped ⟨r.manifest.deepLinkSchemes, 0, r.schemes⟩ (Text.toAsciiLowercase scheme)
      { r with
        manifest := { r.manifest with deepLinkSchemes := c.list }
        schemes := c.seen
        intentFilter := r.intentFilter.map fun filter ↦
          { filter with schemes := filter.schemes ++ [Text.toAsciiLowercase scheme] } }
  match value attributes "host" with
  | none => r
  | some host =>
    let c := pushCapped ⟨r.manifest.deepLinkHosts, r.manifest.deepLinkHostsOmitted, r.hosts⟩
      (Text.toAsciiLowercase host)
    { r with
      manifest := { r.manifest with deepLinkHosts := c.list, deepLinkHostsOmitted := c.omitted }
      hosts := c.seen
      intentFilter := r.intentFilter.map fun filter ↦
        { filter with hosts := filter.hosts ++ [Text.toAsciiLowercase host] } }

/-- The open intent filter goes to the manifest, with the component it is in. -/
def closeIntentFilter (r : Reader) : Reader :=
  match r.intentFilter, r.opened with
  | some filter, some opened =>
    let manifest :=
      if r.manifest.intentFilters.length < maxListed then
        { r.manifest with
          intentFilters := r.manifest.intentFilters ++
            [{ component := opened.name
               componentKind := if opened.kind = "activity-alias" then "activity" else opened.kind
               actions := filter.actions
               categories := filter.categories
               schemes := filter.schemes
               hosts := filter.hosts }] }
      else { r.manifest with intentFiltersOmitted := r.manifest.intentFiltersOmitted + 1 }
    { r with manifest, intentFilter := none }
  | _, _ => { r with intentFilter := none }

/-- How a component is reachable, if it is. -/
def exposure (opened : Open) : Option Exposure :=
  match opened.exported, opened.filtered with
  | some true, _ => some .exported
  | none, true => if opened.kind ≠ "provider" then some .implicitByIntentFilter else none
  | _, _ => none

def addExported (listed : List String) (authority : String) : List String :=
  if listed.length < maxListed ∧ authority ∉ listed then listed ++ [authority] else listed

/-- The manifest with a component that other apps can reach. -/
def record (m : Manifest) (opened : Open) (exposure : Exposure) : Manifest :=
  let m :=
    if opened.kind = "provider" ∧ opened.exported = some true then
      { m with
        explicitlyExportedProviderAuthorities :=
          opened.authorities.foldl addExported m.explicitlyExportedProviderAuthorities }
    else m
  if m.reachableComponents.length < maxListed then
    { m with reachableComponents := m.reachableComponents ++ [⟨opened.kind, opened.name, exposure⟩] }
  else { m with reachableComponentsOmitted := m.reachableComponentsOmitted + 1 }

def closeComponent (r : Reader) : Reader :=
  let r := r.closeIntentFilter
  match r.opened with
  | none => r
  | some opened =>
    let r := { r with opened := none }
    if opened.enabled = some false ∨ r.applicationEnabled = some false then r
    else
      match exposure opened with
      | none => r
      | some exposure => { r with manifest := record r.manifest opened exposure }

/-- What an `application` element declares. -/
def application (r : Reader) (attributes : List Attribute) : Reader :=
  let labelResourceId := reference attributes "label"
  { r with
    applicationEnabled := flag attributes "enabled"
    manifest :=
      { r.manifest with
        labelResourceId
        label :=
          if labelResourceId = none then (value attributes "label").filter (· ≠ "")
          else r.manifest.label
        debuggable := flag attributes "debuggable"
        testOnly := flag attributes "testOnly"
        allowBackup := flag attributes "allowBackup"
        usesCleartextTraffic := flag attributes "usesCleartextTraffic"
        networkSecurityConfig := (value attributes "networkSecurityConfig").isSome
        networkSecurityConfigResourceId := reference attributes "networkSecurityConfig" } }

/-- A component starts. -/
def openComponent (r : Reader) (kind : String) (attributes : List Attribute) : Reader :=
  let authorities : Authorities :=
    if kind = "provider" then
      collectProviderAuthorities r.authorities r.manifest.providerAuthorities attributes
    else (r.authorities, r.manifest.providerAuthorities, [])
  { r with
    manifest :=
      { r.manifest with
        components := r.manifest.components + 1
        providerAuthorities := authorities.2.1 }
    authorities := authorities.1
    opened := some
      { kind
        name := (value attributes "name").getD ""
        exported := flag attributes "exported"
        filtered := false
        enabled := flag attributes "enabled"
        authorities := authorities.2.2 } }

def openIntentFilter (r : Reader) (attributes : List Attribute) : Reader :=
  { r with
    opened := r.opened.map fun opened ↦ { opened with filtered := true }
    manifest :=
      if flag attributes "autoVerify" = some true then { r.manifest with appLinksAutoVerify := true }
      else r.manifest
    intentFilter := some {} }

/-- An element starts in `parent`. -/
def start (r : Reader) (element : String) (parent : Option String) (attributes : List Attribute) :
    Reader :=
  let component := element ∈ COMPONENTS ∧ parent = some "application"
  let r := if component then r.closeComponent else r
  if element = "data" ∧ parent = some "intent-filter" then r.recordFilterData attributes
  else if element = "manifest" then
    { r with
      manifest :=
        { r.manifest with
          package := value attributes "package"
          versionCode := value attributes "versionCode"
          versionName := value attributes "versionName"
          sharedUserId := value attributes "sharedUserId" } }
  else if element = "uses-sdk" then
    { r with
      manifest :=
        { r.manifest with
          minSdk := value attributes "minSdkVersion"
          targetSdk := value attributes "targetSdkVersion" } }
  else if element = "uses-permission" ∨ element = "uses-permission-sdk-23" then
    match value attributes "name" with
    | none => r
    | some name =>
      let c := pushCapped ⟨r.manifest.permissions, r.manifest.permissionsOmitted, r.permissions⟩ name
      { r with
        manifest := { r.manifest with permissions := c.list, permissionsOmitted := c.omitted }
        permissions := c.seen }
  else if element = "application" then r.application attributes
  else if component then r.openComponent element attributes
  else if element = "intent-filter" then r.openIntentFilter attributes
  else if element = "action" ∧ parent = some "intent-filter" then
    { r with
      intentFilter := r.intentFilter.map fun filter ↦
        { filter with actions := filter.actions ++ (value attributes "name").toList } }
  else if element = "category" ∧ parent = some "intent-filter" then
    { r with
      intentFilter := r.intentFilter.map fun filter ↦
        { filter with categories := filter.categories ++ (value attributes "name").toList } }
  else r

end Reader

/-! ## The chunks of a manifest -/

/-- What was read so far, and the elements that are open, the innermost first. -/
structure Elements where
  document : Document
  reader : Reader
  stack : List String

namespace Elements

def init : Elements := ⟨⟨[], []⟩, {}, []⟩

def start (s : Elements) (data : List UInt8) (pos header : ℕ) : Except Fault Elements := do
  let name ← orRefuse "truncated element" (le32 data (pos + header + 4))
  let element := (s.document.string name).getD ""
  let attributes ← orRefuse "truncated element attributes" (s.document.attributes data pos header)
  Except.ensure (s.stack.length < maxDepth)
    (Fault.refused ("elements nest deeper than " ++ toString maxDepth))
  return { s with
    reader := s.reader.start element s.stack.head? attributes
    stack := element :: s.stack }

def close (s : Elements) : Elements :=
  match s.stack with
  | [] => s
  | element :: stack =>
    let reader :=
      if element = "intent-filter" then s.reader.closeIntentFilter
      else if element ∈ COMPONENTS ∧ stack.head? = some "application" then s.reader.closeComponent
      else s.reader
    { s with reader, stack }

def chunk (data : List UInt8) (pos : ℕ) (c : Chunk) (s : Elements) : Except Fault Elements :=
  if s.document.reads c then do
    return { s with document := ← s.document.take data pos c }
  else if c.1 = startElementType then s.start data pos c.2.1
  else if c.1 = endElementType then .ok s.close
  else .ok s

/-- What the reader has at the end, its lists sorted. -/
def finish (s : Elements) : Except Fault Manifest := do
  let m := s.reader.closeComponent.manifest
  Except.ensure (¬ (m.package = none ∧ s.stack = [] ∧ m.components = 0 ∧ s.document.strings = []))
    (Fault.refused "binary XML has no string pool")
  let sort (list : List String) : List String := list.mergeSort fun s t ↦ decide (s ≤ t)
  return { m with
    permissions := sort m.permissions
    deepLinkHosts := sort m.deepLinkHosts
    deepLinkSchemes := sort m.deepLinkSchemes
    providerAuthorities := sort m.providerAuthorities
    explicitlyExportedProviderAuthorities := sort m.explicitlyExportedProviderAuthorities }

end Elements

def manifest (data : List UInt8) : Except Fault Manifest := do
  let c ← (chunk data 0 data.length).mapError fun _ ↦ Fault.refused "not Android binary XML"
  Except.ensure (c.1 = xmlType) (Fault.refused "not Android binary XML")
  let last ← walkChunks (Elements.chunk data) data c.2.2 c.2.1 Elements.init
  last.2.finish

end Huntsman.Axml
