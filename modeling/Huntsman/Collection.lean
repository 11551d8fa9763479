import Huntsman.Outcome

/-!
# Bounding what was collected

A batch has the receipts of the lookups that ran and the observations they brought.  An observation
does not say which scan it is from: it is attributed by its source, which is the provider, the
target and the upstream it names, to the scan of a receipt of that source.

`boundedBatch` cuts a batch down to what the limits allow.  What is left can be attributed: every
observation has a receipt of its source, and all receipts of that source, those that were cut as
well, are from one scan.  A receipt that lost an observation says that it is truncated, and bounding
a batch twice is bounding it once (`boundedBatch_sound`).
-/

set_option autoImplicit false

namespace Huntsman.Collection

open List Std

/-! ## Batches -/

structure UpstreamOrigin where
  provider : Option String
  dataset : Option String
  artifact : Option String
deriving DecidableEq

inductive TargetKind where
  | email | username | phone | fullName | ipAddress | domain | url | asn | coordinates | address
  | organisation | abnAcn | macAddress | apiKey | cryptoAddress | deviceId | ssid | trackingId
deriving DecidableEq

structure Target where
  kind : TargetKind
  value : String
deriving DecidableEq

/-- The receipt of a lookup. -/
structure CollectionEvent where
  scanId : String
  providerId : String
  target : Target
  outcome : SourceOutcomeKind
  findingCount : ℕ
  truncated : Bool
  startedAtUnix : ℕ
  finishedAtUnix : ℕ
  credentialFingerprint : Option String
  upstream : Option UpstreamOrigin
deriving DecidableEq

structure RawObservation where
  providerId : String
  upstream : Option UpstreamOrigin
  target : Target
  kind : EntityKind
  value : String
  summary : String
  attributes : TreeMap String String
  observedAtUnix : Option ℕ

inductive IndependenceBasis where
  | distinctAuthenticatedPrimaryOrigins | distinctDirectSensorObservations
  | explicitUpstreamProvenance
deriving DecidableEq

structure UpstreamIndependenceAssertion where
  left : UpstreamOrigin
  right : UpstreamOrigin
  basis : IndependenceBasis
  methodId : String
  methodVersion : UInt32
  supportingArtifactIds : List String
  observedAtUnix : ℕ
deriving DecidableEq

structure ObservationBatch where
  events : List CollectionEvent
  observations : List RawObservation
  independenceAssertions : List UpstreamIndependenceAssertion
  truncated : Bool

structure PipelineLimits where
  maxEntities : ℕ
  maxDispatches : ℕ

/-- A provider and a target. -/
abbrev Scope := String × TargetKind × String

/-- A provider, a target and an upstream. -/
abbrev Source := String × TargetKind × String × Option UpstreamOrigin

namespace CollectionEvent

def scope (self : CollectionEvent) : Scope :=
  (self.providerId, self.target.kind, self.target.value)

def source (self : CollectionEvent) : Source :=
  (self.providerId, self.target.kind, self.target.value, self.upstream)

end CollectionEvent

namespace RawObservation

def scope (self : RawObservation) : Scope :=
  (self.providerId, self.target.kind, self.target.value)

def source (self : RawObservation) : Source :=
  (self.providerId, self.target.kind, self.target.value, self.upstream)

end RawObservation

/-! ## Bounding -/

def markRejectedExecutions (events : List CollectionEvent) (rejectedSources : List Scope) :
    List CollectionEvent :=
  events.map fun event ↦
    if event.scope ∈ rejectedSources then { event with truncated := true } else event

/-- The scan each source was last seen with, and the sources seen with more than one. -/
structure ScanIndex where
  scanBySource : Source → Option String := fun _ ↦ none
  ambiguous : List Source := []

def ScanIndex.add (index : ScanIndex) (event : CollectionEvent) : ScanIndex where
  scanBySource := Function.update index.scanBySource event.source (some event.scanId)
  ambiguous :=
    match index.scanBySource event.source with
    | some previousScan =>
      if previousScan ≠ event.scanId then event.source :: index.ambiguous else index.ambiguous
    | none => index.ambiguous

/-- The sources whose receipts name more than one scan. -/
def ambiguousExecutionSources (events : List CollectionEvent) : List Source :=
  (events.foldl ScanIndex.add {}).ambiguous

/-- The upstreams of the receipts of each provider and target. -/
def retainedReceipts (events : List CollectionEvent) : Scope → List (Option UpstreamOrigin) :=
  events.foldl (fun receipts event ↦
    Function.update receipts event.scope (receipts event.scope ++ [event.upstream])) fun _ ↦ []

/-- The observations that were kept so far, and where others were lost. -/
structure Retaining where
  rejectedSources : List Scope := []
  droppedSources : List Scope := []
  retainedCount : ℕ := 0
  kept : List RawObservation := []

/-- Whether an observation can be attributed. -/
def Supported (ambiguous : List Source) (receipts : Scope → List (Option UpstreamOrigin))
    (observation : RawObservation) : Prop :=
  observation.source ∉ ambiguous ∧ observation.upstream ∈ receipts observation.scope

instance (ambiguous : List Source) (receipts : Scope → List (Option UpstreamOrigin)) :
    DecidablePred (Supported ambiguous receipts) :=
  fun _ ↦ inferInstanceAs (Decidable (_ ∧ _))

def Retaining.retain (ambiguous : List Source) (receipts : Scope → List (Option UpstreamOrigin))
    (maxEntities : ℕ) (s : Retaining) (observation : RawObservation) : Retaining :=
  if ¬ Supported ambiguous receipts observation then
    { s with rejectedSources := observation.scope :: s.rejectedSources }
  else if maxEntities ≤ s.retainedCount then
    { s with droppedSources := observation.scope :: s.droppedSources }
  else { s with retainedCount := s.retainedCount + 1, kept := s.kept ++ [observation] }

def boundedBatch (batch : ObservationBatch) (limits : PipelineLimits) : ObservationBatch :=
  let ambiguous := ambiguousExecutionSources batch.events
  let overflow := limits.maxEntities < batch.observations.length ∨
    limits.maxDispatches < batch.events.length
  let events := batch.events.take limits.maxDispatches
  let retaining := batch.observations.foldl
    (Retaining.retain ambiguous (retainedReceipts events) limits.maxEntities) {}
  let retainedOrigins := retaining.kept.filterMap RawObservation.upstream
  { events := markRejectedExecutions events (retaining.rejectedSources ++ retaining.droppedSources)
    observations := retaining.kept
    independenceAssertions :=
      if retaining.kept.length < batch.observations.length then
        batch.independenceAssertions.filter fun assertion ↦
          assertion.left ∈ retainedOrigins ∧ assertion.right ∈ retainedOrigins
      else batch.independenceAssertions
    truncated := batch.truncated || decide (retaining.kept.length ≠ batch.observations.length) ||
      decide overflow }

/-! ## What is read of a batch -/

/-- The scan an observation is attributed to. -/
def scanIdFor (batch : ObservationBatch) (observation : RawObservation) : String :=
  (batch.events.find? fun event ↦
    event.providerId = observation.providerId ∧ event.target = observation.target ∧
      event.upstream = observation.upstream).elim "collection" CollectionEvent.scanId

inductive EventKind where
  | moduleDone (module : String) (found : ℕ)
  | moduleError (module error : String)
deriving DecidableEq

structure Event where
  scanId : String
  ts : ℕ
  kind : EventKind
deriving DecidableEq

/-- An outcome as `{:?}` writes it. -/
def debugName : SourceOutcomeKind → String
  | .success => "Success"
  | .validZero => "ValidZero"
  | .authRequired => "AuthRequired"
  | .notConfigured => "NotConfigured"
  | .authRejected => "AuthRejected"
  | .entitlementDenied => "EntitlementDenied"
  | .quotaExhausted => "QuotaExhausted"
  | .rateLimited => "RateLimited"
  | .botWaf => "BotWaf"
  | .dnsFailure => "DnsFailure"
  | .connectFailure => "ConnectFailure"
  | .tlsFailure => "TlsFailure"
  | .ttfbTimeout => "TtfbTimeout"
  | .bodyTimeout => "BodyTimeout"
  | .upstream4xx => "Upstream4xx"
  | .upstream5xx => "Upstream5xx"
  | .redirectChanged => "RedirectChanged"
  | .protocolDrift => "ProtocolDrift"
  | .interactionDrift => "InteractionDrift"
  | .schemaDrift => "SchemaDrift"
  | .parserDrift => "ParserDrift"
  | .semanticDrift => "SemanticDrift"
  | .zeroYieldAnomaly => "ZeroYieldAnomaly"
  | .confirmedDead => "ConfirmedDead"
  | .refusedBeforeSending => "RefusedBeforeSending"
  | .inconclusive => "Inconclusive"

def unresolvedReason (event : CollectionEvent) : String :=
  if event.truncated then
    "truncated provider execution after " ++ toString event.findingCount ++ " findings"
  else "provider execution outcome: " ++ debugName event.outcome

/-- What a receipt says of its module. -/
def CollectionEvent.coverage (event : CollectionEvent) : Event where
  scanId := event.scanId
  ts := event.finishedAtUnix
  kind :=
    if event.outcome = .success ∧ event.truncated = false then
      .moduleDone event.providerId event.findingCount
    else if event.outcome = .validZero ∧ event.truncated = false then
      .moduleDone event.providerId 0
    else .moduleError event.providerId (unresolvedReason event)

def coverageEvents (batch : ObservationBatch) : List Event :=
  batch.events.map CollectionEvent.coverage

/-! ## Which sources are ambiguous -/

/-- The scan a source was last seen with. -/
def lastScan (events : List CollectionEvent) (source : Source) : Option String :=
  (events.foldl ScanIndex.add {}).scanBySource source

theorem lastScan_append (events : List CollectionEvent) (event : CollectionEvent)
    (source : Source) :
    lastScan (events ++ [event]) source =
      if source = event.source then some event.scanId else lastScan events source := by
  simp [lastScan, ScanIndex.add, Function.update_apply]

variable {events : List CollectionEvent}

theorem mem_ambiguous_append {event : CollectionEvent}
    {source : Source} :
    source ∈ ambiguousExecutionSources (events ++ [event]) ↔
      source ∈ ambiguousExecutionSources events ∨
        source = event.source ∧ ∃ scan, lastScan events source = some scan ∧ scan ≠ event.scanId := by
  simp only [ambiguousExecutionSources, lastScan, foldl_append, foldl_cons,
    foldl_nil, ScanIndex.add]
  cases hlast : (events.foldl ScanIndex.add {}).scanBySource event.source with
  | none =>
    refine ⟨.inl, fun h ↦ h.resolve_right ?_⟩
    rintro ⟨rfl, scan, hscan, -⟩
    simp [hlast] at hscan
  | some previous =>
    by_cases hne : previous ≠ event.scanId
    · simp only [if_pos hne, mem_cons, or_comm]
      refine or_congr_left ⟨?_, And.left⟩
      rintro rfl
      exact ⟨rfl, previous, hlast, hne⟩
    · simp only [if_neg hne]
      refine ⟨.inl, fun h ↦ h.resolve_right ?_⟩
      rintro ⟨rfl, scan, hscan, hdiffer⟩
      rw [hlast, Option.some.injEq] at hscan
      exact hne (hscan ▸ hdiffer)

theorem lastScan_eq_none {source : Source} :
    lastScan events source = none ↔ ∀ event ∈ events, event.source ≠ source := by
  induction events using reverseRecOn with
  | nil => simp [lastScan]
  | append_singleton events event ih =>
    rw [lastScan_append]
    by_cases h : source = event.source
    · simp [h]
    · simp [h, ih, or_imp, forall_and, Ne.symm h]

theorem lastScan_mem {source : Source} {scan : String}
    (h : lastScan events source = some scan) :
    ∃ event ∈ events, event.source = source ∧ event.scanId = scan := by
  induction events using reverseRecOn with
  | nil => simp [lastScan] at h
  | append_singleton events event ih =>
    rw [lastScan_append] at h
    split at h
    · next hsource => exact ⟨event, by simp, hsource.symm, by simpa using h⟩
    · obtain ⟨event', hmem, hrest⟩ := ih h
      exact ⟨event', by simp [hmem], hrest⟩

/-- A source is ambiguous just when two of its receipts are from different scans. -/
theorem not_mem_ambiguous {source : Source} :
    source ∉ ambiguousExecutionSources events ↔
      ∀ event ∈ events, ∀ event' ∈ events, event.source = source → event'.source = source →
        event.scanId = event'.scanId := by
  induction events using reverseRecOn with
  | nil => simp [ambiguousExecutionSources]
  | append_singleton events event ih =>
    rw [mem_ambiguous_append, not_or, ih]
    constructor
    · rintro ⟨hold, hnew⟩ left hl right hr hleftSource hrightSource
      -- A receipt of the source that came before is from the scan of the new one.
      have hlast : ∀ older ∈ events, older.source = source → event.source = source →
          older.scanId = event.scanId := by
        intro older hmem holder hevent
        cases hscan : lastScan events source with
        | none => exact absurd holder (lastScan_eq_none.1 hscan older hmem)
        | some scan =>
          obtain ⟨last, hlastMem, hlastSource, rfl⟩ := lastScan_mem hscan
          have hsame : last.scanId = event.scanId := by
            by_contra hne
            exact hnew ⟨hevent.symm, _, hscan, hne⟩
          exact (hold older hmem last hlastMem holder hlastSource).trans hsame
      rcases mem_append.1 hl with hleft | hleft <;>
        rcases mem_append.1 hr with hright | hright
      · exact hold left hleft right hright hleftSource hrightSource
      · rw [mem_singleton.1 hright] at hrightSource ⊢
        exact hlast left hleft hleftSource hrightSource
      · rw [mem_singleton.1 hleft] at hleftSource ⊢
        exact (hlast right hright hrightSource hleftSource).symm
      · rw [mem_singleton.1 hleft, mem_singleton.1 hright]
    · intro h
      refine ⟨fun left hleft right hright ↦
        h left (by simp [hleft]) right (by simp [hright]), ?_⟩
      rintro ⟨rfl, scan, hscan, hne⟩
      obtain ⟨last, hlast, hsource, rfl⟩ := lastScan_mem hscan
      exact hne (h last (by simp [hlast]) event (by simp) hsource rfl)

/-! ## Which upstreams have a receipt -/

theorem retainedReceipts_eq (events : List CollectionEvent) (scope : Scope) :
    retainedReceipts events scope =
      (events.filter (·.scope = scope)).map CollectionEvent.upstream := by
  induction events using reverseRecOn with
  | nil => rfl
  | append_singleton events event ih =>
    have hstep : retainedReceipts (events ++ [event]) scope =
        if scope = event.scope then retainedReceipts events scope ++ [event.upstream]
        else retainedReceipts events scope := by
      simp only [retainedReceipts, foldl_append, foldl_cons, foldl_nil,
        Function.update_apply]
      split <;> simp_all
    rw [hstep, ih, filter_append, map_append]
    by_cases h : scope = event.scope
    · simp [h]
    · simp [h, Ne.symm h]

/-- An upstream is among the receipts just when its source is. -/
theorem mem_retainedReceipts {observation : RawObservation} :
    observation.upstream ∈ retainedReceipts events observation.scope ↔
      ∃ event ∈ events, event.source = observation.source := by
  simp only [retainedReceipts_eq, mem_map, mem_filter, decide_eq_true_eq,
    CollectionEvent.source, CollectionEvent.scope, RawObservation.source, RawObservation.scope,
    Prod.mk.injEq, and_assoc]

/-! ## Keeping observations -/

section Retaining

variable (ambiguous : List Source) (receipts : Scope → List (Option UpstreamOrigin))
  (maxEntities : ℕ)

/-- The state after some observations: as many of those that can be attributed as there is room for,
and the scopes that have fewer than came. -/
structure Retaining.After (done : List RawObservation) (s : Retaining) : Prop where
  kept : s.kept = (done.filter (Supported ambiguous receipts ·)).take maxEntities
  count : s.retainedCount = s.kept.length
  lost : ∀ scope, scope ∈ s.rejectedSources ++ s.droppedSources ↔
    s.kept.countP (·.scope = scope) < done.countP (·.scope = scope)

variable {ambiguous receipts maxEntities}

variable {s : Retaining}

theorem Retaining.After.sublist {done : List RawObservation}
    (h : s.After ambiguous receipts maxEntities done) : s.kept.Sublist done := by
  rw [h.kept]
  exact (take_sublist ..).trans filter_sublist

/-- One more observation that is not kept is lost to its scope. -/
theorem Retaining.After.lost_one {done : List RawObservation}
    (h : s.After ambiguous receipts maxEntities done) (observation : RawObservation)
    (scope : Scope) :
    s.kept.countP (·.scope = scope) < (done ++ [observation]).countP (·.scope = scope) ↔
      scope = observation.scope ∨ scope ∈ s.rejectedSources ++ s.droppedSources := by
  have hle : s.kept.countP (·.scope = scope) ≤ done.countP (·.scope = scope) :=
    h.sublist.countP_le
  rw [h.lost, countP_append, countP_singleton]
  by_cases heq : scope = observation.scope
  · simp only [heq, decide_true, if_true, true_or, iff_true]
    rw [heq] at hle
    omega
  · simp [heq, Ne.symm heq]

theorem Retaining.After.retain {done : List RawObservation}
    (h : s.After ambiguous receipts maxEntities done) (observation : RawObservation) :
    (s.retain ambiguous receipts maxEntities observation).After ambiguous receipts maxEntities
      (done ++ [observation]) := by
  have hlength : s.retainedCount = min maxEntities
      (done.filter (Supported ambiguous receipts ·)).length := by
    rw [h.count, h.kept, length_take]
  rw [Retaining.retain]
  split
  · next hunsupported =>
    refine ⟨?_, h.count, fun scope ↦ ?_⟩
    · simp [filter_append, hunsupported, h.kept]
    · rw [h.lost_one, cons_append, mem_cons]
  · next hsupported =>
    rw [not_not] at hsupported
    have hfilter : (done ++ [observation]).filter (Supported ambiguous receipts ·) =
        done.filter (Supported ambiguous receipts ·) ++ [observation] := by
      simp [filter_append, hsupported]
    split
    · next hfull =>
      refine ⟨?_, h.count, fun scope ↦ ?_⟩
      · rw [hfilter, take_append_of_le_length (by omega)]
        exact h.kept
      · rw [h.lost_one, mem_append, mem_append, mem_cons]
        exact or_left_comm
    · next hroom =>
      have hkept : s.kept = done.filter (Supported ambiguous receipts ·) := by
        rw [h.kept, take_of_length_le (by omega)]
      refine ⟨?_, ?_, fun scope ↦ ?_⟩
      · rw [hfilter, take_of_length_le (by simp; omega), hkept]
      · simp [h.count]
      · rw [countP_append, countP_append, Nat.add_lt_add_iff_right]
        exact h.lost scope

theorem retaining_after (observations : List RawObservation) :
    (observations.foldl (Retaining.retain ambiguous receipts maxEntities) {}).After
      ambiguous receipts maxEntities observations := by
  induction observations using reverseRecOn with
  | nil => exact ⟨by simp, rfl, by simp⟩
  | append_singleton done observation ih =>
    rw [foldl_append, foldl_cons, foldl_nil]
    exact ih.retain observation

end Retaining

/-! ## What is left -/

/-- Whether a provider and target lost an observation. -/
def Lost (batch bounded : ObservationBatch) (scope : Scope) : Prop :=
  bounded.observations.countP (·.scope = scope) < batch.observations.countP (·.scope = scope)

instance (batch bounded : ObservationBatch) : DecidablePred (Lost batch bounded) :=
  fun _ ↦ inferInstanceAs (Decidable (_ < _))

/-- A receipt that is truncated where its provider and target lost an observation. -/
def CollectionEvent.marked (batch bounded : ObservationBatch) (event : CollectionEvent) :
    CollectionEvent :=
  { event with truncated := event.truncated || decide (Lost batch bounded event.scope) }

variable (batch : ObservationBatch) (limits : PipelineLimits)

theorem boundedBatch_observations :
    (boundedBatch batch limits).observations =
      (batch.observations.filter (Supported (ambiguousExecutionSources batch.events)
        (retainedReceipts (batch.events.take limits.maxDispatches)) ·)).take limits.maxEntities :=
  (retaining_after _).kept

theorem boundedBatch_observations_sublist :
    (boundedBatch batch limits).observations.Sublist batch.observations :=
  (retaining_after _).sublist

theorem boundedBatch_events :
    (boundedBatch batch limits).events = (batch.events.take limits.maxDispatches).map
      (CollectionEvent.marked batch (boundedBatch batch limits)) := by
  refine map_congr_left fun event _ ↦ ?_
  have hafter : (batch.observations.foldl (Retaining.retain (ambiguousExecutionSources batch.events)
      (retainedReceipts (batch.events.take limits.maxDispatches)) limits.maxEntities) {}).After
        (ambiguousExecutionSources batch.events)
        (retainedReceipts (batch.events.take limits.maxDispatches)) limits.maxEntities
        batch.observations := retaining_after batch.observations
  have hlost := hafter.lost event.scope
  simp only [hlost, CollectionEvent.marked, Lost]
  split
  · next h => simp [boundedBatch, h]
  · next h => simp [boundedBatch, h]

variable {event : CollectionEvent}

/-- A kept receipt is one of the batch, but for its flag. -/
theorem of_mem_boundedBatch_events
    (h : event ∈ (boundedBatch batch limits).events) :
    ∃ original ∈ batch.events, original.source = event.source ∧ original.scanId = event.scanId := by
  rw [boundedBatch_events, mem_map] at h
  obtain ⟨original, hmem, rfl⟩ := h
  exact ⟨original, mem_of_mem_take hmem, rfl, rfl⟩

theorem boundedBatch_events_length :
    (boundedBatch batch limits).events.length = min limits.maxDispatches batch.events.length := by
  rw [boundedBatch_events, length_map, length_take]

variable {batch limits}

/-- A kept observation has a kept receipt, and its source is not ambiguous. -/
theorem supported_of_mem {observation : RawObservation}
    (h : observation ∈ (boundedBatch batch limits).observations) :
    (∃ event ∈ (boundedBatch batch limits).events, event.source = observation.source) ∧
      ∀ event ∈ batch.events, ∀ event' ∈ batch.events, event.source = observation.source →
        event'.source = observation.source → event.scanId = event'.scanId := by
  rw [boundedBatch_observations] at h
  obtain ⟨-, hsupported⟩ := mem_filter.1 (mem_of_mem_take h)
  rw [decide_eq_true_eq, Supported, not_mem_ambiguous, mem_retainedReceipts] at hsupported
  obtain ⟨hscan, original, hmem, hsource⟩ := hsupported
  refine ⟨⟨original.marked batch (boundedBatch batch limits), ?_, hsource⟩, hscan⟩
  rw [boundedBatch_events]
  exact mem_map_of_mem hmem

/-- The receipts that `scanIdFor` looks for are those of the observation's source. -/
theorem scanIdFor_eq (observation : RawObservation) :
    scanIdFor batch observation =
      (batch.events.find? (·.source = observation.source)).elim "collection"
        CollectionEvent.scanId := by
  have htarget (left right : Target) :
      left = right ↔ left.kind = right.kind ∧ left.value = right.value := by
    rw [Target.mk.injEq]
  simp only [scanIdFor, htarget, CollectionEvent.source, RawObservation.source, Prod.mk.injEq,
    and_assoc]

/-- A kept observation is attributed to the scan of every receipt of its source. -/
theorem scanIdFor_boundedBatch {observation : RawObservation}
    (h : observation ∈ (boundedBatch batch limits).observations) (hevent : event ∈ batch.events)
    (hsource : event.source = observation.source) :
    scanIdFor (boundedBatch batch limits) observation = event.scanId := by
  obtain ⟨⟨kept, hkept, hkeptSource⟩, hscan⟩ := supported_of_mem h
  rw [scanIdFor_eq]
  cases hfind : (boundedBatch batch limits).events.find? (·.source = observation.source) with
  | none => exact absurd hkeptSource (by simpa using find?_eq_none.1 hfind kept hkept)
  | some found =>
    have hfound : found.source = observation.source := by simpa using find?_some hfind
    obtain ⟨original, hmem, hsame, hid⟩ :=
      of_mem_boundedBatch_events batch limits (mem_of_find?_eq_some hfind)
    exact hid.symm.trans
      (hscan original hmem event hevent (hsame.trans hfound) hsource)

/-- What is not truncated is all a module said. -/
theorem coverage_of_truncated (h : event.truncated = true)
    (module : String) (found : ℕ) : event.coverage.kind ≠ .moduleDone module found := by
  simp [CollectionEvent.coverage, h]

/-- **Bounding twice is bounding once.**  All that was kept is supported by what was kept with it,
so the second time nothing is rejected and there is nothing to cut. -/
theorem boundedBatch_again :
    boundedBatch (boundedBatch batch limits) limits = boundedBatch batch limits := by
  set bounded := boundedBatch batch limits with hbounded
  have hdispatches : bounded.events.length ≤ limits.maxDispatches := by
    rw [hbounded, boundedBatch_events_length]
    exact Nat.min_le_left ..
  have hentities : bounded.observations.length ≤ limits.maxEntities := by
    rw [hbounded, boundedBatch_observations]
    exact length_take_le ..
  have hsupported : ∀ observation ∈ bounded.observations, Supported
      (ambiguousExecutionSources bounded.events) (retainedReceipts bounded.events) observation := by
    intro observation hmem
    obtain ⟨hreceipt, hscan⟩ := supported_of_mem hmem
    rw [Supported, not_mem_ambiguous, mem_retainedReceipts]
    refine ⟨fun event hevent event' hevent' hsource hsource' ↦ ?_, hreceipt⟩
    obtain ⟨original, horiginal, hsame, hid⟩ := of_mem_boundedBatch_events batch limits hevent
    obtain ⟨original', horiginal', hsame', hid'⟩ := of_mem_boundedBatch_events batch limits hevent'
    rw [← hid, ← hid']
    exact hscan _ horiginal _ horiginal' (hsame.trans hsource) (hsame'.trans hsource')
  have hobservations : (boundedBatch bounded limits).observations = bounded.observations := by
    rw [boundedBatch_observations, take_of_length_le hdispatches,
      filter_eq_self.2 (by simpa using hsupported), take_of_length_le hentities]
  have hevents : (boundedBatch bounded limits).events = bounded.events := by
    rw [boundedBatch_events, take_of_length_le hdispatches]
    refine (map_congr_left fun event _ ↦ ?_).trans (map_id _)
    simp [CollectionEvent.marked, Lost, hobservations]
  have hassertions : (boundedBatch bounded limits).independenceAssertions =
      bounded.independenceAssertions := by
    have hlength : ¬ (boundedBatch bounded limits).observations.length <
        bounded.observations.length := by
      rw [hobservations]
      exact Nat.lt_irrefl _
    exact if_neg hlength
  have htruncated : (boundedBatch bounded limits).truncated = bounded.truncated := by
    have hlength : decide ((boundedBatch bounded limits).observations.length ≠
        bounded.observations.length) = false := by
      simp [hobservations]
    have hoverflow : decide (limits.maxEntities < bounded.observations.length ∨
        limits.maxDispatches < bounded.events.length) = false := by
      simp [hdispatches, hentities]
    change (bounded.truncated || decide ((boundedBatch bounded limits).observations.length ≠
      bounded.observations.length) || decide (limits.maxEntities < bounded.observations.length ∨
        limits.maxDispatches < bounded.events.length)) = bounded.truncated
    rw [hlength, hoverflow, Bool.or_false, Bool.or_false]
  revert hobservations hevents hassertions htruncated
  generalize boundedBatch bounded limits = again
  obtain ⟨events, observations, assertions, truncated⟩ := again
  rintro rfl rfl rfl rfl
  rfl

/-- What bounding promises of a batch. -/
structure Sound (batch : ObservationBatch) (limits : PipelineLimits) (bounded : ObservationBatch) :
    Prop where
  dispatches : bounded.events.length ≤ limits.maxDispatches
  entities : bounded.observations.length ≤ limits.maxEntities
  events : ∃ kept : List CollectionEvent, kept.Sublist batch.events ∧
    bounded.events = kept.map (CollectionEvent.marked batch bounded)
  observations : bounded.observations.Sublist batch.observations
  supported : ∀ observation ∈ bounded.observations,
    ∃ event ∈ bounded.events, event.source = observation.source
  attributed : ∀ observation ∈ bounded.observations, ∀ event ∈ batch.events,
    event.source = observation.source → event.scanId = scanIdFor bounded observation
  incomplete : ∀ (i : ℕ) (event : CollectionEvent), bounded.events[i]? = some event →
    Lost batch bounded event.scope → event.truncated = true ∧
      ∃ coverage, (coverageEvents bounded)[i]? = some coverage ∧
        ∀ module found, coverage.kind ≠ .moduleDone module found
  truncated : bounded.truncated = true ↔ batch.truncated = true ∨
    bounded.events.length < batch.events.length ∨
    bounded.observations.length < batch.observations.length
  again : boundedBatch bounded limits = bounded

theorem boundedBatch_truncated :
    (boundedBatch batch limits).truncated = true ↔ batch.truncated = true ∨
      (boundedBatch batch limits).events.length < batch.events.length ∨
      (boundedBatch batch limits).observations.length < batch.observations.length := by
  have hevents := boundedBatch_events_length batch limits
  have hobservations := (boundedBatch_observations_sublist batch limits).length_le
  have hentities : (boundedBatch batch limits).observations.length ≤ limits.maxEntities := by
    rw [boundedBatch_observations]
    exact length_take_le ..
  have htruncated : (boundedBatch batch limits).truncated = true ↔ (batch.truncated = true ∨
      (boundedBatch batch limits).observations.length ≠ batch.observations.length) ∨
      (limits.maxEntities < batch.observations.length ∨
        limits.maxDispatches < batch.events.length) := by
    change (batch.truncated || decide ((boundedBatch batch limits).observations.length ≠
      batch.observations.length) || decide (limits.maxEntities < batch.observations.length ∨
        limits.maxDispatches < batch.events.length)) = true ↔ _
    simp only [Bool.or_eq_true, decide_eq_true_eq]
  rw [htruncated, or_assoc]
  refine or_congr_right ?_
  omega

variable (batch limits)

/-- **A bounded batch can be attributed.**  It holds no more than the limits allow, in the order it
came; each observation has a receipt, and its source names one scan in the whole batch, the one it
is attributed to; where something was lost the receipts and the batch say so. -/
theorem boundedBatch_sound : Sound batch limits (boundedBatch batch limits) where
  dispatches := by
    rw [boundedBatch_events_length]
    exact Nat.min_le_left ..
  entities := by
    rw [boundedBatch_observations]
    exact length_take_le ..
  events := ⟨_, take_sublist .., boundedBatch_events batch limits⟩
  observations := boundedBatch_observations_sublist batch limits
  supported _ h := (supported_of_mem h).1
  attributed _ h _ hevent hsource := (scanIdFor_boundedBatch h hevent hsource).symm
  incomplete i event h hlost := by
    have hmem : event ∈ (boundedBatch batch limits).events := mem_of_getElem? h
    have htruncated : event.truncated = true := by
      rw [boundedBatch_events, mem_map] at hmem
      obtain ⟨original, -, rfl⟩ := hmem
      simp only [CollectionEvent.marked, Bool.or_eq_true, decide_eq_true_eq]
      exact .inr hlost
    refine ⟨htruncated, event.coverage, ?_, coverage_of_truncated htruncated⟩
    rw [coverageEvents, getElem?_map, h, Option.map_some]
  truncated := boundedBatch_truncated
  again := boundedBatch_again


end Huntsman.Collection
