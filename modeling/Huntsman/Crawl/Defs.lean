import Huntsman.Crawl.Frontier
import Huntsman.Outcome
import Huntsman.Termination

/-!
# The recursive crawl

A crawl dispatches each seed to a collector, feeds the identity-bearing entities the lookups return
back as the next generation's targets, and repeats until nothing new is left to dispatch or a bound
stops it.  `crawl` is that driver.

## The collector

The driver owns the recursion and the collector owns the I/O.  A `SelectorCollector σ` is a
collector whose world is `σ`: every method may look at the world and change it, so its answers can
depend on anything that happened before, on other threads and on the operator's stop.  The clock is
read from the same world.

What passes between the two is kept in a `Session`: the world and, for each wave, the targets that
were passed and the steps that came back.  A `Wave` also keeps what the crawl knew as it dispatched
it, and `CrawlState.turnedAway` the candidates a full generation had no room for.  Neither is read
by the crawl: they are what the theorems about it speak of.
-/

set_option autoImplicit false

namespace Huntsman

open Std

/-! ## Policy, edges and the report -/

/-- Bounds for one recursive crawl. -/
structure RecursionPolicy where
  /-- Expansion hops beyond the seeds (generation 0). -/
  maxGenerations : UInt32
  /-- Minimum confidence for an entity to be expanded into a new lookup. -/
  expandConfidenceFloor : F64
  /-- Total live lookups across the whole crawl. -/
  maxDispatches : ℕ
  /-- Total distinct entities retained before the crawl is a resource-limited stop. -/
  maxEntities : ℕ
  /-- Distinct new targets one generation may queue for the next. -/
  maxFrontierPerGeneration : ℕ
  /-- Also run the keyed breach lookup on every e-mail the crawl reaches. -/
  exposeEmails : Bool

/-- One generation's dispatch and growth. -/
structure GenerationStat where
  generation : UInt32
  dispatched : ℕ
  entitiesAfter : ℕ

/-- One discovery edge: a dispatched lookup and an entity it produced. -/
structure PivotEdge where
  fromKind : String
  fromSelector : String
  toKind : String
  toValue : String
  generation : UInt32

/-- The finished crawl. -/
structure RecursionReport where
  acceptedSeeds : List Target
  rejectedSeeds : List String
  entities : List Entity
  edges : List PivotEdge
  outcomes : List SourceExecutionOutcome
  generations : List GenerationStat
  dispatches : ℕ
  visited : ℕ
  termination : TerminationReason
  truncated : Bool

/-- Everything the crawl holds after one wave of lookups. -/
structure CrawlProgress where
  entities : List Entity
  edges : List PivotEdge
  outcomes : List SourceExecutionOutcome
  generation : UInt32
  dispatches : ℕ

/-! ## Following an entity -/

section Expansions

variable (R : Selectors)

/-- Route a raw seed to a lookup target, or reject it. -/
def targetForSeed (seed : String) : Option Target :=
  (R.canonicalSelector (R.inferKind seed) seed).map fun selector ↦
    { kind := R.inferKind seed, selector }

/-- The lookup kind an entity of this kind expands into. -/
def expansionKind : EntityKind → Option ScanKind
  | .email => some .email
  | .username => some .username
  | .domain => some .domain
  | .phone => some .phone
  | .ipAddress => some .ip
  | .macAddress => some .network
  | _ => none

/-- Whether an address can stand for whoever holds it. -/
def namesAMailboxHolder (email : String) : Bool :=
  !R.isInfrastructureEmail email && !R.isNoreplyEmailDomain email

/-- Keep the first selector of each route key. -/
def dedupRoutes : List String → List String → List String
  | _, [] => []
  | routes, selector :: rest =>
    if handleRouteKey selector ∈ routes then dedupRoutes routes rest
    else selector :: dedupRoutes (handleRouteKey selector :: routes) rest

/-- The spellings a username was observed under at `floor` or above, its own first, each through
the route's rule and once per route key. -/
def observedSelectors (kind : ScanKind) (entity : Entity) (floor : F64) : List String :=
  let own := Entity.spellingOf entity.rawValue
  let spellings := entity.observedSpellings.toList
  let sorted := spellings.filter (·.1 == own) ++ spellings.filter (·.1 != own)
  dedupRoutes [] ((sorted.filter (·.2.ge floor)).filterMap fun s ↦ R.canonicalSelector kind s.1)

/-- The selectors `entity` is followed by on `kind`'s route. -/
def routeSelectors (kind : ScanKind) (entity : Entity) (floor : F64) : List String :=
  let observed := observedSelectors R kind entity floor
  if kind = .username ∧ entity.kind = .username ∧
      (observed ≠ [] ∨ entity.evidence.any Evidence.isOperatorSeed) then observed
  else (R.canonicalSelector kind entity.value).toList

/-- The tags of a match by name alone, which is never followed. -/
def isNameSearchLead (entity : Entity) : Bool :=
  entity.hasTag "name-search-lead" || entity.hasTag "wikidata-name-lead"

/-- The new targets an entity contributes to the next generation. -/
def expansions (entity : Entity) (policy : RecursionPolicy) : List Target :=
  if isNameSearchLead entity then []
  else if entity.confidence.lt policy.expandConfidenceFloor then []
  else
    match expansionKind entity.kind with
    | none => []
    | some kind =>
      if entity.kind = .email ∧ namesAMailboxHolder R entity.value = false then []
      else
        let selectors := routeSelectors R kind entity policy.expandConfidenceFloor
        if selectors = [] then []
        else
          let targets := selectors.map fun selector ↦ ({ kind, selector } : Target)
          if policy.exposeEmails ∧ entity.kind = .email then
            targets ++ (routeSelectors R .exposure entity policy.expandConfidenceFloor).map
              fun selector ↦ { kind := .exposure, selector }
          else targets

end Expansions

/-! ## The collector and what passes between it and the crawl -/

/-- Performs live lookups.  `σ` is the world they happen in. -/
structure SelectorCollector (σ : Type) where
  /-- Collect a small wave of independent targets. -/
  collectBatch : List Target → σ → List Step × σ
  /-- Whether the target may join an in-flight batch of the selected lookups. -/
  mayBatch : List Target → Target → σ → Bool × σ
  /-- Report a batch of the wrong number of results. -/
  onBatchContractError : ℕ → σ → σ
  /-- Whether the operator asked the crawl to stop. -/
  cancelled : σ → Bool × σ
  /-- Called after each wave of lookups is reduced into the crawl. -/
  progressed : CrawlProgress → σ → σ
  /-- Whole seconds since the Unix epoch. -/
  unixNow : σ → ℕ × σ

/-- The collector that performs one lookup at a time, always batches and is never stopped. -/
def SelectorCollector.sequential {σ : Type} (collect : Target → σ → Step × σ) :
    SelectorCollector σ where
  collectBatch targets s := targets.foldl (fun (steps, s) target ↦
    let (step, s) := collect target s
    (steps ++ [step], s)) ([], s)
  mayBatch _ _ s := (true, s)
  onBatchContractError _ s := s
  cancelled s := (false, s)
  progressed _ s := s
  unixNow s := (0, s)

/-- One wave: what was passed to the collector, what it returned, and what the crawl knew. -/
structure Wave where
  /-- The targets passed to the collector. -/
  targets : List Target
  /-- The steps it returned, as it returned them. -/
  returned : List Step
  /-- The keys queued for the next generation when the wave was dispatched. -/
  queued : Finset Key
  /-- The candidates turned away before the wave was dispatched. -/
  turnedAway : List Target

/-- The entities the lookups of a wave returned: those of the step of each of its targets. -/
def Wave.entities (wave : Wave) : List Entity :=
  (wave.targets.zip wave.returned).flatMap fun p ↦ p.2.entities

/-- The world and every wave so far, the first first. -/
structure Session (σ : Type) where
  outside : σ
  waves : List Wave

namespace Session

variable {σ : Type} (session : Session σ)

/-- The targets passed to the collector, in the order they were. -/
def dispatched : List Target := session.waves.flatMap Wave.targets

/-- Their keys. -/
def keys : List Key := session.dispatched.map Target.ownedKey

/-- The entities the lookups returned. -/
def entities : List Entity := session.waves.flatMap Wave.entities

end Session

/-- One missing lookup result is always an unsuccessful outcome. -/
def missingBatchStep (target : Target) (observedAt : ℕ) : Step where
  entities := []
  outcomes := [.inconclusive "recursion" observedAt ("collector omitted a " ++
    target.kind.command ++ " lookup result for " ++ target.selector)]

/-- Add an outcome to the last step, if there is one. -/
def pushOutcomeLast : List Step → SourceExecutionOutcome → List Step
  | [], _ => []
  | [last], outcome => [{ last with outcomes := last.outcomes ++ [outcome] }]
  | step :: rest, outcome => step :: pushOutcomeLast rest outcome

/-- Normalize the collector's response count: a missing lookup step or an unsolicited extra step is
a contract failure, never an empty success. -/
def normalizeBatch {σ : Type} (collector : SelectorCollector σ) (batch : List Target)
    (steps : List Step) (s : σ) : List Step × σ :=
  let missing := batch.length - steps.length
  let excess := steps.length - batch.length
  if missing = 0 ∧ excess = 0 then (steps, s)
  else
    let (observedAt, s) := collector.unixNow (collector.onBatchContractError (missing + excess) s)
    let kept := steps.take batch.length
    let whole := kept ++ (batch.drop kept.length).map fun target ↦
      missingBatchStep target observedAt
    if 0 < excess then
      (pushOutcomeLast whole (.inconclusive "recursion" observedAt ("collector returned " ++
        toString excess ++ " unsolicited results for a batch of " ++ toString batch.length ++
        " lookups")), s)
    else (whole, s)

/-- The targets of the routable seeds and the seeds that are not routable. -/
def acceptSeeds (R : Selectors) (seeds : List String) : List Target × List String :=
  (seeds.filterMap (targetForSeed R), seeds.filter fun seed ↦ (targetForSeed R seed).isNone)

/-! ## The state of a crawl -/

/-- The accumulating state of one crawl, threaded across generations. -/
structure CrawlState where
  visited : Finset Key := ∅
  /-- The highest confidence of any entity a queued target was followed from. -/
  followedAt : Key → Option F64 := fun _ ↦ none
  entities : List Entity := []
  edges : List PivotEdge := []
  outcomes : List SourceExecutionOutcome := []
  generations : List GenerationStat := []
  dispatches : ℕ := 0
  resourceLimited : Bool := false
  cancelled : Bool := false
  /-- The candidates a full generation had no room for, in the order they came. -/
  turnedAway : List Target := []

/-- The confidence a pivot lookup's entity is held at once its echo is forgotten. -/
def pivotHeldAt (entity : Entity) (followedAt : F64) : F64 :=
  if entity.evidence.any Evidence.isOperatorSeed then entity.confidence.min followedAt
  else entity.confidence

/-- How many observations the echoes among some records were, as a saturating `u32`. -/
def echoCount (evidence : List Evidence) : ℕ :=
  (evidence.filter Evidence.isOperatorSeed).foldl (fun count record ↦
    min (count + (1 + min record.mergedProvenance.length (2 ^ 32 - 1)) % 2 ^ 32) (2 ^ 32 - 1)) 0

/-- Forget a pivot lookup's echo of its selector, and say whether anything is left to keep. -/
def forgetPivotEcho (entity : Entity) (followedAt : F64) : Entity × Bool :=
  if entity.evidence.any Evidence.isOperatorSeed then
    let evidence := entity.evidence.filter fun record ↦ !record.isOperatorSeed
    ({ entity with
        evidence
        tags := entity.tags.filter (· ≠ "seed")
        confidence := pivotHeldAt entity followedAt
        corroboration := max (entity.corroboration - echoCount entity.evidence) 1 },
      !evidence.isEmpty)
  else (entity, true)

namespace CrawlState

/-- Put a key among those no later target is dispatched under. -/
def visit (self : CrawlState) (key : Key) : CrawlState :=
  { self with visited := insert key self.visited }

/-- Record that the operator asked the crawl to stop. -/
def cancel (self : CrawlState) : CrawlState := { self with cancelled := true }

/-- Record that a resource bound held work back. -/
def limit (self : CrawlState) : CrawlState := { self with resourceLimited := true }

/-- Whether a wave of `batch` targets has spent what is left of the budgets. -/
def spent (self : CrawlState) (policy : RecursionPolicy) (batch : ℕ) : Prop :=
  policy.maxDispatches ≤ self.dispatches + batch ∨ policy.maxEntities ≤ self.entities.length

instance (self : CrawlState) (policy : RecursionPolicy) (batch : ℕ) :
    Decidable (self.spent policy batch) :=
  inferInstanceAs (Decidable (_ ∨ _))

/-- Record that the target keyed `key` is followed from an entity held at `confidence`. -/
def followAt (self : CrawlState) (key : Key) (confidence : F64) : CrawlState :=
  { self with
    followedAt := Function.update self.followedAt key
      (some (((self.followedAt key).getD confidence).max confidence)) }

/-- Queue one candidate: skip it when it was dispatched or is queued already, and turn it away when
the next generation has no room for its kind. -/
def queueCandidate (policy : RecursionPolicy) (heldAt : F64) (s : CrawlState × Frontier)
    (candidate : Target) : CrawlState × Frontier :=
  let key := candidate.ownedKey
  if key ∈ s.1.visited then s
  else if s.2.containsKey key then (s.1.followAt key heldAt, s.2)
  else if s.2.fullFor candidate.kind.command policy.maxFrontierPerGeneration then
    ({ s.1 with resourceLimited := true, turnedAway := s.1.turnedAway ++ [candidate] }, s.2)
  else (s.1.followAt key heldAt, (s.2.push candidate).1)

variable (R : Selectors) (policy : RecursionPolicy)

/-- Queue the next-generation targets an entity held at `heldAt` contributes. -/
def queueExpansions (entity : Entity) (heldAt : F64) (s : CrawlState × Frontier) :
    CrawlState × Frontier :=
  (expansions R entity policy).foldl (queueCandidate policy heldAt) s

/-- Reduce one entity that the dispatch of `target` returned. -/
def takeEntity (generation : UInt32) (target : Target) (followedAt : Option F64)
    (s : CrawlState × Frontier) (returned : Entity) : CrawlState × Frontier :=
  let entity := { returned with generation }
  let edge : PivotEdge := {
    fromKind := target.kind.command
    fromSelector := target.selector
    toKind := entity.kind.asStr
    toValue := entity.value
    generation }
  let heldAt := match followedAt with
    | none => entity.confidence
    | some followedAt => pivotHeldAt entity followedAt
  let (self, next) := queueExpansions R policy entity heldAt
    ({ s.1 with edges := s.1.edges ++ [edge] }, s.2)
  match followedAt with
  | none => ({ self with entities := self.entities ++ [entity] }, next)
  | some followedAt =>
    let (entity, kept) := forgetPivotEcho entity followedAt
    if kept then ({ self with entities := self.entities ++ [entity] }, next) else (self, next)

/-- Reduce what one dispatch of `target` returned into the crawl: its outcomes, and each entity
with the edge it was reached by and the targets it queues.  Generation 0 is the operator's seeds;
every later target is a pivot, whose echo is not kept as the operator's seed. -/
def takeStep (generation : UInt32) (target : Target) (step : Step) (s : CrawlState × Frontier) :
    CrawlState × Frontier :=
  let followedAt := if 0 < generation then
    some ((s.1.followedAt target.ownedKey).getD policy.expandConfidenceFloor) else none
  step.entities.foldl (takeEntity R policy generation target followedAt)
    ({ s.1 with
        dispatches := s.1.dispatches + 1
        outcomes := s.1.outcomes ++ step.outcomes }, s.2)

/-- Reduce the steps of a wave, target by target. -/
def reduceBatch (generation : UInt32) :
    List Target → List Step → CrawlState × Frontier → CrawlState × Frontier
  | [], _, s => s
  | target :: batch, steps, s =>
    reduceBatch generation batch steps.tail
      (takeStep R policy generation target (steps.head?.getD (missingBatchStep target 0)) s)

end CrawlState

/-! ## One generation -/

/-- Small waves bound concurrency and let the entity budget be rechecked between waves. -/
def maxBatch : ℕ := 2

/-- The locals of one generation, and of the wave it is filling. -/
structure Locals (σ : Type) where
  state : CrawlState
  next : Frontier
  dispatched : ℕ
  stopped : Bool
  remaining : List Target
  /-- The targets of the wave being filled, none between two waves. -/
  batch : List Target
  session : Session σ

namespace Locals

variable {σ : Type}

/-- The collector answered a question, and its world is now `outside`. -/
def asked (l : Locals σ) (outside : σ) : Locals σ :=
  { l with session := { l.session with outside } }

/-- Go on with the targets after one that was dispatched before. -/
def skip (l : Locals σ) (rest : List Target) : Locals σ := { l with remaining := rest }

/-- Put `target` in the wave and go on with the ones after it. -/
def take (l : Locals σ) (target : Target) (rest : List Target) : Locals σ :=
  { l with
    state := l.state.visit target.ownedKey, batch := l.batch ++ [target], remaining := rest }

/-- Leave the generation, with the targets that remain as work for the next one. -/
def halt (l : Locals σ) : Locals σ :=
  { l with next := l.next.pushAll l.remaining, stopped := true, remaining := [] }

/-- Leave the generation because the operator asked to. -/
def cancel (l : Locals σ) : Locals σ := { l with state := l.state.cancel }.halt

/-- Leave the generation because a budget is spent before `target`. -/
def limit (l : Locals σ) (target : Target) : Locals σ :=
  { l with state := (l.state.visit target.ownedKey).limit }.halt

variable (R : Selectors) (policy : RecursionPolicy) (collector : SelectorCollector σ)

/-- Ask the collector whether to stop. -/
def cancelled (l : Locals σ) : Bool × Locals σ :=
  let (stop, outside) := collector.cancelled l.session.outside
  (stop, l.asked outside)

/-- Ask the collector whether `target` may join the wave. -/
def mayBatch (l : Locals σ) (target : Target) : Bool × Locals σ :=
  let (may, outside) := collector.mayBatch l.batch target l.session.outside
  (may, l.asked outside)

/-- The wave as the collector answers it. -/
def wave (l : Locals σ) : Wave where
  targets := l.batch
  returned := (collector.collectBatch l.batch l.session.outside).1
  queued := l.next.seen
  turnedAway := l.state.turnedAway

/-- Dispatch the wave, reduce what it returned and let the collector checkpoint it. -/
def fly (generation : UInt32) (l : Locals σ) : Locals σ :=
  let (returned, outside) := collector.collectBatch l.batch l.session.outside
  let (steps, outside) := normalizeBatch collector l.batch returned outside
  let (state, next) := CrawlState.reduceBatch R policy generation l.batch steps (l.state, l.next)
  let outside := collector.progressed
    { entities := state.entities, edges := state.edges, outcomes := state.outcomes, generation,
      dispatches := state.dispatches } outside
  { l with
    state, next, batch := []
    dispatched := l.dispatched + l.batch.length
    session := { outside, waves := l.session.waves ++ [l.wave collector] } }

end Locals

section Generation

variable {σ : Type} (R : Selectors) (policy : RecursionPolicy) (collector : SelectorCollector σ)

/-- Fill the wave from the targets that remain, which are those given.  A stop or a spent budget
leaves them as work for the next generation. -/
def fillBatch (l : Locals σ) : List Target → Locals σ
  | [] => l
  | candidate :: rest =>
    if l.batch.length < maxBatch then
      let (may, l) := l.mayBatch collector candidate
      if may then
        let (stop, l) := l.cancelled collector
        if stop then l.cancel
        else if candidate.ownedKey ∈ l.state.visited then fillBatch (l.skip rest) rest
        else if l.state.spent policy l.batch.length then l.limit candidate
        else fillBatch (l.take candidate rest) rest
      else l
    else l

/-- Dispatch a filled wave and record a stop requested meanwhile. -/
def dispatchWave (generation : UInt32) (l : Locals σ) : Locals σ :=
  let (stop, l) := (l.fly R policy collector generation).cancelled collector
  if stop then l.cancel else l

/-- One pass of a generation's loop: take the next target, check the stop and the budgets, and
dispatch the wave it begins. -/
def wavePass (generation : UInt32) (l : Locals σ) : Pass (Locals σ) (Locals σ) :=
  match l.remaining with
  | [] => .leave l
  | first :: rest =>
    let (stop, l) := l.cancelled collector
    if stop then .leave l.cancel
    else if first.ownedKey ∈ l.state.visited then .again (l.skip rest)
    else if l.state.spent policy 0 then .leave (l.limit first)
    else
      let after := dispatchWave R policy collector generation
        (fillBatch policy collector (l.take first rest) rest)
      if after.stopped then .leave after else .again after

end Generation

end Huntsman
