import Huntsman.Crawl.Reasons
import Huntsman.Merge.Entities

/-!
# Saving a scan while it runs

A saved scan is a crawl whose collector saves, after each wave, what the crawl has found so far.
`progressed` is that checkpoint.  It takes a wave for one that added nothing when the crawl has as
many entities and outcomes as at the last checkpoint that was saved, and then writes nothing.

Everything else that the collector does, its lookups in the first place, is a `SelectorCollector` of
its own, with a world of its own, which the checkpoints do not look into (`ScanService`).  In what
they do look at, the results of a scan are its entities, outcomes and edges; what is made from
these, the elements and correlations, is left out.
-/

set_option autoImplicit false

open Relation

namespace Huntsman

open List

/-! ## The results of a scan -/

structure ScanResults where
  scanId : String := ""
  text : String := ""
  entities : List Entity := []
  outcomes : List SourceExecutionOutcome := []
  lineage : List PivotEdge := []
  /-- Why the crawl stopped, or `none` while it runs. -/
  termination : Option TerminationReason := none

/-- The observations that are not kept yet, each once. -/
def newObservations : List EvidenceProvenance → List EvidenceProvenance → List EvidenceProvenance
  | _, [] => []
  | kept, o :: rest =>
    if o ∈ kept then newObservations kept rest else o :: newObservations (kept ++ [o]) rest

/-- A record under a scan's id. -/
def Evidence.stampScanId (id : String) (evidence : Evidence) : Evidence :=
  let provenance := { evidence.provenance with scanId := some id }
  { evidence with
    provenance
    mergedProvenance := newObservations [provenance]
      (evidence.mergedProvenance.map fun o ↦ { o with scanId := some id }) }

/-- Every observation saved under a scan's id is the scan's. -/
def Entity.stampScanId (id : String) (entity : Entity) : Entity :=
  { entity with scanId := id, evidence := entity.evidence.map (Evidence.stampScanId id) }

/-! ## Checkpoints -/

/-- What a checkpoint came to. -/
inductive Answer where
  /-- Nothing is written for a wave that is taken to have added nothing. -/
  | skipped
  | saved
  /-- The results are written and the scan's row is not. -/
  | rowFailed
  | failed
deriving DecidableEq

/-- A checkpoint: what it was told, what it came to, and the results that are saved after it. -/
structure Check where
  progress : CrawlProgress
  answer : Answer
  results : ScanResults

/-- How many entities and outcomes the crawl holds. -/
def CrawlProgress.seen (progress : CrawlProgress) : ℕ × ℕ :=
  (progress.entities.length, progress.outcomes.length)

/-- The service a scan runs in. -/
structure ScanService (σ : Type) where
  id : String
  /-- The collector, but for its checkpoints. -/
  lookups : SelectorCollector σ
  /-- The reports of its lookups so far. -/
  text : σ → String
  /-- Write a scan's results, and say whether they are written. -/
  saveResults : ScanResults → σ → Bool × σ
  /-- Bring the scan's row up to date, and say whether it is. -/
  updateRow : ScanResults → σ → Bool × σ
  /-- Log that a checkpoint is not saved. -/
  warn : CrawlProgress → σ → σ

/-- The world of a scan's collector. -/
structure ScanState (σ : Type) where
  outside : σ
  /-- How many entities and outcomes the last checkpoint saved. -/
  checkpointed : ℕ × ℕ := (0, 0)
  /-- The results the store has of the scan. -/
  results : ScanResults := {}
  checks : List Check := []

namespace ScanService

variable {σ : Type} (R : Selectors) (service : ScanService σ)

/-- What there is to save of a crawl. -/
def found (progress : CrawlProgress) (text : String) : ScanResults where
  scanId := service.id
  text
  entities := (mergeByUid R.parsesAsJson progress.entities).map (Entity.stampScanId service.id)
  outcomes := progress.outcomes
  lineage := progress.edges

/-- Save a scan's results and bring its row up to date. -/
def save (found : ScanResults) (s : ScanState σ) : Answer × ScanState σ :=
  let (written, outside) := service.saveResults found s.outside
  if written then
    let (updated, outside) := service.updateRow found outside
    (if updated then .saved else .rowFailed, { s with outside, results := found })
  else (.failed, { s with outside })

/-- Put a checkpoint on record. -/
def record (progress : CrawlProgress) (answer : Answer) (s : ScanState σ) : ScanState σ :=
  { s with checks := s.checks ++ [⟨progress, answer, s.results⟩] }

/-- Save what the crawl has found so far, unless the wave added nothing. -/
def progressed (progress : CrawlProgress) (s : ScanState σ) : ScanState σ :=
  if progress.seen = s.checkpointed then record progress .skipped s
  else
    let (answer, s) := service.save (service.found R progress (service.text s.outside)) s
    if answer = .saved then record progress answer { s with checkpointed := progress.seen }
    else record progress answer { s with outside := service.warn progress s.outside }

/-- The collector of a scan. -/
def collector : SelectorCollector (ScanState σ) where
  collectBatch targets s :=
    let (steps, outside) := service.lookups.collectBatch targets s.outside
    (steps, { s with outside })
  mayBatch batch target s :=
    let (may, outside) := service.lookups.mayBatch batch target s.outside
    (may, { s with outside })
  onBatchContractError violations s :=
    { s with outside := service.lookups.onBatchContractError violations s.outside }
  cancelled s :=
    let (stop, outside) := service.lookups.cancelled s.outside
    (stop, { s with outside })
  progressed := service.progressed R
  unixNow s :=
    let (now, outside) := service.lookups.unixNow s.outside
    (now, { s with outside })

end ScanService

/-! ## What a wave adds -/

/-- The edge leads from what the target was looked up as. -/
def PivotEdge.From (edge : PivotEdge) (t : Target) : Prop :=
  edge.fromKind = t.kind.command ∧ edge.fromSelector = t.selector

theorem PivotEdge.From.key {edge : PivotEdge} {t t' : Target} (h : edge.From t) (h' : edge.From t') :
    t.ownedKey = t'.ownedKey := by
  have hkind := ScanKind.command_injective (h.1.symm.trans h'.1)
  have hselector := h.2.symm.trans h'.2
  obtain ⟨kind, selector⟩ := t
  obtain ⟨kind', selector'⟩ := t'
  obtain rfl : kind = kind' := hkind
  obtain rfl : selector = selector' := hselector
  rfl

namespace CrawlState

variable (R : Selectors) (policy : RecursionPolicy)

/-- The edge by which a dispatch led to an entity. -/
def edgeTo (generation : UInt32) (target : Target) (entity : Entity) : PivotEdge where
  fromKind := target.kind.command
  fromSelector := target.selector
  toKind := entity.kind.asStr
  toValue := entity.value
  generation

theorem queueCandidate_found (heldAt : F64) (s : CrawlState × Frontier) (candidate : Target) :
    (queueCandidate policy heldAt s candidate).1.edges = s.1.edges ∧
      (queueCandidate policy heldAt s candidate).1.outcomes = s.1.outcomes ∧
      (queueCandidate policy heldAt s candidate).1.entities = s.1.entities := by
  simp only [queueCandidate]
  split
  · exact ⟨rfl, rfl, rfl⟩
  split
  · exact ⟨rfl, rfl, rfl⟩
  split
  · exact ⟨rfl, rfl, rfl⟩
  · exact ⟨rfl, rfl, rfl⟩

theorem queueExpansions_found (entity : Entity) (heldAt : F64) (s : CrawlState × Frontier) :
    (queueExpansions R policy entity heldAt s).1.edges = s.1.edges ∧
      (queueExpansions R policy entity heldAt s).1.outcomes = s.1.outcomes ∧
      (queueExpansions R policy entity heldAt s).1.entities = s.1.entities := by
  rw [queueExpansions]
  generalize expansions R entity policy = candidates
  induction candidates generalizing s with
  | nil => exact ⟨rfl, rfl, rfl⟩
  | cons candidate candidates ih =>
    rw [foldl_cons]
    obtain ⟨hedges, houtcomes, hentities⟩ := ih (queueCandidate policy heldAt s candidate)
    obtain ⟨hedges', houtcomes', hentities'⟩ := queueCandidate_found policy heldAt s candidate
    exact ⟨hedges.trans hedges', houtcomes.trans houtcomes', hentities.trans hentities'⟩

theorem takeEntity_found (generation : UInt32) (target : Target) (followedAt : Option F64)
    (s : CrawlState × Frontier) (entity : Entity) :
    (takeEntity R policy generation target followedAt s entity).1.edges =
        s.1.edges ++ [edgeTo generation target entity] ∧
      (takeEntity R policy generation target followedAt s entity).1.outcomes = s.1.outcomes := by
  have hqueue := fun heldAt ↦ queueExpansions_found R policy { entity with generation } heldAt
    ({ s.1 with edges := s.1.edges ++ [edgeTo generation target entity] }, s.2)
  simp only [takeEntity]
  cases followedAt with
  | none => exact ⟨(hqueue _).1, (hqueue _).2.1⟩
  | some held =>
    by_cases hkept : (forgetPivotEcho { entity with generation } held).2 = true
    · simp only [hkept, if_true]
      exact ⟨(hqueue _).1, (hqueue _).2.1⟩
    · simp only [hkept, Bool.false_eq_true, if_false]
      exact ⟨(hqueue _).1, (hqueue _).2.1⟩

theorem foldl_takeEntity_found (generation : UInt32) (target : Target) (followedAt : Option F64)
    (entities : List Entity) (s : CrawlState × Frontier) :
    (entities.foldl (takeEntity R policy generation target followedAt) s).1.edges =
        s.1.edges ++ entities.map (edgeTo generation target) ∧
      (entities.foldl (takeEntity R policy generation target followedAt) s).1.outcomes =
        s.1.outcomes := by
  induction entities generalizing s with
  | nil => exact ⟨(append_nil _).symm, rfl⟩
  | cons entity entities ih =>
    rw [foldl_cons]
    obtain ⟨hedges, houtcomes⟩ := ih (takeEntity R policy generation target followedAt s entity)
    obtain ⟨hedges', houtcomes'⟩ := takeEntity_found R policy generation target followedAt s entity
    refine ⟨?_, houtcomes.trans houtcomes'⟩
    rw [hedges, hedges', append_assoc]
    rfl

theorem takeStep_found (generation : UInt32) (target : Target) (step : Step)
    (s : CrawlState × Frontier) :
    (takeStep R policy generation target step s).1.edges =
        s.1.edges ++ step.entities.map (edgeTo generation target) ∧
      (takeStep R policy generation target step s).1.outcomes = s.1.outcomes ++ step.outcomes ∧
      (step.entities = [] → (takeStep R policy generation target step s).1.entities =
        s.1.entities) := by
  obtain ⟨hedges, houtcomes⟩ := foldl_takeEntity_found R policy generation target
    (if 0 < generation then
      some ((s.1.followedAt target.ownedKey).getD policy.expandConfidenceFloor) else none)
    step.entities
    ({ s.1 with
        dispatches := s.1.dispatches + 1
        outcomes := s.1.outcomes ++ step.outcomes }, s.2)
  refine ⟨hedges, houtcomes, fun hnone ↦ ?_⟩
  rw [takeStep, hnone]
  rfl

/-- **What a wave adds to what the crawl found**: an edge for each entity that was returned, and
outcomes. -/
theorem reduceBatch_found (generation : UInt32) (batch : List Target) (steps : List Step)
    (s : CrawlState × Frontier) :
    (reduceBatch R policy generation batch steps s).1.edges =
        s.1.edges ++ (batch.zip steps).flatMap (fun p ↦ p.2.entities.map (edgeTo generation p.1)) ∧
      s.1.outcomes <+: (reduceBatch R policy generation batch steps s).1.outcomes ∧
      ((batch.zip steps).flatMap (fun p ↦ p.2.entities) = [] →
        (reduceBatch R policy generation batch steps s).1.entities = s.1.entities) := by
  induction batch generalizing steps s with
  | nil => exact ⟨(append_nil _).symm, prefix_rfl, fun _ ↦ rfl⟩
  | cons target batch ih =>
    cases steps with
    | nil =>
      obtain ⟨hedges, houtcomes, hentities⟩ :=
        ih [] (takeStep R policy generation target (missingBatchStep target 0) s)
      obtain ⟨hedges', houtcomes', hentities'⟩ :=
        takeStep_found R policy generation target (missingBatchStep target 0) s
      refine ⟨?_, (houtcomes' ▸ prefix_append _ _).trans houtcomes, fun _ ↦ ?_⟩
      · rw [reduceBatch, tail_nil, head?_nil, Option.getD_none, hedges, hedges']
        simp [missingBatchStep]
      · exact (hentities (by simp)).trans (hentities' rfl)
    | cons step steps =>
      obtain ⟨hedges, houtcomes, hentities⟩ := ih steps (takeStep R policy generation target step s)
      obtain ⟨hedges', houtcomes', hentities'⟩ := takeStep_found R policy generation target step s
      refine ⟨?_, (houtcomes' ▸ prefix_append _ _).trans houtcomes, fun hnone ↦ ?_⟩
      · rw [reduceBatch, tail_cons, head?_cons, Option.getD_some, hedges, hedges',
          append_assoc, zip_cons_cons, flatMap_cons]
      · rw [zip_cons_cons, flatMap_cons, append_eq_nil_iff] at hnone
        exact (hentities hnone.2).trans (hentities' hnone.1)

end CrawlState

section Fly

variable {σ : Type} (R : Selectors) (policy : RecursionPolicy) (collector : SelectorCollector σ)
  (generation : UInt32)

/-- What a wave adds, said of the lookups it made. -/
structure Adds (l after : Locals σ) : Prop where
  edges : l.state.edges <+: after.state.edges
  outcomes : l.state.outcomes <+: after.state.outcomes
  /-- A new edge is from a target of the wave. -/
  sources : ∀ d ∈ after.state.edges, d ∈ l.state.edges ∨ ∃ t ∈ l.batch, d.From t
  /-- A wave that returned an entity has an edge. -/
  led : (l.wave collector).entities ≠ [] → ∃ d ∈ after.state.edges, ∃ t ∈ l.batch, d.From t
  /-- A wave that returned none adds none. -/
  idle : (l.wave collector).entities = [] →
    after.state.edges = l.state.edges ∧ after.state.entities = l.state.entities

theorem fly_adds (l : Locals σ) : Adds collector l (l.fly R policy collector generation) := by
  have hreturned := entities_normalizeBatch collector l.batch
    (collector.collectBatch l.batch l.session.outside).1
    (collector.collectBatch l.batch l.session.outside).2
  obtain ⟨hedges, houtcomes, hentities⟩ := CrawlState.reduceBatch_found R policy generation l.batch
    (normalizeBatch collector l.batch (collector.collectBatch l.batch l.session.outside).1
      (collector.collectBatch l.batch l.session.outside).2).1 (l.state, l.next)
  have hwave : (l.wave collector).entities = (l.batch.zip (normalizeBatch collector l.batch
      (collector.collectBatch l.batch l.session.outside).1
      (collector.collectBatch l.batch l.session.outside).2).1).flatMap fun p ↦ p.2.entities :=
    hreturned.symm
  rw [← hwave] at hentities
  change (l.fly R policy collector generation).state.edges = l.state.edges ++ _ at hedges
  generalize (normalizeBatch collector l.batch (collector.collectBatch l.batch l.session.outside).1
      (collector.collectBatch l.batch l.session.outside).2).1 = steps at hedges hwave
  have hfrom : ∀ d ∈ (l.batch.zip steps).flatMap
      (fun p ↦ p.2.entities.map (CrawlState.edgeTo generation p.1)), ∃ t ∈ l.batch, d.From t := by
    intro d hd
    obtain ⟨⟨t, step⟩, hp, hd⟩ := mem_flatMap.1 hd
    obtain ⟨entity, -, rfl⟩ := mem_map.1 hd
    exact ⟨t, (of_mem_zip hp).1, rfl, rfl⟩
  refine ⟨hedges ▸ prefix_append _ _, houtcomes, fun d hd ↦ ?_, fun hsome ↦ ?_, fun hnone ↦ ?_⟩
  · rw [hedges, mem_append] at hd
    exact hd.imp_right (hfrom d)
  · rw [hwave] at hsome
    obtain ⟨entity, hentity⟩ := exists_mem_of_ne_nil _ hsome
    obtain ⟨⟨t, step⟩, hp, hentity⟩ := mem_flatMap.1 hentity
    refine ⟨CrawlState.edgeTo generation t entity, ?_, t, (of_mem_zip hp).1, rfl, rfl⟩
    rw [hedges]
    refine mem_append_right _ (mem_flatMap.2 ⟨(t, step), hp, ?_⟩)
    exact mem_map_of_mem hentity
  · refine ⟨?_, hentities hnone⟩
    rw [hwave, flatMap_eq_nil_iff] at hnone
    rw [hedges, append_right_eq_self, flatMap_eq_nil_iff]
    exact fun p hp ↦ map_eq_nil_iff.2 (hnone p hp)

end Fly

/-! ## What a checkpoint does -/

/-- A wave and the checkpoint after it. -/
abbrev Passed := Wave × Check

namespace Passed

/-- Whether the checkpoint wrote the results. -/
def written (p : Passed) : Bool := decide (p.2.answer = .saved ∨ p.2.answer = .rowFailed)

/-- How many entities and outcomes the crawl held at the last checkpoint that was saved. -/
def lastSeen (before : List Passed) : ℕ × ℕ :=
  ((before.reverse.find? fun p ↦ decide (p.2.answer = .saved)).map fun p ↦ p.2.progress.seen).getD
    (0, 0)

/-- The waves since results were written, the last first. -/
def unwritten (before : List Passed) : List Passed :=
  before.reverse.takeWhile fun p ↦ !written p

theorem lastSeen_concat (before : List Passed) (p : Passed) :
    lastSeen (before ++ [p]) =
      if p.2.answer = .saved then p.2.progress.seen else lastSeen before := by
  rw [lastSeen, reverse_append, reverse_singleton, singleton_append, find?_cons]
  by_cases h : p.2.answer = .saved
  · simp [h]
  · simp [h, lastSeen]

theorem unwritten_concat (before : List Passed) (p : Passed) :
    unwritten (before ++ [p]) = if written p then [] else p :: unwritten before := by
  rw [unwritten, reverse_append, reverse_singleton, singleton_append,
    takeWhile_cons]
  cases written p <;> rfl

end Passed

namespace ScanService

variable {σ : Type} (R : Selectors) (service : ScanService σ)

/-- A checkpoint, as it is put on record. -/
structure Checked (progress : CrawlProgress) (answer : Answer) (s s' : ScanState σ) : Prop where
  skipped : answer = .skipped ↔ progress.seen = s.checkpointed
  checks : s'.checks = s.checks ++ [⟨progress, answer, s'.results⟩]
  checkpointed : s'.checkpointed = if answer = .saved then progress.seen else s.checkpointed
  results : if answer = .saved ∨ answer = .rowFailed then
    ∃ text, s'.results = service.found R progress text else s'.results = s.results

theorem save_cases (found : ScanResults) (s : ScanState σ) :
    ((service.save found s).1 = .saved ∨ (service.save found s).1 = .rowFailed) ∧
        (service.save found s).2.results = found ∨
      (service.save found s).1 = .failed ∧ (service.save found s).2.results = s.results := by
  simp only [save]
  split
  · refine .inl ⟨?_, rfl⟩
    split
    · exact .inl rfl
    · exact .inr rfl
  · exact .inr ⟨rfl, rfl⟩

theorem save_frame (found : ScanResults) (s : ScanState σ) :
    (service.save found s).2.checkpointed = s.checkpointed ∧
      (service.save found s).2.checks = s.checks := by
  simp only [save]
  split
  · exact ⟨rfl, rfl⟩
  · exact ⟨rfl, rfl⟩

theorem progressed_checked (progress : CrawlProgress) (s : ScanState σ) :
    ∃ answer, Checked R service progress answer s (service.progressed R progress s) := by
  rw [progressed]
  by_cases hseen : progress.seen = s.checkpointed
  · rw [if_pos hseen]
    exact ⟨.skipped, by simp [hseen], rfl, rfl, rfl⟩
  rw [if_neg hseen]
  obtain ⟨hcounted, hchecks⟩ := service.save_frame (service.found R progress (service.text s.outside)) s
  have hcases := service.save_cases (service.found R progress (service.text s.outside)) s
  generalize service.save (service.found R progress (service.text s.outside)) s = saved at *
  obtain ⟨answer, s'⟩ := saved
  simp only at hcounted hchecks hcases ⊢
  refine ⟨answer, ?_⟩
  rcases hcases with ⟨rfl | rfl, hresults⟩ | ⟨rfl, hresults⟩
  · rw [if_pos rfl]
    exact ⟨by simp [hseen], by rw [record, hchecks], by simp [record], by simpa using ⟨_, hresults⟩⟩
  · rw [if_neg (by decide)]
    exact ⟨by simp [hseen], by rw [record, hchecks], hcounted, by simpa using ⟨_, hresults⟩⟩
  · rw [if_neg (by decide)]
    exact ⟨by simp [hseen], by rw [record, hchecks], hcounted, by simpa [record] using hresults⟩

/-- What a scan's lookups do not touch. -/
structure Untouched (s s' : ScanState σ) : Prop where
  checkpointed : s'.checkpointed = s.checkpointed
  results : s'.results = s.results
  checks : s'.checks = s.checks

theorem told_untouched {s s' : ScanState σ} (h : Told (service.collector R) s s') :
    Untouched s s' := by
  cases h with
  | same => exact ⟨rfl, rfl, rfl⟩
  | may batch target => exact ⟨rfl, rfl, rfl⟩
  | stop => exact ⟨rfl, rfl, rfl⟩

theorem Checked.of_untouched {progress : CrawlProgress} {answer : Answer} {s₀ s s' : ScanState σ}
    (h : Checked R service progress answer s s') (hsame : Untouched s₀ s) :
    Checked R service progress answer s₀ s' := by
  obtain ⟨hskipped, hchecks, hcheckpointed, hresults⟩ := h
  rw [hsame.checkpointed] at hskipped hcheckpointed
  rw [hsame.checks] at hchecks
  rw [hsame.results] at hresults
  exact ⟨hskipped, hchecks, hcheckpointed, hresults⟩

/-- Collecting a wave and normalizing what it returned. -/
theorem normalizeBatch_untouched (batch : List Target) (s : ScanState σ) :
    Untouched s (normalizeBatch (service.collector R) batch
      ((service.collector R).collectBatch batch s).1
      ((service.collector R).collectBatch batch s).2).2 := by
  simp only [normalizeBatch]
  split
  · exact ⟨rfl, rfl, rfl⟩
  split
  · exact ⟨rfl, rfl, rfl⟩
  · exact ⟨rfl, rfl, rfl⟩

end ScanService

/-! ## What is saved of a crawl -/

/-- The results hold everything the crawl holds: its entities, those of one uid merged, its outcomes
and its edges. -/
structure ScanResults.Hold (R : Selectors) (id : String) (results : ScanResults)
    (progress : CrawlProgress) : Prop where
  entities : results.entities =
    (mergeByUid R.parsesAsJson progress.entities).map (Entity.stampScanId id)
  outcomes : ∀ o ∈ progress.outcomes, o ∈ results.outcomes
  edges : ∀ d ∈ progress.edges, d ∈ results.lineage

/-- A checkpoint that was saved, or skipped, leaves results that hold everything. -/
def Check.Kept (R : Selectors) (id : String) (check : Check) : Prop :=
  check.answer = .saved ∨ check.answer = .skipped → check.results.Hold R id check.progress

/-- When the crawl has as many entities and outcomes as at the last checkpoint that was saved, no
lookup has returned an entity since results were written. -/
def Passed.Unchanged (before : List Passed) (p : Passed) : Prop :=
  p.2.progress.seen = Passed.lastSeen before →
    ∀ q ∈ p :: Passed.unwritten before, q.1.entities = []

section Recorded

variable {σ : Type} (R : Selectors) (service : ScanService σ)

/-- The waves of a scan, each with its checkpoint. -/
def Session.passed (session : Session (ScanState σ)) : List Passed :=
  session.waves.zip session.outside.checks

/-- What the results have of a crawl, where `unwritten` are the waves since they were written and
`checkpointed` is what was seen at the last checkpoint that was saved. -/
structure Behind (state : CrawlState) (results : ScanResults) (checkpointed : ℕ × ℕ)
    (unwritten : List Passed) : Prop where
  /-- The results are of an earlier state of the crawl. -/
  outcomes : results.outcomes <+: state.outcomes
  edges : results.lineage <+: state.edges
  later : checkpointed.2 ≤ results.outcomes.length
  /-- While no lookup returns an entity, the results are of this state. -/
  idle : (∀ q ∈ unwritten, q.1.entities = []) →
    results.entities =
        (mergeByUid R.parsesAsJson state.entities).map (Entity.stampScanId service.id) ∧
      results.lineage = state.edges
  /-- A wave that returned an entity has an edge, which is not in the results. -/
  led : ∀ q ∈ unwritten, q.1.entities ≠ [] → ∃ d ∈ state.edges, ∃ t ∈ q.1.targets, d.From t
  apart : ∀ d ∈ results.lineage, ∀ q ∈ unwritten, ∀ t ∈ q.1.targets, ¬ d.From t

/-- What holds of the crawl and of the record of its checkpoints, between two waves. -/
structure Recorded (state : CrawlState) (session : Session (ScanState σ)) : Prop where
  length : session.waves.length = session.outside.checks.length
  counted : session.outside.checkpointed = Passed.lastSeen session.passed
  /-- Every checkpoint so far kept everything if and only if nothing had changed where it was
  skipped. -/
  kept : ∀ before p, before ++ [p] <+: session.passed →
    (p.2.Kept R service.id ↔ Passed.Unchanged before p)
  /-- Every edge is from a target that was dispatched. -/
  sources : ∀ d ∈ state.edges, ∃ t ∈ session.dispatched, d.From t
  behind : Behind R service state session.outside.results session.outside.checkpointed
    (Passed.unwritten session.passed)

variable {R service} {state : CrawlState}

namespace Behind

variable {results : ScanResults} {checkpointed : ℕ × ℕ} {unwritten : List Passed}

/-- Only what was found matters. -/
theorem congr (h : Behind R service state results checkpointed unwritten) {state' : CrawlState}
    (hentities : state'.entities = state.entities) (hedges : state'.edges = state.edges)
    (houtcomes : state'.outcomes = state.outcomes) :
    Behind R service state' results checkpointed unwritten := by
  constructor
  · rw [houtcomes]
    exact h.outcomes
  · rw [hedges]
    exact h.edges
  · exact h.later
  · rw [hentities, hedges]
    exact h.idle
  · rw [hedges]
    exact h.led
  · exact h.apart

/-- The end of a generation merges entities that the results hold merged. -/
theorem close (h : Behind R service state results checkpointed unwritten) (generation : UInt32)
    (dispatched : ℕ) :
    Behind R service (state.close R generation dispatched) results checkpointed unwritten := by
  refine ⟨h.outcomes, h.edges, h.later, fun hnone ↦ ?_, h.led, h.apart⟩
  obtain ⟨hentities, hedges⟩ := h.idle hnone
  refine ⟨?_, hedges⟩
  rw [hentities]
  exact congrArg (map _) (mergeByUid_mergeByUid _ _).symm

/-- Results that were just written. -/
theorem written {progress : CrawlProgress} {text : String}
    (hentities : progress.entities = state.entities) (hedges : progress.edges = state.edges)
    (houtcomes : progress.outcomes = state.outcomes)
    (hlater : checkpointed.2 ≤ progress.outcomes.length) :
    Behind R service state (service.found R progress text) checkpointed [] where
  outcomes := houtcomes ▸ prefix_rfl
  edges := hedges ▸ prefix_rfl
  later := hlater
  idle := fun _ ↦ ⟨by rw [ScanService.found, hentities], hedges⟩
  led := nofun
  apart := fun d _ q hq ↦ absurd hq not_mem_nil

/-- Results that fall behind by one more wave. -/
theorem pass {l after : Locals (ScanState σ)} {collector : SelectorCollector (ScanState σ)}
    (h : Behind R service l.state results checkpointed unwritten) (hadds : Adds collector l after)
    (hapart : ∀ d ∈ l.state.edges, ∀ t ∈ l.batch, ¬ d.From t) (check : Check) :
    Behind R service after.state results checkpointed ((l.wave collector, check) :: unwritten) := by
  refine ⟨h.outcomes.trans hadds.outcomes, h.edges.trans hadds.edges, h.later, fun hnone ↦ ?_, ?_,
    fun d hd ↦ ?_⟩
  · obtain ⟨hwave, hrest⟩ := forall_mem_cons.1 hnone
    obtain ⟨hedges, hentities⟩ := hadds.idle hwave
    rw [hedges, hentities]
    exact h.idle hrest
  · refine forall_mem_cons.2 ⟨hadds.led, fun q hq hsome ↦ ?_⟩
    obtain ⟨d, hd, hfrom⟩ := h.led q hq hsome
    exact ⟨d, hadds.edges.subset hd, hfrom⟩
  · exact forall_mem_cons.2 ⟨hapart d (h.edges.subset hd), h.apart d hd⟩

end Behind

namespace Recorded

variable {session : Session (ScanState σ)}

/-- What does not change what was found or recorded does not matter. -/
theorem congr (h : Recorded R service state session) {state' : CrawlState}
    {session' : Session (ScanState σ)} (hentities : state'.entities = state.entities)
    (hedges : state'.edges = state.edges) (houtcomes : state'.outcomes = state.outcomes)
    (hwaves : session'.waves = session.waves)
    (hsame : ScanService.Untouched session.outside session'.outside) :
    Recorded R service state' session' := by
  have hpassed : session'.passed = session.passed := by
    rw [Session.passed, Session.passed, hwaves, hsame.checks]
  have hdispatched : session'.dispatched = session.dispatched := by
    rw [Session.dispatched, Session.dispatched, hwaves]
  constructor
  · rw [hwaves, hsame.checks]
    exact h.length
  · rw [hsame.checkpointed, hpassed]
    exact h.counted
  · rw [hpassed]
    exact h.kept
  · rw [hedges, hdispatched]
    exact h.sources
  · rw [hsame.results, hsame.checkpointed, hpassed]
    exact h.behind.congr hentities hedges houtcomes

theorem close (h : Recorded R service state session) (generation : UInt32) (dispatched : ℕ) :
    Recorded R service (state.close R generation dispatched) session :=
  ⟨h.length, h.counted, h.kept, h.sources, h.behind.close generation dispatched⟩

theorem init (outside : σ) : Recorded R service {} { outside := { outside }, waves := [] } where
  length := rfl
  counted := rfl
  kept := fun before p hp ↦ absurd (prefix_nil.1 hp) (by simp)
  sources := nofun
  behind := {
    outcomes := prefix_rfl
    edges := prefix_rfl
    later := le_rfl
    idle := fun _ ↦ ⟨rfl, rfl⟩
    led := nofun
    apart := nofun }

/-- **A checkpoint keeps everything if and only if nothing had changed where it is skipped.** -/
theorem kept_iff {l after : Locals (ScanState σ)} {collector : SelectorCollector (ScanState σ)}
    (h : Recorded R service l.state l.session) {progress : CrawlProgress} {answer : Answer}
    (hchecked : ScanService.Checked R service progress answer l.session.outside
      after.session.outside)
    (hadds : Adds collector l after) (hentities : progress.entities = after.state.entities)
    (hedges : progress.edges = after.state.edges)
    (houtcomes : progress.outcomes = after.state.outcomes)
    (hapart : ∀ d ∈ l.state.edges, ∀ t ∈ l.batch, ¬ d.From t) :
    Check.Kept R service.id ⟨progress, answer, after.session.outside.results⟩ ↔
      Passed.Unchanged l.session.passed
        (l.wave collector, ⟨progress, answer, after.session.outside.results⟩) := by
  have hresults := hchecked.results
  by_cases hseen : progress.seen = l.session.outside.checkpointed
  · obtain rfl := hchecked.skipped.2 hseen
    rw [if_neg (by decide)] at hresults
    have hpass := h.behind.pass hadds hapart ⟨progress, .skipped, after.session.outside.results⟩
    rw [← hresults] at hpass
    constructor
    · intro hkept _ q hq
      have hhold := (hkept (.inr rfl)).edges
      by_contra hsome
      obtain ⟨d, hd, t, ht, hfrom⟩ := hpass.led q hq hsome
      exact hpass.apart d (hhold d (hedges ▸ hd)) q hq t ht hfrom
    · intro hunchanged _
      obtain ⟨hsame, hlineage⟩ := hpass.idle (hunchanged (hseen.trans h.counted))
      -- no outcome came either, as there are as many as when a checkpoint was saved
      have hmany : after.state.outcomes.length ≤ after.session.outside.results.outcomes.length := by
        refine Nat.le_trans (Nat.le_of_eq ?_) hpass.later
        rw [← hseen, CrawlProgress.seen, houtcomes]
      have hall := hpass.outcomes.eq_of_length_le hmany
      refine ⟨hentities ▸ hsame, fun o ho ↦ ?_, fun d hd ↦ ?_⟩
      · exact hall ▸ houtcomes ▸ ho
      · exact hlineage ▸ hedges ▸ hd
  · refine ⟨fun _ heq ↦ absurd (heq.trans h.counted.symm) hseen, fun _ hanswer ↦ ?_⟩
    rcases hanswer with hanswer | hanswer
    · obtain rfl : answer = .saved := hanswer
      rw [if_pos (.inl rfl)] at hresults
      obtain ⟨text, hresults⟩ := hresults
      simp only [hresults]
      exact ⟨rfl, fun o ho ↦ ho, fun d hd ↦ hd⟩
    · exact absurd (hchecked.skipped.1 hanswer) hseen

/-- **A wave and its checkpoint keep the record.** -/
theorem fly {policy : RecursionPolicy} {generation : UInt32} {l : Locals (ScanState σ)}
    (h : Recorded R service l.state l.session) (hkeys : l.taken.Nodup) :
    Recorded R service (l.fly R policy (service.collector R) generation).state
      (l.fly R policy (service.collector R) generation).session := by
  have hadds := fly_adds R policy (service.collector R) generation l
  have hsame := ScanService.normalizeBatch_untouched R service l.batch l.session.outside
  set after := l.fly R policy (service.collector R) generation
  let progress : CrawlProgress := {
    entities := after.state.entities, edges := after.state.edges, outcomes := after.state.outcomes,
    generation, dispatches := after.state.dispatches }
  obtain ⟨answer, hchecked⟩ := ScanService.progressed_checked R service progress
    (normalizeBatch (service.collector R) l.batch
      ((service.collector R).collectBatch l.batch l.session.outside).1
      ((service.collector R).collectBatch l.batch l.session.outside).2).2
  have hchecked : ScanService.Checked R service progress answer l.session.outside
      after.session.outside := hchecked.of_untouched R service hsame
  have hwaves : after.session.waves = l.session.waves ++ [l.wave (service.collector R)] := rfl
  have hpassed : after.session.passed = l.session.passed ++ [(l.wave (service.collector R),
      ⟨progress, answer, after.session.outside.results⟩)] := by
    rw [Session.passed, hwaves, hchecked.checks, zip_append h.length]
    rfl
  have hdispatched : after.session.dispatched = l.session.dispatched ++ l.batch := by
    rw [Session.dispatched, hwaves, flatMap_append, flatMap_singleton]
    rfl
  -- The targets of the wave are new, and so are its edges.
  have hapart : ∀ d ∈ l.state.edges, ∀ t ∈ l.batch, ¬ d.From t := by
    intro d hd t ht hfrom
    obtain ⟨t₀, ht₀, hfrom₀⟩ := h.sources d hd
    refine (nodup_append.1 hkeys).2.2 _ (mem_map_of_mem ht₀) _ (mem_map_of_mem ht) ?_
    exact hfrom₀.key hfrom
  constructor
  · rw [hwaves, hchecked.checks, length_append, length_append, h.length]
    rfl
  · rw [hchecked.checkpointed, hpassed, Passed.lastSeen_concat, h.counted]
  · intro before p hp
    rw [hpassed, prefix_concat_iff] at hp
    rcases hp with hp | hp
    · obtain ⟨rfl, hone⟩ := append_inj' hp rfl
      obtain rfl := singleton_inj.1 hone
      exact h.kept_iff hchecked hadds rfl rfl rfl hapart
    · exact h.kept before p hp
  · intro d hd
    rw [hdispatched]
    rcases hadds.sources d hd with hd | ⟨t, ht, hfrom⟩
    · obtain ⟨t, ht, hfrom⟩ := h.sources d hd
      exact ⟨t, mem_append_left _ ht, hfrom⟩
    · exact ⟨t, mem_append_right _ ht, hfrom⟩
  · have hresults := hchecked.results
    rw [hpassed, Passed.unwritten_concat, hchecked.checkpointed]
    have hentities : progress.entities = after.state.entities := rfl
    by_cases hwrote : answer = .saved ∨ answer = .rowFailed
    · have hwritten : Passed.written (l.wave (service.collector R),
          ⟨progress, answer, after.session.outside.results⟩) = true := decide_eq_true hwrote
      rw [if_pos hwrote] at hresults
      obtain ⟨text, hresults⟩ := hresults
      rw [if_pos hwritten, hresults]
      refine .written hentities rfl rfl ?_
      split
      · exact le_rfl
      · exact h.behind.later.trans (h.behind.outcomes.trans hadds.outcomes).length_le
    · have hunwritten : ¬ Passed.written (l.wave (service.collector R),
          ⟨progress, answer, after.session.outside.results⟩) = true :=
        fun hwritten ↦ hwrote (of_decide_eq_true hwritten)
      rw [if_neg hwrote] at hresults
      have hunsaved : answer ≠ .saved := fun hsaved ↦ hwrote (.inl hsaved)
      rw [if_neg hunsaved, if_neg hunwritten, hresults]
      exact h.behind.pass hadds hapart _

/-- **Every move keeps the record.** -/
theorem heard {policy : RecursionPolicy} {accepted : List Target} {generation : UInt32}
    {l l' : Locals (ScanState σ)} (h : Recorded R service l.state l.session)
    (hinv : Inv R policy accepted l)
    (m : Heard R policy (service.collector R) generation l l') :
    Recorded R service l'.state l'.session := by
  obtain ⟨move, told⟩ := m
  cases move with
  | ask outside => exact h.congr rfl rfl rfl rfl (ScanService.told_untouched R service (told rfl))
  | skip => exact h
  | take => exact h.congr rfl rfl rfl rfl ⟨rfl, rfl, rfl⟩
  | cancel => exact h.congr rfl rfl rfl rfl ⟨rfl, rfl, rfl⟩
  | limit => exact h.congr rfl rfl rfl rfl ⟨rfl, rfl, rfl⟩
  | fly => exact h.fly hinv.nodup

/-- A generation keeps the record. -/
theorem step {policy : RecursionPolicy} {accepted : List Target} {r : Rounds (ScanState σ)}
    (h : Recorded R service r.state r.session) (hinv : r.Inv R policy accepted) :
    let after := r.state.step R policy (service.collector R) r.generation r.frontier r.session
    Recorded R service after.state after.session := by
  obtain ⟨hheard, -⟩ := runWaves_heard R policy (service.collector R) r.generation
    (Locals.start r.state r.frontier r.session) rfl
  have hall := Loop.steps_inv
    (fun l ↦ Inv R policy accepted l ∧ Recorded R service l.state l.session)
    (fun l l' hl m ↦ ⟨hl.1.move (service.collector R) r.generation l l' m.move, hl.2.heard hl.1 m⟩)
    ⟨hinv.crawl, h⟩ hheard
  exact hall.2.close r.generation _

end Recorded

variable (R service)

/-- What holds of the record when a crawl ends. -/
theorem runGenerations_recorded (policy : RecursionPolicy) (accepted : List Target) (outside : σ) :
    let r := runGenerations R policy (service.collector R)
      (Frontier.empty.pushAll accepted).intoQueue { outside }
    Recorded R service r.state r.session := by
  refine Loop.run_inv
    (fun r : Rounds (ScanState σ) ↦
      r.Inv R policy accepted ∧ Recorded R service r.state r.session)
    (fun r : Rounds (ScanState σ) ↦ Recorded R service r.state r.session)
    (fun r r' h hpass ↦ ?_) (fun r r' h hpass ↦ ?_) ⟨Rounds.Inv.init _, Recorded.init outside⟩
  · have hstep := h.2.step h.1
    refine ⟨h.1.again _ hpass, ?_⟩
    rw [generationPass] at hpass
    split at hpass
    · cases hpass
    split at hpass
    · cases hpass
    simp only at hpass
    split at hpass
    · cases hpass
    · cases hpass
      exact hstep
  · have hstep := h.2.step h.1
    rw [generationPass] at hpass
    split at hpass
    · cases hpass
      exact h.2
    split at hpass
    · cases hpass
      exact h.2
    simp only at hpass
    split at hpass
    · cases hpass
      exact hstep
    · cases hpass

/-- **When a scan's checkpoints keep what its crawl has found**, whatever its lookups return and
whichever saves fail.  There is one after each wave.  What is saved after it holds everything, if it
was saved or skipped, if and only if no lookup has returned an entity since results were written or
the crawl has not as many entities and outcomes as at the last checkpoint that was saved. -/
theorem checkpoints_keep (policy : RecursionPolicy) (targets : List Target) (outside : σ) :
    let session := (runTargets R policy (service.collector R) targets { outside }).session
    session.waves.length = session.outside.checks.length ∧
      ∀ before p, before ++ [p] <+: session.passed →
        (p.2.Kept R service.id ↔ Passed.Unchanged before p) := by
  have h := runGenerations_recorded R service policy targets outside
  exact ⟨h.length, h.kept⟩

end Recorded

/-! ## Two scans -/

/-- A service whose saves succeed, and whose lookups find domains and report no source. -/
def domainService (found : String → List String) : ScanService Unit where
  id := "scan"
  lookups := domainCollector found
  text _ := ""
  saveResults _ s := (true, s)
  updateRow _ s := (true, s)
  warn _ s := s

/-- A scan of `example.com` that follows what it finds. -/
def domainScan (found : String → List String) : Session (ScanState Unit) :=
  (runTargets domainSelectors (smallPolicy 3 4) ((domainService found).collector domainSelectors)
    [⟨.domain, "example.com"⟩] { outside := () }).session

/-- The lookup of `example.com` returns one domain twice, and that of the domain returns another. -/
def doubling : String → List String
  | "example.com" => ["a.example.com", "a.example.com"]
  | "a.example.com" => ["b.example.com"]
  | _ => []

/-- **A domain that is not saved.**  Two entities are found and saved, and merged into one at the
end of their generation.  The next lookup finds one more, and there are two again. -/
theorem checkpoints_lose : ∃ check ∈ (domainScan doubling).outside.checks,
    check.answer = .skipped ∧
      (∃ e ∈ check.progress.entities, ∀ kept ∈ check.results.entities, kept.uid ≠ e.uid) ∧
      ¬ check.Kept domainSelectors "scan" := by
  have hlost : ∃ check ∈ (domainScan doubling).outside.checks, check.answer = .skipped ∧
      (∃ e ∈ check.progress.entities, ∀ kept ∈ check.results.entities, kept.uid ≠ e.uid) ∧
      check.results.entities.length ≠
        (mergeByUid domainSelectors.parsesAsJson check.progress.entities).length := by
    decide +kernel
  obtain ⟨check, hcheck, hskipped, hgone, hfewer⟩ := hlost
  refine ⟨check, hcheck, hskipped, hgone, fun hkept ↦ hfewer ?_⟩
  rw [(hkept (.inr hskipped)).entities, length_map]

/-- Nothing is lost when the second wave finds nothing. -/
theorem checkpoints_keep_branching : ∃ p ∈ (domainScan branching).passed,
    p.2.answer = .skipped ∧ p.2.Kept domainSelectors "scan" := by
  have hkeep := (checkpoints_keep domainSelectors (domainService branching) (smallPolicy 3 4)
    [⟨.domain, "example.com"⟩] ()).2
  have hfacts : (domainScan branching).passed.map (fun p ↦
      (p.2.answer, Passed.written p, p.1.entities.isEmpty)) =
        [(.saved, true, false), (.skipped, false, true)] := by
    decide +kernel
  obtain ⟨first, rest, hpassed, hfirst, hrest⟩ := map_eq_cons_iff.1 hfacts
  obtain ⟨second, rest, rfl, hsecond, hnil⟩ := map_eq_cons_iff.1 hrest
  obtain rfl := map_eq_nil_iff.1 hnil
  simp only [Prod.mk.injEq] at hfirst hsecond
  have hunwritten : Passed.unwritten [first] = [] := by
    rw [← nil_append [first], Passed.unwritten_concat, if_pos hfirst.2.1]
  refine ⟨second, hpassed ▸ by simp, hsecond.1, ?_⟩
  refine (hkeep [first] second (hpassed ▸ prefix_rfl)).2 fun _ q hq ↦ ?_
  rw [hunwritten, mem_singleton] at hq
  exact hq ▸ isEmpty_iff.1 hsecond.2.2

end Huntsman
