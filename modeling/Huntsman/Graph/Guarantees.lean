import Huntsman.Graph.Prepare

/-!
# What every execution guarantees

An execution reports once at the end and once in every checkpoint that it hands out.  Every report
is that of a sound run (`reports_sound`), so each of them keeps within the budget, lets no task
succeed before its dependencies and backs every verified output by evidence of the task it is about
(`verified_outputs`).  And every wave is lawful: its tasks were ready, were given what their
dependencies put out, were few, and shared no resource and no rate-limit group (`execution_lawful`).
-/

set_option autoImplicit false

open Relation

namespace Huntsman.Graph

open Std

/-- The reports of an execution: the last, and those in the checkpoints that were handed out. -/
def Executed.reports (x : Executed) : List RunReport :=
  x.report :: x.run.handed.map fun handed ↦ handed.checkpoint.report

section

variable {e : Execution} {call : Call} {world : World} {checkpoint : Option ExecutionCheckpoint}
  {sink : Option CheckpointSink} {x : Executed} {graph : ValidatedGraph}

/-- **Every report is that of a sound run.** -/
theorem reports_sound (h : call.executeInner world checkpoint sink = some (.ok x)) :
    ∃ e run, Prepared call checkpoint sink e run ∧ Reported e run x ∧
      ∀ report ∈ x.reports, ∃ run', Sound e ⟨[], run'⟩ ∧ report.tasks = run'.records ∧
        report.consumedResourceUnits = run'.consumed := by
  obtain ⟨e, run, hprepared, _, hreported⟩ := executeInner_reported h
  refine ⟨e, run, hprepared, hreported, fun report hreport ↦ ?_⟩
  rcases List.mem_cons.1 hreport with rfl | hmem
  · exact ⟨x.run, hprepared.sound.moves hprepared.admitted hreported.moves, hreported.tasks,
      hreported.consumed⟩
  · obtain ⟨handed, hhanded, rfl⟩ := List.mem_map.1 hmem
    obtain ⟨run', finishedAtUnix, durationMs, hmoves, _, _, hcheckpoint⟩ :=
      moves_handed hprepared.handed hreported.moves handed hhanded
    rw [hcheckpoint]
    exact ⟨run', hprepared.sound.moves hprepared.admitted hmoves, rfl, rfl⟩

/-! ## Waves -/

/-- What must hold of a wave. -/
structure Wave.Lawful (graph : ValidatedGraph) (policy : ExecutionPolicy) (wave : Wave) : Prop where
  /-- Every dependency of a task that is run has succeeded. -/
  ready : ∀ d ∈ wave.dispatched, ∀ dependency ∈ (graph.spec d.id).dependencies,
    stateOf wave.records dependency = .succeeded
  /-- The handler is given the outputs of the dependencies, and no other. -/
  given : ∀ d ∈ wave.dispatched, ∀ attempt ∈ d.ended.attempts, ∀ dependency,
    attempt.context.dependencyOutputs[dependency]? =
      if dependency ∈ (graph.spec d.id).dependencies then (recordOf wave.records dependency).output
      else none
  few : wave.dispatched.length ≤ policy.maxConcurrency
  resources : wave.dispatched.Pairwise fun a b ↦
    ∀ resource ∈ (graph.spec a.id).exclusiveResources,
      resource ∉ (graph.spec b.id).exclusiveResources
  rateKeys : wave.dispatched.Pairwise fun a b ↦ ∀ limit ∈ (graph.spec a.id).rateLimit,
    ∀ limit' ∈ (graph.spec b.id).rateLimit, limit.key ≠ limit'.key

/-- What the handler of a dispatched task is given. -/
theorem Dispatched.given {records : Records} {start : Thread} {d : Dispatch}
    (h : Dispatched e records start d) {attempt : Attempt} (hattempt : attempt ∈ d.ended.attempts)
    (dependency : String) : attempt.context.dependencyOutputs[dependency]? =
      if dependency ∈ (e.graph.spec d.id).dependencies then (recordOf records dependency).output
      else none := by
  obtain ⟨t, _, _, hended⟩ := h.job_ended
  obtain ⟨⟨n, hcontext⟩, _⟩ := hended.asked attempt hattempt
  obtain ⟨_, _, _, _, houtputs, _⟩ := job_ok.1 h.job
  rw [hcontext]
  exact dependencyOutputs_ok houtputs dependency

theorem Begun.lawful {run run' : Run} {ds : List Dispatch} (h : Begun e run ds run') :
    Wave.Lawful e.graph e.policy { records := run.records, dispatched := ds } := by
  obtain ⟨start, started, unixMs, _, _, htogether, hdispatched, _⟩ := h.began
  exact ⟨fun d hd ↦ (hdispatched d hd).1.ready, fun d hd _ hattempt dependency ↦
    (hdispatched d hd).1.given hattempt dependency, htogether.few, htogether.resources,
    htogether.rateKeys⟩

/-- One move leaves the waves lawful. -/
theorem move_lawful {s s' : Stage} (h : ∀ wave ∈ s.run.waves, wave.Lawful e.graph e.policy)
    (hmove : Move e s s') : ∀ wave ∈ s'.run.waves, wave.Lawful e.graph e.policy := by
  cases hmove with
  | look rest run thread later => exact h
  | settle run id state error errors known pending unrun => exact h
  | conclude run termination errors reason => exact h
  | dispatch run ds run' begun =>
    intro wave hwave
    rw [begun.waves] at hwave
    rcases List.mem_append.1 hwave with hwave | hwave
    · exact h wave hwave
    · rw [List.mem_singleton.1 hwave]
      exact begun.lawful
  | file d rest run run' filed =>
    rw [filed.waves]
    exact h
  | hand run final finishedAtUnix durationMs =>
    rw [Execution.hand]
    split
    · exact h
    · exact h

/-- **Scheduling is lawful** in every execution: handlers are only called when their dependencies
have succeeded, with the outputs of those, and few at a time; nothing is shared in a wave; the
budget is kept; and what succeeded in a report depends on nothing that did not. -/
theorem execution_lawful (h : call.executeInner world checkpoint sink = some (.ok x))
    (hgraph : call.definition.validate call.enc = .ok graph) :
    (∀ wave ∈ x.run.waves, wave.Lawful graph call.policy) ∧
      ∀ report ∈ x.reports,
        report.consumedResourceUnits ≤ call.policy.maxTotalResourceUnits.toNat ∧
        ∀ id, stateOf report.tasks id = .succeeded →
          ∀ dependency ∈ (graph.spec id).dependencies,
            stateOf report.tasks dependency = .succeeded := by
  obtain ⟨e, run, hprepared, hreported, hreports⟩ := reports_sound h
  have hsame := hprepared.validated
  rw [hgraph, Except.ok.injEq] at hsame
  subst hsame
  rw [← hprepared.policy]
  refine ⟨?_, fun report hreport ↦ ?_⟩
  · refine Loop.steps_inv (fun s ↦ ∀ wave ∈ s.run.waves, wave.Lawful e.graph e.policy)
      (fun _ _ hs hmove ↦ move_lawful hs hmove) ?_ hreported.moves
    simp [hprepared.waves]
  · obtain ⟨run', hsound, htasks, hconsumed⟩ := hreports report hreport
    rw [htasks, hconsumed]
    refine ⟨hsound.within, fun id hid ↦ ?_⟩
    obtain ⟨_, _, _, _, _, hdependencies⟩ := (hsound.saved id).succeeded hid
    exact hdependencies

/-- The sample has two lawful waves. -/
theorem execution_lawful_sample : ∃ (x : Executed) (graph : ValidatedGraph),
    x.run.waves.length = 2 ∧ x.report.consumedResourceUnits = 2 ∧
    (∀ wave ∈ x.run.waves, wave.Lawful graph Sample.policy) ∧
      ∀ report ∈ x.reports,
        report.consumedResourceUnits ≤ Sample.policy.maxTotalResourceUnits.toNat ∧
        ∀ id, stateOf report.tasks id = .succeeded →
          ∀ dependency ∈ (graph.spec id).dependencies,
            stateOf report.tasks dependency = .succeeded := by
  have hended : endedWith
      (fun x ↦ x.run.waves.length = 2 ∧ x.report.consumedResourceUnits = 2)
      ((Sample.call none 0 (.done Sample.found)).executeInner Sample.world none
        (some Sample.sink)) = true := by decide +kernel
  obtain ⟨x, hx, hshape⟩ := endedWith_iff.1 hended
  obtain ⟨e, run, hprepared, _⟩ := executeInner_reported hx
  obtain ⟨hwaves, hconsumed⟩ := of_decide_eq_true hshape
  exact ⟨x, e.graph, hwaves, hconsumed, execution_lawful hx hprepared.validated⟩

/-! ## Verified outputs -/

/-- What must hold of a verified output. -/
structure Verified (graph : ValidatedGraph) (tasks : Records) (id : String) (output : TaskOutput) :
    Prop where
  verifier : (graph.spec id).role = .verifier
  another : output.verification.producerId ≠ id
  dependency : output.verification.producerId ∈ (graph.spec id).dependencies
  succeeded : stateOf tasks output.verification.producerId = .succeeded
  /-- Some evidence that is cited is evidence of the producer, as it is. -/
  evidence : ∃ original, (recordOf tasks output.verification.producerId).output = some original ∧
    ∃ reference ∈ output.evidence, reference.id ∈ output.verification.evidenceRefs ∧
      reference ∈ original.evidence

/-- A record with an output is that of a task that succeeded. -/
theorem Saved.of_output {enc : Encoders} {policy : ExecutionPolicy} {tasks : Records} {id : String}
    {record : TaskRecord} (h : Saved enc policy graph tasks id record) {output : TaskOutput}
    (houtput : record.output = some output) : record.state = .succeeded := by
  by_contra hnot
  rw [h.otherwise hnot] at houtput
  cases houtput

theorem Sound.verified (he : Admitted e) {s : Stage} (h : Sound e s) {id : String}
    {output : TaskOutput} (houtput : (recordOf s.run.records id).output = some output)
    (hverified : output.verification.state = .verified) :
    Verified e.graph s.run.records id output := by
  have hstate := (h.saved id).of_output houtput
  obtain ⟨_, output', houtput', hvalid, hlineage, hdependencies⟩ := (h.saved id).succeeded hstate
  rw [houtput, Option.some.injEq] at houtput'
  subst houtput'
  obtain ⟨hverifier, hanother, hdependency⟩ := validateOutput_verified hvalid hverified
  obtain ⟨original, horiginal, hreference⟩ :=
    validateVerificationLineage_verified hlineage hverified
  have hknown : id ∈ e.graph.topologicalOrder :=
    (h.known id).1 (TreeMap.mem_iff_isSome_getElem?.2 (by
      rw [some_of_stateOf (by rw [stateOf, hstate]; simp)]
      rfl))
  rw [savedOutput_eq] at horiginal
  rw [he.graph.named id _ (he.spec hknown)] at hanother
  exact ⟨hverifier, hanother, hdependency, hdependencies _ hdependency, original, horiginal,
    hreference⟩

/-- **Verified outputs are backed by evidence**, in every report of every execution, from whatever
checkpoint it was resumed. -/
theorem verified_outputs (h : call.executeInner world checkpoint sink = some (.ok x))
    (hgraph : call.definition.validate call.enc = .ok graph) :
    ∀ report ∈ x.reports, ∀ id output, (recordOf report.tasks id).output = some output →
      output.verification.state = .verified → Verified graph report.tasks id output := by
  obtain ⟨e, run, hprepared, _, hreports⟩ := reports_sound h
  have hsame := hprepared.validated
  rw [hgraph, Except.ok.injEq] at hsame
  subst hsame
  intro report hreport id output houtput hverified
  obtain ⟨run', hsound, htasks, _⟩ := hreports report hreport
  rw [htasks] at houtput ⊢
  exact hsound.verified hprepared.admitted houtput hverified

/-- The review of the sample is backed by the page that was looked up. -/
theorem verified_outputs_sample : ∃ (x : Executed) (graph : ValidatedGraph) (output : TaskOutput),
    (recordOf x.report.tasks "review").output = some output ∧
    output.verification.state = .verified ∧ Verified graph x.report.tasks "review" output := by
  have hended : endedWith
      (fun x ↦ ((recordOf x.report.tasks "review").output.map fun output ↦
        output.verification.state) = some .verified)
      ((Sample.call none 0 (.done Sample.found)).executeInner Sample.world none
        (some Sample.sink)) = true := by decide +kernel
  obtain ⟨x, hx, hshape⟩ := endedWith_iff.1 hended
  obtain ⟨e, run, hprepared, _⟩ := executeInner_reported hx
  obtain ⟨output, houtput, hverified⟩ := Option.map_eq_some_iff.1 (of_decide_eq_true hshape)
  exact ⟨x, e.graph, output, houtput, hverified, verified_outputs hx hprepared.validated x.report
    (.head _) "review" output houtput hverified⟩

end

end Huntsman.Graph
