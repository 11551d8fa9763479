import Huntsman.Graph.Run

/-!
# Executing and resuming a graph

`Call.executeInner` is `execute_inner`: it refuses a policy, a graph or a checkpoint that is not
sound, sets the locals of the loop up, fresh or from the checkpoint, runs the loop and reports.
`execute`, `resume` and their checkpointed forms are this function with or without a checkpoint and
a sink.
-/

set_option autoImplicit false

namespace Huntsman.Graph

open Std

/-- What a graph is executed with, each time it is executed or resumed. -/
structure Call where
  enc : Encoders
  policy : ExecutionPolicy
  definition : GraphDefinition
  handlers : HandlerRegistry

/-- What happens outside: to the thread of the caller, and to the thread of each job. -/
structure World where
  main : Thread
  scripts : ℕ → ℕ → ℕ → Tick

/-- What an execution comes to: its report, and the history of the run. -/
structure Executed where
  report : RunReport
  run : Run

/-! ## Admission -/

def checkPolicy (policy : ExecutionPolicy) : Except GraphError Unit :=
  Except.ensure (policy.maxConcurrency ≠ 0 ∧ policy.maxConcurrency ≤ maxConcurrencyLimit ∧
      policy.maxTotalResourceUnits ≠ 0 ∧ policy.maxOutputBytes ≠ 0 ∧
      policy.maxOutputBytes ≤ maxRunOutputBytes ∧ policy.runTimeoutMs ≠ 0 ∧
      policy.runTimeoutMs ≤ maxTimeoutMs)
    (.invalid "invalid execution policy")

/-- A checkpoint mismatch, whatever the error. -/
def orMismatch (checked : Except String Unit) : Except GraphError Unit :=
  match checked with
  | .ok () => .ok ()
  | .error _ => .error .checkpointMismatch

/-- The output that was recorded for a task. -/
def savedOutput (tasks : Records) (id : String) : Option TaskOutput :=
  (tasks[id]?).bind TaskRecord.output

/-- Count what a record must have cost. -/
def countCharge (minimumConsumed : ℕ) (spec : TaskSpec) (record : TaskRecord) :
    Except GraphError ℕ :=
  if 0 < record.attempts then
    match checkedAdd64 minimumConsumed spec.resourceUnits with
    | none => .error .checkpointMismatch
    | some total => .ok total
  else .ok minimumConsumed

/-- Check the output of a record.  A saved success is trustworthy only if every dependency is one,
too, and nothing else has an output. -/
def admitOutput (enc : Encoders) (policy : ExecutionPolicy) (tasks : Records) (spec : TaskSpec)
    (record : TaskRecord) : Except GraphError Unit :=
  if record.state = .succeeded then
    match record.output with
    | none => .error .checkpointMismatch
    | some output => do
      orMismatch (validateOutput enc spec output policy.maxOutputBytes)
      orMismatch (validateVerificationLineage spec output
        (savedOutput tasks output.verification.producerId))
      Except.ensure (∀ dependency ∈ spec.dependencies, stateOf tasks dependency = .succeeded)
        .checkpointMismatch
  else Except.ensure (record.output.isNone) .checkpointMismatch

/-- Check one record of a checkpoint, and count what it must have cost. -/
def admitRecord (enc : Encoders) (policy : ExecutionPolicy) (graph : ValidatedGraph)
    (tasks : Records) (minimumConsumed : ℕ) (entry : String × TaskRecord) : Except GraphError ℕ :=
  let (id, record) := entry
  match graph.byId[id]? with
  | none => .error .checkpointMismatch
  | some spec => do
    Except.ensure (record.attempts ≤ satAdd8 spec.maxRetries 1 ∧
        ¬ (record.state = .succeeded ∧ record.attempts = 0)) .checkpointMismatch
    let minimumConsumed ← countCharge minimumConsumed spec record
    admitOutput enc policy tasks spec record
    pure minimumConsumed

def admitCheckpoint (enc : Encoders) (policy : ExecutionPolicy) (runId : String)
    (graph : ValidatedGraph) (policyFingerprint : String) (checkpoint : ExecutionCheckpoint) :
    Except GraphError Unit := do
  let report := checkpoint.report
  Except.ensure (checkpoint.formatVersion = 1 ∧
      checkpoint.graphFingerprint ∈ [graph.fingerprint, graph.legacyFingerprint] ∧
      report.graphFingerprint = checkpoint.graphFingerprint ∧
      report.policyFingerprint = policyFingerprint ∧
      report.consumedResourceUnits ≤ policy.maxTotalResourceUnits.toNat ∧ report.runId = runId)
    .checkpointMismatch
  let minimumConsumed ← report.tasks.toList.foldlM (admitRecord enc policy graph report.tasks) 0
  Except.ensure (minimumConsumed ≤ report.consumedResourceUnits) .checkpointMismatch

/-- Every task that did not succeed already has a handler. -/
def checkHandlers (graph : ValidatedGraph) (handlers : HandlerRegistry) (saved : Records) :
    Except GraphError Unit :=
  graph.topologicalOrder.forM fun id ↦
    Except.ensure (stateOf saved id = .succeeded ∨ id ∈ handlers) (.missingHandler id)

/-! ## Records -/

/-- The record a task starts with: a record that was saved is kept, unless its task can go on. -/
def reopen (graph : ValidatedGraph) (saved : Records) (id : String) : TaskRecord :=
  let record := recordOf saved id
  let attemptsRemain := record.attempts < satAdd8 (graph.spec id).maxRetries 1
  if record.state = .pending ∨ record.state = .running ∨
      record.state = .failed ∧ record.retryable ∧ attemptsRemain then
    { record with
      state := .pending, finishedAtUnix := none, durationMs := none, output := none, error := none
      retryable := false }
  else record

def reopenAll (graph : ValidatedGraph) (saved : Records) : Records :=
  graph.topologicalOrder.foldl (fun records id ↦ records.insert id (reopen graph saved id)) {}

/-- Add the size of an output that is retained. -/
def addRetained (enc : Encoders) (total : ℕ) (entry : String × TaskRecord) :
    Except GraphError ℕ :=
  match entry.2.output with
  | none => .ok total
  | some output =>
    match enc.output output with
    | .error error => .error (.checkpoint error)
    | .ok bytes => do
      let total := satAdd64 total bytes.length
      Except.ensure (total ≤ maxRunOutputBytes) .checkpointMismatch
      pure total

/-- The termination a run starts with: a resumed run keeps the limit it ran into. -/
def startTermination (records : Records) (prior : Option RunTermination) : RunTermination :=
  if ∃ entry ∈ records.toList, entry.2.state = .pending ∨ entry.2.state = .running then
    match prior with
    | some .resourceLimit => .resourceLimit
    | some .timedOut => .timedOut
    | some .cancelled => .cancelled
    | _ => .completed
  else prior.getD (deriveTermination records)

/-! ## Rate limits across runs -/

/-- The interval of each rate-limit group. -/
def rateIntervals (graph : ValidatedGraph) : TreeMap String ℕ :=
  (graph.byId.toList.filterMap fun entry ↦ entry.2.rateLimit).foldl
    (fun intervals limit ↦ intervals.insert limit.key limit.minIntervalMs) {}

/-- A start for the group of a task that was attempted, in a checkpoint without one. -/
def addLegacyStart (report : RunReport) (now : ℕ) (persisted : TreeMap String ℕ)
    (entry : String × TaskSpec) : TreeMap String ℕ :=
  match entry.2.rateLimit, report.tasks[entry.1]? with
  | some limit, some record =>
    if 0 < record.attempts ∧ limit.key ∉ report.rateLimitLastStartUnixMs then
      let completedMs := record.finishedAtUnix.elim now fun seconds ↦
        satAdd64 (min (seconds * 1000) (2 ^ 64 - 1)) 999
      persisted.insert limit.key ((persisted[limit.key]?).elim completedMs (max · completedMs))
    else persisted
  | _, _ => persisted

/-- A start on the wall clock, on the monotonic clock, unless it is too long ago to matter. -/
def restoreStart (graph : ValidatedGraph) (now instantNow : ℕ) (history : TreeMap String ℕ)
    (entry : String × ℕ) : TreeMap String ℕ :=
  let elapsedMs := now - entry.2
  if elapsedMs < (rateIntervals graph)[entry.1]?.getD 0 then
    history.insert entry.1
      (if millis elapsedMs ≤ instantNow then instantNow - millis elapsedMs else instantNow)
  else history

/-- Rehydrate provider spacing from a checkpoint: the starts on the monotonic and on the wall clock,
the stamp that was read, and the thread. -/
def restoredRateHistory (graph : ValidatedGraph) (checkpoint : Option ExecutionCheckpoint)
    (t : Thread) : Except GraphError (TreeMap String ℕ × TreeMap String ℕ × List Stamp × Thread) :=
  match checkpoint with
  | none => .ok ({}, {}, [], t)
  | some checkpoint => do
    let report := checkpoint.report
    Except.ensure (∀ entry ∈ report.rateLimitLastStartUnixMs.toList,
        entry.1 ∈ rateIntervals graph ∧ entry.2 ≠ 0) .checkpointMismatch
    let (now, t) := t.readUnixMillis
    let persisted := graph.byId.toList.foldl (addLegacyStart report now)
      report.rateLimitLastStartUnixMs
    let (instantNow, t) := t.readNow
    let monotonic := persisted.toList.foldl (restoreStart graph now instantNow) {}
    pure (monotonic, persisted, [{ unixMs := now, age := 0 }], t)

/-! ## Execution -/

namespace Execution

variable (e : Execution)

/-- Report a run that has left the loop, to the sink, too. -/
def finish (run : Run) : Executed :=
  let run := if run.termination = .completed then
    { run with termination := deriveTermination run.records } else run
  let (now, thread) := run.thread.readNow
  let (unix, thread) := thread.readUnix
  let run := { run with thread }
  let report := e.report run (some unix) (elapsedMs (now - e.started))
  match e.hand true report run with
  | (none, run) => { report, run }
  | (some error, run) => {
      report := { report with
        errors := report.errors ++ ["final checkpoint persistence failed: " ++ error]
        termination := some .failed }
      run }

/-- Run the loop and report.  A task is pending no longer after two passes, so twice as many passes
as there are tasks are enough. -/
def go (run : Run) : Option (Except GraphError Executed) :=
  (Loop.runFor e.iteration (2 * e.graph.topologicalOrder.length + 2) run).map (·.map e.finish)

end Execution

/-- The records of a checkpoint. -/
def savedTasks (checkpoint : Option ExecutionCheckpoint) : Records :=
  checkpoint.elim {} fun checkpoint ↦ checkpoint.report.tasks

/-- When a run started, which a resumed run takes from its checkpoint. -/
def startTime (checkpoint : Option ExecutionCheckpoint) (t : Thread) : ℕ × Thread :=
  match checkpoint with
  | none => t.readUnix
  | some checkpoint => (checkpoint.report.startedAtUnix, t)

namespace Call

variable (call : Call)

/-- Everything before the loop. -/
def prepare (world : World) (checkpoint : Option ExecutionCheckpoint)
    (sink : Option CheckpointSink) : Except GraphError (Execution × Run) := do
  checkPolicy call.policy
  let graph ← call.definition.validate call.enc
  let policyBytes ← encodeOr "cannot fingerprint policy: " (call.enc.policy call.policy)
  let policyFingerprint := call.enc.sha256Hex policyBytes
  let saved := savedTasks checkpoint
  checkpoint.elim (.ok ())
    (admitCheckpoint call.enc call.policy call.definition.runId graph policyFingerprint)
  checkHandlers graph call.handlers saved
  let (started, thread) := world.main.readNow
  let (startedAtUnix, thread) := startTime checkpoint thread
  let records := reopenAll graph saved
  let retainedOutputBytes ← records.toList.foldlM (addRetained call.enc) 0
  let (now, thread) := thread.readNow
  let runDeadline := now + millis call.policy.runTimeoutMs
  let (lastRateStart, persistedRateStart, stamps, thread) ←
    restoredRateHistory graph checkpoint thread
  pure (
    { enc := call.enc
      policy := call.policy
      handlers := call.handlers
      sink
      scripts := world.scripts
      runId := call.definition.runId
      graph, policyFingerprint, started, startedAtUnix, runDeadline },
    { thread, records
      consumed := checkpoint.elim 0 fun checkpoint ↦ checkpoint.report.consumedResourceUnits
      retainedOutputBytes
      termination := startTermination records
        (checkpoint.bind fun checkpoint ↦ checkpoint.report.termination)
      lastRateStart, persistedRateStart
      errors := checkpoint.elim [] fun checkpoint ↦ checkpoint.report.errors
      stamps })

/-- `execute_inner`. -/
def executeInner (world : World) (checkpoint : Option ExecutionCheckpoint)
    (sink : Option CheckpointSink) : Option (Except GraphError Executed) :=
  match call.prepare world checkpoint sink with
  | .error error => some (.error error)
  | .ok (e, run) => e.go run

end Call

/-! ## A sample

A task that looks something up and a task that reviews what it found, on a clock that advances by a
millisecond each time anybody looks at anything. -/

namespace Sample

def enc : Encoders where
  input _ := .ok []
  task _ := .ok []
  graph _ := .ok []
  policy _ := .ok []
  output _ := .ok []
  sha256Hex _ := "digest"

def policy : ExecutionPolicy where
  maxConcurrency := 2
  maxTotalResourceUnits := 2
  maxOutputBytes := 10
  runTimeoutMs := 1000

def lookup (rateLimit : Option RateLimit) (maxRetries : ℕ) : TaskSpec where
  id := "lookup"
  objective := "look it up"
  input := .null
  inputSchema := .any
  outputSchema := .any
  rateLimit := rateLimit
  timeoutMs := 100
  maxRetries := maxRetries

def review (rateLimit : Option RateLimit) (maxRetries : ℕ) : TaskSpec :=
  { lookup rateLimit maxRetries with id := "review", role := .verifier, dependencies := ["lookup"] }

def evidence : EvidenceReference where
  id := "page"
  sourceId := "source"
  locator := "here"
  provenance := "fetched"
  observedAtUnix := 0

def found : TaskOutput where
  value := .null
  evidence := [evidence]
  verification :=
    { state := .hypothesis, producerId := "lookup", reviewerId := "nobody", basis := "a page" }

def reviewed : TaskOutput where
  value := .null
  evidence := [evidence]
  verification :=
    { state := .verified, producerId := "lookup", reviewerId := "review", basis := "the page"
      evidenceRefs := ["page"] }

/-- The sample, with what the lookup answers. -/
def call (rateLimit : Option RateLimit) (maxRetries : ℕ) (answer : Answer) : Call where
  enc := enc
  policy := policy
  definition := { runId := "run", tasks := [lookup rateLimit maxRetries, review rateLimit maxRetries] }
  handlers := ((∅ : HandlerRegistry).insert "lookup" fun _ _ ↦ answer).insert "review"
    fun _ _ ↦ .done reviewed

def tick : Tick where
  elapsed := millis 1
  wall := millis 1000
  stop := false
  nonce := 0

def world : World where
  main := { script := fun _ ↦ tick, now := 0, stopped := false }
  scripts _ _ _ := tick

def sink : CheckpointSink := fun _ _ ↦ none

end Sample

/-- Whether an execution ended with a report such that `p`. -/
def endedWith (p : Executed → Bool) (ended : Option (Except GraphError Executed)) : Bool :=
  match ended with
  | some (.ok x) => p x
  | _ => false

theorem endedWith_iff {p : Executed → Bool} {ended : Option (Except GraphError Executed)} :
    endedWith p ended = true ↔ ∃ x, ended = some (.ok x) ∧ p x = true := by
  rw [endedWith.eq_def]
  split
  · simp
  · rename_i hnot
    refine ⟨fun h ↦ absurd h (by simp), fun ⟨x, hx, _⟩ ↦ absurd hx (hnot x)⟩

/-- The sample takes two waves. -/
example : endedWith
    (fun x ↦ x.run.waves.length == 2 && x.report.termination == some .completed)
    ((Sample.call none 0 (.done Sample.found)).executeInner Sample.world none (some Sample.sink)) :=
  by decide +kernel

end Huntsman.Graph
