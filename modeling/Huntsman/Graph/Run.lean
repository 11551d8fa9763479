import Huntsman.Graph.Attempt

/-!
# The scheduling loop

One run of a graph: `Run` holds the locals of the loop in `execute_inner`, and `Execution` what does
not change while it runs.  A pass of the loop (`Execution.iteration`) either leaves, blocks the
tasks whose dependencies failed, waits for a rate limit, or dispatches a wave of tasks, takes up
what came of them and hands a checkpoint to the sink.

A run keeps a history that the code does not: the waves that were dispatched, the stamps that were
put on rate-limit starts, and the checkpoints that were handed out.

`records[id]` would panic for a task without a record.  Every task has one, so reading an absent
record as a pending one is never done.
-/

set_option autoImplicit false

namespace Huntsman.Graph

open Std

/-! ## Records -/

/-- The record of a task. -/
def recordOf (records : Records) (id : String) : TaskRecord := (records[id]?).getD {}

/-- The state of a task. -/
def stateOf (records : Records) (id : String) : TaskState := (recordOf records id).state

/-- The tasks that are pending. -/
def pendingIds (records : Records) : List String :=
  (records.toList.filter fun entry ↦ entry.2.state = .pending).map Prod.fst

/-! ## What a run is -/

/-- One task of a wave: its job, and what came of it. -/
structure Dispatch where
  id : String
  job : Job
  ended : Attempting

/-- The tasks that were dispatched together, and the records at that moment. -/
structure Wave where
  records : Records
  dispatched : List Dispatch

/-- A wall-clock reading, and how long ago the start was that it stamps, in milliseconds. -/
structure Stamp where
  unixMs : ℕ
  age : ℕ
deriving DecidableEq

/-- The start of an attempt on the wall clock. -/
def Stamp.start (s : Stamp) : ℕ := s.unixMs - s.age

/-- A checkpoint that the sink was given: after which waves, whether at the end, and why it could
not be persisted if it could not. -/
structure Handed where
  checkpoint : ExecutionCheckpoint
  waves : List Wave
  final : Bool
  failure : Option String

/-- What does not change while a run goes on. -/
structure Execution where
  enc : Encoders
  policy : ExecutionPolicy
  handlers : HandlerRegistry
  sink : Option CheckpointSink
  /-- What the thread of a job observes, by wave and by place in the wave. -/
  scripts : ℕ → ℕ → ℕ → Tick
  runId : String
  graph : ValidatedGraph
  policyFingerprint : String
  started : ℕ
  startedAtUnix : ℕ
  runDeadline : ℕ

/-- The locals of the loop, and the history of the run. -/
structure Run where
  thread : Thread
  records : Records
  consumed : ℕ
  retainedOutputBytes : ℕ
  termination : RunTermination
  lastRateStart : TreeMap String ℕ
  persistedRateStart : TreeMap String ℕ
  errors : List String
  waves : List Wave := []
  stamps : List Stamp := []
  handed : List Handed := []

/-- What has been chosen for the next wave, and what was turned down for good. -/
structure Selection where
  thread : Thread
  selected : List String := []
  selectedResources : List String := []
  selectedRateKeys : List String := []
  rateWaitUntil : Option ℕ := none
  waveCost : ℕ := 0
  budgetBlocked : List String := []
  dependencyOutputBlocked : List String := []

/-- Add a task to the wave. -/
def Selection.take (s : Selection) (spec : TaskSpec) (id : String) : Selection := { s with
  selectedResources := spec.exclusiveResources ++ s.selectedResources
  waveCost := satAdd64 s.waveCost spec.resourceUnits
  selected := s.selected ++ [id] }

/-! ## Settling tasks that are not run -/

namespace Run

/-- Give a task a state for a reason. -/
def settle (state : TaskState) (error : String) (run : Run) (id : String) : Run :=
  let (unix, thread) := run.thread.readUnix
  { run with
    thread
    records := run.records.insert id { recordOf run.records id with
      state, error := some error, finishedAtUnix := some unix } }

/-- Settle every pending task. -/
def settlePending (state : TaskState) (error : String) (run : Run) : Run :=
  (pendingIds run.records).foldl (settle state error) run

/-- Block a task, and say so in the errors of the run. -/
def block (error noted : String) (run : Run) (id : String) : Except GraphError Run :=
  if id ∈ run.records then
    let run := run.settle .blocked error id
    .ok { run with errors := run.errors ++ [id ++ ": " ++ noted] }
  else .error (.invalid "missing task record")

/-- Block a task for want of a resource. -/
def exhaust (error : String) (run : Run) (id : String) : Except GraphError Run := do
  let run ← run.block error error id
  pure { run with termination := .resourceLimit }

/-- Block what is left when nothing can be scheduled. -/
def strand (run : Run) : Except GraphError Run := do
  let error := "no schedulable dependency frontier"
  let pending := pendingIds run.records
  let run ← pending.foldlM (block error error) run
  pure (if pending ≠ [] ∧ run.termination = .completed then { run with termination := .failed }
    else run)

end Run

namespace Execution

variable (e : Execution)

/-- Block a pending task one of whose dependencies is over without success. -/
def blockDependent (blocked : Run × Bool) (id : String) : Except GraphError (Run × Bool) :=
  let records := blocked.1.records
  if stateOf records id ≠ .pending then .ok blocked
  else
    match (e.graph.spec id).dependencies.find? fun dependency ↦
        (stateOf records dependency).terminal && !(stateOf records dependency).successful with
    | none => .ok blocked
    | some dependency => do
      let run ← blocked.1.block ("dependency " ++ dependency ++ " did not succeed")
        ("blocked by " ++ dependency) id
      pure (run, true)

/-! ## Choosing a wave -/

/-- Whether a task would cost more than the run may. -/
def overBudget (consumed waveCost units : ℕ) : Bool :=
  match (checkedAdd64 consumed waveCost).bind fun total ↦ checkedAdd64 total units with
  | none => true
  | some total => e.policy.maxTotalResourceUnits.toNat < total

/-- The output of a dependency that succeeded. -/
def dependencyOutput (records : Records) (dependency : String) : Except GraphError TaskOutput :=
  match (recordOf records dependency).output with
  | none => .error (.invalid ("successful dependency " ++ dependency ++ " has no output"))
  | some output => .ok output

/-- Whether the outputs of the dependencies are small enough, after `bytes` of them. -/
def outputsFit (enc : Encoders) (records : Records) (bytes : ℕ) :
    List String → Except GraphError Bool
  | [] => .ok true
  | dependency :: rest => do
    let output ← dependencyOutput records dependency
    let encoded ← encodeOr "" (enc.output output)
    let bytes := satAdd64 bytes encoded.length
    if maxDependencyOutputBytes < bytes then pure false else outputsFit enc records bytes rest

/-- Choose a task, which is ready and small enough, unless it has to wait. -/
def choose (run : Run) (spec : TaskSpec) (id : String) (s : Selection) : Selection :=
  if spec.exclusiveResources.any (· ∈ s.selectedResources) then s
  else
    match spec.rateLimit with
    | none => s.take spec id
    | some limit =>
      if limit.key ∈ s.selectedRateKeys then s
      else
        match run.lastRateStart[limit.key]? with
        | none =>
          { s with selectedRateKeys := limit.key :: s.selectedRateKeys }.take spec id
        | some lastStart =>
          let eligibleAt := lastStart + millis limit.minIntervalMs
          let (now, thread) := s.thread.readNow
          if now < eligibleAt then
            { s with thread, rateWaitUntil := some (s.rateWaitUntil.elim eligibleAt (min eligibleAt)) }
          else
            { s with thread, selectedRateKeys := limit.key :: s.selectedRateKeys }.take spec id

/-- Consider a task for the next wave. -/
def consider (run : Run) (s : Selection) (id : String) : Except GraphError Selection :=
  let spec := e.graph.spec id
  -- the code leaves its loop when the wave is full
  if e.policy.maxConcurrency ≤ s.selected.length then .ok s
  else if stateOf run.records id ≠ .pending then .ok s
  else if ¬ ∀ dependency ∈ spec.dependencies, stateOf run.records dependency = .succeeded then .ok s
  else if e.overBudget run.consumed s.waveCost spec.resourceUnits then
    .ok { s with budgetBlocked := s.budgetBlocked ++ [id] }
  else do
    let fits ← outputsFit e.enc run.records 0 spec.dependencies
    pure (if fits then choose run spec id s else
      { s with dependencyOutputBlocked := s.dependencyOutputBlocked ++ [id] })

def select (run : Run) : Except GraphError Selection :=
  e.graph.topologicalOrder.foldlM (e.consider run) { thread := run.thread }

/-! ## Running a wave -/

/-- The outputs of the dependencies, by dependency. -/
def dependencyOutputs (records : Records) (dependencies : List String) :
    Except GraphError (TreeMap String TaskOutput) :=
  dependencies.foldlM (fun outputs dependency ↦ do
    let output ← dependencyOutput records dependency
    pure (outputs.insert dependency output)) {}

/-- The handler of a task. -/
def handlerOf (id : String) : Except GraphError TaskHandler :=
  match e.handlers[id]? with
  | none => .error (.missingHandler id)
  | some handler => .ok handler

/-- The job of a task. -/
def job (records : Records) (id : String) : Except GraphError (String × Job) := do
  let spec := e.graph.spec id
  let handler ← e.handlerOf id
  let dependencyOutputs ← dependencyOutputs records spec.dependencies
  pure (id, {
    enc := e.enc
    spec, handler, dependencyOutputs
    priorAttempts := (recordOf records id).attempts
    runDeadline := e.runDeadline
    maxOutputBytes := e.policy.maxOutputBytes })

/-- Note the start of a wave for the rate-limit groups in it. -/
def startRate (started unixMs : ℕ) (run : Run) (id : String) : Run :=
  match (e.graph.spec id).rateLimit with
  | none => run
  | some limit => { run with
      lastRateStart := run.lastRateStart.insert limit.key started
      persistedRateStart := run.persistedRateStart.insert limit.key unixMs
      stamps := run.stamps ++ [{ unixMs, age := 0 }] }

/-- Run jobs on threads of their own, and wait for all of them. -/
def runAll (run : Run) (jobs : List (String × Job)) : Run × List Dispatch :=
  let dispatched := jobs.mapIdx fun place (id, job) ↦
    { id, job, ended := job.run (run.thread.spawn (e.scripts run.waves.length place)) }
  ({ run with
    thread := run.thread.joinAll (dispatched.map fun d ↦ d.ended.thread)
    waves := run.waves ++ [{ records := run.records, dispatched }] }, dispatched)

/-- Note when the last attempt of a task started, on both clocks. -/
def stampRate (run : Run) (d : Dispatch) : Run :=
  match (e.graph.spec d.id).rateLimit, d.ended.lastAttemptStart with
  | some limit, some started =>
    let (now, thread) := run.thread.readNow
    let (unixMs, thread) := thread.readUnixMillis
    let stamp : Stamp := { unixMs, age := elapsedMs (now - started) }
    { run with
      thread
      lastRateStart := run.lastRateStart.insert limit.key started
      persistedRateStart := run.persistedRateStart.insert limit.key stamp.start
      stamps := run.stamps ++ [stamp] }
  | _, _ => run

/-- Count an output of `size` bytes, or drop it when the run's outputs get too large. -/
def keep (run : Run) (record : TaskRecord) (size : ℕ) : Run × TaskRecord :=
  let retainedOutputBytes := satAdd64 run.retainedOutputBytes size
  if maxRunOutputBytes < retainedOutputBytes then
    ({ run with termination := .resourceLimit }, { record with
      state := .failed, output := none, error := some "run output budget exhausted"
      retryable := false })
  else ({ run with retainedOutputBytes }, record)

/-- Keep the output of a task that succeeded. -/
def retain (run : Run) (id : String) (record : TaskRecord) : Except GraphError (Run × TaskRecord) :=
  if record.state.successful then
    match record.output with
    | none => .error (.invalid ("successful task " ++ id ++ " has no output"))
    | some output => do
      let encoded ← encodeOr "" (e.enc.output output)
      pure (keep run record encoded.length)
  else .ok (run, record)

/-- File the record of a task that was run. -/
def file (run : Run) (id : String) (record : TaskRecord) : Run :=
  let run := { run with records := run.records.insert id record }
  if record.state.successful then run
  else { run with
    errors := run.errors ++ [id ++ ": " ++ record.error.getD "task failed"]
    termination :=
      if record.state = .timedOut then .timedOut
      else if record.state = .cancelled then .cancelled
      else if run.termination = .completed then .failed
      else run.termination }

/-- Take up what came of a task. -/
def reduce (run : Run) (d : Dispatch) : Except GraphError Run := do
  let run := e.stampRate run d
  let previousAttempts := (recordOf run.records d.id).attempts
  let record := { d.ended.record with
    attempts := satAdd8 previousAttempts d.ended.record.attempts }
  let (run, record) ← e.retain run d.id record
  pure (file run d.id record)

/-- Dispatch the tasks that were chosen, and take up what came of them. -/
def dispatchWave (run : Run) (s : Selection) : Except GraphError Run := do
  let (started, thread) := run.thread.readNow
  let (unixMs, thread) := thread.readUnixMillis
  let run := s.selected.foldl (e.startRate started unixMs) { run with thread }
  let run := { run with consumed := satAdd64 run.consumed s.waveCost }
  let jobs ← s.selected.mapM (e.job run.records)
  let (run, dispatched) := e.runAll run jobs
  dispatched.foldlM e.reduce run

/-! ## Reports and checkpoints -/

/-- The report of a run as it stands. -/
def report (run : Run) (finishedAtUnix : Option ℕ) (durationMs : ℕ) : RunReport where
  runId := e.runId
  graphFingerprint := e.graph.fingerprint
  policyFingerprint := e.policyFingerprint
  startedAtUnix := e.startedAtUnix
  finishedAtUnix
  durationMs := some durationMs
  termination := some run.termination
  consumedResourceUnits := run.consumed
  rateLimitLastStartUnixMs := run.persistedRateStart
  tasks := run.records
  errors := run.errors

/-- Hand a checkpoint to the sink, if there is one. -/
def hand (final : Bool) (report : RunReport) (run : Run) : Option String × Run :=
  match e.sink with
  | none => (none, run)
  | some sink =>
    let checkpoint := ExecutionCheckpoint.fromReport report
    let (nonce, thread) := run.thread.await
    let failure := sink nonce checkpoint
    (failure, { run with
      thread
      handed := run.handed ++ [{ checkpoint, waves := run.waves, final, failure }] })

/-- Hand out a checkpoint after a wave, and leave the loop when it could not be persisted. -/
def checkpointWave (run : Run) : Pass Run Run :=
  if e.sink.isNone then .again run
  else
    let (now, thread) := run.thread.readNow
    let run := { run with thread }
    match e.hand false (e.report run none (elapsedMs (now - e.started))) run with
    | (none, run) => .again run
    | (some error, run) =>
      let run := { run with errors := run.errors ++ ["checkpoint persistence failed: " ++ error] }
      .leave { run.settlePending .blocked "checkpoint persistence failed" with
        termination := .failed }

/-! ## The loop -/

/-- Schedule: wait, dispatch a wave or give up. -/
def schedule (run : Run) : Except GraphError (Pass Run Run) := do
  let s ← e.select run
  let run := { run with thread := s.thread }
  let run ← s.dependencyOutputBlocked.foldlM (Run.exhaust "dependency output budget exhausted") run
  let run ← s.budgetBlocked.foldlM (Run.exhaust "resource budget exhausted") run
  if s.selected = [] then
    match s.rateWaitUntil with
    | some eligibleAt =>
      pure (.again { run with thread := waitUntilOrCancel eligibleAt e.runDeadline run.thread })
    | none => do
      let run ← run.strand
      pure (.leave run)
  else do
    let run ← e.dispatchWave run s
    pure (e.checkpointWave run)

/-- What a pass does when tasks are left, the run is not cancelled and there is time. -/
def work (run : Run) : Except GraphError (Pass Run Run) := do
  let (run, changed) ← e.graph.topologicalOrder.foldlM e.blockDependent (run, false)
  if changed then pure (.again run) else e.schedule run

/-- One pass of the loop of `execute_inner`. -/
def iteration (run : Run) : Pass (Except GraphError Run) Run :=
  if ∀ entry ∈ run.records.toList, entry.2.state.terminal then .leave (.ok run)
  else
    let (stop, thread) := run.thread.readStop
    let run := { run with thread }
    if stop then
      .leave (.ok { run.settlePending .cancelled "run cancelled before dispatch" with
        termination := .cancelled })
    else
      let (now, thread) := run.thread.readNow
      let run := { run with thread }
      if e.runDeadline ≤ now then
        .leave (.ok { run.settlePending .timedOut "run deadline exceeded before dispatch" with
          termination := .timedOut })
      else
        match e.work run with
        | .error error => .leave (.error error)
        | .ok (.leave run) => .leave (.ok run)
        | .ok (.again run) => .again run

end Execution

end Huntsman.Graph
