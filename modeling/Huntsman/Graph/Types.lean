import Std.Data.TreeMap
import Huntsman.Text

/-!
# Task graphs

The data of the task-graph executor: JSON values and the schemas at task boundaries, task
specifications, the records and outputs of a run, reports and checkpoints.

Bounded integers are natural numbers here; where the code adds them it does so with a saturating or
a checked addition, and the model says which at each place.  Instants and durations inside a run are
nanoseconds.
-/

set_option autoImplicit false

namespace Huntsman.Graph

open Std

/-! ## Limits -/

def maxIdBytes : ℕ := 128
def maxTasks : ℕ := 4096
def maxDependenciesPerTask : ℕ := 1024
def maxResourcesPerTask : ℕ := 64
def maxTaskInputBytes : ℕ := 1024 * 1024
def maxDependencyOutputBytes : ℕ := 4 * 1024 * 1024
def maxRunOutputBytes : ℕ := 12 * 1024 * 1024
def maxConcurrencyLimit : ℕ := 4
def maxObjectiveBytes : ℕ := 4096
def maxSchemaDepth : ℕ := 64
def maxCheckpointBytes : ℕ := 16 * 1024 * 1024
def maxRetriesLimit : ℕ := 8
def maxTimeoutMs : ℕ := 24 * 60 * 60 * 1000

/-! ## Values and schemas -/

/-- A JSON value.  A number is kept as it is written. -/
inductive Json where
  | null
  | boolean (value : Bool)
  | number (text : String)
  | string (text : String)
  | array (items : List Json)
  | object (fields : List (String × Json))
deriving Inhabited

/-- The field of an object. -/
def Json.field (fields : List (String × Json)) (key : String) : Option Json := fields.lookup key

/-- A small deterministic JSON schema subset for task boundaries. -/
inductive ValueSchema where
  | any
  | null
  | boolean
  | number
  | string
  | array (items : ValueSchema)
  | object (required : List (String × ValueSchema)) (allowAdditional : Bool)
deriving Inhabited

mutual

/-- Whether a schema `depth` levels down accepts a value. -/
def ValueSchema.acceptsAt : ValueSchema → Json → ℕ → Bool
  | schema, value, depth =>
    if maxSchemaDepth < depth then false
    else
      match schema, value with
      | .any, _ => true
      | .null, .null => true
      | .boolean, .boolean _ => true
      | .number, .number _ => true
      | .string, .string _ => true
      | .array items, .array values => values.all fun item ↦ items.acceptsAt item (depth + 1)
      | .object required allowAdditional, .object fields =>
        (allowAdditional || fields.all fun field ↦ required.any (·.1 == field.1)) &&
          ValueSchema.requiredAt required fields depth
      | _, _ => false

/-- Whether the required fields of an object are there and accepted. -/
def ValueSchema.requiredAt : List (String × ValueSchema) → List (String × Json) → ℕ → Bool
  | [], _, _ => true
  | (key, schema) :: required, fields, depth =>
    (match Json.field fields key with
      | some item => schema.acceptsAt item (depth + 1)
      | none => false) && ValueSchema.requiredAt required fields depth

end

/-- Validate a JSON value against this bounded schema. -/
def ValueSchema.accepts (schema : ValueSchema) (value : Json) : Bool := schema.acceptsAt value 0

/-! ## Tasks -/

/-- Minimum spacing between starts for tasks in one rate-limit group. -/
structure RateLimit where
  key : String
  minIntervalMs : ℕ
deriving DecidableEq

inductive TaskRole where
  | producer | verifier
deriving DecidableEq, Inhabited

/-- Static task definition. -/
structure TaskSpec where
  id : String
  objective : String
  role : TaskRole := .producer
  input : Json
  inputSchema : ValueSchema
  outputSchema : ValueSchema
  dependencies : List String := []
  exclusiveResources : List String := []
  /-- Optional shared start-rate limit for an external provider or resource. -/
  rateLimit : Option RateLimit := none
  /-- Logical-operation key. -/
  idempotencyKey : Option String := none
  /-- Require handlers to forward the stable key to side-effecting external operations. -/
  requiresIdempotency : Bool := false
  /-- Cooperative per-attempt deadline. -/
  timeoutMs : ℕ
  /-- Number of retries after the initial attempt, a `u8`. -/
  maxRetries : ℕ := 0
  /-- Cumulative budget units charged once for each attempted task, a `u64`. -/
  resourceUnits : ℕ := 1
deriving Inhabited

/-- Execution graph. -/
structure GraphDefinition where
  runId : String
  tasks : List TaskSpec

inductive TaskState where
  | pending | running | succeeded | failed | timedOut | cancelled | blocked
deriving DecidableEq

namespace TaskState

def terminal : TaskState → Bool
  | .succeeded | .failed | .timedOut | .cancelled | .blocked => true
  | .pending | .running => false

def successful : TaskState → Bool
  | .succeeded => true
  | _ => false

end TaskState

/-! ## Outputs -/

inductive VerificationState where
  | verified | hypothesis | unsupported | unresolved
deriving DecidableEq

/-- Explicit provenance and independent review record for a task result. -/
structure VerificationRecord where
  state : VerificationState
  producerId : String
  reviewerId : String
  basis : String
  evidenceRefs : List String := []
deriving DecidableEq

/-- Evidence locator retained with its source and capture provenance. -/
structure EvidenceReference where
  id : String
  sourceId : String
  locator : String
  provenance : String
  observedAtUnix : ℕ
  contentSha256 : Option String := none
deriving DecidableEq

/-- A successful result. -/
structure TaskOutput where
  value : Json
  evidence : List EvidenceReference := []
  verification : VerificationRecord

structure TaskFailure where
  message : String
  retryable : Bool
deriving DecidableEq

/-- What a handler is given. -/
structure TaskContext where
  taskId : String
  input : Json
  dependencyOutputs : TreeMap String TaskOutput
  attempt : ℕ
  /-- Stable key handlers should forward to idempotent external operations. -/
  idempotencyKey : Option String
  deadline : ℕ

/-- How a handler ends: with an output, with a failure, or by a panic. -/
inductive Answer where
  | done (output : TaskOutput)
  | failed (failure : TaskFailure)
  | panicked

/-- A handler.  Its answer may depend on anything, which is what the nonce stands for. -/
abbrev TaskHandler := ℕ → TaskContext → Answer

abbrev HandlerRegistry := TreeMap String TaskHandler

/-! ## Runs -/

structure ExecutionPolicy where
  maxConcurrency : ℕ
  maxTotalResourceUnits : UInt64
  maxOutputBytes : ℕ
  runTimeoutMs : ℕ
deriving DecidableEq

inductive RunTermination where
  | completed | failed | cancelled | timedOut | resourceLimit
deriving DecidableEq

structure TaskRecord where
  state : TaskState := .pending
  /-- A `u8`, which saturates. -/
  attempts : ℕ := 0
  startedAtUnix : Option ℕ := none
  finishedAtUnix : Option ℕ := none
  durationMs : Option ℕ := none
  output : Option TaskOutput := none
  error : Option String := none
  /-- Whether the last failure was explicitly declared retryable by its handler. -/
  retryable : Bool := false

abbrev Records := TreeMap String TaskRecord

structure RunReport where
  runId : String
  graphFingerprint : String
  policyFingerprint : String
  startedAtUnix : ℕ
  finishedAtUnix : Option ℕ
  durationMs : Option ℕ
  termination : Option RunTermination
  consumedResourceUnits : ℕ
  /-- Last provider starts in UTC milliseconds, persisted across interrupted runs. -/
  rateLimitLastStartUnixMs : TreeMap String ℕ
  tasks : Records
  errors : List String

structure ExecutionCheckpoint where
  formatVersion : ℕ
  graphFingerprint : String
  report : RunReport

def ExecutionCheckpoint.fromReport (report : RunReport) : ExecutionCheckpoint where
  formatVersion := 1
  graphFingerprint := report.graphFingerprint
  report := report

/-- A sink persists a checkpoint, or answers why it could not. -/
abbrev CheckpointSink := ℕ → ExecutionCheckpoint → Option String

inductive GraphError where
  | invalid (message : String)
  | missingHandler (id : String)
  | checkpointMismatch
  | checkpoint (message : String)
deriving DecidableEq

/-- The encoders the executor calls, each with its own failures, and the digest it fingerprints
with. -/
structure Encoders where
  input : Json → Except String (List UInt8)
  task : TaskSpec → Except String (List UInt8)
  graph : GraphDefinition → Except String (List UInt8)
  policy : ExecutionPolicy → Except String (List UInt8)
  output : TaskOutput → Except String (List UInt8)
  sha256Hex : List UInt8 → String

/-! ## Bounded arithmetic -/

/-- `u8::saturating_add`. -/
def satAdd8 (a b : ℕ) : ℕ := min (a + b) (2 ^ 8 - 1)

/-- `u64::saturating_add`, and `usize`'s. -/
def satAdd64 (a b : ℕ) : ℕ := min (a + b) (2 ^ 64 - 1)

/-- `u64::checked_add`. -/
def checkedAdd64 (a b : ℕ) : Option ℕ := if a + b < 2 ^ 64 then some (a + b) else none

theorem checkedAdd64_eq_some {a b total : ℕ} :
    checkedAdd64 a b = some total ↔ a + b < 2 ^ 64 ∧ a + b = total := by
  rw [checkedAdd64]
  split
  · rename_i h
    rw [Option.some.injEq, and_iff_right h]
  · rename_i h
    exact ⟨fun hnone ↦ absurd hnone (by simp), fun hlt ↦ absurd hlt.1 h⟩

/-- A number of milliseconds, in nanoseconds. -/
def millis (ms : ℕ) : ℕ := ms * 10 ^ 6

end Huntsman.Graph
