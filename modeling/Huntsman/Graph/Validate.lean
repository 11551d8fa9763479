import Huntsman.Graph.Types
import Huntsman.Lib.Refusal
import Mathlib.Data.List.Perm.Subperm
import Mathlib.Data.List.Sort

/-!
# Validating a task graph

`validate` checks every task contract, dependency, idempotency key and the absence of cycles before
anything is dispatched, and orders the tasks so that each follows its dependencies.
-/

set_option autoImplicit false

namespace Huntsman.Graph

open Std

/-! ## Checks -/

/-- Refuse a graph unless `p` holds. -/
def require (p : Prop) [Decidable p] (message : String) : Except GraphError Unit :=
  Except.ensure p (.invalid message)

theorem require_ok {p : Prop} [Decidable p] {message : String} {u : Unit} :
    require p message = .ok u ↔ p :=
  Except.ensure_ok

/-- Whether a character may stand in a token. -/
def tokenChar (c : Char) : Bool :=
  ('a' ≤ c && c ≤ 'z') || ('A' ≤ c && c ≤ 'Z') || ('0' ≤ c && c ≤ '9') ||
    c == '_' || c == '-' || c == '.' || c == ':'

/-- Whether a text can be an identifier: short, not empty, of token characters only. -/
def validToken (value : String) : Bool :=
  value != "" && decide (value.utf8ByteSize ≤ maxIdBytes) && value.toList.all tokenChar

/-- Encode, or refuse the graph with a message. -/
def encodeOr (message : String) (encoded : Except String (List UInt8)) :
    Except GraphError (List UInt8) :=
  match encoded with
  | .ok bytes => .ok bytes
  | .error error => .error (.invalid (message ++ error))

theorem encodeOr_ok {message : String} {encoded : Except String (List UInt8)}
    {bytes : List UInt8} : encodeOr message encoded = .ok bytes ↔ encoded = .ok bytes := by
  rw [encodeOr.eq_def]
  split <;> simp

/-- Check a task's dependency identifiers, those in `seen` being the ones before. -/
def checkDependencies (id : String) : List String → List String → Except GraphError Unit
  | _, [] => .ok ()
  | seen, dependency :: rest => do
    require (validToken dependency) ("invalid dependency identifier on " ++ id)
    require (dependency ≠ id) ("self dependency: " ++ id)
    require (dependency ∉ seen) ("duplicate dependency " ++ dependency ++ " on " ++ id)
    checkDependencies id (dependency :: seen) rest

/-- Check a task's exclusive resources, those in `seen` being the ones before. -/
def checkResources (id : String) : List String → List String → Except GraphError Unit
  | _, [] => .ok ()
  | seen, resource :: rest => do
    require (validToken resource ∧ resource ∉ seen) ("invalid or duplicate resource on " ++ id)
    checkResources id (resource :: seen) rest

/-- What is known of the tasks that were checked. -/
structure Building where
  byId : TreeMap String TaskSpec := {}
  idempotency : List String := []
  /-- The interval of each rate-limit group. -/
  rateLimits : TreeMap String ℕ := {}
  totalTaskBytes : ℕ := 0

section

variable (enc : Encoders)

/-- The checks of a task that look at nothing else. -/
def checkTask (task : TaskSpec) : Except GraphError Unit := do
  require (validToken task.id) ("invalid task id: " ++ task.id)
  require (¬ (task.role = .verifier ∧ task.dependencies = []))
    ("verifier task " ++ task.id ++ " must depend on the claim-producing task")
  require (Text.trim task.objective ≠ "" ∧ task.objective.utf8ByteSize ≤ maxObjectiveBytes)
    ("invalid objective for " ++ task.id)
  require (task.timeoutMs ≠ 0 ∧ task.timeoutMs ≤ maxTimeoutMs) ("invalid timeout for " ++ task.id)
  require (task.maxRetries ≤ maxRetriesLimit) ("retry limit exceeded for " ++ task.id)
  require (task.resourceUnits ≠ 0) ("zero resource cost for " ++ task.id)
  let inputBytes ← encodeOr ("cannot encode input for " ++ task.id ++ ": ") (enc.input task.input)
  require (inputBytes.length ≤ maxTaskInputBytes) ("input exceeds size limit for " ++ task.id)
  require (task.dependencies.length ≤ maxDependenciesPerTask ∧
      task.exclusiveResources.length ≤ maxResourcesPerTask)
    ("dependency or resource limit exceeded for " ++ task.id)
  require (task.inputSchema.accepts task.input) ("input schema mismatch for " ++ task.id)
  checkDependencies task.id [] task.dependencies

/-- Check a task's rate limit, and that its group has one interval. -/
def addRateLimit (rateLimits : TreeMap String ℕ) (task : TaskSpec) :
    Except GraphError (TreeMap String ℕ) :=
  match task.rateLimit with
  | none => .ok rateLimits
  | some limit => do
    require (validToken limit.key ∧ limit.minIntervalMs ≠ 0 ∧ limit.minIntervalMs ≤ maxTimeoutMs)
      ("invalid rate limit for " ++ task.id)
    require (∀ existing ∈ rateLimits[limit.key]?, existing = limit.minIntervalMs)
      ("inconsistent interval for rate-limit group " ++ limit.key)
    pure (rateLimits.insert limit.key limit.minIntervalMs)

/-- Check a task's idempotency key, which no other task may have. -/
def addIdempotency (keys : List String) (task : TaskSpec) : Except GraphError (List String) := do
  require (¬ (task.requiresIdempotency ∧ task.idempotencyKey = none))
    ("task " ++ task.id ++ " requires an idempotency key")
  match task.idempotencyKey with
  | none => pure keys
  | some key => do
    require (validToken key ∧ key ∉ keys) ("invalid or duplicate idempotency key on " ++ task.id)
    pure (key :: keys)

/-- Check one task against the tasks before it. -/
def addTask (built : Building) (task : TaskSpec) : Except GraphError Building := do
  checkTask enc task
  let rateLimits ← addRateLimit built.rateLimits task
  checkResources task.id [] task.exclusiveResources
  let idempotency ← addIdempotency built.idempotency task
  let taskBytes ← encodeOr ("cannot encode task " ++ task.id ++ ": ") (enc.task task)
  let totalTaskBytes := satAdd64 built.totalTaskBytes taskBytes.length
  require (totalTaskBytes ≤ maxCheckpointBytes) "graph exceeds serialized size limit"
  require (task.id ∉ built.byId) ("duplicate task id: " ++ task.id)
  pure { byId := built.byId.insert task.id task, idempotency, rateLimits, totalTaskBytes }

/-- Refuse a dependency that is no task. -/
def checkExist (byId : TreeMap String TaskSpec) (task : TaskSpec) :
    List String → Except GraphError Unit
  | [] => .ok ()
  | dependency :: rest => do
    require (dependency ∈ byId)
      ("task " ++ task.id ++ " depends on missing task " ++ dependency)
    checkExist byId task rest

end

/-! ## Topological order -/

/-- Who depends on whom: each dependency with each task that has it. -/
def edges (byId : TreeMap String TaskSpec) : List (String × String) :=
  byId.toList.flatMap fun (_, task) ↦ task.dependencies.map fun dependency ↦ (dependency, task.id)

/-- The tasks that depend on `id`, sorted. -/
def dependents (byId : TreeMap String TaskSpec) (id : String) : List String :=
  (((edges byId).filter (·.1 = id)).map Prod.snd).insertionSort (· ≤ ·)

/-- The order so far, the tasks that can follow it, and how many dependencies each task waits
for. -/
structure TopoState where
  order : List String
  ready : TreeSet String
  indegree : TreeMap String ℕ

/-- One dependency of `child` is in the order. -/
def TopoState.release (o : TopoState) (child : String) : Except GraphError TopoState :=
  match o.indegree[child]? with
  | none => .error (.invalid "internal indegree inconsistency")
  | some degree =>
    let o := { o with indegree := o.indegree.insert child (degree - 1) }
    .ok (if degree - 1 = 0 then { o with ready := o.ready.insert child } else o)

/-- Put the first ready task in the order, again and again.  No task becomes ready twice, so as many
passes as there are tasks are enough. -/
def takeReady (byId : TreeMap String TaskSpec) : ℕ → TopoState → Except GraphError (List String)
  | 0, o => .ok o.order
  | passes + 1, o =>
    match o.ready.toList.head? with
    | none => .ok o.order
    | some id => do
      let next ← (dependents byId id).foldlM TopoState.release
        { o with order := o.order ++ [id], ready := o.ready.erase id }
      takeReady byId passes next

/-- The tasks that no other has to precede, then whatever they make ready, least first. -/
def topologicalOrder (byId : TreeMap String TaskSpec) : Except GraphError (List String) :=
  let indegree := byId.map fun _ task ↦ task.dependencies.length
  takeReady byId byId.size {
    order := []
    ready := TreeSet.ofList ((indegree.toList.filter (·.2 = 0)).map Prod.fst)
    indegree }

/-! ## Validation -/

/-- Validated graph and deterministic topological order. -/
structure ValidatedGraph where
  topologicalOrder : List String
  byId : TreeMap String TaskSpec
  fingerprint : String
  /-- What checkpoints emitted before the task order was canonicalized are stamped with. -/
  legacyFingerprint : String

/-- The task of a name.  The names the executor looks up are those of the order, which all have a
task. -/
def ValidatedGraph.spec (graph : ValidatedGraph) (id : String) : TaskSpec :=
  (graph.byId[id]?).getD default

/-- Validate every task contract, dependency, idempotency key and cycle before dispatch. -/
def GraphDefinition.validate (enc : Encoders) (self : GraphDefinition) :
    Except GraphError ValidatedGraph := do
  require (validToken self.runId) "run_id is empty or invalid"
  require (self.tasks ≠ []) "graph contains no tasks"
  require (self.tasks.length ≤ maxTasks) "graph exceeds task limit"
  let built ← self.tasks.foldlM (addTask enc) {}
  self.tasks.forM fun task ↦ checkExist built.byId task task.dependencies
  let order ← topologicalOrder built.byId
  require (order.length = built.byId.size) "dependency cycle detected"
  let legacyEncoded ← encodeOr "cannot fingerprint graph: " (enc.graph self)
  require (legacyEncoded.length ≤ maxCheckpointBytes) "graph definition exceeds size limit"
  let canonical : GraphDefinition := { runId := self.runId, tasks := built.byId.toList.map Prod.snd }
  let encoded ← encodeOr "cannot fingerprint graph: " (enc.graph canonical)
  require (encoded.length ≤ maxCheckpointBytes) "canonical graph exceeds size limit"
  pure {
    topologicalOrder := order
    byId := built.byId
    fingerprint := enc.sha256Hex encoded
    legacyFingerprint := enc.sha256Hex legacyEncoded }

end Huntsman.Graph
