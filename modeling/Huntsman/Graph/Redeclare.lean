import Huntsman.Graph.Declared
import Huntsman.Graph.Ending

/-!
# Declaring the tasks in another order

The order in which the tasks of a graph are declared makes no difference: a definition is accepted
or not whatever it is, the tasks are run in the same order, the fingerprint is the same, and so a
checkpoint from before the tasks were moved around is still one to resume from (`redeclared`).

This takes an encoder that writes a graph as its tasks one after the other, so that a graph is as
large in any order (`Encoders.Serial`).  Checkpoints with the older fingerprint, which the executor
accepts but does not write, are not spoken of.
-/

set_option autoImplicit false

namespace Huntsman.Graph

open Dependencies List Std

/-- A graph is encoded as an object with the identifier of the run and the array of the tasks. -/
def Encoders.Serial (enc : Encoders) : Prop :=
  ∃ quoted : String → List UInt8, ∀ definition : GraphDefinition,
    enc.graph definition = (definition.tasks.mapM enc.task).map fun tasks ↦
      Text.utf8 "\x7b\"run_id\":" ++ quoted definition.runId ++ Text.utf8 ",\"tasks\":[" ++
        List.intercalate (Text.utf8 ",") tasks ++ Text.utf8 "]\x7d"

variable {enc : Encoders} {definition : GraphDefinition} {tasks tasks' : List TaskSpec}

/-! ## The encoding -/

theorem mapM_task (h : ∀ task ∈ tasks, task.Checked enc) :
    ∃ encoded, tasks.mapM enc.task = .ok encoded ∧
      encoded.map List.length = tasks.map (taskBytes enc) := by
  induction tasks with
  | nil => exact ⟨[], rfl, rfl⟩
  | cons task tasks ih =>
    obtain ⟨hfirst, hrest⟩ := forall_mem_cons.1 h
    obtain ⟨bytes, hbytes⟩ := hfirst.encodes
    obtain ⟨encoded, hencoded, hlengths⟩ := ih hrest
    refine ⟨bytes :: encoded, ?_, ?_⟩
    · rw [mapM_cons]
      exact Except.bind_ok.2 ⟨bytes, hbytes, Except.bind_ok.2 ⟨encoded, hencoded, rfl⟩⟩
    · rw [map_cons, map_cons, hlengths, taskBytes, hbytes]

theorem length_intercalate_comma (encoded : List (List UInt8)) :
    (List.intercalate (Text.utf8 ",") encoded).length =
      (encoded.map List.length).sum + (encoded.length - 1) := by
  induction encoded with
  | nil => rfl
  | cons first rest ih =>
    cases rest with
    | nil => simp
    | cons second rest =>
      have hcomma : (Text.utf8 ",").length = 1 := by decide
      rw [intercalate_cons_cons, length_append, length_append, ih, hcomma]
      simp only [map_cons, sum_cons, length_cons]
      omega

/-- **A graph is as large in any order.** -/
theorem Encoders.Serial.length (hserial : enc.Serial) (hperm : tasks'.Perm tasks)
    (h : ∀ task ∈ tasks, task.Checked enc) (runId : String) :
    ∃ bytes bytes', enc.graph ⟨runId, tasks⟩ = .ok bytes ∧ enc.graph ⟨runId, tasks'⟩ = .ok bytes' ∧
      bytes'.length = bytes.length := by
  obtain ⟨quoted, hgraph⟩ := hserial
  obtain ⟨encoded, hencoded, hlengths⟩ := mapM_task h
  have h' : ∀ task ∈ tasks', task.Checked enc := fun task htask ↦ h task (hperm.mem_iff.1 htask)
  obtain ⟨encoded', hencoded', hlengths'⟩ := mapM_task h'
  have hsum : (encoded'.map List.length).sum = (encoded.map List.length).sum := by
    rw [hlengths, hlengths', (hperm.map _).sum_eq]
  have hcount : encoded'.length = encoded.length := by
    have hlength := congrArg List.length hlengths
    have hlength' := congrArg List.length hlengths'
    rw [List.length_map, List.length_map] at hlength hlength'
    rw [hlength, hlength', hperm.length_eq]
  refine ⟨_, _, by rw [hgraph, hencoded]; rfl, by rw [hgraph, hencoded']; rfl, ?_⟩
  simp only [List.length_append, length_intercalate_comma, hsum, hcount]

/-! ## Definitions -/

/-- Tasks of different names have one order by their names. -/
theorem canonicalTasks_perm (hperm : tasks'.Perm tasks) (hids : (tasks.map TaskSpec.id).Nodup) :
    canonicalTasks tasks' = canonicalTasks tasks := by
  have : IsTrans TaskSpec fun a b ↦ a.id ≤ b.id := ⟨fun _ _ _ hab hbc ↦ hab.trans hbc⟩
  have : Std.Total fun a b : TaskSpec ↦ a.id ≤ b.id := ⟨fun a b ↦ String.le_total a.id b.id⟩
  have hboth : (canonicalTasks tasks').Perm (canonicalTasks tasks) :=
    (perm_insertionSort _ tasks').trans (hperm.trans (perm_insertionSort _ tasks).symm)
  refine hboth.eq_of_pairwise (fun a b ha hb hab hba ↦ ?_) (pairwise_insertionSort _ tasks')
    (pairwise_insertionSort _ tasks)
  exact inj_on_of_nodup_map hids (hperm.mem_iff.1 ((mem_insertionSort _).1 ha))
    ((mem_insertionSort _).1 hb) (hab.antisymm hba)

theorem dependenciesOf_perm (hperm : tasks'.Perm definition.tasks) (id d : String) :
    d ∈ ({ definition with tasks := tasks' } : GraphDefinition).dependenciesOf id ↔
      d ∈ definition.dependenciesOf id := by
  simp only [GraphDefinition.dependenciesOf, mem_flatMap, mem_filter, hperm.mem_iff]

theorem declared_perm (hserial : enc.Serial) (h : definition.Declared enc)
    (hperm : tasks'.Perm definition.tasks) :
    ({ definition with tasks := tasks' } : GraphDefinition).Declared enc := by
  have hids : ∀ id, id ∈ tasks'.map TaskSpec.id ↔ id ∈ definition.tasks.map TaskSpec.id :=
    fun id ↦ (hperm.map _).mem_iff
  refine ⟨h.runId, fun hnone ↦ h.nonempty ?_, hperm.length_eq ▸ h.few,
    h.accepted.subperm hperm.subperm, fun task htask d hd ↦ ?_, ?_, ?_⟩
  · rw [show tasks' = [] from hnone] at hperm
    exact hperm.nil_eq.symm
  · exact (hids d).2 (h.known task (hperm.mem_iff.1 htask) d hd)
  · obtain ⟨bytes, bytes', hbytes, hbytes', hlength⟩ :=
      hserial.length hperm h.accepted.checked definition.runId
    obtain ⟨legacy, hlegacy, hsize⟩ := h.legacy
    obtain rfl := Except.ok.inj (hlegacy.symm.trans hbytes)
    exact ⟨bytes', hbytes', hlength ▸ hsize⟩
  · rw [canonicalTasks_perm hperm h.accepted.ids]
    exact h.canonical

/-! ## Graphs -/

/-- Graphs that differ in the fingerprint of the tasks as they were declared, at most. -/
structure ValidatedGraph.Alike (graph graph' : ValidatedGraph) : Prop where
  order : graph'.topologicalOrder = graph.topologicalOrder
  tasks : graph'.byId.toList = graph.byId.toList
  byId : ∀ id : String, graph'.byId[id]? = graph.byId[id]?
  fingerprint : graph'.fingerprint = graph.fingerprint

/-- **Declaring the tasks in another order** makes the same graph of them. -/
theorem validate_alike (hserial : enc.Serial) (hperm : tasks'.Perm definition.tasks)
    {graph graph' : ValidatedGraph} (h : definition.validate enc = .ok graph)
    (h' : ({ definition with tasks := tasks' } : GraphDefinition).validate enc = .ok graph') :
    graph.Alike graph' := by
  have hdeclared := (GraphDefinition.validate_iff.1 ⟨graph, h⟩).1
  have hdeclared' := declared_perm hserial hdeclared hperm
  obtain ⟨htabled, haccepted, -, bytes, hbytes, hfingerprint⟩ := GraphDefinition.validate_graph h
  obtain ⟨htabled', -, -, bytes', hbytes', hfingerprint'⟩ := GraphDefinition.validate_graph h'
  obtain ⟨hids, hrespects, hleast⟩ := GraphDefinition.validate_least hdeclared h
  obtain ⟨hids', hrespects', hleast'⟩ := GraphDefinition.validate_least hdeclared' h'
  have hsame := dependenciesOf_perm hperm
  have hnames : (tasks'.map TaskSpec.id).Perm (definition.tasks.map TaskSpec.id) := hperm.map _
  have hcanonical := canonicalTasks_perm hperm haccepted.ids
  have hentries {byId : TreeMap String TaskSpec} {tasks : List TaskSpec} (h : Tabled tasks byId) :
      byId.toList = (canonicalTasks tasks).map fun task ↦ (task.id, task) := by
    rw [← h.toList, map_map]
    refine (map_id'' (fun entry ↦ rfl) _).symm.trans (map_congr_left fun entry hentry ↦ ?_)
    have hown := h.mem_of_some (TreeMap.mem_toList_iff_getElem?_eq_some.1 hentry)
    exact Prod.ext hown.2.symm rfl
  have htasks : graph'.byId.toList = graph.byId.toList := by
    rw [hentries htabled, hentries htabled', hcanonical]
  refine ⟨?_, htasks, fun id ↦ Option.ext fun task ↦ ?_, ?_⟩
  · rcases hleast _ (hids'.trans hnames) (hrespects'.congr fun id d ↦ (hsame id d).symm)
      with heq | hlt
    · exact heq.symm
    rcases hleast' _ (hids.trans hnames.symm) (hrespects.congr hsame) with heq | hlt'
    · exact heq
    · exact absurd hlt' (lex_asymm (fun h ↦ lt_asymm h) hlt)
  · rw [← TreeMap.mem_toList_iff_getElem?_eq_some, htasks, TreeMap.mem_toList_iff_getElem?_eq_some]
  · rw [hcanonical] at hbytes'
    rw [hfingerprint, hfingerprint', Except.ok.inj (hbytes.symm.trans hbytes')]

/-! ## Resuming -/

/-- The call with its tasks declared in another order. -/
def Call.redeclare (call : Call) (tasks : List TaskSpec) : Call :=
  { call with definition := { call.definition with tasks } }

section

variable {graph graph' : ValidatedGraph} {saved : ExecutionCheckpoint}

theorem ValidatedGraph.Alike.symm (h : graph.Alike graph') : graph'.Alike graph :=
  ⟨h.order.symm, h.tasks.symm, fun id ↦ (h.byId id).symm, h.fingerprint.symm⟩

theorem ValidatedGraph.Alike.spec (h : graph.Alike graph') : graph'.spec = graph.spec := by
  funext id
  rw [ValidatedGraph.spec, h.byId, ValidatedGraph.spec]

theorem ValidatedGraph.Alike.rateIntervals (h : graph.Alike graph') :
    Graph.rateIntervals graph' = Graph.rateIntervals graph := by
  rw [Graph.rateIntervals, h.tasks, Graph.rateIntervals]

theorem ValidatedGraph.Alike.reopenAll (h : graph.Alike graph') (records : Records) :
    Graph.reopenAll graph' records = Graph.reopenAll graph records := by
  simp only [Graph.reopenAll, reopen, h.order, h.spec]

theorem ValidatedGraph.Alike.checkHandlers (h : graph.Alike graph') (handlers : HandlerRegistry)
    (records : Records) :
    Graph.checkHandlers graph' handlers records = Graph.checkHandlers graph handlers records := by
  rw [Graph.checkHandlers, h.order, Graph.checkHandlers]

theorem ValidatedGraph.Alike.restoredRateHistory (h : graph.Alike graph')
    (checkpoint : Option ExecutionCheckpoint) (t : Thread) :
    Graph.restoredRateHistory graph' checkpoint t =
      Graph.restoredRateHistory graph checkpoint t := by
  have hrestore : restoreStart graph' = restoreStart graph := by
    funext now instantNow history entry
    rw [restoreStart, h.rateIntervals, restoreStart]
  rw [Graph.restoredRateHistory.eq_def, h.tasks, h.rateIntervals, hrestore,
    Graph.restoredRateHistory.eq_def]

theorem ValidatedGraph.Alike.admitCheckpoint (h : graph.Alike graph')
    (hsaved : saved.graphFingerprint = graph.fingerprint) (policy : ExecutionPolicy)
    (runId policyFingerprint : String) :
    Graph.admitCheckpoint enc policy runId graph' policyFingerprint saved =
      Graph.admitCheckpoint enc policy runId graph policyFingerprint saved := by
  have hrecord : admitRecord enc policy graph' saved.report.tasks =
      admitRecord enc policy graph saved.report.tasks := by
    funext minimum entry
    obtain ⟨id, record⟩ := entry
    simp only [admitRecord, h.byId]
  have hmem : saved.graphFingerprint ∈ [graph'.fingerprint, graph'.legacyFingerprint] ↔
      saved.graphFingerprint ∈ [graph.fingerprint, graph.legacyFingerprint] := by
    simp [hsaved, h.fingerprint]
  simp only [Graph.admitCheckpoint, hmem, hrecord]

/-- What is prepared from a checkpoint of one order is prepared from it in the other. -/
theorem prepare_alike {call : Call} (halike : graph.Alike graph')
    (hgraph : call.definition.validate call.enc = .ok graph)
    (hgraph' : (call.redeclare tasks').definition.validate call.enc = .ok graph')
    (hsaved : saved.graphFingerprint = graph.fingerprint) {world : World}
    {sink : Option CheckpointSink} {e : Execution} {run : Run}
    (h : call.prepare world (some saved) sink = .ok (e, run)) :
    (call.redeclare tasks').prepare world (some saved) sink = .ok ({ e with graph := graph' }, run) := by
  simp only [Call.prepare, Except.bind_ok, Option.elim_some, hgraph, Except.ok.injEq, exists_eq_left',
    pure, Except.pure, Prod.mk.injEq] at h
  obtain ⟨_, hbounded, bytes, hbytes, _, hadmitted, _, hhandled, retained, hretained, history, hhistory,
    rfl, rfl⟩ := h
  rw [← halike.admitCheckpoint hsaved] at hadmitted
  rw [← halike.checkHandlers] at hhandled
  rw [← halike.reopenAll] at hretained
  rw [← halike.restoredRateHistory] at hhistory
  rw [Call.prepare]
  refine Except.bind_ok.2 ⟨(), hbounded, Except.bind_ok.2 ⟨graph', hgraph', Except.bind_ok.2 ⟨bytes,
    hbytes, Except.bind_ok.2 ⟨(), hadmitted, Except.bind_ok.2 ⟨(), hhandled, ?_⟩⟩⟩⟩⟩
  refine Except.bind_ok.2 ⟨retained, hretained, Except.bind_ok.2 ⟨history, hhistory, ?_⟩⟩
  rw [halike.reopenAll]
  rfl

end

/-- What a run hands out bears the fingerprint of its graph. -/
theorem handed_fingerprint {call : Call} {world : World} {checkpoint : Option ExecutionCheckpoint}
    {sink : Option CheckpointSink} {x : Executed}
    (h : call.executeInner world checkpoint sink = some (.ok x)) {handed : Handed}
    (hhanded : handed ∈ x.run.handed) : ∃ graph, call.definition.validate call.enc = .ok graph ∧
      handed.checkpoint.graphFingerprint = graph.fingerprint := by
  obtain ⟨e, run, hprepared, -, hreported⟩ := executeInner_reported h
  obtain ⟨run', finishedAtUnix, durationMs, -, -, -, hcheckpoint⟩ :=
    moves_handed hprepared.handed hreported.moves handed hhanded
  exact ⟨e.graph, hprepared.validated, by rw [hcheckpoint]; rfl⟩

theorem resumes_alike {call : Call} {graph graph' : ValidatedGraph} (halike : graph.Alike graph')
    (hgraph : call.definition.validate call.enc = .ok graph)
    (hgraph' : (call.redeclare tasks').definition.validate call.enc = .ok graph')
    {saved : ExecutionCheckpoint} (hsaved : saved.graphFingerprint = graph.fingerprint) {world : World}
    {sink : Option CheckpointSink}
    (h : ∃ x, call.executeInner world (some saved) sink = some (.ok x)) :
    ∃ x, (call.redeclare tasks').executeInner world (some saved) sink = some (.ok x) := by
  obtain ⟨x, hx⟩ := h
  cases hprepare : call.prepare world (some saved) sink with
  | error error =>
    rw [Call.executeInner, hprepare] at hx
    cases hx
  | ok prepared =>
    exact executeInner_exists (prepare_alike halike hgraph hgraph' hsaved hprepare)

/-- **Another order makes no difference**: the tasks of a definition may be declared in any order,
and it is accepted or not whichever that is, with one order to run them in and one fingerprint, and
a checkpoint that a run hands out is one to resume from in either order or in neither. -/
theorem redeclared {call : Call} (hserial : call.enc.Serial)
    (hperm : tasks'.Perm call.definition.tasks) :
    ((∃ graph, call.definition.validate call.enc = .ok graph) ↔
      ∃ graph', (call.redeclare tasks').definition.validate call.enc = .ok graph') ∧
    (∀ graph graph', call.definition.validate call.enc = .ok graph →
      (call.redeclare tasks').definition.validate call.enc = .ok graph' →
      graph'.topologicalOrder = graph.topologicalOrder ∧ graph'.fingerprint = graph.fingerprint) ∧
    ∀ world checkpoint sink x, call.executeInner world checkpoint sink = some (.ok x) →
      ∀ handed ∈ x.run.handed, ∀ world' sink',
        (∃ y, call.executeInner world' (some handed.checkpoint) sink' = some (.ok y)) ↔
        ∃ y, (call.redeclare tasks').executeInner world' (some handed.checkpoint) sink' =
          some (.ok y) := by
  have hiff : (∃ graph, call.definition.validate call.enc = .ok graph) ↔
      ∃ graph', (call.redeclare tasks').definition.validate call.enc = .ok graph' := by
    have hacyclic : Acyclic (call.redeclare tasks').definition.dependenciesOf ↔
        Acyclic call.definition.dependenciesOf := acyclic_congr (dependenciesOf_perm hperm)
    rw [GraphDefinition.validate_iff, GraphDefinition.validate_iff, hacyclic]
    refine and_congr_left fun _ ↦ ⟨fun h ↦ declared_perm hserial h hperm, fun h ↦ ?_⟩
    have hback := declared_perm hserial h hperm.symm
    exact hback
  refine ⟨hiff, fun graph graph' hgraph hgraph' ↦ ?_, fun world checkpoint sink x hx handed hhanded
    world' sink' ↦ ?_⟩
  · have halike := validate_alike hserial hperm hgraph hgraph'
    exact ⟨halike.order, halike.fingerprint⟩
  · obtain ⟨graph, hgraph, hsaved⟩ := handed_fingerprint hx hhanded
    obtain ⟨graph', hgraph'⟩ := hiff.1 ⟨graph, hgraph⟩
    have halike := validate_alike hserial hperm hgraph hgraph'
    refine ⟨resumes_alike halike hgraph hgraph' hsaved, fun h ↦ ?_⟩
    have hback : ((call.redeclare tasks').redeclare call.definition.tasks).definition.validate
        (call.redeclare tasks').enc = .ok graph := hgraph
    exact resumes_alike halike.symm hgraph' hback (hsaved.trans halike.fingerprint.symm) h

/-- A task without limits, whose input is null, as JSON. -/
def Sample.taskJson (task : TaskSpec) : String :=
  "\x7b\"id\":\"" ++ task.id ++ "\",\"objective\":\"" ++ task.objective ++ "\",\"role\":\"" ++
    (if task.role = .verifier then "verifier" else "producer") ++ "\",\"input\":null," ++
    "\"input_schema\":\x7b\"type\":\"any\"\x7d,\"output_schema\":\x7b\"type\":\"any\"\x7d," ++
    "\"dependencies\":[" ++ String.intercalate "," (task.dependencies.map fun d ↦ "\"" ++ d ++ "\"") ++
    "],\"exclusive_resources\":[],\"rate_limit\":null,\"idempotency_key\":null," ++
    "\"requires_idempotency\":false,\"timeout_ms\":" ++ toString task.timeoutMs ++
    ",\"max_retries\":" ++ toString task.maxRetries ++ ",\"resource_units\":" ++
    toString task.resourceUnits ++ "\x7d"

/-- Encoders that write graphs of such tasks as JSON. -/
def Sample.json : Encoders :=
  { Sample.enc with
    task := fun task ↦ .ok (Text.utf8 (Sample.taskJson task))
    graph := fun definition ↦
      (definition.tasks.mapM fun task ↦ Except.ok (Text.utf8 (Sample.taskJson task))).map fun tasks ↦
        Text.utf8 "\x7b\"run_id\":" ++ Text.utf8 ("\"" ++ definition.runId ++ "\"") ++
          Text.utf8 ",\"tasks\":[" ++ List.intercalate (Text.utf8 ",") tasks ++
          Text.utf8 "]\x7d" }

/-- The tasks of the sample, the review declared first. -/
theorem redeclared_sample : ∃ call : Call, call.definition.tasks =
      [Sample.lookup none 0, Sample.review none 0] ∧
    ∀ graph graph', call.definition.validate call.enc = .ok graph →
      (call.redeclare [Sample.review none 0, Sample.lookup none 0]).definition.validate call.enc =
        .ok graph' →
      graph'.topologicalOrder = graph.topologicalOrder ∧ graph'.fingerprint = graph.fingerprint := by
  let call : Call := { Sample.call none 0 (.done Sample.found) with enc := Sample.json }
  have hserial : call.enc.Serial := ⟨fun runId ↦ Text.utf8 ("\"" ++ runId ++ "\""), fun _ ↦ rfl⟩
  have hperm : [Sample.review none 0, Sample.lookup none 0].Perm call.definition.tasks :=
    List.Perm.swap _ _ []
  exact ⟨call, rfl, (redeclared hserial hperm).2.1⟩

end Huntsman.Graph
