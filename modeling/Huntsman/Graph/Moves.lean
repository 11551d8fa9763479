import Huntsman.Graph.Execute

/-!
# What a run can do, move by move

The loop of a run has five ways out and settles tasks in seven places, but what it does to the run
is always one of six moves: look at a clock or at the stop flag, settle a pending task without
running it, conclude how the run ended, dispatch a wave, file what came of one task of the wave, and
hand out a checkpoint.  `Move` lists them with what is known when each is made, and a property of
runs is proved by showing that each of the six keeps it.
-/

set_option autoImplicit false

open Relation

namespace Huntsman.Graph

open Std

/-! ## Records -/

@[simp]
theorem recordOf_insert (records : Records) (id : String) (record : TaskRecord) (id' : String) :
    recordOf (records.insert id record) id' = if id' = id then record else recordOf records id' := by
  rw [recordOf, TreeMap.getElem?_insert]
  by_cases h : id' = id
  · subst h
    simp
  · simp [h, Ne.symm h, recordOf]

theorem recordOf_of_some {records : Records} {id : String} {record : TaskRecord}
    (h : records[id]? = some record) : recordOf records id = record := by
  rw [recordOf, h, Option.getD_some]

/-- A task that is not pending has a record. -/
theorem some_of_stateOf {records : Records} {id : String} (h : stateOf records id ≠ .pending) :
    records[id]? = some (recordOf records id) := by
  rw [stateOf, recordOf] at h
  cases hrecord : records[id]? with
  | none => simp [hrecord] at h
  | some record => rw [recordOf_of_some hrecord]

theorem some_of_mem {records : Records} {id : String} (h : id ∈ records) :
    records[id]? = some (recordOf records id) := by
  obtain ⟨record, hrecord⟩ := Option.isSome_iff_exists.1 (TreeMap.mem_iff_isSome_getElem?.1 h)
  rw [recordOf_of_some hrecord, hrecord]

theorem mem_pendingIds {records : Records} {id : String} :
    id ∈ pendingIds records ↔ id ∈ records ∧ stateOf records id = .pending := by
  simp only [pendingIds, List.mem_map, List.mem_filter, decide_eq_true_eq, Prod.exists,
    exists_and_right, exists_eq_right, TreeMap.mem_toList_iff_getElem?_eq_some]
  constructor
  · rintro ⟨record, hrecord, hstate⟩
    rw [stateOf, recordOf_of_some hrecord]
    exact ⟨TreeMap.mem_iff_isSome_getElem?.2 (by rw [hrecord]; rfl), hstate⟩
  · rintro ⟨hmem, hstate⟩
    exact ⟨_, some_of_mem hmem, hstate⟩

theorem nodup_pendingIds (records : Records) : (pendingIds records).Nodup := by
  have hkeys : (records.toList.map Prod.fst).Nodup := by
    rw [TreeMap.map_fst_toList_eq_keys]
    exact TreeMap.nodup_keys
  exact hkeys.sublist ((List.filter_sublist).map Prod.fst)

/-! ## Moves -/

/-- The states of tasks that are not run. -/
def TaskState.unrun : TaskState → Bool
  | .cancelled | .timedOut | .blocked => true
  | _ => false

/-- A state that is over, without success. -/
def TaskState.unsuccessful (state : TaskState) : Prop :=
  state.terminal = true ∧ state ≠ .succeeded

/-- A run, and the tasks of its last wave that have yet to be filed. -/
structure Stage where
  rest : List Dispatch
  run : Run

section

variable (e : Execution)

/-- The cumulative cost of tasks. -/
def cost (ids : List String) : ℕ := (ids.map fun id ↦ (e.graph.spec id).resourceUnits).sum

@[simp]
theorem cost_nil : cost e [] = 0 := rfl

@[simp]
theorem cost_cons (id : String) (ids : List String) :
    cost e (id :: ids) = (e.graph.spec id).resourceUnits + cost e ids := rfl

@[simp]
theorem cost_append (ids ids' : List String) : cost e (ids ++ ids') = cost e ids + cost e ids' := by
  simp [cost]

/-- What is known of a task that is dispatched from `records` on a thread that begins at `start`. -/
structure Dispatched (records : Records) (start : Thread) (d : Dispatch) : Prop where
  known : d.id ∈ e.graph.topologicalOrder
  pending : stateOf records d.id = .pending
  ready : ∀ dependency ∈ (e.graph.spec d.id).dependencies, stateOf records dependency = .succeeded
  job : e.job records d.id = .ok (d.id, d.job)
  ended : ∃ script, d.ended = d.job.run (start.spawn script)

/-- What is known of the tasks that are dispatched together. -/
structure Together (run : Run) (started : ℕ) (ds : List Dispatch) : Prop where
  nonempty : ds ≠ []
  nodup : (ds.map Dispatch.id).Nodup
  few : ds.length ≤ e.policy.maxConcurrency
  affordable : run.consumed + cost e (ds.map Dispatch.id) ≤ e.policy.maxTotalResourceUnits.toNat
  resources : ds.Pairwise fun a b ↦ ∀ resource ∈ (e.graph.spec a.id).exclusiveResources,
    resource ∉ (e.graph.spec b.id).exclusiveResources
  rateKeys : ds.Pairwise fun a b ↦ ∀ limit ∈ (e.graph.spec a.id).rateLimit,
    ∀ limit' ∈ (e.graph.spec b.id).rateLimit, limit.key ≠ limit'.key
  /-- The interval of every group has passed. -/
  eligible : ∀ d ∈ ds, ∀ limit ∈ (e.graph.spec d.id).rateLimit, ∀ last,
    run.lastRateStart[limit.key]? = some last → last + millis limit.minIntervalMs ≤ started

/-- Whether a group is that of one of the tasks. -/
def InGroups (key : String) (ids : List String) : Prop :=
  ∃ id ∈ ids, ∃ limit ∈ (e.graph.spec id).rateLimit, limit.key = key

/-- What dispatching a wave makes of a run.  The wave begins at `started`. -/
structure Begun (run : Run) (ds : List Dispatch) (run' : Run) : Prop where
  later : run.thread.Later run'.thread
  began : ∃ start : Thread, ∃ started unixMs : ℕ,
    run.thread.Later start ∧ started ≤ start.now ∧ Together e run started ds ∧
    (∀ d ∈ ds, Dispatched e run.records start d ∧ d.ended.thread.now ≤ run'.thread.now) ∧
    (∀ key, InGroups e key (ds.map Dispatch.id) → run'.lastRateStart[key]? = some started ∧
      run'.persistedRateStart[key]? = some unixMs ∧ { unixMs, age := 0 } ∈ run'.stamps) ∧
    ∀ key, ¬ InGroups e key (ds.map Dispatch.id) →
      run'.lastRateStart[key]? = run.lastRateStart[key]? ∧
        run'.persistedRateStart[key]? = run.persistedRateStart[key]?
  records : run'.records = run.records
  consumed : run'.consumed = run.consumed + cost e (ds.map Dispatch.id)
  retained : run'.retainedOutputBytes = run.retainedOutputBytes
  termination : run'.termination = run.termination
  waves : run'.waves = run.waves ++ [{ records := run.records, dispatched := ds }]
  stamps : ∀ stamp ∈ run.stamps, stamp ∈ run'.stamps
  handed : run'.handed = run.handed

/-- What becomes of the record of a task that was run. -/
inductive Outcome (run : Run) (ended record : TaskRecord) (run' : Run) : Prop where
  /-- It did not succeed. -/
  | unsuccessful (state : ended.state ≠ .succeeded) (same : record = ended)
      (retained : run'.retainedOutputBytes = run.retainedOutputBytes)
  /-- It succeeded, and its output is retained. -/
  | kept (state : ended.state = .succeeded) (same : record = ended)
      (output : TaskOutput) (recorded : ended.output = some output)
      (retained : run'.retainedOutputBytes = run.retainedOutputBytes + outputSize e.enc output)
      (fits : run'.retainedOutputBytes ≤ maxRunOutputBytes)
      (termination : run'.termination = run.termination)
  /-- It succeeded, but its output is too large to be retained. -/
  | dropped (state : ended.state = .succeeded) (output : TaskOutput)
      (recorded : ended.output = some output)
      (same : record = { ended with
        state := .failed, output := none, error := some "run output budget exhausted"
        retryable := false })
      (retained : run'.retainedOutputBytes = run.retainedOutputBytes)
      (large : maxRunOutputBytes < run.retainedOutputBytes + outputSize e.enc output)

/-- What filing a task makes of a run. -/
structure Filed (run : Run) (d : Dispatch) (run' : Run) : Prop where
  later : run.thread.Later run'.thread
  filed : ∃ record, run'.records = run.records.insert d.id record ∧
    Outcome e run { d.ended.record with
      attempts := satAdd8 (recordOf run.records d.id).attempts d.ended.record.attempts } record run'
  /-- The start of the last attempt is noted. -/
  stamped : ∀ limit ∈ (e.graph.spec d.id).rateLimit, ∀ last, d.ended.lastAttemptStart = some last →
    run'.lastRateStart[limit.key]? = some last ∧
      ∃ stamp ∈ run'.stamps, run'.persistedRateStart[limit.key]? = some stamp.start
  others : ∀ key, (∀ limit ∈ (e.graph.spec d.id).rateLimit, ∀ last,
      d.ended.lastAttemptStart = some last → limit.key ≠ key) →
    run'.lastRateStart[key]? = run.lastRateStart[key]? ∧
      run'.persistedRateStart[key]? = run.persistedRateStart[key]?
  consumed : run'.consumed = run.consumed
  waves : run'.waves = run.waves
  stamps : ∀ stamp ∈ run.stamps, stamp ∈ run'.stamps
  handed : run'.handed = run.handed

/-- One move of a run. -/
inductive Move : Stage → Stage → Prop where
  /-- A clock or the stop flag is looked at. -/
  | look (rest : List Dispatch) (run : Run) (thread : Thread) (later : run.thread.Later thread) :
      Move ⟨rest, run⟩ ⟨rest, { run with thread }⟩
  /-- A pending task is settled without being run. -/
  | settle (run : Run) (id : String) (state : TaskState) (error : String) (errors : List String)
      (known : id ∈ run.records) (pending : stateOf run.records id = .pending)
      (unrun : state.unrun) :
      Move ⟨[], run⟩ ⟨[], { run.settle state error id with errors }⟩
  /-- How the run ended is settled, some task having ended without success or the sink having
  failed. -/
  | conclude (run : Run) (termination : RunTermination) (errors : List String)
      (reason : (∃ id, (stateOf run.records id).unsuccessful) ∨
        ∃ handed ∈ run.handed, handed.failure.isSome) :
      Move ⟨[], run⟩ ⟨[], { run with termination, errors }⟩
  /-- A wave is dispatched. -/
  | dispatch (run : Run) (ds : List Dispatch) (run' : Run) (begun : Begun e run ds run') :
      Move ⟨[], run⟩ ⟨ds, run'⟩
  /-- What came of a task is filed. -/
  | file (d : Dispatch) (rest : List Dispatch) (run run' : Run) (filed : Filed e run d run') :
      Move ⟨d :: rest, run⟩ ⟨rest, run'⟩
  /-- A checkpoint of the run is handed to the sink. -/
  | hand (run : Run) (final : Bool) (finishedAtUnix : Option ℕ) (durationMs : ℕ) :
      Move ⟨[], run⟩ ⟨[], (e.hand final (e.report run finishedAtUnix durationMs) run).2⟩

/-- Any number of moves. -/
abbrev Moves : Stage → Stage → Prop := ReflTransGen (Move e)

end

end Huntsman.Graph
