import Huntsman.Graph.Guarantees

/-!
# Runs that go on where others stopped

A run may be resumed from a checkpoint that an earlier run handed out, which was itself resumed, and
so on back to a run that was started fresh: a `Lineage`.  Its history is the waves that each run had
dispatched when it handed the checkpoint out.

In a lineage no task is dispatched twice (`chain_counted`).
-/

set_option autoImplicit false

open Relation

namespace Huntsman.Graph

open List Std

/-! ## The history of a lineage -/

/-- What was dispatched in some waves. -/
def dispatchedIn (waves : List Wave) : List Dispatch := waves.flatMap Wave.dispatched

/-- The attempts of a task in some waves. -/
def attemptsOf (id : String) (waves : List Wave) : List Attempt :=
  ((dispatchedIn waves).filter (·.id = id)).flatMap fun d ↦ d.ended.attempts

/-- A checkpoint to go on from, or none, and the waves of the runs that led to it.  The runs may
have had different handlers. -/
inductive Lineage (call : Call) : Option ExecutionCheckpoint → List Wave → Prop where
  | fresh : Lineage call none []
  | resumed {checkpoint : Option ExecutionCheckpoint} {waves : List Wave}
      {handlers : HandlerRegistry} {world : World} {sink : Option CheckpointSink} {x : Executed}
      {handed : Handed} (before : Lineage call checkpoint waves)
      (ran : { call with handlers }.executeInner world checkpoint sink = some (.ok x))
      (mem : handed ∈ x.run.handed) : Lineage call (some handed.checkpoint) (waves ++ handed.waves)

@[simp]
theorem dispatchedIn_append (waves waves' : List Wave) :
    dispatchedIn (waves ++ waves') = dispatchedIn waves ++ dispatchedIn waves' := by
  simp [dispatchedIn]

@[simp]
theorem dispatchedIn_singleton (wave : Wave) : dispatchedIn [wave] = wave.dispatched := by
  simp [dispatchedIn]

/-- A task that was not dispatched was not attempted. -/
theorem attemptsOf_nil {id : String} {waves : List Wave}
    (h : id ∉ (dispatchedIn waves).map Dispatch.id) : attemptsOf id waves = [] := by
  have hnone : (dispatchedIn waves).filter (·.id = id) = [] := by
    rw [filter_eq_nil_iff]
    intro d hd heq
    exact h (by rw [← of_decide_eq_true heq]; exact mem_map_of_mem hd)
  rw [attemptsOf, hnone, flatMap_nil]

/-- The attempts of a task that was dispatched once. -/
theorem attemptsOf_of_mem {d : Dispatch} {waves : List Wave} (hd : d ∈ dispatchedIn waves)
    (hnodup : ((dispatchedIn waves).map Dispatch.id).Nodup) :
    attemptsOf d.id waves = d.ended.attempts := by
  rw [attemptsOf]
  generalize dispatchedIn waves = ds at hd hnodup
  induction ds with
  | nil => cases hd
  | cons first rest ih =>
    rw [map_cons, nodup_cons] at hnodup
    rcases mem_cons.1 hd with rfl | hd
    · have hrest : rest.filter (·.id = d.id) = [] := by
        rw [filter_eq_nil_iff]
        intro d' hd' heq
        exact hnodup.1 (by rw [← of_decide_eq_true heq]; exact mem_map_of_mem hd')
      rw [filter_cons_of_pos (by simp), hrest, flatMap_singleton]
    · have hne : first.id ≠ d.id := fun heq ↦ hnodup.1 (heq ▸ mem_map_of_mem hd)
      rw [filter_cons_of_neg (by simpa using hne)]
      exact ih hd hnodup.2

theorem attemptsOf_append {id : String} {waves : List Wave} {wave : Wave}
    (h : id ∉ wave.dispatched.map Dispatch.id) :
    attemptsOf id (waves ++ [wave]) = attemptsOf id waves := by
  have hnone : attemptsOf id [wave] = [] :=
    attemptsOf_nil (by rwa [dispatchedIn_singleton])
  simp only [attemptsOf, dispatchedIn_append, filter_append, flatMap_append] at hnone ⊢
  rw [hnone, append_nil]

/-! ## What holds along a lineage -/

section

variable {e : Execution}

/-- What holds of a run that went on after the waves in `prior`. -/
structure Counted (e : Execution) (prior : List Wave) (s : Stage) : Prop where
  /-- No task is dispatched twice. -/
  once : ((dispatchedIn (prior ++ s.run.waves)).map Dispatch.id).Nodup
  consumed : s.run.consumed = cost e ((dispatchedIn (prior ++ s.run.waves)).map Dispatch.id)
  /-- A pending task was not dispatched, unless it has yet to be filed. -/
  fresh : ∀ id, stateOf s.run.records id = .pending → id ∉ s.rest.map Dispatch.id →
    id ∉ (dispatchedIn (prior ++ s.run.waves)).map Dispatch.id
  unfiled : ∀ d ∈ s.rest, d ∈ dispatchedIn (prior ++ s.run.waves) ∧
    (recordOf s.run.records d.id).attempts = 0
  counted : ∀ id, id ∉ s.rest.map Dispatch.id → (recordOf s.run.records id).attempts =
    (attemptsOf id (prior ++ s.run.waves)).length
  /-- What failed but could be retried has no attempt left. -/
  spent : ∀ id, stateOf s.run.records id = .failed → (recordOf s.run.records id).retryable →
    satAdd8 (e.graph.spec id).maxRetries 1 ≤ (recordOf s.run.records id).attempts
  /-- Only a failure that could be retried was followed by another attempt. -/
  retried : ∀ d ∈ dispatchedIn (prior ++ s.run.waves), ∀ attempt ∈ d.ended.attempts.dropLast,
    ∃ message, attempt.answer = .failed ⟨message, true⟩

variable {prior : List Wave} {run' : Run} {d : Dispatch}

theorem Counted.dispatch {run : Run} {ds : List Dispatch}
    (h : Counted e prior ⟨[], run⟩) (hbegun : Begun e run ds run') :
    Counted e prior ⟨ds, run'⟩ := by
  obtain ⟨start, started, unixMs, _, _, htogether, hdispatched, _⟩ := hbegun.began
  have hall : dispatchedIn (prior ++ run'.waves) = dispatchedIn (prior ++ run.waves) ++ ds := by
    rw [hbegun.waves, ← append_assoc, dispatchedIn_append, dispatchedIn_singleton]
  have hfresh : ∀ d ∈ ds, d.id ∉ (dispatchedIn (prior ++ run.waves)).map Dispatch.id :=
    fun d hd ↦ h.fresh d.id (hdispatched d hd).1.pending not_mem_nil
  refine ⟨?_, ?_, fun id hpending hnot ↦ ?_, fun d hd ↦ ⟨?_, ?_⟩, fun id hnot ↦ ?_,
    fun id hstate hretryable ↦ ?_, fun d hd ↦ ?_⟩
  · simp only [hall, map_append]
    refine nodup_append.2 ⟨h.once, htogether.nodup, ?_⟩
    rintro id hid _ hid' rfl
    obtain ⟨d, hd, rfl⟩ := mem_map.1 hid'
    exact hfresh d hd hid
  · have hconsumed := h.consumed
    simp only at hconsumed
    simp only [hall, map_append, cost_append, hbegun.consumed, hconsumed]
  · simp only [hall, map_append, mem_append, not_or]
    simp only [hbegun.records] at hpending
    exact ⟨h.fresh id hpending not_mem_nil, hnot⟩
  · simp only [hall]
    exact mem_append_right _ hd
  · simp only [hbegun.records]
    rw [h.counted d.id not_mem_nil, attemptsOf_nil (hfresh d hd), length_nil]
  · simp only [hbegun.records, hbegun.waves, ← append_assoc]
    rw [attemptsOf_append hnot]
    exact h.counted id not_mem_nil
  · simp only [hbegun.records] at hstate hretryable ⊢
    exact h.spent id hstate hretryable
  · simp only [hall] at hd
    rcases mem_append.1 hd with hd | hd
    · exact h.retried d hd
    · obtain ⟨t, _, _, hended⟩ := (hdispatched d hd).1.job_ended
      exact hended.retried

/-- A task that failed in a way that could be retried had no attempt left. -/
theorem Sound.spent {run : Run} {rest : List Dispatch} {record : TaskRecord}
    (h : Sound e ⟨d :: rest, run⟩)
    (houtcome : Outcome e run { d.ended.record with
      attempts := satAdd8 (recordOf run.records d.id).attempts d.ended.record.attempts }
      record run') (hstate : record.state = .failed) (hretryable : record.retryable = true) :
    satAdd8 (e.graph.spec d.id).maxRetries 1 ≤ record.attempts := by
  obtain ⟨start, hd⟩ := h.rest d (.head _)
  obtain ⟨t, _, _, hended⟩ := hd.job_ended
  obtain ⟨_, _, hspec, _, _, hprior, _, _⟩ := job_ok.1 hd.job
  cases houtcome with
  | kept state same output recorded retained fits termination =>
    rw [same] at hstate
    rw [hstate] at state
    cases state
  | dropped state output recorded same retained large =>
    rw [same] at hretryable
    cases hretryable
  | unsuccessful state same retained =>
    subst same
    simp only at hstate hretryable ⊢
    rw [← hspec, ← hprior]
    cases hended.verdict with
    | cancelled state' _ _ => simp [hstate] at state'
    | timedOut state' _ => simp [hstate] at state'
    | succeeded _ _ _ _ state' _ _ _ => simp [hstate] at state'
    | spent _ _ _ _ retryable _ => simp [hretryable] at retryable
    | failed last failure attempts judged state' output retryable lastError none_left =>
      exact none_left (retryable.symm.trans hretryable)

/-- Every attempt of a dispatched task is counted. -/
theorem Dispatched.attempts_count {records : Records} {start : Thread}
    (h : Dispatched e records start d) :
    d.ended.record.attempts = d.ended.attempts.length ∧ d.ended.attempts.length ≤ 2 ^ 8 - 1 := by
  obtain ⟨t, _, _, hended⟩ := h.job_ended
  have hmax : d.job.maxAttempts ≤ 2 ^ 8 - 1 := min_le_right _ _
  exact ⟨hended.count, hended.within.trans ((Nat.sub_le _ _).trans hmax)⟩

theorem Counted.file {run : Run} {rest : List Dispatch}
    (hsound : Sound e ⟨d :: rest, run⟩) (h : Counted e prior ⟨d :: rest, run⟩)
    (hfiled : Filed e run d run') : Counted e prior ⟨rest, run'⟩ := by
  obtain ⟨start, hd⟩ := hsound.rest d (.head _)
  obtain ⟨record, hrecords, houtcome⟩ := hfiled.filed
  have hterminal := (hsound.filed houtcome).1
  have hnodup : d.id ∉ rest.map Dispatch.id := (nodup_cons.1 hsound.nodup).1
  obtain ⟨hmem, hzero⟩ := h.unfiled d (.head _)
  refine ⟨?_, ?_, fun id hpending hnot ↦ ?_, fun d' hd' ↦ ?_, fun id hnot ↦ ?_,
    fun id hstate hretryable ↦ ?_, ?_⟩
  · simp only [hfiled.waves]
    exact h.once
  · simp only [hfiled.waves, hfiled.consumed]
    exact h.consumed
  · simp only [hfiled.waves]
    simp only [hrecords, stateOf, recordOf_insert] at hpending
    split at hpending
    · rw [hpending] at hterminal
      cases hterminal
    · rename_i hne
      refine h.fresh id hpending ?_
      rw [map_cons, mem_cons, not_or]
      exact ⟨hne, hnot⟩
  · have hne : d'.id ≠ d.id := fun heq ↦ hnodup (heq ▸ mem_map_of_mem hd')
    simp only [hfiled.waves, hrecords, recordOf_insert, if_neg hne]
    exact h.unfiled d' (.tail _ hd')
  · simp only [hfiled.waves, hrecords, recordOf_insert]
    by_cases heq : id = d.id
    · subst heq
      have hattempts : record.attempts = satAdd8 (recordOf run.records d.id).attempts
          d.ended.record.attempts := by
        cases houtcome with
        | unsuccessful state same retained => rw [same]
        | kept state same output recorded retained fits termination => rw [same]
        | dropped state output recorded same retained large => rw [same]
      obtain ⟨hcount, hbound⟩ := hd.attempts_count
      rw [if_pos rfl, attemptsOf_of_mem hmem h.once, hattempts, hcount]
      simp only at hzero
      rw [hzero, satAdd8]
      omega
    · rw [if_neg heq]
      refine h.counted id ?_
      rw [map_cons, mem_cons, not_or]
      exact ⟨heq, hnot⟩
  · simp only [hrecords, stateOf, recordOf_insert] at hstate hretryable ⊢
    split at hstate
    · rename_i heq
      subst heq
      rw [if_pos rfl] at hretryable ⊢
      exact hsound.spent houtcome hstate hretryable
    · rename_i hne
      rw [if_neg hne] at hretryable ⊢
      exact h.spent id hstate hretryable
  · simp only [hfiled.waves]
    exact h.retried

theorem Counted.settle {run : Run} {id : String} {state : TaskState}
    {error : String} (h : Counted e prior ⟨[], run⟩) (hunrun : state.unrun = true)
    (errors : List String) :
    Counted e prior ⟨[], { run.settle state error id with errors }⟩ := by
  have hstate : state ≠ .pending ∧ state ≠ .failed := by
    constructor <;> rintro rfl <;> cases hunrun
  refine ⟨h.once, h.consumed, fun id' hpending _ ↦ ?_,
    fun _ hd ↦ absurd hd not_mem_nil, fun id' hnot ↦ ?_,
    fun id' hs hretryable ↦ ?_, h.retried⟩
  · simp only [stateOf, Run.settle, recordOf_insert] at hpending
    split at hpending
    · exact absurd hpending hstate.1
    · exact h.fresh id' hpending not_mem_nil
  · have hcounted := h.counted id' hnot
    simp only [Run.settle, recordOf_insert] at hcounted ⊢
    split
    · rename_i heq
      subst heq
      exact hcounted
    · exact hcounted
  · simp only [stateOf, Run.settle, recordOf_insert] at hs hretryable ⊢
    split at hs
    · exact absurd hs hstate.2
    · rename_i hne
      rw [if_neg hne] at hretryable ⊢
      exact h.spent id' hs hretryable

/-- **Every move keeps count.** -/
theorem Counted.move {s s' : Stage} (hsound : Sound e s)
    (h : Counted e prior s) (hmove : Move e s s') : Counted e prior s' := by
  cases hmove with
  | look rest run thread later =>
    exact ⟨h.once, h.consumed, h.fresh, h.unfiled, h.counted, h.spent, h.retried⟩
  | settle run id state error errors known pending unrun => exact h.settle unrun errors
  | conclude run termination errors reason =>
    exact ⟨h.once, h.consumed, h.fresh, h.unfiled, h.counted, h.spent, h.retried⟩
  | dispatch run ds run' begun => exact h.dispatch begun
  | file d rest run run' filed => exact h.file hsound filed
  | hand run final finishedAtUnix durationMs =>
    rw [Execution.hand]
    split
    · exact h
    · exact ⟨h.once, h.consumed, h.fresh, h.unfiled, h.counted, h.spent, h.retried⟩

theorem Counted.moves (he : Admitted e) {s s' : Stage} (hsound : Sound e s)
    (h : Counted e prior s) (hmoves : Moves e s s') : Counted e prior s' :=
  (Loop.steps_inv (fun t ↦ Sound e t ∧ Counted e prior t)
    (fun _ _ ht hmove ↦ ⟨ht.1.move he hmove, ht.2.move ht.1 hmove⟩) ⟨hsound, h⟩ hmoves).2

/-! ## Going on from a checkpoint -/

variable {call : Call} {world : World} {checkpoint : Option ExecutionCheckpoint}
  {sink : Option CheckpointSink} {run : Run} {x : Executed} {graph : ValidatedGraph}
  {handlers : HandlerRegistry} {waves : List Wave}

/-- A run that is started fresh has done nothing. -/
theorem Prepared.counted_fresh (h : Prepared call none sink e run) : Counted e [] ⟨[], run⟩ := by
  have hrecords : ∀ id, recordOf run.records id = {} := by
    intro id
    rw [h.records, recordOf_reopenAll]
    split
    · simp [reopen, savedTasks, recordOf]
    · rfl
  refine ⟨?_, ?_, fun id _ _ ↦ ?_, by simp, fun id _ ↦ ?_, fun id hstate _ ↦ ?_, ?_⟩
  · simp [h.waves, dispatchedIn]
  · simp [h.waves, dispatchedIn, h.consumed]
  · simp [h.waves, dispatchedIn]
  · simp [h.waves, hrecords, attemptsOf, dispatchedIn]
  · simp [stateOf, hrecords] at hstate
  · simp [h.waves, dispatchedIn]

/-- A run that goes on from the checkpoint of another goes on from its count: reopening reopens what
was pending, and nothing else. -/
theorem Prepared.counted_resumed {e' : Execution}
    {finishedAtUnix : Option ℕ} {durationMs : ℕ} (hgraph : e'.graph = e.graph)
    (h : Prepared call (some (.fromReport (e'.report run' finishedAtUnix durationMs))) sink e run)
    (hsound : Sound e' ⟨[], run'⟩) (hcounted : Counted e' prior ⟨[], run'⟩) :
    Counted e (prior ++ run'.waves) ⟨[], run⟩ := by
  have hreopened : ∀ id, id ∈ e.graph.topologicalOrder →
      Reopened (satAdd8 (e.graph.spec id).maxRetries 1) (recordOf run'.records id)
        (recordOf run.records id) := by
    intro id hid
    rw [h.records, recordOf_reopenAll, if_pos hid]
    exact reopen_reopened _ _ id
  have hunknown : ∀ id, id ∉ e.graph.topologicalOrder →
      recordOf run.records id = {} ∧ recordOf run'.records id = {} := by
    intro id hid
    constructor
    · rw [h.records, recordOf_reopenAll, if_neg hid]
    · have hnot : id ∉ run'.records := fun hmem ↦ hid (hgraph ▸ (hsound.known id).1 hmem)
      rw [recordOf, TreeMap.getElem?_eq_none hnot, Option.getD_none]
  have hpending : ∀ id, stateOf run.records id = .pending → stateOf run'.records id = .pending := by
    intro id hstate
    by_cases hid : id ∈ e.graph.topologicalOrder
    · cases hreopened id hid with
      | kept same settled =>
        rw [stateOf, same] at hstate
        exact absurd hstate settled.1
      | reset same unfinished =>
        rcases unfinished with hwas | hwas | ⟨hwas, hretryable, hleft⟩
        · exact hwas
        · exact absurd hwas (hsound.idle id)
        · have hspent := hcounted.spent id hwas hretryable
          rw [hgraph] at hspent
          exact absurd hleft (Nat.not_lt_of_le hspent)
    · rw [stateOf, (hunknown id hid).2]
  have hattempts : ∀ id, (recordOf run.records id).attempts = (recordOf run'.records id).attempts := by
    intro id
    by_cases hid : id ∈ e.graph.topologicalOrder
    · exact (hreopened id hid).attempts
    · rw [(hunknown id hid).1, (hunknown id hid).2]
  have hwaves : prior ++ run'.waves ++ run.waves = prior ++ run'.waves := by
    rw [h.waves, append_nil]
  refine ⟨?_, ?_, fun id hstate _ ↦ ?_, by simp, fun id _ ↦ ?_, fun id hstate hretryable ↦ ?_, ?_⟩
  · simp only [hwaves]
    exact hcounted.once
  · simp only [hwaves]
    have hconsumed := hcounted.consumed
    simp only [cost, hgraph] at hconsumed
    rw [h.consumed]
    exact hconsumed
  · simp only [hwaves]
    exact hcounted.fresh id (hpending id hstate) not_mem_nil
  · simp only [hwaves]
    rw [hattempts id]
    exact hcounted.counted id not_mem_nil
  · by_cases hid : id ∈ e.graph.topologicalOrder
    · cases hreopened id hid with
      | kept same settled =>
        simp only [stateOf, same] at hstate hretryable ⊢
        have hspent := hcounted.spent id hstate hretryable
        rwa [hgraph] at hspent
      | reset same unfinished =>
        simp only [stateOf, same] at hstate
        cases hstate
    · simp only [stateOf, (hunknown id hid).1] at hstate
      cases hstate
  · simp only [hwaves]
    exact hcounted.retried

/-- **A lineage keeps count**, run after run. -/
theorem lineage_counted (hchain : Lineage call checkpoint waves)
    (h : Prepared { call with handlers } checkpoint sink e run) : Counted e waves ⟨[], run⟩ := by
  induction hchain generalizing handlers sink e run with
  | fresh => exact h.counted_fresh
  | @resumed checkpoint' waves' handlers' world' sink' x handed before ran mem ih =>
    obtain ⟨e', run', hprepared, _, hreported⟩ := executeInner_reported ran
    obtain ⟨at_, finishedAtUnix, durationMs, hmoves, _, hwaves, hcheckpoint⟩ :=
      moves_handed hprepared.handed hreported.moves handed mem
    have hgraph : e'.graph = e.graph :=
      Except.ok.inj (hprepared.validated.symm.trans h.validated)
    rw [hcheckpoint] at h
    rw [hwaves]
    exact h.counted_resumed hgraph (hprepared.sound.moves hprepared.admitted hmoves)
      ((ih hprepared).moves hprepared.admitted hprepared.sound hmoves)

/-- **Attempts and charges count once along a lineage.**  Whatever runs went before, each going on
from a checkpoint that the one before handed out, no task is dispatched twice; the consumed units
are those of the tasks that were dispatched, once each; and a task was attempted as often as its
record says, at most once more than it may be retried, each time but the last failing in a way that
can be retried. -/
theorem chain_counted (hchain : Lineage call checkpoint waves)
    (h : { call with handlers }.executeInner world checkpoint sink = some (.ok x))
    (hgraph : call.definition.validate call.enc = .ok graph) :
    ((dispatchedIn (waves ++ x.run.waves)).map Dispatch.id).Nodup ∧
    x.report.consumedResourceUnits = ((dispatchedIn (waves ++ x.run.waves)).map fun d ↦
      (graph.spec d.id).resourceUnits).sum ∧
    ∀ id, (recordOf x.report.tasks id).attempts = (attemptsOf id (waves ++ x.run.waves)).length ∧
      (attemptsOf id (waves ++ x.run.waves)).length ≤ (graph.spec id).maxRetries + 1 ∧
      ∀ attempt ∈ (attemptsOf id (waves ++ x.run.waves)).dropLast,
        ∃ message, attempt.answer = .failed ⟨message, true⟩ := by
  obtain ⟨e, run, hprepared, _, hreported⟩ := executeInner_reported h
  have hsame : call.definition.validate call.enc = .ok e.graph := hprepared.validated
  rw [hgraph, Except.ok.injEq] at hsame
  subst hsame
  have hcounted := (lineage_counted hchain hprepared).moves hprepared.admitted hprepared.sound
    hreported.moves
  have hsound := hprepared.sound.moves hprepared.admitted hreported.moves
  refine ⟨hcounted.once, ?_, fun id ↦ ?_⟩
  · rw [hreported.consumed, hcounted.consumed, cost, List.map_map]
    rfl
  · have hcount := hcounted.counted id List.not_mem_nil
    rw [hreported.tasks]
    refine ⟨hcount, ?_, ?_⟩
    · have hbound := (hsound.saved id).attempts
      simp only at hcount hbound
      rw [← hcount]
      exact hbound.trans (min_le_left _ _)
    · by_cases hid : id ∈ (dispatchedIn (waves ++ x.run.waves)).map Dispatch.id
      · obtain ⟨d, hd, rfl⟩ := List.mem_map.1 hid
        rw [attemptsOf_of_mem hd hcounted.once]
        exact hcounted.retried d hd
      · simp [attemptsOf_nil hid]

/-- The sample, interrupted after the lookup and resumed, looks up once and reviews once. -/
theorem chain_counted_sample : ∃ (handed : Handed) (x : Executed) (graph : ValidatedGraph),
    (dispatchedIn (handed.waves ++ x.run.waves)).map Dispatch.id = ["lookup", "review"] ∧
    x.run.waves.length = 1 ∧
    x.report.consumedResourceUnits = ((dispatchedIn (handed.waves ++ x.run.waves)).map fun d ↦
      (graph.spec d.id).resourceUnits).sum ∧
    (recordOf x.report.tasks "lookup").attempts =
      (attemptsOf "lookup" (handed.waves ++ x.run.waves)).length := by
  have hended : endedWith
      (fun first ↦ first.run.handed.head?.any fun handed ↦ endedWith
        (fun x ↦ (dispatchedIn (handed.waves ++ x.run.waves)).map Dispatch.id = ["lookup", "review"] ∧
          x.run.waves.length = 1)
        ((Sample.call none 0 (.done Sample.found)).executeInner Sample.world
          (some handed.checkpoint) none))
      ((Sample.call none 0 (.done Sample.found)).executeInner Sample.world none
        (some Sample.sink)) = true := by decide +kernel
  obtain ⟨first, hfirst, hhead⟩ := endedWith_iff.1 hended
  obtain ⟨handed, hhanded, hrest⟩ := (Option.any_eq_true _ _).1 hhead
  obtain ⟨x, hx, hshape⟩ := endedWith_iff.1 hrest
  obtain ⟨hids, hlength⟩ := of_decide_eq_true hshape
  obtain ⟨e, run, hprepared, _⟩ := executeInner_reported hx
  have hsame : Sample.call none 0 (.done Sample.found) = { Sample.call none 0 (.done Sample.found) with
      handlers := (Sample.call none 0 (.done Sample.found)).handlers } := rfl
  rw [hsame] at hfirst hx
  have hchain := Lineage.resumed .fresh hfirst (mem_of_mem_head? hhanded)
  obtain ⟨_, hconsumed, hattempts⟩ := chain_counted hchain hx hprepared.validated
  exact ⟨handed, x, e.graph, hids, hlength, hconsumed, (hattempts "lookup").1⟩

end

end Huntsman.Graph
