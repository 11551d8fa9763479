import Huntsman.Graph.Guarantees

/-!
# How executions end

Every execution that is not refused ends with a report in which every task is over, and every pass
of its loop on the way there settles a task, unless it only waits for a rate limit.

How the run ended is written in many places, but only where some task ended without success, or
where a checkpoint could not be persisted (`Concluded`).  So a run is reported as complete exactly
when all its tasks succeeded, provided that it began as complete.  A resumed run need not: a
checkpoint may carry over how the run before ended, and that stays (`completed_carried_over`).
-/

set_option autoImplicit false

open Relation

namespace Huntsman.Graph

open Std

/-! ## How a run ended, along its moves -/

section

variable {e : Execution}

/-- A run ends as it began unless some task ended without success or the sink failed. -/
def Concluded (start : RunTermination) (s : Stage) : Prop :=
  s.run.termination = start ∨ (∃ id, (stateOf s.run.records id).unsuccessful) ∨
    ∃ handed ∈ s.run.handed, handed.failure.isSome

/-- What ended without success stays so. -/
theorem unsuccessful_stays {s s' : Stage} (hsound : Sound e s) (hmove : Move e s s') {id : String}
    (h : (stateOf s.run.records id).unsuccessful) : (stateOf s'.run.records id).unsuccessful := by
  have hover : stateOf s.run.records id ≠ .pending := by
    intro hpending
    rw [hpending] at h
    exact absurd h.1 (by simp [TaskState.terminal])
  rw [stateOf, move_over hsound hmove hover]
  exact h

theorem handed_stays {s s' : Stage} (hmove : Move e s s') {handed : Handed}
    (h : handed ∈ s.run.handed) : handed ∈ s'.run.handed := by
  cases hmove with
  | look rest run thread later => exact h
  | settle run id state error errors known pending unrun => exact h
  | conclude run termination errors reason => exact h
  | dispatch run ds run' begun => exact begun.handed ▸ h
  | file d rest run run' filed => exact filed.handed ▸ h
  | hand run final finishedAtUnix durationMs =>
    rw [Execution.hand]
    split
    · exact h
    · exact List.mem_append_left _ h

theorem move_concluded {start : RunTermination} {s s' : Stage} (hsound : Sound e s)
    (h : Concluded start s) (hmove : Move e s s') : Concluded start s' := by
  rcases h with hsame | ⟨id, hid⟩ | ⟨handed, hhanded, hfailure⟩
  · cases hmove with
    | look rest run thread later => exact .inl hsame
    | settle run id state error errors known pending unrun => exact .inl hsame
    | conclude run termination errors reason => exact .inr reason
    | dispatch run ds run' begun => exact .inl (begun.termination.trans hsame)
    | file d rest run run' filed =>
      obtain ⟨record, hrecords, houtcome⟩ := filed.filed
      have hterminal := (hsound.filed houtcome).1
      have hstate : stateOf run'.records d.id = record.state := by
        rw [stateOf, hrecords, recordOf_insert, if_pos rfl]
      have hunsuccessful (hnot : record.state ≠ .succeeded) : Concluded start ⟨rest, run'⟩ :=
        .inr (.inl ⟨d.id, by rw [hstate]; exact ⟨hterminal, hnot⟩⟩)
      cases houtcome with
      | unsuccessful state same retained => exact hunsuccessful (same ▸ state)
      | kept state same output recorded retained fits termination =>
        exact .inl (termination.trans hsame)
      | dropped state output recorded same retained large =>
        exact hunsuccessful (by simp [same])
    | hand run final finishedAtUnix durationMs =>
      rw [Execution.hand]
      split
      · exact .inl hsame
      · exact .inl hsame
  · exact .inr (.inl ⟨id, unsuccessful_stays hsound hmove hid⟩)
  · exact .inr (.inr ⟨handed, handed_stays hmove hhanded, hfailure⟩)

theorem moves_concluded (he : Admitted e) {s s' : Stage} (hsound : Sound e s)
    (hmoves : Moves e s s') : Concluded s.run.termination s' := by
  have h := Loop.steps_inv (fun t ↦ Sound e t ∧ Concluded s.run.termination t)
    (fun t t' ht hmove ↦ ⟨ht.1.move he hmove, move_concluded ht.1 ht.2 hmove⟩)
    ⟨hsound, .inl rfl⟩ hmoves
  exact h.2

end

/-! ## Executions -/

section

variable {e : Execution} {run : Run} {call : Call} {world : World}
  {checkpoint : Option ExecutionCheckpoint} {sink : Option CheckpointSink} {x : Executed}
  {graph : ValidatedGraph}

/-- How a run begins: as complete, or as a checkpoint carries over how the run before ended. -/
def carriedTermination (graph : ValidatedGraph) (checkpoint : Option ExecutionCheckpoint) :
    RunTermination :=
  startTermination (reopenAll graph (savedTasks checkpoint))
    (checkpoint.bind fun saved ↦ saved.report.termination)

/-- A run that is not resumed begins as complete. -/
theorem carriedTermination_none (graph : ValidatedGraph) :
    carriedTermination graph none = .completed := by
  have hpending : ∀ id, stateOf (reopenAll graph (savedTasks none)) id = .pending := by
    intro id
    rw [stateOf, recordOf_reopenAll]
    split
    · simp [reopen, savedTasks, recordOf]
    · rfl
  unfold carriedTermination startTermination
  rw [Option.bind_none]
  split
  · rfl
  · rw [Option.getD_none]
    refine deriveTermination_completed.2 fun id hid ↦ ?_
    rw [hpending] at hid
    exact absurd hid.1 (by simp [TaskState.terminal])

/-- What a run that has gone round some times is. -/
theorem rounds_sound (hprepared : Prepared call checkpoint sink e run) {run' : Run}
    (hrounds : ReflTransGen (fun a b ↦ e.iteration a = .again b) run run') :
    Sound e ⟨[], run'⟩ := by
  refine Loop.steps_inv (fun t ↦ Sound e ⟨[], t⟩) (fun a b ha hpass ↦ ?_) hprepared.sound hrounds
  have hmeets := iteration_meets hprepared.admitted ha
  rw [hpass] at hmeets
  exact ha.moves hprepared.admitted hmeets.moves

/-- **Every pass settles a task**, unless it merely waits or finds all of them over. -/
theorem round_progress (hprepared : Prepared call checkpoint sink e run) {run' : Run}
    (hrounds : ReflTransGen (fun a b ↦ e.iteration a = .again b) run run') :
    (e.iteration run').Meets
      (fun r ↦ ∃ last, r = .ok last ∧ (pendingCount last.records < pendingCount run'.records ∨
        last = run' ∧ pendingCount run'.records = 0))
      (fun next ↦ pendingCount next.records < pendingCount run'.records ∨ Waited e run' next) := by
  have hmeets := iteration_meets hprepared.admitted (rounds_sound hprepared hrounds)
  cases hpass : e.iteration run' with
  | leave r =>
    rw [hpass] at hmeets
    obtain ⟨last, rfl, hleaves⟩ := hmeets
    refine ⟨last, rfl, hleaves.progress.imp_right fun hsame ↦ ⟨hsame, ?_⟩⟩
    rw [← hsame]
    exact hleaves.done
  | again next =>
    rw [hpass] at hmeets
    exact hmeets.progress

/-- A report says completed when all tasks succeeded and the run began as complete. -/
theorem Reported.completed_iff (he : Admitted e) (hsound : Sound e ⟨[], run⟩)
    (h : Reported e run x) (hsink : ∀ handed ∈ x.run.handed, handed.failure = none) :
    x.report.termination = some .completed ↔
      (∀ id ∈ e.graph.topologicalOrder, stateOf x.report.tasks id = .succeeded) ∧
        run.termination = .completed := by
  have hsound' := hsound.moves he h.moves
  have hconcluded := moves_concluded he hsound h.moves
  have hnofailure : ¬ ∃ handed ∈ x.run.handed, handed.failure.isSome := by
    rintro ⟨handed, hhanded, hfailure⟩
    rw [hsink handed hhanded] at hfailure
    cases hfailure
  rw [h.termination hsink, Option.some.injEq]
  constructor
  · intro hcompleted
    have hnone := deriveTermination_completed.1 (h.derived hcompleted)
    refine ⟨fun id hid ↦ ?_, ?_⟩
    · by_contra hnot
      refine hnone id ⟨?_, ?_⟩
      · rw [← h.tasks]
        exact h.over he hsound hid
      · rw [← h.tasks]
        exact hnot
    · rcases hconcluded with hsame | ⟨id, hid⟩ | hfailure
      · rw [← hsame]
        exact hcompleted
      · exact absurd hid (hnone id)
      · exact absurd hfailure hnofailure
  · rintro ⟨hall, hstart⟩
    rcases hconcluded with hsame | ⟨id, hid⟩ | hfailure
    · rw [hsame]
      exact hstart
    · have hknown : id ∈ e.graph.topologicalOrder :=
        (hsound'.known id).1 (TreeMap.mem_iff_isSome_getElem?.2 (by
          rw [some_of_stateOf fun hpending ↦ by simp [hpending, TaskState.unsuccessful,
            TaskState.terminal] at hid]
          rfl))
      have hsucceeded := hall id hknown
      rw [h.tasks] at hsucceeded
      exact absurd hsucceeded hid.2
    · exact absurd hfailure hnofailure

/-- **Executions end well**: every task is over in the report, every pass of the loop on the way
settles a task unless it merely waits for a rate limit or finds all tasks over, and unless a sink
failed the report says completed exactly when all tasks succeeded and the run began as complete, as
a fresh run does. -/
theorem execution_ends (h : call.executeInner world checkpoint sink = some (.ok x))
    (hgraph : call.definition.validate call.enc = .ok graph) :
    (∀ entry ∈ x.report.tasks.toList, entry.2.state.terminal) ∧
    (∀ e run run', call.prepare world checkpoint sink = .ok (e, run) →
      ReflTransGen (fun a b ↦ e.iteration a = .again b) run run' →
      (e.iteration run').Meets
        (fun r ↦ ∃ last, r = .ok last ∧ (pendingCount last.records < pendingCount run'.records ∨
          last = run' ∧ pendingCount run'.records = 0))
        (fun next ↦ pendingCount next.records < pendingCount run'.records ∨
          Waited e run' next)) ∧
    ((∀ handed ∈ x.run.handed, handed.failure = none) →
      (x.report.termination = some .completed ↔
        (∀ id ∈ graph.topologicalOrder, stateOf x.report.tasks id = .succeeded) ∧
          carriedTermination graph checkpoint = .completed)) ∧
    (checkpoint = none → carriedTermination graph checkpoint = .completed) := by
  obtain ⟨e, run, hprepared, _, hreported⟩ := executeInner_reported h
  have hsame := hprepared.validated
  rw [hgraph, Except.ok.injEq] at hsame
  subst hsame
  have hstart : run.termination = carriedTermination e.graph checkpoint := by
    rw [hprepared.termination, hprepared.records, carriedTermination]
  refine ⟨fun entry hentry ↦ ?_, fun e run run' hprepare hrounds ↦
    round_progress (prepare_prepared hprepare) hrounds, fun hsink ↦ ?_, ?_⟩
  · have hrecord := TreeMap.mem_toList_iff_getElem?_eq_some.1 hentry
    have hknown : entry.1 ∈ e.graph.topologicalOrder := by
      refine ((hprepared.sound.moves hprepared.admitted hreported.moves).known entry.1).1 ?_
      rw [← hreported.tasks, TreeMap.mem_iff_isSome_getElem?, hrecord]
      rfl
    rw [← recordOf_of_some hrecord]
    exact hreported.over hprepared.admitted hprepared.sound hknown
  · rw [← hstart]
    exact hreported.completed_iff hprepared.admitted hprepared.sound hsink
  · rintro rfl
    exact carriedTermination_none e.graph

/-- The sample ends, and is complete. -/
theorem execution_ends_sample : ∃ (x : Executed) (graph : ValidatedGraph),
    x.run.handed.length = 3 ∧ (∀ entry ∈ x.report.tasks.toList, entry.2.state.terminal) ∧
    (x.report.termination = some .completed ↔
      (∀ id ∈ graph.topologicalOrder, stateOf x.report.tasks id = .succeeded) ∧
        carriedTermination graph none = .completed) ∧
    carriedTermination graph none = .completed := by
  have hended : endedWith
      (fun x ↦ x.run.handed.length = 3 ∧ ∀ handed ∈ x.run.handed, handed.failure = none)
      ((Sample.call none 0 (.done Sample.found)).executeInner Sample.world none
        (some Sample.sink)) = true := by decide +kernel
  obtain ⟨x, hx, hshape⟩ := endedWith_iff.1 hended
  obtain ⟨e, run, hprepared, _⟩ := executeInner_reported hx
  obtain ⟨hlength, hsink⟩ := of_decide_eq_true hshape
  have hends := execution_ends hx hprepared.validated
  exact ⟨x, e.graph, hlength, hends.1, hends.2.2.1 hsink, hends.2.2.2 rfl⟩

/-- A sink that persists every checkpoint but the last. -/
def Sample.lastFails : CheckpointSink := fun _ checkpoint ↦
  if checkpoint.report.finishedAtUnix.isSome then some "disk full" else none

/-- **A resumed run may have ended before it began.**  The last checkpoint of the sample cannot be
persisted, so its report says failed although both tasks succeeded; resumed from that report, with a
sink that works, the run is reported as failed again. -/
theorem completed_carried_over :
    ¬ ∀ (call : Call) (world : World) (checkpoint : Option ExecutionCheckpoint)
      (sink : Option CheckpointSink) (x : Executed),
      call.executeInner world checkpoint sink = some (.ok x) →
      (∀ handed ∈ x.run.handed, handed.failure = none) →
      (x.report.termination = some .completed ↔
        ∀ entry ∈ x.report.tasks.toList, entry.2.state = .succeeded) := by
  intro hall
  have hended : endedWith
      (fun first ↦ endedWith
        (fun x ↦ (∀ handed ∈ x.run.handed, handed.failure = none) ∧
          x.report.termination ≠ some .completed ∧
          ∀ entry ∈ x.report.tasks.toList, entry.2.state = .succeeded)
        ((Sample.call none 0 (.done Sample.found)).executeInner Sample.world
          (some (.fromReport first.report)) (some Sample.sink)))
      ((Sample.call none 0 (.done Sample.found)).executeInner Sample.world none
        (some Sample.lastFails)) = true := by decide +kernel
  obtain ⟨first, _, hsecond⟩ := endedWith_iff.1 hended
  obtain ⟨x, hx, hshape⟩ := endedWith_iff.1 hsecond
  obtain ⟨hsink, hnot, hsucceeded⟩ := of_decide_eq_true hshape
  exact hnot ((hall _ _ _ _ x hx hsink).2 hsucceeded)

end

end Huntsman.Graph
