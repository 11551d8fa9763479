import Huntsman.Graph.Iterate

/-!
# The end of a run

When the loop was left the run is reported, and a last checkpoint is handed out.  That makes a few
more moves, so everything that moves keep holds of what is reported, and of every checkpoint that
was handed out on the way (`Reported`, `HandedFrom`).
-/

set_option autoImplicit false

open Relation

namespace Huntsman.Graph

open Std

/-! ## How a run ended -/

theorem mem_states {records : Records} {state : TaskState} (hstate : state ≠ .pending) :
    state ∈ (records.toList.map fun entry ↦ entry.2.state) ↔ ∃ id, stateOf records id = state := by
  simp only [List.mem_map, Prod.exists, TreeMap.mem_toList_iff_getElem?_eq_some]
  constructor
  · rintro ⟨id, record, hrecord, rfl⟩
    exact ⟨id, by rw [stateOf, recordOf_of_some hrecord]⟩
  · rintro ⟨id, rfl⟩
    exact ⟨id, _, some_of_stateOf hstate, rfl⟩

/-- What the termination is derived from. -/
theorem deriveTermination_eq (records : Records) : deriveTermination records =
    open Classical in
    if ∃ id, stateOf records id = .timedOut then .timedOut
    else if ∃ id, stateOf records id = .cancelled then .cancelled
    else if (∃ id, stateOf records id = .failed) ∨ ∃ id, stateOf records id = .blocked then .failed
    else .completed := by
  rw [deriveTermination]
  congr 1
  · exact propext (mem_states (by simp))
  congr 1
  · exact propext (mem_states (by simp))
  congr 1
  exact propext (or_congr (mem_states (by simp)) (mem_states (by simp)))

/-- **A run is complete** when no task ended without success. -/
theorem deriveTermination_completed {records : Records} :
    deriveTermination records = .completed ↔ ∀ id, ¬ (stateOf records id).unsuccessful := by
  rw [deriveTermination_eq]
  constructor
  · intro h id hid
    split at h
    · cases h
    split at h
    · cases h
    split at h
    · cases h
    rename_i htimedOut hcancelled hfailed
    rw [not_or] at hfailed
    obtain ⟨hterminal, hstate⟩ := hid
    cases hs : stateOf records id with
    | pending => simp [hs, TaskState.terminal] at hterminal
    | running => simp [hs, TaskState.terminal] at hterminal
    | succeeded => exact hstate hs
    | failed => exact hfailed.1 ⟨id, hs⟩
    | timedOut => exact htimedOut ⟨id, hs⟩
    | cancelled => exact hcancelled ⟨id, hs⟩
    | blocked => exact hfailed.2 ⟨id, hs⟩
  · intro h
    have hnone {state : TaskState} (hstate : state.unsuccessful) :
        ¬ ∃ id, stateOf records id = state := by
      rintro ⟨id, hid⟩
      exact h id (hid ▸ hstate)
    rw [if_neg (hnone ⟨rfl, by simp⟩), if_neg (hnone ⟨rfl, by simp⟩), if_neg]
    rw [not_or]
    exact ⟨hnone ⟨rfl, by simp⟩, hnone ⟨rfl, by simp⟩⟩

/-! ## What is over stays as it is -/

variable {e : Execution}

variable {s s' : Stage}

/-- No move touches the record of a task that is over. -/
theorem move_over (hsound : Sound e s) (hmove : Move e s s') {id : String}
    (hover : stateOf s.run.records id ≠ .pending) :
    recordOf s'.run.records id = recordOf s.run.records id := by
  cases hmove with
  | look rest run thread later => rfl
  | settle run id' state error errors known pending unrun =>
    have hne : id ≠ id' := by
      rintro rfl
      exact hover pending
    simp only [Run.settle, recordOf_insert, if_neg hne]
  | conclude run termination errors reason => rfl
  | dispatch run ds run' begun => rw [begun.records]
  | file d rest run run' filed =>
    obtain ⟨start, hd⟩ := hsound.rest d (.head _)
    obtain ⟨record, hrecords, _⟩ := filed.filed
    have hne : id ≠ d.id := by
      rintro rfl
      exact hover hd.pending
    simp only [hrecords, recordOf_insert, if_neg hne]
  | hand run final finishedAtUnix durationMs =>
    rw [Execution.hand]
    split
    · rfl
    · rfl

theorem moves_over (he : Admitted e) (hsound : Sound e s) (hmoves : Moves e s s')
    {id : String} (hover : stateOf s.run.records id ≠ .pending) :
    recordOf s'.run.records id = recordOf s.run.records id := by
  have h := Loop.steps_inv
    (fun t ↦ Sound e t ∧ recordOf t.run.records id = recordOf s.run.records id)
    (fun t t' ht hmove ↦ ⟨ht.1.move he hmove, ?_⟩) ⟨hsound, rfl⟩ hmoves
  · exact h.2
  · have hover' : stateOf t.run.records id ≠ .pending := by
      rw [stateOf, ht.2]
      exact hover
    rw [move_over ht.1 hmove hover', ht.2]

/-! ## The checkpoints of a run -/

/-- A checkpoint of a run that went on from `s`, and whose stamps are among `stamps`. -/
def HandedFrom (e : Execution) (s : Stage) (stamps : List Stamp) (handed : Handed) : Prop :=
  ∃ run finishedAtUnix durationMs, Moves e s ⟨[], run⟩ ∧
    (∀ stamp ∈ run.stamps, stamp ∈ stamps) ∧ handed.waves = run.waves ∧
    handed.checkpoint = .fromReport (e.report run finishedAtUnix durationMs)

theorem HandedFrom.mono {stamps stamps' : List Stamp} {handed : Handed}
    (h : HandedFrom e s stamps handed) (hsub : ∀ stamp ∈ stamps, stamp ∈ stamps') :
    HandedFrom e s stamps' handed := by
  obtain ⟨run, finishedAtUnix, durationMs, hmoves, hstamps, h⟩ := h
  exact ⟨run, finishedAtUnix, durationMs, hmoves, fun stamp hs ↦ hsub stamp (hstamps stamp hs), h⟩

theorem move_stamps (hmove : Move e s s') :
    ∀ stamp ∈ s.run.stamps, stamp ∈ s'.run.stamps := by
  cases hmove with
  | look rest run thread later => exact fun _ h ↦ h
  | settle run id state error errors known pending unrun => exact fun _ h ↦ h
  | conclude run termination errors reason => exact fun _ h ↦ h
  | dispatch run ds run' begun => exact begun.stamps
  | file d rest run run' filed => exact filed.stamps
  | hand run final finishedAtUnix durationMs =>
    rw [Execution.hand]
    split
    · exact fun _ h ↦ h
    · exact fun _ h ↦ h

/-- **Every checkpoint that was handed out** is one of the run as it was at that moment. -/
theorem moves_handed (hnone : s.run.handed = []) (hmoves : Moves e s s') :
    ∀ handed ∈ s'.run.handed, HandedFrom e s s'.run.stamps handed := by
  have h := Loop.steps_inv (fun t ↦ Moves e s t ∧
    ∀ handed ∈ t.run.handed, HandedFrom e s t.run.stamps handed)
    (fun t t' ht hmove ↦ ⟨ht.1.tail hmove, fun handed hhanded ↦ ?_⟩)
    ⟨.refl, by simp [hnone]⟩ hmoves
  · exact h.2
  have hold (hmem : handed ∈ t.run.handed) : HandedFrom e s t'.run.stamps handed :=
    (ht.2 handed hmem).mono (move_stamps hmove)
  cases hmove with
  | look rest run thread later => exact hold hhanded
  | settle run id state error errors known pending unrun => exact hold hhanded
  | conclude run termination errors reason => exact hold hhanded
  | dispatch run ds run' begun => exact hold (begun.handed ▸ hhanded)
  | file d rest run run' filed => exact hold (filed.handed ▸ hhanded)
  | hand run final finishedAtUnix durationMs =>
    cases hsink : e.sink with
    | none =>
      rw [Execution.hand, hsink] at hhanded
      exact hold hhanded
    | some sink =>
      rw [hand_eq hsink] at hhanded ⊢
      rcases List.mem_append.1 hhanded with hmem | hmem
      · exact ht.2 handed hmem
      · rw [List.mem_singleton.1 hmem]
        exact ⟨run, finishedAtUnix, durationMs, ht.1, fun _ h ↦ h, rfl, rfl⟩

/-! ## The report -/

/-- What is reported of a run that began as `run`. -/
structure Reported (e : Execution) (run : Run) (x : Executed) : Prop where
  moves : Moves e ⟨[], run⟩ ⟨[], x.run⟩
  done : pendingCount x.run.records = 0
  tasks : x.report.tasks = x.run.records
  consumed : x.report.consumedResourceUnits = x.run.consumed
  derived : x.run.termination = .completed → deriveTermination x.run.records = .completed
  /-- The report says how the run ended, unless its last checkpoint could not be persisted. -/
  termination : (∀ handed ∈ x.run.handed, handed.failure = none) →
    x.report.termination = some x.run.termination

/-- Deciding how a run ended. -/
theorem conclude_moves (run : Run) : ∃ termination,
    (if run.termination = .completed then
      { run with termination := deriveTermination run.records } else run) =
      { run with termination } ∧ Moves e ⟨[], run⟩ ⟨[], { run with termination }⟩ ∧
    (termination = .completed → deriveTermination run.records = .completed) := by
  by_cases hcompleted : run.termination = .completed
  · rw [if_pos hcompleted]
    refine ⟨deriveTermination run.records, rfl, ?_, id⟩
    by_cases hderived : deriveTermination run.records = .completed
    · rw [hderived, ← hcompleted]
    · have hsome : ∃ id, (stateOf run.records id).unsuccessful := by
        by_contra hnone
        exact hderived (deriveTermination_completed.2 (not_exists.1 hnone))
      exact .single (.conclude run _ run.errors (.inl hsome))
  · rw [if_neg hcompleted]
    exact ⟨run.termination, rfl, .refl, fun h ↦ absurd h hcompleted⟩

theorem finish_reported {run₀ run : Run} (hmoves : Moves e ⟨[], run₀⟩ ⟨[], run⟩)
    (hdone : pendingCount run.records = 0) : Reported e run₀ (e.finish run) := by
  obtain ⟨termination, hconclude, hmoves', hderived⟩ := conclude_moves (e := e) run
  have hlater := (Thread.later_readNow run.thread).trans (Thread.later_readUnix _)
  have hlook := hmoves'.tail (.look [] { run with termination } _ hlater)
  have hhand := hmoves.trans (hlook.tail (.hand _ true (some run.thread.readNow.2.readUnix.1)
    (elapsedMs (run.thread.readNow.1 - e.started))))
  simp only [Execution.finish, hconclude]
  cases hsink : e.sink with
  | none =>
    simp only [Execution.hand, hsink] at hhand ⊢
    exact ⟨hhand, hdone, rfl, rfl, hderived, fun _ ↦ rfl⟩
  | some sink =>
    rw [hand_eq hsink] at hhand ⊢
    split
    · rename_i run' hnone
      rw [Prod.mk.injEq] at hnone
      obtain ⟨_, rfl⟩ := hnone
      exact ⟨hhand, hdone, rfl, rfl, hderived, fun _ ↦ rfl⟩
    · rename_i error run' hsome
      rw [Prod.mk.injEq] at hsome
      obtain ⟨herror, rfl⟩ := hsome
      refine ⟨hhand, hdone, rfl, rfl, hderived, fun hall ↦ ?_⟩
      have hlast := hall _ (List.mem_append_right _ (.head _))
      simp only [herror] at hlast
      cases hlast

/-- **A run ends with a report.** -/
theorem go_reported (he : Admitted e) {run : Run} (hsound : Sound e ⟨[], run⟩) :
    ∃ x, e.go run = some (.ok x) ∧ Reported e run x := by
  obtain ⟨run', hloop, hmoves, hdone⟩ := loop_ends he hsound
  refine ⟨e.finish run', ?_, finish_reported hmoves hdone⟩
  rw [Execution.go, hloop]
  rfl

/-- Every task is over in a report. -/
theorem Reported.over (he : Admitted e) {run : Run} {x : Executed} (hsound : Sound e ⟨[], run⟩)
    (h : Reported e run x) {id : String} (hid : id ∈ e.graph.topologicalOrder) :
    (stateOf x.report.tasks id).terminal = true := by
  have hsound' := hsound.moves he h.moves
  have hpending : stateOf x.run.records id ≠ .pending := by
    intro hpending
    have hmem := mem_pendingIds.2 ⟨(hsound'.known id).2 hid, hpending⟩
    have hlength := length_pendingIds x.run.records
    rw [h.done] at hlength
    rw [List.length_eq_zero_iff.1 hlength] at hmem
    cases hmem
  have hrunning := hsound'.idle id
  rw [h.tasks]
  simp only at hrunning
  cases hs : stateOf x.run.records id <;> simp_all [TaskState.terminal]

end Huntsman.Graph
