import Huntsman.Graph.Wave

/-!
# One pass, and the whole loop

A pass of the loop makes moves, refuses nothing, and either fewer tasks are pending after it or it
only waited (`iteration_meets`).  A pass that waited is followed by one that does not: when the wait
is over, a task can be started, or the run was cancelled, or its time is over (`Waited`).  So the
loop ends, and no task is pending then (`loop_ends`).
-/

set_option autoImplicit false

open Relation

namespace Huntsman.Graph

open List Std

section

variable (e : Execution) (run run' : Run)

/-- Something is due: to stop, or to start a task that had to wait. -/
def Due : Prop :=
  run.thread.stopped = true ∨ e.runDeadline ≤ run.thread.now ∨
    ∃ id eligibleAt, Startable e run id eligibleAt ∧ eligibleAt ≤ run.thread.now

/-- A pass that merely waited for a rate limit. -/
structure Waited : Prop where
  before : ¬ Due e run
  after : Due e run'
  waited : ∃ eligibleAt t, run.thread.Later t ∧
    run' = { run with thread := waitUntilOrCancel eligibleAt e.runDeadline t }

/-- What a pass that goes round again has done. -/
structure Repeats : Prop where
  moves : Moves e ⟨[], run⟩ ⟨[], run'⟩
  progress : pendingCount run'.records < pendingCount run.records ∨ Waited e run run'

/-- What a pass that leaves the loop has done. -/
structure Leaves : Prop where
  moves : Moves e ⟨[], run⟩ ⟨[], run'⟩
  done : pendingCount run'.records = 0
  progress : pendingCount run'.records < pendingCount run.records ∨ run' = run

end

variable {e : Execution} {run : Run}

theorem Startable.look {id : String} {eligibleAt : ℕ} {run' : Run}
    (h : Startable e run id eligibleAt) (hrecords : run'.records = run.records)
    (hconsumed : run'.consumed = run.consumed) (hlast : run'.lastRateStart = run.lastRateStart) :
    Startable e run' id eligibleAt :=
  ⟨h.known, hrecords ▸ h.pending, hrecords ▸ h.ready, hconsumed ▸ h.affordable,
    hrecords ▸ h.fits, hlast ▸ h.waits⟩

/-- A run that is not over has a pending task. -/
theorem Sound.pending_of_not_terminal {ds : List Dispatch} (h : Sound e ⟨ds, run⟩)
    (hnot : ¬ ∀ entry ∈ run.records.toList, entry.2.state.terminal) :
    pendingIds run.records ≠ [] := by
  intro hnil
  refine hnot fun entry hentry ↦ ?_
  obtain ⟨id, record⟩ := entry
  have hrecord := TreeMap.mem_toList_iff_getElem?_eq_some.1 hentry
  have hrunning := h.idle id
  have hpending : ¬ stateOf run.records id = .pending := by
    intro hpending
    have hmem := mem_pendingIds.2 ⟨TreeMap.mem_iff_isSome_getElem?.2 (by rw [hrecord]; rfl), hpending⟩
    simp [hnil] at hmem
  simp only [stateOf, recordOf_of_some hrecord] at hrunning hpending
  cases hstate : record.state <;> simp_all [TaskState.terminal]

/-- When every pending task is set aside, none is left. -/
theorem Aside.none_pending {run' : Run} (h : Aside (pendingIds run.records) run run') :
    pendingCount run'.records = 0 := by
  have hfewer := h.fewer
  rw [length_pendingIds] at hfewer
  omega

/-- Settling what is pending at the end. -/
theorem settlePending_leaves (run : Run) {state : TaskState} (error : String)
    (termination : RunTermination) (hunrun : state.unrun = true) (hsome : pendingIds run.records ≠ []) :
    Moves e ⟨[], run⟩ ⟨[], { run.settlePending state error with termination }⟩ ∧
      pendingCount (run.settlePending state error).records = 0 := by
  obtain ⟨haside, hmoves⟩ := foldl_settle (e := e) state error hunrun
    (Settleable.pendingIds run)
  refine ⟨hmoves.tail ?_, haside.none_pending⟩
  obtain ⟨id, hid⟩ := exists_mem_of_ne_nil _ hsome
  exact .conclude _ termination _ (.inl ⟨id, haside.unsuccessful hid⟩)

/-! ## What is pending along the moves -/

/-- No move makes a task pending, and filing a task makes one fewer. -/
theorem move_pendingCount {s s' : Stage} (hsound : Sound e s)
    (hmove : Move e s s') : pendingCount s'.run.records + s.rest.length ≤
      pendingCount s.run.records + s'.rest.length := by
  cases hmove with
  | look rest run thread later => exact le_rfl
  | settle run id state error errors known pending unrun =>
    have hfewer := (settle_aside error unrun known pending).fewer
    simp only [length_singleton] at hfewer
    simp only [length_nil]
    omega
  | conclude run termination errors reason => exact le_rfl
  | dispatch run ds run' begun =>
    simp only [begun.records, length_nil]
    omega
  | file d rest run run' filed =>
    obtain ⟨start, hd⟩ := hsound.rest d (.head _)
    obtain ⟨record, hrecords, houtcome⟩ := filed.filed
    have hterminal := (hsound.filed houtcome).1
    have hover : record.state ≠ .pending := by
      intro heq
      rw [heq] at hterminal
      cases hterminal
    have hcount := pendingCount_insert ((hsound.known d.id).2 hd.known) hd.pending hover
    simp only [hrecords, length_cons] at hcount ⊢
    omega
  | hand run final finishedAtUnix durationMs =>
    rw [Execution.hand]
    split
    · exact le_rfl
    · exact le_rfl

theorem moves_pendingCount (he : Admitted e) {s s' : Stage} (hsound : Sound e s)
    (hmoves : Moves e s s') : pendingCount s'.run.records + s.rest.length ≤
      pendingCount s.run.records + s'.rest.length := by
  have h := Loop.steps_inv (fun t ↦ Sound e t ∧ pendingCount t.run.records + s.rest.length ≤
    pendingCount s.run.records + t.rest.length) (fun t t' ht hmove ↦ ⟨ht.1.move he hmove, ?_⟩)
    ⟨hsound, le_rfl⟩ hmoves
  · exact h.2
  · have hmove := move_pendingCount ht.1 hmove
    have hsofar := ht.2
    omega

/-! ## The parts of a pass -/

theorem hand_eq {sink : CheckpointSink} (hsink : e.sink = some sink) (final : Bool)
    (report : RunReport) (run : Run) : e.hand final report run =
      (sink run.thread.await.1 (ExecutionCheckpoint.fromReport report), { run with
        thread := run.thread.await.2
        handed := run.handed ++ [{
          checkpoint := ExecutionCheckpoint.fromReport report, waves := run.waves, final
          failure := sink run.thread.await.1 (ExecutionCheckpoint.fromReport report) }] }) := by
  rw [Execution.hand, hsink]

/-- Giving up when a checkpoint could not be persisted. -/
theorem giveUp_leaves {s : Stage} {errors : List String} {error : String}
    (hbefore : Moves e s ⟨[], run⟩) (hfailed : ∃ handed ∈ run.handed, handed.failure.isSome) :
    Moves e s ⟨[], { ({ run with errors } : Run).settlePending .blocked error with
      termination := .failed }⟩ ∧
      pendingCount (({ run with errors } : Run).settlePending .blocked error).records = 0 := by
  have hnote : Move e ⟨[], run⟩ ⟨[], { run with errors }⟩ :=
    .conclude run run.termination errors (.inr hfailed)
  obtain ⟨haside, hmoves⟩ := foldl_settle (e := e) .blocked error rfl
    (Settleable.pendingIds { run with errors })
  refine ⟨((hbefore.tail hnote).trans hmoves).tail ?_, haside.none_pending⟩
  refine .conclude _ .failed _ (.inr ?_)
  rw [haside.handed]
  exact hfailed

/-- Handing out a checkpoint after a wave. -/
theorem checkpointWave_meets (run : Run) :
    (e.checkpointWave run).Meets
      (fun run' ↦ Moves e ⟨[], run⟩ ⟨[], run'⟩ ∧ pendingCount run'.records = 0)
      (fun run' ↦ Moves e ⟨[], run⟩ ⟨[], run'⟩ ∧ run'.records = run.records) := by
  cases hsink : e.sink with
  | none =>
    rw [Execution.checkpointWave, hsink]
    exact ⟨.refl, rfl⟩
  | some sink =>
    simp only [Execution.checkpointWave, hsink, Option.isNone_some]
    have hlook := Move.look (e := e) [] run run.thread.readNow.2 (Thread.later_readNow _)
    have hhand := Move.hand (e := e) { run with thread := run.thread.readNow.2 } false none
      (elapsedMs (run.thread.readNow.1 - e.started))
    have hmoves := (ReflTransGen.single hlook).tail hhand
    rw [hand_eq hsink] at hmoves ⊢
    cases hfailure : sink run.thread.readNow.2.await.1 (ExecutionCheckpoint.fromReport
      (e.report { run with thread := run.thread.readNow.2 } none
        (elapsedMs (run.thread.readNow.1 - e.started)))) with
    | none =>
      rw [hfailure] at hmoves
      exact ⟨hmoves, rfl⟩
    | some error =>
      rw [hfailure] at hmoves
      exact giveUp_leaves hmoves ⟨_, mem_append_right _ (.head _), rfl⟩

/-- Turning down for good what was turned down. -/
theorem exhaust_aside {s : Selection} (h : Chosen e run [] s) (hsound : Sound e ⟨[], run⟩) :
    ∃ run₁ run₂,
      s.dependencyOutputBlocked.foldlM (Run.exhaust "dependency output budget exhausted")
        { run with thread := s.thread } = .ok run₁ ∧
      s.budgetBlocked.foldlM (Run.exhaust "resource budget exhausted") run₁ = .ok run₂ ∧
      Aside (s.dependencyOutputBlocked ++ s.budgetBlocked) { run with thread := s.thread } run₂ ∧
      Moves e ⟨[], run⟩ ⟨[], run₂⟩ := by
  have hsettleable : Settleable { run with thread := s.thread }
      (s.dependencyOutputBlocked ++ s.budgetBlocked) := by
    have hnodup := h.nodup
    rw [append_nil] at hnodup
    exact ⟨(nodup_append.1 hnodup).2.1, fun id hid ↦
      ⟨(hsound.known id).2 (h.aside id hid).1, (h.aside id hid).2⟩⟩
  obtain ⟨run₁, hfirst, haside₁, hmoves₁⟩ := foldlM_aside (e := e)
    (exhaust_step "dependency output budget exhausted") hsettleable.first
  obtain ⟨run₂, hsecond, haside₂, hmoves₂⟩ := foldlM_aside (e := e)
    (exhaust_step "resource budget exhausted") (hsettleable.after haside₁)
  have hlook : Move e ⟨[], run⟩ ⟨[], { run with thread := s.thread }⟩ :=
    .look [] run s.thread h.later
  exact ⟨run₁, run₂, hfirst, hsecond, haside₁.trans haside₂,
    (hmoves₁.head hlook).trans hmoves₂⟩

/-- Scheduling refuses nothing: it leaves, makes progress or waits.  The run is as it was when it
was looked at whether to stop, but for the clock. -/
theorem schedule_meets (he : Admitted e) {t : Thread} (hsound : Sound e ⟨[], run⟩)
    (hsome : pendingCount run.records ≠ 0) (hlater : t.Later run.thread)
    (hrunning : t.stopped = false) (htime : t.now < e.runDeadline) :
    ∃ p, e.schedule run = .ok p ∧
      p.Meets (Leaves e { run with thread := t }) (Repeats e { run with thread := t }) := by
  have hlook : Move e ⟨[], { run with thread := t }⟩ ⟨[], run⟩ := .look [] _ run.thread hlater
  obtain ⟨s, hselect, hchosen⟩ := select_chosen he hsound
  obtain ⟨run₁, run₂, hfirst, hsecond, haside, hmoves⟩ := exhaust_aside hchosen hsound
  have hfewer := haside.fewer
  simp only [length_append] at hfewer
  simp only [Execution.schedule, hselect, hfirst, hsecond, bind, Except.bind]
  split
  · rename_i hnone
    split
    · rename_i eligibleAt hwait
      refine ⟨_, rfl, ?_⟩
      have hwaited : run₂.thread.Later (waitUntilOrCancel eligibleAt e.runDeadline run₂.thread) :=
        Thread.later_wait _ _ _ waitSlice_pos _
      refine ⟨(hmoves.head hlook).tail (.look [] run₂ _ hwaited), ?_⟩
      by_cases hblocked : s.dependencyOutputBlocked ++ s.budgetBlocked = []
      · right
        rw [append_eq_nil_iff] at hblocked
        rw [hblocked.1] at hfirst
        rw [hblocked.2] at hsecond
        cases hfirst
        cases hsecond
        refine ⟨?_, ?_, ⟨eligibleAt, s.thread, hlater.trans hchosen.later, rfl⟩⟩
        · rintro (hstopped | hexpired | ⟨id, eligibleAt', hstartable, hdue⟩)
          · exact absurd hstopped (Bool.eq_false_iff.1 hrunning)
          · exact absurd hexpired (Nat.not_le_of_lt htime)
          · exact hchosen.started id hstartable.known not_mem_nil eligibleAt'
              (hstartable.look rfl rfl rfl) (hdue.trans hlater.now) hnone
        · obtain ⟨id, hstartable⟩ := hchosen.waiting hnone eligibleAt hwait
          have hends := Thread.wait_ends waitSlice eligibleAt e.runDeadline waitSlice_pos s.thread
          rcases hends with hstopped | hdue | hexpired
          · exact .inl hstopped
          · exact .inr (.inr ⟨id, eligibleAt, hstartable.look rfl rfl rfl, hdue⟩)
          · exact .inr (.inl hexpired)
      · left
        have hpos : 0 < (s.dependencyOutputBlocked ++ s.budgetBlocked).length :=
          length_pos_of_ne_nil hblocked
        rw [length_append] at hpos
        simp only
        omega
    · obtain ⟨run', hstrand, hasides, hmoves'⟩ := strand_moves (e := e) run₂
      rw [hstrand]
      refine ⟨_, rfl, (hmoves.trans hmoves').head hlook, hasides.none_pending, .inl ?_⟩
      rw [hasides.none_pending]
      exact Nat.pos_of_ne_zero hsome
  · rename_i hnonempty
    have hsound₂ := hsound.moves he hmoves
    obtain ⟨run', hwave, ds, run₃, hbegun, hids, hfilings⟩ :=
      dispatchWave_filed hsound₂ (hchosen.elected haside) hnonempty
    have hmoves' := hfilings.moves
    rw [hwave]
    refine ⟨_, rfl, ?_⟩
    have hdispatch : Move e ⟨[], run₂⟩ ⟨ds, run₃⟩ := .dispatch run₂ ds run₃ hbegun
    have hpending := moves_pendingCount he (hsound₂.move he hdispatch) hmoves'
    have hpos : 0 < ds.length := by
      rw [← length_map Dispatch.id, hids]
      exact length_pos_of_ne_nil hnonempty
    simp only [hbegun.records, length_nil] at hpending
    have hall := ((hmoves.tail hdispatch).trans hmoves').head hlook
    have hcheckpoint := checkpointWave_meets (e := e) run'
    cases hpass : e.checkpointWave run' with
    | leave run'' =>
      rw [hpass] at hcheckpoint
      refine ⟨hall.trans hcheckpoint.1, hcheckpoint.2, .inl ?_⟩
      rw [hcheckpoint.2]
      exact Nat.pos_of_ne_zero hsome
    | again run'' =>
      rw [hpass] at hcheckpoint
      refine ⟨hall.trans hcheckpoint.1, .inl ?_⟩
      simp only [hcheckpoint.2]
      omega

theorem work_meets (he : Admitted e) {t : Thread} (hsound : Sound e ⟨[], run⟩)
    (hsome : pendingCount run.records ≠ 0) (hlater : t.Later run.thread)
    (hrunning : t.stopped = false) (htime : t.now < e.runDeadline) :
    ∃ p, e.work run = .ok p ∧
      p.Meets (Leaves e { run with thread := t }) (Repeats e { run with thread := t }) := by
  have hlook : Move e ⟨[], { run with thread := t }⟩ ⟨[], run⟩ := .look [] _ run.thread hlater
  obtain ⟨run', changed, aside, hblock, haside, hmoves, hchanged, hsame⟩ :=
    blockDependents_moves (e := e) run false fun id hid ↦ (hsound.known id).2 hid
  simp only [Execution.work, hblock, bind, Except.bind]
  split
  · rename_i htrue
    have hnonempty : aside ≠ [] := by simpa using hchanged.1 htrue
    refine ⟨_, rfl, hmoves.head hlook, .inl ?_⟩
    have hfewer := haside.fewer
    have hpos := length_pos_of_ne_nil hnonempty
    simp only
    omega
  · rename_i hfalse
    have hempty : aside = [] := by
      by_contra hnonempty
      exact hfalse (hchanged.2 (.inr hnonempty))
    rw [hsame hempty]
    exact schedule_meets he hsound hsome hlater hrunning htime

/-- **One pass of the loop** makes moves and refuses nothing. -/
theorem iteration_meets (he : Admitted e) (hsound : Sound e ⟨[], run⟩) :
    (e.iteration run).Meets (fun r ↦ ∃ run', r = .ok run' ∧ Leaves e run run')
      (Repeats e run) := by
  have hstop := Thread.later_readStop run.thread
  have hnow := hstop.trans (Thread.later_readNow _)
  rw [Execution.iteration]
  split
  · rename_i hterminal
    refine ⟨run, rfl, .refl, ?_, .inr rfl⟩
    by_contra hsome
    have hnil : pendingIds run.records ≠ [] := by
      intro hnil
      rw [← length_pendingIds, hnil, length_nil] at hsome
      exact hsome rfl
    obtain ⟨id, hid⟩ := exists_mem_of_ne_nil _ hnil
    obtain ⟨hknown, hpending⟩ := mem_pendingIds.1 hid
    have := hterminal _ (TreeMap.mem_toList_iff_getElem?_eq_some.2 (some_of_mem hknown))
    simp only [stateOf] at hpending
    simp [hpending, TaskState.terminal] at this
  rename_i hnot
  have hpending := hsound.pending_of_not_terminal hnot
  have hsome : pendingCount run.records ≠ 0 := by
    rw [← length_pendingIds]
    exact fun hzero ↦ hpending (length_eq_zero_iff.1 hzero)
  have hleaves {state : TaskState} {error : String} {termination : RunTermination} {t : Thread}
      (hlater : run.thread.Later t) (hunrun : state.unrun = true) :
      Leaves e run { ({ run with thread := t } : Run).settlePending state error with
        termination } := by
    obtain ⟨hmoves, hdone⟩ := settlePending_leaves (e := e) { run with thread := t } error
      termination hunrun hpending
    refine ⟨hmoves.head (.look [] run t hlater), hdone, .inl ?_⟩
    simp only [hdone]
    omega
  simp only
  split
  · exact ⟨_, rfl, hleaves hstop rfl⟩
  rename_i hrunning
  split
  · exact ⟨_, rfl, hleaves hnow rfl⟩
  rename_i htime
  have hrunning' : run.thread.stopped = false :=
    Bool.eq_false_iff.2 fun hstopped ↦ hrunning (hstop.stopped hstopped)
  obtain ⟨p, hwork, hmeets⟩ := work_meets he (hsound.move he (.look [] run _ hnow)) hsome hnow
    hrunning' (hnow.now.trans_lt (Nat.lt_of_not_le htime))
  rw [hwork]
  cases p with
  | leave run' => exact ⟨run', rfl, hmeets⟩
  | again run' => exact hmeets

/-! ## The whole loop -/

/-- A run has no more pending tasks than the graph has tasks. -/
theorem Sound.pendingCount_le {ds : List Dispatch} (h : Sound e ⟨ds, run⟩) :
    pendingCount run.records ≤ e.graph.topologicalOrder.length := by
  rw [← length_pendingIds]
  refine ((nodup_pendingIds run.records).subperm fun id hid ↦ ?_).length_le
  exact (h.known id).1 (mem_pendingIds.1 hid).1

/-- What makes a pass come closer to the end: a task fewer is pending, or the next pass does not
wait. -/
noncomputable def remaining (e : Execution) (run : Run) : ℕ :=
  open Classical in 2 * pendingCount run.records + if Due e run then 0 else 1

theorem Repeats.remaining_lt {run' : Run} (h : Repeats e run run') :
    remaining e run' < remaining e run := by
  unfold remaining
  rcases h.progress with hfewer | hwaited
  · split <;> split <;> omega
  · obtain ⟨eligibleAt, t, _, heq⟩ := hwaited.waited
    have hsame : run'.records = run.records := by rw [heq]
    rw [if_pos hwaited.after, if_neg hwaited.before, hsame]
    omega

/-- **The loop ends**, without refusing anything, and then no task is pending. -/
theorem loop_ends (he : Admitted e) (hsound : Sound e ⟨[], run⟩) :
    ∃ run', Loop.runFor e.iteration (2 * e.graph.topologicalOrder.length + 2) run = some (.ok run') ∧
      Moves e ⟨[], run⟩ ⟨[], run'⟩ ∧ pendingCount run'.records = 0 := by
  have hagain : ∀ t t', Sound e ⟨[], t⟩ ∧ Moves e ⟨[], run⟩ ⟨[], t⟩ →
      e.iteration t = .again t' → Repeats e t t' ∧ Sound e ⟨[], t'⟩ ∧
        Moves e ⟨[], run⟩ ⟨[], t'⟩ := by
    rintro t t' ⟨ht, hmoves⟩ hpass
    have hmeets := iteration_meets he ht
    rw [hpass] at hmeets
    exact ⟨hmeets, ht.moves he hmeets.moves, hmoves.trans hmeets.moves⟩
  have hstart : Sound e ⟨[], run⟩ ∧ Moves e ⟨[], run⟩ ⟨[], run⟩ := ⟨hsound, .refl⟩
  have hfuel : remaining e run < 2 * e.graph.topologicalOrder.length + 2 := by
    have hle := hsound.pendingCount_le
    unfold remaining
    split <;> omega
  have hsome := Loop.runFor_isSome
    (fun t ↦ Sound e ⟨[], t⟩ ∧ Moves e ⟨[], run⟩ ⟨[], t⟩) (remaining e)
    (fun t t' ht hpass ↦ ⟨(hagain t t' ht hpass).2, (hagain t t' ht hpass).1.remaining_lt⟩)
    hstart hfuel
  obtain ⟨r, hr⟩ := Option.isSome_iff_exists.1 hsome
  have hpost := Loop.runFor_inv (fun t ↦ Sound e ⟨[], t⟩ ∧ Moves e ⟨[], run⟩ ⟨[], t⟩)
    (fun r ↦ ∃ run', r = .ok run' ∧ Moves e ⟨[], run⟩ ⟨[], run'⟩ ∧ pendingCount run'.records = 0)
    (fun t t' ht hpass ↦ (hagain t t' ht hpass).2) (fun t r ht hpass ↦ ?_) hstart hr
  · obtain ⟨run', rfl, h⟩ := hpost
    exact ⟨run', hr, h⟩
  · have hmeets := iteration_meets he ht.1
    rw [hpass] at hmeets
    obtain ⟨run', rfl, hleaves⟩ := hmeets
    exact ⟨run', rfl, ht.2.trans hleaves.moves, hleaves.done⟩

end Huntsman.Graph
