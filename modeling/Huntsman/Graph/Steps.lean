import Huntsman.Graph.Sound

/-!
# The loop makes moves

Each part of a pass of the loop is described here by the moves it makes and by what it leaves as it
was: setting tasks aside (`Aside`), choosing a wave (`Chosen`), dispatching it, and taking up what
came of it.  `iteration_moves` puts them together: from a sound run, a pass makes moves and refuses
nothing, so what every move keeps holds in every run.
-/

set_option autoImplicit false

open Relation

namespace Huntsman.Graph

open List Std

/-! ## Pending tasks -/

/-- How many tasks are pending. -/
def pendingCount (records : Records) : ℕ :=
  tally (fun _ record ↦ if record.state = .pending then 1 else 0) records

theorem length_pendingIds (records : Records) :
    (pendingIds records).length = pendingCount records := by
  rw [pendingIds, pendingCount, tally, length_map]
  induction records.toList with
  | nil => rfl
  | cons entry entries ih =>
    rw [filter_cons, map_cons, sum_cons, ← ih]
    split
    · rename_i h
      rw [if_pos (by simpa using h), length_cons, Nat.add_comm]
    · rename_i h
      rw [if_neg (by simpa using h), Nat.zero_add]

/-- Recording that a pending task is over leaves one task fewer pending. -/
theorem pendingCount_insert {records : Records} {id : String} {record : TaskRecord}
    (hknown : id ∈ records) (hpending : stateOf records id = .pending)
    (hrecord : record.state ≠ .pending) :
    pendingCount (records.insert id record) + 1 = pendingCount records := by
  have htally := tally_insert (fun _ (r : TaskRecord) ↦ if r.state = .pending then 1 else 0)
    (some_of_mem hknown) record
  have hpending' : (recordOf records id).state = .pending := hpending
  simp only [hpending', hrecord, if_true, if_false] at htally
  exact htally

/-! ## Setting tasks aside -/

/-- `run'` is `run` after some pending tasks were settled without being run. -/
structure Aside (ids : List String) (run run' : Run) : Prop where
  later : run.thread.Later run'.thread
  known : ∀ id, id ∈ run'.records ↔ id ∈ run.records
  outside : ∀ id, id ∉ ids → recordOf run'.records id = recordOf run.records id
  inside : ∀ id ∈ ids, (stateOf run'.records id).unrun = true
  fewer : pendingCount run'.records + ids.length = pendingCount run.records
  consumed : run'.consumed = run.consumed
  lastRateStart : run'.lastRateStart = run.lastRateStart
  waves : run'.waves = run.waves
  handed : run'.handed = run.handed

theorem Aside.refl (run : Run) : Aside [] run run :=
  ⟨Thread.Later.refl _, fun _ ↦ Iff.rfl, fun _ _ ↦ rfl, by simp, rfl, rfl, rfl, rfl, rfl⟩

theorem Aside.trans {ids ids' : List String} {run run' run'' : Run} (h : Aside ids run run')
    (h' : Aside ids' run' run'') : Aside (ids ++ ids') run run'' where
  later := h.later.trans h'.later
  known id := (h'.known id).trans (h.known id)
  outside id hid := by
    rw [mem_append, not_or] at hid
    rw [h'.outside id hid.2, h.outside id hid.1]
  inside id hid := by
    by_cases hid' : id ∈ ids'
    · exact h'.inside id hid'
    · rw [stateOf, h'.outside id hid']
      exact h.inside id ((mem_append.1 hid).resolve_right hid')
  fewer := by
    rw [length_append, ← h.fewer, ← h'.fewer]
    omega
  consumed := h'.consumed.trans h.consumed
  lastRateStart := h'.lastRateStart.trans h.lastRateStart
  waves := h'.waves.trans h.waves
  handed := h'.handed.trans h.handed

/-- What else of a run changes does not matter. -/
theorem Aside.note {ids : List String} {run run' : Run} (h : Aside ids run run')
    (termination : RunTermination) (errors : List String) :
    Aside ids run { run' with termination, errors } :=
  ⟨h.later, h.known, h.outside, h.inside, h.fewer, h.consumed, h.lastRateStart, h.waves, h.handed⟩

/-- A task that was set aside is over, without success. -/
theorem Aside.unsuccessful {ids : List String} {run run' : Run} (h : Aside ids run run')
    {id : String} (hid : id ∈ ids) : (stateOf run'.records id).unsuccessful := by
  have hunrun := h.inside id hid
  cases hstate : stateOf run'.records id <;> simp_all [TaskState.unrun, TaskState.unsuccessful,
    TaskState.terminal]

theorem settle_aside {state : TaskState} (error : String) {run : Run} {id : String}
    (hunrun : state.unrun = true) (hknown : id ∈ run.records)
    (hpending : stateOf run.records id = .pending) : Aside [id] run (run.settle state error id) where
  later := Thread.later_readUnix _
  known id' := by
    simp only [Run.settle, TreeMap.mem_insert, LawfulEqCmp.compare_eq_iff_eq]
    exact ⟨fun hmem ↦ hmem.elim (fun heq ↦ heq ▸ hknown) fun hmem ↦ hmem, .inr⟩
  outside id' hid' := by
    simp only [Run.settle, recordOf_insert]
    rw [if_neg (by simpa using hid')]
  inside id' hid' := by
    rw [mem_singleton] at hid'
    subst hid'
    simp [Run.settle, stateOf, hunrun]
  fewer := pendingCount_insert hknown hpending (by rintro rfl; cases hunrun)
  consumed := rfl
  lastRateStart := rfl
  waves := rfl
  handed := rfl

section

variable (e : Execution)

/-- The tasks that can be set aside. -/
def Settleable (run : Run) (ids : List String) : Prop :=
  ids.Nodup ∧ ∀ id ∈ ids, id ∈ run.records ∧ stateOf run.records id = .pending

variable {e}

/-- The rest of the tasks can still be set aside when the first are. -/
theorem Settleable.after {run run' : Run} {ids ids' : List String}
    (h : Settleable run (ids ++ ids')) (haside : Aside ids run run') : Settleable run' ids' := by
  obtain ⟨_, hnodup, hdisjoint⟩ := nodup_append.1 h.1
  refine ⟨hnodup, fun id hid ↦ ?_⟩
  obtain ⟨hknown, hpending⟩ := h.2 id (mem_append_right _ hid)
  refine ⟨(haside.known id).2 hknown, ?_⟩
  rw [stateOf, haside.outside id fun hmem ↦ hdisjoint id hmem id hid rfl]
  exact hpending

theorem Settleable.first {run : Run} {ids ids' : List String} (h : Settleable run (ids ++ ids')) :
    Settleable run ids :=
  ⟨(nodup_append.1 h.1).1, fun id hid ↦ h.2 id (mem_append_left _ hid)⟩

theorem Settleable.pendingIds (run : Run) : Settleable run (pendingIds run.records) :=
  ⟨nodup_pendingIds _, fun _ hid ↦ mem_pendingIds.1 hid⟩

theorem settle_moves {state : TaskState} {error : String} {run : Run} {id : String}
    (hunrun : state.unrun = true) (hknown : id ∈ run.records)
    (hpending : stateOf run.records id = .pending) (errors : List String) :
    Moves e ⟨[], run⟩ ⟨[], { run.settle state error id with errors }⟩ :=
  .single (.settle run id state error errors hknown hpending hunrun)

/-- Settling task after task. -/
theorem foldl_settle (state : TaskState) (error : String) {ids : List String} {run : Run}
    (hunrun : state.unrun = true) (h : Settleable run ids) :
    Aside ids run (ids.foldl (Run.settle state error) run) ∧
      Moves e ⟨[], run⟩ ⟨[], ids.foldl (Run.settle state error) run⟩ := by
  induction ids generalizing run with
  | nil => exact ⟨Aside.refl run, .refl⟩
  | cons id ids ih =>
    obtain ⟨hknown, hpending⟩ := h.2 id (.head _)
    have haside := settle_aside error hunrun hknown hpending
    obtain ⟨hasides, hmoves⟩ := ih (Settleable.after h haside)
    exact ⟨haside.trans hasides,
      (settle_moves hunrun hknown hpending run.errors).trans hmoves⟩

/-- Task after task set aside, by a step that can refuse. -/
theorem foldlM_aside {step : Run → String → Except GraphError Run}
    (hstep : ∀ run id, id ∈ run.records → stateOf run.records id = .pending →
      ∃ run', step run id = .ok run' ∧ Aside [id] run run' ∧ Moves e ⟨[], run⟩ ⟨[], run'⟩)
    {ids : List String} {run : Run} (h : Settleable run ids) :
    ∃ run', ids.foldlM step run = .ok run' ∧ Aside ids run run' ∧
      Moves e ⟨[], run⟩ ⟨[], run'⟩ := by
  induction ids generalizing run with
  | nil => exact ⟨run, rfl, Aside.refl run, .refl⟩
  | cons id ids ih =>
    obtain ⟨hknown, hpending⟩ := h.2 id (.head _)
    obtain ⟨run₁, hfirst, haside, hmoves⟩ := hstep run id hknown hpending
    obtain ⟨run₂, hrest, hasides, hmoves'⟩ := ih (Settleable.after h haside)
    exact ⟨run₂, Except.foldlM_cons_ok.2 ⟨run₁, hfirst, hrest⟩, haside.trans hasides,
      hmoves.trans hmoves'⟩

theorem block_step (error noted : String) (run : Run) (id : String) (hknown : id ∈ run.records)
    (hpending : stateOf run.records id = .pending) :
    ∃ run', run.block error noted id = .ok run' ∧ Aside [id] run run' ∧
      Moves e ⟨[], run⟩ ⟨[], run'⟩ := by
  rw [Run.block, if_pos hknown]
  exact ⟨_, rfl, (settle_aside error rfl hknown hpending).note _ _, settle_moves rfl hknown hpending _⟩

theorem exhaust_step (error : String) (run : Run) (id : String) (hknown : id ∈ run.records)
    (hpending : stateOf run.records id = .pending) :
    ∃ run', run.exhaust error id = .ok run' ∧ Aside [id] run run' ∧
      Moves e ⟨[], run⟩ ⟨[], run'⟩ := by
  obtain ⟨run', hblock, haside, hmoves⟩ :=
    block_step (e := e) error error run id hknown hpending
  refine ⟨{ run' with termination := .resourceLimit }, ?_, haside.note _ _, hmoves.tail ?_⟩
  · rw [Run.exhaust, hblock]
    rfl
  · exact .conclude run' .resourceLimit run'.errors (.inl ⟨id, haside.unsuccessful (.head _)⟩)

/-- Giving up on what is left. -/
theorem strand_moves (run : Run) : ∃ run', run.strand = .ok run' ∧
    Aside (pendingIds run.records) run run' ∧ Moves e ⟨[], run⟩ ⟨[], run'⟩ := by
  obtain ⟨run', hblock, haside, hmoves⟩ := foldlM_aside (e := e)
    (fun run id ↦ block_step "no schedulable dependency frontier"
      "no schedulable dependency frontier" run id) (Settleable.pendingIds run)
  simp only [Run.strand, hblock]
  refine ⟨_, rfl, ?_, ?_⟩
  · split
    · exact haside.note _ _
    · exact haside
  · split
    · rename_i hsome
      obtain ⟨id, hid⟩ := exists_mem_of_ne_nil _ hsome.1
      exact hmoves.tail (.conclude run' .failed run'.errors (.inl ⟨id, haside.unsuccessful hid⟩))
    · exact hmoves

/-- Blocking the tasks whose dependencies failed. -/
theorem blockDependents_moves {ids : List String} (run : Run) (changed : Bool)
    (hknown : ∀ id ∈ ids, id ∈ run.records) : ∃ run' changed' aside,
      ids.foldlM e.blockDependent (run, changed) = .ok (run', changed') ∧
      Aside aside run run' ∧ Moves e ⟨[], run⟩ ⟨[], run'⟩ ∧
      (changed' = true ↔ changed = true ∨ aside ≠ []) ∧ (aside = [] → run' = run) := by
  induction ids generalizing run changed with
  | nil => exact ⟨run, changed, [], rfl, Aside.refl run, .refl, by simp, fun _ ↦ rfl⟩
  | cons id ids ih =>
    have hrest (id' : String) (hid' : id' ∈ ids) := hknown id' (.tail _ hid')
    by_cases hpending : stateOf run.records id = .pending
    · cases hfind : (e.graph.spec id).dependencies.find? fun dependency ↦
          (stateOf run.records dependency).terminal &&
            !(stateOf run.records dependency).successful with
      | none =>
        obtain ⟨run', changed', aside, hfold, h⟩ := ih run changed hrest
        refine ⟨run', changed', aside, Except.foldlM_cons_ok.2 ⟨(run, changed), ?_, hfold⟩, h⟩
        simp [Execution.blockDependent, hpending, hfind]
      | some dependency =>
        obtain ⟨run₁, hblock, haside, hmoves⟩ := block_step (e := e)
          ("dependency " ++ dependency ++ " did not succeed") ("blocked by " ++ dependency) run id
          (hknown id (.head _)) hpending
        obtain ⟨run', changed', aside, hfold, haside', hmoves', hchanged, _⟩ :=
          ih run₁ true fun id' hid' ↦ (haside.known id').2 (hrest id' hid')
        refine ⟨run', changed', id :: aside, Except.foldlM_cons_ok.2 ⟨(run₁, true), ?_, hfold⟩,
          haside.trans haside', hmoves.trans hmoves', ?_, by simp⟩
        · simp only [Execution.blockDependent, hpending, ne_eq, not_true, if_false, hfind, hblock]
          rfl
        · simp [hchanged]
    · obtain ⟨run', changed', aside, hfold, h⟩ := ih run changed hrest
      refine ⟨run', changed', aside, Except.foldlM_cons_ok.2 ⟨(run, changed), ?_, hfold⟩, h⟩
      simp [Execution.blockDependent, hpending]

end

end Huntsman.Graph
