import Huntsman.Graph.Guarantees

/-!
# Checkpoints are accepted

What a run writes in a checkpoint and what a resumed run demands of one are separate code.  Apart
from one number they agree: every record of a run is fit to be saved at every moment
(`Sound.saved`), which is what is checked when it is read, so a checkpoint that a run hands out is
accepted when the run is resumed from it (`checkpoint_accepted`).

The number is the wall-clock start of an attempt.  It is reckoned back from the wall clock when the
attempt is over, and when the wall clock was set back meanwhile that saturates at zero, which no
checkpoint may contain (`checkpoint_refused`).
-/

set_option autoImplicit false

open Relation

namespace Huntsman.Graph

open Std

section

variable {e : Execution}

/-! ## The stamps of a run -/

/-- A stamp whose start is after the Unix epoch. -/
def Stamp.After (stamp : Stamp) : Prop := stamp.age < stamp.unixMs

theorem Stamp.After.start_ne_zero {stamp : Stamp} (h : stamp.After) : stamp.start ≠ 0 := by
  rw [Stamp.After] at h
  rw [Stamp.start]
  omega

/-- No start on the wall clock is zero, as long as every stamp is after the epoch. -/
def Stamped (s : Stage) : Prop :=
  (∀ stamp ∈ s.run.stamps, stamp.After) → ∀ (key : String) (start : ℕ),
    s.run.persistedRateStart[key]? = some start → start ≠ 0

theorem Stamped.move {s s' : Stage} (h : Stamped s) (hmove : Move e s s') : Stamped s' := by
  intro hafter key start hstart
  have hold (hsame : s'.run.persistedRateStart[key]? = s.run.persistedRateStart[key]?) :
      start ≠ 0 :=
    h (fun stamp hstamp ↦ hafter stamp (move_stamps hmove stamp hstamp)) key start
      (hsame.symm.trans hstart)
  cases hmove with
  | look rest run thread later => exact hold rfl
  | settle run id state error errors known pending unrun => exact hold rfl
  | conclude run termination errors reason => exact hold rfl
  | dispatch run ds run' begun =>
    obtain ⟨_, _, unixMs, _, _, _, _, hgroups, hothers⟩ := begun.began
    by_cases hgroup : InGroups e key (ds.map Dispatch.id)
    · obtain ⟨_, hunix, hstamp⟩ := hgroups key hgroup
      have hpositive := hafter _ hstamp
      rw [hunix, Option.some.injEq] at hstart
      exact hstart ▸ Nat.ne_of_gt hpositive
    · exact hold (hothers key hgroup).2
  | file d rest run run' filed =>
    by_cases hown : ∃ limit ∈ (e.graph.spec d.id).rateLimit, ∃ own,
        d.ended.lastAttemptStart = some own ∧ limit.key = key
    · obtain ⟨limit, hlimit, own, hlast, rfl⟩ := hown
      obtain ⟨_, stamp, hstamp, hunix⟩ := filed.stamped limit hlimit own hlast
      rw [hunix, Option.some.injEq] at hstart
      exact hstart ▸ (hafter stamp hstamp).start_ne_zero
    · exact hold (filed.others key fun limit hlimit own hlast heq ↦
        hown ⟨limit, hlimit, own, hlast, heq⟩).2
  | hand run final finishedAtUnix durationMs =>
    refine hold ?_
    rw [Execution.hand]
    split
    · rfl
    · rfl

/-! ## Accepting a checkpoint -/

variable {call : Call} {world : World} {checkpoint : Option ExecutionCheckpoint}
  {sink : Option CheckpointSink} {run : Run} {x : Executed}

theorem Prepared.stamped (h : Prepared call checkpoint sink e run) : Stamped ⟨[], run⟩ := by
  intro hafter key start hstart
  obtain ⟨t, t', hrates⟩ := h.rates
  exact (restoredRateHistory_ok hrates key start hstart).2 hafter

/-- The records of a sound run are those of a checkpoint that is admitted. -/
theorem Sound.fit {run' : Run} (h : Sound e ⟨[], run'⟩) :
    Fit e.enc e.policy e.graph run'.records :=
  ⟨fun id hid ↦ (h.known id).1 hid, h.saved⟩

/-- Reopening drops no output. -/
theorem Sound.reopen_output {run' : Run} (h : Sound e ⟨[], run'⟩) (id : String) :
    (recordOf (reopenAll e.graph run'.records) id).output = (recordOf run'.records id).output := by
  rw [recordOf_reopenAll]
  split
  · cases reopen_reopened e.graph run'.records id with
    | kept same settled => rw [same]
    | reset same unfinished =>
      rw [same]
      refine ((h.saved id).otherwise fun hs ↦ ?_).symm
      simp only at hs
      simp [hs] at unfinished
  · rename_i hid
    have hnot : id ∉ run'.records := fun hmem ↦ hid ((h.known id).1 hmem)
    rw [recordOf, TreeMap.getElem?_eq_none hnot, Option.getD_none]

/-- The outputs of a sound run are counted again when it is resumed. -/
theorem Sound.recounted {run' : Run} (h : Sound e ⟨[], run'⟩) :
    (reopenAll e.graph run'.records).toList.foldlM (addRetained e.enc) 0 =
      .ok run'.retainedOutputBytes := by
  have hweight : ∀ id, weighAt (retainedSize e.enc) (reopenAll e.graph run'.records) id =
      weighAt (retainedSize e.enc) run'.records id := by
    intro id
    have houtput := h.reopen_output id
    by_cases hid : id ∈ e.graph.topologicalOrder
    · rw [weighAt_of_some (some_of_mem (mem_reopenAll.2 hid)),
        weighAt_of_some (some_of_mem ((h.known id).2 hid)), retainedSize, retainedSize, houtput]
    · rw [weighAt_of_not_mem fun hmem ↦ hid (mem_reopenAll.1 hmem),
        weighAt_of_not_mem fun hmem ↦ hid ((h.known id).1 hmem)]
  have hretained := h.retained
  have hfits := h.fits
  simp only at hretained hfits
  rw [addRetaineds_ok, tally_congr hweight, ← hretained]
  refine ⟨fun id record hrecord output houtput ↦ ?_, hfits, rfl⟩
  rw [← recordOf_of_some hrecord, h.reopen_output id] at houtput
  obtain ⟨output', houtput', bytes, hbytes⟩ :=
    Sound.encodes (e := e) h ((h.saved id).of_output houtput)
  simp only at houtput'
  rw [houtput, Option.some.injEq] at houtput'
  exact ⟨bytes, houtput' ▸ hbytes⟩

/-- **A checkpoint of a sound run is accepted**, provided that no start on the wall clock is
zero. -/
theorem Prepared.accepts (h : Prepared call checkpoint sink e run) {run' : Run}
    (hmoves : Moves e ⟨[], run⟩ ⟨[], run'⟩)
    (hstarts : ∀ (key : String) (start : ℕ), run'.persistedRateStart[key]? = some start → start ≠ 0)
    (finishedAtUnix : Option ℕ) (durationMs : ℕ) (world' : World) (sink' : Option CheckpointSink) :
    ∃ prepared, call.prepare world'
      (some (.fromReport (e.report run' finishedAtUnix durationMs))) sink' = .ok prepared := by
  have hsound := h.sound.moves h.admitted hmoves
  obtain ⟨bytes, hbytes, hfingerprint⟩ := h.fingerprint
  refine prepare_exists world' sink' h.bounded h.validated hbytes
    ((admitCheckpoint_ok h.wellFormed).2 ⟨?_, ?_, ?_⟩) (checkHandlers_ok.2 fun id hid ↦ ?_)
    (h.enc ▸ hsound.recounted) fun key start hstart ↦ ⟨?_, hstarts key start hstart⟩
  · exact ⟨rfl, (.head _), rfl, hfingerprint, h.policy ▸ hsound.within, h.runId⟩
  · exact h.enc ▸ h.policy ▸ hsound.fit
  · exact hsound.charged
  · rcases checkHandlers_ok.1 h.handled id hid with hs | hhandler
    · left
      have hkept : stateOf run.records id = .succeeded := by
        rw [stateOf, h.records, h.fit.kept hs]
        exact hs
      show stateOf run'.records id = .succeeded
      rw [stateOf, moves_over h.admitted h.sound hmoves (by simp [hkept])]
      exact hkept
    · exact .inr hhandler
  · exact hsound.rates key (TreeMap.mem_iff_isSome_getElem?.2 (by
      rw [show run'.persistedRateStart[key]? = some start from hstart]
      rfl))

/-- **Every checkpoint is accepted**: those that an execution hands out, after each wave and at the
end, fresh or resumed from whatever checkpoint, can be resumed from with the same definition, policy
and handlers, as long as every start it stamped is after the epoch. -/
theorem checkpoint_accepted (h : call.executeInner world checkpoint sink = some (.ok x))
    (hclock : ∀ stamp ∈ x.run.stamps, stamp.age < stamp.unixMs) :
    ∀ handed ∈ x.run.handed, ∀ world' sink', ∃ y,
      call.executeInner world' (some handed.checkpoint) sink' = some (.ok y) := by
  obtain ⟨e, run, hprepared, _, hreported⟩ := executeInner_reported h
  intro handed hhanded world' sink'
  obtain ⟨run', finishedAtUnix, durationMs, hmoves, hstamps, _, hcheckpoint⟩ :=
    moves_handed hprepared.handed hreported.moves handed hhanded
  have hstamped : Stamped ⟨[], run'⟩ :=
    Loop.steps_inv Stamped (fun _ _ hs hmove ↦ hs.move hmove) hprepared.stamped hmoves
  obtain ⟨prepared, hprepare⟩ := hprepared.accepts hmoves
    (hstamped fun stamp hstamp ↦ hclock stamp (hstamps stamp hstamp)) finishedAtUnix durationMs
    world' sink'
  rw [hcheckpoint]
  exact executeInner_exists hprepare

/-- Each of the three checkpoints of the sample, with both tasks in one group, is accepted. -/
theorem checkpoint_accepted_sample : ∃ x : Executed, x.run.handed.length = 3 ∧
    x.run.stamps.length = 4 ∧ ∀ handed ∈ x.run.handed, ∀ world' sink', ∃ y,
      (Sample.call (some ⟨"pages", 20⟩) 0 (.done Sample.found)).executeInner world'
        (some handed.checkpoint) sink' = some (.ok y) := by
  have hended : endedWith
      (fun x ↦ x.run.handed.length = 3 ∧ x.run.stamps.length = 4 ∧
        ∀ stamp ∈ x.run.stamps, stamp.age < stamp.unixMs)
      ((Sample.call (some ⟨"pages", 20⟩) 0 (.done Sample.found)).executeInner Sample.world none
        (some Sample.sink)) = true := by decide +kernel
  obtain ⟨x, hx, hshape⟩ := endedWith_iff.1 hended
  obtain ⟨hhanded, hstamps, hclock⟩ := of_decide_eq_true hshape
  exact ⟨x, hhanded, hstamps, checkpoint_accepted hx hclock⟩

/-- No clock shows zero, in seconds or in milliseconds. -/
def World.ClocksSet (world : World) : Prop :=
  (∀ n, 10 ^ 9 ≤ (world.main.script n).wall) ∧ ∀ i j n, 10 ^ 9 ≤ (world.scripts i j n).wall

/-- The lookup takes two seconds, and meanwhile the wall clock is set back from ten seconds after
the epoch to one. -/
def Sample.setBack : World where
  main :=
    { script := fun n ↦ { Sample.tick with wall := if n < 7 then millis 10000 else millis 1000 }
      now := 0
      stopped := false }
  scripts _ _ n := { Sample.tick with elapsed := if n = 7 then millis 2000 else millis 1 }

/-- The checkpoint was refused. -/
def mismatched : Option (Except GraphError Executed) → Bool
  | some (.error .checkpointMismatch) => true
  | _ => false

theorem eq_of_mismatched {executed : Option (Except GraphError Executed)}
    (h : mismatched executed = true) : executed = some (.error .checkpointMismatch) := by
  unfold mismatched at h
  split at h
  · rfl
  · cases h

/-- **A checkpoint is refused** when the wall clock was set back while a task of a rate-limit group
was running. -/
theorem checkpoint_refused :
    ¬ ∀ (call : Call) (world : World) (checkpoint : Option ExecutionCheckpoint)
      (sink : Option CheckpointSink) (x : Executed), world.ClocksSet →
      call.executeInner world checkpoint sink = some (.ok x) →
      ∀ handed ∈ x.run.handed, ∀ (world' : World) (sink' : Option CheckpointSink),
        world'.ClocksSet → call.executeInner world' (some handed.checkpoint) sink' ≠
          some (.error .checkpointMismatch) := by
  intro hall
  have hended : endedWith
      (fun x ↦ x.run.handed.head?.any fun handed ↦
        mismatched ((Sample.call (some ⟨"pages", 20⟩) 0 (.done Sample.found)).executeInner
          Sample.world (some handed.checkpoint) none))
      ((Sample.call (some ⟨"pages", 20⟩) 0 (.done Sample.found)).executeInner Sample.setBack none
        (some Sample.sink)) = true := by decide +kernel
  obtain ⟨x, hx, hhead⟩ := endedWith_iff.1 hended
  obtain ⟨handed, hhanded, hrefused⟩ := (Option.any_eq_true _ _).1 hhead
  have hsecond : 10 ^ 9 ≤ millis 1000 := by decide
  have hset : Sample.setBack.ClocksSet := by
    refine ⟨fun n ↦ ?_, fun _ _ _ ↦ hsecond⟩
    simp only [Sample.setBack]
    split
    · decide
    · exact hsecond
  exact hall _ _ _ _ x hset hx handed (List.mem_of_mem_head? hhanded) Sample.world none
    ⟨fun _ ↦ hsecond, fun _ _ _ ↦ hsecond⟩ (eq_of_mismatched hrefused)

end

end Huntsman.Graph
