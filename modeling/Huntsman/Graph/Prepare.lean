import Huntsman.Graph.Finish

/-!
# What a run starts from

A checkpoint is admitted when each of its records is fit to be saved (`Saved`) and its tasks are
paid for; this is what `admitRecord` checks, no more and no less (`admitRecord_ok`).  The records
are then reopened: what can go on is pending again, and the rest stays as it was.

So a run starts sound, fresh or from any checkpoint that is admitted (`prepare_sound`).
-/

set_option autoImplicit false

open Relation

namespace Huntsman.Graph

open Std

/-! ## Admission -/

section

variable {enc : Encoders} {policy : ExecutionPolicy} {graph : ValidatedGraph} {tasks : Records}

variable {u : Unit} {minimum : ℕ} {saved : Records}

theorem orMismatch_ok {checked : Except String Unit} :
    orMismatch checked = .ok u ↔ checked = .ok () := by
  cases checked with
  | error error => simp [orMismatch]
  | ok v => simp [orMismatch]

theorem spec_of_some {id : String} {spec : TaskSpec} (h : graph.byId[id]? = some spec) :
    graph.spec id = spec := by
  rw [ValidatedGraph.spec, h, Option.getD_some]

/-- Counting what a record must have cost. -/
theorem countCharge_ok {id : String} {record : TaskRecord} {minimum' : ℕ}
    (hmin : minimum ≤ 2 ^ 64 - 1) :
    countCharge minimum (graph.spec id) record = .ok minimum' ↔
      minimum + charge graph id record ≤ 2 ^ 64 - 1 ∧
        minimum' = minimum + charge graph id record := by
  rw [countCharge, charge]
  split
  · cases hadd : checkedAdd64 minimum (graph.spec id).resourceUnits with
    | none =>
      have hover : ¬ minimum + (graph.spec id).resourceUnits ≤ 2 ^ 64 - 1 := by
        rw [checkedAdd64] at hadd
        split at hadd
        · cases hadd
        · omega
      simp only [hover, false_and, reduceCtorEq]
    | some total =>
      obtain ⟨hlt, rfl⟩ := checkedAdd64_eq_some.1 hadd
      have hle : minimum + (graph.spec id).resourceUnits ≤ 2 ^ 64 - 1 := by omega
      simp only [hle, true_and, Except.ok.injEq, eq_comm]
  · simp only [Nat.add_zero, hmin, true_and, Except.ok.injEq, eq_comm]

/-- The checks of a record, taken together, say that it is fit to be saved. -/
theorem admitOutput_ok {id : String} {record : TaskRecord} :
    (record.attempts ≤ satAdd8 (graph.spec id).maxRetries 1 ∧
        ¬ (record.state = .succeeded ∧ record.attempts = 0)) ∧
      admitOutput enc policy tasks (graph.spec id) record = .ok u ↔
    Saved enc policy graph tasks id record := by
  rw [admitOutput.eq_def]
  by_cases hstate : record.state = .succeeded
  · rw [if_pos hstate]
    cases houtput : record.output with
    | none =>
      refine ⟨fun h ↦ ?_, fun h ↦ ?_⟩
      · cases h.2
      · obtain ⟨_, output, hsome, _⟩ := h.succeeded hstate
        rw [houtput] at hsome
        cases hsome
    | some output =>
      simp only [Except.bind_ok, orMismatch_ok, Except.ensure_ok, exists_const]
      constructor
      · rintro ⟨⟨hattempts, hnonzero⟩, hvalid, hlineage, hdependencies⟩
        exact ⟨hattempts, fun _ ↦ ⟨fun hzero ↦ hnonzero ⟨hstate, hzero⟩, output, houtput, hvalid,
          hlineage, hdependencies⟩, fun hnot ↦ absurd hstate hnot⟩
      · intro h
        obtain ⟨hnonzero, output', houtput', hvalid, hlineage, hdependencies⟩ := h.succeeded hstate
        rw [houtput, Option.some.injEq] at houtput'
        subst houtput'
        exact ⟨⟨h.attempts, fun hzero ↦ hnonzero hzero.2⟩, hvalid, hlineage, hdependencies⟩
  · rw [if_neg hstate, Except.ensure_ok, Option.isNone_iff_eq_none]
    refine ⟨fun h ↦ ⟨h.1.1, fun hs ↦ absurd hs hstate, fun _ ↦ h.2⟩, fun h ↦ ?_⟩
    exact ⟨⟨h.attempts, fun hs ↦ hstate hs.1⟩, h.otherwise hstate⟩

/-- **A record of a checkpoint is admitted** when it is that of a task and fit to be saved. -/
theorem admitRecord_ok {id : String} {record : TaskRecord} {minimum' : ℕ}
    (hmin : minimum ≤ 2 ^ 64 - 1) :
    admitRecord enc policy graph tasks minimum (id, record) = .ok minimum' ↔
      (id ∈ graph.byId ∧ Saved enc policy graph tasks id record) ∧
        minimum + charge graph id record ≤ 2 ^ 64 - 1 ∧
        minimum' = minimum + charge graph id record := by
  cases hspec : graph.byId[id]? with
  | none =>
    have hnot : id ∉ graph.byId := fun hmem ↦ by
      rw [TreeMap.mem_iff_isSome_getElem?, hspec] at hmem
      cases hmem
    simp only [admitRecord, hspec, hnot, false_and, reduceCtorEq]
  | some spec =>
    have hmem : id ∈ graph.byId := TreeMap.mem_iff_isSome_getElem?.2 (by rw [hspec]; rfl)
    obtain rfl := spec_of_some hspec
    simp only [admitRecord, hspec, Except.bind_ok, Except.ensure_ok, exists_const,
      countCharge_ok hmin, hmem, true_and, pure, Except.pure, Except.ok.injEq]
    constructor
    · rintro ⟨hchecked, _, ⟨hle, rfl⟩, u, houtput, rfl⟩
      exact ⟨admitOutput_ok.1 ⟨hchecked, houtput⟩, hle, rfl⟩
    · rintro ⟨hsaved, hle, rfl⟩
      obtain ⟨hchecked, houtput⟩ := (admitOutput_ok (u := ())).2 hsaved
      exact ⟨hchecked, _, ⟨hle, rfl⟩, (), houtput, rfl⟩

/-- **The records of a checkpoint are admitted** when each of them is, and they can be paid for. -/
theorem admitRecords_ok :
    tasks.toList.foldlM (admitRecord enc policy graph tasks) 0 = .ok minimum ↔
      (∀ (id : String) (record : TaskRecord), tasks[id]? = some record →
        id ∈ graph.byId ∧ Saved enc policy graph tasks id record) ∧
        tally (charge graph) tasks ≤ 2 ^ 64 - 1 ∧ minimum = tally (charge graph) tasks := by
  rw [Except.foldlM_sum
    (fun entry ↦ entry.1 ∈ graph.byId ∧ Saved enc policy graph tasks entry.1 entry.2)
    (fun entry ↦ charge graph entry.1 entry.2)
    (fun minimum entry minimum' hmin ↦ admitRecord_ok hmin) (Nat.zero_le _), Nat.zero_add]
  simp only [Prod.forall, TreeMap.mem_toList_iff_getElem?_eq_some]
  rfl

/-! ## Reopening -/

theorem foldl_reopen (saved : Records) (ids : List String) (records : Records) (id : String) :
    recordOf (ids.foldl (fun records id ↦ records.insert id (reopen graph saved id)) records) id =
        (if id ∈ ids then reopen graph saved id else recordOf records id) ∧
      (id ∈ ids.foldl (fun records id ↦ records.insert id (reopen graph saved id)) records ↔
        id ∈ ids ∨ id ∈ records) := by
  induction ids generalizing records with
  | nil => simp
  | cons first ids ih =>
    obtain ⟨hrecord, hmem⟩ := ih (records.insert first (reopen graph saved first))
    rw [List.foldl_cons, hrecord, hmem]
    constructor
    · by_cases hin : id ∈ ids
      · rw [if_pos hin, if_pos (.tail _ hin)]
      · rw [if_neg hin, recordOf_insert]
        by_cases heq : id = first
        · subst heq
          rw [if_pos rfl, if_pos (.head _)]
        · rw [if_neg heq, if_neg (by simp [heq, hin])]
    · rw [TreeMap.mem_insert, LawfulEqCmp.compare_eq_iff_eq, List.mem_cons, eq_comm (a := first)]
      tauto

theorem recordOf_reopenAll (saved : Records) (id : String) : recordOf (reopenAll graph saved) id =
    if id ∈ graph.topologicalOrder then reopen graph saved id else {} :=
  (foldl_reopen saved _ {} id).1

theorem mem_reopenAll {id : String} :
    id ∈ reopenAll graph saved ↔ id ∈ graph.topologicalOrder := by
  rw [reopenAll, (foldl_reopen saved _ {} id).2]
  simp

/-- What reopening makes of a record, of a task that may be attempted `limit` times. -/
inductive Reopened (limit : ℕ) (before after : TaskRecord) : Prop where
  /-- Its task is over. -/
  | kept (same : after = before) (settled : before.state ≠ .pending ∧ before.state ≠ .running)
  /-- Its task can go on. -/
  | reset (same : after = { before with
      state := .pending, finishedAtUnix := none, durationMs := none, output := none, error := none
      retryable := false })
      (unfinished : before.state = .pending ∨ before.state = .running ∨
        before.state = .failed ∧ before.retryable ∧ before.attempts < limit)

theorem reopen_reopened (graph : ValidatedGraph) (saved : Records) (id : String) :
    Reopened (satAdd8 (graph.spec id).maxRetries 1) (recordOf saved id) (reopen graph saved id) := by
  simp only [reopen]
  split
  · rename_i hcan
    exact .reset rfl hcan
  · rename_i hcannot
    rw [not_or, not_or] at hcannot
    exact .kept rfl ⟨hcannot.1, hcannot.2.1⟩

variable {limit : ℕ} {before after : TaskRecord}

theorem Reopened.attempts (h : Reopened limit before after) :
    after.attempts = before.attempts := by
  cases h with
  | kept same _ => rw [same]
  | reset same _ => rw [same]

theorem Reopened.idle (h : Reopened limit before after) :
    after.state ≠ .running := by
  cases h with
  | kept same settled => exact same ▸ settled.2
  | reset same _ => simp [same]

/-- A success is kept. -/
theorem Reopened.succeeded (h : Reopened limit before after)
    (hs : before.state = .succeeded) : after = before := by
  cases h with
  | kept same _ => exact same
  | reset _ unfinished => simp [hs] at unfinished

/-- The tasks of a checkpoint that was admitted. -/
structure Fit (enc : Encoders) (policy : ExecutionPolicy) (graph : ValidatedGraph)
    (saved : Records) : Prop where
  known : ∀ id ∈ saved, id ∈ graph.topologicalOrder
  saved : ∀ id, Saved enc policy graph saved id (recordOf saved id)

theorem Saved.empty (id : String) : Saved enc policy graph tasks id {} :=
  ⟨Nat.zero_le _, fun h ↦ absurd h (by simp), fun _ ↦ rfl⟩

/-- A record that is kept is in the records a run starts with. -/
theorem Fit.kept (h : Fit enc policy graph saved) {id : String}
    (hs : stateOf saved id = .succeeded) :
    recordOf (reopenAll graph saved) id = recordOf saved id := by
  have hmem : id ∈ saved := TreeMap.mem_iff_isSome_getElem?.2 (by
    rw [some_of_stateOf (by rw [hs]; simp)]
    rfl)
  rw [recordOf_reopenAll, if_pos (h.known id hmem)]
  exact (reopen_reopened graph saved id).succeeded hs

/-- What was fit to be saved still is when everything is reopened. -/
theorem Fit.reopened (h : Fit enc policy graph saved) (id : String) :
    Saved enc policy graph (reopenAll graph saved) id (recordOf (reopenAll graph saved) id) := by
  rw [recordOf_reopenAll]
  split
  · have hsaved := h.saved id
    cases reopen_reopened graph saved id with
    | reset same unfinished =>
      rw [same]
      exact ⟨hsaved.attempts, fun hs ↦ absurd hs (by simp), fun _ ↦ rfl⟩
    | kept same settled =>
      rw [same]
      refine ⟨hsaved.attempts, fun hs ↦ ?_, hsaved.otherwise⟩
      obtain ⟨hnonzero, output, houtput, hvalid, hlineage, hdependencies⟩ := hsaved.succeeded hs
      refine ⟨hnonzero, output, houtput, hvalid, ?_, fun dependency hd ↦ ?_⟩
      · refine validateVerificationLineage_congr hlineage fun hverified ↦ ?_
        have hproducer := hdependencies _ (validateOutput_verified hvalid hverified).2.2
        rw [savedOutput_eq, savedOutput_eq, h.kept hproducer]
      · rw [stateOf, h.kept (hdependencies dependency hd)]
        exact hdependencies dependency hd
  · exact Saved.empty id

/-- Reopening changes nothing that was charged. -/
theorem Fit.charged (h : Fit enc policy graph saved) :
    tally (charge graph) (reopenAll graph saved) = tally (charge graph) saved := by
  refine tally_congr fun id ↦ ?_
  have hcharge (record : TaskRecord) (heq : record.attempts = (recordOf saved id).attempts) :
      charge graph id record = charge graph id (recordOf saved id) := by
    rw [charge, charge, heq]
  have hsaved : weighAt (charge graph) saved id = charge graph id (recordOf saved id) := by
    rw [weighAt, recordOf]
    cases saved[id]? with
    | none => rfl
    | some record => rfl
  by_cases hid : id ∈ graph.topologicalOrder
  · rw [weighAt_of_some (some_of_mem (mem_reopenAll.2 hid)), hsaved, recordOf_reopenAll, if_pos hid]
    exact hcharge _ (reopen_reopened graph saved id).attempts
  · rw [weighAt_of_not_mem fun hmem ↦ hid (mem_reopenAll.1 hmem),
      weighAt_of_not_mem fun hmem ↦ hid (h.known id hmem)]

/-! ## What else is checked -/

theorem checkHandlers_ok {handlers : HandlerRegistry} :
    checkHandlers graph handlers saved = .ok u ↔
      ∀ id ∈ graph.topologicalOrder, stateOf saved id = .succeeded ∨ id ∈ handlers := by
  rw [checkHandlers, Except.forM_ok]
  simp only [Except.ensure_ok]

theorem addRetained_ok {id : String} {record : TaskRecord} {total total' : ℕ}
    (htotal : total ≤ maxRunOutputBytes) :
    addRetained enc total (id, record) = .ok total' ↔
      (∀ output, record.output = some output → ∃ bytes, enc.output output = .ok bytes) ∧
        total + retainedSize enc id record ≤ maxRunOutputBytes ∧
        total' = total + retainedSize enc id record := by
  have hmax : maxRunOutputBytes < 2 ^ 64 - 1 := by decide
  cases houtput : record.output with
  | none =>
    have hsize : retainedSize enc id record = 0 := by rw [retainedSize, houtput, Option.elim_none]
    simp [addRetained, houtput, hsize, htotal, eq_comm]
  | some output =>
    cases hencoded : enc.output output with
    | error error => simp [addRetained, houtput, hencoded]
    | ok bytes =>
      have hsize : retainedSize enc id record = bytes.length := by
        rw [retainedSize, houtput, Option.elim_some, outputSize, hencoded]
      have hsat : satAdd64 total bytes.length ≤ maxRunOutputBytes ↔
          total + bytes.length ≤ maxRunOutputBytes := by
        rw [satAdd64]
        omega
      simp only [addRetained, houtput, hencoded, Except.bind_ok, Except.ensure_ok, exists_const,
        hsat, hsize, pure, Except.pure, Except.ok.injEq, Option.some.injEq, forall_eq',
        exists_eq', true_and]
      refine and_congr_right fun hle ↦ ?_
      rw [show satAdd64 total bytes.length = total + bytes.length by rw [satAdd64]; omega, eq_comm]

/-- **The outputs are counted** when they can all be encoded and are not too large together. -/
theorem addRetaineds_ok {total : ℕ} : tasks.toList.foldlM (addRetained enc) 0 = .ok total ↔
    (∀ (id : String) (record : TaskRecord), tasks[id]? = some record →
      ∀ output, record.output = some output → ∃ bytes, enc.output output = .ok bytes) ∧
      tally (retainedSize enc) tasks ≤ maxRunOutputBytes ∧
      total = tally (retainedSize enc) tasks := by
  rw [Except.foldlM_sum
    (fun entry ↦ ∀ output, entry.2.output = some output → ∃ bytes, enc.output output = .ok bytes)
    (fun entry ↦ retainedSize enc entry.1 entry.2)
    (fun total entry total' htotal ↦ addRetained_ok htotal) (Nat.zero_le _), Nat.zero_add]
  simp only [Prod.forall, TreeMap.mem_toList_iff_getElem?_eq_some]
  rfl

/-- The wall-clock starts that a run begins with are those of groups, and none is zero as long as
the clock does not show zero. -/
theorem addLegacyStarts {report : RunReport} {now : ℕ}
    (hstart : ∀ (key : String) (start : ℕ), report.rateLimitLastStartUnixMs[key]? = some start →
      key ∈ rateIntervals graph ∧ start ≠ 0) :
    ∀ (key : String) (start : ℕ), (graph.byId.toList.foldl (addLegacyStart report now)
      report.rateLimitLastStartUnixMs)[key]? = some start →
      key ∈ rateIntervals graph ∧ (now ≠ 0 → start ≠ 0) := by
  refine List.foldlRecOn (motive := fun persisted : TreeMap String ℕ ↦ ∀ (key : String) (start : ℕ),
    persisted[key]? = some start → key ∈ rateIntervals graph ∧ (now ≠ 0 → start ≠ 0)) _ _
    (fun key start h ↦ ⟨(hstart key start h).1, fun _ ↦ (hstart key start h).2⟩) ?_
  intro persisted hpersisted entry hentry key start h
  have hspec := TreeMap.mem_toList_iff_getElem?_eq_some.1 hentry
  rw [addLegacyStart.eq_def] at h
  split at h
  · rename_i limit record hlimit hrecord
    split at h
    · simp only [TreeMap.getElem?_insert] at h
      split at h
      · rename_i heq
        obtain rfl := LawfulEqCmp.compare_eq_iff_eq.1 heq
        refine ⟨mem_rateIntervals hspec hlimit, fun hnow ↦ ?_⟩
        have hcompleted : (record.finishedAtUnix.elim now fun seconds ↦
            satAdd64 (min (seconds * 1000) (2 ^ 64 - 1)) 999) ≠ 0 := by
          cases record.finishedAtUnix with
          | none => exact hnow
          | some seconds =>
            rw [Option.elim_some, satAdd64]
            omega
        have hle : (record.finishedAtUnix.elim now fun seconds ↦
            satAdd64 (min (seconds * 1000) (2 ^ 64 - 1)) 999) ≤ start := by
          rw [← Option.some.inj h]
          cases persisted[limit.key]? with
          | none => exact le_rfl
          | some previous => exact le_max_right _ _
        omega
      · exact hpersisted key start h
    · exact hpersisted key start h
  · exact hpersisted key start h

/-- What the wall-clock starts of a checkpoint have to be. -/
def StartsFit (graph : ValidatedGraph) (starts : TreeMap String ℕ) : Prop :=
  ∀ (key : String) (start : ℕ), starts[key]? = some start → key ∈ rateIntervals graph ∧ start ≠ 0

theorem startsFit_iff {starts : TreeMap String ℕ} :
    (∀ entry ∈ starts.toList, entry.1 ∈ rateIntervals graph ∧ entry.2 ≠ 0) ↔
      StartsFit graph starts := by
  simp only [Prod.forall, TreeMap.mem_toList_iff_getElem?_eq_some]
  rfl

/-- The provider spacing of a checkpoint is restored when its starts are fit. -/
theorem restoredRateHistory_exists {checkpoint : ExecutionCheckpoint} (t : Thread)
    (h : StartsFit graph checkpoint.report.rateLimitLastStartUnixMs) :
    ∃ history, restoredRateHistory graph (some checkpoint) t = .ok history :=
  ⟨_, Except.bind_ok.2 ⟨(), Except.ensure_ok.2 (startsFit_iff.2 h), rfl⟩⟩

theorem restoredRateHistory_ok {checkpoint : Option ExecutionCheckpoint} {t t' : Thread}
    {monotonic persisted : TreeMap String ℕ} {stamps : List Stamp}
    (h : restoredRateHistory graph checkpoint t = .ok (monotonic, persisted, stamps, t')) :
    ∀ (key : String) (start : ℕ), persisted[key]? = some start → key ∈ rateIntervals graph ∧
      ((∀ stamp ∈ stamps, stamp.age < stamp.unixMs) → start ≠ 0) := by
  cases checkpoint with
  | none =>
    cases h
    intro key start hsome
    simp at hsome
  | some checkpoint =>
    simp only [restoredRateHistory, Except.bind_ok, Except.ensure_ok, exists_const, pure,
      Except.pure, Except.ok.injEq, Prod.mk.injEq] at h
    obtain ⟨hstarts, _, rfl, rfl, _⟩ := h
    intro key start hsome
    obtain ⟨hkey, hstart⟩ := addLegacyStarts (startsFit_iff.1 hstarts) key start hsome
    refine ⟨hkey, fun hstamps ↦ hstart ?_⟩
    have := hstamps _ (.head _)
    simp only at this
    omega

/-- **A checkpoint is admitted** when it belongs to the run, its records are fit and they are paid
for. -/
theorem admitCheckpoint_ok (hgraph : graph.WellFormed) {runId policyFingerprint : String}
    {checkpoint : ExecutionCheckpoint} :
    admitCheckpoint enc policy runId graph policyFingerprint checkpoint = .ok u ↔
      (checkpoint.formatVersion = 1 ∧
        checkpoint.graphFingerprint ∈ [graph.fingerprint, graph.legacyFingerprint] ∧
        checkpoint.report.graphFingerprint = checkpoint.graphFingerprint ∧
        checkpoint.report.policyFingerprint = policyFingerprint ∧
        checkpoint.report.consumedResourceUnits ≤ policy.maxTotalResourceUnits.toNat ∧
        checkpoint.report.runId = runId) ∧
      Fit enc policy graph checkpoint.report.tasks ∧
      tally (charge graph) checkpoint.report.tasks ≤ checkpoint.report.consumedResourceUnits := by
  simp only [admitCheckpoint, Except.bind_ok, Except.ensure_ok, exists_const, admitRecords_ok]
  refine and_congr_right fun hheader ↦ ?_
  have hmax := policy.maxTotalResourceUnits.toNat_lt
  have hwithin := hheader.2.2.2.2.1
  constructor
  · rintro ⟨_, ⟨hrecords, _, rfl⟩, hpaid⟩
    refine ⟨⟨fun id hid ↦ ?_, fun id ↦ ?_⟩, hpaid⟩
    · exact (hgraph.mem_order id).2 (hrecords id _ (some_of_mem hid)).1
    · cases hsome : checkpoint.report.tasks[id]? with
      | none =>
        rw [recordOf, hsome]
        exact Saved.empty id
      | some record =>
        rw [recordOf_of_some hsome]
        exact (hrecords id record hsome).2
  · rintro ⟨hfit, hpaid⟩
    refine ⟨_, ⟨fun id record hsome ↦ ⟨?_, ?_⟩, by omega, rfl⟩, hpaid⟩
    · exact (hgraph.mem_order id).1 (hfit.known id (TreeMap.mem_iff_isSome_getElem?.2
        (by rw [hsome]; rfl)))
    · rw [← recordOf_of_some hsome]
      exact hfit.saved id

end

/-! ## What a run starts from -/

/-- What is known of a run that `prepare` starts. -/
structure Prepared (call : Call) (checkpoint : Option ExecutionCheckpoint)
    (sink : Option CheckpointSink) (e : Execution) (run : Run) : Prop where
  bounded : checkPolicy call.policy = .ok ()
  validated : call.definition.validate call.enc = .ok e.graph
  fingerprint : ∃ bytes, call.enc.policy call.policy = .ok bytes ∧
    e.policyFingerprint = call.enc.sha256Hex bytes
  enc : e.enc = call.enc
  policy : e.policy = call.policy
  handlers : e.handlers = call.handlers
  sink : e.sink = sink
  runId : e.runId = call.definition.runId
  checked : ∀ saved, checkpoint = some saved → admitCheckpoint call.enc call.policy
    call.definition.runId e.graph e.policyFingerprint saved = .ok ()
  handled : checkHandlers e.graph call.handlers (savedTasks checkpoint) = .ok ()
  records : run.records = reopenAll e.graph (savedTasks checkpoint)
  consumed : run.consumed = checkpoint.elim 0 fun saved ↦ saved.report.consumedResourceUnits
  retained : run.records.toList.foldlM (addRetained call.enc) 0 = .ok run.retainedOutputBytes
  termination : run.termination = startTermination run.records
    (checkpoint.bind fun saved ↦ saved.report.termination)
  rates : ∃ t t', restoredRateHistory e.graph checkpoint t =
    .ok (run.lastRateStart, run.persistedRateStart, run.stamps, t')
  errors : run.errors = checkpoint.elim [] fun saved ↦ saved.report.errors
  waves : run.waves = []
  handed : run.handed = []

section

variable {call : Call} {world : World} {checkpoint : Option ExecutionCheckpoint}
  {sink : Option CheckpointSink} {e : Execution} {run : Run}

theorem prepare_prepared (h : call.prepare world checkpoint sink = .ok (e, run)) :
    Prepared call checkpoint sink e run := by
  simp only [Call.prepare, Except.bind_ok, pure, Except.pure, Except.ok.injEq, Prod.mk.injEq] at h
  obtain ⟨_, hbounded, graph, hgraph, bytes, hbytes, _, hchecked, _, hhandled, retained, hretained,
    ⟨last, persisted, stamps, t⟩, hrates, rfl, rfl⟩ := h
  refine ⟨hbounded, hgraph, ⟨bytes, encodeOr_ok.1 hbytes, rfl⟩, rfl, rfl, rfl, rfl, rfl, ?_, hhandled,
    rfl, rfl, hretained, rfl, ⟨_, t, hrates⟩, rfl, rfl, rfl⟩
  rintro saved rfl
  exact hchecked

/-- What `prepare` does not refuse. -/
theorem prepare_exists {graph : ValidatedGraph} {bytes : List UInt8} (world : World)
    (sink : Option CheckpointSink) {saved : ExecutionCheckpoint}
    (hbounded : checkPolicy call.policy = .ok ())
    (hgraph : call.definition.validate call.enc = .ok graph)
    (hbytes : call.enc.policy call.policy = .ok bytes)
    (hchecked : admitCheckpoint call.enc call.policy call.definition.runId graph
      (call.enc.sha256Hex bytes) saved = .ok ())
    (hhandled : checkHandlers graph call.handlers saved.report.tasks = .ok ())
    {retained : ℕ} (hretained : (reopenAll graph saved.report.tasks).toList.foldlM
      (addRetained call.enc) 0 = .ok retained)
    (hstarts : StartsFit graph saved.report.rateLimitLastStartUnixMs) :
    ∃ prepared, call.prepare world (some saved) sink = .ok prepared := by
  obtain ⟨⟨last, persisted, stamps, t⟩, hhistory⟩ := restoredRateHistory_exists
    (startTime (some saved) world.main.readNow.2).2.readNow.2 hstarts
  simp only [Call.prepare, Except.bind_ok]
  exact ⟨_, (), hbounded, graph, hgraph, bytes, encodeOr_ok.2 hbytes, (), hchecked, (), hhandled,
    retained, hretained, _, hhistory, rfl⟩

theorem checkPolicy_ok {policy : ExecutionPolicy} (h : checkPolicy policy = .ok ()) :
    policy.maxConcurrency ≠ 0 :=
  (Except.ensure_ok.1 h).1

theorem Prepared.wellFormed (h : Prepared call checkpoint sink e run) : e.graph.WellFormed :=
  GraphDefinition.validate_wellFormed h.validated

theorem Prepared.admitted (h : Prepared call checkpoint sink e run) : Admitted e :=
  ⟨h.wellFormed, h.policy ▸ checkPolicy_ok h.bounded⟩

/-- Whatever a run starts from is fit. -/
theorem Prepared.fit (h : Prepared call checkpoint sink e run) :
    Fit call.enc call.policy e.graph (savedTasks checkpoint) := by
  cases checkpoint with
  | none => exact ⟨fun id hid ↦ by simp [savedTasks] at hid, fun id ↦ by
      simpa [savedTasks, recordOf] using Saved.empty id⟩
  | some saved => exact ((admitCheckpoint_ok h.wellFormed).1 (h.checked saved rfl)).2.1

/-- What a run starts with is paid for, and may be. -/
theorem Prepared.charged (h : Prepared call checkpoint sink e run) :
    tally (charge e.graph) run.records ≤ run.consumed ∧
      run.consumed ≤ call.policy.maxTotalResourceUnits.toNat := by
  rw [h.records, h.fit.charged, h.consumed]
  cases checkpoint with
  | none => exact ⟨le_rfl, Nat.zero_le _⟩
  | some saved =>
    obtain ⟨hheader, _, hpaid⟩ := (admitCheckpoint_ok h.wellFormed).1 (h.checked saved rfl)
    exact ⟨hpaid, hheader.2.2.2.2.1⟩

/-- A task that is pending at the start has a handler. -/
theorem Prepared.handler (h : Prepared call checkpoint sink e run) {id : String}
    (hid : id ∈ e.graph.topologicalOrder) (hpending : stateOf run.records id = .pending) :
    id ∈ e.handlers := by
  rw [h.handlers]
  refine (checkHandlers_ok.1 h.handled id hid).resolve_left fun hs ↦ ?_
  rw [h.records, stateOf, h.fit.kept hs] at hpending
  rw [stateOf, hpending] at hs
  cases hs

/-- **A run starts sound**, fresh or from any checkpoint that is admitted. -/
theorem Prepared.sound (h : Prepared call checkpoint sink e run) : Sound e ⟨[], run⟩ := by
  have hretained := addRetaineds_ok.1 h.retained
  obtain ⟨t, t', hrates⟩ := h.rates
  refine ⟨fun id ↦ ?_, fun id ↦ ?_, fun id ↦ ?_, fun id hid hs ↦ h.handler hid hs, h.charged.1,
    ?_, ?_, ?_, fun key hkey ↦ ?_, List.nodup_nil, by simp⟩
  · rw [h.records, mem_reopenAll]
  · simp only [h.records, stateOf, recordOf_reopenAll]
    split
    · exact (reopen_reopened _ _ id).idle
    · simp
  · rw [h.enc, h.policy, h.records]
    exact h.fit.reopened id
  · rw [h.policy]
    exact h.charged.2
  · rw [h.enc]
    exact hretained.2.2
  · rw [hretained.2.2]
    exact hretained.2.1
  · obtain ⟨start, hstart⟩ := Option.isSome_iff_exists.1 (TreeMap.mem_iff_isSome_getElem?.1 hkey)
    exact (restoredRateHistory_ok hrates key start hstart).1

/-- **Whatever is not refused ends with a report**, of a run that started sound. -/
theorem executeInner_reported {x : Executed}
    (h : call.executeInner world checkpoint sink = some (.ok x)) :
    ∃ e run, Prepared call checkpoint sink e run ∧ e.go run = some (.ok x) ∧ Reported e run x := by
  rw [Call.executeInner] at h
  split at h
  · cases h
  · rename_i e run hprepare
    have hprepared := prepare_prepared hprepare
    obtain ⟨x', hx, hreported⟩ := go_reported hprepared.admitted hprepared.sound
    rw [h, Option.some.injEq, Except.ok.injEq] at hx
    exact ⟨e, run, hprepared, h, hx ▸ hreported⟩

theorem executeInner_exists {prepared : Execution × Run}
    (h : call.prepare world checkpoint sink = .ok prepared) :
    ∃ x, call.executeInner world checkpoint sink = some (.ok x) := by
  obtain ⟨e, run⟩ := prepared
  have hprepared := prepare_prepared h
  obtain ⟨x, hx, _⟩ := go_reported hprepared.admitted hprepared.sound
  refine ⟨x, ?_⟩
  rw [Call.executeInner, h]
  exact hx

end

end Huntsman.Graph
