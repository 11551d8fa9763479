import Huntsman.Graph.Select

/-!
# A wave, from its start to its last record

What dispatching a wave does is one move, `Begun`, and taking up what came of its tasks is a move
for each of them, `Filed`.  `dispatchWave_moves` says so, and that nothing is refused on the way.
-/

set_option autoImplicit false

open Relation

namespace Huntsman.Graph

open List Std

variable {e : Execution} {run : Run} {s : Selection}

/-! ## Filing -/

/-- What filing does not touch before the record is put in. -/
structure Unfiled (run run' : Run) : Prop where
  thread : run'.thread = run.thread
  records : run'.records = run.records
  consumed : run'.consumed = run.consumed
  lastRateStart : run'.lastRateStart = run.lastRateStart
  persistedRateStart : run'.persistedRateStart = run.persistedRateStart
  waves : run'.waves = run.waves
  stamps : run'.stamps = run.stamps
  handed : run'.handed = run.handed

theorem keep_outcome {record : TaskRecord} {output : TaskOutput}
    (hstate : record.state = .succeeded) (houtput : record.output = some output) :
    Outcome e run record (Execution.keep run record (outputSize e.enc output)).2
        (Execution.keep run record (outputSize e.enc output)).1 ∧
      Unfiled run (Execution.keep run record (outputSize e.enc output)).1 := by
  have hmax : maxRunOutputBytes < 2 ^ 64 - 1 := by decide
  simp only [Execution.keep]
  split
  · rename_i hlarge
    refine ⟨.dropped hstate output houtput rfl rfl ?_, rfl, rfl, rfl, rfl, rfl, rfl, rfl, rfl⟩
    exact hlarge.trans_le (min_le_left _ _)
  · rename_i hsmall
    have hsat : satAdd64 run.retainedOutputBytes (outputSize e.enc output) =
        run.retainedOutputBytes + outputSize e.enc output := by
      rw [satAdd64] at hsmall ⊢
      omega
    exact ⟨.kept hstate rfl output houtput hsat (Nat.le_of_not_lt hsmall) rfl, rfl, rfl, rfl, rfl,
      rfl, rfl, rfl, rfl⟩

/-- An output that was accepted is counted by its size. -/
theorem retain_ok (run : Run) (id : String) (record : TaskRecord)
    (h : record.state = .succeeded → ∃ output, record.output = some output ∧
      ∃ encoded, e.enc.output output = .ok encoded ∧ encoded.length = outputSize e.enc output) :
    ∃ run' record', e.retain run id record = .ok (run', record') ∧
      Outcome e run record record' run' ∧ Unfiled run run' := by
  rw [Execution.retain]
  by_cases hstate : record.state = .succeeded
  · obtain ⟨output, houtput, encoded, hencoded, hsize⟩ := h hstate
    simp only [hstate, TaskState.successful, if_true, houtput]
    exact ⟨_, _, Except.bind_ok.2 ⟨encoded, encodeOr_ok.2 hencoded, rfl⟩,
      hsize ▸ keep_outcome hstate houtput⟩
  · have hnot : record.state.successful = false := by
      cases hs : record.state <;> simp_all [TaskState.successful]
    simp only [hnot]
    exact ⟨run, record, rfl, .unsuccessful hstate rfl rfl, rfl, rfl, rfl, rfl, rfl, rfl, rfl, rfl⟩

/-- An outcome is about the outputs that are retained and about the termination. -/
theorem Outcome.congr {run₂ run' run₂' : Run} {ended record : TaskRecord}
    (h : Outcome e run ended record run')
    (hretained : run₂.retainedOutputBytes = run.retainedOutputBytes)
    (hretained' : run₂'.retainedOutputBytes = run'.retainedOutputBytes)
    (htermination : record.state = .succeeded → run'.termination = run.termination →
      run₂'.termination = run₂.termination) : Outcome e run₂ ended record run₂' := by
  cases h with
  | unsuccessful state same retained =>
    exact .unsuccessful state same (by rw [hretained', hretained, retained])
  | kept state same output recorded retained fits termination =>
    exact .kept state same output recorded (by rw [hretained', hretained, retained])
      (by rwa [hretained']) (htermination (same ▸ state) termination)
  | dropped state output recorded same retained large =>
    exact .dropped state output recorded same (by rw [hretained', hretained, retained])
      (by rwa [hretained])

/-- Filing a record changes the records, and may change the errors and the termination. -/
theorem file_eq (run : Run) (id : String) (record : TaskRecord) : ∃ errors termination,
    Execution.file run id record =
        { run with records := run.records.insert id record, errors, termination } ∧
      (record.state = .succeeded → termination = run.termination) := by
  rw [Execution.file]
  split
  · exact ⟨run.errors, run.termination, rfl, fun _ ↦ rfl⟩
  · rename_i hnot
    refine ⟨_, _, rfl, fun hstate ↦ ?_⟩
    rw [hstate] at hnot
    exact absurd rfl hnot

/-- Noting the start of the last attempt. -/
theorem stampRate_filed (run : Run) (d : Dispatch) :
    run.thread.Later (e.stampRate run d).thread ∧
    (e.stampRate run d).records = run.records ∧
    (e.stampRate run d).retainedOutputBytes = run.retainedOutputBytes ∧
    (e.stampRate run d).termination = run.termination ∧
    (e.stampRate run d).consumed = run.consumed ∧
    (e.stampRate run d).waves = run.waves ∧
    (e.stampRate run d).handed = run.handed ∧
    (∀ stamp ∈ run.stamps, stamp ∈ (e.stampRate run d).stamps) ∧
    (∀ limit ∈ (e.graph.spec d.id).rateLimit, ∀ last, d.ended.lastAttemptStart = some last →
      (e.stampRate run d).lastRateStart[limit.key]? = some last ∧
        ∃ stamp ∈ (e.stampRate run d).stamps,
          (e.stampRate run d).persistedRateStart[limit.key]? = some stamp.start) ∧
    ∀ key, (∀ limit ∈ (e.graph.spec d.id).rateLimit, ∀ last,
        d.ended.lastAttemptStart = some last → limit.key ≠ key) →
      (e.stampRate run d).lastRateStart[key]? = run.lastRateStart[key]? ∧
        (e.stampRate run d).persistedRateStart[key]? = run.persistedRateStart[key]? := by
  rw [Execution.stampRate]
  split
  · rename_i limit last hlimit hlast
    have hlater := (Thread.later_readNow run.thread).trans (Thread.later_readUnixMillis _)
    refine ⟨hlater, rfl, rfl, rfl, rfl, rfl, rfl, fun _ hmem ↦ mem_append_left _ hmem, ?_, ?_⟩
    · intro limit' hlimit' last' hlast'
      rw [hlimit, Option.mem_some] at hlimit'
      subst hlimit'
      rw [hlast] at hlast'
      cases hlast'
      exact ⟨TreeMap.getElem?_insert_self, _, mem_append_right _ (.head _),
        TreeMap.getElem?_insert_self⟩
    · intro key hkey
      have hne := hkey limit hlimit last hlast
      simp [TreeMap.getElem?_insert, hne]
  · rename_i hnot
    refine ⟨Thread.Later.refl _, rfl, rfl, rfl, rfl, rfl, rfl, fun _ hmem ↦ hmem, ?_,
      fun _ _ ↦ ⟨rfl, rfl⟩⟩
    intro limit hlimit last hlast
    exact absurd hlast (hnot limit last hlimit)

/-- **Filing** what came of a task. -/
theorem reduce_filed (run : Run) {records : Records} {start : Thread} {d : Dispatch}
    (hd : Dispatched e records start d) : ∃ run', e.reduce run d = .ok run' ∧ Filed e run d run' := by
  obtain ⟨t, _, _, hended⟩ := hd.job_ended
  obtain ⟨_, henc, _, _, _, _, _, _⟩ := job_ok.1 hd.job
  obtain ⟨hlater, hrecords, hretained, htermination, hconsumed, hwaves, hhanded, hstamps, hown,
    hothers⟩ := stampRate_filed (e := e) run d
  obtain ⟨run', record', hretain, houtcome, hunfiled⟩ := retain_ok (e := e) (e.stampRate run d) d.id
    { d.ended.record with
      attempts := satAdd8 (recordOf (e.stampRate run d).records d.id).attempts
        d.ended.record.attempts }
    fun hstate ↦ by
      obtain ⟨_, output, houtput, hvalid⟩ := hended.verdict.validated hstate
      obtain ⟨encoded, hencoded, hsize⟩ :=
        validateOutput_encodes (validateOutputAndLineage_ok.1 hvalid).1
      rw [henc] at hencoded hsize
      exact ⟨output, houtput, encoded, hencoded, hsize⟩
  obtain ⟨errors, termination, hfile, hsame⟩ := file_eq run' d.id record'
  refine ⟨Execution.file run' d.id record', Except.bind_ok.2 ⟨(run', record'), hretain, rfl⟩, ?_⟩
  rw [hrecords] at houtcome
  rw [hfile]
  refine ⟨?_, ⟨record', ?_, ?_⟩, ?_, ?_, ?_, ?_, ?_, ?_⟩
  · rw [hunfiled.thread]
    exact hlater
  · rw [hunfiled.records, hrecords]
  · refine houtcome.congr hretained.symm rfl fun hstate heq ↦ ?_
    rw [hsame hstate, heq, htermination]
  · rw [hunfiled.lastRateStart, hunfiled.stamps, hunfiled.persistedRateStart]
    exact hown
  · rw [hunfiled.lastRateStart, hunfiled.persistedRateStart]
    exact hothers
  · rw [hunfiled.consumed]
    exact hconsumed
  · rw [hunfiled.waves]
    exact hwaves
  · rw [hunfiled.stamps]
    exact hstamps
  · rw [hunfiled.handed]
    exact hhanded

/-- What filing one task after the other makes of a run. -/
inductive Filings (e : Execution) : List Dispatch → Run → Run → Prop where
  | nil (run : Run) : Filings e [] run run
  | cons {d : Dispatch} {ds : List Dispatch} {run run₁ run' : Run} (filed : Filed e run d run₁)
      (rest : Filings e ds run₁ run') : Filings e (d :: ds) run run'

theorem Filings.moves {ds : List Dispatch} {run' : Run} (h : Filings e ds run run') :
    Moves e ⟨ds, run⟩ ⟨[], run'⟩ := by
  induction h with
  | nil run => exact .refl
  | cons filed rest ih => exact ih.head (.file _ _ _ _ filed)

/-- Filing what came of one task after the other. -/
theorem foldlM_reduce {records : Records} {start : Thread} {ds : List Dispatch}
    (hds : ∀ d ∈ ds, Dispatched e records start d) (run : Run) :
    ∃ run', ds.foldlM e.reduce run = .ok run' ∧ Filings e ds run run' := by
  induction ds generalizing run with
  | nil => exact ⟨run, rfl, .nil run⟩
  | cons d ds ih =>
    obtain ⟨run₁, hreduce, hfiled⟩ := reduce_filed run (hds d (.head _))
    obtain ⟨run', hrest, hfilings⟩ := ih (fun d' hd' ↦ hds d' (.tail _ hd')) run₁
    exact ⟨run', Except.foldlM_cons_ok.2 ⟨run₁, hreduce, hrest⟩, .cons hfiled hfilings⟩

/-! ## Dispatching -/

theorem inGroups_cons {key id : String} {ids : List String} : InGroups e key (id :: ids) ↔
    (∃ limit ∈ (e.graph.spec id).rateLimit, limit.key = key) ∨ InGroups e key ids := by
  simp [InGroups]

/-- What noting the start of a wave changes. -/
structure RateStarted (e : Execution) (started unixMs : ℕ) (ids : List String) (run run' : Run) :
    Prop where
  groups : ∀ key, InGroups e key ids → run'.lastRateStart[key]? = some started ∧
    run'.persistedRateStart[key]? = some unixMs ∧ { unixMs, age := 0 } ∈ run'.stamps
  others : ∀ key, ¬ InGroups e key ids →
    run'.lastRateStart[key]? = run.lastRateStart[key]? ∧
      run'.persistedRateStart[key]? = run.persistedRateStart[key]?
  stamps : ∀ stamp ∈ run.stamps, stamp ∈ run'.stamps
  rest : ∃ lastRateStart persistedRateStart stamps,
    run' = { run with lastRateStart, persistedRateStart, stamps }

theorem foldl_startRate (started unixMs : ℕ) (ids : List String) (run : Run) :
    RateStarted e started unixMs ids run (ids.foldl (e.startRate started unixMs) run) := by
  induction ids generalizing run with
  | nil =>
    exact ⟨fun _ ⟨_, hid, _⟩ ↦ absurd hid not_mem_nil, fun _ _ ↦ ⟨rfl, rfl⟩, fun _ h ↦ h,
      _, _, _, rfl⟩
  | cons id ids ih =>
    have h := ih (e.startRate started unixMs run id)
    obtain ⟨lastRateStart, persistedRateStart, stamps, hrest⟩ := h.rest
    cases hlimit : (e.graph.spec id).rateLimit with
    | none =>
      have hstart : e.startRate started unixMs run id = run := by
        rw [Execution.startRate, hlimit]
      rw [foldl_cons]
      rw [hstart] at h ⊢
      refine ⟨fun key hkey ↦ h.groups key ?_, fun key hkey ↦ h.others key ?_, h.stamps, h.rest⟩
      · rw [inGroups_cons, hlimit] at hkey
        simpa using hkey
      · rw [inGroups_cons, hlimit] at hkey
        simpa using hkey
    | some limit =>
      have hstart : e.startRate started unixMs run id = { run with
          lastRateStart := run.lastRateStart.insert limit.key started
          persistedRateStart := run.persistedRateStart.insert limit.key unixMs
          stamps := run.stamps ++ [{ unixMs, age := 0 }] } := by
        rw [Execution.startRate, hlimit]
      rw [foldl_cons]
      rw [hstart] at h ⊢
      refine ⟨fun key hkey ↦ ?_, fun key hkey ↦ ?_, fun stamp hstamp ↦ ?_, ?_⟩
      · by_cases hin : InGroups e key ids
        · exact h.groups key hin
        · obtain ⟨hlast, hpersisted⟩ := h.others key hin
          rw [inGroups_cons, hlimit] at hkey
          obtain ⟨limit', hlimit', rfl⟩ := hkey.resolve_right hin
          rw [Option.mem_some] at hlimit'
          subst hlimit'
          rw [hlast, hpersisted]
          refine ⟨TreeMap.getElem?_insert_self, TreeMap.getElem?_insert_self, h.stamps _ ?_⟩
          exact mem_append_right _ (.head _)
      · rw [inGroups_cons, hlimit, not_or] at hkey
        obtain ⟨hlast, hpersisted⟩ := h.others key hkey.2
        have hne : limit.key ≠ key := fun heq ↦ hkey.1 ⟨limit, rfl, heq⟩
        rw [hlast, hpersisted]
        simp [TreeMap.getElem?_insert, hne]
      · exact h.stamps stamp (mem_append_left _ hstamp)
      · obtain ⟨lastRateStart, persistedRateStart, stamps, hrest⟩ := h.rest
        exact ⟨lastRateStart, persistedRateStart, stamps, hrest⟩

/-- A chosen task has a job. -/
theorem job_exists {ds : List Dispatch} {id : String} (hsound : Sound e ⟨ds, run⟩)
    (hknown : id ∈ e.graph.topologicalOrder) (hpending : stateOf run.records id = .pending)
    (hready : ∀ dependency ∈ (e.graph.spec id).dependencies,
      stateOf run.records dependency = .succeeded) :
    ∃ job, e.job run.records id = .ok (id, job) := by
  obtain ⟨handler, hhandler⟩ := Option.isSome_iff_exists.1
    (TreeMap.mem_iff_isSome_getElem?.1 (hsound.handled id hknown hpending))
  obtain ⟨outputs, houtputs⟩ := dependencyOutputs_exists fun dependency hd ↦ by
    obtain ⟨output, houtput, _⟩ := hsound.encodes (hready dependency hd)
    exact ⟨output, houtput⟩
  exact ⟨{
    enc := e.enc, spec := e.graph.spec id, handler, dependencyOutputs := outputs
    priorAttempts := (recordOf run.records id).attempts, runDeadline := e.runDeadline
    maxOutputBytes := e.policy.maxOutputBytes },
    job_ok.2 ⟨rfl, rfl, rfl, hhandler, houtputs, rfl, rfl, rfl⟩⟩

/-- The jobs of the chosen tasks, in their order. -/
theorem mapM_job {records : Records} {ids : List String}
    (h : ∀ id ∈ ids, ∃ job, e.job records id = .ok (id, job)) :
    ∃ jobs, ids.mapM (e.job records) = .ok jobs ∧ jobs.map Prod.fst = ids ∧
      ∀ job ∈ jobs, e.job records job.1 = .ok job := by
  induction ids with
  | nil => exact ⟨[], rfl, rfl, by simp⟩
  | cons id ids ih =>
    obtain ⟨job, hjob⟩ := h id (.head _)
    obtain ⟨jobs, hjobs, hids, hall⟩ := ih fun id' hid' ↦ h id' (.tail _ hid')
    refine ⟨(id, job) :: jobs, ?_, by rw [map_cons, hids], fun job' hjob' ↦ ?_⟩
    · rw [mapM_cons]
      exact Except.bind_ok.2 ⟨_, hjob, Except.bind_ok.2 ⟨jobs, hjobs, rfl⟩⟩
    · rcases mem_cons.1 hjob' with rfl | hjob'
      · exact hjob
      · exact hall job' hjob'

/-- What is known of the chosen tasks when they are dispatched. -/
structure Elected (e : Execution) (run : Run) (s : Selection) : Prop where
  selected : ∀ id ∈ s.selected, id ∈ e.graph.topologicalOrder ∧
    stateOf run.records id = .pending ∧
    ∀ dependency ∈ (e.graph.spec id).dependencies, stateOf run.records dependency = .succeeded
  nodup : s.selected.Nodup
  few : s.selected.length ≤ e.policy.maxConcurrency
  cost : s.waveCost = cost e s.selected
  affordable : run.consumed + s.waveCost ≤ e.policy.maxTotalResourceUnits.toNat
  resources : s.selected.Pairwise fun a b ↦ ∀ resource ∈ (e.graph.spec a).exclusiveResources,
    resource ∉ (e.graph.spec b).exclusiveResources
  rateKeys : s.selected.Pairwise fun a b ↦ ∀ limit ∈ (e.graph.spec a).rateLimit,
    ∀ limit' ∈ (e.graph.spec b).rateLimit, limit.key ≠ limit'.key
  eligible : ∀ id ∈ s.selected, ∀ limit ∈ (e.graph.spec id).rateLimit, ∀ last,
    run.lastRateStart[limit.key]? = some last →
      last + millis limit.minIntervalMs ≤ run.thread.now

/-- Setting aside what was turned down does not touch what was chosen. -/
theorem Chosen.elected (h : Chosen e run [] s) {run' : Run}
    (haside : Aside (s.dependencyOutputBlocked ++ s.budgetBlocked) { run with thread := s.thread }
      run') : Elected e run' s := by
  have hnodup := h.nodup
  rw [append_nil, nodup_append] at hnodup
  have hpending : ∀ id ∈ s.selected, recordOf run'.records id = recordOf run.records id :=
    fun id hid ↦ haside.outside id fun hmem ↦ hnodup.2.2 id hid id hmem rfl
  refine ⟨fun id hid ↦ ?_, hnodup.1, h.few, h.cost, ?_, h.resources, h.rateKeys, ?_⟩
  · obtain ⟨hknown, hstate, hready⟩ := h.selected id hid
    refine ⟨hknown, by rw [stateOf, hpending id hid]; exact hstate, fun dependency hd ↦ ?_⟩
    have hsucceeded := hready dependency hd
    have houtside : dependency ∉ s.dependencyOutputBlocked ++ s.budgetBlocked := by
      intro hmem
      rw [(h.aside dependency hmem).2] at hsucceeded
      cases hsucceeded
    rw [stateOf, haside.outside dependency houtside]
    exact hsucceeded
  · rw [haside.consumed]
    exact h.affordable
  · intro id hid limit hlimit last hlast
    rw [haside.lastRateStart] at hlast
    exact (h.eligible id hid limit hlimit last hlast).trans haside.later.now

/-- The tasks of a wave are run from the same records, on threads that begin where this one is. -/
theorem runAll_dispatched (run : Run) (jobs : List (String × Job)) :
    (e.runAll run jobs).2.map Dispatch.id = jobs.map Prod.fst ∧
      ∀ d ∈ (e.runAll run jobs).2, (d.id, d.job) ∈ jobs ∧
        ∃ script, d.ended = d.job.run (run.thread.spawn script) := by
  refine ⟨?_, fun d hd ↦ ?_⟩
  · refine ext_getElem? fun i ↦ ?_
    simp only [Execution.runAll, getElem?_map, getElem?_mapIdx, Option.map_map]
    rfl
  · obtain ⟨i, hi, rfl⟩ := mem_mapIdx.1 hd
    exact ⟨getElem_mem hi, _, rfl⟩

/-- Running the jobs of the chosen tasks begins a wave. -/
theorem runAll_begun {jobs : List (String × Job)} {run₁ : Run} {started unixMs : ℕ} {t : Thread}
    (h : Elected e run s) (hnonempty : s.selected ≠ []) (hstarted : run.thread.now ≤ started)
    (hlater : run.thread.Later t) (hreading : started ≤ t.now)
    (hrates : RateStarted e started unixMs s.selected { run with thread := t } run₁)
    (hids : jobs.map Prod.fst = s.selected) (hall : ∀ job ∈ jobs, e.job run.records job.1 = .ok job) :
    Begun e run
      (e.runAll { run₁ with consumed := run.consumed + cost e s.selected } jobs).2
      (e.runAll { run₁ with consumed := run.consumed + cost e s.selected } jobs).1 := by
  obtain ⟨lastRateStart, persistedRateStart, stamps, rfl⟩ := hrates.rest
  generalize hrun₂ : ({ run with
    thread := t, lastRateStart, persistedRateStart, stamps
    consumed := run.consumed + cost e s.selected } : Run) = run₂
  have hthread : run₂.thread = t := by rw [← hrun₂]
  obtain ⟨hcount, hdispatched⟩ := runAll_dispatched (e := e) run₂ jobs
  rw [hids] at hcount
  have hpairwise {R : String → String → Prop} (hR : s.selected.Pairwise R) :
      (e.runAll run₂ jobs).2.Pairwise fun a b ↦ R a.id b.id := by
    rw [← hcount, pairwise_map] at hR
    exact hR
  have hmem : ∀ d ∈ (e.runAll run₂ jobs).2, d.id ∈ s.selected := fun d hd ↦
    hcount ▸ mem_map_of_mem hd
  have htogether : Together e run started (e.runAll run₂ jobs).2 := by
    refine ⟨fun hnil ↦ ?_, by rw [hcount]; exact h.nodup, ?_, ?_, hpairwise h.resources,
      hpairwise h.rateKeys, fun d hd limit hlimit last hlast ↦ ?_⟩
    · rw [hnil, map_nil] at hcount
      exact hnonempty hcount.symm
    · have hlength := congrArg length hcount
      rw [length_map] at hlength
      exact hlength ▸ h.few
    · rw [hcount, ← h.cost]
      exact h.affordable
    · exact (h.eligible d.id (hmem d hd) limit hlimit last hlast).trans hstarted
  have hjoined : run₂.thread.Later (e.runAll run₂ jobs).1.thread := Thread.later_joinAll _ _
  refine
    { later := hlater.trans (hthread ▸ hjoined)
      began := ⟨t, started, unixMs, hlater, hreading, htogether, fun d hd ↦ ?_, fun key hkey ↦ ?_,
        fun key hkey ↦ ?_⟩
      records := by rw [← hrun₂]; rfl
      consumed := by rw [hcount, ← hrun₂]; rfl
      retained := by rw [← hrun₂]; rfl
      termination := by rw [← hrun₂]; rfl
      waves := by rw [← hrun₂]; rfl
      stamps := fun stamp hstamp ↦ by rw [← hrun₂]; exact hrates.stamps stamp hstamp
      handed := by rw [← hrun₂]; rfl }
  · obtain ⟨hjob, script, hended⟩ := hdispatched d hd
    obtain ⟨hknown, hpending, hready⟩ := h.selected d.id (hmem d hd)
    refine ⟨⟨hknown, hpending, hready, hall _ hjob, script, hthread ▸ hended⟩, ?_⟩
    exact Thread.joinAll_now (mem_map_of_mem hd)
  · rw [hcount] at hkey
    rw [← hrun₂]
    exact hrates.groups key hkey
  · rw [hcount] at hkey
    rw [← hrun₂]
    exact hrates.others key hkey

/-- **Dispatching a wave** refuses nothing. -/
theorem dispatchWave_filed (hsound : Sound e ⟨[], run⟩) (h : Elected e run s)
    (hnonempty : s.selected ≠ []) : ∃ run', e.dispatchWave run s = .ok run' ∧
      ∃ ds run₁, Begun e run ds run₁ ∧ ds.map Dispatch.id = s.selected ∧
        Filings e ds run₁ run' := by
  have hnow := Thread.later_readNow run.thread
  have hunix := Thread.later_readUnixMillis run.thread.readNow.2
  have hrates := foldl_startRate (e := e) run.thread.readNow.1
    run.thread.readNow.2.readUnixMillis.1 s.selected
    { run with thread := run.thread.readNow.2.readUnixMillis.2 }
  obtain ⟨jobs, hjobs, hids, hall⟩ := mapM_job fun id hid ↦
    job_exists hsound (h.selected id hid).1 (h.selected id hid).2.1 (h.selected id hid).2.2
  have hcost : satAdd64 run.consumed s.waveCost = run.consumed + cost e s.selected := by
    have hmax := e.policy.maxTotalResourceUnits.toNat_lt
    have haffordable := h.affordable
    rw [← h.cost, satAdd64]
    omega
  have hbegun := runAll_begun h hnonempty hnow.now (hnow.trans hunix) hunix.now hrates hids hall
  have hdispatch : e.dispatchWave run s = (do
      let run₁ := s.selected.foldl
        (e.startRate run.thread.readNow.1 run.thread.readNow.2.readUnixMillis.1)
        { run with thread := run.thread.readNow.2.readUnixMillis.2 }
      let run₂ := { run₁ with consumed := satAdd64 run₁.consumed s.waveCost }
      let jobs ← s.selected.mapM (e.job run₂.records)
      (e.runAll run₂ jobs).2.foldlM e.reduce (e.runAll run₂ jobs).1) := rfl
  rw [hdispatch]
  revert hrates hbegun
  generalize s.selected.foldl
    (e.startRate run.thread.readNow.1 run.thread.readNow.2.readUnixMillis.1)
    { run with thread := run.thread.readNow.2.readUnixMillis.2 } = run₁
  intro hrates hbegun
  obtain ⟨lastRateStart, persistedRateStart, stamps, rfl⟩ := hrates.rest
  rw [← hcost] at hbegun
  obtain ⟨start, _, _, _, _, _, hdispatched, _⟩ := hbegun.began
  obtain ⟨run', hfold, hfilings⟩ := foldlM_reduce (fun d hd ↦ (hdispatched d hd).1) _
  refine ⟨run', Except.bind_ok.2 ⟨jobs, hjobs, hfold⟩, _, _, hbegun, ?_, hfilings⟩
  rw [(runAll_dispatched _ jobs).1, hids]

end Huntsman.Graph
