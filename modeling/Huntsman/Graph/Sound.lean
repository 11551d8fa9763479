import Huntsman.Graph.Moves
import Huntsman.Graph.Order
import Huntsman.Lib.Tally

/-!
# What holds in every run

`Sound` is the invariant of a run: the records are those of the tasks, a task that succeeded has an
output that was accepted and dependencies that succeeded, attempts are paid for, and the sizes of
the outputs add up.  It holds of every run that `prepare` starts, fresh or from a checkpoint, and
every move keeps it (`Sound.move`).
-/

set_option autoImplicit false

open Relation

namespace Huntsman.Graph

open List Std

/-! ## The outputs a task is given -/

theorem dependencyOutput_ok {records : Records} {dependency : String} {output : TaskOutput} :
    Execution.dependencyOutput records dependency = .ok output ↔
      (recordOf records dependency).output = some output := by
  rw [Execution.dependencyOutput]
  cases (recordOf records dependency).output with
  | none => simp
  | some o => simp

variable {dependencies : List String}

theorem dependencyOutputs_ok {records : Records}
    {outputs : TreeMap String TaskOutput}
    (h : Execution.dependencyOutputs records dependencies = .ok outputs) (dependency : String) :
    outputs[dependency]? =
      if dependency ∈ dependencies then (recordOf records dependency).output else none := by
  have hinv := Except.foldlM_inv
    (fun rest outputs ↦ rest ⊆ dependencies ∧
      (∀ d, d ∉ dependencies → outputs[d]? = none) ∧
      ∀ d ∈ dependencies, d ∈ rest ∨ outputs[d]? = (recordOf records d).output)
    (fun d rest outputs outputs' hinv hstep ↦ ?_) ⟨List.Subset.refl _, by simp,
      fun d hd ↦ .inl hd⟩ h
  · split
    · rename_i hmem
      exact (hinv.2.2 dependency hmem).resolve_left not_mem_nil
    · rename_i hmem
      exact hinv.2.1 dependency hmem
  · obtain ⟨hsub, hout, hin⟩ := hinv
    obtain ⟨hd, hrest⟩ := cons_subset.1 hsub
    obtain ⟨output, houtput, hstep⟩ := Except.bind_ok.1 hstep
    rw [dependencyOutput_ok] at houtput
    cases hstep
    refine ⟨hrest, fun d' hd' ↦ ?_, fun d' hd' ↦ ?_⟩
    · have hne : d ≠ d' := fun heq ↦ hd' (heq ▸ hd)
      simp [TreeMap.getElem?_insert, hne, hout d' hd']
    · by_cases heq : d = d'
      · subst heq
        simp [houtput]
      · rcases hin d' hd' with hmem | hsame
        · rcases mem_cons.1 hmem with rfl | hmem
          · exact absurd rfl heq
          · exact .inl hmem
        · simp [TreeMap.getElem?_insert, heq, hsame]

/-- The outputs are there when every dependency has one. -/
theorem dependencyOutputs_exists {records : Records}
    (h : ∀ dependency ∈ dependencies, ∃ output, (recordOf records dependency).output = some output) :
    ∃ outputs, Execution.dependencyOutputs records dependencies = .ok outputs := by
  have hstep : ∀ d rest (outputs : TreeMap String TaskOutput), d :: rest ⊆ dependencies →
      ∃ outputs', (do
        let output ← Execution.dependencyOutput records d
        pure (outputs.insert d output) : Except GraphError _) = .ok outputs' ∧
          rest ⊆ dependencies := by
    intro d rest outputs hsub
    obtain ⟨hd, hrest⟩ := cons_subset.1 hsub
    obtain ⟨output, houtput⟩ := h d hd
    exact ⟨_, Except.bind_ok.2 ⟨output, dependencyOutput_ok.2 houtput, rfl⟩, hrest⟩
  obtain ⟨outputs, houtputs, _⟩ := Except.foldlM_ok (fun rest _ ↦ rest ⊆ dependencies) hstep
    (List.Subset.refl dependencies)
  exact ⟨outputs, houtputs⟩

theorem dependencyOutputs_congr {records records' : Records}
    (h : ∀ dependency ∈ dependencies, recordOf records' dependency = recordOf records dependency) :
    Execution.dependencyOutputs records' dependencies =
      Execution.dependencyOutputs records dependencies := by
  unfold Execution.dependencyOutputs
  generalize (∅ : TreeMap String TaskOutput) = outputs
  induction dependencies generalizing outputs with
  | nil => rfl
  | cons d rest ih =>
    simp only [foldlM_cons, Execution.dependencyOutput, h d (.head _)]
    cases (recordOf records d).output with
    | none => rfl
    | some output => exact ih (fun d' hd' ↦ h d' (.tail _ hd')) _

section

variable {e : Execution}

/-- What a job is made of. -/
theorem job_ok {records : Records} {id id' : String} {job : Job} :
    e.job records id = .ok (id', job) ↔ id' = id ∧ job.enc = e.enc ∧ job.spec = e.graph.spec id ∧
      e.handlers[id]? = some job.handler ∧
      Execution.dependencyOutputs records (e.graph.spec id).dependencies =
        .ok job.dependencyOutputs ∧
      job.priorAttempts = (recordOf records id).attempts ∧ job.runDeadline = e.runDeadline ∧
      job.maxOutputBytes = e.policy.maxOutputBytes := by
  have hhandler {handler : TaskHandler} :
      e.handlerOf id = .ok handler ↔ e.handlers[id]? = some handler := by
    rw [Execution.handlerOf]
    cases e.handlers[id]? with
    | none => simp
    | some handler' => simp
  simp only [Execution.job, Except.bind_ok, hhandler]
  constructor
  · rintro ⟨handler, hsome, outputs, houtputs, h⟩
    cases h
    exact ⟨rfl, rfl, rfl, hsome, houtputs, rfl, rfl, rfl⟩
  · rintro ⟨rfl, henc, hspec, hsome, houtputs, hprior, hdeadline, hbytes⟩
    obtain ⟨enc, spec, handler, outputs, prior, deadline, bytes⟩ := job
    simp only at henc hspec hsome houtputs hprior hdeadline hbytes
    subst henc hspec hprior hdeadline hbytes
    exact ⟨handler, hsome, outputs, houtputs, rfl⟩

/-- A job depends on the record of its task and on the outputs of the dependencies only. -/
theorem job_congr {records records' : Records} {id : String}
    (hattempts : (recordOf records' id).attempts = (recordOf records id).attempts)
    (houtputs : ∀ dependency ∈ (e.graph.spec id).dependencies,
      recordOf records' dependency = recordOf records dependency) :
    e.job records' id = e.job records id := by
  simp only [Execution.job, dependencyOutputs_congr houtputs, hattempts]

end

/-! ## Records that can be saved -/

/-- What a record is that may stand in a checkpoint, beside the others. -/
structure Saved (enc : Encoders) (policy : ExecutionPolicy) (graph : ValidatedGraph)
    (tasks : Records) (id : String) (record : TaskRecord) : Prop where
  attempts : record.attempts ≤ satAdd8 (graph.spec id).maxRetries 1
  succeeded : record.state = .succeeded → record.attempts ≠ 0 ∧ ∃ output,
    record.output = some output ∧
    validateOutput enc (graph.spec id) output policy.maxOutputBytes = .ok () ∧
    validateVerificationLineage (graph.spec id) output
      (savedOutput tasks output.verification.producerId) = .ok () ∧
    ∀ dependency ∈ (graph.spec id).dependencies, stateOf tasks dependency = .succeeded
  otherwise : record.state ≠ .succeeded → record.output = none

theorem savedOutput_eq (tasks : Records) (id : String) :
    savedOutput tasks id = (recordOf tasks id).output := by
  rw [savedOutput, recordOf]
  cases tasks[id]? with
  | none => rfl
  | some record => rfl

/-- Recording what became of a pending task leaves the other records as good as they were. -/
theorem Saved.insert {enc : Encoders} {policy : ExecutionPolicy} {graph : ValidatedGraph}
    {tasks : Records} {id id' : String} {record record' : TaskRecord}
    (h : Saved enc policy graph tasks id record) (hpending : stateOf tasks id' = .pending) :
    Saved enc policy graph (tasks.insert id' record') id record where
  attempts := h.attempts
  succeeded hstate := by
    obtain ⟨hattempts, output, houtput, hvalid, hlineage, hdependencies⟩ := h.succeeded hstate
    have hne : ∀ dependency ∈ (graph.spec id).dependencies, dependency ≠ id' := by
      rintro dependency hd rfl
      rw [hdependencies dependency hd] at hpending
      cases hpending
    refine ⟨hattempts, output, houtput, hvalid, ?_, fun dependency hd ↦ ?_⟩
    · refine validateVerificationLineage_congr hlineage fun hverified ↦ ?_
      have hproducer := (validateOutput_verified hvalid hverified).2.2
      rw [savedOutput_eq, savedOutput_eq, recordOf_insert, if_neg (hne _ hproducer)]
    · rw [stateOf, recordOf_insert, if_neg (hne dependency hd)]
      exact hdependencies dependency hd
  otherwise := h.otherwise

/-! ## The invariant -/

/-- What a task was charged, once it was attempted. -/
def charge (graph : ValidatedGraph) (id : String) (record : TaskRecord) : ℕ :=
  if 0 < record.attempts then (graph.spec id).resourceUnits else 0

/-- How large the output of a record is. -/
def retainedSize (enc : Encoders) (_ : String) (record : TaskRecord) : ℕ :=
  record.output.elim 0 (outputSize enc)

section

variable (e : Execution)

/-- The invariant of a run. -/
structure Sound (s : Stage) : Prop where
  known : ∀ id, id ∈ s.run.records ↔ id ∈ e.graph.topologicalOrder
  idle : ∀ id, stateOf s.run.records id ≠ .running
  saved : ∀ id, Saved e.enc e.policy e.graph s.run.records id (recordOf s.run.records id)
  handled : ∀ id ∈ e.graph.topologicalOrder, stateOf s.run.records id = .pending →
    id ∈ e.handlers
  charged : tally (charge e.graph) s.run.records + cost e (s.rest.map Dispatch.id) ≤ s.run.consumed
  within : s.run.consumed ≤ e.policy.maxTotalResourceUnits.toNat
  retained : s.run.retainedOutputBytes = tally (retainedSize e.enc) s.run.records
  fits : s.run.retainedOutputBytes ≤ maxRunOutputBytes
  rates : ∀ key ∈ s.run.persistedRateStart, key ∈ rateIntervals e.graph
  nodup : (s.rest.map Dispatch.id).Nodup
  rest : ∀ d ∈ s.rest, ∃ start, Dispatched e s.run.records start d

end

variable {e : Execution}

variable {d : Dispatch} {s : Stage} {run' : Run}

/-- What a job finds when it is dispatched. -/
theorem Dispatched.job_ended {records : Records} {start : Thread}
    (h : Dispatched e records start d) : ∃ t : Thread, t.now = start.now ∧
      t.stopped = start.stopped ∧ d.job.Ended t d.ended := by
  obtain ⟨script, hended⟩ := h.ended
  exact ⟨start.spawn script, rfl, rfl, hended ▸ d.job.run_ended _⟩

/-- What was dispatched stays so while other pending tasks are filed. -/
theorem Dispatched.insert {records : Records} {start : Thread} {id : String}
    {record : TaskRecord} (h : Dispatched e records start d) (hne : d.id ≠ id)
    (hpending : stateOf records id = .pending) : Dispatched e (records.insert id record) start d where
  known := h.known
  pending := by
    rw [stateOf, recordOf_insert, if_neg hne]
    exact h.pending
  ready dependency hd := by
    have hne' : dependency ≠ id := by
      rintro rfl
      rw [h.ready dependency hd] at hpending
      cases hpending
    rw [stateOf, recordOf_insert, if_neg hne']
    exact h.ready dependency hd
  job := by
    rw [← h.job]
    refine job_congr (by rw [recordOf_insert, if_neg hne]) fun dependency hd ↦ ?_
    have hne' : dependency ≠ id := by
      rintro rfl
      rw [h.ready dependency hd] at hpending
      cases hpending
    rw [recordOf_insert, if_neg hne']
  ended := h.ended

/-! ## The invariant is kept -/

variable (e) in
/-- What `prepare` has checked of a run. -/
structure Admitted : Prop where
  graph : e.graph.WellFormed
  concurrency : e.policy.maxConcurrency ≠ 0

/-- The group of a task has an interval. -/
theorem mem_rateIntervals {graph : ValidatedGraph} {id : String} {spec : TaskSpec}
    {limit : RateLimit} (hspec : graph.byId[id]? = some spec) (hlimit : spec.rateLimit = some limit) :
    limit.key ∈ rateIntervals graph := by
  have hfold : ∀ (limits : List RateLimit) (intervals : TreeMap String ℕ),
      limit ∈ limits ∨ limit.key ∈ intervals →
      limit.key ∈ limits.foldl
        (fun intervals limit ↦ intervals.insert limit.key limit.minIntervalMs) intervals := by
    intro limits
    induction limits with
    | nil => simp
    | cons first limits ih =>
      intro intervals h
      refine ih _ ?_
      rcases h with h | h
      · rcases mem_cons.1 h with rfl | h
        · exact .inr (by simp)
        · exact .inl h
      · exact .inr (by simp [h])
  refine hfold _ _ (.inl (mem_filterMap.2 ⟨(id, spec), ?_, hlimit⟩))
  exact TreeMap.mem_toList_iff_getElem?_eq_some.2 hspec

/-- A task of the order is a task of the graph. -/
theorem Admitted.spec (he : Admitted e) {id : String} (hid : id ∈ e.graph.topologicalOrder) :
    e.graph.byId[id]? = some (e.graph.spec id) := by
  obtain ⟨spec, hspec⟩ := Option.isSome_iff_exists.1
    (TreeMap.mem_iff_isSome_getElem?.1 ((he.graph.mem_order id).1 hid))
  rw [ValidatedGraph.spec, hspec, Option.getD_some]

/-- A pending task has no output. -/
theorem Sound.output_none (h : Sound e s) {id : String}
    (hpending : stateOf s.run.records id = .pending) : (recordOf s.run.records id).output = none := by
  refine (h.saved id).otherwise fun hstate ↦ ?_
  rw [stateOf, hstate] at hpending
  cases hpending

/-- Updating the record of a pending task, without an output. -/
theorem Sound.settle {run : Run} (h : Sound e ⟨[], run⟩) {id : String} {state : TaskState}
    {error : String} (hknown : id ∈ run.records) (hpending : stateOf run.records id = .pending)
    (hunrun : state.unrun) (errors : List String) :
    Sound e ⟨[], { run.settle state error id with errors }⟩ := by
  have hstate : state ≠ .pending ∧ state ≠ .running ∧ state ≠ .succeeded := by
    cases state <;> simp_all [TaskState.unrun]
  have hrecord := some_of_mem hknown
  refine ⟨fun id' ↦ ?_, fun id' ↦ ?_, fun id' ↦ ?_, fun id' hid' hs ↦ ?_, ?_, h.within, ?_, h.fits,
    h.rates, nodup_nil, by simp⟩
  · rw [← h.known id']
    simp only [Run.settle, TreeMap.mem_insert, LawfulEqCmp.compare_eq_iff_eq]
    exact ⟨fun hmem ↦ hmem.elim (fun heq ↦ heq ▸ hknown) fun hmem ↦ hmem, .inr⟩
  · simp only [Run.settle, stateOf, recordOf_insert]
    split
    · exact hstate.2.1
    · exact h.idle id'
  · simp only [Run.settle, recordOf_insert]
    split
    · rename_i heq
      subst heq
      exact ⟨(h.saved id').attempts, fun hs ↦ absurd hs hstate.2.2,
        fun _ ↦ h.output_none hpending⟩
    · exact (h.saved id').insert hpending
  · simp only [Run.settle, stateOf, recordOf_insert] at hs
    split at hs
    · exact absurd hs hstate.1
    · exact h.handled id' hid' hs
  · have hcharged := h.charged
    simp only [Run.settle]
    rw [tally_insert_same (charge e.graph) hrecord]
    · exact hcharged
    · rfl
  · have hretained := h.retained
    simp only [Run.settle]
    rw [tally_insert_same (retainedSize e.enc) hrecord]
    · exact hretained
    · rfl

/-- What filing does to the record of a task: it is over, paid for and fit to be saved. -/
theorem Sound.filed {run : Run} {rest : List Dispatch}
    (h : Sound e ⟨d :: rest, run⟩) {record : TaskRecord}
    (houtcome : Outcome e run { d.ended.record with
      attempts := satAdd8 (recordOf run.records d.id).attempts d.ended.record.attempts }
      record run') :
    record.state.terminal = true ∧ Saved e.enc e.policy e.graph (run.records.insert d.id record)
      d.id record := by
  obtain ⟨start, hd⟩ := h.rest d (.head _)
  obtain ⟨t, _, _, hended⟩ := hd.job_ended
  obtain ⟨_, henc, hspec, _, houtputs, hprior, _, hbytes⟩ := job_ok.1 hd.job
  have hattempts : satAdd8 (recordOf run.records d.id).attempts d.ended.record.attempts ≤
      satAdd8 (e.graph.spec d.id).maxRetries 1 := by
    have hwithin := hended.within
    have hsaved := (h.saved d.id).attempts
    rw [Job.maxAttempts, hspec, hprior, ← hended.count] at hwithin
    simp only [satAdd8] at hwithin hsaved ⊢
    omega
  cases houtcome with
  | unsuccessful state same _ =>
    subst same
    exact ⟨hended.verdict.terminal, hattempts, fun hs ↦ absurd hs state,
      fun _ ↦ hended.verdict.output_none state⟩
  | dropped _ _ _ same _ _ =>
    subst same
    exact ⟨rfl, hattempts, fun hs ↦ absurd hs (by simp), fun _ ↦ rfl⟩
  | kept state same output recorded _ _ _ =>
    subst same
    obtain ⟨hnonempty, output', houtput', hvalid⟩ := hended.verdict.validated state
    rw [recorded] at houtput'
    cases houtput'
    rw [validateOutputAndLineage_ok, henc, hspec, hbytes] at hvalid
    refine ⟨hended.verdict.terminal, hattempts, fun _ ↦ ⟨?_, output, recorded, hvalid.1, ?_, ?_⟩,
      fun hs ↦ absurd state hs⟩
    · have hpos := length_pos_of_ne_nil hnonempty
      rw [← hended.count] at hpos
      simp only [satAdd8]
      omega
    · refine validateVerificationLineage_congr hvalid.2 fun hverified ↦ ?_
      have hproducer := (validateOutput_verified hvalid.1 hverified).2.2
      have hne : output.verification.producerId ≠ d.id := by
        rintro heq
        have hready := hd.ready _ hproducer
        rw [heq, hd.pending] at hready
        cases hready
      rw [dependencyOutputs_ok houtputs, if_pos hproducer, savedOutput_eq, recordOf_insert,
        if_neg hne]
    · intro dependency hdep
      have hne : dependency ≠ d.id := by
        rintro rfl
        have hready := hd.ready _ hdep
        rw [hd.pending] at hready
        cases hready
      rw [stateOf, recordOf_insert, if_neg hne]
      exact hd.ready dependency hdep

/-- **Filing keeps the invariant.** -/
theorem Sound.file (he : Admitted e) {run : Run} {rest : List Dispatch}
    (h : Sound e ⟨d :: rest, run⟩) (hfiled : Filed e run d run') : Sound e ⟨rest, run'⟩ := by
  obtain ⟨start, hd⟩ := h.rest d (.head _)
  obtain ⟨record, hrecords, houtcome⟩ := hfiled.filed
  obtain ⟨hterminal, hsaved⟩ := h.filed houtcome
  have hknown : d.id ∈ run.records := (h.known d.id).2 hd.known
  have hrecord := some_of_mem hknown
  have hnodup : d.id ∉ rest.map Dispatch.id ∧ (rest.map Dispatch.id).Nodup :=
    nodup_cons.1 h.nodup
  refine ⟨fun id ↦ ?_, fun id ↦ ?_, fun id ↦ ?_, fun id hid hs ↦ ?_, ?_, ?_, ?_, ?_, ?_,
    hnodup.2, fun d' hd' ↦ ?_⟩
  · rw [← h.known id]
    simp only [hrecords, TreeMap.mem_insert, LawfulEqCmp.compare_eq_iff_eq]
    exact ⟨fun hmem ↦ hmem.elim (fun heq ↦ heq ▸ hknown) fun hmem ↦ hmem, .inr⟩
  · simp only [hrecords, stateOf, recordOf_insert]
    split
    · intro hrunning
      rw [hrunning] at hterminal
      cases hterminal
    · exact h.idle id
  · simp only [hrecords, recordOf_insert]
    split
    · rename_i heq
      exact heq ▸ hsaved
    · exact (h.saved id).insert hd.pending
  · simp only [hrecords, stateOf, recordOf_insert] at hs
    split at hs
    · rw [hs] at hterminal
      cases hterminal
    · exact h.handled id hid hs
  · have htally := tally_insert (charge e.graph) hrecord record
    have hcharged := h.charged
    have hcharge : charge e.graph d.id record ≤ (e.graph.spec d.id).resourceUnits := by
      rw [charge]
      split
      · exact le_rfl
      · exact Nat.zero_le _
    simp only [map_cons, cost_cons] at hcharged
    simp only [hrecords, hfiled.consumed]
    omega
  · rw [hfiled.consumed]
    exact h.within
  · have htally := tally_insert (retainedSize e.enc) hrecord record
    have hretained := h.retained
    have hnone : retainedSize e.enc d.id (recordOf run.records d.id) = 0 := by
      rw [retainedSize, h.output_none hd.pending]
      rfl
    have hnew : run'.retainedOutputBytes = run.retainedOutputBytes +
        retainedSize e.enc d.id record := by
      cases houtcome with
      | unsuccessful state same retained =>
        rw [retained, retainedSize, hsaved.otherwise (same ▸ state)]
        rfl
      | kept _ same output recorded retained _ _ =>
        rw [retained, same, retainedSize]
        simp only at recorded ⊢
        rw [recorded]
        rfl
      | dropped _ _ _ same retained _ =>
        rw [retained, same]
        rfl
    simp only [hrecords]
    simp only at hretained
    omega
  · cases houtcome with
    | unsuccessful _ _ retained => exact retained ▸ h.fits
    | kept _ _ _ _ _ fits _ => exact fits
    | dropped _ _ _ _ retained _ => exact retained ▸ h.fits
  · intro key hkey
    by_cases hgroup : ∃ limit ∈ (e.graph.spec d.id).rateLimit, ∃ last,
        d.ended.lastAttemptStart = some last ∧ limit.key = key
    · obtain ⟨limit, hlimit, _, _, rfl⟩ := hgroup
      exact mem_rateIntervals (he.spec hd.known) hlimit
    · have hsame := (hfiled.others key fun limit hlimit last hlast heq ↦
        hgroup ⟨limit, hlimit, last, hlast, heq⟩).2
      refine h.rates key ?_
      rw [TreeMap.mem_iff_isSome_getElem?] at hkey ⊢
      rwa [← hsame]
  · obtain ⟨start', hdispatched⟩ := h.rest d' (.tail _ hd')
    have hne : d'.id ≠ d.id := fun heq ↦ hnodup.1 (heq ▸ mem_map_of_mem hd')
    refine ⟨start', ?_⟩
    simp only [hrecords]
    exact hdispatched.insert hne hd.pending

/-- **Dispatching keeps the invariant.** -/
theorem Sound.dispatch (he : Admitted e) {run : Run} {ds : List Dispatch}
    (h : Sound e ⟨[], run⟩) (hbegun : Begun e run ds run') : Sound e ⟨ds, run'⟩ := by
  obtain ⟨start, started, unixMs, _, _, htogether, hdispatched, hgroups, hothers⟩ := hbegun.began
  refine ⟨fun id ↦ ?_, fun id ↦ ?_, fun id ↦ ?_, fun id hid hs ↦ ?_, ?_, ?_, ?_, ?_, ?_,
    htogether.nodup, fun d hd ↦ ⟨start, ?_⟩⟩
  · simp only [hbegun.records]
    exact h.known id
  · simp only [hbegun.records]
    exact h.idle id
  · simp only [hbegun.records]
    exact h.saved id
  · simp only [hbegun.records] at hs
    exact h.handled id hid hs
  · have hcharged := h.charged
    simp only [map_nil, cost_nil, Nat.add_zero] at hcharged
    simp only [hbegun.records, hbegun.consumed]
    omega
  · rw [hbegun.consumed]
    exact htogether.affordable
  · simp only [hbegun.records, hbegun.retained]
    exact h.retained
  · simp only [hbegun.retained]
    exact h.fits
  · intro key hkey
    by_cases hgroup : InGroups e key (ds.map Dispatch.id)
    · obtain ⟨id, hid, limit, hlimit, rfl⟩ := hgroup
      obtain ⟨d, hd, rfl⟩ := mem_map.1 hid
      exact mem_rateIntervals (he.spec (hdispatched d hd).1.known) hlimit
    · refine h.rates key ?_
      rw [TreeMap.mem_iff_isSome_getElem?] at hkey ⊢
      rwa [← (hothers key hgroup).2]
  · simp only [hbegun.records]
    exact (hdispatched d hd).1

/-- **Every move keeps the invariant.** -/
theorem Sound.move (he : Admitted e) {s' : Stage} (h : Sound e s) (hmove : Move e s s') :
    Sound e s' := by
  cases hmove with
  | look rest run thread later =>
    exact ⟨h.known, h.idle, h.saved, h.handled, h.charged, h.within, h.retained, h.fits, h.rates,
      h.nodup, h.rest⟩
  | settle run id state error errors known pending unrun => exact h.settle known pending unrun errors
  | conclude run termination errors reason =>
    exact ⟨h.known, h.idle, h.saved, h.handled, h.charged, h.within, h.retained, h.fits, h.rates,
      h.nodup, h.rest⟩
  | dispatch run ds run' begun => exact h.dispatch he begun
  | file d rest run run' filed => exact h.file he filed
  | hand run final finishedAtUnix durationMs =>
    rw [Execution.hand]
    split
    · exact h
    · exact ⟨h.known, h.idle, h.saved, h.handled, h.charged, h.within, h.retained, h.fits, h.rates,
        h.nodup, h.rest⟩

theorem Sound.moves (he : Admitted e) {s' : Stage} (h : Sound e s) (hmoves : Moves e s s') :
    Sound e s' :=
  Loop.steps_inv (Sound e) (fun _ _ hs hmove ↦ hs.move he hmove) h hmoves

end Huntsman.Graph
