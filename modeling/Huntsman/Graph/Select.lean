import Huntsman.Graph.Steps

/-!
# Choosing a wave

A task is chosen when it is pending, its dependencies succeeded, it can be paid for, its
dependencies' outputs are small enough, no task of the wave needs the same resource or belongs to
the same rate-limit group, and the interval of its group has passed.  `Chosen` says all this of the
tasks chosen so far, and which tasks are turned down for good.
-/

set_option autoImplicit false

open Relation

namespace Huntsman.Graph

open List Std

section

variable (e : Execution) (run : Run)

/-- A task whose turn it is as soon as its rate limit lets it start, at `eligibleAt`. -/
structure Startable (id : String) (eligibleAt : ℕ) : Prop where
  known : id ∈ e.graph.topologicalOrder
  pending : stateOf run.records id = .pending
  ready : ∀ dependency ∈ (e.graph.spec id).dependencies,
    stateOf run.records dependency = .succeeded
  affordable : e.overBudget run.consumed 0 (e.graph.spec id).resourceUnits = false
  fits : Execution.outputsFit e.enc run.records 0 (e.graph.spec id).dependencies = .ok true
  waits : ∃ limit, (e.graph.spec id).rateLimit = some limit ∧
    ∃ last, run.lastRateStart[limit.key]? = some last ∧
      eligibleAt = last + millis limit.minIntervalMs

/-- What is known of a selection while the tasks in `rest` have yet to be considered. -/
structure Chosen (rest : List String) (s : Selection) : Prop where
  later : run.thread.Later s.thread
  selected : ∀ id ∈ s.selected, id ∈ e.graph.topologicalOrder ∧
    stateOf run.records id = .pending ∧
    ∀ dependency ∈ (e.graph.spec id).dependencies, stateOf run.records dependency = .succeeded
  aside : ∀ id ∈ s.dependencyOutputBlocked ++ s.budgetBlocked,
    id ∈ e.graph.topologicalOrder ∧ stateOf run.records id = .pending
  /-- No task is in two places. -/
  nodup : (s.selected ++ (s.dependencyOutputBlocked ++ s.budgetBlocked) ++ rest).Nodup
  few : s.selected.length ≤ e.policy.maxConcurrency
  cost : s.waveCost = cost e s.selected
  affordable : run.consumed + s.waveCost ≤ e.policy.maxTotalResourceUnits.toNat
  taken : ∀ id ∈ s.selected, ∀ resource ∈ (e.graph.spec id).exclusiveResources,
    resource ∈ s.selectedResources
  resources : s.selected.Pairwise fun a b ↦ ∀ resource ∈ (e.graph.spec a).exclusiveResources,
    resource ∉ (e.graph.spec b).exclusiveResources
  keys : ∀ id ∈ s.selected, ∀ limit ∈ (e.graph.spec id).rateLimit, limit.key ∈ s.selectedRateKeys
  rateKeys : s.selected.Pairwise fun a b ↦ ∀ limit ∈ (e.graph.spec a).rateLimit,
    ∀ limit' ∈ (e.graph.spec b).rateLimit, limit.key ≠ limit'.key
  eligible : ∀ id ∈ s.selected, ∀ limit ∈ (e.graph.spec id).rateLimit, ∀ last,
    run.lastRateStart[limit.key]? = some last →
      last + millis limit.minIntervalMs ≤ s.thread.now
  fresh : s.selected = [] → s.selectedResources = [] ∧ s.selectedRateKeys = []
  /-- Whoever has to wait could be started afterwards. -/
  waiting : s.selected = [] → ∀ eligibleAt, s.rateWaitUntil = some eligibleAt →
    ∃ id, Startable e run id eligibleAt
  /-- A task that could be started is not passed over for nothing. -/
  started : ∀ id ∈ e.graph.topologicalOrder, id ∉ rest → ∀ eligibleAt,
    Startable e run id eligibleAt → eligibleAt ≤ run.thread.now → s.selected ≠ []

end

variable {e : Execution} {run : Run} {s : Selection} {id : String} {rest : List String}

/-- What is within the budget can be added to what was consumed. -/
theorem overBudget_false {consumed waveCost units : ℕ}
    (h : e.overBudget consumed waveCost units = false) :
    consumed + waveCost + units ≤ e.policy.maxTotalResourceUnits.toNat := by
  rw [Execution.overBudget] at h
  split at h
  · cases h
  · rename_i total htotal
    obtain ⟨sum, hsum, htotal⟩ := Option.bind_eq_some_iff.1 htotal
    obtain ⟨_, rfl⟩ := checkedAdd64_eq_some.1 hsum
    obtain ⟨_, rfl⟩ := checkedAdd64_eq_some.1 htotal
    simpa using h

/-- Which outputs are there is known, so that only their size matters. -/
theorem outputsFit_ok {records : Records} {dependencies : List String} (bytes : ℕ)
    (h : ∀ dependency ∈ dependencies, ∃ output, (recordOf records dependency).output = some output ∧
      ∃ encoded, e.enc.output output = .ok encoded) :
    ∃ fits, Execution.outputsFit e.enc records bytes dependencies = .ok fits := by
  induction dependencies generalizing bytes with
  | nil => exact ⟨true, rfl⟩
  | cons d rest ih =>
    obtain ⟨output, houtput, encoded, hencoded⟩ := h d (.head _)
    obtain ⟨fits, hfits⟩ := ih (satAdd64 bytes encoded.length)
      fun d' hd' ↦ h d' (.tail _ hd')
    have hpeel {fits : Bool} (hrest : (if maxDependencyOutputBytes < satAdd64 bytes encoded.length
        then pure false else Execution.outputsFit e.enc records (satAdd64 bytes encoded.length) rest :
          Except GraphError Bool) = .ok fits) :
        Execution.outputsFit e.enc records bytes (d :: rest) = .ok fits := by
      rw [Execution.outputsFit]
      exact Except.bind_ok.2 ⟨output, dependencyOutput_ok.2 houtput,
        Except.bind_ok.2 ⟨encoded, encodeOr_ok.2 hencoded, hrest⟩⟩
    by_cases hlarge : maxDependencyOutputBytes < satAdd64 bytes encoded.length
    · exact ⟨false, hpeel (by rw [if_pos hlarge]; rfl)⟩
    · exact ⟨fits, hpeel (by rw [if_neg hlarge, hfits])⟩

/-- An output of a run can be encoded. -/
theorem Sound.encodes {stage : Stage} (h : Sound e stage) {dependency : String}
    (hstate : stateOf stage.run.records dependency = .succeeded) :
    ∃ output, (recordOf stage.run.records dependency).output = some output ∧
      ∃ encoded, e.enc.output output = .ok encoded := by
  obtain ⟨_, output, houtput, hvalid, _⟩ := (h.saved dependency).succeeded hstate
  obtain ⟨encoded, hencoded, _⟩ := validateOutput_encodes hvalid
  exact ⟨output, houtput, encoded, hencoded⟩

/-- Passing a task over. -/
theorem Chosen.skip (h : Chosen e run (id :: rest) s)
    (hid : ∀ eligibleAt, Startable e run id eligibleAt → eligibleAt ≤ run.thread.now →
      s.selected ≠ []) : Chosen e run rest s :=
  { h with
    nodup := h.nodup.sublist (List.Sublist.append_left (sublist_cons_self id rest) _)
    started := fun id' hid' hrest eligibleAt hstartable hnow ↦ by
      by_cases heq : id' = id
      · subst heq
        exact hid eligibleAt hstartable hnow
      · exact h.started id' hid' (by simp [heq, hrest]) eligibleAt hstartable hnow }

/-- Turning a task down for good. -/
theorem Chosen.refuse (h : Chosen e run (id :: rest) s) {outputBlocked budgetBlocked : List String}
    (hperm : (outputBlocked ++ budgetBlocked).Perm
      (id :: (s.dependencyOutputBlocked ++ s.budgetBlocked)))
    (hknown : id ∈ e.graph.topologicalOrder) (hpending : stateOf run.records id = .pending)
    (hid : ∀ eligibleAt, Startable e run id eligibleAt → s.selected ≠ []) :
    Chosen e run rest
      { s with dependencyOutputBlocked := outputBlocked, budgetBlocked := budgetBlocked } :=
  { h.skip (fun eligibleAt hstartable _ ↦ hid eligibleAt hstartable) with
    aside := fun id' hid' ↦ by
      rcases mem_cons.1 (hperm.mem_iff.1 hid') with rfl | hid'
      · exact ⟨hknown, hpending⟩
      · exact h.aside id' hid'
    nodup := by
      have hnodup := h.nodup
      rw [append_assoc] at hnodup ⊢
      refine ((List.Perm.append_left s.selected ?_).nodup_iff).1 hnodup
      exact (perm_middle.trans (hperm.symm.append_right rest)) }

/-- Waiting for the rate limit of a task. -/
theorem Chosen.wait (h : Chosen e run (id :: rest) s) {eligibleAt : ℕ} {thread : Thread}
    (hstartable : s.selected = [] → Startable e run id eligibleAt)
    (hlater : s.thread.Later thread) (hearly : thread.now < eligibleAt) :
    Chosen e run rest { s with
      thread, rateWaitUntil := some (s.rateWaitUntil.elim eligibleAt (min eligibleAt)) } := by
  have hskip : Chosen e run rest s := by
    refine h.skip fun eligibleAt' hstartable' hnow hnone ↦ ?_
    obtain ⟨limit, hlimit, last, hlast, rfl⟩ := (hstartable hnone).waits
    obtain ⟨limit', hlimit', last', hlast', rfl⟩ := hstartable'.waits
    rw [hlimit] at hlimit'
    cases hlimit'
    rw [hlast] at hlast'
    cases hlast'
    have := h.later.now.trans hlater.now
    omega
  exact { hskip with
    later := h.later.trans hlater
    eligible := fun id' hid' limit hlimit last hlast ↦
      (h.eligible id' hid' limit hlimit last hlast).trans hlater.now
    waiting := fun hnone eligibleAt' hwait ↦ by
      cases hprior : s.rateWaitUntil with
      | none =>
        simp only [hprior, Option.elim_none, Option.some.injEq] at hwait
        exact ⟨id, hwait ▸ hstartable hnone⟩
      | some current =>
        simp only [hprior, Option.elim_some, Option.some.injEq] at hwait
        rcases min_choice eligibleAt current with hmin | hmin
        · exact ⟨id, by rw [← hwait, hmin]; exact hstartable hnone⟩
        · obtain ⟨id', hid'⟩ := h.waiting hnone current hprior
          exact ⟨id', by rw [← hwait, hmin]; exact hid'⟩ }

/-- Adding a task to the wave. -/
theorem Chosen.take (h : Chosen e run (id :: rest) s) {thread : Thread} {rateKeys : List String}
    (hlater : s.thread.Later thread) (hkeys : ∀ key ∈ s.selectedRateKeys, key ∈ rateKeys)
    (hknown : id ∈ e.graph.topologicalOrder) (hpending : stateOf run.records id = .pending)
    (hready : ∀ dependency ∈ (e.graph.spec id).dependencies,
      stateOf run.records dependency = .succeeded)
    (hroom : s.selected.length < e.policy.maxConcurrency)
    (haffordable : e.overBudget run.consumed s.waveCost (e.graph.spec id).resourceUnits = false)
    (hresources : ∀ resource ∈ (e.graph.spec id).exclusiveResources, resource ∉ s.selectedResources)
    (hown : ∀ limit ∈ (e.graph.spec id).rateLimit,
      limit.key ∉ s.selectedRateKeys ∧ limit.key ∈ rateKeys)
    (heligible : ∀ limit ∈ (e.graph.spec id).rateLimit, ∀ last,
      run.lastRateStart[limit.key]? = some last →
        last + millis limit.minIntervalMs ≤ thread.now) :
    Chosen e run rest
      ({ s with thread, selectedRateKeys := rateKeys }.take (e.graph.spec id) id) := by
  have hcost := overBudget_false haffordable
  have hmax := e.policy.maxTotalResourceUnits.toNat_lt
  have hsat : satAdd64 s.waveCost (e.graph.spec id).resourceUnits =
      s.waveCost + (e.graph.spec id).resourceUnits := by
    rw [satAdd64]
    omega
  refine
    { later := h.later.trans hlater
      selected := ?_
      aside := h.aside
      nodup := ?_
      few := ?_
      cost := ?_
      affordable := ?_
      taken := ?_
      resources := ?_
      keys := ?_
      rateKeys := ?_
      eligible := ?_
      fresh := ?_
      waiting := ?_
      started := ?_ }
  · intro id' hid'
    rcases mem_append.1 hid' with hid' | hid'
    · exact h.selected id' hid'
    · rw [mem_singleton.1 hid']
      exact ⟨hknown, hpending, hready⟩
  · have hnodup := h.nodup
    simp only [Selection.take]
    refine (List.Perm.nodup_iff ?_).1 hnodup
    simp only [append_assoc]
    refine List.Perm.append_left _ ?_
    rw [← append_assoc, singleton_append, ← append_assoc]
    exact perm_middle
  · simp only [Selection.take, length_append, length_singleton]
    omega
  · simp only [Selection.take, hsat]
    rw [h.cost, cost_append, cost_cons, cost_nil, Nat.add_zero]
  · simp only [Selection.take, hsat]
    omega
  · intro id' hid' resource hresource
    rcases mem_append.1 hid' with hid' | hid'
    · exact mem_append_right _ (h.taken id' hid' resource hresource)
    · rw [mem_singleton.1 hid'] at hresource
      exact mem_append_left _ hresource
  · refine pairwise_append.2 ⟨h.resources, pairwise_singleton _ _, ?_⟩
    intro a ha b hb resource hresource hmem
    rw [mem_singleton.1 hb] at hmem
    exact hresources resource hmem (h.taken a ha resource hresource)
  · intro id' hid' limit hlimit
    rcases mem_append.1 hid' with hid' | hid'
    · exact hkeys _ (h.keys id' hid' limit hlimit)
    · rw [mem_singleton.1 hid'] at hlimit
      exact (hown limit hlimit).2
  · refine pairwise_append.2 ⟨h.rateKeys, pairwise_singleton _ _, ?_⟩
    intro a ha b hb limit hlimit limit' hlimit' heq
    rw [mem_singleton.1 hb] at hlimit'
    exact (hown limit' hlimit').1 (heq ▸ h.keys a ha limit hlimit)
  · intro id' hid' limit hlimit last hlast
    rcases mem_append.1 hid' with hid' | hid'
    · exact (h.eligible id' hid' limit hlimit last hlast).trans hlater.now
    · rw [mem_singleton.1 hid'] at hlimit
      exact heligible limit hlimit last hlast
  · intro hnone
    simp [Selection.take] at hnone
  · intro hnone
    simp [Selection.take] at hnone
  · intro _ _ _ _ _ _
    simp [Selection.take]

/-- Nothing stands in the way of the first task of a wave. -/
theorem Chosen.alone (h : Chosen e run rest s) (hnone : s.selected = []) :
    s.waveCost = 0 ∧ s.selectedResources = [] ∧ s.selectedRateKeys = [] := by
  refine ⟨?_, h.fresh hnone⟩
  rw [h.cost, hnone, cost_nil]

theorem choose_chosen (h : Chosen e run (id :: rest) s)
    (hknown : id ∈ e.graph.topologicalOrder) (hpending : stateOf run.records id = .pending)
    (hready : ∀ dependency ∈ (e.graph.spec id).dependencies,
      stateOf run.records dependency = .succeeded)
    (hroom : s.selected.length < e.policy.maxConcurrency)
    (haffordable : e.overBudget run.consumed s.waveCost (e.graph.spec id).resourceUnits = false)
    (hfits : Execution.outputsFit e.enc run.records 0 (e.graph.spec id).dependencies = .ok true) :
    Chosen e run rest (Execution.choose run (e.graph.spec id) id s) := by
  have hlater := Thread.later_readNow s.thread
  rw [Execution.choose]
  split
  · rename_i hconflict
    refine h.skip fun _ _ _ hnone ↦ ?_
    rw [(h.alone hnone).2.1] at hconflict
    simp at hconflict
  rename_i hresources
  have hresources : ∀ resource ∈ (e.graph.spec id).exclusiveResources,
      resource ∉ s.selectedResources := by simpa using hresources
  split
  · rename_i hnolimit
    exact h.take (Thread.Later.refl _) (fun _ hkey ↦ hkey) hknown hpending hready hroom haffordable
      hresources (by simp [hnolimit]) (by simp [hnolimit])
  rename_i limit hlimit
  split
  · rename_i hconflict
    refine h.skip fun _ _ _ hnone ↦ ?_
    rw [(h.alone hnone).2.2] at hconflict
    simp at hconflict
  rename_i hkey
  have hown : ∀ limit' ∈ (e.graph.spec id).rateLimit,
      limit'.key ∉ s.selectedRateKeys ∧ limit'.key ∈ limit.key :: s.selectedRateKeys := by
    intro limit' hlimit'
    rw [hlimit, Option.mem_some] at hlimit'
    exact hlimit' ▸ ⟨hkey, (.head _)⟩
  split
  · rename_i hnever
    refine h.take (Thread.Later.refl _) (fun _ hkey' ↦ .tail _ hkey') hknown
      hpending hready hroom haffordable hresources hown fun limit' hlimit' last hlast ↦ ?_
    rw [hlimit, Option.mem_some] at hlimit'
    rw [← hlimit', hnever] at hlast
    cases hlast
  · rename_i last hlast
    simp only
    split
    · rename_i hearly
      refine h.wait (fun hnone ↦ ⟨hknown, hpending, hready, ?_, hfits, limit, hlimit, last, hlast,
        rfl⟩) hlater hearly
      rw [← (h.alone hnone).1]
      exact haffordable
    · rename_i hdue
      refine h.take hlater (fun _ hkey' ↦ .tail _ hkey') hknown hpending hready hroom
        haffordable hresources hown fun limit' hlimit' last' hlast' ↦ ?_
      rw [hlimit, Option.mem_some] at hlimit'
      rw [← hlimit', hlast] at hlast'
      cases hlast'
      rw [← hlimit']
      exact Nat.le_of_not_lt hdue

/-- **One step of choosing.** -/
theorem consider_chosen (he : Admitted e) {ds : List Dispatch} (hsound : Sound e ⟨ds, run⟩)
    (hknown : id ∈ e.graph.topologicalOrder) (h : Chosen e run (id :: rest) s) :
    ∃ s', e.consider run s id = .ok s' ∧ Chosen e run rest s' := by
  rw [Execution.consider]
  split
  · rename_i hfull
    refine ⟨s, rfl, h.skip fun _ _ _ hnone ↦ ?_⟩
    rw [hnone, length_nil] at hfull
    exact he.concurrency (Nat.le_zero.1 hfull)
  rename_i hroom
  split
  · rename_i hnot
    exact ⟨s, rfl, h.skip fun _ hstartable _ ↦ absurd hstartable.pending hnot⟩
  rename_i hpending
  rw [not_not] at hpending
  split
  · rename_i hnot
    exact ⟨s, rfl, h.skip fun _ hstartable _ ↦ absurd hstartable.ready hnot⟩
  rename_i hready
  rw [not_not] at hready
  split
  · rename_i hover
    refine ⟨_, rfl, h.refuse ?_ hknown hpending fun _ hstartable hnone ↦ ?_⟩
    · rw [← append_assoc]
      exact perm_append_singleton _ _
    · rw [(h.alone hnone).1, hstartable.affordable] at hover
      cases hover
  rename_i haffordable
  have haffordable := Bool.eq_false_iff.2 haffordable
  obtain ⟨fits, hfits⟩ := outputsFit_ok 0 fun dependency hd ↦
    hsound.encodes (hready dependency hd)
  refine ⟨_, Except.bind_ok.2 ⟨fits, hfits, rfl⟩, ?_⟩
  split
  · rename_i htrue
    subst htrue
    exact choose_chosen h hknown hpending hready (Nat.lt_of_not_le hroom) haffordable hfits
  · rename_i hfalse
    refine h.refuse ?_ hknown hpending fun _ hstartable ↦ ?_
    · rw [append_assoc, singleton_append]
      exact perm_middle
    · have hfits' := hstartable.fits
      simp only at hfits
      rw [hfits] at hfits'
      cases hfits'
      exact absurd rfl hfalse

/-- Before any task was considered. -/
theorem chosen_start (he : Admitted e) {ds : List Dispatch} (hsound : Sound e ⟨ds, run⟩) :
    Chosen e run e.graph.topologicalOrder { thread := run.thread } := by
  refine ⟨Thread.Later.refl _, by simp, by simp, by simpa using he.graph.nodup, by simp,
    (cost_nil e).symm, hsound.within, by simp, List.Pairwise.nil, by simp, List.Pairwise.nil,
    by simp, by simp, by simp, ?_⟩
  exact fun id hid hnot ↦ absurd hid hnot

/-- **Choosing a wave** refuses nothing. -/
theorem select_chosen (he : Admitted e) {ds : List Dispatch} (hsound : Sound e ⟨ds, run⟩) :
    ∃ s, e.select run = .ok s ∧ Chosen e run [] s := by
  have hstep : ∀ id rest s, (id :: rest) ⊆ e.graph.topologicalOrder ∧ Chosen e run (id :: rest) s →
      ∃ s', e.consider run s id = .ok s' ∧ rest ⊆ e.graph.topologicalOrder ∧
        Chosen e run rest s' := by
    rintro id rest s ⟨hsub, h⟩
    obtain ⟨hknown, hrest⟩ := cons_subset.1 hsub
    obtain ⟨s', hs', h'⟩ := consider_chosen he hsound hknown h
    exact ⟨s', hs', hrest, h'⟩
  obtain ⟨s, hs, _, h⟩ := Except.foldlM_ok
    (fun rest s ↦ rest ⊆ e.graph.topologicalOrder ∧ Chosen e run rest s) hstep
    ⟨List.Subset.refl _, chosen_start he hsound⟩
  exact ⟨s, hs, h⟩

end Huntsman.Graph
