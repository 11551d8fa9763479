import Huntsman.Graph.Validate

/-!
# What validation establishes

A graph that was validated has each of its tasks once in its order, under its own name, with
dependencies that are tasks of the graph, and one interval for each rate-limit group
(`validate_wellFormed`).  This is all the executor relies on.
-/

set_option autoImplicit false

namespace Huntsman.Graph

open List Std

/-- What every validated graph is. -/
structure ValidatedGraph.WellFormed (graph : ValidatedGraph) : Prop where
  /-- The order has no task twice. -/
  nodup : graph.topologicalOrder.Nodup
  /-- The order has the tasks. -/
  mem_order : ∀ id, id ∈ graph.topologicalOrder ↔ id ∈ graph.byId
  /-- A task goes by its name. -/
  named : ∀ (id : String) (spec : TaskSpec), graph.byId[id]? = some spec → spec.id = id
  retries : ∀ (id : String) (spec : TaskSpec), graph.byId[id]? = some spec → spec.maxRetries ≤ maxRetriesLimit
  /-- Dependencies are tasks. -/
  known : ∀ (id : String) (spec : TaskSpec), graph.byId[id]? = some spec → ∀ dependency ∈ spec.dependencies,
    dependency ∈ graph.byId
  /-- A rate-limit group has one interval. -/
  interval : ∀ (id : String) (spec : TaskSpec) (id' : String) (spec' : TaskSpec) limit limit', graph.byId[id]? = some spec →
    graph.byId[id']? = some spec' → spec.rateLimit = some limit → spec'.rateLimit = some limit' →
    limit.key = limit'.key → limit.minIntervalMs = limit'.minIntervalMs

/-! ## The tasks -/

theorem checkDependencies_ok {id : String} {seen dependencies : List String} {u : Unit}
    (h : checkDependencies id seen dependencies = .ok u) :
    dependencies.Nodup ∧ id ∉ dependencies ∧ ∀ dependency ∈ dependencies, dependency ∉ seen := by
  induction dependencies generalizing seen with
  | nil => simp
  | cons dependency rest ih =>
    simp only [checkDependencies, Except.bind_ok, require_ok, exists_const] at h
    obtain ⟨_, hself, hseen, hrest⟩ := h
    obtain ⟨hnodup, hid, hout⟩ := ih hrest
    refine ⟨nodup_cons.2 ⟨fun hmem ↦ hout _ hmem (.head _), hnodup⟩, ?_, ?_⟩
    · simp [Ne.symm hself, hid]
    · intro d hd
      rcases mem_cons.1 hd with rfl | hd
      · exact hseen
      · exact fun hmem ↦ hout d hd (.tail _ hmem)

theorem checkTask_ok {enc : Encoders} {task : TaskSpec} {u : Unit}
    (h : checkTask enc task = .ok u) :
    task.maxRetries ≤ maxRetriesLimit ∧ task.dependencies.Nodup := by
  simp only [checkTask, Except.bind_ok, require_ok, exists_const] at h
  obtain ⟨_, _, _, _, hretries, _, _, _, _, _, _, hdependencies⟩ := h
  exact ⟨hretries, (checkDependencies_ok hdependencies).1⟩

theorem addRateLimit_ok {rateLimits rateLimits' : TreeMap String ℕ} {task : TaskSpec}
    (h : addRateLimit rateLimits task = .ok rateLimits') :
    (∀ (key : String) (interval : ℕ), rateLimits[key]? = some interval → rateLimits'[key]? = some interval) ∧
      ∀ limit ∈ task.rateLimit, rateLimits'[limit.key]? = some limit.minIntervalMs := by
  rw [addRateLimit] at h
  split at h
  · rename_i hnone
    cases h
    simp [hnone]
  · rename_i limit hsome
    simp only [Except.bind_ok, require_ok, exists_const] at h
    obtain ⟨_, hsame, h⟩ := h
    cases h
    refine ⟨fun key interval hkey ↦ ?_, fun limit' hlimit ↦ ?_⟩
    · rw [TreeMap.getElem?_insert]
      split
      · rename_i heq
        obtain rfl := LawfulEqCmp.compare_eq_iff_eq.1 heq
        rw [hsame interval hkey]
      · exact hkey
    · rw [hsome, Option.mem_some] at hlimit
      subst hlimit
      exact TreeMap.getElem?_insert_self

/-- What holds of the tasks that were checked. -/
structure Building.Checked (tasks : List TaskSpec) (built : Building) : Prop where
  task : ∀ (id : String) (spec : TaskSpec), built.byId[id]? = some spec → spec ∈ tasks ∧ spec.id = id ∧
    spec.maxRetries ≤ maxRetriesLimit ∧ spec.dependencies.Nodup ∧
    ∀ limit ∈ spec.rateLimit, built.rateLimits[limit.key]? = some limit.minIntervalMs

theorem addTask_checked {enc : Encoders} {tasks : List TaskSpec} {built built' : Building}
    {task : TaskSpec} (hbuilt : built.Checked tasks) (hmem : task ∈ tasks)
    (h : addTask enc built task = .ok built') : built'.Checked tasks := by
  simp only [addTask, Except.bind_ok, require_ok, exists_const] at h
  obtain ⟨_, hcheck, rateLimits, hrate, _, _, _, _, _, _, _, _, h⟩ := h
  obtain ⟨hretries, hnodup⟩ := checkTask_ok hcheck
  obtain ⟨hkeep, hown⟩ := addRateLimit_ok hrate
  cases h
  refine ⟨fun id spec hspec ↦ ?_⟩
  rw [TreeMap.getElem?_insert] at hspec
  split at hspec
  · rename_i heq
    cases hspec
    exact ⟨hmem, LawfulEqCmp.compare_eq_iff_eq.1 heq, hretries, hnodup, hown⟩
  · obtain ⟨htask, hid, hlimit, hdeps, hgroup⟩ := hbuilt.task id spec hspec
    exact ⟨htask, hid, hlimit, hdeps, fun limit hl ↦ hkeep _ _ (hgroup limit hl)⟩

/-- The tasks of a map, each under its own name and none twice. -/
structure Tabled (tasks : List TaskSpec) (byId : TreeMap String TaskSpec) : Prop where
  nodup : (tasks.map TaskSpec.id).Nodup
  own : ∀ task ∈ tasks, byId[task.id]? = some task
  mem : ∀ id, id ∈ byId ↔ id ∈ tasks.map TaskSpec.id

theorem addTask_tabled {enc : Encoders} {tasks : List TaskSpec} {built built' : Building}
    {task : TaskSpec} (hbuilt : Tabled tasks built.byId) (h : addTask enc built task = .ok built') :
    Tabled (tasks ++ [task]) built'.byId := by
  simp only [addTask, Except.bind_ok, require_ok, exists_const] at h
  obtain ⟨_, _, rateLimits, _, _, _, _, _, _, _, _, hnew, h⟩ := h
  cases h
  have hfresh : task.id ∉ tasks.map TaskSpec.id := fun hmem ↦ hnew ((hbuilt.mem _).2 hmem)
  refine ⟨?_, fun other hother ↦ ?_, fun id ↦ ?_⟩
  · rw [map_append, nodup_append]
    refine ⟨hbuilt.nodup, nodup_singleton _, fun id hid id' hid' heq ↦ ?_⟩
    exact hfresh (mem_singleton.1 hid' ▸ heq ▸ hid)
  · rw [TreeMap.getElem?_insert]
    rcases mem_append.1 hother with hother | hother
    · rw [if_neg fun heq ↦ hfresh ?_]
      · exact hbuilt.own other hother
      · rw [LawfulEqCmp.compare_eq_iff_eq.1 heq]
        exact mem_map_of_mem hother
    · obtain rfl := mem_singleton.1 hother
      rw [if_pos (LawfulEqCmp.compare_eq_iff_eq.2 rfl)]
  · rw [TreeMap.mem_insert, LawfulEqCmp.compare_eq_iff_eq, hbuilt.mem id, map_append,
      mem_append, map_singleton, mem_singleton, or_comm, eq_comm]

theorem checkExist_ok {byId : TreeMap String TaskSpec} {task : TaskSpec}
    {dependencies : List String} {u : Unit} (h : checkExist byId task dependencies = .ok u) :
    ∀ dependency ∈ dependencies, dependency ∈ byId := by
  induction dependencies with
  | nil => simp
  | cons dependency rest ih =>
    simp only [checkExist, Except.bind_ok, require_ok, exists_const] at h
    intro d hd
    rcases mem_cons.1 hd with rfl | hd
    · exact h.1
    · exact ih h.2 d hd

/-! ## The order -/

section Order

variable {byId : TreeMap String TaskSpec}

/-- The dependencies of the task of a name. -/
def dependenciesOf (byId : TreeMap String TaskSpec) (id : String) : List String :=
  (byId[id]?).elim [] TaskSpec.dependencies

/-- The tasks go by their names, and have no dependency twice. -/
def Named (byId : TreeMap String TaskSpec) : Prop :=
  ∀ (id : String) (spec : TaskSpec), byId[id]? = some spec → spec.id = id ∧ spec.dependencies.Nodup

theorem mem_edges (hnamed : Named byId) {dependency child : String} :
    (dependency, child) ∈ edges byId ↔ child ∈ byId ∧ dependency ∈ dependenciesOf byId child := by
  simp only [edges, mem_flatMap, mem_map, Prod.mk.injEq, Prod.exists,
    TreeMap.mem_toList_iff_getElem?_eq_some]
  constructor
  · rintro ⟨id, spec, hspec, d, hd, rfl, rfl⟩
    rw [(hnamed id spec hspec).1, dependenciesOf, hspec]
    exact ⟨TreeMap.mem_iff_isSome_getElem?.2 (by rw [hspec]; rfl), hd⟩
  · rintro ⟨hchild, hd⟩
    obtain ⟨spec, hspec⟩ := Option.isSome_iff_exists.1 (TreeMap.mem_iff_isSome_getElem?.1 hchild)
    rw [dependenciesOf, hspec] at hd
    exact ⟨child, spec, hspec, dependency, hd, rfl, (hnamed child spec hspec).1⟩

theorem nodup_edges (hnamed : Named byId) : (edges byId).Nodup := by
  rw [edges, nodup_flatMap]
  refine ⟨?_, ?_⟩
  · rintro ⟨id, spec⟩ hmem
    have hspec := hnamed id spec (TreeMap.mem_toList_iff_getElem?_eq_some.1 hmem)
    exact hspec.2.map fun a b hab ↦ (Prod.mk.inj hab).1
  · have hkeys : byId.toList.Pairwise fun a b ↦ ¬ compare a.1 b.1 = .eq :=
      TreeMap.distinct_keys_toList
    refine hkeys.imp_of_mem ?_
    rintro ⟨id, spec⟩ ⟨id', spec'⟩ hmem hmem' hne
    have hspec := (hnamed id spec (TreeMap.mem_toList_iff_getElem?_eq_some.1 hmem)).1
    have hspec' := (hnamed id' spec' (TreeMap.mem_toList_iff_getElem?_eq_some.1 hmem')).1
    have hdiff : id ≠ id' := fun heq ↦ hne (LawfulEqCmp.compare_eq_iff_eq.2 heq)
    simp only [Function.onFun, disjoint_left, mem_map, not_exists, not_and]
    rintro _ ⟨d, _, rfl⟩ d' _ heq
    exact hdiff (by rw [← hspec, ← hspec', (Prod.mk.inj heq).2])

theorem mem_dependents (hnamed : Named byId) {id child : String} :
    child ∈ dependents byId id ↔ child ∈ byId ∧ id ∈ dependenciesOf byId child := by
  rw [dependents, mem_insertionSort, ← mem_edges hnamed]
  simp

theorem nodup_dependents (hnamed : Named byId) (id : String) : (dependents byId id).Nodup := by
  rw [dependents, (perm_insertionSort _ _).nodup_iff]
  refine List.Nodup.map_on ?_ ((nodup_edges hnamed).filter _)
  rintro ⟨a, c⟩ ha ⟨b, d⟩ hb hcd
  simp only [mem_filter, decide_eq_true_eq] at ha hb
  exact Prod.ext (ha.2.trans hb.2.symm) hcd

/-- What holds while the children in `rest` have yet to be told that their dependency is in the
order. -/
structure Placed (byId : TreeMap String TaskSpec) (rest : List String) (o : TopoState) : Prop where
  nodup : o.order.Nodup
  known : ∀ id ∈ o.order, id ∈ byId
  /-- Tasks follow their dependencies. -/
  follows : ∀ id ∈ o.order, ∀ dependency ∈ dependenciesOf byId id, dependency ∈ o.order
  ready : ∀ id ∈ o.ready, id ∈ byId ∧ id ∉ o.order ∧ id ∉ rest ∧
    ∀ dependency ∈ dependenciesOf byId id, dependency ∈ o.order
  /-- A task waits for the dependencies that are not in the order. -/
  indegree : ∀ id ∈ byId, o.indegree[id]? =
    some ((dependenciesOf byId id).countP (· ∉ o.order) + if id ∈ rest then 1 else 0)
  nodup_rest : rest.Nodup
  children : ∀ id ∈ rest, id ∈ byId ∧ id ∉ o.order

theorem Placed.release {child : String} {rest : List String} {o o' : TopoState}
    (h : Placed byId (child :: rest) o) (hrelease : o.release child = .ok o') :
    Placed byId rest o' := by
  obtain ⟨hchild, hrest⟩ := nodup_cons.1 h.nodup_rest
  have hin := h.children child (.head _)
  have hdegree := h.indegree child hin.1
  rw [if_pos (.head _)] at hdegree
  rw [TopoState.release, hdegree] at hrelease
  simp only [Nat.add_sub_cancel, Except.ok.injEq] at hrelease
  have hcount : ∀ id ∈ byId, (o.indegree.insert child
      ((dependenciesOf byId child).countP (· ∉ o.order)))[id]? =
      some ((dependenciesOf byId id).countP (· ∉ o.order) + if id ∈ rest then 1 else 0) := by
    intro id hid
    rw [TreeMap.getElem?_insert]
    by_cases heq : child = id
    · subst heq
      simp [hchild]
    · have hdeg := h.indegree id hid
      simpa [heq, Ne.symm heq] using hdeg
  have hready : ∀ id ∈ o.ready, id ∈ byId ∧ id ∉ o.order ∧ id ∉ rest ∧
      ∀ dependency ∈ dependenciesOf byId id, dependency ∈ o.order := by
    intro id hid
    obtain ⟨hknown, hout, hnot, hdeps⟩ := h.ready id hid
    exact ⟨hknown, hout, fun hmem ↦ hnot (.tail _ hmem), hdeps⟩
  have hchildren : ∀ id ∈ rest, id ∈ byId ∧ id ∉ o.order :=
    fun id hid ↦ h.children id (.tail _ hid)
  split at hrelease
  · rename_i hzero
    subst hrelease
    refine ⟨h.nodup, h.known, h.follows, fun id hid ↦ ?_, hcount, hrest, hchildren⟩
    rcases TreeSet.mem_insert.1 hid with heq | hid
    · obtain rfl := LawfulEqCmp.compare_eq_iff_eq.1 heq
      refine ⟨hin.1, hin.2, hchild, fun dependency hd ↦ ?_⟩
      have hnone := countP_eq_zero.1 hzero dependency hd
      simpa using hnone
    · exact hready id hid
  · subst hrelease
    exact ⟨h.nodup, h.known, h.follows, hready, hcount, hrest, hchildren⟩

/-- A list without duplicates has one element fewer outside the order when one of its elements is
put there. -/
theorem countP_place {l order : List String} {id : String} (hl : l.Nodup) (hid : id ∉ order) :
    l.countP (· ∉ order) =
      l.countP (· ∉ order ++ [id]) + if id ∈ l then 1 else 0 := by
  induction l with
  | nil => simp
  | cons x l ih =>
    obtain ⟨hx, hl⟩ := nodup_cons.1 hl
    have ih := ih hl
    rw [countP_cons, countP_cons, ih]
    by_cases heq : id = x
    · subst heq
      simp [hid, hx]
    · by_cases hmem : x ∈ order
      · simp [hmem, heq]
      · simp [hmem, heq, Ne.symm heq]
        omega

/-- Putting a ready task in the order: its dependents have yet to be told. -/
theorem Placed.place (hnamed : Named byId) {id : String} {o : TopoState} (h : Placed byId [] o)
    (hid : id ∈ o.ready) :
    Placed byId (dependents byId id)
      { o with order := o.order ++ [id], ready := o.ready.erase id } := by
  obtain ⟨hknown, hout, _, hdeps⟩ := h.ready id hid
  have hself : ∀ x, (∀ d ∈ dependenciesOf byId x, d ∈ o.order) → x ∉ dependents byId id :=
    fun x hx hmem ↦ hout (hx id ((mem_dependents hnamed).1 hmem).2)
  refine ⟨?_, ?_, ?_, ?_, ?_, nodup_dependents hnamed id, ?_⟩
  · exact nodup_append.2 ⟨h.nodup, nodup_singleton _,
      fun a ha b hb hab ↦ hout (mem_singleton.1 hb ▸ hab ▸ ha)⟩
  · intro x hx
    rcases mem_append.1 hx with hx | hx
    · exact h.known x hx
    · exact mem_singleton.1 hx ▸ hknown
  · intro x hx d hd
    rcases mem_append.1 hx with hx | hx
    · exact mem_append_left _ (h.follows x hx d hd)
    · rw [mem_singleton.1 hx] at hd
      exact mem_append_left _ (hdeps d hd)
  · intro x hx
    obtain ⟨hne, hx⟩ := TreeSet.mem_erase.1 hx
    obtain ⟨hxknown, hxout, _, hxdeps⟩ := h.ready x hx
    refine ⟨hxknown, ?_, hself x hxdeps, fun d hd ↦ mem_append_left _ (hxdeps d hd)⟩
    rw [mem_append, mem_singleton]
    rintro (hmem | rfl)
    · exact hxout hmem
    · exact hne (LawfulEqCmp.compare_eq_iff_eq.2 rfl)
  · intro x hx
    obtain ⟨spec, hspec⟩ := Option.isSome_iff_exists.1 (TreeMap.mem_iff_isSome_getElem?.1 hx)
    have hdeg := h.indegree x hx
    have hnodup : (dependenciesOf byId x).Nodup := by
      rw [dependenciesOf, hspec]
      exact (hnamed x spec hspec).2
    rw [hdeg, countP_place hnodup hout]
    simp only [not_mem_nil, if_false, Nat.add_zero, mem_dependents hnamed, hx, true_and]
  · intro x hx
    obtain ⟨hxknown, hxdep⟩ := (mem_dependents hnamed).1 hx
    refine ⟨hxknown, ?_⟩
    rw [mem_append, mem_singleton]
    rintro (hmem | rfl)
    · exact hout (h.follows x hmem id hxdep)
    · exact hout (hdeps x hxdep)

theorem takeReady_placed (hnamed : Named byId) {passes : ℕ} {o : TopoState} {order : List String}
    (h : Placed byId [] o) (hrun : takeReady byId passes o = .ok order) :
    order.Nodup ∧ ∀ id ∈ order, id ∈ byId := by
  induction passes generalizing o with
  | zero =>
    cases hrun
    exact ⟨h.nodup, h.known⟩
  | succ passes ih =>
    rw [takeReady] at hrun
    split at hrun
    · cases hrun
      exact ⟨h.nodup, h.known⟩
    · rename_i id hmin
      obtain ⟨next, hnext, hrun⟩ := Except.bind_ok.1 hrun
      rw [← TreeSet.min?_eq_head?_toList] at hmin
      have hid : id ∈ o.ready := (TreeSet.min?_eq_some_iff_mem_and_forall.1 hmin).1
      refine ih ?_ hrun
      exact Except.foldlM_inv (Placed byId) (fun _ _ _ _ h hstep ↦ h.release hstep)
        (h.place hnamed hid) hnext

/-- Nothing is placed at first, and what has no dependencies is ready. -/
theorem placed_start : Placed byId [] {
    order := []
    ready := TreeSet.ofList
      (((byId.map fun _ task ↦ task.dependencies.length).toList.filter (·.2 = 0)).map Prod.fst)
    indegree := byId.map fun _ task ↦ task.dependencies.length } := by
  refine ⟨nodup_nil, by simp, by simp, fun id hid ↦ ?_, fun id hid ↦ ?_, nodup_nil,
    by simp⟩
  · simp only [TreeSet.mem_ofList, contains_iff_mem, mem_map, mem_filter,
      decide_eq_true_eq, Prod.exists, exists_and_right, exists_eq_right,
      TreeMap.mem_toList_iff_getElem?_eq_some, TreeMap.getElem?_map, Option.map_eq_some_iff] at hid
    obtain ⟨spec, hspec, hnone⟩ := hid
    have hdeps : dependenciesOf byId id = [] := by
      rw [dependenciesOf, hspec]
      exact length_eq_zero_iff.1 hnone
    refine ⟨?_, by simp, by simp, by simp [hdeps]⟩
    rw [TreeMap.mem_iff_isSome_getElem?, hspec]
    rfl
  · obtain ⟨spec, hspec⟩ := Option.isSome_iff_exists.1 (TreeMap.mem_iff_isSome_getElem?.1 hid)
    simp [TreeMap.getElem?_map, hspec, dependenciesOf]

theorem topologicalOrder_ok (hnamed : Named byId) {order : List String}
    (h : topologicalOrder byId = .ok order) : order.Nodup ∧ ∀ id ∈ order, id ∈ byId :=
  takeReady_placed hnamed placed_start h

/-- As many tasks as there are, none of them twice, are all the tasks. -/
theorem mem_order_of_length {order : List String} (hnodup : order.Nodup)
    (hknown : ∀ id ∈ order, id ∈ byId) (hlength : order.length = byId.size) (id : String) :
    id ∈ order ↔ id ∈ byId := by
  have hsub : order ⊆ byId.keys := fun x hx ↦ TreeMap.mem_keys.2 (hknown x hx)
  have hperm : order.Perm byId.keys :=
    (hnodup.subperm hsub).perm_of_length_le (by rw [TreeMap.length_keys, hlength])
  rw [hperm.mem_iff, TreeMap.mem_keys]

end Order

/-- **Validation.**  A graph that was validated is well formed. -/
theorem GraphDefinition.validate_wellFormed {enc : Encoders} {definition : GraphDefinition}
    {graph : ValidatedGraph} (h : definition.validate enc = .ok graph) : graph.WellFormed := by
  simp only [GraphDefinition.validate, Except.bind_ok, require_ok, exists_const] at h
  obtain ⟨_, _, _, built, hbuilt, _, hexist, order, horder, hlength, _, _, _, _, _, _, h⟩ := h
  cases h
  have hchecked : built.Checked definition.tasks := by
    have hinv := Except.foldlM_inv
      (fun rest built ↦ built.Checked definition.tasks ∧ rest ⊆ definition.tasks)
      (fun task rest s s' hs hstep ↦ ⟨addTask_checked hs.1 (hs.2 (.head _)) hstep,
        (cons_subset.1 hs.2).2⟩) ⟨⟨by simp⟩, List.Subset.refl _⟩ hbuilt
    exact hinv.1
  have hnamed : Named built.byId := fun id spec hspec ↦
    ⟨(hchecked.task id spec hspec).2.1, (hchecked.task id spec hspec).2.2.2.1⟩
  obtain ⟨hnodup, hknown⟩ := topologicalOrder_ok hnamed horder
  have hdependencies := Except.forM_ok.1 hexist
  refine ⟨hnodup, mem_order_of_length hnodup hknown hlength, fun id spec hspec ↦
    (hnamed id spec hspec).1, fun id spec hspec ↦ (hchecked.task id spec hspec).2.2.1,
    fun id spec hspec ↦ ?_, ?_⟩
  · exact checkExist_ok (hdependencies spec (hchecked.task id spec hspec).1)
  · intro id spec id' spec' limit limit' hspec hspec' hlimit hlimit' hkey
    have hgroup := (hchecked.task id spec hspec).2.2.2.2 limit hlimit
    have hgroup' := (hchecked.task id' spec' hspec').2.2.2.2 limit' hlimit'
    rw [hkey, hgroup'] at hgroup
    exact (Option.some.inj hgroup).symm

end Huntsman.Graph
