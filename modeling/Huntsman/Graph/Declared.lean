import Huntsman.Graph.Execute
import Huntsman.Graph.Kahn
import Mathlib.Algebra.Order.BigOperators.Group.List

/-!
# Which definitions are accepted

`validate` goes over the tasks once and keeps what it has seen of names, idempotency keys, intervals
and sizes.  What it comes to is a property of the tasks together (`Accepted`), which says nothing
about the order they are declared in: each task passes its own checks, no two have a name or a key
in common, a group has one interval, and all of them are not too large.

A definition is then accepted exactly when it is well declared (`Declared`) and no task depends on
itself, over however many others (`validate_iff`).
-/

set_option autoImplicit false

namespace Huntsman.Graph

open Dependencies List Std

section

variable (enc : Encoders)

/-- What is checked of one task, whatever the others are. -/
structure TaskSpec.Checked (task : TaskSpec) : Prop where
  own : checkTask enc task = .ok ()
  limit : ∀ limit ∈ task.rateLimit, validToken limit.key ∧ limit.minIntervalMs ≠ 0 ∧
    limit.minIntervalMs ≤ maxTimeoutMs
  resources : checkResources task.id [] task.exclusiveResources = .ok ()
  idempotency : ¬ (task.requiresIdempotency ∧ task.idempotencyKey = none)
  key : ∀ key ∈ task.idempotencyKey, validToken key
  encodes : ∃ bytes, enc.task task = .ok bytes

/-- How large a task is. -/
def taskBytes (task : TaskSpec) : ℕ :=
  match enc.task task with
  | .ok bytes => bytes.length
  | .error _ => 0

/-- Tasks that may stand in one graph. -/
structure Accepted (tasks : List TaskSpec) : Prop where
  checked : ∀ task ∈ tasks, task.Checked enc
  ids : (tasks.map TaskSpec.id).Nodup
  keys : (tasks.filterMap TaskSpec.idempotencyKey).Nodup
  /-- A group has one interval. -/
  intervals : ∀ limit ∈ tasks.filterMap TaskSpec.rateLimit,
    ∀ limit' ∈ tasks.filterMap TaskSpec.rateLimit, limit.key = limit'.key →
      limit.minIntervalMs = limit'.minIntervalMs
  size : (tasks.map (taskBytes enc)).sum ≤ maxCheckpointBytes

end

variable {enc : Encoders} {tasks tasks' : List TaskSpec} {task : TaskSpec} {built built' : Building}

/-- Fewer tasks, in another order, may stand in one graph too. -/
theorem Accepted.subperm (h : Accepted enc tasks') (hsub : tasks.Subperm tasks') :
    Accepted enc tasks := by
  obtain ⟨mid, hperm, hmid⟩ := hsub
  have hmem : ∀ task ∈ tasks, task ∈ tasks' := fun task htask ↦
    hmid.subset (hperm.mem_iff.2 htask)
  have hlimits : ∀ limit ∈ tasks.filterMap TaskSpec.rateLimit,
      limit ∈ tasks'.filterMap TaskSpec.rateLimit := by
    intro limit hlimit
    obtain ⟨task, htask, hsome⟩ := mem_filterMap.1 hlimit
    exact mem_filterMap.2 ⟨task, hmem task htask, hsome⟩
  refine ⟨fun task htask ↦ h.checked task (hmem task htask), ?_, ?_, fun limit hlimit limit' hlimit' ↦
    h.intervals limit (hlimits limit hlimit) limit' (hlimits limit' hlimit'), ?_⟩
  · exact (hperm.map _).nodup_iff.1 (h.ids.sublist (hmid.map _))
  · exact (hperm.filterMap _).nodup_iff.1 (h.keys.sublist (hmid.filterMap _))
  · rw [← (hperm.map _).sum_eq]
    exact ((hmid.map _).sum_le_sum fun _ _ ↦ Nat.zero_le _).trans h.size

/-! ## One pass over the tasks -/

/-- What is kept of the tasks that were gone over. -/
structure Built (enc : Encoders) (tasks : List TaskSpec) (built : Building) : Prop where
  tabled : Tabled tasks built.byId
  idempotency : ∀ key, key ∈ built.idempotency ↔ key ∈ tasks.filterMap TaskSpec.idempotencyKey
  rateLimits : ∀ (key : String) (interval : ℕ), built.rateLimits[key]? = some interval ↔
    ∃ limit ∈ tasks.filterMap TaskSpec.rateLimit, limit.key = key ∧ limit.minIntervalMs = interval
  total : built.totalTaskBytes = (tasks.map (taskBytes enc)).sum

theorem addRateLimit_iff {rateLimits rateLimits' : TreeMap String ℕ} :
    addRateLimit rateLimits task = .ok rateLimits' ↔
      (∀ limit ∈ task.rateLimit, validToken limit.key ∧ limit.minIntervalMs ≠ 0 ∧
        limit.minIntervalMs ≤ maxTimeoutMs) ∧
      (∀ limit ∈ task.rateLimit, ∀ existing ∈ rateLimits[limit.key]?,
        existing = limit.minIntervalMs) ∧
      (task.rateLimit.elim rateLimits fun limit ↦
        rateLimits.insert limit.key limit.minIntervalMs) = rateLimits' := by
  rw [addRateLimit]
  cases task.rateLimit with
  | none => simp
  | some limit =>
    simp only [Except.bind_ok, require_ok, exists_const, pure, Except.pure, Except.ok.injEq,
      Option.mem_some_iff, forall_eq', Option.elim_some]

theorem addIdempotency_iff {keys keys' : List String} :
    addIdempotency keys task = .ok keys' ↔
      ¬ (task.requiresIdempotency ∧ task.idempotencyKey = none) ∧
      (∀ key ∈ task.idempotencyKey, validToken key) ∧ (∀ key ∈ task.idempotencyKey, key ∉ keys) ∧
      task.idempotencyKey.elim keys (· :: keys) = keys' := by
  simp only [addIdempotency, Except.bind_ok, require_ok, exists_const]
  refine and_congr_right fun _ ↦ ?_
  cases task.idempotencyKey with
  | none => simp [pure, Except.pure]
  | some key =>
    simp only [Except.bind_ok, require_ok, exists_const, pure, Except.pure, Except.ok.injEq,
      Option.mem_some_iff, forall_eq', Option.elim_some, and_assoc]

/-- What is known of the tasks when one more was added. -/
def Building.add (enc : Encoders) (built : Building) (task : TaskSpec) : Building where
  byId := built.byId.insert task.id task
  idempotency := task.idempotencyKey.elim built.idempotency (· :: built.idempotency)
  rateLimits := task.rateLimit.elim built.rateLimits fun limit ↦
    built.rateLimits.insert limit.key limit.minIntervalMs
  totalTaskBytes := satAdd64 built.totalTaskBytes (taskBytes enc task)

/-- **One task** is added when it passes its own checks and fits those before it. -/
theorem addTask_iff : addTask enc built task = .ok built' ↔ task.Checked enc ∧
    (∀ limit ∈ task.rateLimit, ∀ existing ∈ built.rateLimits[limit.key]?,
      existing = limit.minIntervalMs) ∧
    (∀ key ∈ task.idempotencyKey, key ∉ built.idempotency) ∧
    satAdd64 built.totalTaskBytes (taskBytes enc task) ≤ maxCheckpointBytes ∧
    task.id ∉ built.byId ∧ built.add enc task = built' := by
  simp only [addTask, Except.bind_ok, require_ok, exists_const, addRateLimit_iff, addIdempotency_iff,
    encodeOr_ok, pure, Except.pure, Except.ok.injEq]
  constructor
  · rintro ⟨⟨⟩, hown, _, ⟨hlimit, hinterval, rfl⟩, ⟨⟩, hresources, _, ⟨hidempotency, hkey, hkeys, rfl⟩,
      bytes, hbytes, hsize, hid, rfl⟩
    have htaken : taskBytes enc task = bytes.length := by rw [taskBytes, hbytes]
    rw [Building.add, htaken]
    exact ⟨⟨hown, hlimit, hresources, hidempotency, hkey, bytes, hbytes⟩, hinterval, hkeys, hsize, hid,
      rfl⟩
  · rintro ⟨hchecked, hinterval, hkeys, hsize, hid, rfl⟩
    obtain ⟨bytes, hbytes⟩ := hchecked.encodes
    have htaken : taskBytes enc task = bytes.length := by rw [taskBytes, hbytes]
    rw [htaken] at hsize
    rw [Building.add, htaken]
    exact ⟨(), hchecked.own, _, ⟨hchecked.limit, hinterval, rfl⟩, (), hchecked.resources, _,
      ⟨hchecked.idempotency, hchecked.key, hkeys, rfl⟩, bytes, hbytes, hsize, hid, rfl⟩

theorem mem_filterMap_append_singleton {β : Type} {f : TaskSpec → Option β} {b : β} :
    b ∈ (tasks ++ [task]).filterMap f ↔ b ∈ tasks.filterMap f ∨ b ∈ f task := by
  rw [filterMap_append, mem_append, filterMap_cons, filterMap_nil]
  cases f task with
  | none => simp
  | some b' => simp [eq_comm]

theorem filterMap_append_singleton_nodup {β : Type} {f : TaskSpec → Option β} :
    ((tasks ++ [task]).filterMap f).Nodup ↔
      (tasks.filterMap f).Nodup ∧ ∀ b ∈ f task, b ∉ tasks.filterMap f := by
  rw [filterMap_append, filterMap_cons, filterMap_nil]
  cases f task with
  | none => simp
  | some b =>
    rw [nodup_append]
    refine ⟨fun ⟨hnodup, _, hapart⟩ ↦ ⟨hnodup, fun b' hb' hmem ↦ ?_⟩, fun ⟨hnodup, hout⟩ ↦
      ⟨hnodup, nodup_singleton b, fun b' hmem b'' hb'' heq ↦ ?_⟩⟩
    · exact hapart b' hmem b' (mem_singleton.2 (Option.mem_some_iff.1 hb').symm) rfl
    · rw [mem_singleton] at hb''
      exact hout b rfl (hb'' ▸ heq ▸ hmem)

/-- A task that may stand beside others is added to them. -/
theorem Built.add (hbuilt : Built enc tasks built) (h : Accepted enc (tasks ++ [task])) :
    addTask enc built task = .ok (built.add enc task) := by
  have hsize := h.size
  have hids := h.ids
  rw [map_append, sum_append, map_singleton, sum_singleton, ← hbuilt.total] at hsize
  rw [map_append, nodup_append] at hids
  refine addTask_iff.2 ⟨h.checked task (by simp), fun limit hlimit existing hexisting ↦ ?_,
    fun key hkey hmem ↦ ?_, ?_, fun hmem ↦ ?_, rfl⟩
  · obtain ⟨limit', hlimit', hkey, rfl⟩ := (hbuilt.rateLimits _ _).1 hexisting
    exact h.intervals limit' (mem_filterMap_append_singleton.2 (.inl hlimit')) limit
      (mem_filterMap_append_singleton.2 (.inr hlimit)) hkey
  · exact (filterMap_append_singleton_nodup.1 h.keys).2 key hkey ((hbuilt.idempotency key).1 hmem)
  · exact (Nat.min_le_left _ _).trans hsize
  · exact hids.2.2 task.id ((hbuilt.tabled.mem task.id).1 hmem) task.id (by simp) rfl

/-- What was added may stand beside the others, and is kept. -/
theorem addTask_built (hbuilt : Built enc tasks built) (haccepted : Accepted enc tasks)
    (h : addTask enc built task = .ok built') :
    Accepted enc (tasks ++ [task]) ∧ Built enc (tasks ++ [task]) built' := by
  have htabled := addTask_tabled hbuilt.tabled h
  obtain ⟨hchecked, hinterval, hkeys, hsize, -, rfl⟩ := addTask_iff.1 h
  have hsum : built.totalTaskBytes + taskBytes enc task ≤ maxCheckpointBytes := by
    rw [satAdd64, maxCheckpointBytes] at hsize
    rw [maxCheckpointBytes]
    omega
  have htotal : ((tasks ++ [task]).map (taskBytes enc)).sum =
      built.totalTaskBytes + taskBytes enc task := by
    rw [map_append, sum_append, map_singleton, sum_singleton, hbuilt.total]
  refine ⟨⟨fun other hother ↦ ?_, htabled.nodup, ?_, ?_, htotal ▸ hsum⟩, ⟨htabled, fun key ↦ ?_,
    fun key interval ↦ ?_, ?_⟩⟩
  · rcases mem_append.1 hother with hother | hother
    · exact haccepted.checked other hother
    · exact mem_singleton.1 hother ▸ hchecked
  · exact filterMap_append_singleton_nodup.2 ⟨haccepted.keys, fun key hkey hmem ↦
      hkeys key hkey ((hbuilt.idempotency key).2 hmem)⟩
  · have hown : ∀ limit ∈ task.rateLimit, ∀ limit' ∈ tasks.filterMap TaskSpec.rateLimit,
        limit'.key = limit.key → limit'.minIntervalMs = limit.minIntervalMs :=
      fun limit hlimit limit' hlimit' hkey ↦ hinterval limit hlimit _
        ((hbuilt.rateLimits _ _).2 ⟨limit', hlimit', hkey, rfl⟩)
    intro limit hlimit limit' hlimit' hkey
    rcases mem_filterMap_append_singleton.1 hlimit with hlimit | hlimit <;>
      rcases mem_filterMap_append_singleton.1 hlimit' with hlimit' | hlimit'
    · exact haccepted.intervals limit hlimit limit' hlimit' hkey
    · exact hown limit' hlimit' limit hlimit hkey
    · exact (hown limit hlimit limit' hlimit' hkey.symm).symm
    · rw [Option.mem_def.1 hlimit] at hlimit'
      rw [Option.mem_some_iff.1 hlimit']
  · rw [mem_filterMap_append_singleton, ← hbuilt.idempotency, Building.add]
    cases task.idempotencyKey with
    | none => simp
    | some key' => simp [or_comm, eq_comm]
  · rw [Building.add]
    simp only [mem_filterMap_append_singleton, or_and_right, exists_or, ← hbuilt.rateLimits]
    cases hlimit : task.rateLimit with
    | none => simp
    | some limit =>
      simp only [Option.elim_some, Option.mem_some_iff, exists_eq_left', TreeMap.getElem?_insert,
        LawfulEqCmp.compare_eq_iff_eq]
      split
      · rename_i heq
        subst heq
        refine ⟨fun h ↦ .inr ⟨rfl, Option.some.inj h⟩, fun h ↦ ?_⟩
        rcases h with hsome | ⟨-, rfl⟩
        · exact congrArg some (hinterval limit hlimit interval hsome).symm
        · rfl
      · rename_i hne
        exact ⟨.inl, fun h ↦ h.resolve_right fun hown ↦ hne hown.1⟩
  · rw [htotal]
    rw [maxCheckpointBytes] at hsum
    exact Nat.min_eq_left (by omega)

theorem built_nil : Built enc [] {} := by
  refine ⟨⟨by simp, by simp, by simp⟩, by simp, fun key interval ↦ ?_, rfl⟩
  simp

theorem accepted_nil : Accepted enc [] :=
  ⟨by simp, by simp, by simp, by simp, Nat.zero_le _⟩

theorem foldlM_addTask_from {rest : List TaskSpec} (hbuilt : Built enc tasks built)
    (haccepted : Accepted enc tasks) :
    (Accepted enc (tasks ++ rest) → ∃ final, rest.foldlM (addTask enc) built = .ok final) ∧
      ∀ final, rest.foldlM (addTask enc) built = .ok final →
        Accepted enc (tasks ++ rest) ∧ Built enc (tasks ++ rest) final := by
  induction rest generalizing tasks built with
  | nil =>
    rw [append_nil]
    refine ⟨fun _ ↦ ⟨built, rfl⟩, fun final hfinal ↦ ?_⟩
    cases hfinal
    exact ⟨haccepted, hbuilt⟩
  | cons task rest ih =>
    rw [show tasks ++ task :: rest = tasks ++ [task] ++ rest by simp]
    refine ⟨fun hall ↦ ?_, fun final hfinal ↦ ?_⟩
    · have hadd := hbuilt.add (hall.subperm (sublist_append_left _ _).subperm)
      obtain ⟨haccepted', hbuilt'⟩ := addTask_built hbuilt haccepted hadd
      obtain ⟨final, hfinal⟩ := (ih hbuilt' haccepted').1 hall
      exact ⟨final, Except.foldlM_cons_ok.2 ⟨_, hadd, hfinal⟩⟩
    · obtain ⟨built', hadd, hrest⟩ := Except.foldlM_cons_ok.1 hfinal
      obtain ⟨haccepted', hbuilt'⟩ := addTask_built hbuilt haccepted hadd
      exact (ih hbuilt' haccepted').2 final hrest

/-- **The pass over the tasks** goes through exactly when they may all stand in one graph. -/
theorem foldlM_addTask : (∃ final, tasks.foldlM (addTask enc) {} = .ok final) ↔ Accepted enc tasks :=
  ⟨fun ⟨final, hfinal⟩ ↦ ((foldlM_addTask_from built_nil accepted_nil).2 final hfinal).1,
    (foldlM_addTask_from built_nil accepted_nil).1⟩

theorem foldlM_addTask_built {final : Building} (h : tasks.foldlM (addTask enc) {} = .ok final) :
    Built enc tasks final :=
  ((foldlM_addTask_from built_nil accepted_nil).2 final h).2

/-! ## Definitions -/

/-- The tasks in the order of their names. -/
def canonicalTasks (tasks : List TaskSpec) : List TaskSpec :=
  tasks.insertionSort fun a b ↦ a.id ≤ b.id

/-- The dependencies of the tasks of a name. -/
def GraphDefinition.dependenciesOf (self : GraphDefinition) (id : String) : List String :=
  (self.tasks.filter (·.id = id)).flatMap TaskSpec.dependencies

/-- The code's own limits on a definition, but for cycles. -/
structure GraphDefinition.Declared (enc : Encoders) (definition : GraphDefinition) : Prop where
  runId : validToken definition.runId
  nonempty : definition.tasks ≠ []
  few : definition.tasks.length ≤ maxTasks
  accepted : Accepted enc definition.tasks
  /-- No dependency is missing. -/
  known : ∀ task ∈ definition.tasks, ∀ dependency ∈ task.dependencies,
    dependency ∈ definition.tasks.map TaskSpec.id
  legacy : ∃ bytes, enc.graph definition = .ok bytes ∧ bytes.length ≤ maxCheckpointBytes
  canonical : ∃ bytes, enc.graph { definition with tasks := canonicalTasks definition.tasks } = .ok bytes ∧
    bytes.length ≤ maxCheckpointBytes

variable {definition : GraphDefinition}

/-- A task of the map is one of the tasks, under its own name. -/
theorem Tabled.mem_of_some {byId : TreeMap String TaskSpec} (h : Tabled tasks byId) {id : String}
    (hsome : byId[id]? = some task) : task ∈ tasks ∧ task.id = id := by
  have hmem : id ∈ byId := TreeMap.mem_iff_isSome_getElem?.2 (by rw [hsome]; rfl)
  obtain ⟨task', htask', rfl⟩ := mem_map.1 ((h.mem id).1 hmem)
  rw [h.own task' htask', Option.some.injEq] at hsome
  exact hsome ▸ ⟨htask', rfl⟩

/-- The map lists the tasks in the order of their names. -/
theorem Tabled.toList {byId : TreeMap String TaskSpec} (h : Tabled tasks byId) :
    byId.toList.map Prod.snd = canonicalTasks tasks := by
  have : IsTrans TaskSpec fun a b ↦ a.id ≤ b.id := ⟨fun _ _ _ hab hbc ↦ hab.trans hbc⟩
  have : Std.Total fun a b : TaskSpec ↦ a.id ≤ b.id := ⟨fun a b ↦ String.le_total a.id b.id⟩
  have hentry : ∀ entry ∈ byId.toList, entry.2 ∈ tasks ∧ entry.2.id = entry.1 := fun entry hentry ↦
    h.mem_of_some (TreeMap.mem_toList_iff_getElem?_eq_some.1 hentry)
  have hsorted : (byId.toList.map Prod.snd).Pairwise fun a b ↦ a.id < b.id := by
    rw [pairwise_map]
    refine (TreeMap.ordered_keys_toList (t := byId)).imp_of_mem fun {a b} ha hb hlt ↦ ?_
    rw [(hentry a ha).2, (hentry b hb).2]
    exact compare_lt_iff_lt.1 hlt
  have hperm : (byId.toList.map Prod.snd).Perm tasks := by
    refine (perm_ext_iff_of_nodup ?_ h.nodup.of_map).2 fun task ↦ ⟨fun hmem ↦ ?_, fun hmem ↦ ?_⟩
    · exact nodup_iff_pairwise_ne.2 (hsorted.imp fun hlt heq ↦ hlt.ne (congrArg _ heq))
    · obtain ⟨entry, hmem', rfl⟩ := mem_map.1 hmem
      exact (hentry entry hmem').1
    · exact mem_map.2 ⟨(task.id, task), TreeMap.mem_toList_iff_getElem?_eq_some.2 (h.own task hmem),
        rfl⟩
  refine (hperm.trans (perm_insertionSort _ tasks).symm).eq_of_pairwise (fun a b ha hb hab hba ↦ ?_)
    (hsorted.imp fun hlt ↦ hlt.le) (pairwise_insertionSort _ tasks)
  have hid : a.id = b.id := hab.antisymm hba
  have hmem : b ∈ tasks := (mem_insertionSort _).1 hb
  exact Option.some.inj ((h.own a (hperm.mem_iff.1 ha)).symm.trans (hid ▸ h.own b hmem))

theorem Tabled.dependenciesOf {byId : TreeMap String TaskSpec}
    (h : Tabled definition.tasks byId) (id d : String) :
    d ∈ Graph.dependenciesOf byId id ↔ d ∈ definition.dependenciesOf id := by
  simp only [GraphDefinition.dependenciesOf, mem_flatMap, mem_filter, decide_eq_true_eq,
    Graph.dependenciesOf]
  constructor
  · intro hd
    cases hsome : byId[id]? with
    | none =>
      rw [hsome] at hd
      cases hd
    | some task =>
      rw [hsome] at hd
      exact ⟨task, h.mem_of_some hsome, hd⟩
  · rintro ⟨task, ⟨hmem, rfl⟩, hd⟩
    rw [h.own task hmem]
    exact hd

theorem Built.named (hbuilt : Built enc tasks built) (haccepted : Accepted enc tasks) :
    Named built.byId := by
  intro id task hsome
  obtain ⟨hmem, hid⟩ := hbuilt.tabled.mem_of_some hsome
  exact ⟨hid, (checkTask_ok (haccepted.checked task hmem).own).2⟩

/-- No dependency is missing when the second pass over the tasks goes through. -/
theorem checkExist_iff {byId : TreeMap String TaskSpec} {dependencies : List String} {u : Unit} :
    checkExist byId task dependencies = .ok u ↔ ∀ dependency ∈ dependencies, dependency ∈ byId := by
  refine ⟨checkExist_ok, fun h ↦ ?_⟩
  induction dependencies with
  | nil => rfl
  | cons dependency rest ih =>
    obtain ⟨hfirst, hrest⟩ := forall_mem_cons.1 h
    exact Except.bind_ok.2 ⟨(), require_ok.2 hfirst, ih hrest⟩

/-- The tasks of a map follow their dependencies, and have no cycles, as the map says. -/
theorem Tabled.acyclic {byId : TreeMap String TaskSpec} (h : Tabled definition.tasks byId) :
    Acyclic (Graph.dependenciesOf byId) ↔ Acyclic definition.dependenciesOf :=
  acyclic_congr h.dependenciesOf

theorem Tabled.known {byId : TreeMap String TaskSpec} (h : Tabled definition.tasks byId)
    (hknown : ∀ task ∈ definition.tasks, ∀ d ∈ task.dependencies,
      d ∈ definition.tasks.map TaskSpec.id) (id : String) (_ : id ∈ byId) :
    ∀ d ∈ Graph.dependenciesOf byId id, d ∈ byId := by
  intro d hd
  obtain ⟨task, htask, hd⟩ := mem_flatMap.1 ((h.dependenciesOf id d).1 hd)
  exact (h.mem d).2 (hknown task (mem_filter.1 htask).1 d hd)

/-- **What is accepted**: definitions that are well declared, with no task that depends on itself,
over however many others. -/
theorem GraphDefinition.validate_iff :
    (∃ graph, definition.validate enc = .ok graph) ↔
      definition.Declared enc ∧ Acyclic definition.dependenciesOf := by
  constructor
  · rintro ⟨graph, hgraph⟩
    simp only [GraphDefinition.validate, Except.bind_ok, require_ok, exists_const, encodeOr_ok,
      Except.forM_ok, checkExist_iff] at hgraph
    obtain ⟨hrunId, hnonempty, hfew, built, hfold, hexist, order, horder, hlength, legacyBytes,
      hlegacy, hlegacySize, bytes, hbytes, hsize, -⟩ := hgraph
    have haccepted := foldlM_addTask.1 ⟨built, hfold⟩
    have hbuilt := foldlM_addTask_built hfold
    have hknown : ∀ task ∈ definition.tasks, ∀ d ∈ task.dependencies,
        d ∈ definition.tasks.map TaskSpec.id := fun task htask d hd ↦
      (hbuilt.tabled.mem d).1 (hexist task htask d hd)
    rw [hbuilt.tabled.toList] at hbytes
    refine ⟨⟨hrunId, hnonempty, hfew, haccepted, hknown, ⟨legacyBytes, hlegacy, hlegacySize⟩, bytes,
      hbytes, hsize⟩, hbuilt.tabled.acyclic.1 ?_⟩
    obtain ⟨order', horder', -, -, hiff⟩ := topologicalOrder_exists (hbuilt.named haccepted)
      (hbuilt.tabled.known hknown)
    rw [horder, Except.ok.injEq] at horder'
    exact hiff.1 (horder' ▸ hlength)
  · rintro ⟨h, hacyclic⟩
    obtain ⟨built, hfold⟩ := foldlM_addTask.2 h.accepted
    have hbuilt := foldlM_addTask_built hfold
    obtain ⟨order, horder, -, -, hiff⟩ := topologicalOrder_exists (hbuilt.named h.accepted)
      (hbuilt.tabled.known h.known)
    obtain ⟨legacyBytes, hlegacy, hlegacySize⟩ := h.legacy
    obtain ⟨bytes, hbytes, hsize⟩ := h.canonical
    rw [← hbuilt.tabled.toList] at hbytes
    simp only [GraphDefinition.validate, Except.bind_ok, require_ok, exists_const, encodeOr_ok,
      Except.forM_ok, checkExist_iff]
    exact ⟨_, h.runId, h.nonempty, h.few, built, hfold, fun task htask d hd ↦
      (hbuilt.tabled.mem d).2 (h.known task htask d hd), order, horder,
      hiff.2 (hbuilt.tabled.acyclic.2 hacyclic), legacyBytes, hlegacy, hlegacySize, bytes, hbytes, hsize,
      rfl⟩

/-- What `validate` puts in the graph. -/
theorem GraphDefinition.validate_graph {graph : ValidatedGraph}
    (h : definition.validate enc = .ok graph) :
    Tabled definition.tasks graph.byId ∧ Accepted enc definition.tasks ∧
      topologicalOrder graph.byId = .ok graph.topologicalOrder ∧
      ∃ bytes, enc.graph { definition with tasks := canonicalTasks definition.tasks } = .ok bytes ∧
        graph.fingerprint = enc.sha256Hex bytes := by
  simp only [GraphDefinition.validate, Except.bind_ok, require_ok, exists_const, encodeOr_ok, pure,
    Except.pure, Except.ok.injEq] at h
  obtain ⟨-, -, -, built, hfold, -, -, order, horder, -, -, -, -, bytes, hbytes, -, rfl⟩ := h
  have hbuilt := foldlM_addTask_built hfold
  rw [hbuilt.tabled.toList] at hbytes
  exact ⟨hbuilt.tabled, foldlM_addTask.1 ⟨built, hfold⟩, horder, bytes, hbytes, rfl⟩

theorem Tabled.respects {byId : TreeMap String TaskSpec} (h : Tabled definition.tasks byId)
    {order : List String} :
    Respects (Graph.dependenciesOf byId) order ↔ Respects definition.dependenciesOf order := by
  simp only [Respects, h.dependenciesOf]

/-- The order of a validated graph is the least. -/
theorem GraphDefinition.validate_least (h : definition.Declared enc) {graph : ValidatedGraph}
    (hgraph : definition.validate enc = .ok graph) :
    graph.topologicalOrder.Perm (definition.tasks.map TaskSpec.id) ∧
      Respects definition.dependenciesOf graph.topologicalOrder ∧
      ∀ other : List String, other.Perm (definition.tasks.map TaskSpec.id) →
        Respects definition.dependenciesOf other →
        graph.topologicalOrder = other ∨ List.Lex (· < ·) graph.topologicalOrder other := by
  obtain ⟨htabled, haccepted, horder, -⟩ := GraphDefinition.validate_graph hgraph
  have hwellFormed := GraphDefinition.validate_wellFormed hgraph
  have hnamed : Named graph.byId := fun id task hsome ↦ by
    obtain ⟨hmem, hid⟩ := htabled.mem_of_some hsome
    exact ⟨hid, (checkTask_ok (haccepted.checked task hmem).own).2⟩
  have hkeys : graph.byId.keys.Perm (definition.tasks.map TaskSpec.id) :=
    (perm_ext_iff_of_nodup TreeMap.nodup_keys htabled.nodup).2 fun id ↦
      TreeMap.mem_keys.trans (htabled.mem id)
  obtain ⟨order, horder', hrespects, hgreedy, -⟩ := topologicalOrder_exists hnamed
    (htabled.known h.known)
  rw [horder, Except.ok.injEq] at horder'
  subst horder'
  have hperm : graph.topologicalOrder.Perm graph.byId.keys :=
    (perm_ext_iff_of_nodup hwellFormed.nodup TreeMap.nodup_keys).2 fun id ↦
      (hwellFormed.mem_order id).trans TreeMap.mem_keys.symm
  refine ⟨hperm.trans hkeys, htabled.respects.1 hrespects, fun other hother hrespects' ↦ ?_⟩
  exact hgreedy.le (hother.trans hkeys.symm) TreeMap.nodup_keys hperm.length_eq
    (htabled.respects.2 hrespects')

/-- **Validation orders the tasks**: of a definition that is otherwise well declared, it accepts the
ones without cycles, and then the tasks follow their dependencies in the least order in which they
do. -/
theorem validate_orders (h : definition.Declared enc) :
    ((∃ graph, definition.validate enc = .ok graph) ↔ Acyclic definition.dependenciesOf) ∧
      ∀ graph, definition.validate enc = .ok graph →
        graph.topologicalOrder.Perm (definition.tasks.map TaskSpec.id) ∧
        Respects definition.dependenciesOf graph.topologicalOrder ∧
        ∀ other : List String, other.Perm (definition.tasks.map TaskSpec.id) →
          Respects definition.dependenciesOf other →
          graph.topologicalOrder = other ∨ List.Lex (· < ·) graph.topologicalOrder other := by
  exact ⟨GraphDefinition.validate_iff.trans (and_iff_right h), fun _ ↦
    GraphDefinition.validate_least h⟩

/-- The sample is well declared, so it has an order, the review after the lookup. -/
theorem validate_orders_sample : ∃ (definition : GraphDefinition) (graph : ValidatedGraph),
    definition.tasks = [Sample.lookup none 0, Sample.review none 0] ∧
    definition.validate Sample.enc = .ok graph ∧ Acyclic definition.dependenciesOf ∧
    graph.topologicalOrder.Perm (definition.tasks.map TaskSpec.id) ∧
    Respects definition.dependenciesOf graph.topologicalOrder := by
  have haccepted : ((Sample.call none 0 .panicked).definition.validate Sample.enc).isOk = true := by
    decide +kernel
  cases hgraph : (Sample.call none 0 .panicked).definition.validate Sample.enc with
  | error error =>
    rw [hgraph] at haccepted
    exact nomatch haccepted
  | ok graph =>
    have hdeclared := (GraphDefinition.validate_iff.1 ⟨graph, hgraph⟩).1
    obtain ⟨hiff, horder⟩ := validate_orders hdeclared
    obtain ⟨hperm, hrespects, -⟩ := horder graph hgraph
    exact ⟨_, graph, rfl, hgraph, hiff.1 ⟨graph, hgraph⟩, hperm, hrespects⟩

end Huntsman.Graph
