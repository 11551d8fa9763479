import Huntsman.Graph.Order
import Huntsman.Lib.Dependencies
import Mathlib.Data.String.Basic

/-!
# The order of a graph

The executor puts the first ready task in the order, again and again.  Here is what that comes to:
the order goes on with the least task that can follow (`Sorting.greedy`), nothing that can follow is
overlooked (`Sorting.complete`), and the counting down never fails (`release_exists`).

So all tasks get into the order when no task depends on itself, over however many others, and then
it is the least of all orders in which tasks follow their dependencies (`topologicalOrder_least`).
-/

set_option autoImplicit false

namespace Huntsman.Graph

open Dependencies List Std

variable {byId : TreeMap String TaskSpec} {rest : List String} {o : TopoState}

/-- What holds of the order so far, beside the counting. -/
structure Sorting (byId : TreeMap String TaskSpec) (rest : List String) (o : TopoState) : Prop
    extends Placed byId rest o where
  respects : Respects (dependenciesOf byId) o.order
  greedy : Greedy (dependenciesOf byId) byId.keys o.order
  /-- What can follow is ready, or has yet to be told so. -/
  complete : ∀ id ∈ byId, id ∉ o.order → id ∉ rest → (∀ d ∈ dependenciesOf byId id, d ∈ o.order) →
    id ∈ o.ready

theorem sorting_start : Sorting byId [] {
    order := []
    ready := TreeSet.ofList
      (((byId.map fun _ task ↦ task.dependencies.length).toList.filter (·.2 = 0)).map Prod.fst)
    indegree := byId.map fun _ task ↦ task.dependencies.length } := by
  refine ⟨placed_start, Along.nil, Along.nil, fun id hid _ _ hdeps ↦ ?_⟩
  obtain ⟨spec, hspec⟩ := Option.isSome_iff_exists.1 (TreeMap.mem_iff_isSome_getElem?.1 hid)
  have hnone : spec.dependencies = [] := by
    rw [dependenciesOf, hspec] at hdeps
    exact eq_nil_iff_forall_not_mem.2 fun d hd ↦ not_mem_nil (hdeps d hd)
  simp only [TreeSet.mem_ofList, contains_iff_mem, mem_map, mem_filter,
    decide_eq_true_eq, Prod.exists, exists_and_right, exists_eq_right,
    TreeMap.mem_toList_iff_getElem?_eq_some, TreeMap.getElem?_map, Option.map_eq_some_iff]
  exact ⟨spec, hspec, by rw [hnone, length_nil]⟩

theorem release_order {child : String} {o' : TopoState} (h : o.release child = .ok o') :
    o'.order = o.order := by
  rw [TopoState.release] at h
  split at h
  · cases h
  · cases h
    split <;> rfl

/-- **Counting down never fails**, and goes below nothing. -/
theorem release_exists {child : String} (h : Sorting byId (child :: rest) o) :
    ∃ degree o', o.indegree[child]? = some degree ∧ degree ≠ 0 ∧ o.release child = .ok o' ∧
      Sorting byId rest o' := by
  have hin := h.children child (.head _)
  have hdegree := h.indegree child hin.1
  rw [if_pos (.head _)] at hdegree
  have hrelease : ∃ o', o.release child = .ok o' ∧ ∀ id, id ∈ o'.ready ↔ id ∈ o.ready ∨
        id = child ∧ ∀ d ∈ dependenciesOf byId child, d ∈ o.order := by
    rw [TopoState.release, hdegree]
    simp only [Nat.add_sub_cancel]
    refine ⟨_, rfl, fun id ↦ ?_⟩
    split
    · rename_i hzero
      have hall : ∀ d ∈ dependenciesOf byId child, d ∈ o.order := fun d hd ↦ by
        simpa using countP_eq_zero.1 hzero d hd
      rw [TreeSet.mem_insert, LawfulEqCmp.compare_eq_iff_eq, or_comm, eq_comm]
      exact or_congr_right (and_iff_left hall).symm
    · rename_i hpos
      refine ⟨.inl, fun hid ↦ hid.resolve_right fun hchild ↦ hpos ?_⟩
      exact countP_eq_zero.2 fun d hd ↦ by simpa using hchild.2 d hd
  obtain ⟨o', ho', hready⟩ := hrelease
  have horder := release_order ho'
  refine ⟨_, o', hdegree, Nat.succ_ne_zero _, ho', h.toPlaced.release ho', ?_, ?_, ?_⟩
  · exact horder ▸ h.respects
  · exact horder ▸ h.greedy
  · intro id hid hout hrest hdeps
    rw [horder] at hout hdeps
    rw [hready]
    by_cases heq : id = child
    · exact .inr ⟨heq, heq ▸ hdeps⟩
    · exact .inl (h.complete id hid hout (by simp [heq, hrest]) hdeps)

/-- Putting the least ready task in the order. -/
theorem Sorting.place (hnamed : Named byId) {id : String} (h : Sorting byId [] o)
    (hid : o.ready.toList.head? = some id) :
    Sorting byId (dependents byId id)
      { o with order := o.order ++ [id], ready := o.ready.erase id } := by
  rw [← TreeSet.min?_eq_head?_toList] at hid
  obtain ⟨hmem, hleast⟩ := TreeSet.min?_eq_some_iff_mem_and_forall.1 hid
  have hready := h.ready id hmem
  refine ⟨h.toPlaced.place hnamed hmem, Along.append_singleton h.respects hready.2.2.2,
    Along.append_singleton h.greedy fun other hother hout hdeps ↦ ?_, fun other hother hout hnot hdeps ↦ ?_⟩
  · have hle := hleast other (h.complete other (TreeMap.mem_keys.1 hother) hout not_mem_nil hdeps)
    exact compare_le_iff_le.1 (Ordering.ne_gt_iff_isLE.2 hle)
  · rw [mem_append, not_or] at hout
    have hfree : id ∉ dependenciesOf byId other := fun hd ↦
      hnot ((mem_dependents hnamed).2 ⟨hother, hd⟩)
    have hbefore : ∀ d ∈ dependenciesOf byId other, d ∈ o.order := by
      intro d hd
      rcases mem_append.1 (hdeps d hd) with hd' | hd'
      · exact hd'
      · exact absurd (mem_singleton.1 hd' ▸ hd) hfree
    refine TreeSet.mem_erase.2 ⟨fun heq ↦ hout.2 ?_, h.complete other hother hout.1
      not_mem_nil hbefore⟩
    exact mem_singleton.2 (LawfulEqCmp.compare_eq_iff_eq.1 heq).symm

/-- **Sorting ends** with nothing ready. -/
theorem takeReady_exists (hnamed : Named byId) {passes : ℕ} (h : Sorting byId [] o)
    (henough : byId.size ≤ passes + o.order.length) :
    ∃ last : TopoState, takeReady byId passes o = .ok last.order ∧ Sorting byId [] last ∧
      ∀ id, id ∉ last.ready := by
  induction passes generalizing o with
  | zero =>
    refine ⟨o, rfl, h, fun id hid ↦ ?_⟩
    have hready := h.ready id hid
    have hsub : o.order ⊆ byId.keys := fun x hx ↦ TreeMap.mem_keys.2 (h.known x hx)
    have hperm : o.order.Perm byId.keys := (h.nodup.subperm hsub).perm_of_length_le
      (by rwa [TreeMap.length_keys, ← Nat.zero_add o.order.length])
    exact hready.2.1 (hperm.mem_iff.2 (TreeMap.mem_keys.2 hready.1))
  | succ passes ih =>
    rw [takeReady]
    split
    · rename_i hnone
      refine ⟨o, rfl, h, fun id hid ↦ ?_⟩
      rw [head?_eq_none_iff] at hnone
      have hmem := TreeSet.mem_toList.2 hid
      rw [hnone] at hmem
      cases hmem
    · rename_i id hid
      have hstep : ∀ child rest o', Sorting byId (child :: rest) o' ∧ o'.order = o.order ++ [id] →
          ∃ o'', o'.release child = .ok o'' ∧ Sorting byId rest o'' ∧ o''.order = o.order ++ [id] := by
        rintro child rest o' ⟨hsorting, horder⟩
        obtain ⟨_, o'', _, _, hrelease, hsorting'⟩ := release_exists hsorting
        exact ⟨o'', hrelease, hsorting', (release_order hrelease).trans horder⟩
      obtain ⟨next, hnext, hsorting, horder⟩ := Except.foldlM_ok
        (fun rest o' ↦ Sorting byId rest o' ∧ o'.order = o.order ++ [id]) hstep
        ⟨h.place hnamed hid, rfl⟩
      have hlength : byId.size ≤ passes + next.order.length := by
        rw [horder, length_append, length_singleton]
        omega
      obtain ⟨last, hlast, hdone⟩ := ih hsorting hlength
      exact ⟨last, Except.bind_ok.2 ⟨next, hnext, hlast⟩, hdone⟩

/-- **The order of a graph**: its tasks in it follow their dependencies, least first, and as many of
them are in it as there are exactly when the dependencies are acyclic. -/
theorem topologicalOrder_exists (hnamed : Named byId)
    (hknown : ∀ id ∈ byId, ∀ d ∈ dependenciesOf byId id, d ∈ byId) :
    ∃ order, topologicalOrder byId = .ok order ∧ Respects (dependenciesOf byId) order ∧
      Greedy (dependenciesOf byId) byId.keys order ∧
      (order.length = byId.size ↔ Acyclic (dependenciesOf byId)) := by
  obtain ⟨last, hlast, hsorting, hdone⟩ := takeReady_exists hnamed sorting_start
    (Nat.le_add_right byId.size 0)
  refine ⟨last.order, hlast, hsorting.respects, hsorting.greedy, fun hlength ↦ ?_, fun hacyclic ↦ ?_⟩
  · refine hsorting.respects.acyclic hsorting.nodup fun id hdeps ↦ ?_
    refine (mem_order_of_length hsorting.nodup hsorting.known hlength id).2 ?_
    rw [dependenciesOf] at hdeps
    rw [TreeMap.mem_iff_isSome_getElem?]
    cases hspec : byId[id]? with
    | none => exact absurd (by rw [hspec]; rfl) hdeps
    | some spec => rfl
  · have hall : ∀ id ∈ byId, id ∈ last.order := by
      intro id hid
      by_contra hout
      have hclosed : ∀ node ∈ byId.keys, dependenciesOf byId node ⊆ byId.keys :=
        fun node hnode d hd ↦ TreeMap.mem_keys.2 (hknown node (TreeMap.mem_keys.1 hnode) d hd)
      obtain ⟨ready, hmem, hleft, hdeps⟩ :=
        hacyclic.exists_ready hclosed (TreeMap.mem_keys.2 hid) hout
      exact hdone ready (hsorting.complete ready (TreeMap.mem_keys.1 hmem) hleft not_mem_nil hdeps)
    rw [← TreeMap.length_keys]
    refine List.Perm.length_eq ((perm_ext_iff_of_nodup hsorting.nodup TreeMap.nodup_keys).2
      fun id ↦ ⟨fun hid ↦ TreeMap.mem_keys.2 (hsorting.known id hid), fun hid ↦ hall id ?_⟩)
    exact TreeMap.mem_keys.1 hid

end Huntsman.Graph
