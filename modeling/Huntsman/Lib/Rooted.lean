import Mathlib.Data.List.Nodup
import Mathlib.Logic.Relation

/-!
# Trees written as lists

A tree can be written as a list of its nodes, each a key and the key of its parent, if the root
comes first and every other node after its parent.  `Rooted` is that: it is kept by writing one more
node below one that is there (`Rooted.append`), and whatever names their parents follow, they reach
the root (`Rooted.reaches`).
-/

set_option autoImplicit false

universe u

variable {κ : Type u} {nodes : List (κ × Option κ)}

/-- A list of keys and their parents' keys that writes a tree from its root. -/
structure Rooted (nodes : List (κ × Option κ)) : Prop where
  distinct : (nodes.map Prod.fst).Nodup
  root : ∃ key, nodes.head? = some (key, none)
  earlier : ∀ i key parent, 0 < i → nodes[i]? = some (key, parent) →
    ∃ p, parent = some p ∧ ∃ j < i, ∃ above, nodes[j]? = some (p, above)

/-- The parent of a node. -/
def Rooted.Parent (nodes : List (κ × Option κ)) (key parent : κ) : Prop := (key, some parent) ∈ nodes

namespace Rooted

theorem singleton (key : κ) : Rooted [(key, none)] where
  distinct := List.nodup_singleton _
  root := ⟨key, rfl⟩
  earlier := fun i key parent hi h ↦ by
    rw [List.getElem?_eq_none (Nat.succ_le_of_lt hi)] at h
    simp at h

/-- A new node is written after its parent. -/
theorem append (h : Rooted nodes) {key parent : κ} (hnew : key ∉ nodes.map Prod.fst)
    (hparent : parent ∈ nodes.map Prod.fst) : Rooted (nodes ++ [(key, some parent)]) where
  distinct := by
    rw [List.map_append]
    refine h.distinct.append (List.nodup_singleton _) ?_
    rw [List.map_singleton, List.disjoint_singleton]
    exact hnew
  root := by
    obtain ⟨root, hroot⟩ := h.root
    refine ⟨root, ?_⟩
    rw [List.head?_append, hroot]
    rfl
  earlier := by
    intro i k p hi hget
    have hlift : ∀ j node, nodes[j]? = some node → (nodes ++ [(key, some parent)])[j]? = some node :=
      fun j node hj ↦ by
        rw [List.getElem?_append_left (List.getElem?_eq_some_iff.1 hj).1, hj]
    rcases Nat.lt_or_ge i nodes.length with hlt | hge
    · rw [List.getElem?_append_left hlt] at hget
      obtain ⟨p', hp', j, hj, above, habove⟩ := h.earlier i k p hi hget
      exact ⟨p', hp', j, hj, above, hlift j _ habove⟩
    · rw [List.getElem?_append_right hge] at hget
      obtain ⟨hzero, hnode⟩ := List.getElem?_eq_some_iff.1 hget
      have hi' : i = nodes.length := by
        simp only [List.length_singleton] at hzero
        omega
      obtain ⟨node, hnode', hkey⟩ := List.mem_map.1 hparent
      obtain ⟨j, hj⟩ := List.mem_iff_getElem?.1 hnode'
      refine ⟨parent, ?_, j, ?_, node.2, ?_⟩
      · simp only [hi', Nat.sub_self, List.getElem_cons_zero, Prod.mk.injEq] at hnode
        exact hnode.2.symm
      · rw [hi']
        exact (List.getElem?_eq_some_iff.1 hj).1
      · rw [hlift j _ hj, ← hkey]

/-- **Every node reaches the root.** -/
theorem reaches (h : Rooted nodes) {root : κ} (hroot : nodes.head? = some (root, none)) {key : κ}
    (hkey : key ∈ nodes.map Prod.fst) : Relation.ReflTransGen (Parent nodes) key root := by
  suffices hall : ∀ i key parent, nodes[i]? = some (key, parent) →
      Relation.ReflTransGen (Parent nodes) key root by
    obtain ⟨node, hnode, rfl⟩ := List.mem_map.1 hkey
    obtain ⟨i, hi⟩ := List.mem_iff_getElem?.1 hnode
    exact hall i node.1 node.2 hi
  intro i
  induction i using Nat.strongRecOn with
  | ind i ih =>
    intro key parent hget
    rcases Nat.eq_zero_or_pos i with rfl | hi
    · rw [← List.head?_eq_getElem?, hroot] at hget
      rw [(Prod.mk.inj (Option.some.inj hget)).1]
    · obtain ⟨p, rfl, j, hj, above, habove⟩ := h.earlier i key parent hi hget
      exact .head (List.mem_iff_getElem?.2 ⟨i, hget⟩) (ih j hj p above habove)

end Rooted
