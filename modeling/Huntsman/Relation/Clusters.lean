import Huntsman.Relation.Index
import Huntsman.UnionFind
import Mathlib.Data.Finset.Sort

/-!
# Identity clusters

`resolveIdentityClusters` joins the ends of every relation that binds identities.  Its clusters are
the classes of uids that such relations connect (`resolveIdentityClusters_eq`).
-/

set_option autoImplicit false

open Relation

namespace Huntsman

open List UnionFind

/-- The uids that relations join, in ascending order. -/
def relatedUids (identity : List Relation) : List String :=
  (identity.flatMap fun relation ↦ [relation.fromUid, relation.toUid]).toFinset.sort

/-- The call that joins the ends of a relation, which are both numbered. -/
def joinEnds (ids : List String) (relation : Relation) : Option (Op ids.length) :=
  if h : relation.fromUid ∈ ids ∧ relation.toUid ∈ ids then
    some (.union ⟨ids.idxOf relation.fromUid, idxOf_lt_length_of_mem h.1⟩
      ⟨ids.idxOf relation.toUid, idxOf_lt_length_of_mem h.2⟩)
  else none

def resolveIdentityClusters (relations : List Relation) : List (List String) :=
  let identity := relations.filter fun relation ↦ relation.kind.bindsIdentity
  let ids := relatedUids identity
  (UnionFind.run (identity.filterMap (joinEnds ids))).groups.1.map fun group ↦ group.map ids.get

/-- A relation that binds identities joins the two uids. -/
def IdentityBound (relations : List Relation) (a b : String) : Prop :=
  ∃ relation ∈ relations, relation.kind.bindsIdentity = true ∧ relation.fromUid = a ∧
    relation.toUid = b

theorem mem_pairs {n : ℕ} {ops : List (Op n)} {a b : Fin n} :
    (a, b) ∈ pairs ops ↔ Op.union a b ∈ ops := by
  induction ops with
  | nil => simp [pairs]
  | cons op ops ih => cases op <;> simp [pairs, ih]

/-- **The clusters are the classes of uids that relations connect**, each in ascending order, in the
order of their first uids. -/
theorem resolveIdentityClusters_eq (relations : List Relation) :
    let ids := relatedUids (relations.filter fun relation ↦ relation.kind.bindsIdentity)
    resolveIdentityClusters relations =
      (classes fun i j ↦ EqvGen (IdentityBound relations) (ids.get i) (ids.get j)).map fun group ↦
        group.map ids.get := by
  intro ids
  set identity := relations.filter fun relation ↦ relation.kind.bindsIdentity
  have hends : ∀ relation ∈ identity, relation.fromUid ∈ ids ∧ relation.toUid ∈ ids := by
    intro relation hrelation
    simp only [ids, relatedUids, Finset.mem_sort, mem_toFinset, mem_flatMap]
    exact ⟨⟨relation, hrelation, .head _⟩, ⟨relation, hrelation, .tail _ (.head _)⟩⟩
  have hpairs : ∀ i j, (i, j) ∈ pairs (identity.filterMap (joinEnds ids)) ↔ ∃ relation ∈ identity,
      ids.idxOf relation.fromUid = i ∧ ids.idxOf relation.toUid = j := by
    intro i j
    rw [mem_pairs, mem_filterMap]
    refine exists_congr fun relation ↦ and_congr_right fun hrelation ↦ ?_
    rw [joinEnds, dif_pos (hends relation hrelation)]
    simp [Fin.ext_iff]
  obtain ⟨root, hroots, hjoined⟩ := run_roots (identity.filterMap (joinEnds ids))
  -- the root of a uid is the same for all uids that relations connect with it
  have hsame : ∀ {a b}, EqvGen (IdentityBound relations) a b →
      (if h : a ∈ ids then some (root ⟨ids.idxOf a, idxOf_lt_length_of_mem h⟩) else none) =
        if h : b ∈ ids then some (root ⟨ids.idxOf b, idxOf_lt_length_of_mem h⟩) else none := by
    intro a b h
    induction h with
    | rel a b h =>
      obtain ⟨relation, hrelation, hbinds, rfl, rfl⟩ := h
      have hmem : relation ∈ identity := mem_filter.2 ⟨hrelation, hbinds⟩
      rw [dif_pos (hends relation hmem).1, dif_pos (hends relation hmem).2]
      exact congrArg some ((hjoined _ _).2 (.rel _ _ ((hpairs _ _).2 ⟨relation, hmem, rfl, rfl⟩)))
    | refl => rfl
    | symm _ _ _ ih => exact ih.symm
    | trans _ _ _ _ _ ih ih' => exact ih.trans ih'
  rw [resolveIdentityClusters, groups_spec hroots]
  refine congrArg (map _) (congrArg classes (funext fun i ↦ funext fun j ↦ propext ?_))
  constructor
  · intro h
    replace h := (hjoined i j).1 h
    induction h with
    | rel i j h =>
      obtain ⟨relation, hrelation, hi, hj⟩ := (hpairs i j).1 h
      obtain ⟨hrelation, hbinds⟩ := mem_filter.1 hrelation
      exact .rel _ _ ⟨relation, hrelation, hbinds, by simp [← hi], by simp [← hj]⟩
    | refl => exact .refl _
    | symm _ _ _ ih => exact .symm _ _ ih
    | trans _ _ _ _ _ ih ih' => exact .trans _ _ _ ih ih'
  · intro h
    have hids : ids.Nodup := Finset.sort_nodup _ _
    simpa [hids.idxOf_getElem] using hsame h

end Huntsman
