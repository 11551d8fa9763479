import Huntsman.Lib.Forest
import Huntsman.Lib.Groups
import Huntsman.Lib.Loop
import Mathlib.Data.List.FinRange
import Mathlib.Data.Sym.Sym2

/-!
# Deterministic disjoint-set union

A `UnionFind` keeps the parent of every index, a root being its own parent, and a rank for each
root.  `find` halves the path it follows, and `union` hangs the root of lower rank below the other.

That the parents make a forest is a field of the structure, so `find` always comes to an end.  Which
root an index leads to is what the operations are described by: `find` changes no root, and `union`
makes the two roots one.  Two indices then share a root exactly when the pairs that were joined
connect them, and `groups` lists the classes of that relation, each ascending and in the order of
their least members, whatever the shape of the forest is (`groups_run`).
-/

set_option autoImplicit false

open Relation

namespace Huntsman

open Function

/-- Disjoint sets of the indices below `n`. -/
structure UnionFind (n : ℕ) where
  parent : Vector (Fin n) n
  rank : Vector UInt8 n
  /-- Following the parents of an index leads to a root. -/
  rooted : ∃ root, Forest.Leads (fun i : Fin n ↦ parent[i]) root

namespace UnionFind

variable {n : ℕ}

/-- Every index a set of its own. -/
def new (size : ℕ) : UnionFind size where
  parent := Vector.ofFn id
  rank := Vector.replicate size 0
  rooted := by
    have hid : (fun i : Fin size ↦ (Vector.ofFn (id : Fin size → Fin size))[i]) = id :=
      funext fun i ↦ by simp
    exact ⟨id, by rw [hid]; exact Forest.Leads.id⟩

/-- `root` takes each index to the root of its set. -/
def Roots (uf : UnionFind n) (root : Fin n → Fin n) : Prop :=
  Forest.Leads (fun i : Fin n ↦ uf.parent[i]) root

theorem getElem_set (v : Vector (Fin n) n) (i x : Fin n) :
    (fun j : Fin n ↦ (v.set i x)[j]) = update (fun j : Fin n ↦ v[j]) i x := by
  funext j
  by_cases h : j = i
  · rw [h, update_self]
    simp
  · rw [update_of_ne h]
    have hne : (i : ℕ) ≠ j := fun heq ↦ h (Fin.ext heq.symm)
    simp [hne]

/-- Make the grandparent of an index its parent. -/
def halve (uf : UnionFind n) (index : Fin n) : UnionFind n where
  parent := uf.parent.set index uf.parent[uf.parent[index]]
  rank := uf.rank
  rooted := by
    obtain ⟨root, h⟩ := uf.rooted
    exact ⟨root, getElem_set .. ▸ h.halve index⟩

/-- One pass of following the parents of an index. -/
def findPass (s : UnionFind n × Fin n) : Pass (Fin n × UnionFind n) (UnionFind n × Fin n) :=
  if s.1.parent[s.2] = s.2 then .leave (s.2, s.1)
  else .again (s.1.halve s.2, (s.1.halve s.2).parent[s.2])

/-- Every pass goes to an index nearer to the root. -/
theorem findPass_falls (s s' : UnionFind n × Fin n) (h : findPass s = .again s') :
    Forest.Leads.steps s'.1.rooted s'.2 < Forest.Leads.steps s.1.rooted s.2 := by
  obtain ⟨uf, index⟩ := s
  rw [findPass] at h
  split at h
  · cases h
  rename_i hne
  cases h
  have hset := getElem_set uf.parent index uf.parent[uf.parent[index]]
  have hrooted : ∃ root, Forest.Leads (update (fun j : Fin n ↦ uf.parent[j]) index
      uf.parent[uf.parent[index]]) root := hset ▸ (uf.halve index).rooted
  have hat : (uf.halve index).parent[index] = uf.parent[uf.parent[index]] := by simp [halve]
  have hlt := Forest.Leads.steps_halve_lt uf.rooted hrooted hne
  simp only [hat]
  convert hlt using 2
  exact hset

/-- The root of an index's set. -/
def find (uf : UnionFind n) (index : Fin n) : Fin n × UnionFind n :=
  Loop.run findPass (fun s ↦ Forest.Leads.steps s.1.rooted s.2) findPass_falls (uf, index)

variable {uf : UnionFind n}

theorem roots_halve {root : Fin n → Fin n} (h : uf.Roots root) (index : Fin n) :
    (uf.halve index).Roots root := by
  rw [Roots, halve, getElem_set]
  exact Forest.Leads.halve h index

/-- **`find` answers the root, and changes no root.** -/
theorem find_spec {root : Fin n → Fin n} (h : uf.Roots root) (index : Fin n) :
    (uf.find index).1 = root index ∧ (uf.find index).2.Roots root := by
  refine Loop.run_inv (fun s : UnionFind n × Fin n ↦ s.1.Roots root ∧ root s.2 = root index)
    (fun r : Fin n × UnionFind n ↦ r.1 = root index ∧ r.2.Roots root) ?_ ?_ ⟨h, rfl⟩
  · rintro ⟨uf, i⟩ s' ⟨hroots, hsame⟩ hpass
    rw [findPass] at hpass
    split at hpass
    · cases hpass
    · cases hpass
      have hhalved := roots_halve hroots i
      exact ⟨hhalved, (hhalved.along i).trans hsame⟩
  · rintro ⟨uf, i⟩ r ⟨hroots, hsame⟩ hpass
    rw [findPass] at hpass
    split at hpass
    · rename_i hroot
      cases hpass
      exact ⟨(hroots.atRoot i hroot).symm.trans hsame, hroots⟩
    · cases hpass

theorem parent_find (uf : UnionFind n) (i j : Fin n) (h : uf.parent[j] = j) :
    (uf.find i).2.parent[j] = j := by
  obtain ⟨root, hroots⟩ := uf.rooted
  exact (find_spec hroots i).2.parent_eq_iff.2 (hroots.atRoot j h)

theorem parent_find_self (uf : UnionFind n) (i : Fin n) :
    (uf.find i).2.parent[(uf.find i).1] = (uf.find i).1 := by
  obtain ⟨root, hroots⟩ := uf.rooted
  obtain ⟨hroot, hfound⟩ := find_spec hroots i
  refine hfound.parent_eq_iff.2 ?_
  rw [hroot]
  exact hroots.root_root i

/-- Hang one root below another, whose rank grows when the two are equal. -/
def link (uf : UnionFind n) (left right : Fin n) (hleft : uf.parent[left] = left)
    (hright : uf.parent[right] = right) (hne : left ≠ right) : UnionFind n where
  parent := uf.parent.set right left
  rank := if uf.rank[left] = uf.rank[right] then
      uf.rank.set left (if uf.rank[left] = 255 then 255 else uf.rank[left] + 1)
    else uf.rank
  rooted := by
    obtain ⟨root, h⟩ := uf.rooted
    exact ⟨_, getElem_set .. ▸ h.link hleft hright hne⟩

theorem roots_link {root : Fin n → Fin n} (h : uf.Roots root) {x y : Fin n}
    (hx : uf.parent[x] = x) (hy : uf.parent[y] = y) (hne : x ≠ y) :
    (uf.link x y hx hy hne).Roots (Forest.link root x y) := by
  rw [Roots, link, getElem_set]
  exact Forest.Leads.link h hx hy hne

/-- Join two sets, and say whether they were two. -/
def union (uf : UnionFind n) (left right : Fin n) : Bool × UnionFind n :=
  let first := uf.find left
  let second := first.2.find right
  have hleft := parent_find first.2 right first.1 (parent_find_self uf left)
  have hright := parent_find_self first.2 right
  if hne : first.1 = second.1 then (false, second.2)
  else if second.2.rank[first.1] < second.2.rank[second.1] then
    (true, second.2.link second.1 first.1 hright hleft (Ne.symm hne))
  else (true, second.2.link first.1 second.1 hleft hright hne)

/-- **`union` joins two sets**: it answers whether they were two, and afterwards two indices share a
root if they did before or are in one of the two sets each. -/
theorem union_spec {root : Fin n → Fin n} (h : uf.Roots root)
    (left right : Fin n) :
    ((uf.union left right).1 = true ↔ root left ≠ root right) ∧
      ∃ root', (uf.union left right).2.Roots root' ∧ ∀ a b, root' a = root' b ↔
        root a = root b ∨ (root a = root left ∧ root b = root right) ∨
          (root a = root right ∧ root b = root left) := by
  obtain ⟨hfirst, hroots₁⟩ := find_spec h left
  obtain ⟨hsecond, hroots₂⟩ := find_spec hroots₁ right
  simp only [union]
  split
  · rename_i heq
    rw [hfirst, hsecond] at heq
    refine ⟨iff_of_false Bool.false_ne_true fun hne ↦ hne heq, root, hroots₂, fun a b ↦ ?_⟩
    rw [heq]
    constructor
    · exact .inl
    · rintro (h | ⟨ha, hb⟩ | ⟨ha, hb⟩)
      · exact h
      · exact ha.trans hb.symm
      · exact ha.trans hb.symm
  rename_i hne
  have hleft := parent_find (uf.find left).2 right _ (parent_find_self uf left)
  have hright := parent_find_self (uf.find left).2 right
  have hanswer : true = true ↔ root left ≠ root right :=
    iff_of_true rfl (by rwa [hfirst, hsecond] at hne)
  split
  · refine ⟨hanswer, _, roots_link hroots₂ hright hleft (Ne.symm hne), fun a b ↦ ?_⟩
    rw [Forest.link_eq_iff, hfirst, hsecond]
    exact or_congr Iff.rfl or_comm
  · refine ⟨hanswer, _, roots_link hroots₂ hleft hright hne, fun a b ↦ ?_⟩
    rw [Forest.link_eq_iff, hfirst, hsecond]

/-! ## Groups -/

/-- Put an index with the others of its root.  The groups stand in the order in which their roots
were first seen. -/
def groupIndex (s : List (Fin n × List (Fin n)) × UnionFind n) (index : Fin n) :
    List (Fin n × List (Fin n)) × UnionFind n :=
  let found := s.2.find index
  (Groups.addByKey Prod.fst (fun group one ↦ (group.1, group.2 ++ one.2)) s.1 (found.1, [index]),
    found.2)

/-- Every set in ascending index order, the sets ordered by their smallest index. -/
def groups (uf : UnionFind n) : List (List (Fin n)) × UnionFind n :=
  let grouped := (List.finRange n).foldl groupIndex ([], uf)
  (grouped.1.map Prod.snd, grouped.2)

/-- The classes of a relation, each ascending, in the order of their least members. -/
noncomputable def classes (r : Fin n → Fin n → Prop) : List (List (Fin n)) :=
  open Classical in
  ((List.finRange n).filter fun i ↦ ∀ j < i, ¬ r j i).map fun i ↦
    (List.finRange n).filter fun j ↦ r i j

theorem foldl_groupIndex {root : Fin n → Fin n} (indices : List (Fin n)) :
    ∀ groups {uf : UnionFind n}, uf.Roots root →
      (indices.foldl groupIndex (groups, uf)).1 = (indices.map fun i ↦ (root i, [i])).foldl
        (Groups.addByKey Prod.fst fun group one ↦ (group.1, group.2 ++ one.2)) groups := by
  induction indices with
  | nil => exact fun _ _ _ ↦ rfl
  | cons i indices ih =>
    intro groups uf h
    obtain ⟨hroot, hroots⟩ := find_spec h i
    rw [List.foldl_cons, List.map_cons, List.foldl_cons, groupIndex, hroot]
    exact ih _ hroots

/-- **The groups are the classes of indices that share a root.** -/
theorem groups_spec {root : Fin n → Fin n} (h : uf.Roots root) :
    uf.groups.1 = classes fun i j ↦ root i = root j := by
  have hkey : ∀ y x : Fin n × List (Fin n), y.1 = x.1 → (y.1, y.2 ++ x.2).1 = y.1 := fun _ _ _ ↦ rfl
  have hkeys := Groups.foldl_add_keys hkey ((List.finRange n).map fun i ↦ (root i, [i]))
  let Made (group : Fin n × List (Fin n)) (made : List (Fin n × List (Fin n))) : Prop :=
    group.2 = made.flatMap Prod.snd
  have hmade : ∀ group ∈ ((List.finRange n).map fun i ↦ (root i, [i])).foldl
      (Groups.addByKey Prod.fst fun group one ↦ (group.1, group.2 ++ one.2)) [],
      Made group (((List.finRange n).map fun i ↦ (root i, [i])).filter fun x ↦ x.1 = group.1) :=
    Groups.foldl_add_grouped hkey (fun _ ↦ (List.append_nil _).symm)
      (fun y x made _ hy ↦ by
        show y.2 ++ x.2 = (made ++ [x]).flatMap Prod.snd
        rw [List.flatMap_append, ← hy, List.flatMap_singleton])
      _
  have hmembers : ∀ k, (((List.finRange n).map fun i ↦ (root i, [i])).filter
      fun x ↦ x.1 = k).flatMap Prod.snd = (List.finRange n).filter fun j ↦ root j = k := by
    intro k
    rw [List.filter_map, List.flatMap_map, List.flatMap_singleton']
    rfl
  have hgroups : uf.groups.1 = ((((List.finRange n).map fun i ↦ (root i, [i])).foldl
      (Groups.addByKey Prod.fst fun group one ↦ (group.1, group.2 ++ one.2)) []).map Prod.fst).map
        fun k ↦ (List.finRange n).filter fun j ↦ root j = k := by
    rw [groups, foldl_groupIndex _ _ h, List.map_map]
    exact List.map_congr_left fun group hgroup ↦ (hmade group hgroup).trans (hmembers group.1)
  have hleast : ((List.finRange n).map root).eraseDups = ((List.finRange n).filter fun i ↦
      ∀ j ∈ List.finRange n, j < i → root j ≠ root i).map root := by
    convert Groups.eraseDups_map (List.pairwise_lt_finRange n)
  have hroots : ((List.finRange n).map fun i ↦ (root i, [i])).map Prod.fst
      = (List.finRange n).map root := List.map_map
  rw [hgroups, hkeys, hroots, hleast, List.map_map, classes]
  refine (List.map_congr_left fun i _ ↦ List.filter_congr fun j _ ↦ ?_).trans
    (congrArg (List.map _) (List.filter_congr fun i _ ↦ ?_))
  · exact decide_eq_decide.2 eq_comm
  · exact decide_eq_decide.2 ⟨fun h j hj ↦ h j (List.mem_finRange j) hj, fun h j _ hj ↦ h j hj⟩

/-! ## Runs -/

/-- A call on the sets. -/
inductive Op (n : ℕ) where
  | find (index : Fin n)
  | union (left right : Fin n)

/-- The sets after a call. -/
def call (uf : UnionFind n) : Op n → UnionFind n
  | .find index => (uf.find index).2
  | .union left right => (uf.union left right).2

/-- The sets after calls one after the other. -/
def run (ops : List (Op n)) : UnionFind n := ops.foldl call (new n)

/-- The pairs that were joined. -/
def pairs : List (Op n) → List (Fin n × Fin n)
  | [] => []
  | .find _ :: ops => pairs ops
  | .union left right :: ops => (left, right) :: pairs ops

/-- Two indices that the pairs joined connect. -/
def Joined (ops : List (Op n)) : Fin n → Fin n → Prop := EqvGen fun a b ↦ (a, b) ∈ pairs ops

theorem pairs_append (ops ops' : List (Op n)) : pairs (ops ++ ops') = pairs ops ++ pairs ops' := by
  induction ops with
  | nil => rfl
  | cons op ops ih =>
    cases op with
    | find index => exact ih
    | union left right => exact congrArg _ ih

/-- **Two indices share a root exactly when the pairs joined connect them.** -/
theorem run_roots (ops : List (Op n)) :
    ∃ root, (run ops).Roots root ∧ ∀ a b, root a = root b ↔ Joined ops a b := by
  induction ops using List.reverseRecOn with
  | nil =>
    refine ⟨id, ?_, fun a b ↦ ?_⟩
    · have hid : (fun i : Fin n ↦ (new n).parent[i]) = id := funext fun i ↦ by simp [new]
      show Forest.Leads (fun i : Fin n ↦ (new n).parent[i]) id
      rw [hid]
      exact Forest.Leads.id
    · constructor
      · rintro rfl
        exact EqvGen.refl a
      · intro h
        induction h with
        | rel _ _ h => cases h
        | refl => rfl
        | symm _ _ _ ih => exact ih.symm
        | trans _ _ _ _ _ ih ih' => exact ih.trans ih'
  | append_singleton ops op ih =>
    obtain ⟨root, hroots, hjoined⟩ := ih
    rw [run, List.foldl_append, List.foldl_cons, List.foldl_nil, ← run]
    cases op with
    | find index =>
      refine ⟨root, (find_spec hroots index).2, fun a b ↦ (hjoined a b).trans ?_⟩
      rw [Joined, Joined, pairs_append, pairs, pairs, List.append_nil]
    | union left right =>
      obtain ⟨-, root', hroots', hsame⟩ := union_spec hroots left right
      have hmore : Joined (ops ++ [.union left right])
          = EqvGen fun a b ↦ (a, b) ∈ pairs ops ∨ (a = left ∧ b = right) := by
        rw [Joined, pairs_append, pairs, pairs]
        simp only [List.mem_append, List.mem_singleton, Prod.mk.injEq]
      refine ⟨root', hroots', fun a b ↦ ?_⟩
      rw [hsame, hmore, eqvGen_or_pair]
      simp only [hjoined, Joined]

/-- What is connected does not depend on the order of the pairs, nor on which of the two comes
first. -/
theorem joined_congr {ops ops' : List (Op n)}
    (h : ∀ pair, pair ∈ (pairs ops').map (fun p ↦ s(p.1, p.2)) ↔
      pair ∈ (pairs ops).map fun p ↦ s(p.1, p.2)) : Joined ops' = Joined ops := by
  have hle : ∀ {ops ops' : List (Op n)}, (∀ pair ∈ (pairs ops').map (fun p ↦ s(p.1, p.2)),
      pair ∈ (pairs ops).map fun p ↦ s(p.1, p.2)) → ∀ a b, Joined ops' a b → Joined ops a b := by
    intro ops ops' h a b hab
    induction hab with
    | rel a b hab =>
      obtain ⟨⟨c, d⟩, hcd, heq⟩ := List.mem_map.1 (h s(a, b) (List.mem_map.2 ⟨(a, b), hab, rfl⟩))
      rcases Sym2.eq_iff.1 heq with ⟨rfl, rfl⟩ | ⟨rfl, rfl⟩
      · exact .rel _ _ hcd
      · exact .symm _ _ (.rel _ _ hcd)
    | refl a => exact .refl a
    | symm _ _ _ ih => exact .symm _ _ ih
    | trans _ _ _ _ _ ih ih' => exact .trans _ _ _ ih ih'
  funext a b
  exact propext ⟨hle (fun pair ↦ (h pair).1) a b, hle (fun pair ↦ (h pair).2) a b⟩

/-- **The sets after any calls are the classes that the pairs joined connect.**  `find` answers a
root that the index is connected with, `union` whether its indices were not connected, and `groups`
the classes, each ascending and in the order of their least members: the same for the same pairs in
any order and either way round. -/
theorem groups_run (ops : List (Op n)) :
    let uf := run ops
    (∀ index, (uf.find index).2.parent[(uf.find index).1] = (uf.find index).1 ∧
      Joined ops index (uf.find index).1) ∧
    (∀ left right, (uf.union left right).1 = true ↔ ¬ Joined ops left right) ∧
    uf.groups.1 = classes (Joined ops) ∧
    ∀ ops' : List (Op n), (∀ pair, pair ∈ (pairs ops').map (fun p ↦ s(p.1, p.2)) ↔
      pair ∈ (pairs ops).map fun p ↦ s(p.1, p.2)) → (run ops').groups.1 = uf.groups.1 := by
  intro uf
  have hgroups : ∀ ops : List (Op n), (run ops).groups.1 = classes (Joined ops) := by
    intro ops
    obtain ⟨root, hroots, hjoined⟩ := run_roots ops
    rw [groups_spec hroots]
    exact congrArg classes (funext fun a ↦ funext fun b ↦ propext (hjoined a b))
  obtain ⟨root, hroots, hjoined⟩ := run_roots ops
  refine ⟨fun index ↦ ⟨parent_find_self uf index, ?_⟩, fun left right ↦ ?_, hgroups ops,
    fun ops' h ↦ ?_⟩
  · rw [← hjoined, (find_spec hroots index).1]
    exact (hroots.root_root index).symm
  · rw [(union_spec hroots left right).1, Ne, hjoined]
  · rw [hgroups ops', hgroups ops, joined_congr h]

theorem groups_run_sample :
    (run [.union 3 0, .union 2 1] : UnionFind 4).groups.1
      = (run [.union 0 3, .find 3, .union 1 2]).groups.1 := by
  refine (groups_run [.union 0 3, .find 3, .union 1 2]).2.2.2 [.union 3 0, .union 2 1] fun pair ↦ ?_
  rw [pairs, pairs, pairs, pairs, pairs, pairs, pairs, List.map_cons, List.map_cons, List.map_nil,
    Sym2.eq_swap, List.map_cons, List.map_cons, List.map_nil, @Sym2.eq_swap _ 2 1]

end UnionFind

end Huntsman
