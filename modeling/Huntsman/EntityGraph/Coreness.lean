import Huntsman.EntityGraph.Build
import Huntsman.Lib.Cores
import Mathlib.Algebra.BigOperators.Fin
import Mathlib.Logic.Equiv.Fintype

/-!
# Core numbers by bucket peeling

`coreness` keeps the nodes in one array sorted by remaining degree, with the position of every node
in it and, for every degree, the position at which the nodes of at least that degree begin.  Peeling
a node moves each neighbour of higher degree down one bucket: the neighbour changes places with the
first of its bucket, and the bucket begins one place further on.

Every read and write is checked here, and so is the subtraction, so that the answer `none` would be
a panic.  `coreness_spec` says that there is none, and that the answer lists the core numbers.
-/

set_option autoImplicit false

namespace Huntsman

namespace EntityGraph

open Cells Function List

variable (graph : EntityGraph)

/-! ## The algorithm -/

/-- The arrays that peeling works on. -/
structure Arrays where
  /-- The remaining degree of each node. -/
  degree : List ℕ
  /-- The position in `order` of the first node of each remaining degree. -/
  bucket : List ℕ
  order : List ℕ
  position : List ℕ

/-- Turn the sizes of the buckets into the positions at which they begin. -/
def heads (sizes : List ℕ) : List ℕ :=
  (sizes.foldl (fun (s : ℕ × List ℕ) size ↦ (s.1 + size, s.2 ++ [s.1])) (0, [])).2

/-- Put a node at the next position of its bucket. -/
def place (degree : List ℕ) (s : List ℕ × List ℕ × List ℕ) (node : ℕ) :
    Option (List ℕ × List ℕ × List ℕ) := do
  let (fill, order, position) := s
  let d ← degree[node]?
  let next ← fill[d]?
  let position ← write position node next
  let order ← write order next node
  let fill ← bump fill d
  return (fill, order, position)

/-- Change the places of a node and the first of its bucket, `head`, which stands at `first`. -/
def exchange (order position : List ℕ) (neighbour head first : ℕ) : Option (List ℕ × List ℕ) :=
  if head ≠ neighbour then do
    let place ← position[neighbour]?
    let order ← write order place head
    let position ← write position head place
    let order ← write order first neighbour
    let position ← write position neighbour first
    return (order, position)
  else return (order, position)

/-- Move a neighbour of higher degree down one bucket. -/
def lower (node : ℕ) (s : Arrays) (neighbour : ℕ) : Option Arrays := do
  let d ← s.degree[neighbour]?
  let dNode ← s.degree[node]?
  if d > dNode then
    let first ← s.bucket[d]?
    let head ← s.order[first]?
    let (order, position) ← exchange s.order s.position neighbour head first
    let bucket ← bump s.bucket d
    let lowered ← if 1 ≤ d then some (d - 1) else none
    let degree ← write s.degree neighbour lowered
    return ⟨degree, bucket, order, position⟩
  else return s

/-- Peel the node at a position. -/
def peel (s : Arrays) (index : ℕ) : Option Arrays := do
  let node ← s.order[index]?
  let neighbours ← graph.neighbours node
  (neighbours.map Fin.val).foldlM (lower node) s

/-- The core number of each node. -/
def coreness : Option (List ℕ) := do
  let n := graph.nodeCount
  let degree ← (List.range n).mapM graph.degree
  let maxDegree := degree.max?.getD 0
  let sizes ← degree.foldlM bump (List.replicate (maxDegree + 1) 0)
  let bucket := heads sizes
  let (_, order, position) ← (List.range n).foldlM (place degree)
    (bucket, List.replicate n 0, List.replicate n 0)
  let s ← (List.range n).foldlM graph.peel ⟨degree, bucket, order, position⟩
  return s.degree

/-! ## Moving a neighbour down -/

variable {n m : ℕ}

/-- The arrays of degrees, bucket heads and an order of the nodes. -/
def arrays (degree : Fin n → ℕ) (bucket : Fin m → ℕ) (order : Equiv.Perm (Fin n)) : Arrays where
  degree := List.ofFn degree
  bucket := List.ofFn bucket
  order := List.ofFn fun i ↦ (order i : ℕ)
  position := List.ofFn fun v ↦ (order.symm v : ℕ)

/-- The nodes stand in the order of their degrees, and above a level the buckets begin where they
should. -/
structure Sorted (level : ℕ) (degree : Fin n → ℕ) (bucket : Fin m → ℕ)
    (order : Equiv.Perm (Fin n)) : Prop where
  sorted : ∀ i j, i ≤ j → degree (order i) ≤ degree (order j)
  lt_buckets : ∀ v, degree v < m
  heads : ∀ d : Fin m, level < d → ∀ i : Fin n, degree (order i) < d ↔ (i : ℕ) < bucket d

/-- Two nodes that change places. -/
theorem exchange_spec (order : Equiv.Perm (Fin n)) (u : Fin n) (first : Fin n) :
    exchange (List.ofFn fun i ↦ (order i : ℕ)) (List.ofFn fun v ↦ (order.symm v : ℕ)) u
      (order first) first =
        some (List.ofFn fun i ↦ ((Equiv.swap (order.symm u) first).trans order i : ℕ),
          List.ofFn fun v ↦ (((Equiv.swap (order.symm u) first).trans order).symm v : ℕ)) := by
  rw [exchange]
  split
  · rw [read_ofFn]
    simp only [Option.bind_eq_bind, Option.bind_some, write_ofFn, Option.pure_def, Option.some.injEq,
      Prod.mk.injEq, ofFn_inj, Equiv.symm_trans_apply, Equiv.symm_swap, Equiv.trans_apply]
    constructor
    · funext i
      by_cases hfirst : i = first
      · rw [hfirst, update_self, Equiv.swap_apply_right, Equiv.apply_symm_apply]
      · rw [update_of_ne hfirst]
        by_cases hu : i = order.symm u
        · rw [hu, update_self, Equiv.swap_apply_left]
        · rw [update_of_ne hu, Equiv.swap_apply_of_ne_of_ne hu hfirst]
    · funext v
      by_cases hu : v = u
      · rw [hu, update_self, Equiv.swap_apply_left]
      · rw [update_of_ne hu]
        by_cases hhead : v = order first
        · rw [hhead, update_self, Equiv.symm_apply_apply, Equiv.swap_apply_right]
        · rw [update_of_ne hhead, Equiv.swap_apply_of_ne_of_ne]
          · exact fun h ↦ hu (order.symm.injective h)
          · exact fun h ↦ hhead (order.symm_apply_eq.1 h)
  · rename_i heq
    have hsame : order.symm u = first := by
      rw [Equiv.symm_apply_eq]
      exact Fin.ext (not_not.1 heq).symm
    rw [hsame, Equiv.swap_self, Equiv.refl_trans]
    rfl

variable {bucket : Fin m → ℕ} {v u : Fin n}

/-- **Moving a neighbour of higher degree down one bucket.**  Every index is in bounds, the order
stays sorted, and nothing of no higher degree than the node is moved. -/
theorem lower_spec {degree : Fin n → ℕ} {order : Equiv.Perm (Fin n)}
    (h : Sorted (degree v) degree bucket order) (hlt : degree v < degree u) :
    ∃ (bucket' : Fin m → ℕ) (order' : Equiv.Perm (Fin n)), lower v (arrays degree bucket order) u =
        some (arrays (update degree u (degree u - 1)) bucket' order') ∧
      Sorted (degree v) (update degree u (degree u - 1)) bucket' order' ∧
      ∀ i, degree (order i) ≤ degree v → order' i = order i := by
  let d : Fin m := ⟨degree u, h.lt_buckets u⟩
  have hplace : ¬(order.symm u : ℕ) < bucket d := fun hbefore ↦ by
    have := (h.heads d hlt (order.symm u)).2 hbefore
    rw [Equiv.apply_symm_apply] at this
    exact Nat.lt_irrefl _ this
  let first : Fin n := ⟨bucket d, (Nat.not_lt.1 hplace).trans_lt (order.symm u).2⟩
  -- The first of the bucket is of the same degree.
  have hfirst : degree (order first) = degree u := by
    refine Nat.le_antisymm ?_ ?_
    · have := h.sorted first (order.symm u) (Nat.not_lt.1 hplace)
      rwa [Equiv.apply_symm_apply] at this
    · exact Nat.not_lt.1 fun hlow ↦ Nat.lt_irrefl _ ((h.heads d hlt first).1 hlow)
  have hat : ∀ i, update degree u (degree u - 1) ((Equiv.swap (order.symm u) first).trans order i) =
      if i = first then degree u - 1 else degree (order i) := fun i ↦ by
    rw [Equiv.trans_apply]
    by_cases hi : i = first
    · rw [if_pos hi, hi, Equiv.swap_apply_right, Equiv.apply_symm_apply, update_self]
    · rw [if_neg hi]
      by_cases hu : i = order.symm u
      · rw [hu, Equiv.swap_apply_left, Equiv.apply_symm_apply]
        by_cases hsame : order first = u
        · exact absurd (hu.trans (order.symm_apply_eq.2 hsame.symm)) hi
        · rw [update_of_ne hsame, hfirst]
      · rw [Equiv.swap_apply_of_ne_of_ne hu hi, update_of_ne]
        exact fun heq ↦ hu (order.eq_symm_apply.2 heq)
  refine ⟨update bucket d (bucket d + 1), (Equiv.swap (order.symm u) first).trans order, ?_,
    ⟨fun i j hij ↦ ?_, fun w ↦ ?_, fun d' hd' i ↦ ?_⟩, fun i hi ↦ ?_⟩
  · have hread : (ofFn bucket)[degree u]? = some (bucket d) := read_ofFn bucket d
    have hhead : (ofFn fun i ↦ (order i : ℕ))[bucket d]? = some (order first : ℕ) :=
      read_ofFn (fun i ↦ (order i : ℕ)) first
    have hexchange := exchange_spec order u first
    have hbump : bump (ofFn bucket) (degree u) = _ := bump_ofFn bucket d
    rw [lower, arrays]
    simp only [read_ofFn, Option.bind_eq_bind, Option.bind_some, if_pos hlt, hread, hhead]
    rw [show (bucket d : ℕ) = (first : ℕ) from rfl, hexchange]
    simp only [Option.bind_some, hbump, if_pos (Nat.one_le_of_lt hlt), write_ofFn, Option.pure_def,
      arrays]
    rfl
  · rw [hat, hat]
    have hij' := h.sorted i j hij
    split <;> split
    · exact le_rfl
    · rename_i hi hj
      rw [hi, hfirst] at hij'
      omega
    · rename_i hi hj
      have hbefore : i < first := lt_of_le_of_ne (hj ▸ hij) hi
      have hlow : degree (order i) < degree u := (h.heads d hlt i).2 hbefore
      omega
    · exact hij'
  · by_cases hw : w = u
    · rw [hw, update_self]
      exact (Nat.sub_le _ _).trans_lt (h.lt_buckets u)
    · rw [update_of_ne hw]
      exact h.lt_buckets w
  · rw [hat]
    have hheads := h.heads d' hd' i
    by_cases hd : d' = d
    · rw [hd, update_self]
      rw [hd] at hheads
      have hdu : (d : ℕ) = degree u := rfl
      have hfb : (first : ℕ) = bucket d := rfl
      split
      · rename_i hi
        have : (i : ℕ) = first := congrArg Fin.val hi
        omega
      · rename_i hi
        have : (i : ℕ) ≠ first := fun heq ↦ hi (Fin.ext heq)
        omega
    · rw [update_of_ne hd]
      have hdu : (d' : ℕ) ≠ degree u := fun heq ↦ hd (Fin.ext heq)
      split
      · rename_i hi
        rw [hi, hfirst] at hheads
        rw [hi]
        omega
      · exact hheads
  · rw [Equiv.trans_apply, Equiv.swap_apply_of_ne_of_ne]
    · rintro rfl
      rw [Equiv.apply_symm_apply] at hi
      omega
    · rintro rfl
      omega

/-! ## Peeling a node -/

theorem lower_of_le {degree : Fin n → ℕ} {order : Equiv.Perm (Fin n)}
    (h : degree u ≤ degree v) :
    lower v (arrays degree bucket order) u = some (arrays degree bucket order) := by
  rw [lower, arrays]
  simp only [read_ofFn, Option.bind_eq_bind, Option.bind_some, if_neg (Nat.not_lt.2 h),
    Option.pure_def]

/-- The degrees when the neighbours in a list have been moved down. -/
def loweredIn (degree : Fin n → ℕ) (v : Fin n) (neighbours : List (Fin n)) (u : Fin n) : ℕ :=
  if u ∈ neighbours ∧ degree v < degree u then degree u - 1 else degree u

theorem loweredIn_le (degree : Fin n → ℕ) (v : Fin n) (neighbours : List (Fin n)) (u : Fin n) :
    loweredIn degree v neighbours u ≤ degree u := by
  rw [loweredIn]
  split
  · exact Nat.sub_le _ _
  · exact le_rfl

theorem loweredIn_self (degree : Fin n → ℕ) (v : Fin n) (neighbours : List (Fin n)) :
    loweredIn degree v neighbours v = degree v :=
  if_neg fun h ↦ Nat.lt_irrefl _ h.2

/-- **Moving the neighbours of a node down**, one after the other. -/
theorem foldlM_lower {degree : Fin n → ℕ} {order : Equiv.Perm (Fin n)}
    (h : Sorted (degree v) degree bucket order) {neighbours : List (Fin n)}
    (hnodup : neighbours.Nodup) : ∃ (bucket' : Fin m → ℕ) (order' : Equiv.Perm (Fin n)),
      (neighbours.map Fin.val).foldlM (lower v) (arrays degree bucket order) =
        some (arrays (loweredIn degree v neighbours) bucket' order') ∧
      Sorted (degree v) (loweredIn degree v neighbours) bucket' order' ∧
      ∀ i, degree (order i) ≤ degree v → order' i = order i := by
  induction neighbours using reverseRecOn with
  | nil =>
    have hsame : loweredIn degree v [] = degree := funext fun u ↦ if_neg fun h ↦ not_mem_nil h.1
    rw [hsame]
    exact ⟨bucket, order, rfl, h, fun _ _ ↦ rfl⟩
  | append_singleton neighbours u ih =>
    rw [nodup_append] at hnodup
    obtain ⟨hnodup, -, hdisjoint⟩ := hnodup
    have hu : u ∉ neighbours := fun hmem ↦ hdisjoint u hmem u (mem_singleton_self u) rfl
    obtain ⟨bucket', order', hfold, hsorted, hkept⟩ := ih hnodup
    have hself := loweredIn_self degree v neighbours
    have hold : loweredIn degree v neighbours u = degree u := if_neg fun h ↦ hu h.1
    have hrest : ∀ w, w ≠ u →
        loweredIn degree v (neighbours ++ [u]) w = loweredIn degree v neighbours w := fun w hw ↦ by
      simp only [loweredIn, mem_append, mem_singleton, or_iff_left hw]
    rw [map_append, foldlM_append, hfold]
    simp only [Option.bind_eq_bind, Option.bind_some, map_cons, map_nil, foldlM_cons,
      foldlM_nil]
    by_cases hlt : degree v < degree u
    · have hnew : loweredIn degree v (neighbours ++ [u]) =
          update (loweredIn degree v neighbours) u (loweredIn degree v neighbours u - 1) := by
        funext w
        by_cases hw : w = u
        · rw [hw, update_self, hold, loweredIn, if_pos ⟨by simp, hlt⟩]
        · rw [update_of_ne hw, hrest w hw]
      rw [← hself] at hsorted
      obtain ⟨bucket'', order'', hlower, hsorted', hkept'⟩ :=
        lower_spec (u := u) hsorted (by rwa [hself, hold])
      rw [hlower, hnew, ← hself]
      refine ⟨bucket'', order'', rfl, hsorted', fun i hi ↦ ?_⟩
      rw [hself] at hi
      have hsame := hkept i hi
      rw [← hsame]
      refine hkept' i ?_
      rw [hsame, hself]
      exact (loweredIn_le degree v neighbours _).trans hi
    · have hnew : loweredIn degree v (neighbours ++ [u]) = loweredIn degree v neighbours := by
        funext w
        by_cases hw : w = u
        · rw [hw, hold, loweredIn, if_neg fun h ↦ hlt h.2]
        · exact hrest w hw
      rw [lower_of_le (by rw [hself, hold]; exact Nat.not_lt.1 hlt), hnew]
      exact ⟨bucket', order', rfl, hsorted, hkept⟩

variable {graph}

/-- The nodes that stand from a position on. -/
def leftFrom (order : Equiv.Perm (Fin n)) (index : ℕ) : Finset (Fin n) :=
  Finset.univ.filter fun v ↦ index ≤ order.symm v

theorem mem_leftFrom {order : Equiv.Perm (Fin n)} {index : ℕ} :
    v ∈ leftFrom order index ↔ index ≤ order.symm v := by
  rw [leftFrom, Finset.mem_filter, and_iff_right (Finset.mem_univ v)]

/-- **Peeling the node at a position** takes a node of least degree from those that are left. -/
theorem peel_spec {degree : graph.Node → ℕ} {order : Equiv.Perm graph.Node}
    {level : ℕ} (index : graph.Node) (h : Sorted level degree bucket order)
    (hpeeling : Cores.Peeling graph.toSimple (leftFrom order index) level degree) :
    ∃ (degree' : graph.Node → ℕ) (bucket' : Fin m → ℕ) (order' : Equiv.Perm graph.Node),
      graph.peel (arrays degree bucket order) index = some (arrays degree' bucket' order') ∧
      Sorted (degree (order index)) degree' bucket' order' ∧
      Cores.Peeling graph.toSimple (leftFrom order' (index + 1)) (degree (order index)) degree' := by
  let v := order index
  have hv : v ∈ leftFrom order index := mem_leftFrom.2 (by rw [Equiv.symm_apply_apply])
  have hleast : ∀ u ∈ leftFrom order index, degree v ≤ degree u := fun u hu ↦ by
    have := h.sorted index (order.symm u) (mem_leftFrom.1 hu)
    rwa [Equiv.apply_symm_apply] at this
  have hlevel : Sorted (degree v) degree bucket order :=
    ⟨h.sorted, h.lt_buckets, fun d hd ↦ h.heads d ((hpeeling.level_le hv).trans_lt hd)⟩
  have hnodup : (graph.adj v).Nodup := (graph.adj_sorted v).imp ne_of_lt
  obtain ⟨bucket', order', hfold, hsorted, hkept⟩ := foldlM_lower hlevel hnodup
  have hlowered : loweredIn degree v (graph.adj v) = Cores.lowered graph.toSimple degree v := rfl
  refine ⟨_, bucket', order', ?_, hsorted, ?_⟩
  · have hread : (arrays degree bucket order).order[(index : ℕ)]? = some (v : ℕ) :=
      read_ofFn (fun i ↦ (order i : ℕ)) index
    have hneighbours : graph.neighbours v = some (graph.adj v) := dif_pos v.2
    rw [peel, hread]
    simp only [Option.bind_eq_bind, Option.bind_some, hneighbours]
    exact hfold
  · -- The positions up to this one hold what they held.
    have hsame : ∀ i, i ≤ index → order' i = order i := fun i hi ↦ hkept i (h.sorted i index hi)
    have hleft : leftFrom order' (index + 1) = (leftFrom order index).erase v := by
      ext u
      rw [mem_leftFrom, Finset.mem_erase, mem_leftFrom]
      constructor
      · intro hu
        have hne : ∀ i, i ≤ index → order i ≠ u := fun i hi heq ↦ by
          rw [← hsame i hi] at heq
          rw [← heq, Equiv.symm_apply_apply] at hu
          exact Nat.not_succ_le_self _ (hu.trans (Fin.le_def.1 hi))
        refine ⟨fun heq ↦ hne index (le_refl index) heq.symm, ?_⟩
        by_contra hlt
        exact hne (order.symm u) (Fin.le_def.2 (Nat.le_of_not_le hlt)) (Equiv.apply_symm_apply _ _)
      · rintro ⟨hne, hu⟩
        by_contra hlt
        have hi : order'.symm u ≤ index := Fin.le_def.2 (by omega)
        have heq := hsame _ hi
        rw [Equiv.apply_symm_apply] at heq
        have hi' : order.symm u = order'.symm u := order.symm_apply_eq.2 heq
        rw [hi'] at hu
        exact hne (heq.trans (congrArg order (Fin.le_antisymm hi (Fin.le_def.2 hu))))
    rw [hleft, hlowered]
    exact hpeeling.take hv hleast

/-- **Peeling node after node** leaves the core numbers. -/
theorem foldlM_peel {degree : graph.Node → ℕ}
    {order : Equiv.Perm graph.Node} (h : Sorted 0 degree bucket order)
    (hdegree : ∀ v, degree v = Cores.degreeIn graph.toSimple Finset.univ v) :
    ∀ count, count ≤ graph.uids.length → ∃ (level : ℕ) (degree' : graph.Node → ℕ)
      (bucket' : Fin m → ℕ) (order' : Equiv.Perm graph.Node),
      (List.range count).foldlM graph.peel (arrays degree bucket order) =
        some (arrays degree' bucket' order') ∧
      Sorted level degree' bucket' order' ∧
      Cores.Peeling graph.toSimple (leftFrom order' count) level degree' := by
  intro count
  induction count with
  | zero =>
    intro _
    have hall : leftFrom order 0 = Finset.univ := by
      ext v
      simp [mem_leftFrom]
    exact ⟨0, degree, bucket, order, rfl, h, hall ▸ .begin hdegree⟩
  | succ count ih =>
    intro hcount
    obtain ⟨level, degree', bucket', order', hfold, hsorted, hpeeling⟩ := ih (Nat.le_of_succ_le hcount)
    obtain ⟨degree'', bucket'', order'', hpeel, hsorted', hpeeling'⟩ :=
      peel_spec ⟨count, hcount⟩ hsorted hpeeling
    refine ⟨_, degree'', bucket'', order'', ?_, hsorted', hpeeling'⟩
    rw [range_succ, foldlM_append, hfold]
    simp only [Option.bind_eq_bind, Option.bind_some, foldlM_cons, foldlM_nil]
    rw [hpeel]
    rfl

/-! ## Sorting the nodes -/

/-- How many nodes stand before one when they are sorted by degree, and by number among those of one
degree. -/
def rank (degree : Fin n → ℕ) (v : Fin n) : ℕ :=
  (Finset.univ.filter fun u ↦ degree u < degree v ∨ degree u = degree v ∧ u < v).card

theorem rank_lt_rank {degree : Fin n → ℕ}
    (h : degree u < degree v ∨ degree u = degree v ∧ u < v) : rank degree u < rank degree v := by
  refine Finset.card_lt_card ((Finset.ssubset_iff_of_subset fun w hw ↦ ?_).2 ⟨u, ?_, ?_⟩)
  · rw [Finset.mem_filter] at hw ⊢
    refine ⟨hw.1, ?_⟩
    have := hw.2
    simp only [Fin.lt_def] at *
    omega
  · exact Finset.mem_filter.2 ⟨Finset.mem_univ u, h⟩
  · rw [Finset.mem_filter, not_and]
    intro _ hself
    simp only [Fin.lt_def] at hself
    omega

theorem rank_lt (degree : Fin n → ℕ) (v : Fin n) : rank degree v < n := by
  have hlt := Finset.card_lt_univ_of_notMem (s := Finset.univ.filter fun u ↦
    degree u < degree v ∨ degree u = degree v ∧ u < v) (x := v) (by simp)
  rwa [Fintype.card_fin] at hlt

theorem rank_injective (degree : Fin n → ℕ) :
    Injective fun v ↦ (⟨rank degree v, rank_lt degree v⟩ : Fin n) := by
  intro u v h
  have heq : rank degree u = rank degree v := congrArg Fin.val h
  by_contra hne
  have hlt : (degree u < degree v ∨ degree u = degree v ∧ u < v) ∨
      degree v < degree u ∨ degree v = degree u ∧ v < u := by
    have : (u : ℕ) ≠ v := fun h ↦ hne (Fin.ext h)
    simp only [Fin.lt_def]
    omega
  rcases hlt with hlt | hlt
  · exact Nat.ne_of_lt (rank_lt_rank hlt) heq
  · exact Nat.ne_of_lt (rank_lt_rank hlt) heq.symm

/-- The nodes in the order of their degrees. -/
noncomputable def byDegree (degree : Fin n → ℕ) : Equiv.Perm (Fin n) :=
  (Equiv.ofBijective _ (Finite.injective_iff_bijective.1 (rank_injective degree))).symm

theorem byDegree_symm (degree : Fin n → ℕ) (v : Fin n) :
    ((byDegree degree).symm v : ℕ) = rank degree v := rfl

theorem rank_byDegree (degree : Fin n → ℕ) (i : Fin n) : rank degree (byDegree degree i) = i := by
  rw [← byDegree_symm, Equiv.symm_apply_apply]

/-- How many nodes are of lower degree. -/
def below (degree : Fin n → ℕ) (d : ℕ) : ℕ := (Finset.univ.filter fun v ↦ degree v < d).card

theorem rank_lt_below {degree : Fin n → ℕ} {d : ℕ} :
    rank degree v < below degree d ↔ degree v < d := by
  constructor
  · intro h
    by_contra hge
    refine Nat.not_le_of_lt h (Finset.card_le_card fun u hu ↦ ?_)
    rw [Finset.mem_filter] at hu ⊢
    exact ⟨hu.1, .inl (by omega)⟩
  · intro h
    refine Finset.card_lt_card ((Finset.ssubset_iff_of_subset fun u hu ↦ ?_).2 ⟨v, ?_, by simp⟩)
    · rw [Finset.mem_filter] at hu ⊢
      exact ⟨hu.1, by omega⟩
    · exact Finset.mem_filter.2 ⟨Finset.mem_univ v, h⟩

theorem byDegree_sorted {degree : Fin n → ℕ} (hlt : ∀ v, degree v < m) :
    Sorted 0 degree (fun d : Fin m ↦ below degree d) (byDegree degree) where
  sorted := by
    intro i j hij
    by_contra hgt
    have hlt : rank degree (byDegree degree j) < rank degree (byDegree degree i) :=
      rank_lt_rank (.inl (Nat.lt_of_not_le hgt))
    rw [rank_byDegree, rank_byDegree] at hlt
    exact Nat.not_le_of_lt hlt hij
  lt_buckets := hlt
  heads := by
    intro d _ i
    rw [← rank_lt_below, rank_byDegree]

theorem heads_eq (sizes : List ℕ) :
    heads sizes = (List.range sizes.length).map fun i ↦ (sizes.take i).sum := by
  have hboth : sizes.foldl (fun (s : ℕ × List ℕ) size ↦ (s.1 + size, s.2 ++ [s.1])) (0, []) =
      (sizes.sum, (range sizes.length).map fun i ↦ (sizes.take i).sum) := by
    induction sizes using reverseRecOn with
    | nil => rfl
    | append_singleton sizes size ih =>
      rw [foldl_append, ih, foldl_cons, foldl_nil, sum_append,
        sum_singleton, length_append, length_singleton, range_succ,
        map_append, map_singleton, take_left]
      congr 2
      refine map_congr_left fun i hi ↦ ?_
      rw [take_append_of_le_length (mem_range.1 hi).le]
  rw [heads, hboth]

/-- The buckets begin where the nodes of lower degree end. -/
theorem heads_sizes {degree : Fin n → ℕ} (hlt : ∀ v, degree v < m) :
    ((List.ofFn degree).foldlM bump (List.replicate m 0)).map heads =
      some (List.ofFn fun d : Fin m ↦ below degree d) := by
  let bucketOf (v : Fin n) : Fin m := ⟨degree v, hlt v⟩
  have hpasses : ofFn degree = ((finRange n).map bucketOf).map Fin.val := by
    rw [ofFn_eq_map, map_map]
    rfl
  have hcount : ∀ d, (finRange n).foldl
      (fun sizes v ↦ update sizes (bucketOf v) (sizes (bucketOf v) + 1)) (fun _ ↦ 0) d =
        (Finset.univ.filter fun v ↦ bucketOf v = d).card := fun d ↦ by
    rw [Cells.foldl_count, Cells.length_filter_finRange]
  rw [hpasses, ← ofFn_const, foldlM_bump, foldl_map, funext hcount, Option.map_some,
    heads_eq, length_ofFn, ← map_coe_finRange_eq_range, map_map,
    ofFn_eq_map (f := fun d : Fin m ↦ below degree d)]
  congr 1
  refine map_congr_left fun d _ ↦ ?_
  rw [Function.comp_apply, sum_take_ofFn, below, Finset.card_eq_sum_card_fiberwise
    (f := bucketOf) (t := Finset.univ.filter fun j : Fin m ↦ (j : ℕ) < d)]
  · refine Finset.sum_congr rfl fun j hj ↦ ?_
    rw [Finset.filter_filter]
    congr 1
    ext v
    simp only [Finset.mem_filter, Finset.mem_univ, true_and] at hj ⊢
    rw [iff_and_self]
    rintro rfl
    exact hj
  · intro v hv
    rw [Finset.mem_coe, Finset.mem_filter] at hv ⊢
    exact ⟨Finset.mem_univ _, hv.2⟩

/-- The buckets, the order and the positions when the first nodes have been placed. -/
noncomputable def placed (degree : Fin n → ℕ) (count : ℕ) : List ℕ × List ℕ × List ℕ :=
  (List.ofFn fun d : Fin m ↦ below degree d +
      (Finset.univ.filter fun v : Fin n ↦ (v : ℕ) < count ∧ degree v = d).card,
    List.ofFn fun i ↦ if (byDegree degree i : ℕ) < count then (byDegree degree i : ℕ) else 0,
    List.ofFn fun v : Fin n ↦ if (v : ℕ) < count then ((byDegree degree).symm v : ℕ) else 0)

/-- One node more has been placed in its bucket. -/
theorem placed_count (degree : Fin n → ℕ) (v : Fin n) (d : ℕ) :
    (Finset.univ.filter fun u : Fin n ↦ (u : ℕ) < v + 1 ∧ degree u = d).card =
      (Finset.univ.filter fun u : Fin n ↦ (u : ℕ) < v ∧ degree u = d).card +
        if degree v = d then 1 else 0 := by
  have hsplit : (Finset.univ.filter fun u : Fin n ↦ (u : ℕ) < v + 1 ∧ degree u = d) =
      if degree v = d then
        insert v (Finset.univ.filter fun u : Fin n ↦ (u : ℕ) < v ∧ degree u = d)
      else Finset.univ.filter fun u : Fin n ↦ (u : ℕ) < v ∧ degree u = d := by
    ext u
    by_cases hu : u = v
    · subst hu
      split <;> simp_all
    · have hne : (u : ℕ) ≠ v := fun heq ↦ hu (Fin.ext heq)
      have hlt : (u : ℕ) < v + 1 ↔ (u : ℕ) < v := by omega
      split <;> simp only [Finset.mem_filter, Finset.mem_univ, true_and, Finset.mem_insert, hu, hlt,
        false_or]
  rw [hsplit]
  split
  · rw [Finset.card_insert_of_notMem (by simp)]
  · rfl

/-- **The next node is placed where it belongs.** -/
theorem place_spec {degree : Fin n → ℕ} (hlt : ∀ v, degree v < m) (v : Fin n) :
    place (List.ofFn degree) (placed (m := m) degree v) v = some (placed (m := m) degree (v + 1)) := by
  let d : Fin m := ⟨degree v, hlt v⟩
  have hnext : below degree d + (Finset.univ.filter fun u : Fin n ↦ (u : ℕ) < v ∧
      degree u = d).card = ((byDegree degree).symm v : ℕ) := by
    rw [byDegree_symm, rank, below, ← Finset.card_union_of_disjoint]
    · congr 1
      ext u
      simp only [Finset.mem_union, Finset.mem_filter, Finset.mem_univ, true_and, Fin.lt_def, d]
      omega
    · rw [Finset.disjoint_filter]
      intro u _ hbelow h
      omega
  have hfill : (ofFn fun d : Fin m ↦ below degree d + (Finset.univ.filter fun u : Fin n ↦
      (u : ℕ) < v ∧ degree u = d).card)[degree v]? = some ((byDegree degree).symm v : ℕ) := by
    rw [← hnext]
    exact read_ofFn _ d
  have hbump : bump (ofFn fun d : Fin m ↦ below degree d + (Finset.univ.filter fun u : Fin n ↦
      (u : ℕ) < v ∧ degree u = d).card) (degree v) = _ := bump_ofFn _ d
  rw [place, placed]
  simp only [read_ofFn, Option.bind_eq_bind, Option.bind_some, hfill, write_ofFn, hbump,
    Option.pure_def, placed, Option.some.injEq, Prod.mk.injEq, ofFn_inj]
  refine ⟨funext fun d' ↦ ?_, funext fun i ↦ ?_, funext fun u ↦ ?_⟩
  · have hmore := placed_count degree v d'
    by_cases hd : d' = d
    · rw [hd, update_self, ← hd, hmore, if_pos (by rw [hd]), Nat.add_assoc]
    · rw [update_of_ne hd, hmore, if_neg fun heq ↦ hd (Fin.ext heq.symm), Nat.add_zero]
  · by_cases hi : i = (byDegree degree).symm v
    · rw [hi, update_self, Equiv.apply_symm_apply, if_pos (Nat.lt_succ_self _)]
    · have hne : (byDegree degree i : ℕ) ≠ v := fun heq ↦
        hi ((byDegree degree).eq_symm_apply.2 (Fin.ext heq))
      rw [update_of_ne hi]
      split <;> split <;> first | rfl | omega
  · by_cases hu : u = v
    · rw [hu, update_self, if_pos (Nat.lt_succ_self _)]
    · have hne : (u : ℕ) ≠ v := fun heq ↦ hu (Fin.ext heq)
      rw [update_of_ne hu]
      split <;> split <;> first | rfl | omega

/-- **The nodes are placed in the order of their degrees.** -/
theorem foldlM_place {degree : Fin n → ℕ} (hlt : ∀ v, degree v < m) :
    ∀ count, count ≤ n → (List.range count).foldlM (place (List.ofFn degree))
      (List.ofFn fun d : Fin m ↦ below degree d, List.replicate n 0, List.replicate n 0) =
        some (placed (m := m) degree count) := by
  intro count
  induction count with
  | zero =>
    intro _
    have hnone : ∀ d : ℕ,
        (Finset.univ.filter fun u : Fin n ↦ (u : ℕ) < 0 ∧ degree u = d).card = 0 := fun d ↦ by simp
    simp only [range_zero, foldlM_nil, placed, hnone, Nat.add_zero]
    simp only [Nat.not_lt_zero, if_false, ofFn_const, Option.pure_def]
  | succ count ih =>
    intro hcount
    rw [range_succ, foldlM_append, ih (Nat.le_of_succ_le hcount)]
    simp only [Option.bind_eq_bind, Option.bind_some, foldlM_cons, foldlM_nil]
    rw [place_spec hlt ⟨count, hcount⟩]
    rfl

theorem placed_all (degree : Fin n → ℕ) (bucket : Fin m → ℕ) : (placed (m := m) degree n).2 =
    ((arrays degree bucket (byDegree degree)).order,
      (arrays degree bucket (byDegree degree)).position) := by
  rw [placed, arrays]
  simp only [Fin.is_lt, if_true]

/-- **`coreness` lists the core numbers**, whatever entities and relations the graph is built from:
for each node the largest `k` such that it lies in a set of nodes each having at least `k`
neighbours in the set.  It does have an answer: no index is out of bounds and no degree
underflows. -/
theorem coreness_spec (entities : List Entity) (relations : List EntityRelation) :
    ∃ cores : (build entities relations).Node → ℕ,
      (build entities relations).coreness = some (List.ofFn cores) ∧
      ∀ v, IsGreatest {k | ∃ S : Finset (build entities relations).Node, v ∈ S ∧
        ∀ u ∈ S, k ≤ (S.filter fun w ↦ w ∈ (build entities relations).adj u).card} (cores v) := by
  generalize build entities relations = graph
  let degree : graph.Node → ℕ := fun v ↦ (graph.adj v).length
  have hread : (range graph.uids.length).mapM graph.degree = some (ofFn degree) :=
    Cells.mapM_range fun v ↦ by
      rw [EntityGraph.degree, neighbours, dif_pos v.2]
      rfl
  have hdegree : ∀ v, degree v = Cores.degreeIn graph.toSimple Finset.univ v := fun v ↦ by
    have hnodup : (graph.adj v).Nodup := (graph.adj_sorted v).imp ne_of_lt
    show (graph.adj v).length = _
    rw [Cores.degreeIn, ← toFinset_card_of_nodup hnodup]
    congr 1
    ext u
    rw [mem_toFinset, Finset.mem_filter, and_iff_right (Finset.mem_univ u)]
    rfl
  have hlt : ∀ v, degree v < (ofFn degree).max?.getD 0 + 1 := fun v ↦ by
    have hmem : degree v ∈ ofFn degree := mem_ofFn.2 ⟨v, rfl⟩
    obtain ⟨most, hmost⟩ := Option.isSome_iff_exists.1 (isSome_max?_of_mem hmem)
    rw [hmost, Option.getD_some]
    exact Nat.lt_succ_of_le ((max?_eq_some_iff.1 hmost).2 _ hmem)
  obtain ⟨sizes, hsizes, hheads⟩ := Option.map_eq_some_iff.1 (heads_sizes hlt)
  obtain ⟨level, cores, bucket, order, hpeel, -, hpeeling⟩ :=
    foldlM_peel (byDegree_sorted hlt) hdegree graph.uids.length le_rfl
  have hplaced := foldlM_place hlt graph.uids.length le_rfl
  have hnone : leftFrom order graph.uids.length = ∅ := by
    ext v
    rw [mem_leftFrom]
    simp
  rw [hnone] at hpeeling
  refine ⟨cores, ?_, hpeeling.done⟩
  have hall := placed_all degree fun d : Fin ((ofFn degree).max?.getD 0 + 1) ↦ below degree d
  generalize placed degree graph.uids.length = all at hplaced hall
  obtain ⟨fill, starts⟩ := all
  obtain rfl : starts = _ := hall
  rw [coreness]
  simp only [nodeCount, hread, Option.bind_eq_bind, Option.bind_some, hsizes, hheads, hplaced]
  exact congrArg (fun s ↦ s.bind fun s ↦ pure s.degree) hpeel

end EntityGraph

end Huntsman
