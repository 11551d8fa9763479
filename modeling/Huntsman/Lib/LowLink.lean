import Huntsman.Lib.SearchForest

/-!
# A depth-first search that computes low points

The state of a search (`LowLink`) has a path of open vertices, from a root to the vertex that is
being looked from.  It makes four moves: a root is met, the edges of the last open vertex are looked
along one after the other, which meets a new vertex (`LowLink.meet`) or one that was met before
(`LowLink.look`), and a vertex with no more edges is closed (`LowLink.back`).  All four keep
`LowLink.Sound`, and a sound search that has met and closed every vertex has computed the low points
(`LowLink.Sound.lowPoints`).
-/

set_option autoImplicit false

open Function

universe u

/-- Where a search stands. -/
structure LowLink (V : Type u) where
  /-- The vertex that a vertex was met from. -/
  parent : V → Option V
  /-- When a vertex was met, zero meaning not yet. -/
  disc : V → ℕ
  low : V → ℕ
  /-- The open vertices, the last one first. -/
  path : List V
  /-- The edges that have been looked along. -/
  seen : V → V → Prop

namespace LowLink

open List

variable {V : Type u} {G : SimpleGraph V} {s : LowLink V} {v w r p : V} {rest : List V} {time : ℕ}

/-! ## What a search keeps -/

/-- The open vertices are a path, no edge that has been looked along goes across, and the low points
are right as far as edges have been looked along. -/
structure Sound (G : SimpleGraph V) (s : LowLink V) : Prop where
  adj : ∀ v p, s.parent v = some p → G.Adj v p
  earlier : ∀ v p, s.parent v = some p → s.disc p < s.disc v
  met : ∀ v p, s.parent v = some p → s.disc p ≠ 0
  chain : s.path.IsChain fun v p ↦ s.parent v = some p
  path_met : ∀ v ∈ s.path, s.disc v ≠ 0
  last : ∀ r, s.path.getLast? = some r → s.parent r = none
  seen_from : ∀ u w, s.seen u w → s.disc u ≠ 0
  seen_met : ∀ u w, s.seen u w → s.disc w ≠ 0
  across : ∀ u w, s.seen u w → Below s.parent u w ∨ Below s.parent w u
  seen_low : ∀ u w, s.seen u w → s.parent u ≠ some w → s.low u ≤ s.disc w
  closed : ∀ u w, s.disc u ≠ 0 → u ∉ s.path → G.Adj u w → s.seen u w
  low_le : ∀ v, s.low v ≤ s.disc v
  low_child : ∀ v p, s.parent v = some p → v ∉ s.path → s.low p ≤ s.low v
  attained : ∀ v, s.disc v ≠ 0 → ∃ x w, Below s.parent x v ∧
    (w = x ∨ G.Adj x w ∧ s.parent x ≠ some w) ∧ s.disc w = s.low v ∧ s.disc w ≠ 0

namespace Sound

theorem child_met (h : s.Sound G) (hp : s.parent v = some p) : s.disc v ≠ 0 :=
  ((Nat.zero_le _).trans_lt (h.earlier v p hp)).ne'

theorem parent_of_unmet (h : s.Sound G) (hv : s.disc v = 0) : s.parent v = none := by
  by_contra hsome
  obtain ⟨p, hp⟩ := Option.ne_none_iff_exists'.1 hsome
  exact h.child_met hp hv

/-- The path climbs. -/
theorem pairwise (h : s.Sound G) : s.path.Pairwise fun v p ↦ Below s.parent v p ∧ v ≠ p := by
  have htrans : IsTrans V fun v p ↦ Below s.parent v p ∧ s.disc p < s.disc v :=
    ⟨fun _ _ _ h₁ h₂ ↦ ⟨h₁.1.trans h₂.1, h₂.2.trans h₁.2⟩⟩
  have hchain : s.path.IsChain fun v p ↦ Below s.parent v p ∧ s.disc p < s.disc v :=
    h.chain.imp fun v p hp ↦ ⟨.single hp, h.earlier v p hp⟩
  refine (isChain_iff_pairwise.1 hchain).imp fun hstep ↦ ⟨hstep.1, ?_⟩
  rintro rfl
  exact lt_irrefl _ hstep.2

theorem not_mem_rest (h : s.Sound G) (hpath : s.path = v :: rest) : v ∉ rest := by
  have hpairs := h.pairwise
  rw [hpath] at hpairs
  exact fun hv ↦ (rel_of_pairwise_cons hpairs hv).2 rfl

theorem below_of_mem (h : s.Sound G) (hpath : s.path = v :: rest) (hw : w ∈ s.path) :
    Below s.parent v w := by
  have hpairs := h.pairwise
  rw [hpath] at hpairs hw
  rcases mem_cons.1 hw with rfl | hrest
  · exact .refl w
  · exact (rel_of_pairwise_cons hpairs hrest).1

/-- The parent of an open vertex is open. -/
theorem parent_mem (h : s.Sound G) (hv : v ∈ s.path) (hp : s.parent v = some p) : p ∈ s.path := by
  obtain ⟨before, after, hsplit⟩ := append_of_mem hv
  have hchain := h.chain
  rw [hsplit] at hchain ⊢
  rcases after with _ | ⟨q, after⟩
  · have hlast := h.last v (by rw [hsplit, getLast?_concat])
    cases hlast.symm.trans hp
  · have hq : s.parent v = some q := (isChain_append.1 hchain).2.1.rel
    obtain rfl := Option.some.inj (hp.symm.trans hq)
    exact mem_append_right _ (.tail _ (.head _))

theorem low_le_of_below (h : s.Sound G) (hpath : s.path = []) (hbelow : Below s.parent v w) :
    s.low w ≤ s.low v := by
  induction hbelow using Relation.ReflTransGen.head_induction_on with
  | refl => exact le_rfl
  | @head v q hq _ ih => exact ih.trans (h.low_child v q hq (hpath ▸ not_mem_nil))

/-- **A search that is over** has computed the low points. -/
theorem lowPoints (h : s.Sound G) (hpath : s.path = []) (hmet : ∀ v, s.disc v ≠ 0) :
    LowPoints G s.parent s.disc s.low := by
  have hclosed : ∀ u w, G.Adj u w → s.seen u w := fun u w hadj ↦
    h.closed u w (hmet u) (hpath ▸ not_mem_nil) hadj
  refine {
    adj := h.adj
    earlier := h.earlier
    across := fun u w hadj ↦ h.across u w (hclosed u w hadj)
    low_le := fun c x w hx hadj hparent ↦
      (h.low_le_of_below hpath hx).trans (h.seen_low x w (hclosed x w hadj) hparent)
    attained := fun c ↦ ?_ }
  obtain ⟨x, w, hx, hw, hlow, -⟩ := h.attained c (hmet c)
  exact ⟨x, w, hx, hw, hlow⟩

end Sound

/-! ## The moves -/

variable [DecidableEq V]

/-- Lower a value to another. -/
def lower (low : V → ℕ) (v : V) (n : ℕ) : V → ℕ := update low v (min (low v) n)

theorem lower_self (low : V → ℕ) (v : V) (n : ℕ) : lower low v n v = min (low v) n :=
  update_self ..

theorem lower_of_ne {low : V → ℕ} {n : ℕ} (h : w ≠ v) : lower low v n w = low w :=
  update_of_ne h ..

theorem lower_le (low : V → ℕ) (v : V) (n : ℕ) (w : V) : lower low v n w ≤ low w := by
  by_cases h : w = v
  · subst h
    rw [lower_self]
    exact min_le_left _ _
  · exact (lower_of_ne h).le

/-- A root is met. -/
def root (s : LowLink V) (r : V) (time : ℕ) : LowLink V :=
  { s with disc := update s.disc r time, low := update s.low r time, path := [r] }

/-- A new vertex is met. -/
def meet (s : LowLink V) (v w : V) (time : ℕ) : LowLink V where
  parent := update s.parent w (some v)
  disc := update s.disc w time
  low := update s.low w time
  path := w :: s.path
  seen a b := s.seen a b ∨ (a = v ∧ b = w)

/-- An edge leads to a vertex that was met before. -/
def look (s : LowLink V) (v w : V) : LowLink V :=
  { s with
    low := if s.parent v = some w then s.low else lower s.low v (s.disc w)
    seen := fun a b ↦ s.seen a b ∨ (a = v ∧ b = w) }

/-- The last open vertex is closed. -/
def back (s : LowLink V) (v : V) : LowLink V :=
  { s with
    low := match s.parent v with
      | some p => lower s.low p (s.low v)
      | none => s.low
    path := s.path.tail }

theorem look_low_of_parent (hp : s.parent v = some w) : (s.look v w).low = s.low := by
  simp only [look, if_pos hp]

theorem look_low (hp : s.parent v ≠ some w) : (s.look v w).low = lower s.low v (s.disc w) := by
  simp only [look, if_neg hp]

theorem look_low_le (s : LowLink V) (v w u : V) : (s.look v w).low u ≤ s.low u := by
  rw [look]
  split
  · exact le_rfl
  · exact lower_le ..

theorem look_low_of_ne {u : V} (h : u ≠ v) : (s.look v w).low u = s.low u := by
  simp only [look]
  split
  · rfl
  · exact lower_of_ne h

theorem back_low_of_parent (hp : s.parent v = some p) :
    (s.back v).low = lower s.low p (s.low v) := by
  simp only [back, hp]

theorem back_low_of_root (hp : s.parent v = none) : (s.back v).low = s.low := by
  simp only [back, hp]

theorem back_low_le (s : LowLink V) (v u : V) : (s.back v).low u ≤ s.low u := by
  rcases hp : s.parent v with _ | p
  · rw [back_low_of_root hp]
  · rw [back_low_of_parent hp]
    exact lower_le ..

/-! ## Every move keeps it -/

namespace Sound

theorem root (h : s.Sound G) (hpath : s.path = []) (hr : s.disc r = 0) (htime : time ≠ 0) :
    (s.root r time).Sound G := by
  have hkept : ∀ v, s.disc v ≠ 0 → update s.disc r time v = s.disc v ∧
      update s.low r time v = s.low v := by
    intro v hv
    have hne : v ≠ r := fun heq ↦ hv (heq ▸ hr)
    exact ⟨update_of_ne hne .., update_of_ne hne ..⟩
  refine {
    adj := h.adj
    earlier := fun v p hp ↦ ?_
    met := fun v p hp ↦ ?_
    chain := isChain_singleton r
    path_met := fun v hv ↦ ?_
    last := fun r' hr' ↦ ?_
    seen_from := fun u w hseen ↦ ?_
    seen_met := fun u w hseen ↦ ?_
    across := h.across
    seen_low := fun u w hseen hne ↦ ?_
    closed := fun u w hu hout hadj ↦ ?_
    low_le := fun v ↦ ?_
    low_child := fun v p hp _ ↦ ?_
    attained := fun v hv ↦ ?_ }
  · simp only [LowLink.root, (hkept p (h.met v p hp)).1, (hkept v (h.child_met hp)).1]
    exact h.earlier v p hp
  · simp only [LowLink.root, (hkept p (h.met v p hp)).1]
    exact h.met v p hp
  · obtain rfl := mem_singleton.1 hv
    simpa only [LowLink.root, update_self] using htime
  · obtain rfl : r = r' := Option.some.inj hr'
    exact h.parent_of_unmet hr
  · simp only [LowLink.root, (hkept u (h.seen_from u w hseen)).1]
    exact h.seen_from u w hseen
  · simp only [LowLink.root, (hkept w (h.seen_met u w hseen)).1]
    exact h.seen_met u w hseen
  · simp only [LowLink.root, (hkept w (h.seen_met u w hseen)).1,
      (hkept u (h.seen_from u w hseen)).2]
    exact h.seen_low u w hseen hne
  · have hne : u ≠ r := fun heq ↦ hout (heq ▸ mem_singleton_self r)
    simp only [LowLink.root, update_of_ne hne] at hu
    exact h.closed u w hu (hpath ▸ not_mem_nil) hadj
  · by_cases hv : v = r
    · subst hv
      simp only [LowLink.root, update_self, le_refl]
    · simp only [LowLink.root, update_of_ne hv]
      exact h.low_le v
  · simp only [LowLink.root, (hkept p (h.met v p hp)).2, (hkept v (h.child_met hp)).2]
    exact h.low_child v p hp (hpath ▸ not_mem_nil)
  · by_cases hvr : v = r
    · subst hvr
      refine ⟨v, v, .refl v, .inl rfl, ?_, hv⟩
      simp only [LowLink.root, update_self]
    · simp only [LowLink.root, update_of_ne hvr] at hv ⊢
      obtain ⟨x, w, hx, hw, hlow, hmet⟩ := h.attained v hv
      exact ⟨x, w, hx, hw, (hkept w hmet).1.trans hlow, (hkept w hmet).1 ▸ hmet⟩

theorem meet (h : s.Sound G) (hpath : s.path = v :: rest) (hadj : G.Adj v w) (hw : s.disc w = 0)
    (htime : ∀ u, s.disc u < time) : (s.meet v w time).Sound G := by
  have hv : s.disc v ≠ 0 := h.path_met v (hpath ▸ (.head _))
  have hne : ∀ u, s.disc u ≠ 0 → u ≠ w := fun u hu heq ↦ hu (heq ▸ hw)
  have hkept : ∀ u, s.disc u ≠ 0 → update s.disc w time u = s.disc u ∧
      update s.low w time u = s.low u ∧ update s.parent w (some v) u = s.parent u := fun u hu ↦
    ⟨update_of_ne (hne u hu) .., update_of_ne (hne u hu) .., update_of_ne (hne u hu) ..⟩
  have hparents : ∀ u p, s.parent u = some p → update s.parent w (some v) u = some p := by
    intro u p hp
    rw [(hkept u (h.child_met hp)).2.2, hp]
  -- The new vertex is below `v`, and all others have the parents they had.
  have hcases : ∀ u p, update s.parent w (some v) u = some p →
      (u = w ∧ p = v) ∨ (u ≠ w ∧ s.parent u = some p) := by
    intro u p hp
    by_cases hu : u = w
    · subst hu
      rw [update_self] at hp
      exact .inl ⟨rfl, (Option.some.inj hp).symm⟩
    · rw [update_of_ne hu] at hp
      exact .inr ⟨hu, hp⟩
  refine {
    adj := fun u p hp ↦ ?_
    earlier := fun u p hp ↦ ?_
    met := fun u p hp ↦ ?_
    chain := ?_
    path_met := fun u hu ↦ ?_
    last := fun r hr ↦ ?_
    seen_from := fun a b hseen ↦ ?_
    seen_met := fun a b hseen ↦ ?_
    across := fun a b hseen ↦ ?_
    seen_low := fun a b hseen hparent ↦ ?_
    closed := fun a b ha hout hab ↦ ?_
    low_le := fun u ↦ ?_
    low_child := fun u p hp hout ↦ ?_
    attained := fun u hu ↦ ?_ }
  · rcases hcases u p hp with ⟨rfl, rfl⟩ | ⟨-, hp⟩
    · exact hadj.symm
    · exact h.adj u p hp
  · rcases hcases u p hp with ⟨rfl, rfl⟩ | ⟨-, hp⟩
    · simp only [LowLink.meet, update_self, (hkept p hv).1]
      exact htime p
    · simp only [LowLink.meet, (hkept p (h.met u p hp)).1, (hkept u (h.child_met hp)).1]
      exact h.earlier u p hp
  · rcases hcases u p hp with ⟨rfl, rfl⟩ | ⟨-, hp⟩
    · simp only [LowLink.meet, (hkept p hv).1]
      exact hv
    · simp only [LowLink.meet, (hkept p (h.met u p hp)).1]
      exact h.met u p hp
  · have hchain := h.chain.imp hparents
    simp only [LowLink.meet]
    rw [hpath] at hchain ⊢
    exact isChain_cons_cons.2 ⟨update_self .., hchain⟩
  · rcases mem_cons.1 hu with rfl | hu
    · simp only [LowLink.meet, update_self]
      exact ((Nat.zero_le _).trans_lt (htime v)).ne'
    · have hmet := h.path_met u hu
      simpa only [LowLink.meet, (hkept u hmet).1] using hmet
  · simp only [LowLink.meet] at hr ⊢
    rw [hpath, getLast?_cons_cons, ← hpath] at hr
    have hmet := h.path_met r (mem_of_getLast? hr)
    exact (hkept r hmet).2.2.trans (h.last r hr)
  · rcases hseen with hseen | ⟨rfl, rfl⟩
    · have hmet := h.seen_from a b hseen
      simpa only [LowLink.meet, (hkept a hmet).1] using hmet
    · simpa only [LowLink.meet, (hkept a hv).1] using hv
  · rcases hseen with hseen | ⟨rfl, rfl⟩
    · have hmet := h.seen_met a b hseen
      simpa only [LowLink.meet, (hkept b hmet).1] using hmet
    · simp only [LowLink.meet, update_self]
      exact ((Nat.zero_le _).trans_lt (htime a)).ne'
  · rcases hseen with hseen | ⟨rfl, rfl⟩
    · exact (h.across a b hseen).imp (Below.mono hparents) (Below.mono hparents)
    · exact .inr (.single (update_self ..))
  · rcases hseen with hseen | ⟨rfl, rfl⟩
    · have ha := hkept a (h.seen_from a b hseen)
      simp only [LowLink.meet, ha.2.2] at hparent
      simp only [LowLink.meet, ha.2.1, (hkept b (h.seen_met a b hseen)).1]
      exact h.seen_low a b hseen hparent
    · simp only [LowLink.meet, (hkept a hv).2.1, update_self]
      exact (h.low_le a).trans (htime a).le
  · simp only [LowLink.meet, mem_cons, not_or] at hout ha
    rw [update_of_ne hout.1] at ha
    exact .inl (h.closed a b ha hout.2 hab)
  · by_cases hu : u = w
    · subst hu
      simp only [LowLink.meet, update_self, le_refl]
    · simp only [LowLink.meet, update_of_ne hu]
      exact h.low_le u
  · simp only [LowLink.meet, mem_cons, not_or] at hout
    have hp := ((hcases u p hp).resolve_left fun hnew ↦ hout.1 hnew.1).2
    simp only [LowLink.meet, (hkept p (h.met u p hp)).2.1, (hkept u (h.child_met hp)).2.1]
    exact h.low_child u p hp hout.2
  · by_cases huw : u = w
    · subst huw
      refine ⟨u, u, .refl u, .inl rfl, ?_, hu⟩
      simp only [LowLink.meet, update_self]
    · simp only [LowLink.meet, update_of_ne huw] at hu ⊢
      obtain ⟨x, y, hx, hy, hlow, hmet⟩ := h.attained u hu
      have hxw : x ≠ w := by
        rintro rfl
        exact huw (hx.eq_of_root (h.parent_of_unmet hw))
      refine ⟨x, y, hx.mono hparents, ?_, (hkept y hmet).1.trans hlow, (hkept y hmet).1 ▸ hmet⟩
      rw [update_of_ne hxw]
      exact hy

theorem look (h : s.Sound G) (hpath : s.path = v :: rest) (hadj : G.Adj v w) (hw : s.disc w ≠ 0) :
    (s.look v w).Sound G := by
  have hvpath : v ∈ s.path := hpath ▸ (.head _)
  refine {
    adj := h.adj
    earlier := h.earlier
    met := h.met
    chain := h.chain
    path_met := h.path_met
    last := h.last
    seen_from := fun a b hseen ↦ ?_
    seen_met := fun a b hseen ↦ ?_
    across := fun a b hseen ↦ ?_
    seen_low := fun a b hseen hparent ↦ ?_
    closed := fun a b ha hout hab ↦ .inl (h.closed a b ha hout hab)
    low_le := fun u ↦ (look_low_le s v w u).trans (h.low_le u)
    low_child := fun u p hp hout ↦ ?_
    attained := fun u hu ↦ ?_ }
  · rcases hseen with hseen | ⟨rfl, rfl⟩
    · exact h.seen_from a b hseen
    · exact h.path_met a hvpath
  · rcases hseen with hseen | ⟨rfl, rfl⟩
    · exact h.seen_met a b hseen
    · exact hw
  · rcases hseen with hseen | ⟨rfl, rfl⟩
    · exact h.across a b hseen
    · by_cases hopen : b ∈ s.path
      · exact .inl (h.below_of_mem hpath hopen)
      · exact (h.across b a (h.closed b a hw hopen hadj.symm)).symm
  · rcases hseen with hseen | ⟨rfl, rfl⟩
    · exact (look_low_le s v w a).trans (h.seen_low a b hseen hparent)
    · have hparent : s.parent a ≠ some b := hparent
      simp only [LowLink.look, if_neg hparent, lower_self]
      exact min_le_right _ _
  · have hne : u ≠ v := fun heq ↦ hout (heq ▸ hvpath)
    rw [look_low_of_ne hne]
    exact (look_low_le s v w p).trans (h.low_child u p hp hout)
  · have hold := h.attained u hu
    by_cases hchange : u = v ∧ s.parent v ≠ some w ∧ s.disc w < s.low v
    · obtain ⟨rfl, hparent, hlt⟩ := hchange
      refine ⟨u, w, .refl u, .inr ⟨hadj, hparent⟩, ?_, hw⟩
      simp only [LowLink.look, if_neg hparent, lower_self, min_eq_right hlt.le]
    · have hsame : (s.look v w).low u = s.low u := by
        by_cases huv : u = v
        · subst huv
          simp only [LowLink.look]
          split
          · rfl
          · rename_i hparent
            have hge := not_lt.1 fun hlt ↦ hchange ⟨rfl, hparent, hlt⟩
            rw [lower_self, min_eq_left hge]
        · exact look_low_of_ne huv
      rw [hsame]
      exact hold

/-- The parent of a vertex that is closed stays open, so that no low point of a closed vertex
changes. -/
theorem back_low (h : s.Sound G) (hpath : s.path = v :: rest) (hw : w ∉ rest) :
    (s.back v).low w = s.low w := by
  rcases hp : s.parent v with _ | p
  · rw [back_low_of_root hp]
  · rw [back_low_of_parent hp]
    refine lower_of_ne ?_
    rintro rfl
    have hopen := h.parent_mem (hpath ▸ (.head _)) hp
    rw [hpath] at hopen
    have heq : w = v := (mem_cons.1 hopen).resolve_right hw
    subst heq
    exact lt_irrefl _ (h.earlier w w hp)

theorem back (h : s.Sound G) (hpath : s.path = v :: rest) (hseen : ∀ w, G.Adj v w → s.seen v w) :
    (s.back v).Sound G := by
  have htail : (s.back v).path = rest := by rw [LowLink.back, hpath, tail_cons]
  have hsub : ∀ u ∈ rest, u ∈ s.path := fun u hu ↦ hpath ▸ .tail _ hu
  have hvpath : v ∈ s.path := hpath ▸ (.head _)
  have hout : ∀ u, u ∉ rest → u ≠ v → u ∉ s.path := fun u hu hne hmem ↦ by
    rw [hpath] at hmem
    exact hu ((mem_cons.1 hmem).resolve_left hne)
  have hclosed : ∀ u, u ∉ rest → (s.back v).low u = s.low u := fun u hu ↦ h.back_low hpath hu
  refine {
    adj := h.adj
    earlier := h.earlier
    met := h.met
    chain := ?_
    path_met := fun u hu ↦ h.path_met u (hsub u (htail ▸ hu))
    last := fun r hr ↦ ?_
    seen_from := h.seen_from
    seen_met := h.seen_met
    across := h.across
    seen_low := fun a b hab hparent ↦ (back_low_le s v a).trans (h.seen_low a b hab hparent)
    closed := fun a b ha hna hab ↦ ?_
    low_le := fun u ↦ (back_low_le s v u).trans (h.low_le u)
    low_child := fun u p hp hu ↦ ?_
    attained := fun u hu ↦ ?_ }
  · have hchain := h.chain
    rw [hpath] at hchain
    rw [htail]
    exact hchain.tail
  · rw [htail] at hr
    refine h.last r ?_
    rw [hpath, getLast?_cons, hr]
    rfl
  · rw [htail] at hna
    by_cases hav : a = v
    · exact hav ▸ hseen b (hav ▸ hab)
    · exact h.closed a b ha (hout a hna hav) hab
  · rw [htail] at hu
    rw [hclosed u hu]
    by_cases huv : u = v
    · subst huv
      have hp : s.parent u = some p := hp
      rw [back_low_of_parent hp, lower_self]
      exact min_le_right _ _
    · exact (back_low_le s v p).trans (h.low_child u p hp (hout u hu huv))
  · by_cases hchange : s.parent v = some u ∧ s.low v < s.low u
    · obtain ⟨hp, hlt⟩ := hchange
      obtain ⟨x, w, hx, hw, hlow, hmet⟩ := h.attained v (h.path_met v hvpath)
      refine ⟨x, w, hx.trans (.single hp), hw, ?_, hmet⟩
      rw [back_low_of_parent hp, lower_self, min_eq_right hlt.le]
      exact hlow
    · have hsame : (s.back v).low u = s.low u := by
        rcases hp : s.parent v with _ | p
        · rw [back_low_of_root hp]
        · rw [back_low_of_parent hp]
          by_cases hup : u = p
          · subst hup
            rw [lower_self, min_eq_left (not_lt.1 fun hlt ↦ hchange ⟨hp, hlt⟩)]
          · exact lower_of_ne hup
      rw [hsame]
      exact h.attained u hu

end Sound

/-! ## What is settled stays settled -/

/-- A child that has been closed, and its parent. -/
def Done (s : LowLink V) (c p : V) : Prop := s.parent c = some p ∧ c ∉ s.path

/-- Of what has been closed nothing changes. -/
def Keeps (s s' : LowLink V) : Prop :=
  ∀ c p, s.Done c p → s'.disc p = s.disc p ∧ s'.low c = s.low c ∧ s'.parent p = s.parent p

namespace Sound

theorem keeps_root (h : s.Sound G) (hr : s.disc r = 0) : s.Keeps (s.root r time) := by
  intro c p hdone
  have hp : p ≠ r := fun heq ↦ h.met c p hdone.1 (heq ▸ hr)
  have hc : c ≠ r := fun heq ↦ h.child_met hdone.1 (heq ▸ hr)
  exact ⟨update_of_ne hp .., update_of_ne hc .., rfl⟩

theorem done_root (h : s.Sound G) (hpath : s.path = []) (hr : s.disc r = 0) (c p : V) :
    (s.root r time).Done c p ↔ s.Done c p := by
  refine and_congr_right fun hp ↦ iff_of_true ?_ (hpath ▸ not_mem_nil)
  have hc : c ≠ r := fun heq ↦ h.child_met hp (heq ▸ hr)
  exact fun hmem ↦ hc (mem_singleton.1 hmem)

theorem keeps_meet (h : s.Sound G) (hw : s.disc w = 0) : s.Keeps (s.meet v w time) := by
  intro c p hdone
  have hp : p ≠ w := fun heq ↦ h.met c p hdone.1 (heq ▸ hw)
  have hc : c ≠ w := fun heq ↦ h.child_met hdone.1 (heq ▸ hw)
  exact ⟨update_of_ne hp .., update_of_ne hc .., update_of_ne hp ..⟩

theorem done_meet (h : s.Sound G) (hw : s.disc w = 0) (c p : V) :
    (s.meet v w time).Done c p ↔ s.Done c p := by
  by_cases hc : c = w
  · subst hc
    refine iff_of_false (fun hdone ↦ hdone.2 (.head _)) fun hdone ↦ ?_
    exact h.child_met hdone.1 hw
  · simp only [Done, LowLink.meet, update_of_ne hc, mem_cons, not_or]
    exact and_congr_right fun _ ↦ and_iff_right hc

theorem keeps_look (h : v ∈ s.path) : s.Keeps (s.look v w) := by
  intro c p hdone
  have hc : c ≠ v := fun heq ↦ hdone.2 (heq ▸ h)
  exact ⟨rfl, look_low_of_ne hc, rfl⟩

theorem keeps_back (h : s.Sound G) (hpath : s.path = v :: rest) : s.Keeps (s.back v) := by
  intro c p hdone
  have hc : c ∉ rest := fun hmem ↦ hdone.2 (hpath ▸ .tail _ hmem)
  exact ⟨rfl, h.back_low hpath hc, rfl⟩

theorem done_back (h : s.Sound G) (hpath : s.path = v :: rest) (c p : V) :
    (s.back v).Done c p ↔ s.Done c p ∨ (c = v ∧ s.parent v = some p) := by
  have hv := h.not_mem_rest hpath
  simp only [Done, LowLink.back, hpath, tail_cons, mem_cons, not_or]
  by_cases hc : c = v
  · subst hc
    exact ⟨fun hdone ↦ .inr ⟨rfl, hdone.1⟩, fun hor ↦ hor.elim (fun hdone ↦ absurd rfl hdone.2.1)
      fun hnew ↦ ⟨hnew.2, hv⟩⟩
  · exact ⟨fun hdone ↦ .inl ⟨hdone.1, hc, hdone.2⟩,
      fun hor ↦ hor.elim (fun hdone ↦ ⟨hdone.1, hdone.2.2⟩) fun hnew ↦ absurd hnew.1 hc⟩

end Sound

end LowLink
