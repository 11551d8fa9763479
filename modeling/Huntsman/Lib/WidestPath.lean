import Mathlib.Data.Multiset.AddSub
import Mathlib.Data.Prod.Lex

/-!
# Widest paths, best first

A `Net` is a graph whose edges have widths.  A path is as wide as its narrowest edge, and of two
paths the better one is the wider, or the shallower if they are equally wide (`Net.key`).

A search from a start looks at paths best first.  It takes a path that is waiting, one that no other
waiting path is better than, and either leaves it or puts all its continuations to nodes it does not
visit among those that wait.  It may leave a path that is as deep as the search goes, or one whose
last node it has already gone on from on a path as shallow.  `Search.Step` is such a step.

Every path is matched by one that was taken, as wide and as shallow, to the same node
(`Search.Inv.matched`), and the first path taken to a node is the best there is
(`Search.Inv.first_best`).
-/

set_option autoImplicit false

/-- A graph whose edges have widths. -/
structure Net (V E W : Type*) where
  /-- The edges at a node, each with the node it leads to. -/
  hops : V → List (E × V)
  width : E → W
  /-- How wide the path is that takes no edge. -/
  top : W

namespace Net

open List

variable {V E W : Type*}

/-! ## Paths

A path is the list of its hops, the last one first. -/

/-- The node a path ends at. -/
def last (start : V) : List (E × V) → V
  | [] => start
  | hop :: _ => hop.2

/-- The nodes a path visits, the last one first. -/
def nodes (start : V) (p : List (E × V)) : List V := p.map Prod.snd ++ [start]

/-- A path that visits no node twice. -/
inductive IsPath (net : Net V E W) (start : V) : List (E × V) → Prop where
  | nil : IsPath net start []
  | cons {p : List (E × V)} {hop : E × V} (path : IsPath net start p)
      (mem : hop ∈ net.hops (last start p)) (fresh : hop.2 ∉ nodes start p) :
      IsPath net start (hop :: p)

theorem nodes_cons {start : V} {p : List (E × V)} {hop : E × V} :
    nodes start (hop :: p) = hop.2 :: nodes start p := rfl

theorem nodes_eq_cons (start : V) (p : List (E × V)) :
    nodes start p = last start p :: (nodes start p).tail := by
  cases p <;> rfl

/-- Where a path has been, a part of it ends. -/
theorem exists_suffix {start v : V} {p : List (E × V)} (hv : v ∈ nodes start p) :
    ∃ q, q <:+ p ∧ last start q = v := by
  induction p with
  | nil => exact ⟨[], suffix_refl [], (mem_singleton.1 hv).symm⟩
  | cons hop p ih =>
    rw [nodes_cons, mem_cons] at hv
    rcases hv with rfl | hv
    · exact ⟨hop :: p, suffix_refl _, rfl⟩
    · obtain ⟨q, hq, hlast⟩ := ih hv
      exact ⟨q, hq.trans (suffix_cons hop p), hlast⟩

section Width

variable [LinearOrder W] (net : Net V E W)

/-- How wide a path is: as wide as its narrowest edge. -/
def pathWidth (p : List (E × V)) : W := p.foldr (fun hop narrowest ↦ narrowest ⊓ net.width hop.1) net.top

/-- What paths are judged by: width first, and then depth, the less the better. -/
def key (p : List (E × V)) : W ×ₗ ℕᵒᵈ := toLex (net.pathWidth p, OrderDual.toDual p.length)

variable {net}

@[simp] theorem pathWidth_nil : net.pathWidth [] = net.top := rfl

@[simp] theorem pathWidth_cons {hop : E × V} {p : List (E × V)} :
    net.pathWidth (hop :: p) = net.pathWidth p ⊓ net.width hop.1 := rfl

theorem pathWidth_suffix {p q : List (E × V)} (h : q <:+ p) : net.pathWidth p ≤ net.pathWidth q := by
  induction p with
  | nil => rw [suffix_nil.1 h]
  | cons hop p ih =>
    rcases suffix_cons_iff.1 h with rfl | h
    · exact le_refl _
    · exact inf_le_left.trans (ih h)

theorem key_le_iff {p q : List (E × V)} : net.key p ≤ net.key q ↔
    net.pathWidth p < net.pathWidth q ∨ net.pathWidth p = net.pathWidth q ∧ q.length ≤ p.length :=
  Prod.Lex.toLex_le_toLex

theorem pathWidth_le_of_key {p q : List (E × V)} (h : net.key p ≤ net.key q) :
    net.pathWidth p ≤ net.pathWidth q :=
  (key_le_iff.1 h).elim le_of_lt fun h ↦ h.1.le

/-- A path that is as wide and as shallow as another is as good. -/
theorem key_le_of_le {p q : List (E × V)} (hwidth : net.pathWidth p ≤ net.pathWidth q)
    (hdepth : q.length ≤ p.length) : net.key p ≤ net.key q :=
  key_le_iff.2 (hwidth.lt_or_eq.imp_right fun h ↦ ⟨h, hdepth⟩)

theorem key_cons_le (hop : E × V) (p : List (E × V)) : net.key (hop :: p) ≤ net.key p :=
  key_le_of_le inf_le_left (Nat.le_succ _)

/-- One of the best paths from a node to another that take at most so many edges. -/
structure IsBest (net : Net V E W) (start : V) (maxDepth : ℕ) (v : V) (p : List (E × V)) : Prop where
  path : net.IsPath start p
  depth : p.length ≤ maxDepth
  last : last start p = v
  /-- No other is wider. -/
  widest : ∀ q, net.IsPath start q → q.length ≤ maxDepth → Net.last start q = v →
    net.pathWidth q ≤ net.pathWidth p
  /-- None that is as wide takes fewer edges. -/
  shallowest : ∀ q, net.IsPath start q → q.length ≤ maxDepth → Net.last start q = v →
    net.pathWidth q = net.pathWidth p → p.length ≤ q.length

theorem IsBest.of_key {start v : V} {maxDepth : ℕ} {p : List (E × V)} (path : net.IsPath start p)
    (depth : p.length ≤ maxDepth) (hlast : Net.last start p = v)
    (hbest : ∀ q, net.IsPath start q → q.length ≤ maxDepth → Net.last start q = v →
      net.key q ≤ net.key p) : net.IsBest start maxDepth v p where
  path := path
  depth := depth
  last := hlast
  widest := fun q hq hdepth hv ↦ pathWidth_le_of_key (hbest q hq hdepth hv)
  shallowest := fun q hq hdepth hv heq ↦
    ((key_le_iff.1 (hbest q hq hdepth hv)).resolve_left heq.not_lt).2

end Width

/-! ## The search -/

/-- How far a search has come. -/
structure Search (V E : Type*) where
  /-- The paths taken, in the order in which they were. -/
  taken : List (List (E × V))
  /-- The paths that wait. -/
  waiting : Multiset (List (E × V))
  /-- The paths taken whose continuations were put among those that wait. -/
  expanded : List (List (E × V))

namespace Search

/-- The search that has taken nothing yet. -/
def init : Search V E := ⟨[], {[]}, []⟩

section Taken

variable {s : Search V E} {p q : List (E × V)} {rest more : Multiset (List (E × V))}

theorem taken_or_waiting (hwaits : s.waiting = p ::ₘ rest) (h : q ∈ s.taken ∨ q ∈ s.waiting) :
    q ∈ s.taken ++ [p] ∨ q ∈ more + rest := by
  rw [hwaits, Multiset.mem_cons] at h
  rw [mem_append, mem_singleton, Multiset.mem_add]
  rcases h with h | h | h
  · exact .inl (.inl h)
  · exact .inl (.inr h)
  · exact .inr (.inr h)

theorem of_taken_or_waiting (hwaits : s.waiting = p ::ₘ rest)
    (h : q ∈ s.taken ++ [p] ∨ q ∈ more + rest) : (q ∈ s.taken ∨ q ∈ s.waiting) ∨ q ∈ more := by
  rw [mem_append, mem_singleton, Multiset.mem_add] at h
  rw [hwaits, Multiset.mem_cons]
  rcases h with (h | h) | (h | h)
  · exact .inl (.inl h)
  · exact .inl (.inr (.inl h))
  · exact .inr h
  · exact .inl (.inr (.inr h))

end Taken

variable [DecidableEq V]

/-- The continuations of a path. -/
def continuations (net : Net V E W) (start : V) (p : List (E × V)) : List (List (E × V)) :=
  ((net.hops (last start p)).filter fun hop ↦ hop.2 ∉ nodes start p).map (· :: p)

variable [LinearOrder W]

/-- One step of a search. -/
inductive Step (net : Net V E W) (start : V) (maxDepth : ℕ) : Search V E → Search V E → Prop where
  /-- Take a path, and leave it. -/
  | leave {s : Search V E} {p : List (E × V)} {rest : Multiset (List (E × V))}
      (waits : s.waiting = p ::ₘ rest) (best : ∀ q ∈ rest, net.key q ≤ net.key p)
      (may : maxDepth ≤ p.length ∨
        ∃ q ∈ s.expanded, last start q = last start p ∧ q.length ≤ p.length) :
      Step net start maxDepth s ⟨s.taken ++ [p], rest, s.expanded⟩
  /-- Take a path, and put its continuations among those that wait. -/
  | expand {s : Search V E} {p : List (E × V)} {rest : Multiset (List (E × V))}
      (waits : s.waiting = p ::ₘ rest) (best : ∀ q ∈ rest, net.key q ≤ net.key p)
      (shallow : p.length < maxDepth) :
      Step net start maxDepth s
        ⟨s.taken ++ [p], Multiset.ofList (continuations net start p) + rest, s.expanded ++ [p]⟩

variable {net : Net V E W} {start : V} {maxDepth : ℕ} {s s' : Search V E}

/-- What a search keeps. -/
structure Inv (net : Net V E W) (start : V) (maxDepth : ℕ) (s : Search V E) : Prop where
  root : [] ∈ s.taken ∨ [] ∈ s.waiting
  paths : ∀ p, p ∈ s.taken ∨ p ∈ s.waiting → net.IsPath start p ∧ p.length ≤ maxDepth
  /-- What a path continues was taken. -/
  parents : ∀ hop p, hop :: p ∈ s.taken ∨ hop :: p ∈ s.waiting → p ∈ s.taken
  /-- The better a path, the sooner it is taken. -/
  sorted : s.taken.Pairwise fun p q ↦ net.key q ≤ net.key p
  below : ∀ p ∈ s.taken, ∀ q ∈ s.waiting, net.key q ≤ net.key p
  expanded : ∀ p ∈ s.expanded, ∀ q ∈ continuations net start p, q ∈ s.taken ∨ q ∈ s.waiting
  expanded_taken : ∀ p ∈ s.expanded, p ∈ s.taken
  /-- A path that was left has a better one to its last node that was gone on from. -/
  covered : ∀ p ∈ s.taken, p.length < maxDepth → ∃ q ∈ s.expanded,
    last start q = last start p ∧ q.length ≤ p.length ∧ net.key p ≤ net.key q

omit [LinearOrder W] in
theorem mem_continuations {p q : List (E × V)} :
    q ∈ continuations net start p ↔
      ∃ hop ∈ net.hops (last start p), hop.2 ∉ nodes start p ∧ q = hop :: p := by
  simp only [continuations, mem_map, mem_filter, decide_eq_true_eq, and_assoc]
  exact exists_congr fun hop ↦ and_congr_right fun _ ↦ and_congr_right fun _ ↦ eq_comm

theorem Inv.init : Inv net start maxDepth (init : Search V E) where
  root := .inr (Multiset.mem_singleton_self _)
  paths := by
    rintro p (hp | hp)
    · cases hp
    · rw [Multiset.mem_singleton.1 hp]
      exact ⟨.nil, Nat.zero_le _⟩
  parents := by
    rintro hop p (hp | hp)
    · cases hp
    · exact absurd (Multiset.mem_singleton.1 hp) (cons_ne_nil _ _)
  sorted := List.Pairwise.nil
  below := nofun
  expanded := nofun
  expanded_taken := nofun
  covered := nofun

/-- What was known is known when one of the paths that wait has been taken, and some of its
continuations wait instead. -/
theorem Inv.take (h : Inv net start maxDepth s) {p : List (E × V)}
    {rest more : Multiset (List (E × V))} {expanded : List (List (E × V))}
    (hwaits : s.waiting = p ::ₘ rest) (hbest : ∀ q ∈ rest, net.key q ≤ net.key p)
    (hmore : ∀ q ∈ more, ∃ hop, q = hop :: p ∧ net.IsPath start q ∧ q.length ≤ maxDepth)
    (hkept : ∀ q ∈ s.expanded, q ∈ expanded)
    (hexpanded : ∀ q ∈ expanded, q ∈ s.expanded ∨ q = p ∧ ∀ r ∈ continuations net start p, r ∈ more)
    (hcovered : p.length < maxDepth → ∃ q ∈ expanded,
      last start q = last start p ∧ q.length ≤ p.length ∧ net.key p ≤ net.key q) :
    Inv net start maxDepth ⟨s.taken ++ [p], more + rest, expanded⟩ where
  root := taken_or_waiting hwaits h.root
  paths := by
    intro q hq
    rcases of_taken_or_waiting hwaits hq with hq | hq
    · exact h.paths q hq
    · obtain ⟨hop, -, hpath⟩ := hmore q hq
      exact hpath
  parents := by
    intro hop q hq
    rcases of_taken_or_waiting hwaits hq with hq | hq
    · exact mem_append_left _ (h.parents hop q hq)
    · obtain ⟨hop', heq, -⟩ := hmore _ hq
      rw [(cons.inj heq).2]
      exact mem_append_right _ (mem_singleton_self p)
  sorted := by
    refine pairwise_append.2 ⟨h.sorted, pairwise_singleton _ _, fun q hq r hr ↦ ?_⟩
    rw [mem_singleton.1 hr]
    exact h.below q hq p (hwaits ▸ Multiset.mem_cons_self p rest)
  below := by
    intro q hq r hr
    have hp : ∀ t ∈ s.taken, net.key p ≤ net.key t := fun t ht ↦
      h.below t ht p (hwaits ▸ Multiset.mem_cons_self p rest)
    have hqp : net.key p ≤ net.key q := by
      rcases mem_append.1 hq with hq | hq
      · exact hp q hq
      · rw [mem_singleton.1 hq]
    refine le_trans ?_ hqp
    rcases Multiset.mem_add.1 hr with hr | hr
    · obtain ⟨hop, rfl, -⟩ := hmore r hr
      exact key_cons_le hop p
    · exact hbest r hr
  expanded := by
    intro q hq r hr
    rcases hexpanded q hq with hq | ⟨rfl, hnew⟩
    · exact taken_or_waiting hwaits (h.expanded q hq r hr)
    · exact .inr (Multiset.mem_add.2 (.inl (hnew r hr)))
  expanded_taken := by
    intro q hq
    rcases hexpanded q hq with hq | ⟨rfl, -⟩
    · exact mem_append_left _ (h.expanded_taken q hq)
    · exact mem_append_right _ (mem_singleton_self q)
  covered := by
    intro q hq hdepth
    rcases mem_append.1 hq with hq | hq
    · obtain ⟨r, hr, hcovers⟩ := h.covered q hq hdepth
      exact ⟨r, hkept r hr, hcovers⟩
    · obtain rfl := mem_singleton.1 hq
      exact hcovered hdepth

/-- **A step keeps what is known of a search.** -/
theorem Inv.step (h : Inv net start maxDepth s) (hstep : Step net start maxDepth s s') :
    Inv net start maxDepth s' := by
  cases hstep with
  | @leave p rest hwaits hbest hmay =>
    have htake : Inv net start maxDepth ⟨s.taken ++ [p], 0 + rest, s.expanded⟩ :=
      h.take hwaits hbest (fun q hq ↦ absurd hq (Multiset.notMem_zero q)) (fun q hq ↦ hq)
        (fun q hq ↦ .inl hq) fun hdepth ↦ ?_
    · rwa [Multiset.zero_add] at htake
    obtain ⟨q, hq, hlast, hle⟩ := hmay.resolve_left (Nat.not_le.2 hdepth)
    exact ⟨q, hq, hlast, hle,
      h.below q (h.expanded_taken q hq) p (hwaits ▸ Multiset.mem_cons_self p rest)⟩
  | @expand p rest hwaits hbest hdepth =>
    have hp := (h.paths p (.inr (hwaits ▸ Multiset.mem_cons_self p rest))).1
    refine h.take hwaits hbest (fun q hq ↦ ?_) (fun q hq ↦ mem_append_left _ hq)
      (fun q hq ↦ ?_)
      fun _ ↦ ⟨p, mem_append_right _ (mem_singleton_self p), rfl, le_rfl, le_refl _⟩
    · obtain ⟨hop, hmem, hfresh, rfl⟩ := mem_continuations.1 (Multiset.mem_coe.1 hq)
      exact ⟨hop, rfl, hp.cons hmem hfresh, hdepth⟩
    · rcases mem_append.1 hq with hq | hq
      · exact .inl hq
      · exact .inr ⟨mem_singleton.1 hq, fun r hr ↦ Multiset.mem_coe.2 hr⟩

/-! ## What a search finds -/

theorem Inv.suffix_taken (h : Inv net start maxDepth s) {p q : List (E × V)} (hp : p ∈ s.taken)
    (hq : q <:+ p) : q ∈ s.taken := by
  induction p with
  | nil => exact suffix_nil.1 hq ▸ hp
  | cons hop p ih =>
    rcases suffix_cons_iff.1 hq with rfl | hq
    · exact hp
    · exact ih (h.parents hop p (.inl hp)) hq

/-- **Every path is matched** by one that was taken, or one that waits is as good.  When the path
that was gone on from has already visited the next node, it is its part up to that node that
matches. -/
theorem Inv.matched (h : Inv net start maxDepth s) {p : List (E × V)} (hp : net.IsPath start p)
    (hdepth : p.length ≤ maxDepth) :
    (∃ q ∈ s.taken, last start q = last start p ∧ net.pathWidth p ≤ net.pathWidth q ∧
      q.length ≤ p.length) ∨ ∃ q ∈ s.waiting, net.key p ≤ net.key q := by
  induction hp with
  | nil =>
    rcases h.root with hroot | hroot
    · exact .inl ⟨[], hroot, rfl, le_refl _, le_rfl⟩
    · exact .inr ⟨[], hroot, le_refl _⟩
  | @cons p hop path mem fresh ih =>
    rcases ih (Nat.le_of_succ_le hdepth) with ⟨q, hq, hlast, hwidth, hlength⟩ | ⟨q, hq, hkey⟩
    · obtain ⟨r, hr, hrlast, hrlength, hrkey⟩ := h.covered q hq (Nat.lt_of_le_of_lt hlength hdepth)
      have hrwidth := hwidth.trans (pathWidth_le_of_key hrkey)
      have hrp := hrlength.trans hlength
      by_cases hvisited : hop.2 ∈ nodes start r
      · obtain ⟨part, hpart, hend⟩ := exists_suffix hvisited
        exact .inl ⟨part, h.suffix_taken (h.expanded_taken r hr) hpart, hend,
          inf_le_left.trans (hrwidth.trans (pathWidth_suffix hpart)),
          hpart.length_le.trans (hrp.trans (Nat.le_succ _))⟩
      · have hwider : net.pathWidth (hop :: p) ≤ net.pathWidth (hop :: r) :=
          inf_le_inf_right _ hrwidth
        have hmore : hop :: r ∈ continuations net start r :=
          mem_continuations.2 ⟨hop, by rwa [hrlast, hlast], hvisited, rfl⟩
        rcases h.expanded r hr _ hmore with hmore | hmore
        · exact .inl ⟨hop :: r, hmore, rfl, hwider, Nat.succ_le_succ hrp⟩
        · exact .inr ⟨hop :: r, hmore, key_le_of_le hwider (Nat.succ_le_succ hrp)⟩
    · exact .inr ⟨q, hq, (key_cons_le hop p).trans hkey⟩

/-- **The first path taken to a node is one of the best**, however far the search has come. -/
theorem Inv.first_best (h : Inv net start maxDepth s) {v : V} {p : List (E × V)}
    (hfirst : s.taken.find? (fun q ↦ last start q = v) = some p) :
    net.IsBest start maxDepth v p := by
  obtain ⟨hv, before, after, htaken, hbefore⟩ := find?_eq_some_iff_append.1 hfirst
  have hp : p ∈ s.taken := by
    rw [htaken]
    exact mem_append_right _ (.head _)
  obtain ⟨hpath, hdepth⟩ := h.paths p (.inl hp)
  refine .of_key hpath hdepth (of_decide_eq_true hv) fun q hq hqdepth hqv ↦ ?_
  rcases h.matched hq hqdepth with ⟨r, hr, hrlast, hrwidth, hrlength⟩ | ⟨r, hr, hqr⟩
  · refine (key_le_of_le hrwidth hrlength).trans ?_
    have hsorted := h.sorted
    rw [htaken, mem_append, mem_cons] at hr
    rw [htaken, pairwise_append, pairwise_cons] at hsorted
    rcases hr with hr | rfl | hr
    · exact absurd (decide_eq_true (hrlast.trans hqv)) (by simpa using hbefore r hr)
    · exact le_refl _
    · exact hsorted.2.1.1 r hr
  · exact hqr.trans (h.below p hp r hr)

/-- **A path is taken to a node exactly when there is one**, once no path waits. -/
theorem Inv.taken_iff (h : Inv net start maxDepth s) (hdone : s.waiting = 0) {v : V} :
    (∃ p ∈ s.taken, last start p = v) ↔
      ∃ p, net.IsPath start p ∧ p.length ≤ maxDepth ∧ last start p = v := by
  constructor
  · rintro ⟨p, hp, hv⟩
    obtain ⟨hpath, hdepth⟩ := h.paths p (.inl hp)
    exact ⟨p, hpath, hdepth, hv⟩
  · rintro ⟨p, hpath, hdepth, hv⟩
    rcases h.matched hpath hdepth with ⟨q, hq, hlast, -⟩ | ⟨q, hq, -⟩
    · exact ⟨q, hq, hlast.trans hv⟩
    · exact absurd hq (hdone ▸ Multiset.notMem_zero q)

end Search

end Net
