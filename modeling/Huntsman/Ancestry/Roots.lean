import Huntsman.Ancestry.Graph
import Huntsman.Lib.Loop
import Mathlib.Algebra.Order.BigOperators.Group.Finset

/-!
# The roots of a piece of evidence

`rootIds` walks the ancestry of a node with a stack of its own.  An entry of the stack is a node
that is still to be expanded, or one that was and is closed once everything above it is.

One node can sit on the stack several times.  `Chain` is what tells a shared ancestor from a cycle:
each entry is a parent of the nearest expanded node below it, so the path leads from every one of
its nodes to its last (`Chain.reaches`), and a parent that is on the path closes a cycle.  Every
parent of an expanded node is closed or stands above it (`Walk.Inv.pending`), so a node is closed
only after its parents, and no cycle goes through it.
-/

set_option autoImplicit false

open Relation

namespace Huntsman

open List

open Std (TreeMap)

namespace EvidenceAncestryGraph

/-- A node of the graph. -/
abbrev Known (graph : EvidenceAncestryGraph) := { id : EvidenceNodeId // id ∈ graph.nodes }

/-- The node under a known id. -/
def node (graph : EvidenceAncestryGraph) (id : graph.Known) : EvidenceAncestryNode :=
  graph.nodes.get id.1 id.2

/-- The locals of a walk.  An entry of the stack that is marked was expanded. -/
structure Walk (graph : EvidenceAncestryGraph) where
  stack : List (graph.Known × Bool)
  done : Finset EvidenceNodeId
  onPath : Finset EvidenceNodeId
  roots : Finset EvidenceNodeId

variable {graph : EvidenceAncestryGraph}

/-- Put the parents of an expanded node on the stack, but for those that are closed.  One that is on
the path closes a cycle. -/
def pushParents (graph : EvidenceAncestryGraph) (done onPath : Finset EvidenceNodeId) :
    List EvidenceNodeId → List (graph.Known × Bool) →
      Except AncestryError (List (graph.Known × Bool))
  | [], stack => .ok stack
  | parent :: rest, stack =>
    if hparent : parent ∈ graph.nodes then
      if parent ∈ onPath then .error (.cycle parent)
      else graph.pushParents done onPath rest
        (if parent ∈ done then stack else (⟨parent, hparent⟩, false) :: stack)
    else .error (.missingNode parent)

/-- One pass of a walk. -/
def walkPass (s : Walk graph) : Pass (Except AncestryError (Finset EvidenceNodeId)) (Walk graph) :=
  match s.stack with
  | [] => .leave (.ok s.roots)
  | (current, true) :: rest => .again
    { s with stack := rest, onPath := s.onPath.erase current.1, done := insert current.1 s.done }
  | (current, false) :: rest =>
    if current.1 ∈ s.done then .again { s with stack := rest }
    else if current.1 ∈ s.onPath then .leave (.error (.cycle current.1))
    else
      let onPath := insert current.1 s.onPath
      let parents := (graph.node current).parents
      let roots := if parents = [] then insert current.1 s.roots else s.roots
      match graph.pushParents s.done onPath parents ((current, true) :: rest) with
      | .error e => .leave (.error e)
      | .ok stack => .again { s with stack, onPath, roots }

/-! ## The walk comes to an end -/

variable {done onPath : Finset EvidenceNodeId} {parents : List EvidenceNodeId}
  {stack stack' : List (graph.Known × Bool)}

/-- What a node's parents put on the stack. -/
theorem pushParents_ok (h : graph.pushParents done onPath parents stack = .ok stack') :
    ∃ pushed, stack' = pushed ++ stack ∧ pushed.length ≤ parents.length ∧
      (∀ entry ∈ pushed, entry.2 = false ∧ entry.1.1 ∈ parents) ∧
      ∀ parent ∈ parents, parent ∈ graph.nodes ∧ parent ∉ onPath ∧
        (parent ∈ done ∨ ∃ entry ∈ pushed, entry.1.1 = parent) := by
  induction parents generalizing stack with
  | nil =>
    cases h
    exact ⟨[], rfl, le_rfl, nofun,
      nofun⟩
  | cons parent rest ih =>
    rw [pushParents] at h
    split at h
    · rename_i hknown
      split at h
      · cases h
      rename_i hoff
      obtain ⟨pushed, rfl, hlength, hpushed, hrest⟩ := ih h
      by_cases hdone : parent ∈ done
      · rw [if_pos hdone]
        refine ⟨pushed, rfl, Nat.le_succ_of_le hlength, fun entry hentry ↦
          ⟨(hpushed entry hentry).1, .tail _ (hpushed entry hentry).2⟩, ?_⟩
        intro p hp
        rcases mem_cons.1 hp with rfl | hp
        · exact ⟨hknown, hoff, .inl hdone⟩
        · exact hrest p hp
      · rw [if_neg hdone]
        refine ⟨pushed ++ [(⟨parent, hknown⟩, false)], ?_, ?_, fun entry hentry ↦ ?_, fun p hp ↦ ?_⟩
        · rw [append_assoc, singleton_append]
        · rw [length_append]
          exact Nat.succ_le_succ hlength
        · rcases mem_append.1 hentry with hentry | hentry
          · exact ⟨(hpushed entry hentry).1, .tail _ (hpushed entry hentry).2⟩
          · rw [mem_singleton.1 hentry]
            exact ⟨rfl, (.head _)⟩
        · rcases mem_cons.1 hp with rfl | hp
          · exact ⟨hknown, hoff, .inr ⟨_, mem_append_right _ (.head _), rfl⟩⟩
          · obtain ⟨hmem, hnot, hplaced⟩ := hrest p hp
            refine ⟨hmem, hnot, hplaced.imp_right ?_⟩
            rintro ⟨entry, hentry, heq⟩
            exact ⟨entry, mem_append_left _ hentry, heq⟩
    · cases h

/-- A parent that is missing or on the path is what stops a walk. -/
theorem pushParents_error {e : AncestryError}
    (h : graph.pushParents done onPath parents stack = .error e) :
    ∃ parent ∈ parents, parent ∉ graph.nodes ∨ parent ∈ onPath := by
  induction parents generalizing stack with
  | nil => cases h
  | cons parent rest ih =>
    rw [pushParents] at h
    split at h
    · split at h
      · rename_i hon
        exact ⟨parent, (.head _), .inr hon⟩
      · obtain ⟨p, hp, hwhy⟩ := ih h
        exact ⟨p, .tail _ hp, hwhy⟩
    · rename_i hmissing
      exact ⟨parent, (.head _), .inl hmissing⟩

/-- The ids of the graph. -/
def known (graph : EvidenceAncestryGraph) : Finset EvidenceNodeId := graph.nodes.keys.toFinset

/-- How much a node that is not expanded yet can put on the stack. -/
def weight (graph : EvidenceAncestryGraph) (id : EvidenceNodeId) : ℕ :=
  ((graph.nodes[id]?).elim 0 fun node ↦ node.parents.length) + 2

/-- How much a walk can still do. -/
def Walk.left (s : Walk graph) : ℕ :=
  s.stack.length + ∑ id ∈ graph.known \ (s.done ∪ s.onPath), graph.weight id

theorem mem_known (id : graph.Known) : id.1 ∈ graph.known := by
  rw [known, mem_toFinset, TreeMap.mem_keys]
  exact id.2

theorem getElem?_known (id : graph.Known) : graph.nodes[id.1]? = some (graph.node id) :=
  TreeMap.getElem?_eq_some_getElem id.2

/-- Every pass leaves less to do. -/
theorem walkPass_falls (s s' : Walk graph) (h : walkPass s = .again s') : s'.left < s.left := by
  rw [walkPass] at h
  split at h
  · cases h
  · rename_i current rest hstack
    cases h
    have hsub : graph.known \ (insert current.1 s.done ∪ s.onPath.erase current.1)
        ⊆ graph.known \ (s.done ∪ s.onPath) := by
      refine Finset.sdiff_subset_sdiff (Finset.Subset.refl _) fun id hid ↦ ?_
      by_cases heq : id = current.1
      · exact Finset.mem_union_left _ (heq ▸ Finset.mem_insert_self _ _)
      · rcases Finset.mem_union.1 hid with hid | hid
        · exact Finset.mem_union_left _ (Finset.mem_insert_of_mem hid)
        · exact Finset.mem_union_right _ (Finset.mem_erase.2 ⟨heq, hid⟩)
    have hsum := Finset.sum_le_sum_of_subset (f := graph.weight) hsub
    show rest.length + _ < s.stack.length + _
    rw [hstack, length_cons]
    exact Nat.add_lt_add_of_lt_of_le (Nat.lt_succ_self _) hsum
  · rename_i current rest hstack
    split at h
    · cases h
      show rest.length + _ < s.stack.length + _
      rw [hstack, length_cons]
      exact Nat.add_lt_add_right (Nat.lt_succ_self _) _
    rename_i hopen
    split at h
    · cases h
    rename_i hoff
    dsimp only at h
    split at h
    · cases h
    rename_i stack hpush
    cases h
    obtain ⟨pushed, rfl, hlength, -, -⟩ := pushParents_ok hpush
    have hnew : current.1 ∈ graph.known \ (s.done ∪ s.onPath) := by
      rw [Finset.mem_sdiff, Finset.mem_union, not_or]
      exact ⟨mem_known current, hopen, hoff⟩
    have hrest : graph.known \ (s.done ∪ insert current.1 s.onPath)
        = (graph.known \ (s.done ∪ s.onPath)).erase current.1 := by
      rw [Finset.union_insert, Finset.sdiff_insert, Finset.erase_eq]
    have hsum := Finset.add_sum_erase _ graph.weight hnew
    have hweight : graph.weight current.1 = (graph.node current).parents.length + 2 := by
      rw [weight, getElem?_known]
      rfl
    show (pushed ++ (current, true) :: rest).length + ∑ id ∈ _, _ < s.stack.length + _
    rw [hrest, hstack, length_append, length_cons, length_cons]
    omega

/-- The walk that begins at a node. -/
def Walk.start (current : graph.Known) : Walk graph where
  stack := [(current, false)]
  done := ∅
  onPath := ∅
  roots := ∅

/-- The ancestry roots of a node.  A missing node or a cycle anywhere in its ancestry is an
error. -/
def rootIds (graph : EvidenceAncestryGraph) (id : EvidenceNodeId) :
    Except AncestryError (Finset EvidenceNodeId) :=
  if hid : id ∈ graph.nodes then
    Loop.run walkPass Walk.left walkPass_falls (Walk.start ⟨id, hid⟩)
  else .error (.missingNode id)

/-! ## Ancestry -/

/-- `b` is a direct parent of `a`. -/
def Parent (graph : EvidenceAncestryGraph) (a b : EvidenceNodeId) : Prop :=
  ∃ node : EvidenceAncestryNode, graph.nodes[a]? = some node ∧ b ∈ node.parents

/-- `a` is a node without parents. -/
def Root (graph : EvidenceAncestryGraph) (a : EvidenceNodeId) : Prop :=
  ∃ node : EvidenceAncestryNode, graph.nodes[a]? = some node ∧ node.parents = []

/-- Every ancestor of `id`, itself included, is there, and no cycle goes through it. -/
def Resolves (graph : EvidenceAncestryGraph) (id : EvidenceNodeId) : Prop :=
  ∀ a, ReflTransGen graph.Parent id a → a ∈ graph.nodes ∧ ¬ TransGen graph.Parent a a

theorem parent_known {id : graph.Known} {b : EvidenceNodeId} :
    graph.Parent id.1 b ↔ b ∈ (graph.node id).parents := by
  constructor
  · rintro ⟨found, hfound, hb⟩
    rw [getElem?_known] at hfound
    exact Option.some.inj hfound ▸ hb
  · exact fun hb ↦ ⟨_, getElem?_known id, hb⟩

theorem root_known {id : graph.Known} : graph.Root id.1 ↔ (graph.node id).parents = [] := by
  constructor
  · rintro ⟨found, hfound, hp⟩
    rw [getElem?_known] at hfound
    exact Option.some.inj hfound ▸ hp
  · exact fun hp ↦ ⟨_, getElem?_known id, hp⟩

/-! ### The path of a walk -/

/-- The nearest expanded node of a stack. -/
def tip : List (graph.Known × Bool) → Option graph.Known
  | [] => none
  | (id, true) :: _ => some id
  | (_, false) :: rest => tip rest

/-- Each entry is a parent of the nearest expanded node below it. -/
def Chain : List (graph.Known × Bool) → Prop
  | [] => True
  | entry :: rest => (∀ below ∈ tip rest, graph.Parent below.1 entry.1.1) ∧ Chain rest

theorem tip_ne_none {id : graph.Known} (h : (id, true) ∈ stack) : tip stack ≠ none := by
  induction stack with
  | nil => cases h
  | cons entry rest ih =>
    obtain ⟨entry, expanded⟩ := entry
    cases expanded with
    | true => exact Option.some_ne_none _
    | false =>
      rcases mem_cons.1 h with heq | h
      · exact absurd (congrArg Prod.snd heq) (by simp)
      · exact ih h

/-- **The path leads from each of its nodes to its last.** -/
theorem Chain.reaches (h : Chain stack) {last id : graph.Known} (hlast : tip stack = some last)
    (hid : (id, true) ∈ stack) : ReflTransGen graph.Parent id.1 last.1 := by
  induction stack generalizing last with
  | nil => cases hid
  | cons entry rest ih =>
    obtain ⟨entry, expanded⟩ := entry
    cases expanded with
    | false =>
      rcases mem_cons.1 hid with heq | hid
      · exact absurd (congrArg Prod.snd heq) (by simp)
      · exact ih h.2 hlast hid
    | true =>
      cases hlast
      rcases mem_cons.1 hid with heq | hid
      · rw [(Prod.mk.inj heq).1]
      · rcases htip : tip rest with _ | below
        · exact absurd htip (tip_ne_none hid)
        · exact (ih h.2 htip hid).tail (h.1 below htip)

theorem Chain.append {pushed : List (graph.Known × Bool)} {last : graph.Known} (h : Chain stack)
    (htip : tip stack = some last) (hpushed : ∀ entry ∈ pushed, entry.2 = false ∧
      graph.Parent last.1 entry.1.1) : Chain (pushed ++ stack) ∧ tip (pushed ++ stack) = some last := by
  induction pushed with
  | nil => exact ⟨h, htip⟩
  | cons entry pushed ih =>
    obtain ⟨hchain, htips⟩ := ih fun entry hentry ↦ hpushed entry (.tail _ hentry)
    obtain ⟨hopen, hparent⟩ := hpushed entry (.head _)
    obtain ⟨entry, marked⟩ := entry
    obtain rfl : marked = false := hopen
    refine ⟨⟨fun below hbelow ↦ ?_, hchain⟩, htips⟩
    have heq : some last = some below := htips.symm.trans hbelow
    exact Option.some.inj heq ▸ hparent

/-! ### The invariant -/

/-- The invariant of a walk that began at `id`. -/
structure Walk.Inv (id : EvidenceNodeId) (s : Walk graph) : Prop where
  chain : Chain s.stack
  /-- The path is what was expanded and not closed, each node once. -/
  onPath : ∀ a, a ∈ s.onPath ↔ ∃ k, (k, true) ∈ s.stack ∧ k.1 = a
  once : (s.stack.filter Prod.snd).Nodup
  /-- No closed node is on the path. -/
  closed : ∀ a ∈ s.done, a ∉ s.onPath
  /-- The parents of a closed node are closed, it is there, and no cycle goes through it. -/
  parents : ∀ a ∈ s.done, ∀ b, graph.Parent a b → b ∈ s.done
  sound : ∀ a ∈ s.done, a ∈ graph.nodes ∧ ¬ TransGen graph.Parent a a
  /-- Every parent of an expanded node is closed or stands above it. -/
  pending : ∀ above k below, s.stack = above ++ (k, true) :: below → ∀ b, graph.Parent k.1 b →
    b ∈ s.done ∨ ∃ entry ∈ above, entry.1.1 = b
  /-- Nothing but ancestors is walked. -/
  reachedDone : ∀ a ∈ s.done, ReflTransGen graph.Parent id a
  reachedStack : ∀ entry ∈ s.stack, ReflTransGen graph.Parent id entry.1.1
  began : id ∈ s.done ∨ ∃ entry ∈ s.stack, entry.1.1 = id
  roots : ∀ a, a ∈ s.roots ↔ (a ∈ s.done ∨ a ∈ s.onPath) ∧ graph.Root a

/-- What a walk that began at `id` should answer. -/
def Answers (graph : EvidenceAncestryGraph) (id : EvidenceNodeId) :
    Except AncestryError (Finset EvidenceNodeId) → Prop
  | .ok roots => graph.Resolves id ∧
    ∀ a, a ∈ roots ↔ ReflTransGen graph.Parent id a ∧ graph.Root a
  | .error _ => ¬ graph.Resolves id

variable {id : EvidenceNodeId} {s : Walk graph} {current : graph.Known}
  {rest : List (graph.Known × Bool)}

namespace Walk.Inv

/-- Once everything above an expanded node is closed, so is the node. -/
theorem close (h : s.Inv id) (hstack : s.stack = (current, true) :: rest) :
    Inv id { s with
      stack := rest, onPath := s.onPath.erase current.1, done := insert current.1 s.done } := by
  have hmem : (current, true) ∈ s.stack := hstack ▸ (.head _)
  have hcurrent : current.1 ∉ s.done := fun hd ↦
    h.closed _ hd ((h.onPath _).2 ⟨current, hmem, rfl⟩)
  have honce := h.once
  rw [hstack, filter_cons_of_pos rfl, nodup_cons] at honce
  have hgone : (current, true) ∉ rest := fun hr ↦
    honce.1 (mem_filter.2 ⟨hr, rfl⟩)
  -- nothing stands above it, so all its parents are closed
  have hparents : ∀ b, graph.Parent current.1 b → b ∈ s.done := by
    intro b hb
    rcases h.pending [] current rest hstack b hb with hd | ⟨entry, hentry, -⟩
    · exact hd
    · cases hentry
  have hdone : ∀ {a b}, a ∈ s.done → ReflTransGen graph.Parent a b → b ∈ s.done := by
    intro a b ha hab
    induction hab with
    | refl => exact ha
    | tail _ hlast ih => exact h.parents _ ih _ hlast
  have hacyclic : ¬ TransGen graph.Parent current.1 current.1 := by
    intro hcycle
    obtain ⟨b, hb, hback⟩ := TransGen.head'_iff.1 hcycle
    exact hcurrent (hdone (hparents b hb) hback)
  refine ⟨?_, fun a ↦ ?_, honce.2, ?_, ?_, ?_, ?_, ?_, fun entry hentry ↦ ?_, ?_, fun a ↦ ?_⟩
  · have hchain := h.chain
    rw [hstack] at hchain
    exact hchain.2
  · rw [Finset.mem_erase, h.onPath, hstack]
    constructor
    · rintro ⟨hne, k, hk, rfl⟩
      rcases mem_cons.1 hk with heq | hk
      · exact absurd (congrArg Subtype.val (Prod.mk.inj heq).1) hne
      · exact ⟨k, hk, rfl⟩
    · rintro ⟨k, hk, rfl⟩
      refine ⟨fun heq ↦ hgone ?_, k, .tail _ hk, rfl⟩
      rwa [Subtype.ext heq] at hk
  · intro a ha hpath
    rw [Finset.mem_erase] at hpath
    rcases Finset.mem_insert.1 ha with rfl | ha
    · exact hpath.1 rfl
    · exact h.closed a ha hpath.2
  · intro a ha b hb
    rcases Finset.mem_insert.1 ha with rfl | ha
    · exact Finset.mem_insert_of_mem (hparents b hb)
    · exact Finset.mem_insert_of_mem (h.parents a ha b hb)
  · intro a ha
    rcases Finset.mem_insert.1 ha with rfl | ha
    · exact ⟨current.2, hacyclic⟩
    · exact h.sound a ha
  · rintro above k below rfl b hb
    rcases h.pending ((current, true) :: above) k below hstack b hb with hd | ⟨entry, hentry, rfl⟩
    · exact .inl (Finset.mem_insert_of_mem hd)
    · rcases mem_cons.1 hentry with rfl | hentry
      · exact .inl (Finset.mem_insert_self _ _)
      · exact .inr ⟨entry, hentry, rfl⟩
  · intro a ha
    rcases Finset.mem_insert.1 ha with rfl | ha
    · exact h.reachedStack _ hmem
    · exact h.reachedDone a ha
  · exact h.reachedStack entry (hstack ▸ .tail _ hentry)
  · rcases h.began with hd | ⟨entry, hentry, rfl⟩
    · exact .inl (Finset.mem_insert_of_mem hd)
    · rw [hstack] at hentry
      rcases mem_cons.1 hentry with rfl | hentry
      · exact .inl (Finset.mem_insert_self _ _)
      · exact .inr ⟨entry, hentry, rfl⟩
  · rw [h.roots, Finset.mem_insert, Finset.mem_erase, h.onPath]
    refine and_congr_left fun _ ↦ ⟨?_, ?_⟩
    · rintro (hd | hpath)
      · exact .inl (.inr hd)
      · by_cases heq : a = current.1
        · exact .inl (.inl heq)
        · exact .inr ⟨heq, hpath⟩
    · rintro ((rfl | hd) | ⟨-, hpath⟩)
      · exact .inr ⟨current, hmem, rfl⟩
      · exact .inl hd
      · exact .inr hpath

/-- A node that was closed meanwhile is dropped. -/
theorem drop (h : s.Inv id) (hstack : s.stack = (current, false) :: rest)
    (hdone : current.1 ∈ s.done) : Inv id { s with stack := rest } := by
  have hexpanded : ∀ k, (k, true) ∈ s.stack ↔ (k, true) ∈ rest := by
    intro k
    rw [hstack, mem_cons, or_iff_right]
    exact fun heq ↦ absurd (Prod.mk.inj heq).2 (by simp)
  refine ⟨?_, fun a ↦ ?_, ?_, h.closed, h.parents, h.sound, ?_, h.reachedDone, fun entry hentry ↦ ?_,
    ?_, h.roots⟩
  · have hchain := h.chain
    rw [hstack] at hchain
    exact hchain.2
  · rw [h.onPath]
    simp only [hexpanded]
  · have honce := h.once
    rwa [hstack, filter_cons_of_neg Bool.false_ne_true] at honce
  · rintro above k below rfl b hb
    rcases h.pending ((current, false) :: above) k below hstack b hb with hd | ⟨entry, hentry, rfl⟩
    · exact .inl hd
    · rcases mem_cons.1 hentry with rfl | hentry
      · exact .inl hdone
      · exact .inr ⟨entry, hentry, rfl⟩
  · exact h.reachedStack entry (hstack ▸ .tail _ hentry)
  · rcases h.began with hd | ⟨entry, hentry, rfl⟩
    · exact .inl hd
    · rw [hstack] at hentry
      rcases mem_cons.1 hentry with rfl | hentry
      · exact .inl hdone
      · exact .inr ⟨entry, hentry, rfl⟩

/-- A node is expanded: it joins the path, and its parents go on the stack. -/
theorem expand (h : s.Inv id) (hstack : s.stack = (current, false) :: rest)
    (hopen : current.1 ∉ s.done) (hoff : current.1 ∉ s.onPath)
    (hpush : graph.pushParents s.done (Insert.insert current.1 s.onPath)
      (graph.node current).parents ((current, true) :: rest) = .ok stack) :
    Inv id { s with
      stack
      onPath := Insert.insert current.1 s.onPath
      roots := if (graph.node current).parents = [] then Insert.insert current.1 s.roots
        else s.roots } := by
  obtain ⟨pushed, rfl, -, hpushed, hparents⟩ := pushParents_ok hpush
  have hchain := h.chain
  rw [hstack] at hchain
  have hexpanded : ∀ k, (k, true) ∈ pushed ++ (current, true) :: rest ↔
      k = current ∨ (k, true) ∈ s.stack := by
    intro k
    rw [hstack, mem_append, mem_cons, mem_cons, Prod.mk.injEq, Prod.mk.injEq]
    constructor
    · rintro (hk | ⟨rfl, -⟩ | hk)
      · exact absurd (hpushed _ hk).1 (by simp)
      · exact .inl rfl
      · exact .inr (.inr hk)
    · rintro (rfl | ⟨-, habsurd⟩ | hk)
      · exact .inr (.inl ⟨rfl, rfl⟩)
      · simp at habsurd
      · exact .inr (.inr hk)
  have hreached : ReflTransGen graph.Parent id current.1 :=
    h.reachedStack (current, false) (hstack ▸ (.head _))
  refine ⟨?_, fun a ↦ ?_, ?_, fun a ha hpath ↦ ?_, h.parents, h.sound, ?_, h.reachedDone,
    fun entry hentry ↦ ?_, ?_, fun a ↦ ?_⟩
  · have hmarked : Chain ((current, true) :: rest) := ⟨hchain.1, hchain.2⟩
    exact (hmarked.append rfl fun entry hentry ↦
      ⟨(hpushed entry hentry).1, parent_known.2 (hpushed entry hentry).2⟩).1
  · rw [Finset.mem_insert, h.onPath]
    simp only [hexpanded]
    constructor
    · rintro (rfl | ⟨k, hk, rfl⟩)
      · exact ⟨current, .inl rfl, rfl⟩
      · exact ⟨k, .inr hk, rfl⟩
    · rintro ⟨k, rfl | hk, rfl⟩
      · exact .inl rfl
      · exact .inr ⟨k, hk, rfl⟩
  · have honce := h.once
    rw [hstack, filter_cons_of_neg Bool.false_ne_true] at honce
    have hnone : pushed.filter Prod.snd = [] :=
      filter_eq_nil_iff.2 fun entry hentry ↦ by simp [(hpushed entry hentry).1]
    show ((pushed ++ (current, true) :: rest).filter Prod.snd).Nodup
    rw [filter_append, hnone, nil_append, filter_cons_of_pos rfl, nodup_cons]
    refine ⟨fun hmem ↦ hoff ((h.onPath _).2 ⟨current, ?_, rfl⟩), honce⟩
    rw [hstack]
    exact .tail _ (mem_filter.1 hmem).1
  · rcases Finset.mem_insert.1 hpath with rfl | hpath
    · exact hopen ha
    · exact h.closed a ha hpath
  · intro above k below hsplit b hb
    -- the expanded node is this one or one that was on the path
    rcases append_eq_append_iff.1 hsplit with ⟨more, rfl, hmore⟩ | ⟨more, rfl, hmore⟩
    · rcases more with _ | ⟨first, more⟩
      · obtain ⟨hhead, rfl⟩ := cons.inj hmore
        cases hhead
        obtain ⟨-, -, hplaced⟩ := hparents b (parent_known.1 hb)
        rw [append_nil]
        exact hplaced
      · obtain ⟨rfl, hrest⟩ := cons.inj hmore
        have hbelow : s.stack = ((current, false) :: more) ++ (k, true) :: below := by
          rw [hstack, hrest]
          rfl
        rcases h.pending _ k below hbelow b hb with hd | ⟨entry, hentry, rfl⟩
        · exact .inl hd
        · refine .inr ?_
          rcases mem_cons.1 hentry with rfl | hentry
          · exact ⟨(current, true), mem_append_right _ (.head _), rfl⟩
          · exact ⟨entry, mem_append_right _ (.tail _ hentry), rfl⟩
    · rcases more with _ | ⟨first, more⟩
      · obtain ⟨hhead, rfl⟩ := cons.inj hmore
        cases hhead
        obtain ⟨-, -, hplaced⟩ := hparents b (parent_known.1 hb)
        rw [append_nil] at hplaced
        exact hplaced
      · cases hmore
        exact absurd (hpushed _ (mem_append_right _ (.head _))).1 (by simp)
  · rcases mem_append.1 hentry with hentry | hentry
    · exact hreached.tail (parent_known.2 (hpushed entry hentry).2)
    · rcases mem_cons.1 hentry with rfl | hentry
      · exact hreached
      · exact h.reachedStack entry (hstack ▸ .tail _ hentry)
  · rcases h.began with hd | ⟨entry, hentry, rfl⟩
    · exact .inl hd
    · rw [hstack] at hentry
      refine .inr ?_
      rcases mem_cons.1 hentry with rfl | hentry
      · exact ⟨(current, true), mem_append_right _ (.head _), rfl⟩
      · exact ⟨entry, mem_append_right _ (.tail _ hentry), rfl⟩
  · have hroots : a ∈ (if (graph.node current).parents = [] then
        Insert.insert current.1 s.roots else s.roots) ↔
          (a = current.1 ∧ graph.Root current.1) ∨ a ∈ s.roots := by
      rw [root_known]
      split
      · rename_i hnil
        rw [Finset.mem_insert, and_iff_left hnil]
      · rename_i hsome
        rw [or_iff_right fun hand ↦ hsome hand.2]
    refine hroots.trans ?_
    rw [h.roots, Finset.mem_insert]
    constructor
    · rintro (⟨rfl, hroot⟩ | ⟨hd | hpath, hroot⟩)
      · exact ⟨.inr (.inl rfl), hroot⟩
      · exact ⟨.inl hd, hroot⟩
      · exact ⟨.inr (.inr hpath), hroot⟩
    · rintro ⟨hd | rfl | hpath, hroot⟩
      · exact .inr ⟨.inl hd, hroot⟩
      · exact .inl ⟨rfl, hroot⟩
      · exact .inr ⟨.inr hpath, hroot⟩

/-- A node that is popped while it is on the path closes a cycle. -/
theorem not_resolves_of_mem_onPath (h : s.Inv id) (hstack : s.stack = (current, false) :: rest)
    (hon : current.1 ∈ s.onPath) : ¬ graph.Resolves id := by
  intro hresolves
  have hchain := h.chain
  rw [hstack] at hchain
  obtain ⟨k, hk, heq⟩ := (h.onPath _).1 hon
  rw [Subtype.ext heq, hstack, mem_cons, or_iff_right fun heq ↦ absurd (Prod.mk.inj heq).2 (by simp)] at hk
  obtain ⟨last, hlast⟩ := Option.ne_none_iff_exists'.1 (tip_ne_none hk)
  have hreached := h.reachedStack (current, false) (hstack ▸ (.head _))
  exact (hresolves _ hreached).2 (TransGen.tail' (hchain.2.reaches hlast hk) (hchain.1 last hlast))

/-- So does a parent that is on the path, and a parent that is missing fails too. -/
theorem not_resolves_of_pushParents (h : s.Inv id) (hstack : s.stack = (current, false) :: rest)
    {e : AncestryError} (hpush : graph.pushParents s.done (Insert.insert current.1 s.onPath)
      (graph.node current).parents ((current, true) :: rest) = .error e) :
    ¬ graph.Resolves id := by
  intro hresolves
  obtain ⟨parent, hparent, hwhy⟩ := pushParents_error hpush
  have hlink : graph.Parent current.1 parent := parent_known.2 hparent
  have hreached : ReflTransGen graph.Parent id current.1 :=
    h.reachedStack (current, false) (hstack ▸ (.head _))
  obtain ⟨hknown, hacyclic⟩ := hresolves parent (hreached.tail hlink)
  rcases hwhy with hmissing | hon
  · exact hmissing hknown
  rcases Finset.mem_insert.1 hon with rfl | hon
  · exact hacyclic (TransGen.single hlink)
  · obtain ⟨k, hk, rfl⟩ := (h.onPath _).1 hon
    have hchain := h.chain
    rw [hstack] at hchain hk
    rw [mem_cons, or_iff_right fun heq ↦ absurd (Prod.mk.inj heq).2 (by simp)] at hk
    have hmarked : Chain ((current, true) :: rest) := ⟨hchain.1, hchain.2⟩
    exact hacyclic (TransGen.tail' (hmarked.reaches rfl (.tail _ hk)) hlink)

/-- An empty stack: everything the node descends from is closed. -/
theorem answers (h : s.Inv id) (hstack : s.stack = []) : graph.Answers id (.ok s.roots) := by
  have hbegan : id ∈ s.done := by
    rcases h.began with hd | ⟨entry, hentry, -⟩
    · exact hd
    · rw [hstack] at hentry
      cases hentry
  have hdone : ∀ a, ReflTransGen graph.Parent id a ↔ a ∈ s.done := by
    refine fun a ↦ ⟨fun ha ↦ ?_, h.reachedDone a⟩
    induction ha with
    | refl => exact hbegan
    | tail _ hlast ih => exact h.parents _ ih _ hlast
  refine ⟨fun a ha ↦ h.sound a ((hdone a).1 ha), fun a ↦ ?_⟩
  have hempty : a ∉ s.onPath := by
    rw [h.onPath, hstack]
    rintro ⟨k, hk, -⟩
    cases hk
  rw [h.roots, or_iff_left hempty, hdone]

theorem start (current : graph.Known) : Inv current.1 (Walk.start current) := by
  have hnone : ∀ k, (k, true) ∉ [(current, false)] := fun k hk ↦ by simp at hk
  refine ⟨⟨fun _ hbelow ↦ absurd hbelow.symm (Option.some_ne_none _), trivial⟩, fun a ↦ ?_,
    nodup_nil, fun a ha ↦ absurd ha (Finset.notMem_empty a),
    fun a ha ↦ absurd ha (Finset.notMem_empty a), fun a ha ↦ absurd ha (Finset.notMem_empty a), ?_,
    fun a ha ↦ absurd ha (Finset.notMem_empty a), fun entry hentry ↦ ?_,
    .inr ⟨_, mem_singleton_self _, rfl⟩, fun a ↦ ?_⟩
  · constructor
    · exact fun ha ↦ absurd ha (Finset.notMem_empty a)
    · rintro ⟨k, hk, -⟩
      exact absurd hk (hnone k)
  · intro above k below hsplit
    have hsplit' : [(current, false)] = above ++ (k, true) :: below := hsplit
    refine absurd ?_ (hnone k)
    rw [hsplit']
    exact mem_append_right _ (.head _)
  · rw [mem_singleton.1 hentry]
  · constructor
    · exact fun ha ↦ absurd ha (Finset.notMem_empty a)
    · rintro ⟨ha | ha, -⟩
      · exact absurd ha (Finset.notMem_empty a)
      · exact absurd ha (Finset.notMem_empty a)

end Walk.Inv

/-- **A walk answers for the whole ancestry of a node.** -/
theorem rootIds_answers (graph : EvidenceAncestryGraph) (id : EvidenceNodeId) :
    graph.Answers id (graph.rootIds id) := by
  rw [rootIds]
  split
  · rename_i hid
    refine Loop.run_inv (Walk.Inv id) (graph.Answers id) (fun s s' hinv h ↦ ?_)
      (fun s answer hinv h ↦ ?_) (Walk.Inv.start ⟨id, hid⟩)
    · rw [walkPass] at h
      split at h
      · cases h
      · rename_i hstack
        cases h
        exact hinv.close hstack
      · rename_i hstack
        split at h
        · rename_i hdone
          cases h
          exact hinv.drop hstack hdone
        rename_i hopen
        split at h
        · cases h
        rename_i hoff
        dsimp only at h
        split at h
        · cases h
        · rename_i hpush
          cases h
          exact hinv.expand hstack hopen hoff hpush
    · rw [walkPass] at h
      split at h
      · rename_i hstack
        cases h
        exact hinv.answers hstack
      · cases h
      · rename_i hstack
        split at h
        · cases h
        split at h
        · rename_i hon
          cases h
          exact hinv.not_resolves_of_mem_onPath hstack hon
        dsimp only at h
        split at h
        · rename_i hpush
          cases h
          exact hinv.not_resolves_of_pushParents hstack hpush
        · cases h
  · rename_i hmissing
    exact fun hresolves ↦ hmissing (hresolves id .refl).1

/-- **The walk succeeds exactly when the ancestry resolves**: every ancestor of the node is in the
graph and no cycle goes through one.  It then answers the ancestors that have no parents. -/
theorem rootIds_eq_ok (graph : EvidenceAncestryGraph) (id : EvidenceNodeId) :
    ((∃ roots, graph.rootIds id = .ok roots) ↔ graph.Resolves id) ∧
      ∀ roots, graph.rootIds id = .ok roots ↔ graph.Resolves id ∧
        ∀ a, a ∈ roots ↔ ReflTransGen graph.Parent id a ∧ graph.Root a := by
  have hanswers := graph.rootIds_answers id
  rcases hwalk : graph.rootIds id with e | found
  · rw [hwalk] at hanswers
    refine ⟨iff_of_false (fun ⟨roots, h⟩ ↦ nomatch h) hanswers, fun roots ↦ ?_⟩
    exact iff_of_false (fun h ↦ nomatch h) fun h ↦ hanswers h.1
  · rw [hwalk] at hanswers
    obtain ⟨hresolves, hfound⟩ := hanswers
    refine ⟨iff_of_true ⟨found, rfl⟩ hresolves, fun roots ↦ ⟨?_, ?_⟩⟩
    · rintro ⟨⟩
      exact ⟨hresolves, hfound⟩
    · rintro ⟨-, hroots⟩
      have heq : found = roots := Finset.ext fun a ↦ (hfound a).trans (hroots a).symm
      rw [heq]

end EvidenceAncestryGraph

end Huntsman
