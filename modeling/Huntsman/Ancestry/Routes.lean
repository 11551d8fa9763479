import Huntsman.Ancestry.Roots
import Huntsman.Lib.Cliques
import Mathlib.Data.Finset.Sort

/-!
# How many proof routes are proven independent

Two routes are proven independent when each has one root and explicit evidence is on record for the
pair.  `provenIndependentRouteCount` looks for a set of roots of which any two are, one size after
the other, and gives up when its states are spent.

`searchFrom` says three things: that it found such a set, that there is none, or that it is
exhausted.  `searchFrom_spec` is what each of them means.  `provenIndependentRouteCount_ok` compares
the count with the size of the largest set there is, and `verdict_kept` says that what is known of
two routes stands, whatever is inserted later.
-/

set_option autoImplicit false

open Relation

namespace Huntsman

open Cliques List
open Std (TreeMap)

namespace EvidenceAncestryGraph

/-! ## The relation between two routes -/

/-- Whether evidence for an ordered pair of roots is on record. -/
def recorded (graph : EvidenceAncestryGraph) (pair : EvidenceNodeId × EvidenceNodeId) : Bool :=
  (graph.independenceEvidence[pair.1]?).any fun records ↦ records.contains pair.2

/-- Relationship between two proof routes under explicit independence evidence.  Shared ancestry
dominates any independence assertion. -/
def independenceState (graph : EvidenceAncestryGraph) (a b : EvidenceNodeId) :
    Except AncestryError IndependenceState := do
  let leftRoots ← graph.rootIds a
  let rightRoots ← graph.rootIds b
  if ¬ Disjoint leftRoots rightRoots then .ok .knownDependent
  else match leftRoots.sort, rightRoots.sort with
    | [left], [right] =>
      let pair ← canonicalPair left right
      .ok (if graph.recorded pair then .provenIndependent else .unknown)
    | _, _ => .ok .unknown

/-- Two routes that are proven independent. -/
def Independent (graph : EvidenceAncestryGraph) (a b : EvidenceNodeId) : Prop :=
  graph.independenceState a b = .ok .provenIndependent

/-! ## The search -/

/-- What the searches of all sizes share. -/
structure SearchState where
  states : ℕ
  exhausted : Bool

structure IndependenceRouteCount where
  proven : ℕ
  incomplete : Bool

variable (graph : EvidenceAncestryGraph) (maxStates target : ℕ)

/-- Whether a root is proven independent of all that were chosen. -/
def compatible (root : EvidenceNodeId) : List EvidenceNodeId → Except AncestryError Bool
  | [] => .ok true
  | selected :: rest => do
    let state ← graph.independenceState selected root
    if state = .provenIndependent then compatible root rest else .ok false

/-- Search on, unless enough roots are chosen or too few are left. -/
def enter (roots chosen : List EvidenceNodeId) (s : SearchState)
    (search : Unit → Except AncestryError (Bool × SearchState)) :
    Except AncestryError (Bool × SearchState) :=
  if chosen.length = target then .ok (true, s)
  else if roots.length < target - chosen.length then .ok (false, s)
  else search ()

/-- The loop of a search over the roots that are left. -/
def searchFrom : List EvidenceNodeId → List EvidenceNodeId → SearchState →
    Except AncestryError (Bool × SearchState)
  | [], _, s => .ok (false, s)
  | root :: rest, chosen, s =>
    if maxStates ≤ s.states then .ok (false, { s with exhausted := true })
    else do
      let s := { s with states := s.states + 1 }
      if ← graph.compatible root chosen then
        let (found, s) ← enter target rest (chosen ++ [root]) s fun _ ↦
          searchFrom rest (chosen ++ [root]) s
        if found then .ok (true, s)
        else if s.exhausted then .ok (false, s)
        else searchFrom rest chosen s
      else searchFrom rest chosen s

/-- Search for `target` roots of which any two are proven independent. -/
def searchExact (roots : List EvidenceNodeId) (chosen : List EvidenceNodeId) (s : SearchState) :
    Except AncestryError (Bool × SearchState) :=
  enter target roots chosen s fun _ ↦ graph.searchFrom maxStates target roots chosen s

/-- The sizes one after the other, until one is not found. -/
def countFrom (required : ℕ) (roots : List EvidenceNodeId) :
    List ℕ → ℕ → SearchState → Except AncestryError IndependenceRouteCount
  | [], best, _ => .ok ⟨best, false⟩
  | target :: targets, best, s => do
    let (found, s) ← graph.searchExact maxStates target roots [] s
    if found then
      if required ≤ target then .ok ⟨target, false⟩ else countFrom required roots targets target s
    else .ok ⟨best, s.exhausted⟩

/-- The roots of all of some routes. -/
def rootSet (ids : List EvidenceNodeId) : Except AncestryError (Finset EvidenceNodeId) :=
  ids.foldlM (fun roots id ↦ do .ok (roots ∪ (← graph.rootIds id))) ∅

/-- Count a conservative lower bound of mutually proven-independent proof routes.  Exhaustion marks
the result incomplete and never adds an unproven route. -/
def provenIndependentRouteCount (ids : List EvidenceNodeId) (required : ℕ) :
    Except AncestryError IndependenceRouteCount :=
  if required = 0 then .ok ⟨0, false⟩
  else do
    let roots ← graph.rootSet ids
    if roots = ∅ then .ok ⟨0, false⟩
    else if required = 1 ∨ roots.card = 1 then .ok ⟨1, false⟩
    else
      let targetLimit := min required roots.card
      graph.countFrom maxStates required roots.sort (List.range' 2 (targetLimit - 1)) 1 ⟨0, false⟩

variable {graph maxStates target}

/-! ## What an answer of the search means -/

/-- `roots` can be told apart: the relation between any two of them resolves. -/
def Comparable (graph : EvidenceAncestryGraph) (roots : List EvidenceNodeId) : Prop :=
  ∀ a ∈ roots, ∀ b ∈ roots, ∃ state, graph.independenceState a b = .ok state

variable {chosen : List EvidenceNodeId} {a : EvidenceNodeId}

theorem compatible_ok {root : EvidenceNodeId}
    (h : ∀ selected ∈ chosen, ∃ state, graph.independenceState selected root = .ok state) :
    ∃ answer, graph.compatible root chosen = .ok answer ∧
      (answer = true ↔ ∀ selected ∈ chosen, graph.Independent selected root) := by
  induction chosen with
  | nil => exact ⟨true, rfl, iff_of_true rfl nofun⟩
  | cons selected rest ih =>
    obtain ⟨state, hstate⟩ := h selected (.head _)
    obtain ⟨answer, hanswer, hiff⟩ := ih fun s hs ↦ h s (.tail _ hs)
    by_cases hproven : state = .provenIndependent
    · subst hproven
      refine ⟨answer, ?_, ?_⟩
      · rw [compatible, hstate]
        exact hanswer
      · rw [hiff, forall_mem_cons]
        exact (and_iff_right hstate).symm
    · refine ⟨false, ?_, iff_of_false Bool.false_ne_true fun hall ↦ hproven ?_⟩
      · rw [compatible, hstate]
        exact if_neg hproven
      · have hindependent := hall selected (.head _)
        rw [Independent, hstate] at hindependent
        exact Except.ok.inj hindependent

/-- What a search that had `chosen` and went over `roots` may answer. -/
structure Searched (graph : EvidenceAncestryGraph) (target : ℕ) (roots chosen : List EvidenceNodeId)
    (found : Bool) (s : SearchState) : Prop where
  /-- A set that was found is there, and the search was not exhausted. -/
  sound : found = true → s.exhausted = false ∧ ∃ more : List EvidenceNodeId, more.Sublist roots ∧
    (chosen ++ more).length = target ∧ (chosen ++ more).Pairwise graph.Independent
  /-- None is there when none was found, unless the search was exhausted. -/
  complete : found = false → s.exhausted = false → ∀ more : List EvidenceNodeId,
    more.Sublist roots → (chosen ++ more).length = target →
      ¬ (chosen ++ more).Pairwise graph.Independent

theorem pairwise_append_singleton {root : EvidenceNodeId} :
    (chosen ++ [root]).Pairwise graph.Independent ↔ chosen.Pairwise graph.Independent ∧
      ∀ selected ∈ chosen, graph.Independent selected root := by
  rw [pairwise_append]
  simp

/-- A search that is entered answers as its loop does. -/
theorem enter_spec {roots : List EvidenceNodeId} {s : SearchState}
    {search : Unit → Except AncestryError (Bool × SearchState)} (hs : s.exhausted = false)
    (hchosen : chosen.Pairwise graph.Independent)
    (h : chosen.length ≠ target → ∃ found s', search () = .ok (found, s') ∧
      Searched graph target roots chosen found s') :
    ∃ found s', enter target roots chosen s search = .ok (found, s') ∧
      Searched graph target roots chosen found s' := by
  rw [enter]
  split
  · rename_i hlength
    refine ⟨true, s, rfl, fun _ ↦ ⟨hs, [], nil_sublist _, ?_, ?_⟩, fun hf ↦ absurd hf (by simp)⟩
    · rwa [append_nil]
    · rwa [append_nil]
  rename_i hlength
  split
  · rename_i hfew
    refine ⟨false, s, rfl, fun hf ↦ absurd hf (by simp), fun _ _ more hsub hmore ↦ ?_⟩
    have := hsub.length_le
    rw [length_append] at hmore
    omega
  · exact h hlength

/-- **What the answer of a search means**, whatever states were left for it. -/
theorem searchFrom_spec (roots : List EvidenceNodeId) :
    ∀ {chosen : List EvidenceNodeId} {s : SearchState}, graph.Comparable (chosen ++ roots) →
      chosen.Pairwise graph.Independent → chosen.length ≠ target → s.exhausted = false →
      ∃ found s', graph.searchFrom maxStates target roots chosen s = .ok (found, s') ∧
        Searched graph target roots chosen found s' := by
  induction roots with
  | nil =>
    intro chosen s _ _ hlength _
    refine ⟨false, s, rfl, fun hf ↦ absurd hf (by simp), fun _ _ more hsub hmore ↦ ?_⟩
    rw [sublist_nil.1 hsub, append_nil] at hmore
    exact absurd hmore hlength
  | cons root rest ih =>
    intro chosen s hcomparable hchosen hlength hs
    rw [searchFrom]
    split
    · exact ⟨false, _, rfl, fun hf ↦ absurd hf (by simp), fun _ hex ↦ absurd hex (by simp)⟩
    have hrest : graph.Comparable (chosen ++ rest) := fun a ha b hb ↦
      hcomparable a (((sublist_cons_self root rest).append_left chosen).subset ha)
        b (((sublist_cons_self root rest).append_left chosen).subset hb)
    obtain ⟨answer, hanswer, hiff⟩ := compatible_ok fun selected hselected ↦
      hcomparable selected (mem_append_left _ hselected) root
        (mem_append_right _ (.head _))
    rw [hanswer]
    -- what is found without the root is found with it at hand
    have hlift : ∀ {found : Bool} {s' : SearchState}, Searched graph target rest chosen found s' →
        (found = false → s'.exhausted = false → ∀ more : List EvidenceNodeId, more.Sublist rest →
          (chosen ++ root :: more).length = target →
            ¬ (chosen ++ root :: more).Pairwise graph.Independent) →
        Searched graph target (root :: rest) chosen found s' := by
      intro found s' hsearched hwith
      refine ⟨fun hf ↦ ?_, fun hf hex more hsub hmore hpairs ↦ ?_⟩
      · obtain ⟨hex, more, hsub, hmore, hpairs⟩ := hsearched.sound hf
        exact ⟨hex, more, hsub.cons _, hmore, hpairs⟩
      · rcases sublist_cons_iff.1 hsub with hrest | ⟨more', rfl, hrest⟩
        · exact hsearched.complete hf hex more hrest hmore hpairs
        · exact hwith hf hex more' hrest hmore hpairs
    cases answer with
    | false =>
      obtain ⟨found, s', hrun, hsearched⟩ := ih hrest hchosen hlength
        (s := { s with states := s.states + 1 }) hs
      refine ⟨found, s', hrun, hlift hsearched fun _ _ more _ _ hpairs ↦ ?_⟩
      refine absurd (hiff.2 fun selected hselected ↦ ?_) Bool.false_ne_true
      exact (pairwise_append.1 hpairs).2.2 selected hselected root (.head _)
    | true =>
      have hwith : (chosen ++ [root]).Pairwise graph.Independent :=
        pairwise_append_singleton.2 ⟨hchosen, hiff.1 rfl⟩
      have henter : ∃ found s', enter target rest (chosen ++ [root])
          { s with states := s.states + 1 } (fun _ ↦ graph.searchFrom maxStates target rest
            (chosen ++ [root]) { s with states := s.states + 1 }) = .ok (found, s') ∧
          Searched graph target rest (chosen ++ [root]) found s' :=
        enter_spec hs hwith fun hmore ↦
          ih (by rwa [append_assoc, singleton_append]) hwith hmore hs
      obtain ⟨found, s', hrun, hsearched⟩ := henter
      cases found with
      | true =>
        obtain ⟨hex, more, hsub, hmore, hpairs⟩ := hsearched.sound rfl
        refine ⟨true, s', ?_, fun _ ↦ ⟨hex, root :: more, hsub.cons_cons _, ?_, ?_⟩,
          fun hf ↦ absurd hf (by simp)⟩
        · dsimp only [bind, Except.bind]
          rw [if_pos rfl, hrun]
          rfl
        · rwa [append_assoc, singleton_append] at hmore
        · rwa [append_assoc, singleton_append] at hpairs
      | false =>
        by_cases hex : s'.exhausted = true
        · refine ⟨false, s', ?_, fun hf ↦ absurd hf (by simp), fun _ h ↦ ?_⟩
          · dsimp only [bind, Except.bind]
            rw [if_pos rfl, hrun]
            dsimp only
            rw [if_neg Bool.false_ne_true, if_pos hex]
          · rw [hex] at h
            simp at h
        · obtain ⟨found, s'', hrun', hsearched'⟩ :=
            ih hrest hchosen hlength (s := s') (Bool.eq_false_iff.2 hex)
          refine ⟨found, s'', ?_, hlift hsearched' fun _ _ more hsub hmore hpairs ↦ ?_⟩
          · dsimp only [bind, Except.bind]
            rw [if_pos rfl, hrun]
            dsimp only
            rw [if_neg Bool.false_ne_true, if_neg hex, hrun']
          · refine hsearched.complete rfl (Bool.eq_false_iff.2 hex) more hsub ?_ ?_
            · rwa [append_assoc, singleton_append]
            · rwa [append_assoc, singleton_append]

/-! ## Routes of resolved roots -/

theorem resolves_of_root (h : graph.Root a) : graph.Resolves a := by
  obtain ⟨found, hfound, hnone⟩ := h
  have hparent : ∀ b, ¬ graph.Parent a b := by
    rintro b ⟨other, hother, hb⟩
    rw [hfound] at hother
    rw [← Option.some.inj hother, hnone] at hb
    cases hb
  intro b hb
  have hself : b = a := by
    rcases ReflTransGen.cases_head hb with heq | ⟨c, hc, -⟩
    · exact heq.symm
    · exact absurd hc (hparent c)
  subst hself
  refine ⟨?_, fun hcycle ↦ ?_⟩
  · rw [TreeMap.mem_iff_isSome_getElem?, hfound]
    rfl
  · obtain ⟨c, hc, -⟩ := TransGen.head'_iff.1 hcycle
    exact hparent c hc

theorem rootIds_of_resolves (h : graph.Resolves a) : ∃ roots, graph.rootIds a = .ok roots ∧
    ∀ b, b ∈ roots ↔ ReflTransGen graph.Parent a b ∧ graph.Root b := by
  have hanswers := graph.rootIds_answers a
  rcases hwalk : graph.rootIds a with e | roots <;> rw [hwalk] at hanswers
  · exact absurd h hanswers
  · exact ⟨roots, rfl, hanswers.2⟩

/-- A root is its own only root. -/
theorem rootIds_root (h : graph.Root a) : graph.rootIds a = .ok {a} := by
  obtain ⟨roots, hroots, hmem⟩ := rootIds_of_resolves (resolves_of_root h)
  rw [hroots, Finset.ext fun b ↦ (hmem b).trans ?_]
  rw [Finset.mem_singleton]
  refine Iff.symm ⟨?_, ?_⟩
  · rintro rfl
    exact ⟨.refl, h⟩
  · rintro ⟨hb, -⟩
    rcases ReflTransGen.cases_head hb with heq | ⟨c, ⟨other, hother, hc⟩, -⟩
    · exact heq.symm
    · obtain ⟨found, hfound, hnone⟩ := h
      rw [hfound] at hother
      rw [← Option.some.inj hother, hnone] at hc
      cases hc

/-- The relation between two roots is read off the record of their pair. -/
theorem independenceState_roots {b : EvidenceNodeId} (ha : graph.Root a) (hb : graph.Root b) :
    graph.independenceState a b = .ok (if a = b then .knownDependent
      else if graph.recorded (if a < b then (a, b) else (b, a)) then .provenIndependent
      else .unknown) := by
  rw [independenceState, rootIds_root ha, rootIds_root hb]
  dsimp only [bind, Except.bind]
  by_cases hab : a = b
  · rw [if_pos fun hd ↦ Finset.disjoint_singleton.1 hd hab, if_pos hab]
  · rw [if_neg (not_not.2 (Finset.disjoint_singleton.2 hab)), if_neg hab, Finset.sort_singleton,
      Finset.sort_singleton]
    dsimp only
    rw [canonicalPair, if_neg hab]

theorem independent_symm {b : EvidenceNodeId} (ha : graph.Root a) (hb : graph.Root b)
    (h : graph.Independent a b) : graph.Independent b a := by
  rw [Independent, independenceState_roots ha hb] at h
  rw [Independent, independenceState_roots hb ha]
  have hpair : (if b < a then (b, a) else (a, b)) = if a < b then (a, b) else (b, a) := by
    rcases lt_trichotomy a b with hlt | heq | hgt
    · rw [if_neg hlt.not_gt, if_pos hlt]
    · rw [heq]
    · rw [if_pos hgt, if_neg hgt.not_gt]
  rw [hpair]
  by_cases hab : a = b
  · rw [if_pos hab] at h
    exact absurd (Except.ok.inj h) (by simp)
  · rw [if_neg hab] at h
    rwa [if_neg (Ne.symm hab)]

/-- **What a search for one size means for roots**: it finds a set exactly when there is one, unless
it is exhausted. -/
theorem searchExact_spec {roots : Finset EvidenceNodeId} (hroots : ∀ a ∈ roots, graph.Root a)
    {s : SearchState} (hs : s.exhausted = false) :
    ∃ found s', graph.searchExact maxStates target roots.sort [] s = .ok (found, s') ∧
      (found = true → s'.exhausted = false ∧ target ≤ cliqueNumber graph.Independent roots) ∧
      (found = false → s'.exhausted = false →
        cliqueNumber graph.Independent roots < target) := by
  have hcomparable : graph.Comparable ([] ++ roots.sort) := by
    intro a ha b hb
    exact ⟨_, independenceState_roots (hroots a (by simpa using ha)) (hroots b (by simpa using hb))⟩
  have henter : ∃ found s', graph.searchExact maxStates target roots.sort [] s = .ok (found, s') ∧
      Searched graph target roots.sort [] found s' :=
    enter_spec hs List.Pairwise.nil fun hlength ↦
      searchFrom_spec roots.sort hcomparable List.Pairwise.nil hlength hs
  obtain ⟨found, s', hrun, hsearched⟩ := henter
  have hiff : (∃ chosen : List EvidenceNodeId, chosen.Sublist roots.sort ∧ chosen.length = target ∧
      chosen.Pairwise graph.Independent) ↔ target ≤ cliqueNumber graph.Independent roots := by
    have hsymm : ∀ a ∈ roots.sort, ∀ b ∈ roots.sort, graph.Independent a b → graph.Independent b a :=
      fun a ha b hb ↦ independent_symm (hroots a (by simpa using ha)) (hroots b (by simpa using hb))
    rw [exists_sublist_iff hsymm (roots.sort_nodup _), Finset.sort_toFinset]
  refine ⟨found, s', hrun, fun hf ↦ ?_, fun hf hex ↦ not_le.1 fun hle ↦ ?_⟩
  · obtain ⟨hex, chosen, hsub, hlength, hpairs⟩ := hsearched.sound hf
    exact ⟨hex, hiff.1 ⟨chosen, hsub, hlength, hpairs⟩⟩
  · obtain ⟨chosen, hsub, hlength, hpairs⟩ := hiff.2 hle
    exact hsearched.complete hf hex chosen hsub hlength hpairs

/-! ## The count -/

/-- What a count of the routes of `roots` promises. -/
def Counted (graph : EvidenceAncestryGraph) (roots : Finset EvidenceNodeId) (required : ℕ)
    (count : IndependenceRouteCount) : Prop :=
  count.proven ≤ cliqueNumber graph.Independent roots ∧
    (count.incomplete = false → count.proven = min required (cliqueNumber graph.Independent roots))

/-- The sizes from `best + 1` on, when `best` was found. -/
theorem countFrom_spec {roots : Finset EvidenceNodeId} (hroots : ∀ a ∈ roots, graph.Root a)
    {required : ℕ} (n : ℕ) : ∀ {best : ℕ} {s : SearchState}, best < required →
      best + n = min required roots.card → best ≤ cliqueNumber graph.Independent roots →
      s.exhausted = false → ∃ count, graph.countFrom maxStates required roots.sort
        (List.range' (best + 1) n) best s = .ok count ∧ Counted graph roots required count := by
  have hcard := cliqueNumber_le_card graph.Independent roots
  induction n with
  | zero =>
    intro best s hbest hlimit hfound _
    refine ⟨⟨best, false⟩, rfl, hfound, fun _ ↦ ?_⟩
    show best = min required _
    omega
  | succ n ih =>
    intro best s hbest hlimit hfound hs
    obtain ⟨found, s', hrun, hyes, hno⟩ :=
      @searchExact_spec graph maxStates (best + 1) roots hroots s hs
    rw [range'_succ, countFrom, hrun]
    dsimp only [bind, Except.bind]
    cases found with
    | true =>
      obtain ⟨hex, hle⟩ := hyes rfl
      rw [if_pos rfl]
      split
      · rename_i hreached
        refine ⟨⟨best + 1, false⟩, rfl, hle, fun _ ↦ ?_⟩
        show best + 1 = min required _
        omega
      · rename_i hmore
        exact ih (not_le.1 hmore) (by omega) hle hex
    | false =>
      rw [if_neg Bool.false_ne_true]
      refine ⟨⟨best, s'.exhausted⟩, rfl, hfound, fun hex ↦ ?_⟩
      have hlt := hno rfl hex
      show best = min required _
      omega

theorem rootSet_ok {ids : List EvidenceNodeId} (hids : ∀ id ∈ ids, graph.Resolves id) :
    ∃ roots, graph.rootSet ids = .ok roots ∧
      ∀ a, a ∈ roots ↔ ∃ id ∈ ids, ReflTransGen graph.Parent id a ∧ graph.Root a := by
  induction ids using reverseRecOn with
  | nil => exact ⟨∅, rfl, fun a ↦ by simp⟩
  | append_singleton ids id ih =>
    obtain ⟨roots, hroots, hmem⟩ := ih fun i hi ↦ hids i (mem_append_left _ hi)
    obtain ⟨more, hmore, hmores⟩ := rootIds_of_resolves (hids id (mem_append_right _ (.head _)))
    refine ⟨roots ∪ more, ?_, fun a ↦ ?_⟩
    · rw [rootSet, foldlM_append, ← rootSet, hroots]
      dsimp only [bind, Except.bind]
      rw [foldlM_cons, hmore]
      rfl
    · rw [Finset.mem_union, hmem, hmores]
      simp only [mem_append, mem_singleton, or_and_right, exists_or, exists_eq_left]

/-- **The count is never more than the largest set of roots of which any two are proven
independent**, and when it is not marked incomplete it is the size of that set, or `required` when
that is less.  The set has a root when there is any. -/
theorem provenIndependentRouteCount_ok (graph : EvidenceAncestryGraph) (ids : List EvidenceNodeId)
    (required maxStates : ℕ) (hids : ∀ id ∈ ids, graph.Resolves id) :
    ∃ roots : Finset EvidenceNodeId,
      (∀ a, a ∈ roots ↔ ∃ id ∈ ids, ReflTransGen graph.Parent id a ∧ graph.Root a) ∧
      (roots.Nonempty → 1 ≤ cliqueNumber graph.Independent roots) ∧
      ∃ count, graph.provenIndependentRouteCount maxStates ids required = .ok count ∧
        count.proven ≤ cliqueNumber graph.Independent roots ∧
        (count.incomplete = false →
          count.proven = min required (cliqueNumber graph.Independent roots)) := by
  obtain ⟨roots, hroots, hmem⟩ := rootSet_ok hids
  refine ⟨roots, hmem, cliqueNumber_pos, ?_⟩
  have hcard := cliqueNumber_le_card graph.Independent roots
  rw [provenIndependentRouteCount]
  split
  · rename_i hzero
    exact ⟨_, rfl, Nat.zero_le _, fun _ ↦ by rw [hzero, Nat.zero_min]⟩
  rename_i hpos
  rw [hroots]
  dsimp only [bind, Except.bind]
  split
  · rename_i hempty
    rw [hempty, Finset.card_empty, Nat.le_zero] at hcard
    exact ⟨_, rfl, Nat.zero_le _, fun _ ↦ by rw [hempty, hcard, Nat.min_zero]⟩
  rename_i hnonempty
  have hone : 1 ≤ cliqueNumber graph.Independent roots :=
    cliqueNumber_pos (Finset.nonempty_iff_ne_empty.2 hnonempty)
  split
  · refine ⟨_, rfl, hone, fun _ ↦ ?_⟩
    show 1 = min required _
    omega
  · rename_i hmany
    have hsome : 0 < roots.card := Finset.card_pos.2 (Finset.nonempty_iff_ne_empty.2 hnonempty)
    exact countFrom_spec (fun a ha ↦ ((hmem a).1 ha).elim fun _ h ↦ h.2.2) _ (by omega) (by omega)
      hone rfl

/-- Two reports, each with a family of its own. -/
def twoReports : EvidenceAncestryGraph :=
  [("report-a", "one"), ("report-b", "two")].foldl (fun graph report ↦
    (graph.insert Text.toAsciiLowercase ⟨report.1, report.2, [], false⟩).toOption.getD graph) empty

theorem provenIndependentRouteCount_ok_sample :
    ∃ (roots : Finset EvidenceNodeId) (count : IndependenceRouteCount),
      twoReports.provenIndependentRouteCount 4096 ["report-a", "report-b"] 2 = .ok count ∧
        count.proven ≤ cliqueNumber twoReports.Independent roots ∧ (count.incomplete = false →
          count.proven = min 2 (cliqueNumber twoReports.Independent roots)) := by
  have hroots : ∀ id ∈ ["report-a", "report-b"],
      (twoReports.nodes[id]?).map EvidenceAncestryNode.parents = some [] := by
    decide +kernel
  have hids : ∀ id ∈ ["report-a", "report-b"], twoReports.Resolves id := by
    intro id hid
    obtain ⟨node, hnode, hparents⟩ := Option.map_eq_some_iff.1 (hroots id hid)
    exact resolves_of_root ⟨node, hnode, hparents⟩
  obtain ⟨roots, -, -, count, hcount, hle, heq⟩ :=
    provenIndependentRouteCount_ok twoReports ["report-a", "report-b"] 2 4096 hids
  exact ⟨roots, count, hcount, hle, heq⟩

/-! ## Growing -/

/-- One insertion, of a node or of independence evidence. -/
inductive Grows (canonicalFamily : String → String) (graph graph' : EvidenceAncestryGraph) : Prop
  | node (node : EvidenceAncestryNode) (h : graph.insert canonicalFamily node = .ok graph')
  | evidence (evidence : IndependenceEvidence)
    (h : graph.insertIndependenceEvidence evidence = .ok graph')

variable {graph' : EvidenceAncestryGraph} {canonicalFamily : String → String}

/-- No insertion takes anything back. -/
theorem Grows.keeps (h : Grows canonicalFamily graph graph') :
    (∀ (id : EvidenceNodeId) (node : EvidenceAncestryNode),
      graph.nodes[id]? = some node → graph'.nodes[id]? = some node) ∧
      ∀ pair, graph.recorded pair = true → graph'.recorded pair = true := by
  cases h with
  | node node h =>
    simp only [EvidenceAncestryGraph.insert] at h
    split_ifs at h with hfamily hderived hnew
    cases h
    refine ⟨fun id found hfound ↦ ?_, fun pair hpair ↦ hpair⟩
    rw [TreeMap.getElem?_insert, if_neg, hfound]
    intro heq
    rw [eq_of_compare heq, TreeMap.mem_iff_isSome_getElem?, hfound] at hnew
    exact hnew rfl
  | evidence evidence h =>
    rw [insertIndependenceEvidence] at h
    split at h
    · cases h
    dsimp only at h
    split at h
    · split at h <;> cases h
      exact ⟨fun _ _ ↦ id, fun _ ↦ id⟩
    cases h
    refine ⟨fun _ _ ↦ id, fun pair hpair ↦ ?_⟩
    rw [recorded, TreeMap.getElem?_insert]
    split
    · rename_i heq
      rw [recorded, ← eq_of_compare heq] at hpair
      obtain ⟨records, hrecords, hpair⟩ := (Option.any_eq_true _ _).1 hpair
      rw [Option.any_some, hrecords, Option.getD_some, TreeMap.contains_insert, hpair, Bool.or_true]
    · exact hpair

/-- A route that resolved keeps its roots: whatever it reaches was there, and has the parents it
had. -/
theorem rootIds_kept (hnodes : ∀ (id : EvidenceNodeId) (node : EvidenceAncestryNode),
      graph.nodes[id]? = some node → graph'.nodes[id]? = some node)
    {roots : Finset EvidenceNodeId} (h : graph.rootIds a = .ok roots) :
    graph'.rootIds a = .ok roots := by
  have hanswers := graph.rootIds_answers a
  rw [h] at hanswers
  obtain ⟨hresolves, hroots⟩ := hanswers
  have hsame : ∀ {b}, ReflTransGen graph.Parent a b → graph'.nodes[b]? = graph.nodes[b]? := by
    intro b hb
    obtain ⟨node, hnode⟩ := Option.isSome_iff_exists.1
      (TreeMap.mem_iff_isSome_getElem?.1 (hresolves b hb).1)
    rw [hnode, hnodes b node hnode]
  have hback : ∀ {b c}, ReflTransGen graph.Parent a b → ReflTransGen graph'.Parent b c →
      ReflTransGen graph.Parent b c := by
    intro b c hb hbc
    induction hbc with
    | refl => exact .refl
    | tail _ hcd ih => exact ih.tail (by rwa [Parent, hsame (hb.trans ih)] at hcd)
  have hreach : ∀ b, ReflTransGen graph'.Parent a b ↔ ReflTransGen graph.Parent a b := fun b ↦
    ⟨hback .refl, ReflTransGen.mono (fun _ _ ⟨node, hnode, hb⟩ ↦ ⟨node, hnodes _ _ hnode, hb⟩) _ _⟩
  obtain ⟨found, hfound, hmem⟩ := @rootIds_of_resolves graph' a fun b hb ↦ by
    have hb := (hreach b).1 hb
    refine ⟨?_, fun hcycle ↦ (hresolves b hb).2 ?_⟩
    · rw [TreeMap.mem_iff_isSome_getElem?, hsame hb, ← TreeMap.mem_iff_isSome_getElem?]
      exact (hresolves b hb).1
    · obtain ⟨c, hbc, hcb⟩ := TransGen.head'_iff.1 hcycle
      rw [Parent, hsame hb] at hbc
      exact TransGen.head' hbc (hback (hb.tail hbc) hcb)
  rw [hfound, Finset.ext fun b ↦ (hmem b).trans ?_]
  rw [hroots, hreach]
  exact and_congr_right fun hb ↦ by rw [Root, Root, hsame hb]

/-- **A verdict on two routes stands**: once they are known to be dependent, or proven independent,
no insertions change that. -/
theorem verdict_kept (h : ReflTransGen (Grows canonicalFamily) graph graph') {b : EvidenceNodeId}
    {verdict : IndependenceState} (hknown : verdict ≠ .unknown)
    (hab : graph.independenceState a b = .ok verdict) :
    graph'.independenceState a b = .ok verdict := by
  induction h with
  | refl => exact hab
  | @tail before after _ hgrows ih =>
    obtain ⟨hnodes, hrecorded⟩ := hgrows.keeps
    rw [independenceState] at ih
    obtain ⟨left, hleft, ih⟩ := Except.bind_ok.1 ih
    obtain ⟨right, hright, ih⟩ := Except.bind_ok.1 ih
    rw [independenceState, rootIds_kept hnodes hleft, rootIds_kept hnodes hright]
    dsimp only [bind, Except.bind] at ih ⊢
    split at ih <;> rename_i hshared
    · rwa [if_pos hshared]
    rw [if_neg hshared]
    split at ih
    · rename_i first second _ _
      rcases hpair : canonicalPair first second with e | pair <;> rw [hpair] at ih
      · cases ih
      · dsimp only at ih ⊢
        split at ih <;> rename_i hon
        · rwa [if_pos (hrecorded pair hon)]
        · cases ih
          exact absurd rfl hknown
    · cases ih
      exact absurd rfl hknown

/-- The two reports, and evidence that they are independent. -/
def vouched : EvidenceAncestryGraph :=
  (twoReports.insertIndependenceEvidence ⟨"report-a", "report-b", .explicitUpstreamProvenance,
    "manual", 1, ["log"], 0⟩).toOption.getD twoReports

theorem verdict_kept_sample : ∃ after,
    vouched.insert Text.toAsciiLowercase ⟨"copy", "three", ["report-a"], true⟩ = .ok after ∧
      after.independenceState "report-a" "report-b" = .ok .provenIndependent := by
  have hroots : ∀ id ∈ ["report-a", "report-b"],
      (vouched.nodes[id]?).map EvidenceAncestryNode.parents = some [] := by
    decide +kernel
  have hroot : ∀ id ∈ ["report-a", "report-b"], vouched.Root id := fun id hid ↦
    Option.map_eq_some_iff.1 (hroots id hid)
  have hstate : vouched.independenceState "report-a" "report-b" = .ok .provenIndependent := by
    rw [independenceState_roots (hroot _ (.head _)) (hroot _ (.tail _ (.head _)))]
    exact congrArg Except.ok (by decide +kernel)
  have hok : (vouched.insert Text.toAsciiLowercase
      ⟨"copy", "three", ["report-a"], true⟩).isOk = true := by
    decide +kernel
  rcases hafter : vouched.insert Text.toAsciiLowercase ⟨"copy", "three", ["report-a"], true⟩
    with e | after
  · rw [hafter] at hok
    cases hok
  · exact ⟨after, rfl, verdict_kept (.single (.node _ hafter)) (by decide) hstate⟩

end EvidenceAncestryGraph

end Huntsman
