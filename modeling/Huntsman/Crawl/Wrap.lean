import Huntsman.Crawl.Reasons
import Std.Data.String.ToNat

/-!
# A crawl whose generation counter wraps

The generations of a crawl are counted by a `u32`, and the depth bound is compared with the count.
Under the largest depth bound the comparison never fails, and the count wraps: a chain of domains,
each found by looking up the one before, goes on for as many generations as the dispatch budget
allows.  `chain_unbounded` is such a crawl, of one generation more than the bound permits.
-/

set_option autoImplicit false

namespace Huntsman

namespace Wrap

/-- The `n`th domain of the chain. -/
def link (n : ℕ) : Target := { kind := .domain, selector := n.repr ++ ".example.com" }

theorem link_key (n : ℕ) : (link n).ownedKey = ("domain", n.repr ++ ".example.com") := rfl

theorem link_injective {m n : ℕ} (h : (link m).ownedKey = (link n).ownedKey) : m = n := by
  rw [link_key, link_key, Prod.mk.injEq] at h
  exact Nat.repr_injective (String.append_left_inj _ |>.1 h.2)

/-- A collector that counts its lookups and finds the next domain with each. -/
def chain : SelectorCollector ℕ :=
  .sequential fun _ n ↦ ({ entities := [foundDomain (link (n + 1)).selector], outcomes := [] }, n + 1)

/-- The largest depth bound, and one dispatch more than a `u32` counts. -/
def policy : RecursionPolicy where
  maxGenerations := 4294967295
  expandConfidenceFloor := .ofRat 0
  maxDispatches := 2 ^ 32 + 1
  maxEntities := 2 ^ 33
  maxFrontierPerGeneration := 1
  exposeEmails := false

theorem expansions_found (n : ℕ) (generation : UInt32) :
    expansions domainSelectors { foundDomain (link n).selector with generation } policy
      = [link n] :=
  rfl

theorem queueCandidate_link {n : ℕ} (heldAt : F64) (state : CrawlState)
    (hnew : (link n).ownedKey ∉ state.visited) :
    CrawlState.queueCandidate policy heldAt (state, Frontier.empty) (link n)
      = (state.followAt (link n).ownedKey heldAt, (Frontier.empty.push (link n)).1) := by
  have hseen : Frontier.empty.containsKey (link n).ownedKey = false := by
    rw [Frontier.containsKey, decide_eq_false_iff_not]
    exact Finset.notMem_empty _
  have hroom : Frontier.empty.fullFor (link n).kind.command policy.maxFrontierPerGeneration
      = false := by
    show Frontier.empty.fullFor ScanKind.domain.command 1 = false
    decide
  simp only [CrawlState.queueCandidate, hnew, hseen, hroom, if_false, Bool.false_eq_true]

/-- What the lookup of a link queues and keeps. -/
theorem takeStep_link {n : ℕ} (generation : UInt32) (state : CrawlState)
    (hnew : (link (n + 1)).ownedKey ∉ state.visited) :
    let s := CrawlState.takeStep domainSelectors policy generation (link n)
      { entities := [foundDomain (link (n + 1)).selector], outcomes := [] }
      (state, Frontier.empty)
    s.2.queue = [link (n + 1)] ∧ s.1.entities.length = state.entities.length + 1 := by
  have hqueue : (Frontier.empty.push (link (n + 1))).1.queue = [link (n + 1)] :=
    Frontier.queue_push_of_notMem (Finset.notMem_empty _)
  simp only [CrawlState.takeStep, CrawlState.takeEntity, CrawlState.queueExpansions,
    expansions_found, List.foldl_cons, List.foldl_nil]
  rw [queueCandidate_link]
  · -- a link carries no record, so it is kept whether or not it was a pivot's
    split
    · exact ⟨hqueue, List.length_append⟩
    · exact ⟨hqueue, List.length_append⟩
  · exact hnew

/-- What holds when the `n`th generation of the chain begins. -/
structure Chained (n : ℕ) (r : Rounds ℕ) : Prop where
  frontier : r.frontier = [link n]
  lookups : r.session.outside = n
  new : ∀ m, n ≤ m → (link m).ownedKey ∉ r.state.visited
  entities : r.state.entities.length ≤ n
  dispatches : r.state.dispatches = n
  /-- Every generation dispatched. -/
  generations : r.state.generations.countP (fun g ↦ 0 < g.dispatched) = n

/-- The locals of a generation once its only wave was dispatched. -/
theorem wavePass_link {n : ℕ} (generation : UInt32) (state : CrawlState) (session : Session ℕ)
    (hlookups : session.outside = n) (hnew : ∀ m, n ≤ m → (link m).ownedKey ∉ state.visited)
    (hentities : state.entities.length ≤ n) (hdispatches : state.dispatches = n)
    (hn : n < 2 ^ 32 + 1) :
    ∃ l : Locals ℕ, wavePass domainSelectors policy chain generation
        (Locals.start state [link n] session) = .again l ∧
      l.remaining = [] ∧ l.stopped = false ∧ l.next.queue = [link (n + 1)] ∧
      l.session.outside = n + 1 ∧ l.dispatched = 1 ∧
      l.state.visited = insert (link n).ownedKey state.visited ∧
      l.state.entities.length = state.entities.length + 1 ∧ l.state.dispatches = n + 1 ∧
      l.state.generations = state.generations := by
  have hvisited : (link n).ownedKey ∉ state.visited := hnew n le_rfl
  have hspent : ¬ state.spent policy 0 := by
    rintro (h | h)
    · have : 2 ^ 32 + 1 ≤ state.dispatches + 0 := h
      omega
    · have : 2 ^ 33 ≤ state.entities.length := h
      omega
  subst hlookups
  simp only [wavePass, Locals.start, Locals.cancelled, chain, SelectorCollector.sequential,
    Locals.asked, hvisited, hspent, if_false, Bool.false_eq_true, fillBatch, dispatchWave]
  have hnext : (link (session.outside + 1)).ownedKey ∉
      (state.visit (link session.outside).ownedKey).visited := by
    intro hmem
    rcases Finset.mem_insert.1 hmem with heq | hmem
    · have := link_injective heq
      omega
    · exact hnew _ (Nat.le_succ _) hmem
  obtain ⟨hqueue, hlength⟩ := takeStep_link generation _ hnext
  have hred := CrawlState.takeStep_reduced domainSelectors policy generation
    (link session.outside)
    { entities := [foundDomain (link (session.outside + 1)).selector], outcomes := [] }
    (state.visit (link session.outside).ownedKey, Frontier.empty)
  exact ⟨_, rfl, rfl, rfl, hqueue, rfl, rfl, hred.visited, hlength,
    hred.dispatches.trans (by rw [← hdispatches]; rfl), hred.generations⟩

/-- One generation of the chain, before it is closed. -/
theorem runWaves_link {n : ℕ} (generation : UInt32) (state : CrawlState) (session : Session ℕ)
    (hlookups : session.outside = n) (hnew : ∀ m, n ≤ m → (link m).ownedKey ∉ state.visited)
    (hentities : state.entities.length ≤ n) (hdispatches : state.dispatches = n)
    (hn : n < 2 ^ 32 + 1) :
    let l := runWaves domainSelectors policy chain generation
      (Locals.start state [link n] session)
    l.stopped = false ∧ l.next.queue = [link (n + 1)] ∧ l.session.outside = n + 1 ∧
      l.dispatched = 1 ∧ l.state.visited = insert (link n).ownedKey state.visited ∧
      l.state.entities.length = state.entities.length + 1 ∧ l.state.dispatches = n + 1 ∧
      l.state.generations = state.generations := by
  obtain ⟨l, hpass, hrem, hrest⟩ :=
    wavePass_link generation state session hlookups hnew hentities hdispatches hn
  have hleave : wavePass domainSelectors policy chain generation l = .leave l := by
    rw [wavePass, hrem]
  have hrun : runWaves domainSelectors policy chain generation
      (Locals.start state [link n] session) = l :=
    (Loop.run_again hpass).trans (Loop.run_leave hleave)
  rw [hrun]
  exact hrest

/-- **One generation of the chain leads to the next**, as long as the budget has room. -/
theorem Chained.step {n : ℕ} {r : Rounds ℕ} (h : Chained n r) (hn : n < 2 ^ 32 + 1) :
    ∃ r', generationPass domainSelectors policy chain r = .again r' ∧ Chained (n + 1) r' := by
  obtain ⟨hstop, hqueue, hlookups, hone, hvisited, hentities, hdispatches, hgenerations⟩ :=
    runWaves_link r.generation r.state r.session h.lookups h.new h.entities h.dispatches hn
  have hwork : r.frontier ≠ [] := by
    rw [h.frontier]
    exact List.cons_ne_nil _ _
  have hdepth : ¬ policy.maxGenerations < r.generation := by
    rw [UInt32.lt_iff_toNat_lt]
    have := r.generation.toNat_lt
    show ¬ 4294967295 < r.generation.toNat
    omega
  rw [generationPass, if_neg hwork, if_neg hdepth, h.frontier]
  simp only [CrawlState.step, hstop, Bool.false_eq_true, if_false]
  refine ⟨_, rfl, ⟨?_, hlookups, ?_, ?_, hdispatches, ?_⟩⟩
  · have hperm := Frontier.intoQueue_perm (runWaves domainSelectors policy chain r.generation
      (Locals.start r.state [link n] r.session)).next
    rw [hqueue] at hperm
    exact List.perm_singleton.1 hperm
  · intro m hm hmem
    rw [show (CrawlState.close _ _ _ _).visited = _ from hvisited, Finset.mem_insert] at hmem
    rcases hmem with heq | hmem
    · have := link_injective heq
      omega
    · exact h.new m (by omega) hmem
  · refine (length_mergeByUid_le _ _).trans ?_
    rw [hentities]
    exact Nat.succ_le_succ h.entities
  · show List.countP _ (_ ++ [_]) = _
    rw [List.countP_append, hgenerations, h.generations, hone]
    rfl

/-- The crawl's loop from a link is its loop from any later link the budget has room for. -/
theorem exists_chained {r : Rounds ℕ} (h : Chained 0 r) (n : ℕ) (hn : n ≤ 2 ^ 32 + 1) :
    ∃ r', Chained n r' ∧
      Loop.run (generationPass domainSelectors policy chain) (Rounds.left policy)
          (generationPass_falls domainSelectors policy chain) r
        = Loop.run (generationPass domainSelectors policy chain) (Rounds.left policy)
          (generationPass_falls domainSelectors policy chain) r' := by
  induction n with
  | zero => exact ⟨r, h, rfl⟩
  | succ n ih =>
    obtain ⟨r', hr', hrun⟩ := ih (by omega)
    obtain ⟨r'', hpass, hr''⟩ := hr'.step (by omega)
    exact ⟨r'', hr'', hrun.trans (Loop.run_again hpass)⟩

/-- A generation that dispatched stays on record. -/
theorem generationPass_countP {n : ℕ} (r : Rounds ℕ)
    (h : n ≤ r.state.generations.countP fun g ↦ 0 < g.dispatched) :
    n ≤ (generationPass domainSelectors policy chain r).locals.state.generations.countP
      fun g ↦ 0 < g.dispatched := by
  have hstep : n ≤ (r.state.step domainSelectors policy chain r.generation r.frontier
      r.session).state.generations.countP fun g ↦ 0 < g.dispatched := by
    obtain ⟨-, hgen⟩ := step_generations domainSelectors policy chain r.state r.generation
      r.frontier r.session
    rw [hgen, List.countP_append]
    exact h.trans (Nat.le_add_right _ _)
  rw [generationPass]
  split
  · exact h
  split
  · exact h
  simp only
  split
  · exact hstep
  · exact hstep

/-- The chain, crawled from its first domain. -/
def chainCrawl : Crawled ℕ := run domainSelectors policy chain [(link 0).selector] 0

/-- **A crawl that outlives its depth bound.**  The bound permits `2 ^ 32` generations; this crawl
dispatches in one more. -/
theorem chain_unbounded :
    policy.maxGenerations.toNat + 1
      < chainCrawl.report.generations.countP fun g ↦ 0 < g.dispatched := by
  have hstart : Chained 0 {
      state := {}, frontier := (Frontier.empty.pushAll [link 0]).intoQueue
      generation := 0, maxDepth := false, session := { outside := 0, waves := [] } } := by
    refine ⟨?_, rfl, fun m _ ↦ Finset.notMem_empty _, le_rfl, rfl, rfl⟩
    have hperm := Frontier.intoQueue_perm (Frontier.empty.pushAll [link 0])
    rw [Frontier.pushAll_cons, Frontier.pushAll_nil,
      Frontier.queue_push_of_notMem (Finset.notMem_empty _)] at hperm
    exact List.perm_singleton.1 hperm
  obtain ⟨r, hr, hrun⟩ := exists_chained hstart (2 ^ 32 + 1) le_rfl
  have hcount : 2 ^ 32 + 1 ≤ chainCrawl.report.generations.countP fun g ↦ 0 < g.dispatched := by
    have hcrawl : chainCrawl = crawl domainSelectors policy chain [link 0] []
        (Frontier.empty.pushAll [link 0]).intoQueue 0 := rfl
    rw [hcrawl, crawl, runGenerations, hrun]
    refine Loop.run_inv
      (fun r : Rounds ℕ ↦ 2 ^ 32 + 1 ≤ r.state.generations.countP fun g ↦ 0 < g.dispatched)
      (fun r : Rounds ℕ ↦ 2 ^ 32 + 1 ≤ r.state.generations.countP fun g ↦ 0 < g.dispatched)
      ?_ ?_ hr.generations.ge
    · intro r r' h hpass
      have := generationPass_countP r h
      rwa [hpass] at this
    · intro r r' h hpass
      have := generationPass_countP r h
      rwa [hpass] at this
  exact hcount

end Wrap

end Huntsman
