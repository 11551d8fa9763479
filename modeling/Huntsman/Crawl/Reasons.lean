import Huntsman.Crawl.Report

/-!
# What the reason a crawl gives means

Three questions about a finished crawl, answered from `Ran.sound`.

* **Does a fixed point mean that everything was looked up?**  It does when no candidate was turned
  away (`fixedPoint_complete`).  A candidate that a full generation has no room for raises the
  resource limit, but a crawl whose queue then runs dry still reports a fixed point
  (`fixedPoint_incomplete`).
* **Does a bound mean that something was left?**  It does when no wave dispatches a target that
  already waits for the next generation or was already turned away (`bound_leaves_work`), and need
  not when one does (`bound_without_work`).
* **How much does a crawl dispatch?**  No key twice, never more than the budget, and in no more
  generations than the depth bound allows as long as the generation counter cannot wrap
  (`crawl_bounded`; `Huntsman.Crawl.Wrap` has a crawl whose counter does).
-/

set_option autoImplicit false

namespace Huntsman

/-! ## A collector of domain names

What the reasons say, and where they mislead, is shown on crawls of plain domain names. -/

/-- The routes of plain domain names, which are their own selectors. -/
def domainSelectors : Selectors where
  inferKind _ := .domain
  canonicalSelector kind raw := if kind = .domain then some raw else none
  isInfrastructureEmail _ := false
  isNoreplyEmailDomain _ := false
  parsesAsJson _ := false

/-- A domain a lookup found. -/
def foundDomain (name : String) : Entity where
  uid := name
  kind := .domain
  value := name
  rawValue := name
  confidence := .ofRat 1

/-- A collector that finds the domains `found` names under each selector. -/
def domainCollector (found : String → List String) : SelectorCollector Unit :=
  .sequential fun target s ↦
    ({ entities := (found target.selector).map foundDomain, outcomes := [] }, s)

/-- A policy for small crawls. -/
def smallPolicy (maxGenerations : UInt32) (maxFrontierPerGeneration : ℕ) : RecursionPolicy where
  maxGenerations
  expandConfidenceFloor := .ofRat 0
  maxDispatches := 10
  maxEntities := 10
  maxFrontierPerGeneration
  exposeEmails := false

/-- `example.com` leads to two more domains. -/
def branching : String → List String
  | "example.com" => ["a.example.com", "b.example.com"]
  | _ => []

/-- A crawl from `example.com`. -/
def branchingCrawl (maxGenerations : UInt32) (cap : ℕ) : Crawled Unit :=
  run domainSelectors (smallPolicy maxGenerations cap) (domainCollector branching)
    ["example.com"] ()

/-- `a.example.com` leads to `c.example.com`. -/
def circling : String → List String
  | "a.example.com" => ["c.example.com"]
  | _ => []

/-- A crawl from three domains, the first of which leads to the third. -/
def circlingCrawl : Crawled Unit :=
  run domainSelectors (smallPolicy 0 4) (domainCollector circling)
    ["a.example.com", "b.example.com", "c.example.com"] ()

section

variable {σ : Type} {R : Selectors} {policy : RecursionPolicy} {collector : SelectorCollector σ}
  {crawled : Crawled σ}

/-! ## Fixed points -/

/-- **A fixed point is complete when nothing was turned away**: every accepted seed and every
expansion of every entity a lookup returned was dispatched. -/
theorem fixedPoint_complete (h : Ran R policy collector crawled)
    (hroom : crawled.state.turnedAway = []) (hfix : crawled.report.termination = .fixedPoint) :
    ∀ t, crawled.session.LedTo R policy crawled.report.acceptedSeeds t →
      t.ownedKey ∈ crawled.session.keys := by
  intro t ht
  have hnil := h.sound.fixedPoint hfix
  rcases h.sound.covered t ht with hk | hk | hk
  · exact hk
  · rw [hnil] at hk
    cases hk
  · rw [hroom] at hk
    cases hk

/-- With room for both, the crawl of `branching` looks up the second domain too. -/
theorem fixedPoint_complete_branching :
    (Target.mk .domain "b.example.com").ownedKey ∈ (branchingCrawl 3 4).session.keys :=
  fixedPoint_complete (.run ["example.com"] ()) (by decide +kernel) (by decide +kernel) _
    (by decide +kernel)

/-- **A fixed point that is not complete.**  A generation has room for one target: the second domain
is turned away and never looked up, and the crawl reports a fixed point once the first was. -/
theorem fixedPoint_incomplete :
    (branchingCrawl 3 1).report.termination = .fixedPoint ∧
      (branchingCrawl 3 1).session.LedTo domainSelectors (smallPolicy 3 1)
        (branchingCrawl 3 1).report.acceptedSeeds ⟨.domain, "b.example.com"⟩ ∧
      (Target.mk .domain "b.example.com").ownedKey ∉ (branchingCrawl 3 1).session.keys := by
  refine ⟨?_, ?_, ?_⟩ <;> decide +kernel

/-! ## Bounds -/

/-- **A bound leaves work when the waves kept apart from the queue**: of a crawl that was never
cancelled, something it was led to was not dispatched, and nothing that is left or was turned away
had been dispatched. -/
theorem bound_leaves_work (h : Ran R policy collector crawled)
    (hapart : ∀ wave ∈ crawled.session.waves, wave.Apart) (hgoing : crawled.state.cancelled = false)
    (hbound : crawled.report.truncated = true ∨ crawled.report.termination = .maxDepth ∨
      crawled.report.termination = .resourceLimit) :
    (∃ t, crawled.session.LedTo R policy crawled.report.acceptedSeeds t ∧
        t.ownedKey ∉ crawled.session.keys) ∧
      ∀ t, t ∈ crawled.frontier ∨ t ∈ crawled.state.turnedAway →
        t.ownedKey ∉ crawled.session.keys := by
  have hfresh := h.sound.fresh hapart
  refine ⟨?_, hfresh⟩
  have hleft : ∀ t, t ∈ crawled.frontier ∨ t ∈ crawled.state.turnedAway →
      ∃ t, crawled.session.LedTo R policy crawled.report.acceptedSeeds t ∧
        t.ownedKey ∉ crawled.session.keys :=
    fun t ht ↦ ⟨t, h.sound.led t ht, hfresh t ht⟩
  have hsome : crawled.frontier ≠ [] ∨ crawled.state.turnedAway ≠ [] := by
    rcases hbound with htrunc | hreason
    · rcases h.sound.truncated htrunc with hc | hlim | hne
      · exact absurd (hgoing.symm.trans hc) Bool.false_ne_true
      · rcases h.sound.limited hlim with hne | ⟨t, ht, -⟩
        · exact .inr hne
        · exact .inl (List.ne_nil_of_mem ht)
      · exact .inl hne
    · exact .inl (h.sound.bound hreason)
  rcases hsome with hne | hne
  · obtain ⟨t, ht⟩ := List.exists_mem_of_ne_nil _ hne
    exact hleft t (.inl ht)
  · obtain ⟨t, ht⟩ := List.exists_mem_of_ne_nil _ hne
    exact hleft t (.inr ht)

/-- No expansion is followed: both domains are left, and the crawl says that it was bounded. -/
theorem bound_leaves_work_branching :
    (∃ t, (branchingCrawl 0 4).session.LedTo domainSelectors (smallPolicy 0 4)
        (branchingCrawl 0 4).report.acceptedSeeds t ∧
        t.ownedKey ∉ (branchingCrawl 0 4).session.keys) ∧
      ∀ t, t ∈ (branchingCrawl 0 4).frontier ∨ t ∈ (branchingCrawl 0 4).state.turnedAway →
        t.ownedKey ∉ (branchingCrawl 0 4).session.keys :=
  bound_leaves_work (.run ["example.com"] ()) (by decide +kernel) (by decide +kernel)
    (by decide +kernel)

/-- **A bound that left nothing.**  The third seed still waits when the first leads to it, so it is
queued for a generation the depth bound forbids; it is then dispatched with the seeds, and the crawl
is reported as truncated at its depth though everything it was led to was looked up. -/
theorem bound_without_work :
    circlingCrawl.state.cancelled = false ∧ circlingCrawl.report.truncated = true ∧
      circlingCrawl.report.termination = .maxDepth ∧
      ∀ t, circlingCrawl.session.LedTo domainSelectors (smallPolicy 0 4)
        circlingCrawl.report.acceptedSeeds t → t.ownedKey ∈ circlingCrawl.session.keys := by
  refine ⟨by decide +kernel, by decide +kernel, by decide +kernel, fun t ht ↦ ?_⟩
  rw [Session.ledTo_iff] at ht
  revert t
  decide +kernel

/-! ## Budgets -/

/-- **How much a crawl dispatches**: no key twice, as much as it reports, never more than the
budget, and, when the generation counter cannot wrap, in at most one generation more than the depth
bound. -/
theorem crawl_bounded (h : Ran R policy collector crawled) :
    crawled.session.keys.Nodup ∧
      crawled.report.dispatches = crawled.session.dispatched.length ∧
      crawled.report.dispatches ≤ policy.maxDispatches ∧
      (crawled.report.generations.map GenerationStat.dispatched).sum
        = crawled.report.dispatches ∧
      (policy.maxGenerations.toNat + 1 < 2 ^ 32 ∨ policy.maxDispatches ≤ 2 ^ 32 →
        crawled.report.generations.countP (fun g ↦ 0 < g.dispatched)
          ≤ policy.maxGenerations.toNat + 1) := by
  have hs := h.sound
  refine ⟨hs.nodup, hs.count, hs.budget, hs.sum, fun hwrap ↦ ?_⟩
  by_cases hmax : policy.maxGenerations.toNat + 1 < 2 ^ 32
  · exact List.countP_le_length.trans (hs.generations hmax)
  · -- each generation that dispatches spends one dispatch
    have hone : ∀ generations : List GenerationStat,
        generations.countP (fun g ↦ 0 < g.dispatched)
          ≤ (generations.map GenerationStat.dispatched).sum := by
      intro generations
      induction generations with
      | nil => exact le_rfl
      | cons g gs ih =>
        rw [List.countP_cons, List.map_cons, List.sum_cons]
        split
        · rename_i hg
          have := of_decide_eq_true hg
          omega
        · omega
    have hsum := hs.sum
    have hbudget := hs.budget
    have hle := hone crawled.report.generations
    omega

/-- The crawl of `branching` dispatches its three domains. -/
theorem crawl_bounded_branching :
    (branchingCrawl 3 4).session.keys.Nodup ∧
      (branchingCrawl 3 4).report.dispatches = (branchingCrawl 3 4).session.dispatched.length ∧
      (branchingCrawl 3 4).report.dispatches ≤ 10 ∧
      ((branchingCrawl 3 4).report.generations.map GenerationStat.dispatched).sum
        = (branchingCrawl 3 4).report.dispatches ∧
      (branchingCrawl 3 4).report.generations.countP (fun g ↦ 0 < g.dispatched) ≤ 4 := by
  have hran : Ran domainSelectors (smallPolicy 3 4) (domainCollector branching)
      (branchingCrawl 3 4) := .run ["example.com"] ()
  obtain ⟨hnodup, hcount, hbudget, hsum, hgenerations⟩ := crawl_bounded hran
  exact ⟨hnodup, hcount, hbudget, hsum, hgenerations (.inl (by decide))⟩

end

end Huntsman
