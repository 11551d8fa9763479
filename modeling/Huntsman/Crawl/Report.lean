import Huntsman.Crawl.Invariant

/-!
# What a crawl's report may be trusted for

The invariant of a generation is carried through the generations (`step_inv`, `step_records`) to the
end of the crawl's loop (`runGenerations_ended`), where the report is made.  What the report may
then be trusted for is `Crawled.Sound`, and `Ran.sound` says that it holds of every crawl: of raw
seeds or of routed targets, under every policy, whatever the collector answers.
-/

set_option autoImplicit false

namespace Huntsman

open List

section

variable {σ : Type} (R : Selectors) (policy : RecursionPolicy) (collector : SelectorCollector σ)

/-- A finished crawl: of raw seeds, or of targets already routed. -/
inductive Ran : Crawled σ → Prop where
  | run (seeds : List String) (outside : σ) : Ran (run R policy collector seeds outside)
  | runTargets (targets : List Target) (outside : σ) :
      Ran (runTargets R policy collector targets outside)

/-! ## Through the generations -/

variable (accepted : List Target)

/-- What holds when a generation begins. -/
structure Rounds.Inv (r : Rounds σ) : Prop where
  crawl : Huntsman.Inv R policy accepted (Locals.start r.state r.frontier r.session)
  /-- The depth bound ends the crawl. -/
  depth : r.maxDepth = false
  /-- Every dispatch belongs to one generation. -/
  sum : (r.state.generations.map GenerationStat.dispatched).sum = r.state.dispatches
  /-- The counter counts the generations as a `u32` does. -/
  counter : r.generation.toNat = r.state.generations.length % 2 ^ 32
  /-- A counter that does not wrap bounds the generations. -/
  bound : policy.maxGenerations.toNat + 1 < 2 ^ 32 →
    r.state.generations.length ≤ policy.maxGenerations.toNat + 1

/-- What holds when a crawl ends. -/
structure Rounds.Ended (r : Rounds σ) : Prop where
  /-- The invariant of its last generation, where what waits is what is left. -/
  last : ∃ l : Locals σ, Huntsman.Inv R policy accepted l ∧ l.batch = [] ∧ l.session = r.session ∧
    l.state = r.state ∧ (∀ t, t ∈ r.frontier ↔ t ∈ l.remaining ∨ t ∈ l.next.queue) ∧
    (r.frontier ≠ [] → l.stopped = true ∨ r.maxDepth = true)
  /-- The depth bound is only reported for a target it forbids. -/
  depth : r.maxDepth = true → r.frontier ≠ []
  sum : (r.state.generations.map GenerationStat.dispatched).sum = r.state.dispatches
  bound : policy.maxGenerations.toNat + 1 < 2 ^ 32 →
    r.state.generations.length ≤ policy.maxGenerations.toNat + 1

variable {R policy accepted}

/-- A generation that begins with the invariant ends with it. -/
theorem step_inv {r : Rounds σ} (h : r.Inv R policy accepted) :
    let after := r.state.step R policy collector r.generation r.frontier r.session
    Huntsman.Inv R policy accepted after ∧ after.batch = [] ∧ after.remaining = [] := by
  obtain ⟨hmoves, hbatch⟩ := runWaves_moves R policy collector r.generation
    (Locals.start r.state r.frontier r.session) rfl
  have hinv := Loop.steps_inv (Huntsman.Inv R policy accepted)
    (Inv.move collector r.generation) h.crawl hmoves
  refine ⟨hinv.close r.generation _, hbatch, ?_⟩
  by_cases hstop : (runWaves R policy collector r.generation
      (Locals.start r.state r.frontier r.session)).stopped = true
  · exact (hinv.halted hstop).1
  · exact runWaves_remaining R policy collector r.generation _ (by simpa using hstop)

variable (R policy) in
/-- A generation's record is added to the others, and tells what it dispatched. -/
theorem step_generations (before : CrawlState) (generation : UInt32) (frontier : List Target)
    (session : Session σ) :
    let after := before.step R policy collector generation frontier session
    after.state.dispatches = before.dispatches + after.dispatched ∧
      after.state.generations = before.generations ++ [{
        generation, dispatched := after.dispatched
        entitiesAfter := after.state.entities.length }] := by
  have hspend := runWaves_spending R policy collector before generation frontier session
  refine ⟨hspend.count, ?_⟩
  rw [← hspend.generations]
  rfl

/-- **A generation keeps what holds between generations**, whether or not another follows. -/
theorem step_records {r : Rounds σ} (h : r.Inv R policy accepted)
    (hdepth : ¬ policy.maxGenerations < r.generation) :
    let after := r.state.step R policy collector r.generation r.frontier r.session
    (after.state.generations.map GenerationStat.dispatched).sum = after.state.dispatches ∧
      (r.generation + 1).toNat = after.state.generations.length % 2 ^ 32 ∧
      (policy.maxGenerations.toNat + 1 < 2 ^ 32 →
        after.state.generations.length ≤ policy.maxGenerations.toNat + 1) := by
  obtain ⟨hcount, hgen⟩ := step_generations R policy collector r.state r.generation r.frontier
    r.session
  simp only at hcount hgen ⊢
  have hcounter := h.counter
  have hle : r.generation.toNat ≤ policy.maxGenerations.toNat := by
    rw [UInt32.lt_iff_toNat_lt] at hdepth
    omega
  rw [hgen, hcount]
  refine ⟨?_, ?_, fun hwrap ↦ ?_⟩
  · simp [h.sum]
  · rw [UInt32.toNat_add, hcounter, length_append, length_singleton]
    simp
  · have hold := h.bound hwrap
    rw [length_append, length_singleton]
    rw [Nat.mod_eq_of_lt (by omega)] at hcounter
    omega

/-- A generation that is followed by another keeps what holds when it begins. -/
theorem Rounds.Inv.again {r r' : Rounds σ} (h : r.Inv R policy accepted)
    (hpass : generationPass R policy collector r = .again r') : r'.Inv R policy accepted := by
  rw [generationPass] at hpass
  split at hpass
  · cases hpass
  split at hpass
  · cases hpass
  rename_i hdepth
  simp only at hpass
  split at hpass
  · cases hpass
  rename_i hstop
  cases hpass
  obtain ⟨hinv, hbatch, hrem⟩ := step_inv collector h
  obtain ⟨hsum, hcounter, hbound⟩ := step_records collector h hdepth
  exact ⟨hinv.next hbatch hrem (by simpa using hstop), h.depth, hsum, hcounter, hbound⟩

theorem Rounds.Inv.init (outside : σ) : Rounds.Inv R policy accepted
    { state := {}, frontier := (Frontier.empty.pushAll accepted).intoQueue, generation := 0,
      maxDepth := false, session := { outside, waves := [] } } :=
  ⟨Huntsman.Inv.init accepted outside, rfl, rfl, rfl, fun _ ↦ Nat.zero_le _⟩

/-- **What holds when a crawl ends.** -/
theorem runGenerations_ended (outside : σ) :
    (runGenerations R policy collector (Frontier.empty.pushAll accepted).intoQueue
      outside).Ended R policy accepted := by
  refine Loop.run_inv (Rounds.Inv R policy accepted) (Rounds.Ended R policy accepted)
    (fun _ _ h ↦ h.again collector) ?_ (Rounds.Inv.init outside)
  · intro r r' h hpass
    have hwaits : ∀ t, t ∈ r.frontier ↔
        t ∈ (Locals.start r.state r.frontier r.session).remaining ∨
          t ∈ (Locals.start r.state r.frontier r.session).next.queue := by
      simp [Locals.start]
    rw [generationPass] at hpass
    split at hpass
    · rename_i hnil
      cases hpass
      exact ⟨⟨_, h.crawl, rfl, rfl, rfl, hwaits, fun hne ↦ absurd hnil hne⟩,
        fun hd ↦ absurd (h.depth.symm.trans hd) Bool.false_ne_true, h.sum, h.bound⟩
    rename_i hwork
    split at hpass
    · cases hpass
      exact ⟨⟨_, h.crawl, rfl, rfl, rfl, hwaits, fun _ ↦ .inr rfl⟩, fun _ ↦ hwork, h.sum,
        h.bound⟩
    rename_i hdepth
    simp only at hpass
    split at hpass
    · rename_i hstop
      cases hpass
      obtain ⟨hinv, hbatch, hrem⟩ := step_inv collector h
      obtain ⟨hsum, -, hbound⟩ := step_records collector h hdepth
      refine ⟨⟨_, hinv, hbatch, rfl, rfl, fun t ↦ ?_, fun _ ↦ .inl hstop⟩,
        fun hd ↦ absurd (h.depth.symm.trans hd) Bool.false_ne_true, hsum, hbound⟩
      rw [hrem]
      exact Frontier.mem_intoQueue.trans (by simp)
    · cases hpass

/-- What a finished crawl may be trusted for. -/
structure Crawled.Sound (R : Selectors) (policy : RecursionPolicy) (crawled : Crawled σ) :
    Prop where
  /-- No key was passed to the collector twice. -/
  nodup : crawled.session.keys.Nodup
  /-- The report counts the targets passed. -/
  count : crawled.report.dispatches = crawled.session.dispatched.length
  /-- They are within the budget. -/
  budget : crawled.report.dispatches ≤ policy.maxDispatches
  /-- What was left or turned away is something the crawl was led to. -/
  led : ∀ t, t ∈ crawled.frontier ∨ t ∈ crawled.state.turnedAway →
    crawled.session.LedTo R policy crawled.report.acceptedSeeds t
  /-- Whatever the crawl was led to was passed, is left or was turned away. -/
  covered : ∀ t, crawled.session.LedTo R policy crawled.report.acceptedSeeds t →
    t.ownedKey ∈ crawled.session.keys ∨ t.ownedKey ∈ crawled.frontier.map Target.ownedKey ∨
      t ∈ crawled.state.turnedAway
  /-- A resource limit is recorded for a candidate turned away or a target that is left. -/
  limited : crawled.state.resourceLimited = true → crawled.state.turnedAway ≠ [] ∨
    ∃ t ∈ crawled.frontier, t.ownedKey ∉ crawled.session.keys
  /-- A crawl is truncated by a stop, a resource limit or the depth of what is left. -/
  truncated : crawled.report.truncated = true → crawled.state.cancelled = true ∨
    crawled.state.resourceLimited = true ∨ crawled.frontier ≠ []
  /-- A fixed point is reported of a crawl that has nothing left. -/
  fixedPoint : crawled.report.termination = .fixedPoint → crawled.frontier = []
  /-- A bound is reported of a crawl that has something left. -/
  bound : crawled.report.termination = .maxDepth ∨ crawled.report.termination = .resourceLimit →
    crawled.frontier ≠ []
  /-- When every wave was apart from the queue, nothing that is left or was turned away was
  passed. -/
  fresh : (∀ wave ∈ crawled.session.waves, wave.Apart) → ∀ t,
    t ∈ crawled.frontier ∨ t ∈ crawled.state.turnedAway → t.ownedKey ∉ crawled.session.keys
  /-- Every dispatch belongs to one generation. -/
  sum : (crawled.report.generations.map GenerationStat.dispatched).sum = crawled.report.dispatches
  /-- A counter that does not wrap bounds the generations. -/
  generations : policy.maxGenerations.toNat + 1 < 2 ^ 32 →
    crawled.report.generations.length ≤ policy.maxGenerations.toNat + 1

/-- Work is left exactly when the frontier is not empty. -/
theorem isFixedPoint_iff (frontier : List Target) :
    ({ admissibleWork := frontier.length } : FrontierState).isFixedPoint = true ↔
      frontier = [] := by
  simp [FrontierState.isFixedPoint]

/-- The reason a report gives is a fixed point only when nothing is left, and a bound only when
something is. -/
theorem finish_termination {r : Rounds σ} (accepted : List Target) (rejected : List String)
    (hwhy : r.frontier ≠ [] → r.state.cancelled = true ∨ r.state.resourceLimited = true ∨
      r.maxDepth = true) :
    ((r.finish accepted rejected).report.termination = .fixedPoint → r.frontier = []) ∧
      ((r.finish accepted rejected).report.termination = .maxDepth ∨
        (r.finish accepted rejected).report.termination = .resourceLimit → r.frontier ≠ []) := by
  have hname : ∀ reason : TerminationReason, reason ≠ .fixedPoint →
      (r.finish accepted rejected).report.termination = reason →
      decideTermination { admissibleWork := r.frontier.length }
        { cancelled := r.state.cancelled, resourceLimitReached := r.state.resourceLimited,
          maxDepthReached := r.maxDepth } = some reason := by
    intro reason hne h
    simp only [Rounds.finish] at h
    rcases Option.getD_eq_iff.1 h with h | ⟨-, h⟩
    · exact h
    · exact absurd h.symm hne
  refine ⟨fun h ↦ ?_, fun h hnil ↦ ?_⟩
  · by_contra hne
    obtain ⟨reason, hreason⟩ := Option.isSome_iff_exists.1
      (decideTermination_isSome { admissibleWork := r.frontier.length }
        { cancelled := r.state.cancelled, resourceLimitReached := r.state.resourceLimited,
          maxDepthReached := r.maxDepth } (hwhy hne))
    have hfix : reason = .fixedPoint := by
      simpa only [Rounds.finish, hreason, Option.getD_some] using h
    exact hne ((isFixedPoint_iff _).1 (decideTermination_fixedPoint (hfix ▸ hreason)))
  · have hfalse : ({ admissibleWork := r.frontier.length } : FrontierState).isFixedPoint = false := by
      rcases h with h | h
      · exact decideTermination_bound (hname _ (by decide) h) (by decide) (by decide) (by decide)
      · exact decideTermination_bound (hname _ (by decide) h) (by decide) (by decide) (by decide)
    rw [(isFixedPoint_iff _).2 hnil] at hfalse
    cases hfalse

/-- The end of a crawl's loop makes a sound report. -/
theorem Rounds.Ended.sound {r : Rounds σ} (h : r.Ended R policy accepted)
    (rejected : List String) : (r.finish accepted rejected).Sound R policy := by
  obtain ⟨state, frontier, generation, maxDepth, session⟩ := r
  obtain ⟨⟨l, hinv, hbatch, hsession, hstate, hwaits, hleft⟩, hdepth, hsum, hbound⟩ := h
  simp only at hsession hstate hwaits hleft hdepth hsum hbound
  subst hsession hstate
  have htaken : l.taken = l.session.keys := by
    rw [Locals.taken, hbatch]
    exact append_nil _
  have hwhy : frontier ≠ [] → l.state.cancelled = true ∨ l.state.resourceLimited = true ∨
      maxDepth = true := by
    intro hne
    rcases hleft hne with hstop | hd
    · exact (hinv.halted hstop).2.imp_right .inl
    · exact .inr (.inr hd)
  obtain ⟨hfix, hb⟩ := finish_termination accepted rejected
    (r := ⟨l.state, frontier, generation, maxDepth, l.session⟩) hwhy
  refine ⟨htaken ▸ hinv.nodup, hinv.count.trans (length_map ..), ?_, ?_, ?_, ?_, ?_, hfix, hb,
    ?_, hsum, hbound⟩
  · show l.state.dispatches ≤ _
    rw [hinv.count, ← htaken]
    exact hinv.budget
  · rintro t (ht | ht)
    · rcases (hwaits t).1 ht with ht | ht
      · exact hinv.led t (.inl ht)
      · exact hinv.led t (.inr (.inl ht))
    · exact hinv.led t (.inr (.inr ht))
  · intro t ht
    rcases hinv.covered t ht with hk | hk | hk | hk
    · exact .inl (htaken ▸ hk)
    · obtain ⟨u, hu, heq⟩ := mem_map.1 hk
      exact .inr (.inl (mem_map.2 ⟨u, (hwaits u).2 (.inl hu), heq⟩))
    · obtain ⟨u, hu, heq⟩ := mem_map.1 ((l.next.mem_seen _).1 hk)
      exact .inr (.inl (mem_map.2 ⟨u, (hwaits u).2 (.inr hu), heq⟩))
    · exact .inr (.inr hk)
  · intro hlim
    rcases hinv.limited hlim with hne | ⟨-, key, hkey, hnew⟩
    · exact .inl hne
    · obtain ⟨u, hu, rfl⟩ := mem_map.1 ((l.next.mem_seen _).1 hkey)
      exact .inr ⟨u, (hwaits u).2 (.inr hu), htaken ▸ hnew⟩
  · intro htrunc
    simp only [Rounds.finish, Bool.or_eq_true] at htrunc ⊢
    rcases htrunc with (hlim | hd) | hc
    · exact .inr (.inl hlim)
    · exact .inr (.inr (hdepth hd))
    · exact .inl hc
  · intro hw t ht
    obtain ⟨-, hfresh, hqueued, hturned⟩ := hinv.fresh hw
    rcases ht with ht | ht
    · rcases (hwaits t).1 ht with ht | ht
      · exact fun hk ↦ hfresh t ht (mem_append_left _ hk)
      · exact hqueued _ (Frontier.mem_seen_of_mem_queue ht)
    · exact hturned t ht

/-- **A finished crawl may be trusted for `Crawled.Sound`.** -/
theorem Ran.sound {crawled : Crawled σ} (h : Ran R policy collector crawled) :
    crawled.Sound R policy := by
  cases h with
  | run seeds outside => exact (runGenerations_ended collector outside).sound _
  | runTargets targets outside => exact (runGenerations_ended collector outside).sound _

end

end Huntsman
