import Huntsman.Crawl.Moves
import Mathlib.Data.Finset.Card

/-!
# The crawl as a loop of generations

`CrawlState.step` runs one generation and `crawl` runs generations until nothing is left, the depth
bound forbids the next one, or a stop or a spent budget ended one early.  Both loops are run by
`Loop.run`, so both are total: `wavePass_falls` and `generationPass_falls` are why.  The second is
the reason a crawl ends whatever its collector answers.
-/

set_option autoImplicit false

namespace Huntsman

/-! ## One generation ends -/

section Generation

variable {σ : Type} (R : Selectors) (policy : RecursionPolicy) (collector : SelectorCollector σ)

theorem length_fillBatch_remaining_le (rest : List Target) (l : Locals σ)
    (hrem : l.remaining = rest) :
    (fillBatch policy collector l rest).remaining.length ≤ rest.length := by
  induction rest generalizing l with
  | nil => simp [fillBatch, hrem]
  | cons candidate rest ih =>
    simp only [fillBatch]
    split
    · split
      · split
        · exact Nat.zero_le _
        split
        · exact (ih _ rfl).trans (Nat.le_succ _)
        split
        · exact Nat.zero_le _
        · exact (ih _ rfl).trans (Nat.le_succ _)
      · exact (congrArg List.length hrem).le
    · exact (congrArg List.length hrem).le

theorem length_dispatchWave_remaining_le (generation : UInt32) (l : Locals σ) :
    (dispatchWave R policy collector generation l).remaining.length ≤ l.remaining.length := by
  simp only [dispatchWave]
  split
  · exact Nat.zero_le _
  · exact le_rfl

/-- Every pass that goes round again takes a target. -/
theorem wavePass_falls (generation : UInt32) (l l' : Locals σ)
    (h : wavePass R policy collector generation l = .again l') :
    l'.remaining.length < l.remaining.length := by
  rw [wavePass] at h
  split at h
  · cases h
  rename_i first rest hrem
  rw [hrem, List.length_cons, Nat.lt_succ_iff]
  simp only at h
  split at h
  · cases h
  split at h
  · cases h
    exact le_rfl
  split at h
  · cases h
  split at h
  · cases h
  · cases h
    exact (length_dispatchWave_remaining_le R policy collector generation _).trans
      (length_fillBatch_remaining_le policy collector rest _ rfl)

/-- The locals a generation begins with. -/
def Locals.start (state : CrawlState) (frontier : List Target) (session : Session σ) : Locals σ :=
  { state, next := Frontier.empty, dispatched := 0, stopped := false, remaining := frontier,
    batch := [], session }

/-- The waves of one generation: its loop, run until it is left. -/
def runWaves (generation : UInt32) (l : Locals σ) : Locals σ :=
  Loop.run (wavePass R policy collector generation) (fun l ↦ l.remaining.length)
    (wavePass_falls R policy collector generation) l

/-- Fold the entities of a generation that ended and record it. -/
def CrawlState.close (self : CrawlState) (generation : UInt32) (dispatched : ℕ) : CrawlState :=
  let entities := mergeByUid R.parsesAsJson self.entities
  { self with
    entities
    generations := self.generations ++
      [{ generation, dispatched, entitiesAfter := entities.length }] }

/-- Dispatch one generation's frontier: the crawl after it, the queue for the next generation,
whether it was stopped mid-way, and the session. -/
def CrawlState.step (self : CrawlState) (generation : UInt32) (frontier : List Target)
    (session : Session σ) : Locals σ :=
  let after := runWaves R policy collector generation (Locals.start self frontier session)
  { after with state := after.state.close R generation after.dispatched }

/-- **A generation only makes moves**, and ends with no wave being filled. -/
theorem runWaves_heard (generation : UInt32) (l : Locals σ) (hbatch : l.batch = []) :
    Hears R policy collector generation l (runWaves R policy collector generation l) ∧
      (runWaves R policy collector generation l).batch = [] :=
  Loop.run_steps (Heard R policy collector generation) (fun l ↦ l.batch = [])
    (wavePass_heard R policy collector generation) hbatch

theorem runWaves_moves (generation : UInt32) (l : Locals σ) (hbatch : l.batch = []) :
    Moves R policy collector generation l (runWaves R policy collector generation l) ∧
      (runWaves R policy collector generation l).batch = [] :=
  (runWaves_heard R policy collector generation l hbatch).imp_left (Hears.moves _ _ _ _)

/-- A generation that is not stopped leaves no target. -/
theorem runWaves_remaining (generation : UInt32) (l : Locals σ) :
    (runWaves R policy collector generation l).stopped = false →
      (runWaves R policy collector generation l).remaining = [] := by
  refine Loop.run_inv (fun _ ↦ True) (fun l : Locals σ ↦ l.stopped = false → l.remaining = [])
    (fun _ _ _ _ ↦ trivial) ?_ trivial
  intro l l' _ h hstop
  rw [wavePass] at h
  split at h
  · rename_i hrem
    cases h
    exact hrem
  simp only at h
  split at h
  · cases h
    rfl
  split at h
  · cases h
  split at h
  · cases h
    rfl
  split at h
  · rename_i hstopped
    cases h
    rw [hstopped] at hstop
    cases hstop
  · cases h

/-! ## A crawl ends -/

/-- What a generation that `before` began did with the dispatch budget and with its records. -/
structure Spending (before : CrawlState) (l : Locals σ) : Prop where
  /-- Every dispatch is counted for the generation too. -/
  count : l.state.dispatches = before.dispatches + l.dispatched
  /-- Nothing joins a wave unless the budget has room for it. -/
  room : 0 < l.dispatched + l.batch.length → before.dispatches < policy.maxDispatches
  /-- Nothing is queued for the next generation before something was dispatched. -/
  idle : l.dispatched = 0 → l.stopped = true ∨ l.next.queue = []
  /-- A generation is recorded when it ends. -/
  generations : l.state.generations = before.generations

theorem Spending.move {generation : UInt32} {before : CrawlState} {l l' : Locals σ}
    (h : Spending policy before l) (m : Move R policy collector generation l l') :
    Spending policy before l' := by
  cases m with
  | ask outside => exact ⟨h.count, h.room, h.idle, h.generations⟩
  | skip first rest => exact ⟨h.count, h.room, h.idle, h.generations⟩
  | take first rest hrem hnew hroom =>
    refine ⟨h.count, fun _ ↦ ?_, h.idle, h.generations⟩
    have hcount := h.count
    have hlt : ¬ policy.maxDispatches ≤ l.state.dispatches + l.batch.length :=
      fun hmax ↦ hroom (.inl hmax)
    omega
  | cancel => exact ⟨h.count, h.room, fun _ ↦ .inl rfl, h.generations⟩
  | limit first rest => exact ⟨h.count, h.room, fun _ ↦ .inl rfl, h.generations⟩
  | fly hwave =>
    have hred := fly_reduced R policy collector generation l
    have hpos := List.length_pos_of_ne_nil hwave
    refine ⟨?_, fun _ ↦ h.room (by omega), fun hzero ↦ ?_, hred.generations.trans h.generations⟩
    · show (l.fly R policy collector generation).state.dispatches
        = before.dispatches + (l.dispatched + l.batch.length)
      rw [hred.dispatches, h.count, Nat.add_assoc]
    · have : l.dispatched + l.batch.length = 0 := hzero
      omega

theorem Spending.start (before : CrawlState) (frontier : List Target) (session : Session σ) :
    Spending policy before (Locals.start before frontier session) :=
  ⟨rfl, fun hlt ↦ absurd hlt (lt_irrefl 0), fun _ ↦ .inr rfl, rfl⟩

theorem runWaves_spending (before : CrawlState) (generation : UInt32) (frontier : List Target)
    (session : Session σ) :
    Spending policy before
      (runWaves R policy collector generation (Locals.start before frontier session)) :=
  Loop.steps_inv (Spending policy before) (fun _ _ ↦ Spending.move R policy collector)
    (Spending.start policy before frontier session)
    (runWaves_moves R policy collector generation _ rfl).1

/-- **A generation that went to its end spent some of the dispatch budget**, or it queued
nothing. -/
theorem step_spends (before : CrawlState) (generation : UInt32) (frontier : List Target)
    (session : Session σ)
    (h : (before.step R policy collector generation frontier session).stopped = false) :
    let after := before.step R policy collector generation frontier session
    after.next.queue = [] ∨
      before.dispatches < policy.maxDispatches ∧ before.dispatches < after.state.dispatches := by
  have hspend := runWaves_spending R policy collector before generation frontier session
  have hcount := hspend.count
  by_cases hzero : (runWaves R policy collector generation
      (Locals.start before frontier session)).dispatched = 0
  · refine .inl ((hspend.idle hzero).resolve_left ?_)
    show ¬ (before.step R policy collector generation frontier session).stopped = true
    rw [h]
    exact Bool.false_ne_true
  · refine .inr ⟨hspend.room (by omega), ?_⟩
    show _ < (runWaves R policy collector generation
      (Locals.start before frontier session)).state.dispatches
    omega

/-- The locals of a crawl. -/
structure Rounds (σ : Type) where
  state : CrawlState
  frontier : List Target
  generation : UInt32
  maxDepth : Bool
  session : Session σ

/-- One pass of the crawl's loop: one generation, unless the depth bound forbids it.  The counter is
a `u32`, and wraps. -/
def generationPass (r : Rounds σ) : Pass (Rounds σ) (Rounds σ) :=
  if r.frontier = [] then .leave r
  else if policy.maxGenerations < r.generation then .leave { r with maxDepth := true }
  else
    let after := r.state.step R policy collector r.generation r.frontier r.session
    let r' := { r with
      state := after.state, frontier := after.next.intoQueue, generation := r.generation + 1
      session := after.session }
    if after.stopped then .leave r' else .again r'

/-- How much a crawl can still do. -/
def Rounds.left (r : Rounds σ) : ℕ :=
  if r.frontier = [] then 0 else policy.maxDispatches - r.state.dispatches + 1

/-- Every generation that is followed by another leaves less to do. -/
theorem generationPass_falls (r r' : Rounds σ)
    (h : generationPass R policy collector r = .again r') : r'.left policy < r.left policy := by
  rw [generationPass] at h
  split at h
  · cases h
  rename_i hwork
  split at h
  · cases h
  simp only at h
  split at h
  · cases h
  rename_i hstop
  cases h
  rw [Rounds.left, Rounds.left, if_neg hwork]
  split
  · exact Nat.succ_pos _
  rename_i hnext
  rcases step_spends R policy collector r.state r.generation r.frontier r.session
    (by simpa using hstop) with hnil | ⟨hroom, hgrown⟩
  · refine absurd ?_ hnext
    have hperm := (r.state.step R policy collector r.generation r.frontier r.session).next.intoQueue_perm
    rw [hnil] at hperm
    exact hperm.eq_nil
  · exact Nat.succ_lt_succ (Nat.sub_lt_sub_left hroom hgrown)

/-! ## The crawl -/

/-- A finished crawl: the report, and what the report is made from. -/
structure Crawled (σ : Type) where
  report : RecursionReport
  state : CrawlState
  /-- The targets that were left when the crawl ended. -/
  frontier : List Target
  session : Session σ

/-- The generations of a crawl, run until its loop is left. -/
def runGenerations (frontier : List Target) (outside : σ) : Rounds σ :=
  Loop.run (generationPass R policy collector) (Rounds.left policy)
    (generationPass_falls R policy collector)
    { state := {}, frontier, generation := 0, maxDepth := false,
      session := { outside, waves := [] } }

/-- Report what a crawl did and why it ended. -/
def Rounds.finish (acceptedSeeds : List Target) (rejectedSeeds : List String) (r : Rounds σ) :
    Crawled σ where
  report := {
    acceptedSeeds, rejectedSeeds
    truncated := r.state.resourceLimited || r.maxDepth || r.state.cancelled
    visited := r.state.visited.card
    entities := r.state.entities
    edges := r.state.edges
    outcomes := r.state.outcomes
    generations := r.state.generations
    dispatches := r.state.dispatches
    termination := (decideTermination { admissibleWork := r.frontier.length }
      { cancelled := r.state.cancelled, resourceLimitReached := r.state.resourceLimited,
        maxDepthReached := r.maxDepth }).getD .fixedPoint }
  state := r.state
  frontier := r.frontier
  session := r.session

/-- Crawl a frontier and report. -/
def crawl (acceptedSeeds : List Target) (rejectedSeeds : List String) (frontier : List Target)
    (outside : σ) : Crawled σ :=
  (runGenerations R policy collector frontier outside).finish acceptedSeeds rejectedSeeds

/-- Run a bounded recursive crawl from `seeds`, dispatching live lookups through `collector`. -/
def run (seeds : List String) (outside : σ) : Crawled σ :=
  let (acceptedSeeds, rejectedSeeds) := acceptSeeds R seeds
  crawl R policy collector acceptedSeeds rejectedSeeds
    (Frontier.empty.pushAll acceptedSeeds).intoQueue outside

/-- `run` from targets already routed. -/
def runTargets (targets : List Target) (outside : σ) : Crawled σ :=
  crawl R policy collector targets [] (Frontier.empty.pushAll targets).intoQueue outside

end Generation

end Huntsman
