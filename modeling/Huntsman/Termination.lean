import Mathlib.Data.Nat.Notation

/-!
# Why a scan stopped

"Fixed point" means that no admissible, delayed, in-flight or newly derivable work remains.
`decideTermination` resolves one reason from what is left of the frontier and the signals that were
raised: events win, then an empty frontier is a fixed point, then the bounds in order of severity.
-/

set_option autoImplicit false

namespace Huntsman

inductive TerminationReason where
  | fixedPoint | maxDepth | timeLimit | requestBudget | providerBudget | resourceLimit
  | marginalGainLimit | cancelled | fatalError
deriving DecidableEq

structure FrontierState where
  admissibleWork : ℕ := 0
  delayedRetryWork : ℕ := 0
  inFlightWork : ℕ := 0
  derivableNovelWork : ℕ := 0

def FrontierState.isFixedPoint (frontier : FrontierState) : Bool :=
  frontier.admissibleWork == 0 && frontier.delayedRetryWork == 0 && frontier.inFlightWork == 0 &&
    frontier.derivableNovelWork == 0

structure TerminationSignals where
  cancelled : Bool := false
  fatalError : Bool := false
  maxDepthReached : Bool := false
  timeLimitReached : Bool := false
  requestBudgetExhausted : Bool := false
  providerBudgetExhausted : Bool := false
  resourceLimitReached : Bool := false
  marginalGainBelowFloor : Bool := false

/-- Resolve one explicit reason, or none when nothing says why the scan stopped. -/
def decideTermination (frontier : FrontierState) (signals : TerminationSignals) :
    Option TerminationReason :=
  if signals.fatalError then some .fatalError
  else if signals.cancelled then some .cancelled
  else if frontier.isFixedPoint then some .fixedPoint
  else if signals.resourceLimitReached then some .resourceLimit
  else if signals.timeLimitReached then some .timeLimit
  else if signals.providerBudgetExhausted then some .providerBudget
  else if signals.requestBudgetExhausted then some .requestBudget
  else if signals.maxDepthReached then some .maxDepth
  else if signals.marginalGainBelowFloor then some .marginalGainLimit
  else none

/-- **A bound is named only when work remains.**  A reason other than the two events and the fixed
point is resolved only when some work of the frontier is left. -/
theorem decideTermination_bound {frontier : FrontierState} {signals : TerminationSignals}
    {reason : TerminationReason} (h : decideTermination frontier signals = some reason)
    (hfatal : reason ≠ .fatalError) (hcancel : reason ≠ .cancelled) (hfix : reason ≠ .fixedPoint) :
    frontier.isFixedPoint = false := by
  rw [decideTermination] at h
  split at h
  · cases h; exact absurd rfl hfatal
  split at h
  · cases h; exact absurd rfl hcancel
  split at h
  · cases h; exact absurd rfl hfix
  · rename_i hnot
    simpa using hnot

/-- **A fixed point is named only when no work remains.** -/
theorem decideTermination_fixedPoint {frontier : FrontierState} {signals : TerminationSignals}
    (h : decideTermination frontier signals = some .fixedPoint) : frontier.isFixedPoint = true := by
  rw [decideTermination] at h
  split at h
  · cases h
  split at h
  · cases h
  split at h
  · rename_i hfix
    exact hfix
  · repeat' split at h
    all_goals cases h

/-- A stop that one of these signals raised has a name. -/
theorem decideTermination_isSome (frontier : FrontierState) (signals : TerminationSignals)
    (h : signals.cancelled = true ∨ signals.resourceLimitReached = true ∨
      signals.maxDepthReached = true) : (decideTermination frontier signals).isSome = true := by
  rw [decideTermination]
  repeat' split
  case isFalse.isFalse.isFalse.isFalse.isFalse.isFalse.isFalse.isFalse.isFalse => simp_all
  all_goals rfl

end Huntsman
