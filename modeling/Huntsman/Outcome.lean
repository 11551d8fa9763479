import Huntsman.Entity

/-!
# What a lookup returns

A lookup returns the entities it found and one `SourceExecutionOutcome` row for each source it
asked, saying how that source answered.  `LookupReport` is the pair; the crawl calls it a `Step`.
-/

set_option autoImplicit false

namespace Huntsman

/-- Causal outcome of one provider execution. -/
inductive SourceOutcomeKind where
  | success | validZero | authRequired | notConfigured | authRejected | entitlementDenied
  | quotaExhausted | rateLimited | botWaf | dnsFailure | connectFailure | tlsFailure | ttfbTimeout
  | bodyTimeout | upstream4xx | upstream5xx | redirectChanged | protocolDrift | interactionDrift
  | schemaDrift | parserDrift | semanticDrift | zeroYieldAnomaly | confirmedDead
  | refusedBeforeSending | inconclusive
deriving DecidableEq

/-- One observed execution result.  `detail` is diagnostic text. -/
structure SourceExecutionOutcome where
  module : String
  kind : SourceOutcomeKind
  observedAtUnix : ℕ
  httpStatus : Option ℕ := none
  found : Option ℕ := none
  retryAfterSecs : Option ℕ := none
  detail : Option String := none
deriving DecidableEq

/-- The run completed without a verdict. -/
def SourceExecutionOutcome.inconclusive (module : String) (observedAtUnix : ℕ) (detail : String) :
    SourceExecutionOutcome :=
  { module, kind := .inconclusive, observedAtUnix, detail := some detail }

/-- What a lookup found: its entities and each source's row. -/
structure LookupReport where
  entities : List Entity
  outcomes : List SourceExecutionOutcome

/-- What a collector observed for one target. -/
abbrev Step := LookupReport

end Huntsman
