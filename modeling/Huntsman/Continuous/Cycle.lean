import Huntsman.Continuous.Retention

/-!
# Cycles of continuous collection

A cycle lists the scans of the store, decides for each configured target whether its newest finished
scan raises an alert over the finished scan before it, and then deletes scans beyond those that are
kept.  A decision is kept in the alert history, a file that is rewritten with each decision and
holds the newest thousand; it is all that a later cycle knows of a decision.

While a cycle is under way the scans of the store start and end, and others write to the store and
to the history.  So a cycle is a sequence of steps (`step`), each of which may fail where the
source's call may, and what others do comes between any two of them.
-/

set_option autoImplicit false

namespace Huntsman.Continuous

open Scans (ScanRecord ScanStatus)

/-! ## Decisions -/

/-- One reason an alert was raised. -/
inductive Reason where
  | correlation (risk rule title : String)
  | newValues (count : ℕ)
deriving DecidableEq

/-- The decision for one later scan. -/
structure Alert where
  raised : Bool
  reasons : List Reason
deriving DecidableEq

/-- A reason as the history has it: without the title, which may carry the value it names. -/
inductive EntryReason where
  | correlation (risk rule : String)
  | newValues (count : ℕ)
deriving DecidableEq

def Reason.entry : Reason → EntryReason
  | .correlation risk rule _ => .correlation risk rule
  | .newValues count => .newValues count

/-- One decision as the history records it.  What others wrote may lack a scan's id. -/
structure Entry where
  time : ℕ
  earlier : Option String
  later : Option String
  raised : Bool
  reasons : List EntryReason
deriving DecidableEq

def historyEntry (now : ℕ) (earlier later : String) (alert : Alert) : Entry where
  time := now
  earlier := some earlier
  later := some later
  raised := alert.raised
  reasons := alert.reasons.map Reason.entry

/-- The most entries the alert history keeps. -/
def maxAlertHistoryEntries : ℕ := 1000

/-- The history with an entry, without the oldest that it has no room for. -/
@[irreducible] def appendHistory (history : List Entry) (entry : Entry) : List Entry :=
  (history ++ [entry]).drop (history.length + 1 - maxAlertHistoryEntries)

/-- What is published of a raised alert. -/
structure Event where
  scan : String
  time : ℕ
  reasons : List Reason
deriving DecidableEq

/-! ## Configured targets -/

structure Request where
  target : String
  kind : Option String
deriving DecidableEq

/-- The configured targets, each by its own lookup, and how many scans of each are kept. -/
structure Config where
  targets : List Request
  distinct : targets.Nodup
  keep : Option ℕ

/-- Whether a scan is one of the configured request: its target, by the same lookup. -/
def scans (record : ScanRecord) (request : Request) : Bool :=
  record.target = request.target && request.kind = some record.kind

/-- The finished scans of a request, oldest first. -/
def finishedScans (listing : List ScanRecord) (request : Request) : List ScanRecord :=
  (listing.filter fun r ↦ scans r request && r.status = .finished).insertionSort
    fun a b ↦ age a ≤ age b

/-- The newest finished scan of a request and the one before it, the earlier one first. -/
def newestPair (listing : List ScanRecord) (request : Request) : Option (ScanRecord × ScanRecord) :=
  match (finishedScans listing request).reverse with
  | later :: earlier :: _ => some (earlier, later)
  | _ => none

/-- The scans of the configured targets. -/
def configured (targets : List Request) (listing : List ScanRecord) : List ScanRecord :=
  listing.filter fun r ↦ targets.any (scans r)

/-- The later scans of the decisions in a history. -/
def decided (history : List Entry) : List String := history.filterMap Entry.later

/-! ## A cycle, step by step -/

/-- What a cycle works from. -/
structure Pass where
  listing : List ScanRecord
  now : ℕ

variable {R : Type}

/-- Where a cycle is.  From its first decision on it has the history as it was read, and the targets
that are left. -/
inductive Stage (R : Type) where
  | idle
  | listed (pass : Pass)
  | deciding (pass : Pass) (history : List Entry) (todo : List Request)
  /-- Between the reading of the two results, or before it. -/
  | comparing (pass : Pass) (history : List Entry) (todo : List Request)
      (earlier later : ScanRecord) (base : Option (Option R))
  | recording (pass : Pass) (history : List Entry) (todo : List Request) (later : String)
      (alert : Alert) (entry : Entry)
  | announcing (pass : Pass) (history : List Entry) (todo : List Request) (later : String)
      (alert : Alert)
  | retaining (pass : Pass) (plan : List ScanRecord)

/-- The store, the history and where the cycle is; and what has happened: the events published,
every entry that was ever in the history, and the scans that others deleted. -/
structure State (R : Type) where
  scans : List ScanRecord
  results : String → Option R
  history : List Entry
  stage : Stage R
  published : List Event
  recorded : List Entry
  removed : List String

namespace State

/-- Before the first cycle. -/
def start (scans : List ScanRecord) (results : String → Option R) (history : List Entry) :
    State R where
  scans := scans
  results := results
  history := history
  stage := .idle
  published := []
  recorded := history
  removed := []

def ids (s : State R) : List String := s.scans.map ScanRecord.id

/-- What `list` may return: rows of scans with distinct ids that were there.  A row is read while
others write it and may be an old one, or none that can be read. -/
def Lists (s : State R) (listing : List ScanRecord) : Prop :=
  (listing.map ScanRecord.id).Nodup ∧ ∀ r ∈ listing, r.id ∈ s.ids ∨ r.id ∈ s.removed

instance (s : State R) (listing : List ScanRecord) : Decidable (s.Lists listing) :=
  inferInstanceAs (Decidable (_ ∧ _))

end State

inductive Action (R : Type) where
  /-- A scan starts. -/
  | begin (record : ScanRecord)
  /-- A scan's row is written: it goes on, finishes, fails or is aborted. -/
  | update (record : ScanRecord)
  /-- A scan's results are saved, or lost. -/
  | save (id : String) (results : Option R)
  /-- Others delete a scan. -/
  | remove (id : String)
  /-- Others write the history. -/
  | rewrite (history : List Entry)
  | list (listing : List ScanRecord) (now : ℕ)
  | readHistory (ok : Bool)
  | look
  | readResults (ok : Bool)
  | append (ok : Bool)
  | announce
  /-- The next scan of the plan.  An active one is refused, unless its row cannot be read. -/
  | delete (ok unread : Bool)
  | finish
  /-- The process ends. -/
  | crash

/-- The scan whose results are read next. -/
def readNext (earlier later : ScanRecord) : Option (Option R) → String
  | none => earlier.id
  | some _ => later.id

variable (cfg : Config) (assess : R → R → Alert)

/-- What a cycle goes on to when the decision for a target is done with, or the next one is looked
at. -/
def lookNext (pass : Pass) (history : List Entry) : List Request → Stage R
  | [] =>
    match cfg.keep with
    | none => .idle
    | some keep => .retaining pass (prunable (configured cfg.targets pass.listing) keep)
  | request :: todo =>
    match newestPair pass.listing request with
    | none => .deciding pass history todo
    | some (earlier, later) =>
      if later.id ∈ decided history then .deciding pass history todo
      else .comparing pass history todo earlier later none

/-- What a cycle goes on to with the results it has read of one of two scans. -/
def readOn (pass : Pass) (history : List Entry) (todo : List Request) (earlier later : ScanRecord)
    (read : Option R) : Option (Option R) → Stage R
  | none => .comparing pass history todo earlier later (some read)
  | some base =>
    match base, read with
    | some base, some other =>
      let alert := assess base other
      .recording pass history todo later.id alert (historyEntry pass.now earlier.id later.id alert)
    | _, _ => .deciding pass history todo

def step (s : State R) : Action R → Option (State R)
  | .begin record =>
    if record.id ∉ s.ids ∧ isActive record.status then some { s with scans := record :: s.scans }
    else none
  | .update record =>
    if record.id ∈ s.ids then
      some { s with scans := s.scans.map fun row ↦ if row.id = record.id then record else row }
    else none
  | .save id results => some { s with results := Function.update s.results id results }
  | .remove id =>
    some { s with scans := s.scans.filter (·.id ≠ id), removed := id :: s.removed }
  | .rewrite history => some { s with history := history, recorded := s.recorded ++ history }
  | .list listing now =>
    match s.stage with
    | .idle => if s.Lists listing then some { s with stage := .listed ⟨listing, now⟩ } else none
    | _ => none
  | .readHistory ok =>
    match s.stage with
    | .listed pass =>
      some { s with stage := if ok then .deciding pass s.history cfg.targets else .idle }
    | _ => none
  | .look =>
    match s.stage with
    | .deciding pass history todo => some { s with stage := lookNext cfg pass history todo }
    | _ => none
  | .readResults ok =>
    match s.stage with
    | .comparing pass history todo earlier later base =>
      -- `results` asks for the row before it looks at the results
      let id := readNext earlier later base
      if ok ∧ id ∈ s.ids then
        some { s with stage := readOn assess pass history todo earlier later (s.results id) base }
      else some { s with stage := .idle }
    | _ => none
  | .append ok =>
    match s.stage with
    | .recording pass history todo later alert entry =>
      if ok then
        some { s with
          history := appendHistory s.history entry
          recorded := s.recorded ++ [entry]
          stage := if alert.raised then .announcing pass history todo later alert
            else .deciding pass history todo }
      else some { s with stage := .idle }
    | _ => none
  | .announce =>
    match s.stage with
    | .announcing pass history todo later alert =>
      some { s with
        published := s.published ++ [⟨later, pass.now, alert.reasons⟩]
        stage := .deciding pass history todo }
    | _ => none
  | .delete ok unread =>
    match s.stage with
    | .retaining pass (record :: plan) =>
      if ok then
        if ∃ row ∈ s.scans, row.id = record.id ∧ (unread ∨ isActive row.status = false) then
          some { s with
            scans := s.scans.filter (·.id ≠ record.id), stage := .retaining pass plan }
        else none
      else some { s with stage := .retaining pass plan }
    | _ => none
  | .finish =>
    match s.stage with
    | .retaining _ [] => some { s with stage := .idle }
    | _ => none
  | .crash => some { s with stage := .idle }

end Huntsman.Continuous
