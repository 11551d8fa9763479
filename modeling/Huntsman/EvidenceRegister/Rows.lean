import Huntsman.Canonical.Normalise
import Huntsman.Crawl.Checkpoint
import Huntsman.Elements.Walk
import Huntsman.Graph.Types
import Huntsman.Ledger
import Huntsman.Scans.Store

/-!
# The rows of an evidence register

A register has a row for each record of a saved scan: its entities, elements, source outcomes,
correlations, the edges of its lineage and why it ended.  A row is known by a digest of its kind and
its identifier.  Entities, elements and correlations have identifiers of their own.  The rest are
numbered, outcomes among those of their module.

Numbers do not run into names, so rows are mistaken for duplicates only if the scan has some
(`rows_not_duplicate`).  A link between two rows is listed at both, and no reference is lost
(`rows_linked`).
-/

set_option autoImplicit false

namespace Huntsman.EvidenceRegister

open List

open Huntsman.Graph (Json)
open Elements (DataElement)
open Std (TreeMap TreeSet)

/-! ## Records -/

def maxRecords : ℕ := 4096

inductive Risk where
  | high | medium | low | info
deriving DecidableEq

/-- One correlation on a saved scan, with the elements it is about. -/
structure ScanCorrelation where
  id : String
  rule : String
  name : String
  title : String
  risk : Risk
  description : String
  origin : String
  logic : String
  elements : List String

/-- The results of a scan, with what is made from them. -/
structure SavedResults extends ScanResults where
  formatVersion : UInt32
  elements : List DataElement
  correlations : List ScanCorrelation

/-- How records are written as JSON, and JSON as bytes, and their digest. -/
structure Setting where
  entityJson : Entity → Json
  elementJson : DataElement → Json
  outcomeJson : SourceExecutionOutcome → Json
  correlationJson : ScanCorrelation → Json
  pivotJson : PivotEdge → Json
  reasonJson : TerminationReason → Json
  statusJson : Scans.ScanStatus → Json
  /-- `scan_uncertainty::derive`, as JSON. -/
  uncertainty : Scans.ScanRecord → SavedResults → Json
  /-- `serde_json::to_vec`. -/
  toVec : Json → Except String (List UInt8)
  sha256 : List UInt8 → Ledger.Digest

inductive Kind where
  | entity | element | sourceOutcome | correlation | lineage | termination
deriving DecidableEq

def Kind.asStr : Kind → String
  | .entity => "entity"
  | .element => "element"
  | .sourceOutcome => "source_outcome"
  | .correlation => "correlation"
  | .lineage => "lineage"
  | .termination => "termination"

structure Row where
  id : String
  kind : Kind
  identifier : String
  source : Option String := none
  observedAtUnix : Option ℕ := none
  raw : Json
  links : TreeSet String := ∅
  falsePositive : Bool := false

inductive RegisterError where
  | duplicate (id : String)
  | tooManyRecords
  | unwritable (error : String)
  | tooLarge (len : ℕ)

def maxRenderBytes : ℕ := 8 * 1024 * 1024

def RegisterError.text : RegisterError → String
  | .duplicate id => "duplicate evidence record " ++ id ++ "; no observation discarded"
  | .tooManyRecords =>
    "evidence register exceeds " ++ toString maxRecords ++ " records; no records omitted"
  | .unwritable error => error
  | .tooLarge len => "evidence report needs " ++ toString len ++ " bytes, exceeds " ++
      toString maxRenderBytes ++ "; no output truncated"

section

variable (setting : Setting)

/-- What the id of a record is a digest of. -/
def recordKey (kind value : String) : List UInt8 := Text.utf8 kind ++ 0 :: Text.utf8 value

/-- The first twenty digits of a digest. -/
def shortDigest (key : List UInt8) : String :=
  String.ofList ((Ledger.hex32 (setting.sha256 key)).1.toList.take 20)

def stableRecordId (start kind value : String) : String :=
  start ++ shortDigest setting (recordKey kind value)

def stableId (kind : Kind) (identifier : String) : String :=
  stableRecordId setting "HSE-" kind.asStr identifier

def Row.new (kind : Kind) (identifier : String) (raw : Json) : Row :=
  { id := stableId setting kind identifier, kind, identifier, raw }

/-- Add a row, unless there is one with its id. -/
def insert (target : TreeMap String Row) (row : Row) :
    Except RegisterError (TreeMap String Row) :=
  if row.id ∈ target then .error (.duplicate row.id)
  else if maxRecords ≤ target.size then .error .tooManyRecords
  else .ok (target.insert row.id row)

def entityRow (entity : Entity) : Row :=
  { Row.new setting .entity entity.uid (setting.entityJson entity) with
    observedAtUnix := some entity.observedAtUnix }

def elementRow (element : DataElement) : Row :=
  let links := match element.source with
    | some parent => (∅ : TreeSet String).insert (stableId setting .element parent)
    | none => ∅
  let links := match element.entity with
    | some entity => links.insert (stableId setting .entity entity)
    | none => links
  { Row.new setting .element element.id (setting.elementJson element) with
    source := some element.module, observedAtUnix := some (element.created / 1000), links
    falsePositive := element.fp }

/-- The row of an outcome, which is so many-th of its module. -/
def outcomeRow (outcome : SourceExecutionOutcome) (ordinal : ℕ) : Row :=
  { Row.new setting .sourceOutcome (outcome.module ++ ":" ++ toString ordinal)
      (setting.outcomeJson outcome) with
    source := some outcome.module, observedAtUnix := some outcome.observedAtUnix }

def correlationRow (correlation : ScanCorrelation) : Row :=
  { Row.new setting .correlation correlation.id (setting.correlationJson correlation) with
    source := some correlation.origin
    links := TreeSet.ofList (correlation.elements.map (stableId setting .element)) }

def lineageRow (pivot : PivotEdge) (position : ℕ) : Row :=
  Row.new setting .lineage (toString position) (setting.pivotJson pivot)

def terminationRow (reason : TerminationReason) : Row :=
  Row.new setting .termination "scan" (setting.reasonJson reason)

/-- Add an outcome, under the next number of its module. -/
def insertOutcome (state : TreeMap String Row × TreeMap String ℕ)
    (outcome : SourceExecutionOutcome) :
    Except RegisterError (TreeMap String Row × TreeMap String ℕ) := do
  let ordinal := state.2.getD outcome.module 0 + 1
  let output ← insert state.1 (outcomeRow setting outcome ordinal)
  .ok (output, state.2.insert outcome.module ordinal)

/-- List `p.2` among the links of `p.1`. -/
def addLink (output : TreeMap String Row) (p : String × String) : TreeMap String Row :=
  match output[p.1]? with
  | some row => output.insert p.1 { row with links := row.links.insert p.2 }
  | none => output

/-- The links between rows that there are, from their other ends. -/
def reverseLinks (output : TreeMap String Row) : List (String × String) :=
  output.toList.flatMap fun (_, row) ↦
    (row.links.toList.filter (· ∈ output)).map fun linked ↦ (linked, row.id)

def addReciprocalLinks (output : TreeMap String Row) : TreeMap String Row :=
  (reverseLinks output).foldl addLink output

def rows (saved : SavedResults) : Except RegisterError (TreeMap String Row) := do
  let output ← saved.entities.foldlM
    (fun output entity ↦ insert output (entityRow setting entity)) ∅
  let output ← saved.elements.foldlM
    (fun output element ↦ insert output (elementRow setting element)) output
  let (output, _) ← saved.outcomes.foldlM (insertOutcome setting) (output, ∅)
  let output ← saved.correlations.foldlM
    (fun output correlation ↦ insert output (correlationRow setting correlation)) output
  let output ← saved.lineage.zipIdx.foldlM
    (fun output p ↦ insert output (lineageRow setting p.1 p.2)) output
  let output ← match saved.termination with
    | some reason => insert output (terminationRow setting reason)
    | none => .ok output
  .ok (addReciprocalLinks output)

end

/-! ## All rows -/

variable {setting : Setting}

/-- The rows of outcomes, from where so many of each module were numbered. -/
def outcomeRows (setting : Setting) :
    TreeMap String ℕ → List SourceExecutionOutcome → List Row
  | _, [] => []
  | sequence, outcome :: outcomes =>
    let ordinal := sequence.getD outcome.module 0 + 1
    outcomeRow setting outcome ordinal ::
      outcomeRows setting (sequence.insert outcome.module ordinal) outcomes

/-- The rows of each kind. -/
def rowsByKind (setting : Setting) (saved : SavedResults) : List (Kind × List Row) :=
  [(.entity, saved.entities.map (entityRow setting)),
    (.element, saved.elements.map (elementRow setting)),
    (.sourceOutcome, outcomeRows setting ∅ saved.outcomes),
    (.correlation, saved.correlations.map (correlationRow setting)),
    (.lineage, saved.lineage.zipIdx.map fun p ↦ lineageRow setting p.1 p.2),
    (.termination, saved.termination.toList.map (terminationRow setting))]

/-- All rows of a scan, with the references that its records make. -/
def allRows (setting : Setting) (saved : SavedResults) : List Row :=
  (rowsByKind setting saved).flatMap Prod.snd

theorem foldlM_insertOutcome (outcomes : List SourceExecutionOutcome)
    (output : TreeMap String Row) (sequence : TreeMap String ℕ) :
    (outcomes.foldlM (insertOutcome setting) (output, sequence)).map Prod.fst =
      (outcomeRows setting sequence outcomes).foldlM insert output := by
  induction outcomes generalizing output sequence with
  | nil => rfl
  | cons outcome outcomes ih =>
    rw [foldlM_cons, outcomeRows, foldlM_cons, insertOutcome]
    rcases insert output (outcomeRow setting outcome (sequence.getD outcome.module 0 + 1)) with
      error | output
    · rfl
    · exact ih output _

theorem rows_eq (saved : SavedResults) : rows setting saved =
    (allRows setting saved).foldlM insert ∅ >>= fun output ↦ .ok (addReciprocalLinks output) := by
  have houtcomes : ∀ (output : TreeMap String Row) (rest : TreeMap String Row →
      Except RegisterError (TreeMap String Row)),
      (saved.outcomes.foldlM (insertOutcome setting) (output, ∅) >>= fun p ↦ rest p.1) =
        (outcomeRows setting ∅ saved.outcomes).foldlM insert output >>= rest := by
    intro output rest
    rw [← foldlM_insertOutcome]
    rcases saved.outcomes.foldlM (insertOutcome setting) (output, ∅) with error | p <;> rfl
  rw [rows]
  simp only [allRows, rowsByKind, flatMap_cons, flatMap_nil, append_nil,
    foldlM_append, foldlM_map, bind_assoc, ← houtcomes]
  refine bind_congr fun output ↦ bind_congr fun output ↦ bind_congr fun state ↦
    bind_congr fun output ↦ bind_congr fun output ↦ ?_
  rcases saved.termination with _ | reason
  · rfl
  · rw [Option.toList_some, foldlM_cons, bind_assoc]
    rfl

/-! ## Taking rows in -/

/-- The rows are kept, each under its id, and no id is one of two rows. -/
structure Holds (listed : List Row) (output : TreeMap String Row) : Prop where
  row : ∀ id row, output[id]? = some row ↔ row ∈ listed ∧ row.id = id
  distinct : (listed.map Row.id).Nodup

variable {output : TreeMap String Row} {row : Row} {saved : SavedResults}

theorem Holds.mem {listed : List Row} (h : Holds listed output)
    {id : String} : id ∈ output ↔ id ∈ listed.map Row.id := by
  rw [TreeMap.mem_iff_isSome_getElem?, Option.isSome_iff_exists, mem_map]
  exact exists_congr fun row ↦ h.row id row

theorem Holds.insert {listed : List Row} {output' : TreeMap String Row}
    (h : Holds listed output) (hinsert : insert output row = .ok output') :
    Holds (listed ++ [row]) output' := by
  rw [EvidenceRegister.insert] at hinsert
  split at hinsert
  · cases hinsert
  · rename_i hnew
    split at hinsert
    · cases hinsert
    · cases hinsert
      rw [h.mem] at hnew
      refine ⟨fun id other ↦ ?_, ?_⟩
      · rw [TreeMap.getElem?_insert, mem_append, mem_singleton]
        split
        · rename_i heq
          rw [Std.LawfulEqCmp.compare_eq_iff_eq] at heq
          constructor
          · intro hother
            cases hother
            exact ⟨.inr rfl, heq⟩
          · rintro ⟨hother | rfl, hid⟩
            · exact absurd (mem_map.2 ⟨other, hother, hid.trans heq.symm⟩) hnew
            · rfl
        · rename_i hne
          rw [Std.LawfulEqCmp.compare_eq_iff_eq] at hne
          rw [h.row]
          constructor
          · exact fun ⟨hother, hid⟩ ↦ ⟨.inl hother, hid⟩
          · rintro ⟨hother | rfl, hid⟩
            · exact ⟨hother, hid⟩
            · exact absurd hid hne
      · rw [map_append, map_singleton, nodup_append_comm, singleton_append,
          nodup_cons]
        exact ⟨hnew, h.distinct⟩

theorem holds_foldlM {listed : List Row}
    (h : listed.foldlM insert ∅ = .ok output) : Holds listed output := by
  have hrun := Except.foldlM_inv (f := insert)
    (fun rest output ↦ ∃ seen, listed = seen ++ rest ∧ Holds seen output)
    (fun row rest output output' ⟨seen, hsplit, hseen⟩ hinsert ↦
      ⟨seen ++ [row], by rw [hsplit, append_assoc, singleton_append],
        hseen.insert hinsert⟩)
    ⟨[], rfl, ⟨fun id row ↦ by simp, nodup_nil⟩⟩ h
  obtain ⟨seen, hsplit, hholds⟩ := hrun
  rwa [hsplit, append_nil]

/-- Rows with ids of their own are not taken for duplicates. -/
theorem avoids_foldlM {listed : List Row} (hdistinct : (listed.map Row.id).Nodup) (id : String) :
    Except.Avoids (.duplicate id) (listed.foldlM insert ∅) := by
  have hrun : ∀ (rest seen : List Row) (output : TreeMap String Row), Holds seen output →
      ((seen ++ rest).map Row.id).Nodup →
      Except.Avoids (.duplicate id) (rest.foldlM insert output) := by
    intro rest
    induction rest with
    | nil => exact fun seen output _ _ ↦ Except.avoids_ok _
    | cons row rest ih =>
      intro seen output hholds hnodup
      rw [foldlM_cons]
      refine Except.Avoids.bind ?_ fun output' hinsert ↦ ?_
      · have hnew : row.id ∉ output := by
          rw [hholds.mem]
          rw [map_append, nodup_append] at hnodup
          exact fun hmem ↦ hnodup.2.2 _ hmem _ (.head _) rfl
        rw [EvidenceRegister.insert, if_neg hnew]
        split
        · exact Except.avoids_error fun h ↦ nomatch h
        · exact Except.avoids_ok _
      · refine ih (seen ++ [row]) output' (hholds.insert hinsert) ?_
        rwa [append_assoc, singleton_append]
  exact hrun listed [] ∅ ⟨fun id row ↦ by simp, nodup_nil⟩ hdistinct

/-! ## Ids -/

/-- The records that a row is for are told apart by these. -/
def Row.key (row : Row) : Kind × String := (row.kind, row.identifier)

/-- No two of the keys have one digest, as far as it is used. -/
def NoCollision (setting : Setting) (keys : List (Kind × String)) : Prop :=
  ∀ x ∈ keys, ∀ y ∈ keys,
    shortDigest setting (recordKey x.1.asStr x.2) = shortDigest setting (recordKey y.1.asStr y.2) →
      recordKey x.1.asStr x.2 = recordKey y.1.asStr y.2

/-- What a scan keeps under ids is kept under different ones. -/
structure Distinct (saved : SavedResults) : Prop where
  entities : (saved.entities.map Entity.uid).Nodup
  elements : (saved.elements.map DataElement.id).Nodup
  correlations : (saved.correlations.map ScanCorrelation.id).Nodup

theorem zero_not_mem_asStr (kind : Kind) : (0 : UInt8) ∉ Text.utf8 kind.asStr := by
  cases kind <;> decide

theorem Kind.asStr_injective : Function.Injective Kind.asStr := by
  intro a b h
  cases a <;> cases b <;> first | rfl | exact absurd h (by decide)

/-- Keys do not run into each other: a kind ends where the zero is. -/
theorem recordKey_injective {x y : Kind × String}
    (h : recordKey x.1.asStr x.2 = recordKey y.1.asStr y.2) : x = y := by
  have hsplit := congrArg (Pieces.splitOnce 0) h
  rw [recordKey, recordKey, Pieces.splitOnce_append (zero_not_mem_asStr x.1),
    Pieces.splitOnce_append (zero_not_mem_asStr y.1)] at hsplit
  obtain ⟨hkind, hvalue⟩ := Prod.mk.inj (Option.some.inj hsplit)
  exact Prod.ext (Kind.asStr_injective (Ledger.utf8_injective hkind)) (Ledger.utf8_injective hvalue)

theorem mem_outcomeRows {sequence : TreeMap String ℕ} {outcomes : List SourceExecutionOutcome}
    (h : row ∈ outcomeRows setting sequence outcomes) : ∃ outcome ordinal,
      sequence.getD outcome.module 0 < ordinal ∧ row = outcomeRow setting outcome ordinal := by
  induction outcomes generalizing sequence with
  | nil => cases h
  | cons outcome outcomes ih =>
    rcases mem_cons.1 h with rfl | h
    · exact ⟨outcome, _, Nat.lt_succ_self _, rfl⟩
    · obtain ⟨other, ordinal, hlt, rfl⟩ := ih h
      refine ⟨other, ordinal, lt_of_le_of_lt ?_ hlt, rfl⟩
      rw [TreeMap.getD_insert]
      split
      · rename_i heq
        rw [Std.LawfulEqCmp.compare_eq_iff_eq] at heq
        rw [heq]
        exact Nat.le_succ _
      · exact le_rfl

theorem toList_ordinal (n : ℕ) : (toString n).toList = Nat.toDigits 10 n := by
  rw [Nat.toString_eq_repr, Nat.toList_repr]

theorem ordinal_injective : Function.Injective fun n : ℕ ↦ toString n := by
  intro m n h
  refine Canonical.decimal_injective (?_ : Nat.toDigits 10 m = Nat.toDigits 10 n)
  rw [← toList_ordinal, ← toList_ordinal]
  exact congrArg String.toList h

/-- A module may end in anything: its number is what follows the last colon. -/
theorem outcome_identifier_inj {m m' : String} {n n' : ℕ}
    (h : m ++ ":" ++ toString n = m' ++ ":" ++ toString n') : m = m' ∧ n = n' := by
  have hread : ∀ (m : String) (n : ℕ), Canonical.rsplitOnce ':' (m ++ ":" ++ toString n).toList =
      some (m.toList, (toString n).toList) := by
    intro m n
    rw [String.toList_append, String.toList_append, append_assoc]
    refine Canonical.rsplitOnce_append fun hmem ↦ ?_
    rw [toList_ordinal] at hmem
    exact absurd (Nat.isDigit_of_mem_toDigits (by decide) (by decide) hmem) (by decide)
  have hsplit := congrArg (fun s : String ↦ Canonical.rsplitOnce ':' s.toList) h
  rw [hread, hread] at hsplit
  obtain ⟨hmodule, hordinal⟩ := Prod.mk.inj (Option.some.inj hsplit)
  exact ⟨String.toList_inj.1 hmodule, ordinal_injective (String.toList_inj.1 hordinal)⟩

theorem nodup_outcomeRows (sequence : TreeMap String ℕ) (outcomes : List SourceExecutionOutcome) :
    ((outcomeRows setting sequence outcomes).map Row.identifier).Nodup := by
  induction outcomes generalizing sequence with
  | nil => exact nodup_nil
  | cons outcome outcomes ih =>
    rw [outcomeRows, map_cons, nodup_cons]
    refine ⟨fun hmem ↦ ?_, ih _⟩
    obtain ⟨row, hrow, hid⟩ := mem_map.1 hmem
    obtain ⟨other, ordinal, hlt, rfl⟩ := mem_outcomeRows hrow
    obtain ⟨hmodule, hordinal⟩ := outcome_identifier_inj hid
    rw [hmodule, TreeMap.getD_insert_self, hordinal] at hlt
    exact lt_irrefl _ hlt

/-- The rows of a kind are of it, and known by it and their identifiers. -/
structure OfKind (setting : Setting) (kind : Kind) (row : Row) : Prop where
  kind : row.kind = kind
  id : row.id = stableId setting row.kind row.identifier

theorem ofKind {p : Kind × List Row} (hp : p ∈ rowsByKind setting saved)
    (hrow : row ∈ p.2) : OfKind setting p.1 row := by
  simp only [rowsByKind, mem_cons, not_mem_nil, or_false] at hp
  rcases hp with rfl | rfl | rfl | rfl | rfl | rfl
  · obtain ⟨entity, -, rfl⟩ := mem_map.1 hrow
    exact ⟨rfl, rfl⟩
  · obtain ⟨element, -, rfl⟩ := mem_map.1 hrow
    exact ⟨rfl, rfl⟩
  · obtain ⟨outcome, ordinal, -, rfl⟩ := mem_outcomeRows hrow
    exact ⟨rfl, rfl⟩
  · obtain ⟨correlation, -, rfl⟩ := mem_map.1 hrow
    exact ⟨rfl, rfl⟩
  · obtain ⟨pivot, -, rfl⟩ := mem_map.1 hrow
    exact ⟨rfl, rfl⟩
  · obtain ⟨reason, -, rfl⟩ := mem_map.1 hrow
    exact ⟨rfl, rfl⟩

theorem nodup_identifiers (h : Distinct saved) {p : Kind × List Row}
    (hp : p ∈ rowsByKind setting saved) : (p.2.map Row.identifier).Nodup := by
  simp only [rowsByKind, mem_cons, not_mem_nil, or_false] at hp
  rcases hp with rfl | rfl | rfl | rfl | rfl | rfl
  · rw [map_map]
    exact h.entities
  · rw [map_map]
    exact h.elements
  · exact nodup_outcomeRows ∅ saved.outcomes
  · rw [map_map]
    exact h.correlations
  · rw [map_map]
    have hpositions : (saved.lineage.zipIdx.map Prod.snd).Nodup := by
      rw [zipIdx_map_snd]
      exact nodup_range'
    have hordinals := hpositions.map ordinal_injective
    rwa [map_map] at hordinals
  · rcases saved.termination with _ | reason
    · exact nodup_nil
    · exact nodup_singleton _

theorem nodup_keys (h : Distinct saved) :
    ((allRows setting saved).map Row.key).Nodup := by
  have hkinds : (rowsByKind setting saved).Pairwise fun p q ↦ p.1 ≠ q.1 :=
    pairwise_map.1 (show ((rowsByKind setting saved).map Prod.fst).Nodup by
      exact (by decide : [Kind.entity, .element, .sourceOutcome, .correlation, .lineage,
        .termination].Nodup))
  rw [allRows, map_flatMap, nodup_flatMap]
  refine ⟨fun p hp ↦ List.Nodup.of_map Prod.snd ?_, hkinds.imp_of_mem fun hp hq hne ↦ ?_⟩
  · rw [map_map]
    exact nodup_identifiers h hp
  · refine disjoint_left.2 ?_
    intro key hkey hkey'
    obtain ⟨row, hrow, rfl⟩ := mem_map.1 hkey
    obtain ⟨row', hrow', heq⟩ := mem_map.1 hkey'
    rw [Row.key, Row.key, Prod.mk.injEq, (ofKind hp hrow).kind, (ofKind hq hrow').kind] at heq
    exact hne heq.1.symm

theorem row_id (h : row ∈ allRows setting saved) :
    row.id = stableId setting row.kind row.identifier := by
  obtain ⟨p, hp, hrow⟩ := mem_flatMap.1 h
  exact (ofKind hp hrow).id

theorem stableId_inj {keys : List (Kind × String)} (hno : NoCollision setting keys)
    {x y : Kind × String} (hx : x ∈ keys) (hy : y ∈ keys)
    (h : stableId setting x.1 x.2 = stableId setting y.1 y.2) : x = y := by
  have hlist := congrArg String.toList h
  rw [stableId, stableId, stableRecordId, stableRecordId, String.toList_append,
    String.toList_append] at hlist
  exact recordKey_injective (hno x hx y hy (String.toList_inj.1 (append_cancel_left hlist)))

/-- Rows of different records have different ids. -/
theorem nodup_ids (h : Distinct saved)
    (hno : NoCollision setting ((allRows setting saved).map Row.key)) :
    ((allRows setting saved).map Row.id).Nodup := by
  have hids : (allRows setting saved).map Row.id =
      ((allRows setting saved).map Row.key).map fun key ↦ stableId setting key.1 key.2 := by
    rw [map_map]
    exact map_congr_left fun row hrow ↦ row_id hrow
  rw [hids]
  exact (nodup_keys h).map_on fun x hx y hy heq ↦ stableId_inj hno hx hy heq

/-- **No record is taken for a duplicate** of another, whatever the modules of the outcomes are
called. -/
theorem rows_not_duplicate (h : Distinct saved)
    (hno : NoCollision setting ((allRows setting saved).map Row.key)) (id : String) :
    Except.Avoids (.duplicate id) (rows setting saved) := by
  rw [rows_eq]
  exact (avoids_foldlM (nodup_ids h hno) id).bind fun _ _ ↦ Except.avoids_ok _

/-! ## Links -/

/-- A row with these links listed too. -/
def Row.withLinks (row : Row) (links : List String) : Row :=
  { row with links := links.foldl TreeSet.insert row.links }

theorem mem_withLinks {links : List String} {id : String} :
    id ∈ (row.withLinks links).links ↔ id ∈ row.links ∨ id ∈ links := by
  have hfold : ∀ held : TreeSet String, id ∈ links.foldl TreeSet.insert held ↔
      id ∈ held ∨ id ∈ links := by
    induction links with
    | nil => exact fun held ↦ by simp
    | cons link links ih =>
      intro held
      rw [foldl_cons, ih, TreeSet.mem_insert, Std.LawfulEqCmp.compare_eq_iff_eq,
        mem_cons, eq_comm, or_assoc, or_left_comm]
  exact hfold row.links

/-- What is listed at a row by the way. -/
theorem getElem?_foldl_addLink (reverse : List (String × String)) (output : TreeMap String Row)
    (id : String) : (reverse.foldl addLink output)[id]? = output[id]?.map fun row ↦
      row.withLinks ((reverse.filter (·.1 = id)).map Prod.snd) := by
  induction reverse generalizing output with
  | nil => exact Option.map_id'.symm
  | cons p reverse ih =>
    rw [foldl_cons, ih, addLink]
    by_cases hp : p.1 = id
    · rw [filter_cons_of_pos (by simpa using hp), hp, map_cons]
      rcases hrow : output[id]? with _ | row
      · rw [hrow]
        rfl
      · dsimp only
        rw [TreeMap.getElem?_insert_self]
        rfl
    · rw [filter_cons_of_neg (by simpa using hp)]
      split
      · rw [TreeMap.getElem?_insert, if_neg (by rwa [Std.LawfulEqCmp.compare_eq_iff_eq])]
      · rfl

theorem mem_reverseLinks {listed : List Row}
    (h : Holds listed output) {linked id : String} : (linked, id) ∈ reverseLinks output ↔
      linked ∈ output ∧ ∃ row, output[id]? = some row ∧ linked ∈ row.links := by
  rw [reverseLinks, mem_flatMap]
  constructor
  · rintro ⟨⟨key, row⟩, hrow, hmem⟩
    obtain ⟨link, hlink, heq⟩ := mem_map.1 hmem
    cases heq
    obtain ⟨hlink, hpresent⟩ := mem_filter.1 hlink
    rw [TreeMap.mem_toList_iff_getElem?_eq_some] at hrow
    obtain ⟨-, rfl⟩ := (h.row key row).1 hrow
    exact ⟨of_decide_eq_true hpresent, row, hrow, TreeSet.mem_toList.1 hlink⟩
  · rintro ⟨hpresent, row, hrow, hlink⟩
    refine ⟨(id, row), TreeMap.mem_toList_iff_getElem?_eq_some.2 hrow, mem_map.2
      ⟨linked, mem_filter.2 ⟨TreeSet.mem_toList.2 hlink, decide_eq_true hpresent⟩, ?_⟩⟩
    rw [((h.row id row).1 hrow).2]

/-- The rows of a scan, with their links listed at both ends. -/
structure Linked (listed : List Row) (output : TreeMap String Row) : Prop where
  /-- Every record has its row, which lists the references that it makes. -/
  kept : ∀ row ∈ listed, ∃ links, output[row.id]? = some { row with links } ∧
    ∀ id ∈ row.links, id ∈ links
  /-- There are no other rows. -/
  only : ∀ (id : String) (row : Row), output[id]? = some row →
    row.id = id ∧ ∃ links, { row with links } ∈ listed
  distinct : (listed.map Row.id).Nodup
  both : ∀ (id id' : String) (row row' : Row), output[id]? = some row → output[id']? = some row' →
    (id' ∈ row.links ↔ id ∈ row'.links)

theorem linked_addReciprocalLinks {listed : List Row}
    (h : Holds listed output) : Linked listed (addReciprocalLinks output) := by
  have hget : ∀ id : String, (addReciprocalLinks output)[id]? = output[id]?.map fun row ↦
      row.withLinks (((reverseLinks output).filter (·.1 = id)).map Prod.snd) :=
    getElem?_foldl_addLink (reverseLinks output) output
  have hlinks : ∀ (id id' : String) (row : Row), (addReciprocalLinks output)[id]? = some row →
      ∃ kept, output[id]? = some kept ∧ (id' ∈ row.links ↔ id' ∈ kept.links ∨
        (id, id') ∈ reverseLinks output) := by
    intro id id' row hrow
    rw [hget, Option.map_eq_some_iff] at hrow
    obtain ⟨kept, hkept, rfl⟩ := hrow
    refine ⟨kept, hkept, ?_⟩
    rw [mem_withLinks, mem_map]
    refine or_congr_right ⟨?_, fun hmem ↦ ?_⟩
    · rintro ⟨p, hmem, rfl⟩
      obtain ⟨hmem, htarget⟩ := mem_filter.1 hmem
      rwa [← of_decide_eq_true htarget]
    · exact ⟨(id, id'), mem_filter.2 ⟨hmem, decide_eq_true rfl⟩, rfl⟩
  refine ⟨fun row hrow ↦ ?_, fun id row hrow ↦ ?_, h.distinct, fun id id' row row' hrow hrow' ↦ ?_⟩
  · rw [hget, (h.row row.id row).2 ⟨hrow, rfl⟩]
    exact ⟨_, rfl, fun id hid ↦ mem_withLinks.2 (.inl hid)⟩
  · rw [hget, Option.map_eq_some_iff] at hrow
    obtain ⟨kept, hkept, rfl⟩ := hrow
    obtain ⟨hmem, hid⟩ := (h.row id kept).1 hkept
    exact ⟨hid, kept.links, hmem⟩
  · obtain ⟨kept, hkept, hmem⟩ := hlinks id id' row hrow
    obtain ⟨kept', hkept', hmem'⟩ := hlinks id' id row' hrow'
    have hpresent : ∀ {id : String} {row : Row}, output[id]? = some row → id ∈ output := by
      intro id row hrow
      rw [TreeMap.mem_iff_isSome_getElem?, hrow]
      rfl
    have hreverse : ∀ {id id' : String} {row : Row}, id ∈ output → output[id']? = some row →
        ((id, id') ∈ reverseLinks output ↔ id ∈ row.links) := by
      intro id id' row hid hrow
      rw [mem_reverseLinks h]
      constructor
      · rintro ⟨-, other, hother, hlink⟩
        obtain rfl := Option.some.inj (hrow.symm.trans hother)
        exact hlink
      · exact fun hlink ↦ ⟨hid, row, hrow, hlink⟩
    rw [hmem, hmem', hreverse (hpresent hkept) hkept', hreverse (hpresent hkept') hkept, or_comm]

/-- **The rows are linked**: every reference is listed, and a link between two rows at both. -/
theorem rows_linked
    (h : rows setting saved = .ok output) : Linked (allRows setting saved) output := by
  rw [rows_eq] at h
  obtain ⟨plain, hplain, h⟩ := Except.bind_ok.1 h
  cases h
  exact linked_addReciprocalLinks (holds_foldlM hplain)

end Huntsman.EvidenceRegister
