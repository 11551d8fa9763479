import Huntsman.EvidenceRegister.Rows

/-!
# Compiling an evidence register

A register lists the rows of a scan.  Against a baseline it says of each row what became of it, and
leaves out those that are unchanged.  Rows that only the baseline has are listed as removed.

What a report counts and lists is an account of the two scans: each id of either is told once, by
what became of its row, and material change is claimed if there is any (`compile_accounts`).
-/

set_option autoImplicit false

namespace Huntsman.EvidenceRegister

open List

open Huntsman.Graph (Json)
open Std (TreeMap TreeSet)

/-! ## Values -/

/-- `json!({ .. })`, which keeps its fields in the order of their names. -/
def object (fields : List (String × Json)) : Json :=
  .object (fields.mergeSort fun a b ↦ decide (a.1 ≤ b.1))

def number (n : ℕ) : Json := .number (toString n)

def optional {α : Type} (f : α → Json) (value : Option α) : Json := (value.map f).getD .null

/-- The field of a value. -/
def field (key : String) : Json → Option Json
  | .object fields => Json.field fields key
  | _ => none

/-- `map.remove`. -/
def remove (keys : List String) : Json → Json
  | .object fields => .object (fields.filter (·.1 ∉ keys))
  | value => value

/-- `map.get_mut`. -/
def modify (key : String) (f : Json → Json) : Json → Json
  | .object fields => .object (fields.map fun p ↦ if p.1 = key then (p.1, f p.2) else p)
  | value => value

/-- The items of an array, each with its provenance without what is of the run. -/
def semanticEvidence : Json → Json
  | .array items =>
    .array (items.map (modify "provenance" (remove ["scan_id", "recorded_at_unix"])))
  | value => value

/-- Drop only per-run bookkeeping for semantic comparison. -/
def semantic (kind : Kind) (value : Json) : Json :=
  match kind with
  | .entity => modify "evidence" semanticEvidence (remove ["scan_id", "observed_at_unix"] value)
  | .element => remove ["created"] value
  | .sourceOutcome => remove ["observed_at_unix"] value
  | .correlation | .lineage | .termination => value

inductive Change where
  | full | unchanged | reobserved | changed | added | removed
deriving DecidableEq

def Change.asStr : Change → String
  | .full => "full"
  | .unchanged => "unchanged"
  | .reobserved => "reobserved"
  | .changed => "changed"
  | .added => "added"
  | .removed => "removed"

section

variable (setting : Setting)

def signature (value : Json) (stripClock : Bool) (kind : Kind) : Except RegisterError String := do
  let copy := if stripClock then semantic kind value else value
  let bytes ← (setting.toVec copy).mapError .unwritable
  .ok (Ledger.hex32 (setting.sha256 bytes)).1

def change (now previous : Row) : Except RegisterError Change := do
  if (← signature setting now.raw false now.kind) =
      (← signature setting previous.raw false previous.kind) then .ok .unchanged
  else if (← signature setting now.raw true now.kind) =
      (← signature setting previous.raw true previous.kind) then .ok .reobserved
  else .ok .changed

def toJson (row : Row) (changeStatus : Change) (known : TreeMap String Row) :
    Except RegisterError Json := do
  let timestamp := if row.observedAtUnix = none then ["observation_timestamp_not_recorded"] else []
  let missing := timestamp ++ (row.links.toList.filter (· ∉ known)).map
    ("cross_reference_target_not_recorded:" ++ ·)
  let status := if row.falsePositive then "operator_flagged_false_positive"
    else "recorded_not_independently_verified"
  let digest ← signature setting row.raw false row.kind
  .ok (object
    [("RECORD_ID", .string row.id),
      ("KIND", .string row.kind.asStr),
      ("ENTITY", if row.kind = .entity then .string row.identifier else .null),
      ("IDENTIFIERS", .array [.string row.identifier]),
      ("ALIASES", .array []),
      ("SOURCE", optional .string row.source),
      ("SOURCE_URL", .null),
      ("RETRIEVED_UTC", .null),
      ("EVENT_TIMESTAMP", optional (fun unix ↦ object [("unix_seconds", number unix)])
        row.observedAtUnix),
      ("RAW_DATA", row.raw),
      ("RAW_SHA256", .string digest),
      ("METADATA", object [("origin", .string "saved_scan"),
        ("false_positive_flag", .boolean row.falsePositive)]),
      ("CROSS_REFERENCES", .array (row.links.toList.map .string)),
      ("CORRELATED_ENTITIES", .array []),
      ("RELATIONSHIPS", .array []),
      ("TIMELINE", .array []),
      ("SUPPORTING_EVIDENCE", .array []),
      ("CONTRADICTORY_EVIDENCE", .array []),
      ("ANOMALIES", .array []),
      ("MISSING_INFORMATION", .array (missing.map .string)),
      ("COMPETING_HYPOTHESES", .array []),
      ("INFERENCES", .array []),
      ("CONFIDENCE", .null),
      ("VERIFICATION_STATUS", .string status),
      ("UNRESOLVED_UNCERTAINTIES",
        .array [.string "source_authenticity_not_independently_established"]),
      ("NEXT_INVESTIGATIVE_ACTION", .null),
      ("DELTA", .string changeStatus.asStr)])

/-- What became of a row, against the rows of the baseline if there is one. -/
def changeOf (earlier : Option (TreeMap String Row)) (id : String) (row : Row) :
    Except RegisterError Change :=
  match earlier with
  | none => .ok .full
  | some old =>
    match old[id]? with
    | some prev => change setting row prev
    | none => .ok .added

/-- The records and the counts so far. -/
structure Progress where
  records : List Json := []
  counts : TreeMap String ℕ := ∅

def Progress.count (progress : Progress) (kind : Change) : Progress :=
  { progress with
    counts := progress.counts.insert kind.asStr (progress.counts.getD kind.asStr 0 + 1) }

/-- The loop over the current rows. -/
def compileRow (current : TreeMap String Row) (earlier : Option (TreeMap String Row))
    (progress : Progress) (p : String × Row) : Except RegisterError Progress := do
  let kind ← changeOf setting earlier p.1 p.2
  let progress := progress.count kind
  if kind = .unchanged then .ok progress
  else do
    let record ← toJson setting p.2 kind current
    .ok { progress with records := progress.records ++ [record] }

/-- The loop over the rows of the baseline. -/
def compileRemoved (current old : TreeMap String Row) (progress : Progress) (p : String × Row) :
    Except RegisterError Progress :=
  if p.1 ∈ current then .ok progress
  else do
    let progress := progress.count .removed
    let record ← toJson setting p.2 .removed old
    .ok { progress with records := progress.records ++ [record] }

def statusOf (counts : TreeMap String ℕ) (earlier : Option (TreeMap String Row)) : String :=
  let material := counts.getD "added" 0 + counts.getD "removed" 0 + counts.getD "changed" 0
  if earlier.isNone then "FULL_REGISTER"
  else if material = 0 then "NO_MATERIAL_CHANGE"
  else "MATERIAL_CHANGE"

def countsJson (counts : TreeMap String ℕ) : Json :=
  object (counts.toList.map fun p ↦ (p.1, number p.2))

def report (scan : Scans.ScanRecord) (saved : SavedResults) (baseline : Option Scans.ScanRecord)
    (current : TreeMap String Row) (earlier : Option (TreeMap String Row)) (progress : Progress) :
    Json :=
  object
    [("format", .string "huntsman_evidence_register"),
      ("schema", number 1),
      ("scan", object [("id", .string scan.id), ("target", .string scan.target),
        ("status", setting.statusJson scan.status)]),
      ("baseline", optional (fun old ↦ .string old.id) baseline),
      ("status", .string (statusOf progress.counts earlier)),
      ("counts", countsJson progress.counts),
      ("current_record_count", number current.size),
      ("baseline_record_count", optional (fun old ↦ number old.size) earlier),
      ("uncertainty_register", setting.uncertainty scan saved),
      ("records", .array progress.records),
      ("limitations", .array
        [.string "saved_scan_not_independent_factual_corroboration",
          .string "source_urls_and_retrieval_utc_not_reconstructed_when_absent",
          .string "cross_references_resolve_only_saved_explicit_links",
          .string "reported_personal_attributes_are_not_authenticated",
          .string "delta_reobserved_ignores_only_explicit_per_run_timestamps_and_scan_id"]),
      ("scan_complete", .boolean (scan.status = .finished)),
      ("truncated", .boolean false)]

/-- The rows of the baseline, if there is one. -/
def earlierRows (baseline : Option (Scans.ScanRecord × SavedResults)) :
    Except RegisterError (Option (TreeMap String Row)) :=
  match baseline with
  | some (_, old) => (rows setting old).map some
  | none => .ok none

/-- List the rows that only the baseline has. -/
def compileEarlier (current : TreeMap String Row) (earlier : Option (TreeMap String Row))
    (progress : Progress) : Except RegisterError Progress :=
  match earlier with
  | some old => old.toList.foldlM (compileRemoved setting current old) progress
  | none => .ok progress

/-- Construct a reproducible register from saved scan results, optionally only of changes and
re-observations against a prior scan. -/
def compile (scan : Scans.ScanRecord) (saved : SavedResults)
    (baseline : Option (Scans.ScanRecord × SavedResults)) : Except RegisterError Json := do
  let current ← rows setting saved
  let earlier ← earlierRows setting baseline
  let progress ← current.toList.foldlM (compileRow setting current earlier) {}
  let progress ← compileEarlier setting current earlier progress
  let report := report setting scan saved (baseline.map Prod.fst) current earlier progress
  let bytes ← (setting.toVec report).mapError .unwritable
  if maxRenderBytes < bytes.length then .error (.tooLarge bytes.length)
  else .ok report

end

/-! ## Fields -/

theorem lookup_of_mem {α β : Type} [DecidableEq α] {fields : List (α × β)}
    (hnodup : (fields.map Prod.fst).Nodup) {key : α} {value : β} (h : (key, value) ∈ fields) :
    fields.lookup key = some value := by
  obtain ⟨before, after, rfl⟩ := append_of_mem h
  refine lookup_eq_some_iff.2 ⟨before, after, rfl, fun p hp ↦ ?_⟩
  rw [map_append, nodup_append] at hnodup
  exact bne_iff_ne.2 (hnodup.2.2 p.1 (mem_map_of_mem hp) key (.head _)).symm

/-- An object has the fields that it is made of. -/
theorem field_object {fields : List (String × Json)} (hnodup : (fields.map Prod.fst).Nodup)
    {key : String} {value : Json} (h : (key, value) ∈ fields) :
    field key (object fields) = some value := by
  have hperm := mergeSort_perm fields fun a b ↦ decide (a.1 ≤ b.1)
  exact lookup_of_mem ((hperm.map Prod.fst).nodup_iff.2 hnodup) (hperm.mem_iff.2 h)

variable {setting : Setting} {current old known : TreeMap String Row}

variable {row : Row} {progress progress' : Progress} {earlier : Option (TreeMap String Row)}

theorem toJson_fields {kind : Change} {record : Json}
    (h : toJson setting row kind known = .ok record) :
    field "RECORD_ID" record = some (.string row.id) ∧
      field "DELTA" record = some (.string kind.asStr) := by
  rw [toJson] at h
  obtain ⟨digest, -, h⟩ := Except.bind_ok.1 h
  cases h
  constructor
  · refine field_object ?_ (by simp)
    simp only [map_cons, map_nil]
    decide
  · refine field_object ?_ (by simp)
    simp only [map_cons, map_nil]
    decide

/-! ## Accounts -/

/-- What became of the row of an id, between a baseline and a scan. -/
inductive Delta (setting : Setting) (current old : TreeMap String Row) : String → Change → Prop
  | compared {id : String} {row prev : Row} {kind : Change} (hrow : current[id]? = some row)
      (hprev : old[id]? = some prev) (h : change setting row prev = .ok kind) :
      Delta setting current old id kind
  | added {id : String} (hid : id ∈ current) (hold : id ∉ old) : Delta setting current old id .added
  | removed {id : String} (hid : id ∉ current) (hold : id ∈ old) :
      Delta setting current old id .removed

/-- The changes that a current row can have undergone, against a baseline. -/
def Change.ofCurrent : List Change := [.unchanged, .reobserved, .changed, .added]

/-- What was counted and listed is what the deltas tell. -/
structure Tells (deltas : List (String × Change)) (progress : Progress) : Prop where
  counts : ∀ kind : Change, progress.counts.getD kind.asStr 0 = (deltas.map Prod.snd).count kind
  records : progress.records.map (fun record ↦ (field "RECORD_ID" record, field "DELTA" record)) =
    (deltas.filter (·.2 ≠ .unchanged)).map fun d ↦
      (some (.string d.1), some (.string d.2.asStr))

theorem Change.asStr_injective : Function.Injective Change.asStr := by
  intro a b h
  cases a <;> cases b <;> first | rfl | exact absurd h (by decide)

theorem Tells.count {deltas : List (String × Change)}
    (h : Tells deltas progress) (id : String) (kind other : Change) :
    (progress.count kind).counts.getD other.asStr 0 =
      ((deltas ++ [(id, kind)]).map Prod.snd).count other := by
  rw [Progress.count, TreeMap.getD_insert, map_append, count_append, ← h.counts,
    map_singleton, count_singleton]
  by_cases heq : kind = other
  · rw [if_pos (by rw [heq, Std.LawfulEqCmp.compare_eq_iff_eq]), if_pos (by simpa using heq), heq]
  · rw [if_neg, if_neg (by simpa using heq), Nat.add_zero]
    rw [Std.LawfulEqCmp.compare_eq_iff_eq]
    exact fun hstr ↦ heq (Change.asStr_injective hstr)

/-- A row that is unchanged is counted. -/
theorem Tells.unchanged {deltas : List (String × Change)}
    (h : Tells deltas progress) (id : String) :
    Tells (deltas ++ [(id, .unchanged)]) (progress.count .unchanged) := by
  refine ⟨h.count id .unchanged, ?_⟩
  rw [filter_append, filter_singleton, decide_eq_false (by simp), cond_false,
    append_nil]
  exact h.records

/-- A row that is not is listed as well. -/
theorem Tells.listed {deltas : List (String × Change)}
    (h : Tells deltas progress) {kind : Change} {record : Json}
    (hkind : kind ≠ .unchanged) (hrecord : toJson setting row kind known = .ok record) :
    Tells (deltas ++ [(row.id, kind)])
      { progress.count kind with records := progress.records ++ [record] } := by
  refine ⟨h.count row.id kind, ?_⟩
  obtain ⟨hid, hdelta⟩ := toJson_fields hrecord
  rw [filter_append, filter_singleton, decide_eq_true hkind, cond_true, map_append,
    map_append, map_singleton, map_singleton, h.records, hid, hdelta]

theorem change_ofCurrent {now previous : Row} {kind : Change}
    (h : change setting now previous = .ok kind) : kind ∈ Change.ofCurrent := by
  rw [change] at h
  obtain ⟨_, -, h⟩ := Except.bind_ok.1 h
  obtain ⟨_, -, h⟩ := Except.bind_ok.1 h
  split at h
  · cases h
    decide
  · obtain ⟨_, -, h⟩ := Except.bind_ok.1 h
    obtain ⟨_, -, h⟩ := Except.bind_ok.1 h
    split at h
    · cases h
      decide
    · cases h
      decide

theorem changeOf_delta {id : String} {kind : Change} (hrow : current[id]? = some row)
    (h : changeOf setting (some old) id row = .ok kind) :
    kind ∈ Change.ofCurrent ∧ Delta setting current old id kind := by
  rw [changeOf] at h
  split at h
  · rename_i prev hprev
    exact ⟨change_ofCurrent h, .compared hrow hprev h⟩
  · rename_i hnone
    cases h
    refine ⟨by decide, .added ?_ ?_⟩
    · rw [TreeMap.mem_iff_isSome_getElem?, hrow]
      rfl
    · rw [TreeMap.mem_iff_isSome_getElem?, hnone]
      exact Bool.false_ne_true

theorem compileRow_tells {deltas : List (String × Change)}
    (h : Tells deltas progress) {p : String × Row}
    (hid : p.2.id = p.1) (hrow : compileRow setting current earlier progress p = .ok progress') :
    ∃ kind, changeOf setting earlier p.1 p.2 = .ok kind ∧
      Tells (deltas ++ [(p.1, kind)]) progress' := by
  rw [compileRow] at hrow
  obtain ⟨kind, hkind, hrow⟩ := Except.bind_ok.1 hrow
  refine ⟨kind, hkind, ?_⟩
  split at hrow
  · rename_i hunchanged
    cases hrow
    rw [hunchanged]
    exact h.unchanged p.1
  · rename_i hchanged
    obtain ⟨record, hrecord, hrow⟩ := Except.bind_ok.1 hrow
    cases hrow
    rw [← hid]
    exact h.listed hchanged hrecord

theorem compileRemoved_tells {deltas : List (String × Change)}
    (h : Tells deltas progress) {p : String × Row} (hid : p.2.id = p.1)
    (hrow : compileRemoved setting current old progress p = .ok progress') :
    Tells (deltas ++ (([p].filter (·.1 ∉ current)).map fun p ↦ (p.1, .removed))) progress' := by
  rw [compileRemoved] at hrow
  split at hrow
  · rename_i hmem
    cases hrow
    rw [filter_singleton, decide_eq_false (not_not.2 hmem), cond_false, map_nil,
      append_nil]
    exact h
  · rename_i hmem
    obtain ⟨record, hrecord, hrow⟩ := Except.bind_ok.1 hrow
    cases hrow
    rw [filter_singleton, decide_eq_true hmem, cond_true, map_singleton, ← hid]
    exact h.listed (by decide) hrecord

/-- What became of a row, where it can be told. -/
def told (setting : Setting) (earlier : Option (TreeMap String Row)) (p : String × Row) : Change :=
  ((changeOf setting earlier p.1 p.2).toOption).getD .full

/-- What became of the row of each id of a scan or its baseline. -/
def deltas (setting : Setting) (current old : TreeMap String Row) : List (String × Change) :=
  (current.toList.map fun p ↦ (p.1, told setting (some old) p)) ++
    (old.toList.filter (·.1 ∉ current)).map fun p ↦ (p.1, .removed)

theorem compileRows_tells {l : List (String × Row)}
    (hids : ∀ p ∈ l, p.2.id = p.1) {before : List (String × Change)}
    (h : Tells before progress)
    (hrun : l.foldlM (compileRow setting current earlier) progress = .ok progress') :
    Tells (before ++ l.map fun p ↦ (p.1, told setting earlier p)) progress' ∧
      ∀ p ∈ l, changeOf setting earlier p.1 p.2 = .ok (told setting earlier p) := by
  induction l generalizing before progress with
  | nil =>
    cases hrun
    rw [map_nil, append_nil]
    exact ⟨h, nofun⟩
  | cons p l ih =>
    obtain ⟨next, hrow, hrest⟩ := Except.foldlM_cons_ok.1 hrun
    obtain ⟨kind, hkind, hnext⟩ := compileRow_tells h (hids p (.head _)) hrow
    have htold : kind = told setting earlier p := by
      rw [told, hkind]
      rfl
    rw [htold] at hkind hnext
    obtain ⟨htells, hall⟩ := ih (fun q hq ↦ hids q (mem_cons_of_mem p hq)) hnext hrest
    rw [append_assoc] at htells
    exact ⟨htells, forall_mem_cons.2 ⟨hkind, hall⟩⟩

theorem compileRemoved_all_tells {l : List (String × Row)} (hids : ∀ p ∈ l, p.2.id = p.1)
    {before : List (String × Change)} (h : Tells before progress)
    (hrun : l.foldlM (compileRemoved setting current old) progress = .ok progress') :
    Tells (before ++ (l.filter (·.1 ∉ current)).map fun p ↦ (p.1, .removed)) progress' := by
  induction l generalizing before progress with
  | nil =>
    cases hrun
    rwa [filter_nil, map_nil, append_nil]
  | cons p l ih =>
    obtain ⟨next, hrow, hrest⟩ := Except.foldlM_cons_ok.1 hrun
    have hnext := compileRemoved_tells h (hids p (.head _)) hrow
    have htells := ih (fun q hq ↦ hids q (mem_cons_of_mem p hq)) hnext hrest
    rwa [append_assoc, ← map_append, ← filter_append,
      singleton_append] at htells

/-- A report tells what became of the rows of a scan and its baseline. -/
structure Accounts (setting : Setting) (current old : TreeMap String Row) (report : Json)
    (deltas : List (String × Change)) (counts : TreeMap String ℕ) : Prop where
  /-- Each id of the two is told once, and so is what became of its row. -/
  distinct : (deltas.map Prod.fst).Nodup
  delta : ∀ id kind, (id, kind) ∈ deltas ↔ Delta setting current old id kind
  every : ∀ id, id ∈ deltas.map Prod.fst ↔ id ∈ current ∨ id ∈ old
  counted : field "counts" report = some (countsJson counts)
  each : ∀ kind : Change, counts.getD kind.asStr 0 = (deltas.map Prod.snd).count kind
  present : counts.getD "unchanged" 0 + counts.getD "reobserved" 0 + counts.getD "changed" 0 +
    counts.getD "added" 0 = current.size
  gone : counts.getD "removed" 0 = (old.keys.filter (· ∉ current)).length
  /-- All rows that are not unchanged are listed, each once. -/
  records : ∃ records, field "records" report = some (.array records) ∧
    records.map (fun record ↦ (field "RECORD_ID" record, field "DELTA" record)) =
      (deltas.filter (·.2 ≠ .unchanged)).map fun d ↦
        (some (.string d.1), some (.string d.2.asStr))
  status : field "status" report = some (.string "NO_MATERIAL_CHANGE") ↔
    ∀ d ∈ deltas, d.2 ≠ .added ∧ d.2 ≠ .removed ∧ d.2 ≠ .changed

theorem mem_of_getElem? {rows : TreeMap String Row} {id : String}
    (h : rows[id]? = some row) : id ∈ rows := by
  rw [TreeMap.mem_iff_isSome_getElem?, h]
  rfl

theorem deltas_distinct : ((deltas setting current old).map Prod.fst).Nodup := by
  have hremoved : ((old.toList.filter (·.1 ∉ current)).map Prod.fst).Nodup := by
    refine List.Nodup.sublist (filter_sublist.map Prod.fst) ?_
    rw [TreeMap.map_fst_toList_eq_keys]
    exact TreeMap.nodup_keys
  rw [deltas, map_append, map_map, map_map]
  refine List.Nodup.append ?_ hremoved ?_
  · have hcurrent : current.keys.Nodup := TreeMap.nodup_keys
    rwa [← TreeMap.map_fst_toList_eq_keys] at hcurrent
  · rw [disjoint_left]
    intro id hid hid'
    obtain ⟨p, hp, rfl⟩ := mem_map.1 hid
    obtain ⟨q, hq, heq⟩ := mem_map.1 hid'
    have hnot := of_decide_eq_true (mem_filter.1 hq).2
    have hmem := mem_of_getElem? (TreeMap.mem_toList_iff_getElem?_eq_some.1 hp)
    exact hnot (show q.1 ∈ current from (show q.1 = p.1 from heq) ▸ hmem)

theorem mem_deltas (hall : ∀ p ∈ current.toList,
      changeOf setting (some old) p.1 p.2 = .ok (told setting (some old) p)) {id : String}
    {kind : Change} :
    (id, kind) ∈ deltas setting current old ↔ Delta setting current old id kind := by
  rw [deltas, mem_append, mem_map, mem_map]
  constructor
  · rintro (⟨p, hp, heq⟩ | ⟨p, hp, heq⟩)
    · cases heq
      exact (changeOf_delta (TreeMap.mem_toList_iff_getElem?_eq_some.1 hp) (hall p hp)).2
    · cases heq
      obtain ⟨hold, hnot⟩ := mem_filter.1 hp
      exact .removed (of_decide_eq_true hnot)
        (mem_of_getElem? (TreeMap.mem_toList_iff_getElem?_eq_some.1 hold))
  · have htold : ∀ (row : Row), current[id]? = some row →
        changeOf setting (some old) id row = .ok kind →
        ∃ p ∈ current.toList, (p.1, told setting (some old) p) = (id, kind) := by
      intro row hrow hkind
      have hmem : (id, row) ∈ current.toList := TreeMap.mem_toList_iff_getElem?_eq_some.2 hrow
      exact ⟨(id, row), hmem, Prod.ext rfl (Except.ok.inj ((hall _ hmem).symm.trans hkind))⟩
    rintro (⟨hrow, hprev, h⟩ | ⟨hid, hold⟩ | ⟨hid, hold⟩)
    · refine .inl (htold _ hrow ?_)
      rw [changeOf, hprev]
      exact h
    · obtain ⟨row, hrow⟩ := Option.isSome_iff_exists.1 (TreeMap.mem_iff_isSome_getElem?.1 hid)
      refine .inl (htold row hrow ?_)
      rw [changeOf, TreeMap.getElem?_eq_none hold]
    · obtain ⟨row, hrow⟩ := Option.isSome_iff_exists.1 (TreeMap.mem_iff_isSome_getElem?.1 hold)
      exact .inr ⟨(id, row), mem_filter.2
        ⟨TreeMap.mem_toList_iff_getElem?_eq_some.2 hrow, decide_eq_true hid⟩, rfl⟩

theorem deltas_ids {id : String} :
    id ∈ (deltas setting current old).map Prod.fst ↔ id ∈ current ∨ id ∈ old := by
  rw [deltas, map_append, map_map, map_map, mem_append]
  have hcurrent : id ∈ current.toList.map Prod.fst ↔ id ∈ current := by
    rw [TreeMap.map_fst_toList_eq_keys, TreeMap.mem_keys]
  have hold : id ∈ (old.toList.filter (·.1 ∉ current)).map Prod.fst ↔ id ∈ old ∧ id ∉ current := by
    rw [← TreeMap.mem_keys, ← TreeMap.map_fst_toList_eq_keys, mem_map, mem_map]
    constructor
    · rintro ⟨p, hp, rfl⟩
      obtain ⟨hp, hnot⟩ := mem_filter.1 hp
      exact ⟨⟨p, hp, rfl⟩, of_decide_eq_true hnot⟩
    · rintro ⟨⟨p, hp, rfl⟩, hnot⟩
      exact ⟨p, mem_filter.2 ⟨hp, decide_eq_true hnot⟩, rfl⟩
  refine (or_congr hcurrent hold).trans ?_
  by_cases h : id ∈ current <;> simp [h]

/-- The changes of current rows are all counted. -/
theorem count_ofCurrent {kinds : List Change} (h : ∀ kind ∈ kinds, kind ∈ Change.ofCurrent) :
    kinds.count .unchanged + kinds.count .reobserved + kinds.count .changed + kinds.count .added =
      kinds.length := by
  induction kinds with
  | nil => rfl
  | cons kind kinds ih =>
    have hrest := ih fun other hother ↦ h other (mem_cons_of_mem kind hother)
    have hkind := h kind (.head _)
    simp only [count_cons, length_cons]
    cases kind with
    | full => exact absurd hkind (by decide)
    | removed => exact absurd hkind (by decide)
    | unchanged => simp; omega
    | reobserved => simp; omega
    | changed => simp; omega
    | added => simp; omega

/-- How often each change is told: those of current rows among them, and removals of the rest. -/
theorem count_deltas (kind : Change) : ((deltas setting current old).map Prod.snd).count kind =
    (current.toList.map (told setting (some old))).count kind +
      if kind = .removed then (old.keys.filter (· ∉ current)).length else 0 := by
  have hgone : ((old.toList.filter (·.1 ∉ current)).map fun p ↦
        (p.1, Change.removed)).map Prod.snd =
      replicate (old.keys.filter (· ∉ current)).length .removed := by
    rw [map_map, ← TreeMap.map_fst_toList_eq_keys, filter_map, length_map]
    exact map_const'
  rw [deltas, map_append, count_append, hgone, map_map, count_replicate]
  refine congrArg₂ _ rfl (if_congr ?_ rfl rfl)
  rw [beq_iff_eq, eq_comm]

theorem report_fields {scan : Scans.ScanRecord} {saved : SavedResults}
    {baseline : Option Scans.ScanRecord}
    {written : Json}
    (h : report setting scan saved baseline current earlier progress = written) :
    field "counts" written = some (countsJson progress.counts) ∧
      field "records" written = some (.array progress.records) ∧
      field "status" written = some (.string (statusOf progress.counts earlier)) := by
  subst h
  refine ⟨field_object ?_ (by simp), field_object ?_ (by simp), field_object ?_ (by simp)⟩ <;>
  · simp only [map_cons, map_nil]
    decide

theorem statusOf_eq {counts : TreeMap String ℕ} {ds : List (String × Change)}
    (h : ∀ kind : Change, counts.getD kind.asStr 0 = (ds.map Prod.snd).count kind) :
    statusOf counts (some old) = "NO_MATERIAL_CHANGE" ↔
      ∀ d ∈ ds, d.2 ≠ .added ∧ d.2 ≠ .removed ∧ d.2 ≠ .changed := by
  have hzero : ∀ kind : Change, counts.getD kind.asStr 0 = 0 ↔ ∀ d ∈ ds, d.2 ≠ kind := by
    intro kind
    rw [h, count_eq_zero, mem_map]
    exact ⟨fun hnot d hd heq ↦ hnot ⟨d, hd, heq⟩, fun hall ⟨d, hd, heq⟩ ↦ hall d hd heq⟩
  have hmaterial : counts.getD "added" 0 + counts.getD "removed" 0 + counts.getD "changed" 0 = 0 ↔
      ∀ d ∈ ds, d.2 ≠ .added ∧ d.2 ≠ .removed ∧ d.2 ≠ .changed := by
    rw [Nat.add_eq_zero_iff, Nat.add_eq_zero_iff, and_assoc]
    refine (and_congr (hzero .added) (and_congr (hzero .removed) (hzero .changed))).trans ?_
    exact ⟨fun ⟨ha, hr, hc⟩ d hd ↦ ⟨ha d hd, hr d hd, hc d hd⟩,
      fun hall ↦ ⟨fun d hd ↦ (hall d hd).1, fun d hd ↦ (hall d hd).2.1, fun d hd ↦ (hall d hd).2.2⟩⟩
  rw [← hmaterial, statusOf]
  split
  · rename_i hnone
    cases hnone
  · split
    · rename_i heq
      exact iff_of_true rfl heq
    · rename_i hne
      exact iff_of_false (by decide) hne

/-- **A report is an account of two scans**, of what became of each row. -/
theorem compile_accounts {scan before : Scans.ScanRecord} {saved prior : SavedResults}
    {written : Json} (h : compile setting scan saved (some (before, prior)) = .ok written) :
    ∃ current old, rows setting saved = .ok current ∧ rows setting prior = .ok old ∧
      ∃ deltas counts, Accounts setting current old written deltas counts := by
  rw [compile] at h
  obtain ⟨current, hcurrent, h⟩ := Except.bind_ok.1 h
  obtain ⟨earlier, hearlier, h⟩ := Except.bind_ok.1 h
  obtain ⟨old, hold, rfl⟩ := Except.map_eq_ok.1 hearlier
  obtain ⟨progress, hprogress, h⟩ := Except.bind_ok.1 h
  obtain ⟨final, hfinal, h⟩ := Except.bind_ok.1 h
  obtain ⟨bytes, -, h⟩ := Except.bind_ok.1 h
  have hwritten : report setting scan saved (some before) current (some old) final = written := by
    split at h
    · cases h
    · exact Except.ok.inj h
  have hids : ∀ {saved : SavedResults} {rows : TreeMap String Row},
      EvidenceRegister.rows setting saved = .ok rows → ∀ p ∈ rows.toList, p.2.id = p.1 :=
    fun hrows p hp ↦ ((rows_linked hrows).only p.1 p.2
      (TreeMap.mem_toList_iff_getElem?_eq_some.1 hp)).1
  have hempty : Tells [] {} := ⟨fun kind ↦ by simp [TreeMap.getD_emptyc], rfl⟩
  obtain ⟨htells, hall⟩ := compileRows_tells (hids hcurrent) hempty hprogress
  have htells := compileRemoved_all_tells (hids hold) htells hfinal
  rw [nil_append] at htells
  change Tells (deltas setting current old) final at htells
  obtain ⟨hcounts, hrecords, hstatus⟩ := report_fields hwritten
  have hkinds : ∀ p ∈ current.toList, told setting (some old) p ∈ Change.ofCurrent :=
    fun p hp ↦ (changeOf_delta (TreeMap.mem_toList_iff_getElem?_eq_some.1 hp) (hall p hp)).1
  refine ⟨current, old, hcurrent, hold, deltas setting current old, final.counts,
    deltas_distinct, fun id kind ↦ mem_deltas hall, fun id ↦ deltas_ids, hcounts,
    htells.counts, ?_, ?_, ⟨final.records, hrecords, htells.records⟩, ?_⟩
  · have hpresent := count_ofCurrent (forall_mem_map.2 hkinds)
    rw [length_map, TreeMap.length_toList] at hpresent
    have hcount : ∀ kind : Change, kind ≠ .removed → final.counts.getD kind.asStr 0 =
        (current.toList.map (told setting (some old))).count kind := by
      intro kind hkind
      rw [htells.counts, count_deltas, if_neg hkind, Nat.add_zero]
    rw [← hpresent, ← hcount .unchanged (by decide), ← hcount .reobserved (by decide),
      ← hcount .changed (by decide), ← hcount .added (by decide)]
    rfl
  · have hremoved := htells.counts .removed
    rw [count_deltas, if_pos rfl, count_eq_zero.2, Nat.zero_add] at hremoved
    · exact hremoved
    · intro hmem
      obtain ⟨p, hp, heq⟩ := mem_map.1 hmem
      exact absurd (heq ▸ hkinds p hp) (by decide)
  · rw [hstatus, Option.some.injEq, Json.string.injEq]
    exact statusOf_eq htells.counts

/-! ## Refusals -/

section Refusals

variable {id : String}

theorem avoids_toVec (value : Json) :
    Except.Avoids (.duplicate id) ((setting.toVec value).mapError RegisterError.unwritable) := by
  rcases setting.toVec value with error | bytes
  · exact Except.avoids_error fun h ↦ nomatch h
  · exact Except.avoids_ok bytes

theorem avoids_signature (value : Json) (stripClock : Bool) (kind : Kind) :
    Except.Avoids (.duplicate id) (signature setting value stripClock kind) :=
  (avoids_toVec _).bind fun _ _ ↦ Except.avoids_ok _

theorem avoids_change (now previous : Row) :
    Except.Avoids (.duplicate id) (change setting now previous) := by
  rw [change]
  refine (avoids_signature _ _ _).bind fun _ _ ↦ (avoids_signature _ _ _).bind fun _ _ ↦ ?_
  split
  · exact Except.avoids_ok _
  · refine (avoids_signature _ _ _).bind fun _ _ ↦ (avoids_signature _ _ _).bind fun _ _ ↦ ?_
    split <;> exact Except.avoids_ok _

theorem avoids_changeOf (earlier : Option (TreeMap String Row)) (key : String) (row : Row) :
    Except.Avoids (.duplicate id) (changeOf setting earlier key row) := by
  rcases earlier with _ | old
  · exact Except.avoids_ok _
  · rw [changeOf]
    split
    · exact avoids_change _ _
    · exact Except.avoids_ok _

theorem avoids_toJson (row : Row) (kind : Change) (known : TreeMap String Row) :
    Except.Avoids (.duplicate id) (toJson setting row kind known) :=
  (avoids_signature _ _ _).bind fun _ _ ↦ Except.avoids_ok _

theorem avoids_compileRow (earlier : Option (TreeMap String Row)) (progress : Progress)
    (p : String × Row) :
    Except.Avoids (.duplicate id) (compileRow setting current earlier progress p) := by
  refine (avoids_changeOf _ _ _).bind fun kind _ ↦ ?_
  split
  · exact Except.avoids_ok _
  · exact (avoids_toJson _ _ _).bind fun _ _ ↦ Except.avoids_ok _

theorem avoids_compileRemoved (progress : Progress) (p : String × Row) :
    Except.Avoids (.duplicate id) (compileRemoved setting current old progress p) := by
  rw [compileRemoved]
  split
  · exact Except.avoids_ok _
  · exact (avoids_toJson _ _ _).bind fun _ _ ↦ Except.avoids_ok _

/-- Only rows can be refused as duplicates. -/
theorem avoids_compile {scan : Scans.ScanRecord} {saved : SavedResults}
    {baseline : Option (Scans.ScanRecord × SavedResults)}
    (hrows : Except.Avoids (.duplicate id) (rows setting saved))
    (hbaseline : ∀ prior ∈ baseline, Except.Avoids (.duplicate id) (rows setting prior.2)) :
    Except.Avoids (.duplicate id) (compile setting scan saved baseline) := by
  refine hrows.bind fun current _ ↦ Except.Avoids.bind ?_ fun earlier _ ↦
    (Except.avoids_foldlM (avoids_compileRow earlier) _ _).bind fun progress _ ↦
      Except.Avoids.bind ?_ fun final _ ↦ (avoids_toVec _).bind fun bytes _ ↦ ?_
  · rcases baseline with _ | ⟨before, prior⟩
    · exact Except.avoids_ok _
    · rw [earlierRows, Except.map_eq_bind]
      exact (hbaseline _ rfl).bind fun _ _ ↦ Except.avoids_ok _
  · rcases earlier with _ | old
    · exact Except.avoids_ok _
    · exact Except.avoids_foldlM avoids_compileRemoved _ _
  · split
    · exact Except.avoids_error fun h ↦ nomatch h
    · exact Except.avoids_ok _

end Refusals

/-- **A register is sound.**  Against a baseline it is an account of the two scans.  The rows of a
scan list every reference, and a link between two rows at both.  Results whose records have ids of
their own are not refused as duplicates, whatever their modules are called, where digests do not
collide. -/
theorem compile_sound (setting : Setting) :
    (∀ (scan before : Scans.ScanRecord) (saved prior : SavedResults) (written : Json),
      compile setting scan saved (some (before, prior)) = .ok written →
      ∃ current old, rows setting saved = .ok current ∧ rows setting prior = .ok old ∧
        ∃ deltas counts, Accounts setting current old written deltas counts) ∧
    (∀ (saved : SavedResults) (output : TreeMap String Row), rows setting saved = .ok output →
      Linked (allRows setting saved) output) ∧
    ∀ (scan : Scans.ScanRecord) (saved : SavedResults)
      (baseline : Option (Scans.ScanRecord × SavedResults)),
      (∀ results, results = saved ∨ (∃ prior ∈ baseline, results = prior.2) → Distinct results ∧
        NoCollision setting ((allRows setting results).map Row.key)) →
      ∀ id, compile setting scan saved baseline ≠ .error (.duplicate id) := by
  refine ⟨fun scan before saved prior written h ↦ compile_accounts h,
    fun saved output h ↦ rows_linked h, fun scan saved baseline hclean id ↦ avoids_compile ?_ ?_⟩
  · obtain ⟨hdistinct, hno⟩ := hclean saved (.inl rfl)
    exact rows_not_duplicate hdistinct hno id
  · intro prior hprior
    obtain ⟨hdistinct, hno⟩ := hclean prior.2 (.inr ⟨prior, hprior, rfl⟩)
    exact rows_not_duplicate hdistinct hno id

end Huntsman.EvidenceRegister
