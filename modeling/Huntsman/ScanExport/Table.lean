import Huntsman.Lib.Pieces
import Huntsman.TextNorm.Escape
import Mathlib.Data.List.Forall2

/-!
# Tables as text

A table is written with a line for its header and one for each row.  In CSV a cell is quoted where
it holds what would end it, in TSV such characters are written as escapes, and in both a cell that a
spreadsheet would run as a formula is guarded and controls are escaped.

`records` reads CSV as RFC 4180 has it and `tsvRecords` reads TSV.  Each reads back a record for
every row, with the cells as they were guarded and escaped (`records_table`, `tsvRecords_table`), if
no name in the header holds a quote or a line break and no row is empty.
-/

set_option autoImplicit false

namespace Huntsman.ScanExport

open List TextNorm

/-! ## The source's functions -/

/-- Whether a cell would be run as a formula. -/
def risky : List Char → Bool
  | [] => false
  | c :: cell =>
    if c = '=' ∨ c = '@' ∨ c = '\t' ∨ c = '\r' then true
    else if c = '+' ∨ c = '-' then !cell.all fun d ↦ d.isDigit || d == '.' || d == ',' || d == ' '
    else false

def guardCell (cell : List Char) : List Char := if risky cell then '\'' :: cell else cell

/-- `str::replace` of a character. -/
def replaceChar (c : Char) (s : List Char) (cell : List Char) : List Char :=
  cell.flatMap fun d ↦ if d = c then s else [d]

def csvCell (cell : List Char) : List Char :=
  let cell := escapeControlsKeepLines (guardCell cell)
  if cell.any fun c ↦ c == ',' || c == '"' || c == '\n' || c == '\r' then
    '"' :: (replaceChar '"' ['"', '"'] cell ++ ['"'])
  else cell

def tsvCell (cell : List Char) : List Char :=
  escapeControls (replaceChar '\n' ['\\', 'n'] (replaceChar '\r' ['\\', 'r']
    (replaceChar '\t' ['\\', 't'] (replaceChar '\\' ['\\', '\\'] (guardCell cell)))))

/-- The text of a table in CSV, or in TSV.  The media type is left out. -/
def table (csv : Bool) (header : List (List Char)) (lines : List (List (List Char))) : List Char :=
  let separator := if csv then ',' else '\t'
  let cell := if csv then csvCell else tsvCell
  [separator].intercalate header ++ ['\r', '\n'] ++
    lines.flatMap fun line ↦ [separator].intercalate (line.map cell) ++ ['\r', '\n']

/-! ## Reading a table -/

/-- Where a reader of CSV is: at the start of a field, in one without quotes, in one with quotes,
behind a quote in such a one, or behind the carriage return at the end of a record. -/
inductive Place where
  | start
  | plain
  | quoted
  | closed
  | ended
deriving DecidableEq

/-- RFC 4180, from a place in a record on: what has been read of the field, and the fields before
it. -/
def recordsFrom : Place → List Char → List (List Char) → List Char →
    Option (List (List (List Char)))
  | .start, _, fields, [] => some (if fields = [] then [] else [fields ++ [[]]])
  | .plain, field, fields, [] => some [fields ++ [field]]
  | .closed, field, fields, [] => some [fields ++ [field]]
  | .quoted, _, _, [] => none
  | .ended, _, _, [] => none
  | .ended, _, fields, c :: s =>
    if c = '\n' then (recordsFrom .start [] [] s).map fun records ↦ fields :: records else none
  | .quoted, field, fields, c :: s =>
    if c = '"' then recordsFrom .closed field fields s
    else recordsFrom .quoted (field ++ [c]) fields s
  | place, field, fields, c :: s =>
    if c = ',' then recordsFrom .start [] (fields ++ [field]) s
    else if c = '\r' then recordsFrom .ended [] (fields ++ [field]) s
    else if c = '\n' then none
    else if c = '"' then
      if place = .start then recordsFrom .quoted [] fields s
      else if place = .closed then recordsFrom .quoted (field ++ [c]) fields s
      else none
    else if place = .closed then none
    else recordsFrom .plain (field ++ [c]) fields s

/-- The records of a text in CSV. -/
def records (s : List Char) : Option (List (List (List Char))) := recordsFrom .start [] [] s

/-- What stands before and after each line break. -/
def splitLines : List Char → List (List Char)
  | [] => [[]]
  | [c] => [[c]]
  | c :: d :: s =>
    if c = '\r' ∧ d = '\n' then [] :: splitLines s else (splitLines (d :: s)).modifyHead (c :: ·)

/-- The records of a text in TSV, with the escapes in their fields.  Each ends with a line break. -/
def tsvRecords (s : List Char) : List (List (List Char)) :=
  (splitLines s).dropLast.map (List.splitOn '\t')

/-! ## CSV -/

variable {field : List Char} {fields : List (List Char)} {t w s : List Char} {c : Char}

/-- The text of a field without quotes. -/
def Plain (w : List Char) : Prop := ∀ c ∈ w, c ≠ ',' ∧ c ≠ '"' ∧ c ≠ '\n' ∧ c ≠ '\r'

/-- The text is that of a field, wherever a field may end. -/
def Writes (t w : List Char) : Prop := ∀ fields c s, c = ',' ∨ c = '\r' →
  recordsFrom .start [] fields (t ++ c :: s) = recordsFrom .closed w fields (c :: s)

theorem recordsFrom_plain (hw : Plain w) :
    recordsFrom .plain field fields (w ++ s) = recordsFrom .plain (field ++ w) fields s := by
  induction w generalizing field with
  | nil => rw [append_nil, nil_append]
  | cons d w ih =>
    obtain ⟨⟨hcomma, hquote, hline, hreturn⟩, hw⟩ := forall_mem_cons.1 hw
    rw [cons_append, recordsFrom, if_neg hcomma, if_neg hreturn, if_neg hline, if_neg hquote,
      if_neg (by decide), ih hw, append_assoc, singleton_append]
    all_goals exact fun h ↦ Place.noConfusion h

/-- A field without quotes is its text. -/
theorem Plain.writes (hw : Plain w) : Writes w w := by
  intro fields c s hc
  rcases w with _ | ⟨d, w⟩
  · rcases hc with rfl | rfl <;> rfl
  · obtain ⟨⟨hcomma, hquote, hline, hreturn⟩, hw⟩ := forall_mem_cons.1 hw
    rw [cons_append, recordsFrom, if_neg hcomma, if_neg hreturn, if_neg hline, if_neg hquote,
      if_neg (by decide), recordsFrom_plain hw]
    · rcases hc with rfl | rfl <;> rfl
    all_goals exact fun h ↦ Place.noConfusion h

theorem recordsFrom_quoted (field w : List Char) :
    recordsFrom .quoted field fields (replaceChar '"' ['"', '"'] w ++ '"' :: s) =
      recordsFrom .closed (field ++ w) fields s := by
  induction w generalizing field with
  | nil => rw [append_nil]; rfl
  | cons d w ih =>
    rw [replaceChar, flatMap_cons, ← replaceChar, append_assoc]
    by_cases hd : d = '"'
    · subst hd
      exact (ih (field ++ ['"'])).trans (by rw [append_assoc, singleton_append])
    · rw [if_neg hd, singleton_append, recordsFrom, if_neg hd, ih, append_assoc,
        singleton_append]

/-- A field with quotes has those in it doubled. -/
theorem writes_quoted (w : List Char) :
    Writes ('"' :: (replaceChar '"' ['"', '"'] w ++ ['"'])) w := by
  intro fields c s _
  rw [cons_append, append_assoc]
  exact recordsFrom_quoted [] w

/-- **A cell is read as it was guarded and escaped.** -/
theorem writes_csvCell (value : List Char) :
    Writes (csvCell value) (escapeControlsKeepLines (guardCell value)) := by
  rw [csvCell]
  split
  · exact writes_quoted _
  · rename_i h
    refine Plain.writes fun c hc ↦ ?_
    have hnot := mt (fun hc' ↦ any_eq_true.2 ⟨c, hc, hc'⟩) h
    simpa [not_or, and_assoc] using hnot

/-- A line of fields is a record. -/
theorem recordsFrom_line (fields : List (List Char)) {ts ws : List (List Char)}
    (h : List.Forall₂ Writes ts ws) (hne : ts ≠ []) (s : List Char) :
    recordsFrom .start [] fields ([','].intercalate ts ++ '\r' :: '\n' :: s) =
      (records s).map fun rs ↦ (fields ++ ws) :: rs := by
  induction h generalizing fields with
  | nil => exact absurd rfl hne
  | @cons t w ts ws ht hts ih =>
    rcases ts with _ | ⟨t', ts⟩
    · cases hts
      rw [intercalate_singleton, ht _ _ _ (.inr rfl)]
      rfl
    · rw [intercalate_cons_cons, append_assoc, append_assoc, singleton_append,
        ht _ _ _ (.inl rfl)]
      have hmore := ih (fields ++ [w]) (cons_ne_nil _ _)
      rw [append_assoc, singleton_append] at hmore
      exact hmore

/-- Lines of fields are records. -/
theorem records_lines {β : Type} {texts values : β → List (List Char)}
    (h : ∀ line, List.Forall₂ Writes (texts line) (values line)) (lines : List β)
    (hne : ∀ line ∈ lines, texts line ≠ []) :
    records (lines.flatMap fun line ↦ [','].intercalate (texts line) ++ ['\r', '\n']) =
      some (lines.map values) := by
  induction lines with
  | nil => rfl
  | cons line lines ih =>
    obtain ⟨hline, hlines⟩ := forall_mem_cons.1 hne
    have hfirst := recordsFrom_line [] (h line) hline
      (lines.flatMap fun line ↦ [','].intercalate (texts line) ++ ['\r', '\n'])
    rw [ih hlines] at hfirst
    rw [flatMap_cons, append_assoc]
    exact hfirst

/-- A name in a header that neither quotes nor ends a line. -/
def Quiet (name : List Char) : Prop := ∀ c ∈ name, c ≠ '"' ∧ c ≠ '\n' ∧ c ≠ '\r'

/-- The text of a header holds what its names do. -/
theorem quiet_intercalate {sep : Char} (hsep : sep = ',' ∨ sep = '\t') {header : List (List Char)}
    (h : ∀ name ∈ header, Quiet name) : Quiet ([sep].intercalate header) := by
  intro c hc
  rcases Pieces.mem_of_mem_intercalate hc with hc | ⟨name, hname, hc⟩
  · rw [mem_singleton.1 hc]
    rcases hsep with rfl | rfl <;> decide
  · exact h name hname c hc

/-- **A table in CSV is read back**, with a record for every line. -/
theorem records_table {header : List (List Char)} {lines : List (List (List Char))}
    (hheader : ∀ name ∈ header, Quiet name) (hlines : ∀ line ∈ lines, line ≠ []) :
    records (table true header lines) = some (([','].intercalate header).splitOn ',' ::
      lines.map fun line ↦ line.map fun value ↦ escapeControlsKeepLines (guardCell value)) := by
  have hquiet := quiet_intercalate (.inl rfl) hheader
  have hfirst : List.Forall₂ Writes (([','].intercalate header).splitOn ',')
      (([','].intercalate header).splitOn ',') := by
    refine forall₂_same.2 fun w hw ↦ Plain.writes fun c hc ↦ ?_
    obtain ⟨hquote, hline, hreturn⟩ := hquiet c (Pieces.mem_of_mem_splitOn hw hc)
    exact ⟨fun h ↦ Pieces.not_mem_of_mem_splitOn hw (h ▸ hc), hquote, hline, hreturn⟩
  have hcells : ∀ line : List (List Char), List.Forall₂ Writes (line.map csvCell)
      (line.map fun value ↦ escapeControlsKeepLines (guardCell value)) := by
    intro line
    rw [forall₂_map_left_iff, forall₂_map_right_iff]
    exact forall₂_same.2 fun value _ ↦ writes_csvCell value
  have hrest := records_lines hcells lines fun line hline ↦
    mt map_eq_nil_iff.1 (hlines line hline)
  have hstart := recordsFrom_line [] hfirst (splitOn_ne_nil _ _)
    (lines.flatMap fun line ↦ [','].intercalate (line.map csvCell) ++ ['\r', '\n'])
  rw [intercalate_splitOn, hrest] at hstart
  rw [table, append_assoc]
  exact hstart

/-! ## TSV -/

theorem splitLines_append (h : '\r' ∉ t) :
    splitLines (t ++ '\r' :: '\n' :: s) = t :: splitLines s := by
  induction t with
  | nil => rfl
  | cons c t ih =>
    rw [mem_cons, not_or] at h
    have hcut : ∀ d u, splitLines (c :: d :: u) = (splitLines (d :: u)).modifyHead (c :: ·) :=
      fun d u ↦ by rw [splitLines, if_neg fun hc ↦ h.1 hc.1.symm]
    have hmore := ih h.2
    rcases t with _ | ⟨d, t⟩
    · rw [nil_append] at hmore
      rw [cons_append, nil_append, hcut, hmore]
      rfl
    · rw [cons_append] at hmore
      rw [cons_append, cons_append, hcut, hmore]
      rfl

/-- How `tsvCell` writes a character of a guarded cell. -/
def spell (c : Char) : List Char :=
  if c = '\\' then ['\\', '\\']
  else if c = '\t' then ['\\', 't']
  else if c = '\r' then ['\\', 'r']
  else if c = '\n' then ['\\', 'n']
  else if isEscaped c then escapeDefault c
  else [c]

theorem tsvCell_eq (value : List Char) : tsvCell value = (guardCell value).flatMap spell := by
  rw [tsvCell, escapeControls, escapeWhere, replaceChar, replaceChar, replaceChar, replaceChar,
    flatMap_assoc, flatMap_assoc, flatMap_assoc, flatMap_assoc]
  congr 1
  funext c
  rw [spell]
  split_ifs with hslash htab hreturn hline hescaped
  · rfl
  · rw [htab]; rfl
  · rw [hreturn]; rfl
  · rw [hline]; rfl
  · simp [htab, hreturn, hline, hescaped]
  · simp [htab, hreturn, hline, hescaped]

theorem not_isEscaped_of_mem {value : List Char} {d : Char} (h : d ∈ tsvCell value) :
    isEscaped d = false := by
  rcases mem_escapeWhere h with hplain | ⟨-, hd⟩
  · rw [isEscaped, isControl]
    simp only [Bool.or_eq_false_iff, Bool.and_eq_false_iff, decide_eq_false_iff_not]
    omega
  · exact hd

/-- **A table in TSV is read back**, with a record for every line. -/
theorem tsvRecords_table {header : List (List Char)} {lines : List (List (List Char))}
    (hheader : ∀ name ∈ header, Quiet name) (hlines : ∀ line ∈ lines, line ≠ []) :
    tsvRecords (table false header lines) =
      (['\t'].intercalate header).splitOn '\t' :: lines.map fun line ↦ line.map tsvCell := by
  have hcells : ∀ d, isEscaped d = true → ∀ line : List (List Char), ∀ cell ∈ line.map tsvCell,
      d ∉ cell := by
    intro d hd line cell hcell hmem
    obtain ⟨value, -, rfl⟩ := mem_map.1 hcell
    rw [not_isEscaped_of_mem hmem] at hd
    exact Bool.false_ne_true hd
  have hrow : ∀ line : List (List Char), '\r' ∉ ['\t'].intercalate (line.map tsvCell) := by
    intro line hmem
    rcases Pieces.mem_of_mem_intercalate hmem with hmem | ⟨cell, hcell, hmem⟩
    · simp at hmem
    · exact hcells '\r' (by decide) line cell hcell hmem
  have hsplit : splitLines (lines.flatMap fun line ↦
      ['\t'].intercalate (line.map tsvCell) ++ ['\r', '\n']) =
      lines.map (fun line ↦ ['\t'].intercalate (line.map tsvCell)) ++ [[]] := by
    clear hlines
    induction lines with
    | nil => rfl
    | cons line lines ih =>
      rw [flatMap_cons, append_assoc]
      exact (splitLines_append (hrow line)).trans (congrArg _ ih)
  have hquiet := quiet_intercalate (.inr rfl) hheader
  have hfirst : '\r' ∉ ['\t'].intercalate header := fun h ↦ (hquiet _ h).2.2 rfl
  have hall : splitLines (table false header lines) = ['\t'].intercalate header ::
      (lines.map (fun line ↦ ['\t'].intercalate (line.map tsvCell)) ++ [[]]) := by
    rw [table, append_assoc, ← hsplit]
    exact splitLines_append hfirst
  rw [tsvRecords, hall, ← cons_append, dropLast_concat, map_cons, map_map]
  refine congrArg _ (map_congr_left fun line hline ↦ ?_)
  exact splitOn_intercalate '\t' (hcells '\t' (by decide) line)
    (mt map_eq_nil_iff.1 (hlines line hline))

theorem unescapeFrom_spell (c : Char) (rest : List Char) :
    unescapeFrom .none (spell c ++ rest) = (unescapeFrom .none rest).map fun t ↦ c :: t := by
  rw [spell]
  split_ifs with hslash htab hreturn hline hescaped
  · rw [hslash]; rfl
  · rw [htab]; rfl
  · rw [hreturn]; rfl
  · rw [hline]; rfl
  · exact unescapeFrom_escapeDefault hescaped rest
  · rw [singleton_append, unescapeFrom, if_neg hslash]

/-- **What a cell in TSV escapes is taken back.** -/
theorem unescape_tsvCell (value : List Char) :
    unescape (tsvCell value) = some (guardCell value) := by
  rw [tsvCell_eq, unescape]
  induction guardCell value with
  | nil => rfl
  | cons c cell ih =>
    rw [flatMap_cons, unescapeFrom_spell, ih]
    rfl

/-! ## Formulas -/

/-- The text is no formula: it begins with no sign of one, and with a sign only before a number. -/
def Harmless (field : List Char) : Prop := ∀ c rest, field = c :: rest → c ≠ '=' ∧ c ≠ '@' ∧
  (c = '+' ∨ c = '-' → ∀ d ∈ rest, d.isDigit = true ∨ d = '.' ∨ d = ',' ∨ d = ' ')

theorem harmless_guardCell (value : List Char) : Harmless (guardCell value) := by
  intro c rest h
  rw [guardCell] at h
  by_cases hrisky : risky value = true
  · rw [if_pos hrisky] at h
    cases h
    exact ⟨by decide, by decide, fun hsign ↦ absurd hsign (by decide)⟩
  · rw [if_neg hrisky] at h
    subst h
    rw [risky] at hrisky
    split_ifs at hrisky with hfirst hsign
    · exact absurd rfl hrisky
    · simp only [not_or] at hfirst
      refine ⟨hfirst.1, hfirst.2.1, fun _ d hd ↦ ?_⟩
      simp only [Bool.not_eq_true', Bool.not_eq_false, all_eq_true] at hrisky
      simpa [or_assoc] using hrisky d hd
    · simp only [not_or] at hfirst
      exact ⟨hfirst.1, hfirst.2.1, fun h ↦ absurd h hsign⟩

/-- Escapes make no formula: a character is left or begins with a backslash. -/
theorem Harmless.flatMap {f : Char → List Char} (hf : ∀ c, f c = [c] ∨ ∃ r, f c = '\\' :: r)
    (hnumber : ∀ d, d.isDigit = true ∨ d = '.' ∨ d = ',' ∨ d = ' ' → f d = [d])
    (h : Harmless field) : Harmless (field.flatMap f) := by
  rcases field with _ | ⟨c, field⟩
  · exact h
  · obtain ⟨hequals, hat, hsign⟩ := h c field rfl
    rw [flatMap_cons]
    rcases hf c with hc | ⟨r, hc⟩
    · intro d rest heq
      rw [hc, singleton_append] at heq
      cases heq
      refine ⟨hequals, hat, fun hd e he ↦ ?_⟩
      obtain ⟨e', he', hmem⟩ := mem_flatMap.1 he
      have hplain := hsign hd e' he'
      rw [hnumber e' hplain, mem_singleton] at hmem
      exact hmem ▸ hplain
    · intro d rest heq
      rw [hc, cons_append] at heq
      cases heq
      exact ⟨by decide, by decide, fun hsign ↦ absurd hsign (by decide)⟩

theorem escapeDefault_head (h : isEscaped c = true) :
    ∃ r, escapeDefault c = '\\' :: r := by
  rw [escapeDefault]
  split_ifs with _ _ _ _ hprint
  · exact ⟨_, rfl⟩
  · exact ⟨_, rfl⟩
  · exact ⟨_, rfl⟩
  · exact ⟨_, rfl⟩
  · simp only [isEscaped, isControl, Bool.or_eq_true, Bool.and_eq_true, decide_eq_true_eq] at h
    omega
  · exact ⟨_, rfl⟩

/-- What a signed number is written with is no character that is escaped. -/
theorem not_isEscaped_of_number {d : Char}
    (h : d.isDigit = true ∨ d = '.' ∨ d = ',' ∨ d = ' ') : isEscaped d = false ∧ d ≠ '\\' := by
  rcases h with h | rfl | rfl | rfl
  · have hrange : 48 ≤ d.toNat ∧ d.toNat ≤ 57 := by
      simp only [Char.isDigit, ge_iff_le, Bool.and_eq_true, decide_eq_true_eq,
        UInt32.le_iff_toNat_le] at h
      exact h
    constructor
    · simp only [isEscaped, isControl, Bool.or_eq_false_iff, Bool.and_eq_false_iff,
        decide_eq_false_iff_not]
      omega
    · rintro rfl
      simp at hrange
  · decide
  · decide
  · decide

theorem harmless_csvCell (value : List Char) :
    Harmless (escapeControlsKeepLines (guardCell value)) := by
  refine Harmless.flatMap (fun c ↦ ?_) (fun d hd ↦ ?_) (harmless_guardCell value)
  · split_ifs with h
    · exact .inr (escapeDefault_head (Bool.and_eq_true_iff.1 h).2)
    · exact .inl rfl
  · have hkept : (d != '\n' && d != '\t' && isEscaped d) = false := by
      rw [(not_isEscaped_of_number hd).1, Bool.and_false]
    exact if_neg (ne_true_of_eq_false hkept)

theorem harmless_tsvCell (value : List Char) : Harmless (tsvCell value) := by
  rw [tsvCell_eq]
  refine Harmless.flatMap (fun c ↦ ?_) (fun d hd ↦ ?_) (harmless_guardCell value)
  · rw [spell]
    split_ifs with _ _ _ _ h
    · exact .inr ⟨_, rfl⟩
    · exact .inr ⟨_, rfl⟩
    · exact .inr ⟨_, rfl⟩
    · exact .inr ⟨_, rfl⟩
    · exact .inr (escapeDefault_head h)
    · exact .inl rfl
  · obtain ⟨hescaped, hslash⟩ := not_isEscaped_of_number hd
    have hne : ∀ e, isEscaped e = true → d ≠ e := fun e he h ↦ by
      rw [h, he] at hescaped
      exact Bool.false_ne_true hescaped.symm
    rw [spell, if_neg hslash, if_neg (hne _ (by decide)), if_neg (hne _ (by decide)),
      if_neg (hne _ (by decide)), hescaped, if_neg Bool.false_ne_true]

/-! ## The table -/

/-- **A table is read back.**  Where no name of the header holds a quote or a line break and no line
is empty, the table in CSV is read as the header and a record for each line, whose fields are the
values guarded and escaped.  The table in TSV is read as the header and a record for each line, and
the escapes of its fields are taken back to the values guarded.  No field of either is a formula. -/
theorem table_read_back (header : List (List Char)) (lines : List (List (List Char)))
    (hheader : ∀ name ∈ header, ∀ c ∈ name, c ≠ '"' ∧ c ≠ '\n' ∧ c ≠ '\r')
    (hlines : ∀ line ∈ lines, line ≠ []) :
    (∃ first, records (table true header lines) = some (first ::
        lines.map fun line ↦ line.map fun value ↦ escapeControlsKeepLines (guardCell value)) ∧
      (header ≠ [] → (∀ name ∈ header, ',' ∉ name) → first = header)) ∧
    (∃ first, tsvRecords (table false header lines) =
        first :: lines.map (fun line ↦ line.map tsvCell) ∧
      (header ≠ [] → (∀ name ∈ header, '\t' ∉ name) → first = header)) ∧
    (∀ value, unescape (tsvCell value) = some (guardCell value)) ∧
    ∀ value, Harmless (escapeControlsKeepLines (guardCell value)) ∧ Harmless (tsvCell value) := by
  refine ⟨⟨_, records_table hheader hlines, fun hne hno ↦ ?_⟩,
    ⟨_, tsvRecords_table hheader hlines, fun hne hno ↦ ?_⟩, unescape_tsvCell,
    fun value ↦ ⟨harmless_csvCell value, harmless_tsvCell value⟩⟩
  · exact splitOn_intercalate ',' hno hne
  · exact splitOn_intercalate '\t' hno hne

/-- A table with a formula in it. -/
theorem table_read_back_formula :
    ∃ first, records (table true [['D']] [[['=', '1']]]) = some [first, [['\'', '=', '1']]] := by
  obtain ⟨⟨first, hrecords, -⟩, -⟩ := table_read_back [['D']] [[['=', '1']]] (by simp)
    (by simp)
  exact ⟨first, hrecords⟩

/-- A quote in the header is not read, and an empty line is read as a field. -/
theorem not_table_read_back :
    (¬ ∃ first, records (table true [['"']] [[['a']]]) = some [first, [['a']]]) ∧
      ¬ ∃ first, records (table true [] [[]]) = some [first, []] := by
  have hquote : records (table true [['"']] [[['a']]]) = none := by decide
  have hempty : records (table true [] [[]]) = some [[[]], [[]]] := by decide
  refine ⟨fun ⟨first, h⟩ ↦ ?_, fun ⟨first, h⟩ ↦ ?_⟩
  · rw [hquote] at h
    cases h
  · rw [hempty] at h
    cases h

end Huntsman.ScanExport
