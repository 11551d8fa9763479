import Huntsman.Xlsx.Names
import Huntsman.Xlsx.Worksheet
import Huntsman.Xlsx.Zip

/-!
# Workbooks

`workbook` writes the parts of a workbook, one for each sheet and four that say what there is, and
stores them in an archive.  `part` is one of them read back, and `readNames` is the names of the
sheets as the workbook's own part has them.
-/

set_option autoImplicit false

namespace Huntsman.Xlsx

open List

open Canonical (decimal)

/-- One worksheet: a name and its rows. -/
structure Sheet where
  name : Str
  rows : List (List Str)

/-- Text for an XML attribute value. -/
def attributeText (raw : Str) : Str :=
  Scan.replace ['"'] ['&', 'q', 'u', 'o', 't', ';'] (Scan.replace ['>'] ['&', 'g', 't', ';']
    (Scan.replace ['<'] ['&', 'l', 't', ';'] (Scan.replace ['&'] ['&', 'a', 'm', 'p', ';'] raw)))

/-- `XML_HEAD`. -/
def xmlHead : Str :=
  "<?xml version=\"1.0\"".toList ++ " encoding=\"UTF-8\" standalone=\"yes\"?>\n".toList

/-- Where the names of the format's own vocabularies begin. -/
def schemas : Str := "http://schemas.openxmlformats.org/".toList

/-- Where the names of the format's media types begin. -/
def vendor : Str := "application/vnd.openxmlformats-".toList

/-- `RELATIONSHIPS`. -/
def relationships : Str := schemas ++ "package/2006/relationships".toList

/-- `OFFICE`. -/
def office : Str := schemas ++ "officeDocument/2006/relationships".toList

/-- `SPREADSHEET`. -/
def spreadsheet : Str := vendor ++ "officedocument.spreadsheetml".toList

/-- The numbers of the sheets. -/
def numbers (sheets : ℕ) : List ℕ := (List.range sheets).map (· + 1)

/-- The part that says what kind each part is. -/
def contentTypes (sheets : ℕ) : Str :=
  List.flatten [xmlHead,
    "<Types xmlns=\"".toList, schemas, "package/2006/content-types\">".toList,
    "<Default Extension=\"rels\"".toList, " ContentType=\"".toList, vendor,
    "package.relationships+xml\"/>".toList,
    "<Default Extension=\"xml\"".toList, " ContentType=\"".toList, "application/xml\"/>".toList,
    "<Override PartName=\"".toList, "/xl/workbook.xml\"".toList, " ContentType=\"".toList,
    spreadsheet, ".sheet.main+xml\"/>".toList,
    (numbers sheets).flatMap fun n ↦ List.flatten [
      "<Override PartName=\"".toList, "/xl/worksheets/sheet".toList, decimal n, ".xml\"".toList,
      " ContentType=\"".toList, spreadsheet, ".worksheet+xml\"/>".toList],
    "</Types>".toList]

def nameMark : Str := "<sheet name=\"".toList

/-- A sheet as the workbook's own part has it, from its name on. -/
def bookEntry (sheet : Str × ℕ) : Str :=
  attributeText sheet.1 ++ ('"' :: List.flatten [" sheetId=\"".toList, decimal (sheet.2 + 1),
    "\" r:id=\"rId".toList, decimal (sheet.2 + 1), "\"/>".toList])

/-- What stands before the sheets. -/
def bookHead : Str :=
  List.flatten [xmlHead,
    "<workbook xmlns=\"".toList, schemas, "spreadsheetml/2006/main\"".toList,
    " xmlns:r=\"".toList, office, "\"><sheets>".toList]

/-- The workbook's own part, which names the sheets. -/
def book (names : List Str) : Str :=
  bookHead ++ (names.zipIdx.flatMap (fun sheet ↦ nameMark ++ bookEntry sheet) ++
    "</sheets></workbook>".toList)

/-- The part that says where the sheets are. -/
def bookRels (sheets : ℕ) : Str :=
  List.flatten [xmlHead, "<Relationships xmlns=\"".toList, relationships, "\">".toList,
    (numbers sheets).flatMap fun n ↦ List.flatten [
      "<Relationship Id=\"rId".toList, decimal n, "\" Type=\"".toList, office,
      "/worksheet\" Target=\"worksheets/sheet".toList, decimal n, ".xml\"/>".toList],
    "</Relationships>".toList]

/-- The part that says where the workbook is. -/
def rootRels : Str :=
  List.flatten [xmlHead, "<Relationships xmlns=\"".toList, relationships,
    "\"><Relationship Id=\"rId1\" Type=\"".toList, office,
    "/officeDocument\" Target=\"".toList, "xl/workbook.xml\"/></Relationships>".toList]

/-- The name of a sheet's part. -/
def sheetPath (number : ℕ) : Str :=
  "xl/worksheets/sheet".toList ++ (decimal number ++ ".xml".toList)

def bookPath : Str := "xl/workbook.xml".toList

/-- The entries of a workbook. -/
def bookEntries (names : List Str) (sheets : List Sheet) : List Entry :=
  [("[Content_Types].xml".toList, bytesOf (contentTypes sheets.length)),
    ("_rels/.rels".toList, bytesOf rootRels), (bookPath, bytesOf (book names)),
    ("xl/_rels/workbook.xml.rels".toList, bytesOf (bookRels sheets.length))] ++
  sheets.zipIdx.map fun sheet ↦ (sheetPath (sheet.2 + 1), bytesOf (worksheet sheet.1.rows))

/-- The sheets that are written: an empty list is one empty sheet. -/
def written (sheets : List Sheet) : List Sheet :=
  if sheets.isEmpty then [⟨"Sheet".toList, []⟩] else sheets

variable (L : Lowercase)

/-- A workbook of the sheets, in order; none where it is more than a ZIP holds. -/
def workbook (sheets : List Sheet) : Option (List UInt8) :=
  (sheetNames L [] ((written sheets).map Sheet.name)).bind fun names ↦
    storedZip (bookEntries names (written sheets))

/-! ## The reader -/

/-- One part of a workbook, as text. -/
def part (bytes : List UInt8) (name : Str) : Option Str :=
  (unzip bytes).bind fun entries ↦
    (entries.find? fun e ↦ e.1 = name).bind fun e ↦ fromUtf8 e.2

/-- The sheet names in a workbook's own part, in order, as the attribute values they are. -/
def readNames (bookXml : Str) : Option (List Str) :=
  ((Text.splitAux nameMark 0 [] bookXml).drop 1).mapM (Scan.before ['"'])

/-- The text of an attribute value. -/
def readAttribute (s : Str) : Str :=
  unreference (Scan.replace ['&', 'q', 'u', 'o', 't', ';'] ['"'] s)

/-! ## Names in the workbook's own part -/

/-- The references for what an attribute value cannot have. -/
def quoted (c : Char) : Str := if c = '"' then ['&', 'q', 'u', 'o', 't', ';'] else reference c

/-- Replacing one character of a text written character by character. -/
theorem replace_char {c : Char} {new : Str} {f : Char → Str} (hsame : f c = [c])
    (hother : ∀ d, d ≠ c → c ∉ f d) (s : Str) :
    Scan.replace [c] new (s.flatMap f) = s.flatMap fun d ↦ if d = c then new else f d := by
  refine Scan.replace_flatMap (cons_ne_nil _ _) (fun d ↦ ?_) s
  by_cases hd : d = c
  · exact .inl ⟨by rw [hd, hsame], if_pos hd⟩
  · exact .inr ⟨Scan.Clear.of_not_mem (hother d hd) [], if_neg hd⟩

theorem attributeText_eq (raw : Str) : attributeText raw = raw.flatMap quoted := by
  have hfour : ∀ d, (if d = '"' then ['&', 'q', 'u', 'o', 't', ';'] else
      if d = '>' then ['&', 'g', 't', ';'] else if d = '<' then ['&', 'l', 't', ';'] else
        if d = '&' then ['&', 'a', 'm', 'p', ';'] else [d]) = quoted d := by
    intro d
    rw [quoted, reference]
    by_cases hamp : d = '&'
    · rw [hamp]
      rfl
    · by_cases hless : d = '<'
      · rw [hless]
        rfl
      · rw [if_neg hamp, if_neg hless, if_neg hamp, if_neg hless]
  have hraw : raw = raw.flatMap fun d ↦ [d] := (flatMap_singleton' raw).symm
  rw [attributeText]
  conv_lhs => rw [hraw]
  have hself : ∀ {c d : Char}, d ≠ c → c ∉ [d] := fun hd h ↦ hd (mem_singleton.1 h).symm
  rw [replace_char rfl (fun d hd ↦ hself hd), replace_char rfl (fun d hd ↦ ?_),
    replace_char rfl (fun d hd ↦ ?_), replace_char rfl (fun d hd ↦ ?_)]
  · exact flatMap_congr fun d _ ↦ hfour d
  · split_ifs <;> first | decide | exact hself hd
  · split_ifs <;> first | decide | exact hself hd
  · split_ifs <;> first | decide | exact hself hd

/-- An attribute value has neither a quotation mark nor markup of its own. -/
theorem quote_not_mem_attributeText (raw : Str) : '"' ∉ attributeText raw := by
  rw [attributeText_eq]
  intro hmem
  obtain ⟨c, -, hc⟩ := mem_flatMap.1 hmem
  rw [quoted, reference] at hc
  split_ifs at hc with hquote
  · simp at hc
  · simp at hc
  · simp at hc
  · simp at hc
  · exact hquote (mem_singleton.1 hc).symm

theorem less_not_mem_attributeText (raw : Str) : '<' ∉ attributeText raw := by
  rw [attributeText_eq]
  intro hmem
  obtain ⟨c, -, hc⟩ := mem_flatMap.1 hmem
  rw [quoted] at hc
  split at hc
  · simp at hc
  · exact less_not_mem_reference c hc

/-- The four references give the name back. -/
theorem readAttribute_attributeText (raw : Str) : readAttribute (attributeText raw) = raw := by
  have hquote : Scan.replace ['&', 'q', 'u', 'o', 't', ';'] ['"'] (raw.flatMap quoted) =
      raw.flatMap reference := by
    refine Scan.replace_flatMap (by decide) (fun c ↦ ?_) raw
    by_cases hc : c = '"'
    · subst hc
      exact .inl ⟨rfl, rfl⟩
    · rw [quoted, if_neg hc, reference]
      refine .inr ⟨?_, rfl⟩
      split_ifs with hamp
      · decide
      · decide
      · decide
      · exact clear_singleton hamp _
  rw [readAttribute, attributeText_eq, hquote, unreference_flatMap]

/-- The names are read as they are written, one for each sheet. -/
theorem readNames_book (names : List Str) :
    readNames (book names) = some (names.map attributeText) := by
  have hsplit : book names = bookHead ++ (names.zipIdx.flatMap (fun sheet ↦ [] ++
      (nameMark ++ bookEntry sheet)) ++ "</sheets></workbook>".toList) := rfl
  have hclear : ∀ n, Scan.Clear nameMark (decimal n) :=
    fun n ↦ Scan.Clear.of_not_mem (less_not_mem_decimal n) _
  have hnames : names.zipIdx.mapM (fun sheet ↦ some (attributeText sheet.1)) =
      some (names.map attributeText) := by
    rw [← map_zipIdx names attributeText]
    exact mapM_eq_some_map.2 fun _ _ ↦ rfl
  rw [readNames, hsplit]
  refine (mapM_splitAux (by decide) ?_ ?_ ?_ ?_ ?_).trans hnames
  · decide +kernel
  · decide
  · exact fun _ _ ↦ trivial
  · intro sheet _
    refine (Scan.Clear.of_not_mem (less_not_mem_attributeText sheet.1) _).append ?_
    simp only [flatten_cons, flatten_nil, append_nil]
    refine (by decide : Scan.Clear nameMark ['"']).append ?_
    exact (by decide : Scan.Clear nameMark " sheetId=\"".toList).append ((hclear _).append
      ((by decide : Scan.Clear nameMark "\" r:id=\"rId".toList).append
        ((hclear _).append (by decide))))
  · intro sheet _ u _
    have hquote : Scan.Clear ['"'] (attributeText sheet.1) :=
      Scan.Clear.of_not_mem (quote_not_mem_attributeText sheet.1) []
    rw [bookEntry, append_assoc]
    exact Scan.before_clear (by decide) hquote _

/-! ## Parts -/

theorem sheetPath_injective : Function.Injective sheetPath := fun _ _ h ↦
  Canonical.decimal_injective (append_cancel_right (append_cancel_left h))

theorem find?_of_nodup {entries : List Entry} {e : Entry} (h : (entries.map Prod.fst).Nodup)
    (he : e ∈ entries) : (entries.find? fun other ↦ other.1 = e.1) = some e := by
  induction entries with
  | nil => cases he
  | cons other entries ih =>
    rw [map_cons, nodup_cons] at h
    rcases mem_cons.1 he with rfl | he
    · exact find?_cons_of_pos (decide_eq_true rfl)
    · have hne : other.1 ≠ e.1 := fun heq ↦ h.1 (heq ▸ mem_map_of_mem he)
      rw [find?_cons_of_neg (by rw [decide_eq_true_eq]; exact hne), ih h.2 he]

/-- No two parts of a workbook have one name. -/
theorem nodup_bookEntries (names : List Str) (sheets : List Sheet) :
    ((bookEntries names sheets).map Prod.fst).Nodup := by
  have hpath : ∀ n, (sheetPath n).take 8 = "xl/works".toList := fun n ↦ rfl
  let fixed := ["[Content_Types].xml".toList, "_rels/.rels".toList, bookPath,
    "xl/_rels/workbook.xml.rels".toList]
  rw [bookEntries, map_append, map_map, nodup_append']
  refine ⟨(by decide : fixed.Nodup), ?_, ?_⟩
  · have hzip : sheets.zipIdx.Nodup := by
      refine List.Nodup.of_map Prod.snd ?_
      rw [zipIdx_map_snd]
      exact nodup_range'
    refine hzip.map_on fun a ha b hb hab ↦ ?_
    have hindex : a.2 = b.2 := Nat.succ_injective (sheetPath_injective hab)
    have hsame := (mem_zipIdx_iff_getElem?.1 ha).symm.trans
      ((congrArg (sheets[·]?) hindex).trans (mem_zipIdx_iff_getElem?.1 hb))
    exact Prod.ext (Option.some.inj hsame) hindex
  · intro name hname hsheet
    obtain ⟨sheet, -, rfl⟩ := mem_map.1 hsheet
    have hnone : ∀ name ∈ fixed, name.take 8 ≠ "xl/works".toList := by decide
    exact hnone _ hname (hpath _)

variable {L} {sheets : List Sheet} {bytes : List UInt8}

/-- A part is read back as the text it was stored as. -/
theorem part_of_mem {entries : List Entry} {name text : Str} (h : storedZip entries = some bytes)
    (hnodup : (entries.map Prod.fst).Nodup) (hmem : (name, bytesOf text) ∈ entries) :
    part bytes name = some text := by
  rw [part, unzip_storedZip h, Option.bind_some, find?_of_nodup hnodup hmem, Option.bind_some,
    fromUtf8_bytesOf]

theorem part_book {names : List Str} (h : storedZip (bookEntries names sheets) = some bytes) :
    part bytes bookPath = some (book names) :=
  part_of_mem h (nodup_bookEntries names sheets) (by
    rw [bookEntries]
    exact mem_append_left _ (by simp only [mem_cons, true_or, or_true]))

theorem part_sheet {names : List Str} {i : ℕ} {sheet : Sheet}
    (h : storedZip (bookEntries names sheets) = some bytes) (hi : sheets[i]? = some sheet) :
    part bytes (sheetPath (i + 1)) = some (worksheet sheet.rows) := by
  refine part_of_mem h (nodup_bookEntries names sheets) ?_
  rw [bookEntries]
  refine mem_append_right _ (mem_map.2 ⟨(sheet, i), ?_, rfl⟩)
  exact mem_zipIdx_iff_getElem?.2 hi

/-! ## Whole workbooks -/

/-- **What a workbook is for**: every sheet's cells are read back as the pieces of the sheet's
values, the first piece of each value and then those that are left over; the pieces of a value fit
in a cell and are the value; and the sheets have names that Excel accepts. -/
structure Whole (L : Lowercase) (sheets : List Sheet) (bytes : List UInt8) : Prop where
  cells : ∀ (i : ℕ) (sheet : Sheet), (written sheets)[i]? = some sheet →
    ∃ xml, part bytes (sheetPath (i + 1)) = some xml ∧
      cells xml = some (sheet.rows.map filled)
  pieces : ∀ sheet ∈ sheets, ∀ row ∈ sheet.rows, ∀ value ∈ row,
    pieces value ≠ [] ∧ (pieces value).flatten = value ∧
      ∀ p ∈ pieces value, units p ≤ maxCellUnits
  names : ∃ xml raw, part bytes bookPath = some xml ∧ readNames xml = some raw ∧
    raw.length = (written sheets).length ∧
    (∀ name ∈ raw.map readAttribute, Accepted name) ∧
    ((raw.map readAttribute).map L.lower).Nodup

theorem forall_written {P : Sheet → Prop} (h : ∀ name, P ⟨name, []⟩) :
    (∀ sheet ∈ written sheets, P sheet) ↔ ∀ sheet ∈ sheets, P sheet := by
  rw [written]
  split
  · rename_i hempty
    rw [isEmpty_iff.1 hempty]
    exact ⟨fun _ _ hsheet ↦ absurd hsheet not_mem_nil,
      fun _ sheet hsheet ↦ mem_singleton.1 hsheet ▸ h _⟩
  · rfl

/-- The names in a workbook are accepted, and different in lower case. -/
theorem names_workbook (h : workbook L sheets = some bytes) :
    ∃ xml raw, part bytes bookPath = some xml ∧ readNames xml = some raw ∧
      raw.length = (written sheets).length ∧ (∀ name ∈ raw.map readAttribute, Accepted name) ∧
      ((raw.map readAttribute).map L.lower).Nodup := by
  obtain ⟨names, hnames, hzip⟩ := Option.bind_eq_some_iff.1 h
  have hcount : (written sheets).length < 10 ^ 8 := by
    have hlimits : WithinLimits (bookEntries names (written sheets)) := by
      rw [storedZip] at hzip
      split at hzip
      · assumption
      · cases hzip
    have hlength := hlimits.count
    rw [bookEntries, length_append, length_map, length_zipIdx] at hlength
    omega
  obtain ⟨hlength, haccepted, hnodup, -⟩ := sheetNames_spec
    (by rw [length_nil, length_map]; omega) hnames
  have hback : (names.map attributeText).map readAttribute = names := by
    rw [map_map]
    exact (map_congr_left fun name _ ↦ readAttribute_attributeText name).trans
      (map_id names)
  refine ⟨book names, names.map attributeText, part_book hzip, readNames_book names, ?_, ?_, ?_⟩
  · rw [length_map, hlength, length_map]
  · rwa [hback]
  · rwa [hback]

/-- The cells of a workbook's sheets, as the reader reads what is written for them. -/
theorem cells_workbook_iff (h : workbook L sheets = some bytes) :
    (∀ (i : ℕ) (sheet : Sheet), (written sheets)[i]? = some sheet →
      ∃ xml, part bytes (sheetPath (i + 1)) = some xml ∧
        cells xml = some (sheet.rows.map filled)) ↔
      ∀ sheet ∈ sheets, ∀ row ∈ sheet.rows, ∀ value ∈ row, ∀ p ∈ pieces value, Unspoiled p := by
  obtain ⟨names, -, hzip⟩ := Option.bind_eq_some_iff.1 h
  have hempty : ∀ name, ∀ row ∈ (⟨name, []⟩ : Sheet).rows, ∀ value ∈ row,
      ∀ p ∈ pieces value, Unspoiled p := fun _ row hrow ↦ absurd hrow not_mem_nil
  rw [← forall_written hempty]
  constructor
  · intro hread sheet hsheet
    obtain ⟨i, hi⟩ := mem_iff_getElem?.1 hsheet
    obtain ⟨xml, hpart, hcells⟩ := hread i sheet hi
    rw [part_sheet hzip hi, Option.some.injEq] at hpart
    rw [← hpart] at hcells
    exact (cells_worksheet_iff sheet.rows).1 hcells
  · intro hwhole i sheet hi
    exact ⟨_, part_sheet hzip hi,
      (cells_worksheet_iff sheet.rows).2 (hwhole sheet (mem_of_getElem? hi))⟩

/-- **A workbook keeps every value whole if and only if no piece of a value spoils how it is
read**: nowhere in a piece does a character that is written as an escape stand right behind `_x`
and four hexadecimal digits. -/
theorem whole_iff (h : workbook L sheets = some bytes) :
    Whole L sheets bytes ↔
      ∀ sheet ∈ sheets, ∀ row ∈ sheet.rows, ∀ value ∈ row, ∀ p ∈ pieces value, Unspoiled p := by
  rw [← cells_workbook_iff h]
  refine ⟨Whole.cells, fun hcells ↦ ⟨hcells, fun _ _ _ _ value _ ↦ ?_, names_workbook h⟩⟩
  exact ⟨pieces_ne_nil value, flatten_pieces value, fun p hp ↦ units_le_of_mem_pieces hp⟩

/-- One sheet with the rows. -/
def dataSheet (rows : List (List Str)) : Sheet := ⟨"Data".toList, rows⟩

/-- There is a workbook of a sheet that is not large. -/
theorem exists_workbook {rows : List (List Str)} (h : (bytesOf (worksheet rows)).length ≤ 10 ^ 6) :
    ∃ bytes, workbook .ascii [dataSheet rows] = some bytes := by
  have hnames : sheetNames .ascii [] ["Data".toList] = some ["Data".toList] := by decide +kernel
  have hfixed : ∀ e ∈ (bookEntries ["Data".toList] [dataSheet []]).take 4,
      (bytesOf e.1).length ≤ 100 ∧ e.2.length ≤ 10 ^ 6 := by decide +kernel
  have hlimits : WithinLimits (bookEntries ["Data".toList] [⟨"Data".toList, rows⟩]) := by
    refine withinLimits_of_small (show 5 ≤ 10 by decide) fun e he ↦ ?_
    have hsplit : bookEntries ["Data".toList] [⟨"Data".toList, rows⟩] =
        (bookEntries ["Data".toList] [dataSheet []]).take 4 ++
          [(sheetPath 1, bytesOf (worksheet rows))] := rfl
    rw [hsplit, mem_append, mem_singleton] at he
    rcases he with he | rfl
    · exact hfixed e he
    · exact ⟨(by decide +kernel : (bytesOf (sheetPath 1)).length ≤ 100), h⟩
  have hwritten : written [dataSheet rows] = [dataSheet rows] := rfl
  rw [workbook, hwritten, map_singleton, dataSheet, hnames, Option.bind_some, storedZip,
    if_pos hlimits]
  exact ⟨_, rfl⟩

/-- A value with markup, a line end and the shape of an escape. -/
def sampleRows : List (List Str) := [["Data".toList, "<b>&\r\n_x0041_".toList]]

theorem whole_sampleRows : ∃ bytes, workbook .ascii [dataSheet sampleRows] = some bytes ∧
    Whole .ascii [dataSheet sampleRows] bytes := by
  obtain ⟨bytes, hbytes⟩ := exists_workbook (by decide +kernel : (bytesOf
    (worksheet sampleRows)).length ≤ 10 ^ 6)
  exact ⟨bytes, hbytes, (whole_iff hbytes).2 (by decide +kernel)⟩

/-- A value that begins like an escape, with a bell where an escape would end. -/
def bellRows : List (List Str) := [["_x000D\u0007".toList]]

/-- The value is written `_x000D_x0007_`, which is read as a carriage return and `x0007_`. -/
theorem not_whole_bellRows : ∃ bytes, workbook .ascii [dataSheet bellRows] = some bytes ∧
    ¬ Whole .ascii [dataSheet bellRows] bytes := by
  obtain ⟨bytes, hbytes⟩ := exists_workbook (by decide +kernel : (bytesOf
    (worksheet bellRows)).length ≤ 10 ^ 6)
  obtain ⟨names, -, hzip⟩ := Option.bind_eq_some_iff.1 hbytes
  refine ⟨bytes, hbytes, fun hwhole ↦ ?_⟩
  obtain ⟨xml, hpart, hcells⟩ := hwhole.cells 0 (dataSheet bellRows) rfl
  rw [part_sheet hzip rfl, Option.some.injEq] at hpart
  rw [← hpart] at hcells
  have hread : cells (worksheet bellRows) = some [["\rx0007_".toList]] := by decide +kernel
  have hsame : some [["\rx0007_".toList]] = some (bellRows.map filled) := hread.symm.trans hcells
  exact absurd hsame (by decide +kernel)

end Huntsman.Xlsx
