import Huntsman.Canonical.Forms
import Huntsman.Xlsx.Cells

/-!
# One sheet's XML

`worksheet` writes the rows of a sheet: of each row first the cells for the first piece of every
value, and then cells for the pieces that are left over.  `cells` is how the texts of the cells are
read back: the XML is split at the marks of a row and of a cell's text, and what stands before the
mark that closes the text is decoded.

What is written for a text has no `<`, so that the marks are found where they were written and the
reader gets the text of each cell (`cells_worksheet`).
-/

set_option autoImplicit false

namespace Huntsman.Xlsx

open List

open Canonical (decimal)

/-- `A`, `B`, ... `Z`, `AA`, ... for a zero-based column. -/
def column (index : ℕ) : Str :=
  if index < 26 then [Char.ofNat (65 + index % 26)]
  else column (index / 26 - 1) ++ [Char.ofNat (65 + index % 26)]
termination_by index

/-- The pieces of a row's values that the row's own cells do not hold. -/
def overflow (row : List Str) : List Str := row.flatMap fun value ↦ (pieces value).tail

/-- The texts of a row's cells. -/
def filled (row : List Str) : List Str :=
  row.map (fun value ↦ (pieces value).headD []) ++ overflow row

/-- The texts of a row's cells with the columns they are in. -/
def placed (row : List Str) : List (ℕ × Str) :=
  row.zipIdx.map (fun value ↦ (value.2, (pieces value.1).headD [])) ++
    (overflow row).zipIdx.map fun value ↦ (row.length + value.2, value.1)

def rowMark : Str := "<row ".toList

def textMark : Str := "<t xml:space=\"preserve\">".toList

def closeMark : Str := "</t>".toList

/-- What stands before the text of a cell. -/
def cellHead (number index : ℕ) : Str :=
  "<c r=\"".toList ++ (column index ++ (decimal number ++ "\" t=\"inlineStr\"><is>".toList))

/-- A cell from its text on. -/
def cellBody (text : Str) : Str := cellText text ++ (closeMark ++ "</is></c>".toList)

/-- A row behind its mark. -/
def rowBody (number : ℕ) (row : List Str) : Str :=
  "r=\"".toList ++ (decimal number ++ ("\">".toList ++
    ((placed row).flatMap (fun cell ↦ cellHead number cell.1 ++ (textMark ++ cellBody cell.2)) ++
      "</row>".toList)))

/-- What stands before the rows. -/
def sheetHead : Str :=
  List.flatten ["<?xml version=\"1.0\"".toList, " encoding=\"UTF-8\" standalone=\"yes\"?>\n".toList,
    "<worksheet xmlns=\"".toList, "http://schemas.openxmlformats.org/".toList,
    "spreadsheetml/2006/main\">".toList, "<sheetData>".toList]

def worksheet (rows : List (List Str)) : Str :=
  sheetHead ++ (rows.zipIdx.flatMap (fun row ↦ rowMark ++ rowBody (row.2 + 1) row.1) ++
    "</sheetData></worksheet>".toList)

/-- The text of each cell of a sheet, row by row, as a spreadsheet reads it. -/
def cells (sheetXml : Str) : Option (List (List Str)) :=
  ((Text.splitAux rowMark 0 [] sheetXml).drop 1).mapM fun row ↦
    ((Text.splitAux textMark 0 [] row).drop 1).mapM fun cell ↦
      (Scan.before closeMark cell).bind decode

/-! ## Splitting what was written part by part -/

variable {β γ : Type} {sep s t : Str}

theorem splitAux_clear (h : Scan.Clear sep s) (piece rest : Str) :
    Text.splitAux sep 0 piece (s ++ rest) = Text.splitAux sep 0 (s.reverse ++ piece) rest := by
  induction s generalizing piece with
  | nil => rfl
  | cons c s ih =>
    have hnot : ¬ sep.isPrefixOf (c :: (s ++ rest)) = true := fun hbegins ↦
      h.not_prefix rest (List.isPrefixOf_iff_prefix.1 hbegins)
    rw [cons_append, Text.splitAux, if_neg hnot, ih h.2, reverse_cons,
      append_assoc]
    rfl

theorem splitAux_skip (s piece rest : Str) :
    Text.splitAux sep s.length piece (s ++ rest) = Text.splitAux sep 0 piece rest := by
  induction s with
  | nil => rfl
  | cons c s ih => exact ih

theorem splitAux_found (hsep : sep ≠ []) (piece rest : Str) :
    Text.splitAux sep 0 piece (sep ++ rest) = piece.reverse :: Text.splitAux sep 0 [] rest := by
  obtain ⟨c, sep, rfl⟩ := exists_cons_of_ne_nil hsep
  have hbegins : (c :: sep).isPrefixOf (c :: (sep ++ rest)) = true :=
    isPrefixOf_iff_prefix.2 (prefix_append (c :: sep) rest)
  rw [cons_append, Text.splitAux, if_pos hbegins]
  exact congrArg (piece.reverse :: ·) (splitAux_skip sep [] rest)

/-- A text without a separator ends the piece it is in. -/
theorem splitAux_last (ht : Scan.Clear sep t) (piece : Str) :
    Text.splitAux sep 0 piece t = [piece.reverse ++ t] := by
  have hsplit := splitAux_clear ht piece []
  rw [append_nil] at hsplit
  rw [hsplit, Text.splitAux, reverse_append, reverse_reverse]

/-- Parts that each have one separator are read one by one, each from behind its separator.  What
is read of a part does not depend on what stands before the next separator. -/
theorem mapM_splitAux (hsep : sep ≠ []) {head body : β → Str} {read : Str → Option γ}
    {value : β → Option γ} {l : List β} (hs : Scan.Clear sep s) (ht : Scan.Clear sep t)
    (hhead : ∀ b ∈ l, Scan.Clear sep (head b)) (hbody : ∀ b ∈ l, Scan.Clear sep (body b))
    (hread : ∀ b ∈ l, ∀ u ∈ t :: l.map head, read (body b ++ u) = value b) :
    ((Text.splitAux sep 0 [] (s ++ (l.flatMap (fun b ↦ head b ++ (sep ++ body b)) ++ t))).drop
      1).mapM read = l.mapM value := by
  have hnext : ∀ b ∈ l, ∀ piece rest, Text.splitAux sep 0 piece (head b ++ (sep ++ body b) ++ rest)
      = (piece.reverse ++ head b) :: Text.splitAux sep 0 (body b).reverse rest := by
    intro b hb piece rest
    rw [append_assoc, splitAux_clear (hhead b hb), append_assoc, splitAux_found hsep,
      reverse_append, reverse_reverse, splitAux_clear (hbody b hb), append_nil]
  -- from within the part `b`, the parts that follow are those of `more`
  have hrest : ∀ more ⊆ l, ∀ b ∈ l, (Text.splitAux sep 0 (body b).reverse
      (more.flatMap (fun b ↦ head b ++ (sep ++ body b)) ++ t)).mapM read =
        (b :: more).mapM value := by
    intro more
    induction more with
    | nil =>
      intro _ b hb
      rw [flatMap_nil, nil_append, splitAux_last ht, reverse_reverse,
        mapM_cons, mapM_nil, hread b hb t (.head _)]
      rfl
    | cons next more ih =>
      intro hmore b hb
      have hin : next ∈ l := hmore (.head _)
      have hhead' : head next ∈ t :: l.map head :=
        mem_cons_of_mem t (mem_map_of_mem hin)
      rw [flatMap_cons, append_assoc, hnext next hin, reverse_reverse,
        mapM_cons, hread b hb _ hhead',
        ih (List.Subset.trans (subset_cons_self next more) hmore) next hin, ← mapM_cons]
  rw [splitAux_clear hs, append_nil]
  rcases l with _ | ⟨b, l⟩
  · rw [flatMap_nil, nil_append, splitAux_last ht]
    rfl
  · rw [flatMap_cons, append_assoc, hnext b (.head _), drop_succ_cons,
      drop_zero]
    exact hrest l (subset_cons_self b l) b (.head _)

/-! ## What the reader gets -/

theorem less_not_mem_reference (c : Char) : '<' ∉ reference c := by
  rw [reference]
  split_ifs with hamp hless
  · decide
  · decide
  · decide
  · intro hmem
    exact hless (mem_singleton.1 hmem).symm

/-- The text of a cell has no markup of its own. -/
theorem less_not_mem_cellText (text : Str) : '<' ∉ cellText text := by
  rw [cellText_eq]
  intro hmem
  obtain ⟨c, -, hc⟩ := mem_flatMap.1 hmem
  exact less_not_mem_reference c hc

theorem less_not_mem_decimal (n : ℕ) : '<' ∉ decimal n := fun hmem ↦
  absurd (Nat.isDigit_of_mem_toDigits (by decide) (by decide) hmem) (by decide)

theorem less_not_mem_column (index : ℕ) : '<' ∉ column index := by
  have hletter : ∀ n < 26, Char.ofNat (65 + n) ≠ '<' := by decide
  induction index using Nat.strongRecOn with
  | ind index ih =>
    have hlast : '<' ∉ [Char.ofNat (65 + index % 26)] := fun hmem ↦
      hletter _ (Nat.mod_lt _ (by decide)) (mem_singleton.1 hmem).symm
    rw [column]
    split
    · exact hlast
    · rw [mem_append, not_or]
      exact ⟨ih _ (by omega), hlast⟩

/-- The head of a cell and what it has of numbers begin no mark `<...` that its own words do
not. -/
theorem clear_cellHead {w : Str} (hopen : Scan.Clear ('<' :: w) "<c r=\"".toList)
    (htype : Scan.Clear ('<' :: w) "\" t=\"inlineStr\"><is>".toList) (number index : ℕ) :
    Scan.Clear ('<' :: w) (cellHead number index) :=
  hopen.append ((Scan.Clear.of_not_mem (less_not_mem_column index) w).append
    ((Scan.Clear.of_not_mem (less_not_mem_decimal number) w).append htype))

theorem clear_cellBody {w : Str} (hclose : Scan.Clear ('<' :: w) (closeMark ++ "</is></c>".toList))
    (text : Str) : Scan.Clear ('<' :: w) (cellBody text) :=
  (Scan.Clear.of_not_mem (less_not_mem_cellText text) w).append hclose

/-- A cell's text is read whatever stands behind the cell. -/
theorem read_cellBody (text u : Str) :
    (Scan.before closeMark (cellBody text ++ u)).bind decode = decode (cellText text) := by
  have hclear : Scan.Clear closeMark (cellText text) :=
    Scan.Clear.of_not_mem (less_not_mem_cellText text) _
  rw [cellBody, append_assoc, append_assoc, Scan.before_clear (by decide) hclear]
  rfl

theorem map_zipIdx (l : List β) (f : β → γ) : l.zipIdx.map (fun b ↦ f b.1) = l.map f := by
  conv_rhs => rw [← zipIdx_map_fst 0 l, map_map]
  rfl

theorem placed_map_snd (row : List Str) : (placed row).map Prod.snd = filled row := by
  rw [placed, filled, map_append, map_map, map_map]
  have hoverflow := map_zipIdx (overflow row) id
  rw [map_id] at hoverflow
  exact congrArg₂ (· ++ ·) (map_zipIdx row fun value ↦ (pieces value).headD []) hoverflow

/-- The texts of a row are read one by one. -/
theorem mapM_rowBody (number : ℕ) (row : List Str) {u : Str} (hu : Scan.Clear textMark u) :
    ((Text.splitAux textMark 0 [] (rowBody number row ++ u)).drop 1).mapM
        (fun cell ↦ (Scan.before closeMark cell).bind decode) =
      (filled row).mapM fun text ↦ decode (cellText text) := by
  have hsplit : rowBody number row ++ u = "r=\"".toList ++ (decimal number ++ "\">".toList) ++
      ((placed row).flatMap (fun cell ↦ cellHead number cell.1 ++ (textMark ++ cellBody cell.2)) ++
        ("</row>".toList ++ u)) := by
    simp only [rowBody, append_assoc]
  rw [hsplit, mapM_splitAux (by decide)]
  · rw [← placed_map_snd, mapM_map]
  · exact (by decide : Scan.Clear textMark "r=\"".toList).append
      ((Scan.Clear.of_not_mem (less_not_mem_decimal number) _).append (by decide))
  · exact (by decide : Scan.Clear textMark "</row>".toList).append hu
  · exact fun cell _ ↦ clear_cellHead (by decide) (by decide) number cell.1
  · exact fun cell _ ↦ clear_cellBody (by decide) cell.2
  · exact fun cell _ v _ ↦ read_cellBody cell.2 v

theorem clear_rowBody (number : ℕ) (row : List Str) : Scan.Clear rowMark (rowBody number row) := by
  refine (by decide : Scan.Clear rowMark "r=\"".toList).append
    ((Scan.Clear.of_not_mem (less_not_mem_decimal number) _).append
      ((by decide : Scan.Clear rowMark "\">".toList).append (Scan.Clear.append ?_ (by decide))))
  refine Scan.Clear.flatMap fun cell _ ↦ (clear_cellHead (by decide) (by decide) _ _).append ?_
  exact (by decide : Scan.Clear rowMark textMark).append (clear_cellBody (by decide) cell.2)

/-- **The reader gets the text of every cell of every row**, as it reads what is written for it. -/
theorem cells_worksheet (rows : List (List Str)) :
    cells (worksheet rows) =
      rows.mapM fun row ↦ (filled row).mapM fun text ↦ decode (cellText text) := by
  have hsplit : worksheet rows = sheetHead ++ (rows.zipIdx.flatMap (fun row ↦ [] ++
      (rowMark ++ rowBody (row.2 + 1) row.1)) ++ "</sheetData></worksheet>".toList) := rfl
  rw [cells, hsplit, mapM_splitAux (by decide)]
  · conv_rhs => rw [← zipIdx_map_fst 0 rows, mapM_map]
  · decide +kernel
  · decide
  · exact fun row _ ↦ trivial
  · exact fun row _ ↦ clear_rowBody (row.2 + 1) row.1
  · intro row _ u hu
    refine mapM_rowBody (row.2 + 1) row.1 ?_
    rcases mem_cons.1 hu with rfl | hu
    · decide
    · obtain ⟨_, -, rfl⟩ := mem_map.1 hu
      trivial

/-! ## Sheets that are read back whole -/

theorem mapM_eq_some_map {f : β → Option γ} {g : β → γ} {l : List β} :
    l.mapM f = some (l.map g) ↔ ∀ b ∈ l, f b = some (g b) := by
  induction l with
  | nil => exact ⟨fun _ b hb ↦ absurd hb not_mem_nil, fun _ ↦ rfl⟩
  | cons b l ih =>
    rw [mapM_cons, map_cons, forall_mem_cons, ← ih]
    constructor
    · intro h
      obtain ⟨c, hc, h⟩ := Option.bind_eq_some_iff.1 h
      obtain ⟨more, hmore, h⟩ := Option.bind_eq_some_iff.1 h
      cases h
      exact ⟨hc, hmore⟩
    · rintro ⟨hb, hl⟩
      rw [hb, hl]
      rfl

theorem mem_filled {row : List Str} {p : Str} :
    p ∈ filled row ↔ ∃ value ∈ row, p ∈ pieces value := by
  rw [filled, overflow, mem_append, mem_map, mem_flatMap]
  constructor
  · rintro (⟨value, hvalue, rfl⟩ | ⟨value, hvalue, hp⟩)
    · refine ⟨value, hvalue, ?_⟩
      rw [headD_eq_head?_getD, head?_eq_some_head (pieces_ne_nil value)]
      exact head_mem (pieces_ne_nil value)
    · exact ⟨value, hvalue, mem_of_mem_tail hp⟩
  · rintro ⟨value, hvalue, hp⟩
    obtain ⟨first, rest, hpieces⟩ := exists_cons_of_ne_nil (pieces_ne_nil value)
    rw [hpieces, mem_cons] at hp
    rcases hp with rfl | hp
    · exact .inl ⟨value, hvalue, by rw [hpieces]; rfl⟩
    · exact .inr ⟨value, hvalue, by rw [hpieces]; exact hp⟩

/-- **A sheet's cells are read back as the pieces of its values if and only if no piece spoils how
it is read.** -/
theorem cells_worksheet_iff (rows : List (List Str)) :
    cells (worksheet rows) = some (rows.map filled) ↔
      ∀ row ∈ rows, ∀ value ∈ row, ∀ p ∈ pieces value, Unspoiled p := by
  have hrow : ∀ row : List Str, ((filled row).mapM fun text ↦ decode (cellText text)) =
      some (filled row) ↔ ∀ value ∈ row, ∀ p ∈ pieces value, Unspoiled p := by
    intro row
    have hself := mapM_eq_some_map (f := fun text ↦ decode (cellText text)) (g := id)
      (l := filled row)
    rw [map_id] at hself
    rw [hself]
    simp only [mem_filled, id_eq, decode_cellText_iff]
    constructor
    · exact fun h value hvalue p hp ↦ h p ⟨value, hvalue, hp⟩
    · rintro h p ⟨value, hvalue, hp⟩
      exact h value hvalue p hp
  rw [cells_worksheet, mapM_eq_some_map]
  exact forall₂_congr fun row _ ↦ hrow row

end Huntsman.Xlsx
