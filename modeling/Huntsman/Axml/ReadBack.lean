import Huntsman.Axml.Bounds

/-!
# What is written is read

The reader gives back what a document says, unless the document's pool is too large for it
(`compiled_read_back`).  A tree within the limits on elements and attributes can need such a pool:
`manyDoc` has more attributes, each of a name of its own, than a pool may have strings.
-/

set_option autoImplicit false

namespace Huntsman.Axml

open Bytes List

/-- **Reading undoes writing**, and on any bytes no reader leaves its bounds. -/
theorem compiled_read_back {doc : Doc} (hfits : doc.Fits) (data : List UInt8) :
    (doc.pool.strings.length ≤ maxStrings → xmlNodes doc.bytes = .ok doc.nodes) ∧
      (maxStrings < doc.pool.strings.length →
        xmlNodes doc.bytes = .error (.refused "string pool holds over 65536 strings")) ∧
      xmlNodes data ≠ .error .outOfBounds ∧ manifest data ≠ .error .outOfBounds := by
  refine ⟨hfits.xmlNodes_bytes, fun hcount ↦ ?_, xmlNodes_avoids data, manifest_avoids data⟩
  exact hfits.xmlNodes_over hcount

/-- An application with a name, a text and an unknown chunk in it. -/
def sampleDoc : Doc where
  extra := []
  before := []
  pool := ⟨["manifest", "n", "application", "A", "hi"], 0x100, [0, 0, 0, 0], [0, 0, 0, 0], [], []⟩
  between := []
  idMap := some ⟨[], [0, 0x01010003]⟩
  middle := []
  head := ⟨[], noIndex, 0, [0, 0, 0, 0, 0, 0], [], [], []⟩
  contents :=
    [.element ⟨[], noIndex, 2, [0, 0, 0, 0, 0, 0], [], [⟨noIndex, 1, .string 3⟩], []⟩
      [.other ⟨0x0100, [], [7]⟩, .text ⟨[], 4, []⟩, .text ⟨[], 3, []⟩]]
  after := []

theorem sampleDoc_fits : sampleDoc.Fits where
  size := by decide +kernel
  header := by decide
  unknown := by simp [sampleDoc]
  pool := ⟨rfl, by decide, by decide +kernel⟩
  idMap := by decide +kernel
  root := by
    simp only [sampleDoc, Doc.root, Tree.Fits, Tree.FitsAll]
    refine ⟨⟨by decide, by decide, by decide, by decide, by decide, forall_mem_nil _⟩, by decide,
      by decide, ?_⟩
    refine ⟨⟨⟨by decide, by decide, by decide, by decide, by decide, ?_⟩, by decide, ?_, ?_⟩, trivial⟩
    · simp only [mem_singleton, forall_eq, Value.Fits]
      decide
    · decide
    · exact ⟨⟨⟨by decide, by decide⟩, by decide⟩, ⟨by decide, by decide⟩, ⟨by decide, by decide⟩,
        trivial⟩
  depth := by decide
  count := by decide

theorem compiled_read_back_sample : xmlNodes sampleDoc.bytes = .ok
    [⟨"manifest", none, [], ""⟩, ⟨"application", some 0, [("name", "A")], "hiA"⟩] :=
  (compiled_read_back sampleDoc_fits []).1 (by decide)

/-! ## A pool that is too large -/

theorem length_flatMap_le {α β : Type} {f : α → List β} {l : List α} {n : ℕ}
    (h : ∀ a ∈ l, (f a).length ≤ n) : (l.flatMap f).length ≤ l.length * n := by
  induction l with
  | nil => exact Nat.zero_le _
  | cons a l ih =>
    have ha := h a (.head _)
    have hl := ih fun b hb ↦ h b (.tail _ hb)
    rw [flatMap_cons, length_append, length_cons, Nat.succ_mul]
    omega

namespace Tree

variable {strings : List String} {ts : List Tree}

theorem piecesAll_eq (ts : List Tree) : piecesAll ts = ts.flatMap pieces := by
  induction ts with
  | nil => rfl
  | cons t ts ih => rw [piecesAll, flatMap_cons, ih]

theorem fitsAll_of (h : ∀ t ∈ ts, t.Fits strings) : FitsAll strings ts := by
  induction ts with
  | nil => trivial
  | cons t ts ih =>
    exact ⟨h t (.head _), ih fun u hu ↦ h u (.tail _ hu)⟩

theorem countAll_le {n : ℕ} (h : ∀ t ∈ ts, t.count ≤ n) : countAll ts ≤ ts.length * n := by
  induction ts with
  | nil => exact Nat.zero_le _
  | cons t ts ih =>
    have ht := h t (.head _)
    have hts := ih fun u hu ↦ h u (.tail _ hu)
    rw [countAll, length_cons, Nat.succ_mul]
    omega

theorem depthAll_le {n : ℕ} (h : ∀ t ∈ ts, t.depth ≤ n) : depthAll ts ≤ n := by
  induction ts with
  | nil => exact Nat.zero_le _
  | cons t ts ih =>
    have ht := h t (.head _)
    have hts := ih fun u hu ↦ h u (.tail _ hu)
    rw [depthAll]
    exact max_le ht hts

theorem ownText_of (h : ∀ t ∈ ts, ∃ head contents, t = element head contents) :
    ownText strings ts = "" := by
  induction ts with
  | nil => rfl
  | cons t ts ih =>
    obtain ⟨head, contents, rfl⟩ := h t (.head _)
    exact ih fun u hu ↦ h u (.tail _ hu)

end Tree

/-- The `k`th of the elements, with 256 attributes that have names of their own. -/
def manyHead (k : ℕ) : Head :=
  ⟨[], noIndex, k, [0, 0, 0, 0, 0, 0], [],
    (List.range 256).map fun i ↦ ⟨noIndex, 256 * k + i, .boolean 1⟩, []⟩

/-- A string for each of `n` names, one character long. -/
def manyStrings (n : ℕ) : List String :=
  (List.range n).map fun i ↦ String.singleton (Char.ofNat (0x10000 + i))

def manyPool (n : ℕ) : Pool := ⟨manyStrings n, 0, [0, 0, 0, 0], [0, 0, 0, 0], [], []⟩

def manyRoot : Head := ⟨[], noIndex, 0, [0, 0, 0, 0, 0, 0], [], [], []⟩

/-- An element with `m` others in it, which have 256 names each. -/
def manyDoc (m : ℕ) : Doc where
  extra := []
  before := []
  pool := manyPool (256 * m)
  between := []
  idMap := none
  middle := []
  head := manyRoot
  contents := (List.range m).map fun k ↦ .element (manyHead k) []
  after := []

theorem length_manyStrings (n : ℕ) : (manyStrings n).length = n := by
  rw [manyStrings, length_map, length_range]

theorem length_utf16Char (c : Char) : (utf16Char c).length ≤ 2 := by
  rw [utf16Char]
  split <;> simp

theorem utf16_singleton (c : Char) : utf16 (String.singleton c) = utf16Char c := by
  rw [utf16, String.toList_singleton, flatMap_singleton]

theorem length_singletonBytes (c : Char) : (stringBytes false (String.singleton c)).length ≤ 8 := by
  have hlength := length_utf16Char c
  have hwords : ((utf16Char c).flatMap fun u ↦ le16Bytes u.toNat).length ≤ (utf16Char c).length * 2 :=
    length_flatMap_le fun u _ ↦ le_refl _
  have hsmall : (utf16Char c).length < 0x8000 := by omega
  rw [stringBytes, if_neg Bool.false_ne_true, utf16_singleton, utf16Prefix, if_pos hsmall]
  simp only [length_append, length_le16Bytes, length_cons, length_nil]
  omega

section Many

variable {m : ℕ}

theorem length_manyPool : (manyDoc m).pool.strings.length = 256 * m := length_manyStrings _

theorem manyPool_utf8 (n : ℕ) : (manyPool n).utf8 = false :=
  show (0 : UInt32).toNat.testBit 8 = false by decide

theorem manyPool_texts (n : ℕ) : (manyPool n).texts.flatten.length ≤ n * 8 := by
  have hle := length_flatMap_le (l := List.range n) fun i _ ↦
    length_singletonBytes (Char.ofNat (0x10000 + i))
  rw [List.length_range] at hle
  rw [Pool.texts, manyPool_utf8, ← List.flatMap_def]
  exact (congrArg List.length (List.flatMap_map _ _ _)).trans_le hle

theorem manyPool_size (n : ℕ) : (manyPool n).piece.size ≤ 28 + 12 * n := by
  have htexts := manyPool_texts n
  have hheader : (manyPool n).headerSize = 28 := rfl
  have hlength : (manyPool n).strings.length = n := length_manyStrings n
  have hgap : (manyPool n).gap.length = 0 := rfl
  have htail : (manyPool n).tail.length = 0 := rfl
  rw [Pool.size_piece, Pool.header_piece]
  omega

theorem manyPool_fits (n : ℕ) : (manyPool n).Fits := by
  refine ⟨rfl, (by decide : 28 < 2 ^ 16), fun s hs ↦ ?_⟩
  obtain ⟨i, -, rfl⟩ := mem_map.1 hs
  have hlength := length_utf16Char (Char.ofNat (0x10000 + i))
  rw [manyPool_utf8, StringFits, if_neg Bool.false_ne_true, utf16_singleton]
  omega

theorem length_bytes_element (head : Head) : ((Tree.element head []).pieces.flatMap Piece.bytes).length =
    head.startPiece.size + head.endPiece.size := by
  rw [Tree.pieces, Tree.piecesAll]
  simp only [nil_append, flatMap_cons, flatMap_nil, length_append,
    Piece.length_bytes, append_nil]

theorem manyHead_size (k : ℕ) :
    (manyHead k).startPiece.size + (manyHead k).endPiece.size ≤ 5164 := by
  have hattributes : ((manyHead k).attributes.flatMap (Attr.bytes [])).length ≤
      (manyHead k).attributes.length * 20 :=
    length_flatMap_le fun a _ ↦ le_of_eq (Attr.length_bytes [] a)
  have hlength : (manyHead k).attributes.length = 256 := by
    rw [manyHead, length_map, length_range]
  rw [hlength] at hattributes
  have hstart : (manyHead k).startPiece.size =
      28 + ((manyHead k).attributes.flatMap (Attr.bytes [])).length := by
    simp only [Piece.size, Piece.header, Head.startPiece, length_append, length_le32Bytes,
      length_le16Bytes]
    simp only [manyHead, length_cons, length_nil]
    omega
  have hend : (manyHead k).endPiece.size = 16 := rfl
  omega

theorem manyContents_size : ((Tree.piecesAll (manyDoc m).contents).flatMap Piece.bytes).length ≤
    m * 5164 := by
  have heach := length_flatMap_le (l := List.range m)
    (f := fun k ↦ (Tree.element (manyHead k) []).pieces.flatMap Piece.bytes) fun k _ ↦ by
      rw [length_bytes_element]
      exact manyHead_size k
  rw [List.length_range] at heach
  rw [Tree.piecesAll_eq, List.flatMap_assoc]
  exact (congrArg List.length (List.flatMap_map _ _ _)).trans_le heach

/-- What is in `manyDoc`: each of its elements. -/
theorem mem_manyContents {t : Tree} (h : t ∈ (manyDoc m).contents) :
    ∃ k < m, t = .element (manyHead k) [] := by
  obtain ⟨k, hk, rfl⟩ := mem_map.1 h
  exact ⟨k, mem_range.1 hk, rfl⟩

theorem manyHead_fits {k : ℕ} (hk : k < m) : (manyHead k).Fits (manyDoc m).pool.strings where
  startHeader := (by decide : 8 < 2 ^ 16)
  endHeader := (by decide : 8 < 2 ^ 16)
  start := (by decide : 20 < 2 ^ 16)
  width := (by decide : 20 < 2 ^ 16)
  name := by
    rw [length_manyPool]
    show k < 256 * m
    omega
  attributes := by
    intro a ha
    obtain ⟨i, hi, rfl⟩ := mem_map.1 ha
    rw [mem_range] at hi
    rw [length_manyPool]
    exact ⟨show 256 * k + i < 256 * m by omega, trivial⟩

theorem manyDoc_fits (h : 0 < m) (hm : m ≤ 4095) : (manyDoc m).Fits where
  size := by
    have hpool := manyPool_size (256 * m)
    have hcontents := manyContents_size (m := m)
    have hstart : manyRoot.startPiece.size = 28 := rfl
    have hend : manyRoot.endPiece.size = 16 := rfl
    have hbody : (manyDoc m).piece.body.length = (manyPool (256 * m)).piece.size +
        (manyRoot.startPiece.size + (((Tree.piecesAll (manyDoc m).contents).flatMap
          Piece.bytes).length + manyRoot.endPiece.size)) := by
      have hpieces : (manyDoc m).pieces =
          (manyPool (256 * m)).piece :: ((manyDoc m).root.pieces ++ []) := rfl
      have hroot : (manyDoc m).root.pieces = manyRoot.startPiece ::
          (Tree.piecesAll (manyDoc m).contents ++ [manyRoot.endPiece]) := rfl
      have hbody : (manyDoc m).piece.body = (manyDoc m).pieces.flatMap Piece.bytes := rfl
      rw [hbody, hpieces, hroot, append_nil]
      simp only [flatMap_cons, flatMap_append, flatMap_nil, append_nil,
        length_append, Piece.length_bytes]
    have hsize : (manyDoc m).piece.size = 8 + (manyDoc m).piece.body.length := rfl
    omega
  header := (by decide : 8 < 2 ^ 16)
  unknown := by simp [manyDoc]
  pool := manyPool_fits _
  idMap := nofun
  root := by
    have hroot : manyRoot.Fits (manyDoc m).pool.strings := by
      refine ⟨by decide, by decide, by decide, by decide, ?_, nofun⟩
      rw [length_manyPool]
      exact Nat.mul_pos (by decide) h
    refine ⟨hroot, (by decide : manyRoot.attributes.length ≤ maxAttributes), ?_, ?_⟩
    · rw [Tree.ownText_of]
      · decide
      · intro t ht
        obtain ⟨k, -, rfl⟩ := mem_manyContents ht
        exact ⟨_, _, rfl⟩
    · refine Tree.fitsAll_of fun t ht ↦ ?_
      obtain ⟨k, hk, rfl⟩ := mem_manyContents ht
      refine ⟨manyHead_fits hk, by simp [manyHead, maxAttributes], ?_, trivial⟩
      exact (by decide : "".utf8ByteSize ≤ maxText)
  depth := by
    have hall : Tree.depthAll (manyDoc m).contents ≤ 1 := Tree.depthAll_le fun t ht ↦ by
      obtain ⟨k, -, rfl⟩ := mem_manyContents ht
      exact le_refl _
    exact (Nat.succ_le_succ hall).trans (by decide)
  count := by
    have hall : Tree.countAll (manyDoc m).contents ≤ (manyDoc m).contents.length * 1 :=
      Tree.countAll_le fun t ht ↦ by
        obtain ⟨k, -, rfl⟩ := mem_manyContents ht
        exact le_refl _
    have hlength : (manyDoc m).contents.length = m := by
      rw [manyDoc, length_map, length_range]
    have hcount : (manyDoc m).root.count = Tree.countAll (manyDoc m).contents + 1 := rfl
    have hmax : maxNodes = 4096 := rfl
    omega

end Many

/-- The limits on a tree do not bound its strings. -/
theorem compiled_not_read_back :
    (manyDoc 257).Fits ∧ xmlNodes (manyDoc 257).bytes ≠ .ok (manyDoc 257).nodes := by
  have hfits : (manyDoc 257).Fits := manyDoc_fits (by decide) (by decide)
  have hover := hfits.xmlNodes_over (by rw [length_manyPool]; decide)
  exact ⟨hfits, fun h ↦ nomatch h.symm.trans hover⟩

end Huntsman.Axml
