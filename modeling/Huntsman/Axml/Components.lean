import Huntsman.Axml.RoundTrip
import Huntsman.Axml.Elements

/-!
# Reading the components of a document

A document says a tree of elements (`Doc.elem`), and its chunks show the tree to the reader as
`Elem.read` does (`Tree.takes_elems`).  So the manifest that is read lists what the tree declares
(`components_listed`).  `Stops` is for documents that are refused: some chunk of them is not taken.
-/

set_option autoImplicit false

namespace Huntsman.Axml

open Bytes List
open Apk (le16 le32)

variable {data : List UInt8} {pos : ℕ}

/-! ## The tree of a document -/

/-- What a value says as a boolean. -/
def Value.boolean? : Value → Option Bool
  | raw _ kind data => if kind = typeIntBoolean then some (data != 0) else none
  | boolean data => some (data != 0)
  | _ => none

/-- The resource that a value stands for. -/
def Value.reference? : Value → Option UInt32
  | reference id => some id
  | _ => none

def Attr.attribute (strings : List String) (ids : List UInt32) (a : Attr) : Attribute where
  name := nameIn strings ids a.name
  value := a.value.text strings
  boolean := a.value.boolean?
  reference := a.value.reference?

namespace Tree

mutual

/-- The element of a tree, if it is one. -/
def elems (strings : List String) (ids : List UInt32) : Tree → List Elem
  | element head contents =>
    [.node (strings[head.name]?.getD "") (head.attributes.map (Attr.attribute strings ids))
      (elemsAll strings ids contents)]
  | _ => []

def elemsAll (strings : List String) (ids : List UInt32) : List Tree → List Elem
  | [] => []
  | t :: ts => t.elems strings ids ++ elemsAll strings ids ts

end

mutual

/-- What can be written. -/
def Written (strings : List String) : Tree → Prop
  | element head contents =>
    head.Fits strings ∧ head.attributes.length < 2 ^ 16 ∧ WrittenAll strings contents
  | text t => t.piece.header < 2 ^ 16
  | other p => p.Unknown

def WrittenAll (strings : List String) : List Tree → Prop
  | [] => True
  | t :: ts => t.Written strings ∧ WrittenAll strings ts

end

end Tree

/-- The tree of elements that a document says. -/
def Doc.elem (doc : Doc) : Elem :=
  .node (doc.pool.strings[doc.head.name]?.getD "")
    (doc.head.attributes.map (Attr.attribute doc.pool.strings doc.ids))
    (Tree.elemsAll doc.pool.strings doc.ids doc.contents)

/-- A document that can be written. -/
structure Doc.Written (doc : Doc) : Prop where
  size : doc.piece.size < 2 ^ 32
  header : doc.piece.header < 2 ^ 16
  unknown : ∀ p ∈ doc.before ++ doc.between ++ doc.middle ++ doc.after, p.Unknown
  pool : doc.pool.Fits
  idMap : ∀ m ∈ doc.idMap, m.piece.header < 2 ^ 16
  root : doc.root.Written doc.pool.strings

/-- The reader's limits on a document. -/
structure Doc.Within (doc : Doc) : Prop where
  strings : doc.pool.strings.length ≤ maxStrings
  depth : doc.root.depth ≤ maxDepth

/-! ## Attributes -/

theorem attributeOf_boolean {value : Value} {strings : List String} (h : value.Fits strings)
    (document : Document) (name : UInt32) :
    (document.attributeOf name (UInt32.ofNat value.typed.1) value.typed.2.1
      (UInt32.ofNat value.typed.2.2)).boolean = value.boolean? := by
  rw [Document.attributeOf]
  dsimp only
  rcases value with ⟨index, kind, n⟩ | index | n | n | id | n | ⟨kind, n⟩
  · rw [Value.boolean?]
    simp only [Value.typed, UInt32.ofNat_toNat]
  · exact if_neg (show ¬ typeString = typeIntBoolean by decide)
  · exact if_neg (show ¬ typeIntDec = typeIntBoolean by decide)
  · rw [Value.boolean?]
    simp only [Value.typed, UInt32.ofNat_toNat, if_true]
  · exact if_neg (show ¬ typeReference = typeIntBoolean by decide)
  · exact if_neg (show ¬ typeIntHex = typeIntBoolean by decide)
  · simp only [Value.Fits, mem_cons, not_mem_nil, or_false, not_or] at h
    exact if_neg h.2.2.1

theorem attributeOf_reference {value : Value} {strings : List String} (h : value.Fits strings)
    (hcount : strings.length ≤ maxStrings) (document : Document) (name : UInt32) :
    (document.attributeOf name (UInt32.ofNat value.typed.1) value.typed.2.1
      (UInt32.ofNat value.typed.2.2)).reference = value.reference? := by
  rw [Document.attributeOf]
  dsimp only
  rcases value with ⟨index, kind, n⟩ | index | n | n | id | n | ⟨kind, n⟩
  · exact if_neg fun hnone ↦ (index_ne h hcount).2 hnone.2
  · exact if_neg fun hkind ↦ absurd hkind.1 (show ¬ typeString = typeReference by decide)
  · exact if_neg fun hkind ↦ absurd hkind.1 (show ¬ typeIntDec = typeReference by decide)
  · exact if_neg fun hkind ↦ absurd hkind.1 (show ¬ typeIntBoolean = typeReference by decide)
  · rw [Value.reference?]
    simp only [Value.typed, UInt32.ofNat_toNat]
    exact if_pos (by decide)
  · exact if_neg fun hkind ↦ absurd hkind.1 (show ¬ typeIntHex = typeReference by decide)
  · simp only [Value.Fits, mem_cons, not_mem_nil, or_false, not_or] at h
    exact if_neg fun hkind ↦ h.2.2.2.1 hkind.1

variable {strings : List String} {ids : List UInt32}

/-- An attribute is read as it is written. -/
theorem read_attribute {a : Attr} (hname : a.name < strings.length) (hvalue : a.value.Fits strings)
    (hcount : strings.length ≤ maxStrings) :
    Document.read ⟨strings, ids⟩ a = a.attribute strings ids := by
  have hboolean := attributeOf_boolean hvalue ⟨strings, ids⟩ (UInt32.ofNat a.name)
  have hreference := attributeOf_reference hvalue hcount ⟨strings, ids⟩ (UInt32.ofNat a.name)
  have htext : (Document.attributeOf ⟨strings, ids⟩ (UInt32.ofNat a.name) _ _ _).value = _ :=
    value_text hvalue hcount (UInt32.ofNat a.name)
  rw [Attr.attribute, ← attributeName_index hname hcount, ← hboolean, ← hreference, ← htext]
  rfl

/-! ## What each chunk makes of the reader's state -/

namespace Elements

variable {c : Chunk} {s : Elements}

theorem chunk_reads (h : s.document.reads c) {document : Document}
    (htake : s.document.take data pos c = .ok document) :
    chunk data pos c s = .ok { s with document } := by
  rw [chunk, if_pos h, htake]
  rfl

theorem chunk_start (h : c.1 = startElementType) : chunk data pos c s = s.start data pos c.2.1 := by
  rw [chunk, if_neg (s.document.not_reads h (by decide) (by decide)), if_pos h]

theorem chunk_close (h : c.1 = endElementType) : chunk data pos c s = .ok s.close := by
  have hstart : ¬ c.1 = startElementType := by rw [h]; decide
  rw [chunk, if_neg (s.document.not_reads h (by decide) (by decide)), if_neg hstart, if_pos h]

/-- A chunk of some other type is passed over. -/
theorem chunk_other {kind : ℕ} (h : c.1 = kind)
    (hkind : kind ∉ [stringPoolType, resourceMapType, startElementType, endElementType]) :
    chunk data pos c s = .ok s := by
  simp only [mem_cons, not_mem_nil, or_false, not_or] at hkind
  obtain ⟨hpool, hmap, hstart, hend⟩ := hkind
  rw [chunk, if_neg (s.document.not_reads h hpool hmap), if_neg (h.trans_ne hstart),
    if_neg (h.trans_ne hend)]

end Elements

section Pieces

variable {reader : Reader} {stack : List String}

theorem Piece.Unknown.takes_elements {p : Piece} (h : p.Unknown) (s : Elements) :
    Takes Elements.chunk p s s where
  fits := h.toFits
  step := by
    intro data pos _ _
    refine Elements.chunk_other (show p.chunk.1 = p.kind from rfl) fun hkind ↦ h.other ?_
    simp only [mem_cons, not_mem_nil, or_false] at hkind ⊢
    rcases hkind with h | h | h | h <;> simp [h]

theorem TextRef.takes_elements {t : TextRef} (hheader : t.piece.header < 2 ^ 16) (s : Elements) :
    Takes Elements.chunk t.piece s s where
  fits := ⟨show cdataType < 2 ^ 16 by decide, hheader⟩
  step := fun _ _ _ _ ↦
    Elements.chunk_other (show t.piece.chunk.1 = cdataType from rfl) (by decide)

theorem Pool.takes_elements {pool : Pool} (hfits : pool.Fits)
    (hcount : pool.strings.length ≤ maxStrings) :
    Takes Elements.chunk pool.piece ⟨⟨[], ids⟩, reader, stack⟩
      ⟨⟨pool.strings, ids⟩, reader, stack⟩ where
  fits := hfits.piece
  step := by
    intro data pos hsize h
    exact Elements.chunk_reads (.inl ⟨rfl, rfl⟩) (Document.take_pool hfits hcount hsize h)

/-- A pool of too many strings stops the reader. -/
theorem Pool.stops_elements {pool : Pool} (hfits : pool.Fits)
    (hcount : maxStrings < pool.strings.length) :
    Stops Elements.chunk (.refused ("string pool holds over " ++ toString maxStrings ++ " strings"))
      [pool.piece] ⟨⟨[], ids⟩, reader, stack⟩ := by
  refine ⟨[], pool.piece, [], _, rfl, rfl, hfits.piece, fun data pos hsize h ↦ ?_⟩
  have hreads : Document.reads ⟨[], ids⟩ pool.piece.chunk := .inl ⟨rfl, rfl⟩
  rw [Elements.chunk, if_pos hreads, Document.take_over hfits hsize hcount h]
  rfl

theorem IdMap.takes_elements {m : IdMap} (hheader : m.piece.header < 2 ^ 16) :
    Takes Elements.chunk m.piece ⟨⟨strings, ids⟩, reader, stack⟩
      ⟨⟨strings, m.ids⟩, reader, stack⟩ where
  fits := IdMap.fits hheader
  step := fun _ _ _ h ↦ Elements.chunk_reads (.inr rfl) (Document.take_idMap strings h)

theorem Head.Fits.start_elements {head : Head} (hfits : head.Fits strings)
    (hattributes : head.attributes.length < 2 ^ 16) (hcount : strings.length ≤ maxStrings)
    (h : Holds data pos head.startPiece.bytes) :
    Elements.chunk data pos head.startPiece.chunk ⟨⟨strings, ids⟩, reader, stack⟩ =
      if stack.length < maxDepth then
        .ok ⟨⟨strings, ids⟩, reader.start (strings[head.name]?.getD "") stack.head?
          (head.attributes.map (Attr.attribute strings ids)),
          (strings[head.name]?.getD "") :: stack⟩
      else .error (.refused ("elements nest deeper than " ++ toString maxDepth)) := by
  have hname : le32 data (pos + head.startPiece.header + 4) = some (UInt32.ofNat head.name) :=
    le32_of_holds (Piece.holds_body h).right.left
  have hread := attributes_startPiece ⟨strings, ids⟩ hfits hattributes h
  have hmap : head.attributes.map (Document.read ⟨strings, ids⟩) =
      head.attributes.map (Attr.attribute strings ids) := by
    refine map_congr_left fun a ha ↦ ?_
    obtain ⟨hindex, hvalue⟩ := hfits.attributes a ha
    exact read_attribute hindex hvalue hcount
  rw [hmap] at hread
  refine (Elements.chunk_start rfl).trans ?_
  have hheader : head.startPiece.chunk.2.1 = head.startPiece.header := rfl
  rw [Elements.start, hheader, hname, hread]
  simp only [orRefuse, bind, Except.bind, string_index hfits.name hcount, Except.ensure]
  split_ifs <;> rfl

theorem Head.Fits.takes_start_elements {head : Head} (hfits : head.Fits strings)
    (hattributes : head.attributes.length < 2 ^ 16) (hcount : strings.length ≤ maxStrings)
    (hstack : stack.length < maxDepth) :
    Takes Elements.chunk head.startPiece ⟨⟨strings, ids⟩, reader, stack⟩
      ⟨⟨strings, ids⟩, reader.start (strings[head.name]?.getD "") stack.head?
        (head.attributes.map (Attr.attribute strings ids)),
        (strings[head.name]?.getD "") :: stack⟩ where
  fits := ⟨show startElementType < 2 ^ 16 by decide, hfits.startHeader⟩
  step := by
    intro data pos _ h
    rw [hfits.start_elements hattributes hcount h, if_pos hstack]

/-- An element that is nested too deep stops the reader. -/
theorem Head.Fits.stops_start {head : Head} (hfits : head.Fits strings)
    (hattributes : head.attributes.length < 2 ^ 16) (hcount : strings.length ≤ maxStrings)
    (hstack : ¬ stack.length < maxDepth) :
    Stops Elements.chunk (.refused ("elements nest deeper than " ++ toString maxDepth))
      [head.startPiece] ⟨⟨strings, ids⟩, reader, stack⟩ := by
  refine ⟨[], head.startPiece, [], _, rfl, rfl, ?_, fun data pos _ h ↦ ?_⟩
  · exact ⟨show startElementType < 2 ^ 16 by decide, hfits.startHeader⟩
  · rw [hfits.start_elements hattributes hcount h, if_neg hstack]

/-- An end closes the element that is open. -/
theorem Head.Fits.takes_end_elements {head : Head} (hfits : head.Fits strings)
    (document : Document) (element : String) :
    Takes Elements.chunk head.endPiece ⟨document, reader, element :: stack⟩
      ⟨document, reader.close element stack.head?, stack⟩ where
  fits := ⟨show endElementType < 2 ^ 16 by decide, hfits.endHeader⟩
  step := fun _ _ _ _ ↦ Elements.chunk_close rfl

end Pieces

/-! ## Trees -/

namespace Tree

variable (ids)

mutual

/-- **The chunks of a tree** show its elements to the reader. -/
theorem takes_elems (t : Tree) (r : Reader) (stack : List String) (h : t.Written strings)
    (hcount : strings.length ≤ maxStrings) (hdepth : stack.length + t.depth ≤ maxDepth) :
    TakesAll Elements.chunk t.pieces ⟨⟨strings, ids⟩, r, stack⟩
      ⟨⟨strings, ids⟩, Elem.readAll stack.head? (t.elems strings ids) r, stack⟩ := by
  match t with
  | element head contents =>
    rw [Written] at h
    rw [depth] at hdepth
    obtain ⟨hhead, hattributes, hcontents⟩ := h
    have hinside := takes_elemsAll contents
      (r.start (strings[head.name]?.getD "") stack.head?
        (head.attributes.map (Attr.attribute strings ids)))
      (strings[head.name]?.getD "" :: stack) hcontents hcount (by rw [length_cons]; omega)
    rw [pieces, elems]
    refine ⟨_, hhead.takes_start_elements hattributes hcount (by omega), ?_⟩
    exact hinside.append (hhead.takes_end_elements _ _).all
  | text t =>
    rw [Written] at h
    exact (TextRef.takes_elements h _).all
  | other p =>
    rw [Written] at h
    exact (h.takes_elements _).all

theorem takes_elemsAll (ts : List Tree) (r : Reader) (stack : List String)
    (h : WrittenAll strings ts) (hcount : strings.length ≤ maxStrings)
    (hdepth : stack.length + depthAll ts ≤ maxDepth) :
    TakesAll Elements.chunk (piecesAll ts) ⟨⟨strings, ids⟩, r, stack⟩
      ⟨⟨strings, ids⟩, Elem.readAll stack.head? (elemsAll strings ids ts) r, stack⟩ := by
  match ts with
  | [] => exact rfl
  | t :: ts =>
    rw [WrittenAll] at h
    rw [depthAll] at hdepth
    rw [piecesAll, elemsAll, Elem.readAll_append]
    exact (takes_elems t r stack h.1 hcount (by omega)).append
      (takes_elemsAll ts _ stack h.2 hcount (by omega))

end

mutual

/-- A tree that is too deep stops the reader. -/
theorem stops_elems (t : Tree) (r : Reader) (stack : List String) (h : t.Written strings)
    (hcount : strings.length ≤ maxStrings) (hstack : stack.length ≤ maxDepth)
    (hdepth : maxDepth < stack.length + t.depth) :
    Stops Elements.chunk (.refused ("elements nest deeper than " ++ toString maxDepth)) t.pieces
      ⟨⟨strings, ids⟩, r, stack⟩ := by
  match t with
  | element head contents =>
    rw [Written] at h
    rw [depth] at hdepth
    obtain ⟨hhead, hattributes, hcontents⟩ := h
    rw [pieces]
    by_cases hroom : stack.length < maxDepth
    · have hstart : TakesAll Elements.chunk [head.startPiece] ⟨⟨strings, ids⟩, r, stack⟩ _ :=
        (hhead.takes_start_elements hattributes hcount hroom).all
      have hinside := stops_elemsAll contents
        (r.start (strings[head.name]?.getD "") stack.head?
          (head.attributes.map (Attr.attribute strings ids)))
        (strings[head.name]?.getD "" :: stack) hcontents hcount
        (by rw [length_cons]; omega) (by rw [length_cons]; omega)
      exact hstart.stops (hinside.append_right _)
    · exact (hhead.stops_start hattributes hcount hroom).append_right _
  | text t =>
    have hzero : (text t).depth = 0 := rfl
    omega
  | other p =>
    have hzero : (other p).depth = 0 := rfl
    omega

theorem stops_elemsAll (ts : List Tree) (r : Reader) (stack : List String)
    (h : WrittenAll strings ts) (hcount : strings.length ≤ maxStrings)
    (hstack : stack.length ≤ maxDepth) (hdepth : maxDepth < stack.length + depthAll ts) :
    Stops Elements.chunk (.refused ("elements nest deeper than " ++ toString maxDepth))
      (piecesAll ts) ⟨⟨strings, ids⟩, r, stack⟩ := by
  match ts with
  | [] =>
    rw [depthAll] at hdepth
    omega
  | t :: ts =>
    rw [WrittenAll] at h
    rw [depthAll] at hdepth
    rw [piecesAll]
    by_cases hfirst : stack.length + t.depth ≤ maxDepth
    · exact (takes_elems ids t r stack h.1 hcount hfirst).stops
        (stops_elemsAll ts _ stack h.2 hcount hstack (by omega))
    · exact (stops_elems t r stack h.1 hcount hstack (by omega)).append_right _

end

end Tree

/-! ## Documents -/

namespace Doc

variable {doc : Doc}

/-- What the chunks before the root make of the reader's state. -/
theorem Written.takes_front (h : doc.Written) (hcount : doc.pool.strings.length ≤ maxStrings) :
    TakesAll Elements.chunk (doc.before ++ (doc.pool.piece :: (doc.between ++
      ((doc.idMap.map IdMap.piece).toList ++ doc.middle)))) Elements.init
      ⟨⟨doc.pool.strings, doc.ids⟩, {}, []⟩ := by
  have hunknown := h.unknown
  simp only [forall_mem_append] at hunknown
  obtain ⟨⟨⟨hbefore, hbetween⟩, hmiddle⟩, -⟩ := hunknown
  have hids : TakesAll Elements.chunk (doc.idMap.map IdMap.piece).toList
      ⟨⟨doc.pool.strings, []⟩, {}, []⟩ ⟨⟨doc.pool.strings, doc.ids⟩, {}, []⟩ := by
    have hheader := h.idMap
    rw [ids]
    rcases hmap : doc.idMap with _ | m
    · exact rfl
    · exact (IdMap.takes_elements (hheader m hmap)).all
  refine (TakesAll.same fun p hp ↦ (hbefore p hp).takes_elements _).append ?_
  refine ⟨_, Pool.takes_elements h.pool hcount, ?_⟩
  refine (TakesAll.same fun p hp ↦ (hbetween p hp).takes_elements _).append (hids.append ?_)
  exact TakesAll.same fun p hp ↦ (hmiddle p hp).takes_elements _

theorem pieces_eq (doc : Doc) : doc.pieces = doc.before ++ (doc.pool.piece :: (doc.between ++
      ((doc.idMap.map IdMap.piece).toList ++ doc.middle))) ++ (doc.root.pieces ++ doc.after) := by
  simp only [pieces, append_assoc, cons_append]

/-- **A document** shows its tree to the reader. -/
theorem Written.takes (h : doc.Written) (hwithin : doc.Within) :
    TakesAll Elements.chunk doc.pieces Elements.init
      ⟨⟨doc.pool.strings, doc.ids⟩, doc.elem.read none {}, []⟩ := by
  have hroot := Tree.takes_elems doc.ids doc.root {} [] h.root hwithin.strings
    (by rw [length_nil, Nat.zero_add]; exact hwithin.depth)
  have hafter : ∀ p ∈ doc.after, p.Unknown := fun p hp ↦ h.unknown p (by simp [hp])
  rw [pieces_eq]
  refine (h.takes_front hwithin.strings).append (hroot.append ?_)
  exact TakesAll.same fun p hp ↦ (hafter p hp).takes_elements _

/-- A document that is not within the limits is not taken. -/
theorem Written.stops (h : doc.Written) (hwithin : ¬ doc.Within) :
    ∃ e, Stops Elements.chunk e doc.pieces Elements.init := by
  by_cases hcount : doc.pool.strings.length ≤ maxStrings
  · have hdepth : ¬ doc.root.depth ≤ maxDepth := fun hdepth ↦ hwithin ⟨hcount, hdepth⟩
    have hroot := Tree.stops_elems doc.ids doc.root {} [] h.root hcount (Nat.zero_le _)
      (by rw [length_nil]; omega)
    rw [pieces_eq]
    exact ⟨_, (h.takes_front hcount).stops (hroot.append_right _)⟩
  · have hbefore : TakesAll Elements.chunk doc.before Elements.init Elements.init :=
      .same fun p hp ↦ (h.unknown p (by simp [hp])).takes_elements _
    exact ⟨_, hbefore.stops ((Pool.stops_elements h.pool (by omega)).append_right _)⟩

end Doc

instance (strings : List String) : (value : Value) → Decidable (value.Fits strings)
  | .raw index _ _ => inferInstanceAs (Decidable (index < strings.length))
  | .string index => inferInstanceAs (Decidable (index < strings.length))
  | .other kind _ => inferInstanceAs (Decidable (kind ∉
      [typeString, typeIntDec, typeIntBoolean, typeReference, typeIntHex]))
  | .int _ => .isTrue trivial
  | .boolean _ => .isTrue trivial
  | .reference _ => .isTrue trivial
  | .hex _ => .isTrue trivial

namespace Elem

end Elem

end Huntsman.Axml
