import Huntsman.Axml.Strings

/-!
# Reading a document back

A document is read chunk by chunk.  `Takes` says what one chunk makes of the reader's state,
wherever the chunk is, and `TakesAll` what several do; each chunk that is written makes of the state
what it stands for, and the chunks of an element add the element's nodes (`element_takes`).  So a
document is read back: `xmlNodes_bytes`.
-/

set_option autoImplicit false

namespace Huntsman.Axml

open Bytes List
open Apk (le16 le32)

variable {data : List UInt8} {pos limit size : ℕ}

/-! ## Chunks -/

/-- How a chunk is read. -/
def Piece.chunk (p : Piece) : Chunk := (p.kind, p.header, p.size)

theorem chunk_piece {p : Piece} (hfits : p.Fits) (hsize : p.size < 2 ^ 32)
    (h : Holds data pos p.bytes) (hlimit : pos + p.size ≤ limit) :
    chunk data pos limit = .ok p.chunk := by
  have hheader : le16 data (pos + 2) = some (UInt16.ofNat p.header) := le16_of_holds h.right.left
  have hsizeAt : le32 data (pos + 4) = some (UInt32.ofNat p.size) :=
    le32_of_holds h.right.right.left
  rw [Axml.chunk, le16_of_holds h.left, hheader, hsizeAt]
  refine Except.bind_ok.2 ⟨_, rfl, Except.bind_ok.2 ⟨_, rfl, Except.bind_ok.2 ⟨_, rfl, ?_⟩⟩⟩
  rw [toNat_ofNat16 hfits.kind, toNat_ofNat16 hfits.header, toNat_ofNat32 hsize]
  refine Except.bind_ok.2 ⟨(), Except.ensure_ok.2 ?_, rfl⟩
  have hle : 8 ≤ p.header := Nat.le_add_right _ _
  have hle' : p.header ≤ p.size := Nat.le_add_right _ _
  omega

section Takes

variable {σ : Type} {step : List UInt8 → ℕ → Chunk → σ → Except Fault σ} {s t s' : σ}

/-- The chunk makes `s'` of `s`, wherever it is. -/
structure Takes (step : List UInt8 → ℕ → Chunk → σ → Except Fault σ) (p : Piece) (s s' : σ) :
    Prop where
  fits : p.Fits
  step : ∀ data pos, p.size < 2 ^ 32 → Holds data pos p.bytes → step data pos p.chunk s = .ok s'

/-- The chunks, one after the other, make `s'` of `s`. -/
def TakesAll (step : List UInt8 → ℕ → Chunk → σ → Except Fault σ) : List Piece → σ → σ → Prop
  | [], s, s' => s = s'
  | p :: ps, s, s' => ∃ t, Takes step p s t ∧ TakesAll step ps t s'

theorem Takes.all {p : Piece} (h : Takes step p s s') : TakesAll step [p] s s' := ⟨s', h, rfl⟩

variable {ps : List Piece} {e : Fault}

theorem TakesAll.append {qs : List Piece} (h : TakesAll step ps s t)
    (h' : TakesAll step qs t s') : TakesAll step (ps ++ qs) s s' := by
  induction ps generalizing s with
  | nil =>
    obtain rfl : s = t := h
    exact h'
  | cons p ps ih =>
    obtain ⟨u, hp, hps⟩ := h
    exact ⟨u, hp, ih hps⟩

/-- Chunks that each leave the state as it is. -/
theorem TakesAll.same (h : ∀ p ∈ ps, Takes step p s s) :
    TakesAll step ps s s := by
  induction ps with
  | nil => exact rfl
  | cons p ps ih =>
    exact ⟨s, h p (.head _), ih fun q hq ↦ h q (.tail _ hq)⟩

/-- Walking on from where a chunk is. -/
theorem walkChunks_piece {f : ℕ → Chunk → σ → Except Fault σ} {p : Piece} (hfits : p.Fits)
    (h : Holds data pos p.bytes) (hsize : size < 2 ^ 32) (hend : pos + p.size ≤ size) :
    walkChunks f data size pos s =
      f pos p.chunk s >>= fun s' ↦ walkChunks f data size (pos + p.size) s' := by
  have hlarge : 8 ≤ p.size := Nat.le_trans (Nat.le_add_right _ _) (Nat.le_add_right _ _)
  have hchunk := chunk_piece hfits (by omega) h hend
  rw [walkChunks, if_pos (by omega)]
  split
  · rename_i e he
    cases hchunk.symm.trans he
  · rename_i c hc
    obtain rfl := Except.ok.inj (hchunk.symm.trans hc)
    rcases f pos p.chunk s with e | s' <;> rfl

/-- **Walking over chunks** makes of the state what they make of it. -/
theorem walkChunks_takes (h : TakesAll step ps s s')
    (hdata : Holds data pos (ps.flatMap Piece.bytes)) (hsize : size < 2 ^ 32)
    (hend : pos + (ps.flatMap Piece.bytes).length ≤ size) :
    walkChunks (step data) data size pos s =
      walkChunks (step data) data size (pos + (ps.flatMap Piece.bytes).length) s' := by
  induction ps generalizing pos s with
  | nil =>
    obtain rfl : s = s' := h
    rfl
  | cons p ps ih =>
    obtain ⟨t, hp, hps⟩ := h
    rw [flatMap_cons] at hdata hend ⊢
    rw [length_append, Piece.length_bytes] at hend ⊢
    have hrest := hdata.right
    rw [Piece.length_bytes] at hrest
    rw [walkChunks_piece hp.fits hdata.left hsize (by omega),
      hp.step data pos (by omega) hdata.left, ← Nat.add_assoc]
    exact ih hps hrest (by omega)

/-- One of the chunks is not taken, wherever it is, and those before it are. -/
def Stops (step : List UInt8 → ℕ → Chunk → σ → Except Fault σ) (e : Fault) (ps : List Piece)
    (s : σ) : Prop :=
  ∃ before p after t, ps = before ++ p :: after ∧ TakesAll step before s t ∧ p.Fits ∧
    ∀ data pos, p.size < 2 ^ 32 → Holds data pos p.bytes → step data pos p.chunk t = .error e

theorem Stops.append_right (h : Stops step e ps s) (qs : List Piece) :
    Stops step e (ps ++ qs) s := by
  obtain ⟨before, p, after, t, rfl, hrest⟩ := h
  exact ⟨before, p, after ++ qs, t, by rw [append_assoc, cons_append], hrest⟩

theorem TakesAll.stops {qs : List Piece} (h : TakesAll step ps s t)
    (h' : Stops step e qs t) : Stops step e (ps ++ qs) s := by
  obtain ⟨before, p, after, u, rfl, hbefore, hrest⟩ := h'
  exact ⟨ps ++ before, p, after, u, (append_assoc _ _ _).symm, h.append hbefore, hrest⟩

/-- **Walking over chunks** one of which is not taken. -/
theorem walkChunks_stops (h : Stops step e ps s)
    (hdata : Holds data pos (ps.flatMap Piece.bytes)) (hsize : size < 2 ^ 32)
    (hend : pos + (ps.flatMap Piece.bytes).length ≤ size) :
    walkChunks (step data) data size pos s = .error e := by
  obtain ⟨before, p, after, t, rfl, hbefore, hfits, hstep⟩ := h
  rw [flatMap_append, flatMap_cons] at hdata hend
  rw [length_append, length_append, Piece.length_bytes] at hend
  have hpiece := hdata.right.left
  rw [walkChunks_takes hbefore hdata.left hsize (by omega),
    walkChunks_piece hfits hpiece hsize (by omega), hstep data _ (by omega) hpiece]
  rfl

theorem walkChunks_end (f : ℕ → Chunk → σ → Except Fault σ) :
    walkChunks f data size size s = .ok (size, s) := by
  rw [walkChunks, if_neg (by omega)]

end Takes

/-! ## Values -/

section Values

variable {strings : List String} {ids : List UInt32}

theorem find?_map_snd {β : Type} (list : List (UInt32 × β)) (id : UInt32) :
    (list.find? (·.1 == id)).map Prod.snd = list.lookup id := by
  induction list with
  | nil => rfl
  | cons entry rest ih =>
    rw [find?_cons, lookup_cons]
    rcases hentry : entry.1 == id with _ | _
    · rw [ih, BEq.comm, hentry]
    · rw [BEq.comm, hentry]
      rfl

/-- An index of the pool can be written, and is not the one that stands for none. -/
theorem index_ne {index : ℕ} (h : index < strings.length) (hcount : strings.length ≤ maxStrings) :
    (UInt32.ofNat index).toNat = index ∧ UInt32.ofNat index ≠ noIndex := by
  have hmax : maxStrings = 65536 := rfl
  have hindex : (UInt32.ofNat index).toNat = index := toNat_ofNat32 (by omega)
  refine ⟨hindex, fun hnone ↦ ?_⟩
  have hnat := congrArg UInt32.toNat hnone
  have hno : noIndex.toNat = 4294967295 := rfl
  omega

theorem string_index {index : ℕ} (h : index < strings.length)
    (hcount : strings.length ≤ maxStrings) :
    (Document.string ⟨strings, ids⟩ (UInt32.ofNat index)).getD "" = strings[index]?.getD "" := by
  rw [Document.string, (index_ne h hcount).1]

theorem attributeName_index {name : ℕ} (h : name < strings.length)
    (hcount : strings.length ≤ maxStrings) :
    Document.attributeName ⟨strings, ids⟩ (UInt32.ofNat name) = Attr.nameIn strings ids name := by
  have hname : (Document.string ⟨strings, ids⟩ (UInt32.ofNat name)).getD "" =
      strings[name]?.getD "" := string_index h hcount
  rw [Document.attributeName, Attr.nameIn, hname, (index_ne h hcount).1]
  rcases ids[name]? with _ | id
  · rfl
  · have hlookup := find?_map_snd attributeIds id
    simp only [Option.bind_some]
    rcases hfind : attributeIds.find? (·.1 == id) with _ | known <;>
      simp only [← hlookup, hfind, Option.map_none, Option.map_some]

/-- Without a raw value an attribute says what its type says. -/
theorem value_typed (name : UInt32) (kind : UInt8) (data : ℕ) :
    (Document.attributeOf ⟨strings, ids⟩ name (UInt32.ofNat noIndex.toNat) kind
      (UInt32.ofNat data)).value = valueText strings kind (UInt32.ofNat data) := by
  rw [Document.attributeOf, UInt32.ofNat_toNat]
  simp only [if_pos]

theorem value_text {value : Value} (h : value.Fits strings) (hcount : strings.length ≤ maxStrings)
    (name : UInt32) :
    (Document.attributeOf ⟨strings, ids⟩ name (UInt32.ofNat value.typed.1) value.typed.2.1
      (UInt32.ofNat value.typed.2.2)).value = value.text strings := by
  rcases value with ⟨index, kind, data⟩ | index | n | data | id | n | ⟨kind, n⟩
  · rw [Document.attributeOf, Value.typed]
    simp only
    rw [if_neg (index_ne h hcount).2, string_index h hcount]
    rfl
  · refine (value_typed name typeString index).trans ?_
    rw [valueText, if_pos rfl, (index_ne h hcount).1]
    rfl
  · refine (value_typed name typeIntDec n.toUInt32.toNat).trans ?_
    rw [valueText, if_neg (by decide), if_pos rfl, UInt32.ofNat_toNat]
    rfl
  · refine (value_typed name typeIntBoolean data.toNat).trans ?_
    rw [valueText, if_neg (by decide), if_neg (by decide), if_pos rfl, UInt32.ofNat_toNat,
      Value.text]
    by_cases hdata : data = 0
    · rw [if_pos hdata, hdata]
      rfl
    · have hne : (data != 0) = true := bne_iff_ne.2 hdata
      rw [if_neg hdata, hne]
      rfl
  · refine (value_typed name typeReference id.toNat).trans ?_
    rw [valueText, if_neg (by decide), if_neg (by decide), if_neg (by decide), if_pos rfl,
      UInt32.ofNat_toNat]
    rfl
  · refine (value_typed name typeIntHex n.toNat).trans ?_
    rw [valueText, if_neg (by decide), if_neg (by decide), if_neg (by decide), if_neg (by decide),
      if_pos rfl, UInt32.ofNat_toNat]
    rfl
  · simp only [Value.Fits, mem_cons, not_mem_nil, or_false, not_or] at h
    obtain ⟨hstring, hint, hboolean, hreference, hhex⟩ := h
    refine (value_typed name kind n.toNat).trans ?_
    rw [valueText, if_neg hstring, if_neg hint, if_neg hboolean, if_neg hreference, if_neg hhex,
      UInt32.ofNat_toNat]
    rfl

end Values

/-! ## Attributes -/

/-- An attribute as it is read. -/
def Document.read (document : Document) (a : Attr) : Attribute :=
  document.attributeOf (UInt32.ofNat a.name) (UInt32.ofNat a.value.typed.1) a.value.typed.2.1
    (UInt32.ofNat a.value.typed.2.2)

theorem Attr.length_bytes (pad : List UInt8) (a : Attr) :
    (a.bytes pad).length = 20 + pad.length := by
  simp only [bytes, length_append, length_le32Bytes, length_cons, length_nil]
  omega

theorem attributeAt_bytes (document : Document) {a : Attr} {pad : List UInt8}
    (h : Holds data pos (a.bytes pad)) :
    document.attributeAt data pos = some (document.read a) := by
  have hname : le32 data (pos + 4) = some (UInt32.ofNat a.name) := le32_of_holds h.right.left
  have hraw : le32 data (pos + 8) = some (UInt32.ofNat a.value.typed.1) :=
    le32_of_holds h.right.right.left
  have hkind : data[pos + 15]? = some a.value.typed.2.1 := h.right.right.right.right.left.head
  have hdata : le32 data (pos + 16) = some (UInt32.ofNat a.value.typed.2.2) :=
    le32_of_holds h.right.right.right.right.right.left
  rw [Document.attributeAt, hname, hraw, hkind, hdata]
  rfl

theorem attributes_startPiece (document : Document) {strings : List String} {head : Head}
    (hfits : head.Fits strings) (hcount : head.attributes.length < 2 ^ 16)
    (h : Holds data pos head.startPiece.bytes) :
    document.attributes data pos head.startPiece.header =
      some (head.attributes.map document.read) := by
  have hbody := Piece.holds_body h
  set ext := pos + head.startPiece.header with hext
  have hstart : le16 data (ext + 8) = some (UInt16.ofNat (14 + head.gap.length)) :=
    le16_of_holds hbody.right.right.left
  have hwidth : le16 data (ext + 10) = some (UInt16.ofNat (20 + head.pad.length)) :=
    le16_of_holds hbody.right.right.right.left
  have hlength : le16 data (ext + 12) = some (UInt16.ofNat head.attributes.length) :=
    le16_of_holds hbody.right.right.right.right.left
  have hall : Holds data (ext + (14 + head.gap.length))
      (head.attributes.flatMap (Attr.bytes head.pad)) := by
    have hrest : Holds data (ext + 14 + head.gap.length) _ :=
      hbody.right.right.right.right.right.right
    rwa [Nat.add_assoc] at hrest
  rw [Document.attributes]
  simp only [← hext, hstart, hwidth, hlength, Option.bind_eq_bind, Option.bind_some]
  rw [toNat_ofNat16 hfits.start, toNat_ofNat16 hfits.width,
    toNat_ofNat16 hcount, if_neg (by omega),
    ← length_map document.read]
  refine mapM_range fun i entry hi ↦ ?_
  rw [getElem?_map, Option.map_eq_some_iff] at hi
  obtain ⟨a, ha, rfl⟩ := hi
  exact attributeAt_bytes document (hall.flatMap (Attr.length_bytes head.pad) ha)

/-! ## What a chunk makes of the document -/

namespace Document

variable {c : Chunk} {ids : List UInt32}

theorem not_reads (document : Document) {kind : ℕ} (h : c.1 = kind) (hpool : kind ≠ stringPoolType)
    (hmap : kind ≠ resourceMapType) : ¬ document.reads c := by
  rintro (⟨hkind, -⟩ | hkind)
  · exact hpool (h.symm.trans hkind)
  · exact hmap (h.symm.trans hkind)

theorem take_pool {pool : Pool} (hfits : pool.Fits) (hcount : pool.strings.length ≤ maxStrings)
    (hsize : pool.piece.size < 2 ^ 32) (h : Holds data pos pool.piece.bytes) :
    Document.take ⟨[], ids⟩ data pos pool.piece.chunk = .ok ⟨pool.strings, ids⟩ := by
  rw [take, if_pos (show pool.piece.chunk.1 = stringPoolType from rfl)]
  exact Except.bind_ok.2 ⟨pool.strings, Pool.stringPool_pool hfits hsize hcount h, rfl⟩

/-- A pool of too many strings is refused. -/
theorem take_over {pool : Pool} (hfits : pool.Fits) (hsize : pool.piece.size < 2 ^ 32)
    (hcount : maxStrings < pool.strings.length) (h : Holds data pos pool.piece.bytes) :
    Document.take ⟨[], ids⟩ data pos pool.piece.chunk =
      .error (.refused ("string pool holds over " ++ toString maxStrings ++ " strings")) := by
  have hover : stringPool data pos pool.piece.chunk.2.1 pool.piece.chunk.2.2 = _ :=
    Pool.stringPool_over hfits hsize hcount h
  rw [take, if_pos (show pool.piece.chunk.1 = stringPoolType from rfl), hover]
  rfl

theorem take_idMap (strings : List String) {m : IdMap} (h : Holds data pos m.piece.bytes) :
    Document.take ⟨strings, ids⟩ data pos m.piece.chunk = .ok ⟨strings, m.ids⟩ := by
  have hbody := (Piece.holds_body h).slice
  rw [Nat.add_assoc] at hbody
  have hslice : slice data (pos + m.piece.header) (pos + m.piece.size) = some m.piece.body := hbody
  have hkind : ¬ m.piece.chunk.1 = stringPoolType :=
    show ¬ resourceMapType = stringPoolType by decide
  rw [take, if_neg hkind, range]
  refine Except.bind_ok.2 ⟨m.piece.body, congrArg at? hslice, ?_⟩
  rw [IdMap.piece, words_flatMap]
  rfl

end Document

theorem Pool.Fits.piece {pool : Pool} (hfits : pool.Fits) : pool.piece.Fits := by
  refine ⟨show stringPoolType < 2 ^ 16 by decide, ?_⟩
  rw [Pool.header_piece]
  exact hfits.header

theorem IdMap.fits {m : IdMap} (hheader : m.piece.header < 2 ^ 16) : m.piece.Fits :=
  ⟨show resourceMapType < 2 ^ 16 by decide, hheader⟩

/-! ## What each chunk makes of the reader's state -/

namespace Nodes

variable {c : Chunk} {s : Nodes}

theorem chunk_reads (h : s.document.reads c) {document : Document}
    (htake : s.document.take data pos c = .ok document) :
    chunk data pos c s = .ok { s with document } := by
  rw [chunk, if_pos h, htake]
  rfl

theorem chunk_start (h : c.1 = startElementType) : chunk data pos c s = s.start data pos c.2.1 := by
  rw [chunk, if_neg (s.document.not_reads h (by decide) (by decide)), if_pos h]

theorem chunk_cdata (h : c.1 = cdataType) : chunk data pos c s = s.cdata data pos c.2.1 := by
  have hstart : ¬ c.1 = startElementType := by rw [h]; decide
  rw [chunk, if_neg (s.document.not_reads h (by decide) (by decide)), if_neg hstart, if_pos h]

theorem chunk_close (h : c.1 = endElementType) : chunk data pos c s = s.close data pos c.2.1 := by
  have hstart : ¬ c.1 = startElementType := by rw [h]; decide
  have hcdata : ¬ c.1 = cdataType := by rw [h]; decide
  rw [chunk, if_neg (s.document.not_reads h (by decide) (by decide)), if_neg hstart,
    if_neg hcdata, if_pos h]

end Nodes

section Pieces

variable {strings : List String} {ids : List UInt32} {nodes : List XmlNode} {stack : List ℕ}

theorem Piece.Unknown.takes {p : Piece} (h : p.Unknown) (s : Nodes) : Takes Nodes.chunk p s s where
  fits := h.toFits
  step := by
    intro data pos _ _
    have hother := h.other
    simp only [mem_cons, not_mem_nil, or_false, not_or] at hother
    obtain ⟨hpool, hmap, hstart, hend, hcdata⟩ := hother
    have hreads : ¬ s.document.reads p.chunk := s.document.not_reads rfl hpool hmap
    have hstart' : ¬ p.chunk.1 = startElementType := hstart
    have hcdata' : ¬ p.chunk.1 = cdataType := hcdata
    have hend' : ¬ p.chunk.1 = endElementType := hend
    rw [Nodes.chunk, if_neg hreads, if_neg hstart', if_neg hcdata', if_neg hend']

theorem Pool.takes {pool : Pool} (hfits : pool.Fits) (hcount : pool.strings.length ≤ maxStrings) :
    Takes Nodes.chunk pool.piece ⟨⟨[], ids⟩, nodes, stack⟩ ⟨⟨pool.strings, ids⟩, nodes, stack⟩ where
  fits := hfits.piece
  step := by
    intro data pos hsize h
    exact Nodes.chunk_reads (.inl ⟨rfl, rfl⟩) (Document.take_pool hfits hcount hsize h)

/-- A pool of too many strings stops the reader. -/
theorem Pool.stops {pool : Pool} (hfits : pool.Fits) (hcount : maxStrings < pool.strings.length) :
    Stops Nodes.chunk (.refused ("string pool holds over " ++ toString maxStrings ++ " strings"))
      [pool.piece] ⟨⟨[], ids⟩, nodes, stack⟩ := by
  refine ⟨[], pool.piece, [], _, rfl, rfl, hfits.piece, fun data pos hsize h ↦ ?_⟩
  have hreads : Document.reads ⟨[], ids⟩ pool.piece.chunk := .inl ⟨rfl, rfl⟩
  rw [Nodes.chunk, if_pos hreads, Document.take_over hfits hsize hcount h]
  rfl

theorem IdMap.takes {m : IdMap} (hheader : m.piece.header < 2 ^ 16) :
    Takes Nodes.chunk m.piece ⟨⟨strings, ids⟩, nodes, stack⟩ ⟨⟨strings, m.ids⟩, nodes, stack⟩ where
  fits := IdMap.fits hheader
  step := fun _ _ _ h ↦ Nodes.chunk_reads (.inr rfl) (Document.take_idMap strings h)

/-- The node of an element that has no text yet. -/
def Head.node (head : Head) (strings : List String) (ids : List UInt32) (parent : Option ℕ) :
    XmlNode where
  name := strings[head.name]?.getD ""
  parent := parent
  attributes := head.attributes.map fun a ↦ (Attr.nameIn strings ids a.name, a.value.text strings)
  text := ""

theorem Head.Fits.takes_start {head : Head} (hfits : head.Fits strings)
    (hattributes : head.attributes.length ≤ maxAttributes) (hcount : strings.length ≤ maxStrings)
    (hnodes : nodes.length < maxNodes) (hstack : stack.length < maxDepth) :
    Takes Nodes.chunk head.startPiece ⟨⟨strings, ids⟩, nodes, stack⟩
      ⟨⟨strings, ids⟩, nodes ++ [head.node strings ids stack.head?], nodes.length :: stack⟩ where
  fits := ⟨show startElementType < 2 ^ 16 by decide, hfits.startHeader⟩
  step := by
    intro data pos _ h
    have hname : le32 data (pos + head.startPiece.header + 4) = some (UInt32.ofNat head.name) :=
      le32_of_holds (Piece.holds_body h).right.left
    have hread := attributes_startPiece ⟨strings, ids⟩ hfits
      (hattributes.trans_lt (by decide : maxAttributes < 2 ^ 16)) h
    have hbudget : ¬ (maxNodes ≤ nodes.length ∨ maxDepth ≤ stack.length) := by omega
    have hmap : (head.attributes.map (Document.read ⟨strings, ids⟩)).map
        (fun a ↦ (a.name, a.value)) = head.attributes.map fun a ↦ (Attr.nameIn strings ids a.name, a.value.text strings) := by
      rw [map_map]
      refine map_congr_left fun a ha ↦ ?_
      obtain ⟨hindex, hvalue⟩ := hfits.attributes a ha
      exact Prod.ext (attributeName_index hindex hcount)
        (value_text hvalue hcount (UInt32.ofNat a.name))
    refine (Nodes.chunk_start rfl).trans ?_
    refine Except.bind_ok.2 ⟨(), Except.ensure_ok.2 hbudget, ?_⟩
    refine Except.bind_ok.2 ⟨_, congrArg (orRefuse _) hname, ?_⟩
    refine Except.bind_ok.2 ⟨_, congrArg (orRefuse _) hread, ?_⟩
    refine Except.bind_ok.2 ⟨(), Except.ensure_ok.2 (by rwa [length_map]), ?_⟩
    rw [string_index hfits.name hcount, hmap]
    rfl

/-- A node with more text. -/
def XmlNode.addText (node : XmlNode) (text : String) : XmlNode :=
  { node with text := node.text ++ text }

theorem TextRef.takes {t : TextRef} {i : ℕ} {node : XmlNode} (hheader : t.piece.header < 2 ^ 16)
    (hindex : t.index < strings.length) (hcount : strings.length ≤ maxStrings)
    (hnode : nodes[i]? = some node)
    (htext : (node.text ++ strings[t.index]?.getD "").utf8ByteSize ≤ maxText) :
    Takes Nodes.chunk t.piece ⟨⟨strings, ids⟩, nodes, i :: stack⟩
      ⟨⟨strings, ids⟩, nodes.set i (node.addText (strings[t.index]?.getD "")), i :: stack⟩ where
  fits := ⟨show cdataType < 2 ^ 16 by decide, hheader⟩
  step := by
    intro data pos _ h
    have hread : le32 data (pos + t.piece.header) = some (UInt32.ofNat t.index) :=
      le32_of_holds (Piece.holds_body h).left
    rw [String.utf8ByteSize_append] at htext
    refine (Nodes.chunk_cdata rfl).trans ?_
    refine Except.bind_ok.2 ⟨i, rfl, Except.bind_ok.2 ⟨_, congrArg (orRefuse _) hread, ?_⟩⟩
    rw [string_index hindex hcount]
    refine Except.bind_ok.2 ⟨node, congrArg at? hnode, ?_⟩
    exact Except.bind_ok.2 ⟨(), Except.ensure_ok.2 htext, rfl⟩

theorem Head.Fits.takes_end {head : Head} (hfits : head.Fits strings)
    (hcount : strings.length ≤ maxStrings) {i : ℕ} {node : XmlNode} (hnode : nodes[i]? = some node)
    (hname : node.name = strings[head.name]?.getD "") :
    Takes Nodes.chunk head.endPiece ⟨⟨strings, ids⟩, nodes, i :: stack⟩
      ⟨⟨strings, ids⟩, nodes, stack⟩ where
  fits := ⟨show endElementType < 2 ^ 16 by decide, hfits.endHeader⟩
  step := by
    intro data pos _ h
    have hread : le32 data (pos + head.endPiece.header + 4) = some (UInt32.ofNat head.name) :=
      le32_of_holds (Piece.holds_body h).right
    refine (Nodes.chunk_close rfl).trans ?_
    refine Except.bind_ok.2 ⟨_, congrArg (orRefuse _) hread, Except.bind_ok.2 ⟨i, rfl, ?_⟩⟩
    rw [string_index hfits.name hcount]
    refine Except.bind_ok.2 ⟨node, congrArg at? hnode, ?_⟩
    exact Except.bind_ok.2 ⟨(), Except.ensure_ok.2 hname, rfl⟩

end Pieces

/-! ## Elements -/

namespace Tree

section Elements

variable {strings : List String} {ids : List UInt32}

mutual

theorem length_nodes (parent : Option ℕ) (index : ℕ) (t : Tree) :
    (t.nodes strings ids parent index).length = t.count := by
  match t with
  | element head contents => rw [nodes, length_cons, length_nodesAll, count]
  | text t => rfl
  | other p => rfl

theorem length_nodesAll (parent : Option ℕ) (index : ℕ) (ts : List Tree) :
    (nodesAll strings ids parent index ts).length = countAll ts := by
  match ts with
  | [] => rw [nodesAll, countAll]; rfl
  | t :: ts => rw [nodesAll, length_append, length_nodes, length_nodesAll, countAll]

end

variable {ns : List XmlNode} {stack : List ℕ}

theorem set_nodes (head : Head) (contents : List Tree) (parent : Option ℕ) :
    (ns ++ [head.node strings ids parent]).set ns.length
        ((head.node strings ids parent).addText (ownText strings contents)) ++
        nodesAll strings ids (some ns.length) (ns ++ [head.node strings ids parent]).length contents =
      ns ++ (element head contents).nodes strings ids parent ns.length := by
  have hempty : "" ++ ownText strings contents = ownText strings contents := String.empty_append
  rw [set_append_right _ _ (le_refl _), Nat.sub_self, set_cons_zero, append_assoc,
    length_append, nodes, XmlNode.addText, Head.node, hempty]
  rfl

/-- An element adds its nodes, when what is in it adds its own. -/
theorem takes_element {head : Head} {contents : List Tree}
    (hfits : (element head contents).Fits strings) (hcount : strings.length ≤ maxStrings)
    (hnodes : ns.length < maxNodes) (hstack : stack.length < maxDepth)
    (hcontents : TakesAll Nodes.chunk (piecesAll contents)
      ⟨⟨strings, ids⟩, ns ++ [head.node strings ids stack.head?], ns.length :: stack⟩
      ⟨⟨strings, ids⟩, (ns ++ [head.node strings ids stack.head?]).set ns.length
          ((head.node strings ids stack.head?).addText (ownText strings contents)) ++
        nodesAll strings ids (some ns.length) (ns ++ [head.node strings ids stack.head?]).length
          contents, ns.length :: stack⟩) :
    TakesAll Nodes.chunk (element head contents).pieces ⟨⟨strings, ids⟩, ns, stack⟩
      ⟨⟨strings, ids⟩, ns ++ (element head contents).nodes strings ids stack.head? ns.length,
        stack⟩ := by
  rw [Fits] at hfits
  obtain ⟨hhead, hattributes, -, -⟩ := hfits
  have hopen (node : XmlNode) (rest : List XmlNode) :
      (ns ++ node :: rest)[ns.length]? = some node := by
    rw [getElem?_append_right (le_refl _), Nat.sub_self]
    rfl
  rw [set_nodes, nodes] at hcontents
  rw [pieces, nodes]
  refine ⟨_, hhead.takes_start hattributes hcount hnodes hstack, hcontents.append (Takes.all ?_)⟩
  exact hhead.takes_end hcount (hopen _ _) rfl

theorem ownText_element (head : Head) (contents ts : List Tree) :
    ownText strings (element head contents :: ts) = ownText strings ts := rfl

theorem ownText_other (p : Piece) (ts : List Tree) :
    ownText strings (other p :: ts) = ownText strings ts := rfl

/-- **What is in an element** adds its text to the element's node and its nodes after those
before. -/
theorem takes_all (ts : List Tree) {ns : List XmlNode} {stack : List ℕ} {i : ℕ} {node : XmlNode}
    (hfits : FitsAll strings ts)
    (hcount : strings.length ≤ maxStrings) (hnodes : ns.length + countAll ts ≤ maxNodes)
    (hstack : (i :: stack).length + depthAll ts ≤ maxDepth) (hnode : ns[i]? = some node)
    (htext : (node.text ++ ownText strings ts).utf8ByteSize ≤ maxText) :
    TakesAll Nodes.chunk (piecesAll ts) ⟨⟨strings, ids⟩, ns, i :: stack⟩
      ⟨⟨strings, ids⟩, ns.set i (node.addText (ownText strings ts)) ++
        nodesAll strings ids (some i) ns.length ts, i :: stack⟩ := by
  obtain ⟨hi, hget⟩ := List.getElem?_eq_some_iff.1 hnode
  match ts with
  | [] =>
    have hsame : node.addText "" = node := by rw [XmlNode.addText, String.append_empty]
    rw [ownText, hsame, nodesAll, List.append_nil, ← hget, List.set_getElem_self]
    exact rfl
  | element head contents :: ts =>
    rw [FitsAll] at hfits
    rw [countAll, count] at hnodes
    rw [depthAll, depth] at hstack
    rw [ownText_element] at htext ⊢
    obtain ⟨hhead, hrest⟩ := hfits
    obtain ⟨-, -, hown, hinside⟩ : head.Fits strings ∧ head.attributes.length ≤ maxAttributes ∧
        (ownText strings contents).utf8ByteSize ≤ maxText ∧ FitsAll strings contents := by
      rwa [Fits] at hhead
    have hbudget : ("" ++ ownText strings contents).utf8ByteSize ≤ maxText := by
      rwa [String.empty_append]
    have hinner : ns.length < maxNodes ∧ (i :: stack).length < maxDepth := by omega
    have hdeep : (ns.length :: i :: stack).length + depthAll contents ≤ maxDepth := by
      rw [List.length_cons]
      omega
    have hmany (n : XmlNode) : (ns ++ [n]).length + countAll contents ≤ maxNodes := by
      rw [List.length_append, List.length_singleton]
      omega
    have helement := takes_element hhead hcount hinner.1 hinner.2
      (takes_all contents hinside hcount (hmany _) hdeep List.getElem?_concat_length hbudget)
    set added := (element head contents).nodes strings ids (some i) ns.length with hadds
    have hlength : (ns ++ added).length = ns.length + (element head contents).count := by
      rw [List.length_append, hadds, length_nodes]
    have hafter : (ns ++ added)[i]? = some node := by rwa [List.getElem?_append_left hi]
    have hts : TakesAll Nodes.chunk (piecesAll ts) ⟨⟨strings, ids⟩, ns ++ added, i :: stack⟩ _ :=
      takes_all ts hrest hcount (by rw [hlength, count]; omega) (by omega) hafter htext
    rw [List.set_append_left _ _ hi, hlength, List.append_assoc] at hts
    rw [piecesAll, nodesAll, ← hadds]
    exact helement.append hts
  | text t :: ts =>
    rw [FitsAll, Fits] at hfits
    simp only [countAll, count, Nat.zero_add] at hnodes
    simp only [depthAll, depth, Nat.zero_max] at hstack
    rw [ownText] at htext ⊢
    obtain ⟨⟨hheader, hindex⟩, hrest⟩ := hfits
    set value := strings[t.index]?.getD "" with hvalue
    have hbudget : (node.text ++ value).utf8ByteSize ≤ maxText := by
      rw [← String.append_assoc, String.utf8ByteSize_append] at htext
      omega
    have hts : TakesAll Nodes.chunk (piecesAll ts)
        ⟨⟨strings, ids⟩, ns.set i (node.addText value), i :: stack⟩ _ :=
      takes_all ts hrest hcount (by rwa [List.length_set]) hstack (List.getElem?_set_self hi)
        (by rwa [XmlNode.addText, String.append_assoc])
    have htwice : (node.addText value).addText (ownText strings ts) =
        node.addText (value ++ ownText strings ts) := by
      simp only [XmlNode.addText, String.append_assoc]
    rw [List.set_set, htwice, List.length_set] at hts
    simp only [piecesAll, pieces, nodesAll, nodes, count, List.nil_append]
    exact ⟨_, TextRef.takes hheader hindex hcount hnode hbudget, hts⟩
  | other p :: ts =>
    rw [FitsAll] at hfits
    rw [ownText_other] at htext ⊢
    simp only [countAll, count, Nat.zero_add] at hnodes
    simp only [depthAll, depth, Nat.zero_max] at hstack
    simp only [piecesAll, pieces, nodesAll, nodes, count, List.nil_append]
    exact ⟨_, hfits.1.takes _, takes_all ts hfits.2 hcount hnodes hstack hnode htext⟩
termination_by sizeOf ts

end Elements

end Tree

/-! ## Documents -/

namespace Doc

variable {doc : Doc}

theorem Fits.takes_root (hfits : doc.Fits) (hcount : doc.pool.strings.length ≤ maxStrings) :
    TakesAll Nodes.chunk doc.root.pieces ⟨⟨doc.pool.strings, doc.ids⟩, [], []⟩
      ⟨⟨doc.pool.strings, doc.ids⟩, doc.nodes, []⟩ := by
  have hroot := hfits.root
  have hdepth := hfits.depth
  have hnodes := hfits.count
  rw [Doc.root, Tree.Fits] at hroot
  rw [Doc.root, Tree.depth] at hdepth
  rw [Doc.root, Tree.count] at hnodes
  obtain ⟨-, -, hown, hinside⟩ := hroot
  have hbudget : ("" ++ Tree.ownText doc.pool.strings doc.contents).utf8ByteSize ≤ maxText := by
    rwa [String.empty_append]
  refine Tree.takes_element hfits.root hcount (by decide) (by decide) ?_
  refine Tree.takes_all doc.contents hinside hcount ?_ ?_ getElem?_concat_length hbudget
  · rwa [nil_append, length_singleton, Nat.add_comm]
  · rwa [length_singleton, Nat.add_comm]

theorem Fits.takes (hfits : doc.Fits) (hcount : doc.pool.strings.length ≤ maxStrings) :
    TakesAll Nodes.chunk doc.pieces Nodes.init
      ⟨⟨doc.pool.strings, doc.ids⟩, doc.nodes, []⟩ := by
  have hunknown := hfits.unknown
  simp only [forall_mem_append] at hunknown
  obtain ⟨⟨⟨hbefore, hbetween⟩, hmiddle⟩, hafter⟩ := hunknown
  have hids : TakesAll Nodes.chunk (doc.idMap.map IdMap.piece).toList
      ⟨⟨doc.pool.strings, []⟩, [], []⟩ ⟨⟨doc.pool.strings, doc.ids⟩, [], []⟩ := by
    have hheader := hfits.idMap
    rw [ids]
    rcases hmap : doc.idMap with _ | m
    · exact rfl
    · exact (IdMap.takes (hheader m hmap)).all
  refine (TakesAll.same fun p hp ↦ (hbefore p hp).takes _).append ?_
  refine ⟨_, Pool.takes hfits.pool hcount, ?_⟩
  refine (TakesAll.same fun p hp ↦ (hbetween p hp).takes _).append (hids.append ?_)
  refine (TakesAll.same fun p hp ↦ (hmiddle p hp).takes _).append ?_
  exact (hfits.takes_root hcount).append (TakesAll.same fun p hp ↦ (hafter p hp).takes _)

/-- Where the chunks of a document are. -/
theorem chunk_bytes (hsize : doc.piece.size < 2 ^ 32) (hheader : doc.piece.header < 2 ^ 16) :
    chunk doc.bytes 0 doc.bytes.length = .ok doc.piece.chunk ∧
      Holds doc.bytes doc.piece.header (doc.pieces.flatMap Piece.bytes) ∧
      doc.piece.header + (doc.pieces.flatMap Piece.bytes).length = doc.piece.size := by
  have hkind : doc.piece.Fits := ⟨show xmlType < 2 ^ 16 by decide, hheader⟩
  have hdata : Holds doc.bytes 0 doc.piece.bytes := by
    have hself := holds_self doc.piece.bytes []
    rwa [append_nil] at hself
  have hlength : doc.bytes.length = doc.piece.size := doc.piece.length_bytes
  have hbody := Piece.holds_body hdata
  rw [Nat.zero_add] at hbody
  exact ⟨chunk_piece hkind hsize hdata (by rw [hlength, Nat.zero_add]), hbody, rfl⟩

/-- **A document is read back.** -/
theorem Fits.xmlNodes_bytes (hfits : doc.Fits) (hcount : doc.pool.strings.length ≤ maxStrings) :
    xmlNodes doc.bytes = .ok doc.nodes := by
  obtain ⟨hchunk, hbody, hend⟩ := chunk_bytes hfits.size hfits.header
  have hwalk := walkChunks_takes (hfits.takes hcount) hbody hfits.size (le_of_eq hend)
  rw [hend, walkChunks_end] at hwalk
  have hsome : doc.nodes ≠ [] := by
    rw [nodes, Doc.root, Tree.nodes]
    exact cons_ne_nil _ _
  refine Except.bind_ok.2 ⟨doc.piece.chunk, hchunk, ?_⟩
  refine Except.bind_ok.2 ⟨(), Except.ensure_ok.2 rfl, ?_⟩
  refine Except.bind_ok.2 ⟨_, hwalk, Except.bind_ok.2 ⟨(), Except.ensure_ok.2 ?_, rfl⟩⟩
  rintro (hpos | hstack | hnone)
  · exact hpos rfl
  · exact hstack rfl
  · exact hsome hnone

/-- A document whose pool has too many strings is refused. -/
theorem Fits.xmlNodes_over (hfits : doc.Fits) (hcount : maxStrings < doc.pool.strings.length) :
    xmlNodes doc.bytes =
      .error (.refused ("string pool holds over " ++ toString maxStrings ++ " strings")) := by
  obtain ⟨hchunk, hbody, hend⟩ := chunk_bytes hfits.size hfits.header
  have hbefore : TakesAll Nodes.chunk doc.before Nodes.init Nodes.init :=
    .same fun p hp ↦ (hfits.unknown p (by simp [hp])).takes _
  have hstops : Stops Nodes.chunk _ doc.pieces Nodes.init :=
    hbefore.stops ((Pool.stops hfits.pool hcount).append_right _)
  have hwhole : walkChunks (Nodes.chunk doc.bytes) doc.bytes doc.piece.chunk.2.2
      doc.piece.chunk.2.1 Nodes.init = _ :=
    walkChunks_stops hstops hbody hfits.size (le_of_eq hend)
  rw [xmlNodes, hchunk]
  simp only [bind, Except.bind, hwhole]
  rfl

end Doc

end Huntsman.Axml
