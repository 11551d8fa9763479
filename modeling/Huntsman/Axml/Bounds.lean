import Huntsman.Axml.Manifest
import Huntsman.Axml.RoundTrip

/-!
# No range out of bounds

Whatever the bytes are, a reader takes no range and no index that is not there.  A chunk that is
walked over is within the bytes (`chunk_ok`), and with that the pool and the map are; an element
that is open is one of the nodes.
-/

set_option autoImplicit false

namespace Huntsman.Axml

open Bytes Except
open Apk (le16 le32)

variable {data : List UInt8} {pos size : ℕ}

theorem refused_ne (reason : String) : Fault.refused reason ≠ .outOfBounds := nofun

theorem avoids_check {p : Prop} [Decidable p] (reason : String) :
    Avoids .outOfBounds (ensure p (Fault.refused reason)) :=
  avoids_ensure (refused_ne reason)

theorem orRefuse_ok {α : Type} {reason : String} {o : Option α} {a : α} :
    orRefuse reason o = .ok a ↔ o = some a := by
  rcases o with _ | b <;> simp [orRefuse]

theorem avoids_orRefuse {α : Type} (reason : String) (o : Option α) :
    Avoids .outOfBounds (orRefuse reason o) := by
  rcases o with _ | a
  · exact avoids_error (refused_ne reason)
  · exact avoids_ok a

theorem avoids_range {a b : ℕ} (h : a ≤ b) (hb : b ≤ data.length) :
    Avoids .outOfBounds (range data a b) := by
  rw [range, slice, if_pos ⟨h, hb⟩]
  exact avoids_ok _

theorem avoids_chunk (limit : ℕ) : Avoids .outOfBounds (chunk data pos limit) := by
  refine (avoids_orRefuse _ _).bind fun kind _ ↦ (avoids_orRefuse _ _).bind fun header _ ↦ ?_
  refine (avoids_orRefuse _ _).bind fun size _ ↦ ?_
  exact (avoids_check _).bind fun _ _ ↦ avoids_ok _

/-- **The rule for walks**: what every chunk within the bytes keeps holds at the end. -/
theorem walkChunks_avoids {σ : Type} {step : ℕ → Chunk → σ → Except Fault σ} (Inv : σ → Prop)
    (keeps : ∀ pos c s, c.2.1 ≤ c.2.2 → pos + c.2.2 ≤ size → Inv s →
      Avoids .outOfBounds (step pos c s) ∧ ∀ s', step pos c s = .ok s' → Inv s') (s : σ)
    (h : Inv s) : Avoids .outOfBounds (walkChunks step data size pos s) := by
  fun_induction walkChunks step data size pos s with
  | case1 pos s hpos e hchunk => exact avoids_error ((avoids_chunk size).ne hchunk)
  | case2 pos s hpos c hchunk e hstep =>
    obtain ⟨-, hheader, hsize⟩ := chunk_ok hchunk
    exact avoids_error ((keeps pos c s hheader hsize h).1.ne hstep)
  | case3 pos s hpos c hchunk s' hstep ih =>
    obtain ⟨-, hheader, hsize⟩ := chunk_ok hchunk
    exact ih ((keeps pos c s hheader hsize h).2 s' hstep)
  | case4 pos s hpos => exact avoids_ok _

theorem avoids_poolEntry {header stringsStart i : ℕ} {utf8 : Bool}
    (hsize : pos + size ≤ data.length) :
    Avoids .outOfBounds (poolEntry data pos header size stringsStart utf8 i) := by
  refine (avoids_orRefuse _ _).bind fun offset _ ↦ ?_
  dsimp only
  split
  · exact (avoids_range (Nat.zero_le _) hsize).bind fun body _ ↦ avoids_ok _
  · exact avoids_ok _

theorem avoids_stringPool {header : ℕ} (hsize : pos + size ≤ data.length) :
    Avoids .outOfBounds (stringPool data pos header size) := by
  refine (avoids_orRefuse _ _).bind fun count _ ↦ (avoids_orRefuse _ _).bind fun flags _ ↦ ?_
  refine (avoids_orRefuse _ _).bind fun stringsStart _ ↦ ?_
  exact (avoids_check _).bind fun _ _ ↦ avoids_mapM fun i _ ↦ avoids_poolEntry hsize

theorem avoids_take (document : Document) {c : Chunk} (hheader : c.2.1 ≤ c.2.2)
    (hsize : pos + c.2.2 ≤ data.length) : Avoids .outOfBounds (document.take data pos c) := by
  rw [Document.take]
  split
  · exact (avoids_stringPool hsize).bind fun strings _ ↦ avoids_ok _
  · exact (avoids_range (by omega) hsize).bind fun ids _ ↦ avoids_ok _

/-! ## Nodes -/

namespace Nodes

/-- Every open element is one of the nodes. -/
def Inv (s : Nodes) : Prop := ∀ i ∈ s.stack, i < s.nodes.length

theorem avoids_node {s : Nodes} {i : ℕ} (h : s.Inv) (hi : s.stack.head? = some i) :
    Avoids .outOfBounds (at? s.nodes[i]?) := by
  have hlt := h i (List.mem_of_mem_head? hi)
  rw [List.getElem?_eq_getElem hlt]
  exact avoids_ok _

theorem start_keeps {s : Nodes} {header : ℕ} (h : s.Inv) :
    Avoids .outOfBounds (s.start data pos header) ∧
      ∀ s', s.start data pos header = .ok s' → s'.Inv := by
  constructor
  · refine (avoids_check _).bind fun _ _ ↦ ?_
    refine (avoids_orRefuse _ _).bind fun name _ ↦ (avoids_orRefuse _ _).bind fun attributes _ ↦ ?_
    exact (avoids_check _).bind fun _ _ ↦ avoids_ok _
  · intro s' hs
    simp only [start, bind_ok] at hs
    obtain ⟨-, -, name, -, attributes, -, -, -, hs⟩ := hs
    cases hs
    intro i hi
    rw [List.length_append, List.length_singleton]
    rcases List.mem_cons.1 hi with rfl | hi
    · exact Nat.lt_succ_self _
    · exact Nat.lt_succ_of_lt (h i hi)

theorem cdata_keeps {s : Nodes} {header : ℕ} (h : s.Inv) :
    Avoids .outOfBounds (s.cdata data pos header) ∧
      ∀ s', s.cdata data pos header = .ok s' → s'.Inv := by
  constructor
  · refine (avoids_orRefuse _ _).bind fun i hi ↦ (avoids_orRefuse _ _).bind fun index _ ↦ ?_
    exact (avoids_node h (orRefuse_ok.1 hi)).bind fun node _ ↦
      (avoids_check _).bind fun _ _ ↦ avoids_ok _
  · intro s' hs
    simp only [cdata, bind_ok] at hs
    obtain ⟨i, -, index, -, node, -, -, -, hs⟩ := hs
    cases hs
    intro j hj
    rw [List.length_set]
    exact h j hj

theorem close_keeps {s : Nodes} {header : ℕ} (h : s.Inv) :
    Avoids .outOfBounds (s.close data pos header) ∧
      ∀ s', s.close data pos header = .ok s' → s'.Inv := by
  constructor
  · refine (avoids_orRefuse _ _).bind fun index _ ↦ (avoids_orRefuse _ _).bind fun i hi ↦ ?_
    exact (avoids_node h (orRefuse_ok.1 hi)).bind fun node _ ↦
      (avoids_check _).bind fun _ _ ↦ avoids_ok _
  · intro s' hs
    simp only [close, bind_ok] at hs
    obtain ⟨index, -, i, -, node, -, -, -, hs⟩ := hs
    cases hs
    exact fun j hj ↦ h j (List.mem_of_mem_tail hj)

/-- One chunk: a case for each type. -/
theorem chunk_keeps {s : Nodes} {c : Chunk} (hheader : c.2.1 ≤ c.2.2)
    (hsize : pos + c.2.2 ≤ data.length) (h : s.Inv) :
    Avoids .outOfBounds (chunk data pos c s) ∧ ∀ s', chunk data pos c s = .ok s' → s'.Inv := by
  rw [chunk]
  split
  · refine ⟨(avoids_take s.document hheader hsize).bind fun _ _ ↦ avoids_ok _, fun s' hs ↦ ?_⟩
    obtain ⟨document, -, hs⟩ := bind_ok.1 hs
    cases hs
    exact h
  · split
    · exact start_keeps h
    · split
      · exact cdata_keeps h
      · split
        · exact close_keeps h
        · refine ⟨avoids_ok _, fun s' hs ↦ ?_⟩
          cases hs
          exact h

end Nodes

theorem xmlNodes_avoids (data : List UInt8) : Avoids .outOfBounds (xmlNodes data) := by
  refine (avoids_chunk data.length).bind fun c hc ↦ (avoids_check _).bind fun _ _ ↦ ?_
  obtain ⟨-, -, hsize⟩ := chunk_ok hc
  have hwalk : Avoids .outOfBounds (walkChunks (Nodes.chunk data) data c.2.2 c.2.1 Nodes.init) := by
    refine walkChunks_avoids Nodes.Inv (fun pos d s hheader hend h ↦ ?_) _ fun i hi ↦ nomatch hi
    exact Nodes.chunk_keeps hheader (by omega) h
  exact hwalk.bind fun last _ ↦ (avoids_check _).bind fun _ _ ↦ avoids_ok _

/-! ## The manifest -/

namespace Elements

theorem avoids_chunk {s : Elements} {c : Chunk} (hheader : c.2.1 ≤ c.2.2)
    (hsize : pos + c.2.2 ≤ data.length) : Avoids .outOfBounds (chunk data pos c s) := by
  rw [chunk]
  split
  · exact (avoids_take s.document hheader hsize).bind fun _ _ ↦ avoids_ok _
  · split
    · refine (avoids_orRefuse _ _).bind fun name _ ↦ (avoids_orRefuse _ _).bind fun attributes _ ↦ ?_
      exact (avoids_check _).bind fun _ _ ↦ avoids_ok _
    · split <;> exact avoids_ok _

end Elements

theorem manifest_avoids (data : List UInt8) : Avoids .outOfBounds (manifest data) := by
  have hfirst : Avoids .outOfBounds ((chunk data 0 data.length).mapError fun _ ↦
      Fault.refused "not Android binary XML") := by
    rcases chunk data 0 data.length with e | c
    · exact avoids_error (refused_ne _)
    · exact avoids_ok c
  refine hfirst.bind fun c hc ↦ (avoids_check _).bind fun _ _ ↦ ?_
  have hchunk : chunk data 0 data.length = .ok c := by
    rcases hchunk : chunk data 0 data.length with e | d
    · rw [hchunk] at hc
      exact nomatch hc
    · rw [hchunk] at hc
      exact hc
  obtain ⟨-, -, hsize⟩ := chunk_ok hchunk
  have hwalk : Avoids .outOfBounds
      (walkChunks (Elements.chunk data) data c.2.2 c.2.1 Elements.init) := by
    refine walkChunks_avoids (fun _ ↦ True) (fun pos d s hheader hend _ ↦ ?_) _ trivial
    exact ⟨Elements.avoids_chunk hheader (by omega), fun _ _ ↦ trivial⟩
  exact hwalk.bind fun last _ ↦ (avoids_check _).bind fun _ _ ↦ avoids_ok _

end Huntsman.Axml
