import Huntsman.Apk.Archive
import Huntsman.Ledger
import Huntsman.Lib.Reading

/-!
# Native libraries

A native library is an ELF file, and what it says about itself is read from it without loading it:
its build id, from a note, and the names of the library and of those it needs, from its dynamic
section.  The names stand in a string table that the dynamic section gives by its address, and the
program header that loads the address says where in the file it is.

Offsets, sizes and addresses are `u64` that the file may have made up, and `usize` is a `u64` too.
What the source adds with a check is `checkedAdd` here, and what it adds without one is `add`, which
stops at an overflow.
-/

set_option autoImplicit false

namespace Huntsman.Apk.Elf

open Bytes List Reading

/-- What a reading must not end with: a sum that is no `u64`, a difference below zero, a range out
of bounds, a loop that is not left. -/
inductive Fault where
  | overflow
  | outOfBounds
  | endless
deriving DecidableEq

abbrev Read : Type → Type := Reading Fault

/-- A slice of bytes, which is never longer than `isize::MAX`. -/
abbrev File : Type := {data : List UInt8 // data.length < 2 ^ 63}

/-! ## Arithmetic -/

def checkedAdd (a b : ℕ) : Option ℕ := if a + b < 2 ^ 64 then some (a + b) else none

def checkedMul (a b : ℕ) : Option ℕ := if a * b < 2 ^ 64 then some (a * b) else none

def saturatingMul (a b : ℕ) : ℕ := min (a * b) (2 ^ 64 - 1)

/-- `a + b` -/
def add (a b : ℕ) : Read ℕ := if a + b < 2 ^ 64 then pure (a + b) else stop .overflow

/-- `a - b` -/
def sub (a b : ℕ) : Read ℕ := if b ≤ a then pure (a - b) else stop .overflow

/-- `a * b` -/
def mul (a b : ℕ) : Read ℕ := if a * b < 2 ^ 64 then pure (a * b) else stop .overflow

/-- `&data[a..b]` -/
def range (data : List UInt8) (a b : ℕ) : Read (List UInt8) :=
  match slice data a b with
  | some part => pure part
  | none => stop .outOfBounds

def index (value : ℕ) : Option ℕ := if value < 2 ^ 64 then some value else none

def le16 (data : List UInt8) (pos : ℕ) : Option ℕ := (Apk.le16 data pos).map UInt16.toNat

def le32 (data : List UInt8) (pos : ℕ) : Option ℕ := (Apk.le32 data pos).map UInt32.toNat

def le64 (data : List UInt8) (pos : ℕ) : Option ℕ := (Apk.le64 data pos).map UInt64.toNat

/-! ## Headers -/

def ptLoad : ℕ := 1

def ptDynamic : ℕ := 2

def ptNote : ℕ := 4

def ntGnuBuildId : ℕ := 3

def dtNull : ℕ := 0

def dtNeeded : ℕ := 1

def dtStrtab : ℕ := 5

def dtStrsz : ℕ := 10

def dtSoname : ℕ := 14

def maxBuildIdBytes : ℕ := 64

def maxProgramHeaders : ℕ := 256

def maxDynamicEntries : ℕ := 8192

def maxNeeded : ℕ := 64

def maxLibNameBytes : ℕ := 256

structure ProgramHeader where
  kind : ℕ
  offset : ℕ
  size : ℕ
  vaddr : ℕ
deriving DecidableEq

structure Layout where
  is64 : Bool
  phoff : ℕ
  phentsize : ℕ
  phnum : ℕ
deriving DecidableEq

/-- `\x7fELF` -/
def magic : List UInt8 := [0x7f, 0x45, 0x4c, 0x46]

def layout (data : List UInt8) : Option Layout := do
  let start ← slice data 0 4
  if start ≠ magic then none
  else
    let elfClass ← data[4]?
    let endianness ← data[5]?
    if endianness ≠ 1 then none
    else if elfClass = 1 then do
      let phoff ← index (← le32 data 28)
      let phentsize ← le16 data 42
      let phnum ← le16 data 44
      return ⟨false, phoff, phentsize, phnum⟩
    else if elfClass = 2 then do
      let phoff ← index (← le64 data 32)
      let phentsize ← le16 data 54
      let phnum ← le16 data 56
      return ⟨true, phoff, phentsize, phnum⟩
    else none

/-- The size a program header has at least. -/
def headerSize (is64 : Bool) : ℕ := if is64 then 56 else 32

def programHeader (data : List UInt8) (pos : ℕ) (is64 : Bool) : Read ProgramHeader :=
  if is64 then do
    let kind ← found (le32 data pos)
    let offset ← found ((le64 data (← add pos 8)).bind index)
    let vaddr ← found (le64 data (← add pos 16))
    let size ← found ((le64 data (← add pos 32)).bind index)
    return ⟨kind, offset, size, vaddr⟩
  else do
    let kind ← found (le32 data pos)
    let offset ← found ((le32 data (← add pos 4)).bind index)
    let vaddr ← found (le32 data (← add pos 8))
    let size ← found ((le32 data (← add pos 16)).bind index)
    return ⟨kind, offset, size, vaddr⟩

/-- The program headers from the `i`th on, `n` of them. -/
def programHeadersFrom (data : List UInt8) (l : Layout) : ℕ → ℕ → Read (List ProgramHeader)
  | 0, _ => pure []
  | n + 1, i =>
    match checkedAdd l.phoff (saturatingMul i l.phentsize) with
    | none => pure []
    | some pos => do
      let header ← optional (programHeader data pos l.is64)
      let rest ← programHeadersFrom data l n (i + 1)
      return header.toList ++ rest

def programHeaders (data : List UInt8) (l : Layout) : Read (List ProgramHeader) :=
  programHeadersFrom data l (min l.phnum maxProgramHeaders) 0

/-- Where an address is in the file, if this header loads it. -/
def headerOffsetOf (vaddr : ℕ) (header : ProgramHeader) : Read ℕ := do
  guard (header.kind = ptLoad)
  let fin ← found (checkedAdd header.vaddr header.size)
  if header.vaddr ≤ vaddr ∧ vaddr < fin then do
    let offset ← add header.offset (← sub vaddr header.vaddr)
    found (index offset)
  else failure

def fileOffsetOf (headers : List ProgramHeader) (vaddr : ℕ) : Read ℕ :=
  headers.firstM (headerOffsetOf vaddr)

/-! ## The build id -/

/-- The build id of the notes from `pos` on, at most `fuel` of them. -/
def notesFrom (notes : List UInt8) : ℕ → ℕ → Read (List Char)
  | 0, _ => stop .endless
  | fuel + 1, pos => do
    if notes.length < (← add pos 12) then failure
    else
      let namesz ← found ((le32 notes pos).bind index)
      let descsz ← found ((le32 notes (← add pos 4)).bind index)
      let kind ← found (le32 notes (← add pos 8))
      let nameAt ← add pos 12
      let nameEnd ← found (checkedAdd nameAt namesz)
      let descAt ← found (checkedAdd nameEnd ((← sub 4 (namesz % 4)) % 4))
      let descEnd ← found (checkedAdd descAt descsz)
      if notes.length < descEnd then failure
      else if kind = ntGnuBuildId ∧ slice notes nameAt nameEnd = some [0x47, 0x4e, 0x55, 0] ∧
          1 ≤ descsz ∧ descsz ≤ maxBuildIdBytes then do
        return Ledger.base16Lower (← range notes descAt descEnd)
      else
        let pos ← found (checkedAdd descEnd ((← sub 4 (descsz % 4)) % 4))
        notesFrom notes fuel pos

def buildIdInNotes (notes : List UInt8) : Read (List Char) := notesFrom notes (notes.length + 1) 0

/-- The build id of the notes in the segments from the `i`th on, `n` of them. -/
def buildIdFrom (data : List UInt8) (l : Layout) : ℕ → ℕ → Read (List Char)
  | 0, _ => failure
  | n + 1, i => do
    let skip ← found (checkedMul i l.phentsize)
    let pos ← found (checkedAdd l.phoff skip)
    let fin ← found (checkedAdd pos l.phentsize)
    if data.length < fin then failure
    else
      let header ← programHeader data pos l.is64
      if header.kind ≠ ptNote then buildIdFrom data l n (i + 1)
      else
        let fin ← found (checkedAdd header.offset header.size)
        if data.length < fin then buildIdFrom data l n (i + 1)
        else
          let notes ← range data header.offset fin
          buildIdInNotes notes <|> buildIdFrom data l n (i + 1)

def buildId (data : List UInt8) : Read (List Char) := do
  let l ← found (layout data)
  if l.phentsize < headerSize l.is64 then failure
  else buildIdFrom data l (min l.phnum maxProgramHeaders) 0

/-! ## The dynamic section -/

structure Dynamic where
  soname : Option String
  needed : List String
deriving DecidableEq

def Dynamic.isEmpty (d : Dynamic) : Bool := d.soname.isNone && d.needed.isEmpty

def dynamicEntrySize (is64 : Bool) : ℕ := if is64 then 16 else 8

/-- A tag and a value. -/
def dynamicEntry (data : List UInt8) (pos : ℕ) (is64 : Bool) : Read (ℕ × ℕ) :=
  if is64 then do
    let tag ← found (le64 data pos)
    let value ← found (le64 data (← add pos 8))
    return (tag, value)
  else do
    let tag ← found (le32 data pos)
    let value ← found (le32 data (← add pos 4))
    return (tag, value)

/-- `u8::is_ascii_graphic` -/
def isAsciiGraphic (b : UInt8) : Bool := 33 ≤ b && b ≤ 126

/-- Where the string table ends: at the end of the file, if its size is not given. -/
def tableEnd (data : List UInt8) (strtab strsz : ℕ) : Option ℕ :=
  if strsz = 0 then some data.length else (checkedAdd strtab strsz).map (min · data.length)

/-- The name at an offset of the string table. -/
def nameAt (data : List UInt8) (strtab strsz offset : ℕ) : Option String := do
  let start ← checkedAdd strtab (← index offset)
  let bytes ← slice data start (← tableEnd data strtab strsz)
  let fin ← bytes.findIdx? (· == 0)
  if fin = 0 ∨ maxLibNameBytes < fin then none
  else
    let name ← slice bytes 0 fin
    if name.all isAsciiGraphic then Text.fromUtf8 name else none

/-- What `step` makes of the entries from the `i`th on, `n` of them, up to the one that ends
them. -/
def walkEntries {σ : Type} (data : List UInt8) (l : Layout) (segment : ProgramHeader)
    (step : σ → ℕ × ℕ → σ) : ℕ → ℕ → σ → Read σ
  | 0, _, s => pure s
  | n + 1, i, s => do
    let pos ← add segment.offset (← mul i (dynamicEntrySize l.is64))
    let entry ← dynamicEntry data pos l.is64
    if entry.1 = dtNull then pure s else walkEntries data l segment step n (i + 1) (step s entry)

/-- The first pass: the address of the string table, and its size. -/
def tableStep (s : Option ℕ × ℕ) (entry : ℕ × ℕ) : Option ℕ × ℕ :=
  if entry.1 = dtStrtab then (some entry.2, s.2)
  else if entry.1 = dtStrsz then (s.1, (index entry.2).getD 0)
  else s

/-- The second pass: the names. -/
def nameStep (data : List UInt8) (strtab strsz : ℕ) (d : Dynamic) (entry : ℕ × ℕ) : Dynamic :=
  if entry.1 = dtSoname then { d with soname := nameAt data strtab strsz entry.2 }
  else if entry.1 = dtNeeded ∧ d.needed.length < maxNeeded then
    match nameAt data strtab strsz entry.2 with
    | some name => { d with needed := d.needed ++ [name] }
    | none => d
  else d

/-- The dynamic section, and where its string table is. -/
structure Section where
  layout : Layout
  headers : List ProgramHeader
  segment : ProgramHeader
  count : ℕ
  strtabVaddr : ℕ
  strsz : ℕ
deriving DecidableEq

def dynamicSection (data : List UInt8) : Read Section := do
  let l ← found (layout data)
  if l.phentsize < headerSize l.is64 then failure
  else
    let headers ← programHeaders data l
    let segment ← found (headers.find? fun header ↦ header.kind = ptDynamic)
    let count := min (segment.size / dynamicEntrySize l.is64) maxDynamicEntries
    let (strtabVaddr, strsz) ← walkEntries data l segment tableStep count 0 (none, 0)
    let strtabVaddr ← found strtabVaddr
    return ⟨l, headers, segment, count, strtabVaddr, strsz⟩

def dynamic (data : List UInt8) : Read Dynamic := do
  let s ← dynamicSection data
  let strtab ← fileOffsetOf s.headers s.strtabVaddr
  let d ← walkEntries data s.layout s.segment (nameStep data strtab s.strsz) s.count 0 ⟨none, []⟩
  if d.isEmpty then failure else return d

/-! ## Numbers that are read -/

variable {data : List UInt8} {pos n i : ℕ}

variable {a b v strsz : ℕ}

theorem le_of_slice {part : List UInt8} (h : slice data a b = some part) :
    b ≤ data.length := by
  rw [slice] at h
  split_ifs at h with hle
  exact hle.2

theorem holds_of_slice {part start : List UInt8} (h : slice data a b = some part)
    (hstart : start <+: part) : Holds data a start := by
  have hle := hstart.length_le
  rw [slice] at h
  split_ifs at h with hin
  cases h
  rw [length_take, length_drop] at hle
  exact ⟨by omega, hstart.trans (List.take_prefix _ _)⟩

theorem le16_lt (h : le16 data pos = some v) : v < 2 ^ 16 := by
  obtain ⟨w, -, rfl⟩ := Option.map_eq_some_iff.1 h
  exact w.toNat_lt

theorem le32_le (h : le32 data pos = some v) : pos + 4 ≤ data.length := by
  obtain ⟨w, hw, rfl⟩ := Option.map_eq_some_iff.1 h
  rw [Apk.le32] at hw
  split at hw
  · rename_i hslice
    exact le_of_slice hslice
  · cases hw

theorem le64_le (h : le64 data pos = some v) : pos + 8 ≤ data.length := by
  obtain ⟨w, hw, rfl⟩ := Option.map_eq_some_iff.1 h
  rw [Apk.le64] at hw
  split at hw
  · rename_i high _ hhigh
    have hvalue : le32 data (pos + 4) = some high.toNat := by rw [le32, hhigh]; rfl
    have hle := le32_le hvalue
    omega
  · cases hw

theorem index_eq_some {o : ℕ} (h : index v = some o) : o = v ∧ o < 2 ^ 64 := by
  rw [index] at h
  split_ifs at h with hlt
  cases h
  exact ⟨rfl, hlt⟩

theorem checkedAdd_eq_some {c : ℕ} (h : checkedAdd a b = some c) : c = a + b ∧ c < 2 ^ 64 := by
  rw [checkedAdd] at h
  split_ifs at h with hlt
  cases h
  exact ⟨rfl, hlt⟩

theorem safe_add (h : a + b < 2 ^ 64) : Safe (· = a + b) (add a b) := by
  rw [add, if_pos h]
  exact .pure rfl

theorem safe_sub (h : b ≤ a) : Safe (· = a - b) (sub a b) := by
  rw [sub, if_pos h]
  exact .pure rfl

theorem safe_range (ha : a ≤ b) (hb : b ≤ data.length) :
    Safe (fun part ↦ part.length = b - a) (range data a b) := by
  rw [range, slice, if_pos ⟨ha, hb⟩]
  refine .pure ?_
  rw [length_take, length_drop]
  omega

/-! ## Headers -/

theorem layout_spec {l : Layout} (h : layout data = some l) :
    l.phoff < 2 ^ 64 ∧ l.phentsize < 2 ^ 16 := by
  simp only [layout, Option.bind_eq_bind, Option.bind_eq_some_iff] at h
  obtain ⟨start, -, h⟩ := h
  split_ifs at h
  simp only [Option.bind_eq_some_iff] at h
  obtain ⟨elfClass, -, endianness, -, h⟩ := h
  split_ifs at h <;> simp only [Option.bind_eq_some_iff] at h
  · obtain ⟨v, -, phoff, hphoff, phentsize, hphentsize, phnum, -, h⟩ := h
    cases h
    exact ⟨(index_eq_some hphoff).2, le16_lt hphentsize⟩
  · obtain ⟨v, -, phoff, hphoff, phentsize, hphentsize, phnum, -, h⟩ := h
    cases h
    exact ⟨(index_eq_some hphoff).2, le16_lt hphentsize⟩

theorem safe_index (value : Option ℕ) : Safe (· < 2 ^ 64) (found (value.bind index) : Read ℕ) :=
  .found fun _ h ↦ by
    obtain ⟨v, -, hv⟩ := Option.bind_eq_some_iff.1 h
    exact (index_eq_some hv).2

/-- **A program header is read without an overflow**, because its first field is in the file. -/
theorem safe_programHeader (hdata : data.length < 2 ^ 63) (pos : ℕ) (is64 : Bool) :
    Safe (fun header ↦ header.offset < 2 ^ 64) (programHeader data pos is64) := by
  cases is64 with
  | true =>
    rw [programHeader, if_pos rfl]
    refine Safe.bind (.found fun _ ↦ le32_le) fun kind hkind ↦ ?_
    refine Safe.bind (safe_add (by omega)) fun _ _ ↦ ?_
    refine Safe.bind (safe_index _) fun offset hoffset ↦ ?_
    refine Safe.bind (safe_add (by omega)) fun _ _ ↦ Safe.bind (.any _) fun _ _ ↦ ?_
    refine Safe.bind (safe_add (by omega)) fun _ _ ↦ Safe.bind (safe_index _) fun _ _ ↦ ?_
    exact .pure hoffset
  | false =>
    rw [programHeader, if_neg Bool.false_ne_true]
    refine Safe.bind (.found fun _ ↦ le32_le) fun kind hkind ↦ ?_
    refine Safe.bind (safe_add (by omega)) fun _ _ ↦ ?_
    refine Safe.bind (safe_index _) fun offset hoffset ↦ ?_
    refine Safe.bind (safe_add (by omega)) fun _ _ ↦ Safe.bind (.any _) fun _ _ ↦ ?_
    refine Safe.bind (safe_add (by omega)) fun _ _ ↦ Safe.bind (safe_index _) fun _ _ ↦ ?_
    exact .pure hoffset

/-- One of the program headers that are walked. -/
def HeaderAt (data : List UInt8) (l : Layout) (header : ProgramHeader) : Prop :=
  ∃ i < maxProgramHeaders, i < l.phnum ∧
    (programHeader data (l.phoff + i * l.phentsize) l.is64).run = .ok (some header)

/-- What is read is what was there to be read. -/
theorem safe_run {α : Type} {P : α → Prop} {x : Read α} (h : Safe P x) :
    Safe (fun a ↦ P a ∧ x.run = .ok (some a)) x := by
  obtain ⟨value, hvalue, hP⟩ := h
  exact ⟨value, hvalue, fun a ha ↦ ⟨hP a ha, hvalue.trans (congrArg _ ha)⟩⟩

theorem safe_programHeadersFrom (hdata : data.length < 2 ^ 63) {l : Layout}
    (hl : l.phentsize < 2 ^ 16) (hn : i + n ≤ min l.phnum maxProgramHeaders) :
    Safe (fun headers ↦ ∀ header ∈ headers, header.offset < 2 ^ 64 ∧ HeaderAt data l header)
      (programHeadersFrom data l n i) := by
  induction n generalizing i with
  | zero => exact .pure nofun
  | succ n ih =>
    have hi : i < 256 := by
      have := hn.trans (min_le_right _ _)
      rw [maxProgramHeaders] at this
      omega
    have hmul : saturatingMul i l.phentsize = i * l.phentsize := by
      have hle : i * l.phentsize ≤ 256 * 2 ^ 16 := Nat.mul_le_mul hi.le hl.le
      exact min_eq_left (by omega)
    rw [programHeadersFrom, hmul]
    rcases hpos : checkedAdd l.phoff (i * l.phentsize) with _ | pos
    · exact .pure nofun
    · obtain ⟨rfl, -⟩ := checkedAdd_eq_some hpos
      refine Safe.bind (safe_run (safe_programHeader hdata _ _)).optional fun header hheader ↦ ?_
      refine Safe.bind (ih (by omega)) fun rest hrest ↦ .pure fun other hother ↦ ?_
      rcases mem_append.1 hother with hfirst | hother
      · obtain ⟨hoffset, hrun⟩ := hheader other (Option.mem_toList.1 hfirst)
        exact ⟨hoffset, i, hi, by omega, hrun⟩
      · exact hrest other hother

theorem safe_programHeaders (hdata : data.length < 2 ^ 63) {l : Layout} (hl : l.phentsize < 2 ^ 16) :
    Safe (fun headers ↦ ∀ header ∈ headers, header.offset < 2 ^ 64 ∧ HeaderAt data l header)
      (programHeaders data l) :=
  safe_programHeadersFrom hdata hl (by rw [Nat.zero_add])

/-! ## The build id -/

theorem safe_notesFrom {notes : List UInt8} (hnotes : notes.length < 2 ^ 63) {fuel : ℕ}
    (hfuel : 0 < fuel) (hpos : pos ≤ notes.length + 3) (hleft : notes.length < pos + fuel) :
    Safe (fun _ ↦ True) (notesFrom notes fuel pos) := by
  induction fuel generalizing pos with
  | zero => exact absurd hfuel (Nat.lt_irrefl 0)
  | succ fuel ih =>
    rw [notesFrom]
    refine Safe.bind (safe_add (by omega)) fun first hfirst ↦ ?_
    subst hfirst
    split_ifs with hend
    · exact .failure
    refine Safe.bind (safe_index _) fun namesz _ ↦ ?_
    refine Safe.bind (safe_add (by omega)) fun _ _ ↦ Safe.bind (safe_index _) fun descsz _ ↦ ?_
    refine Safe.bind (safe_add (by omega)) fun _ _ ↦ Safe.bind (.any _) fun kind _ ↦ ?_
    refine Safe.bind (safe_add (by omega)) fun nameAt hnameAt ↦ ?_
    refine Safe.bind (.found fun _ ↦ checkedAdd_eq_some) fun nameEnd hnameEnd ↦ ?_
    refine Safe.bind (safe_sub (Nat.mod_lt _ (by decide)).le) fun pad _ ↦ ?_
    refine Safe.bind (.found fun _ ↦ checkedAdd_eq_some) fun descAt hdescAt ↦ ?_
    refine Safe.bind (.found fun _ ↦ checkedAdd_eq_some) fun descEnd hdescEnd ↦ ?_
    split_ifs with hlong hid
    · exact .failure
    · exact Safe.bind (safe_range (by omega) (by omega)) fun _ _ ↦ .pure trivial
    refine Safe.bind (safe_sub (Nat.mod_lt _ (by decide)).le) fun pad' hpad' ↦ ?_
    refine Safe.bind (.found fun _ ↦ checkedAdd_eq_some) fun next hnext ↦ ?_
    exact ih (by omega) (by omega) (by omega)

theorem safe_buildIdFrom (hdata : data.length < 2 ^ 63) (l : Layout) (n i : ℕ) :
    Safe (fun _ ↦ True) (buildIdFrom data l n i) := by
  induction n generalizing i with
  | zero => exact .failure
  | succ n ih =>
    rw [buildIdFrom]
    refine Safe.bind (.any _) fun skip _ ↦ Safe.bind (.any _) fun pos _ ↦ ?_
    refine Safe.bind (.any _) fun fin _ ↦ ?_
    split_ifs with hend
    · exact .failure
    refine Safe.bind (safe_programHeader hdata _ _) fun header _ ↦ ?_
    split_ifs with hkind
    · exact ih (i + 1)
    refine Safe.bind (.found fun _ ↦ checkedAdd_eq_some) fun fin hfin ↦ ?_
    split_ifs with hend
    · exact ih (i + 1)
    refine Safe.bind (safe_range (by omega) (by omega)) fun notes hnotes ↦ .orElse ?_ (ih (i + 1))
    exact safe_notesFrom (by omega) (Nat.succ_pos _) (Nat.zero_le _) (by omega)

/-- **The build id is read without a fault.** -/
theorem safe_buildId (hdata : data.length < 2 ^ 63) : Safe (fun _ ↦ True) (buildId data) := by
  refine Safe.bind (.any _) fun l _ ↦ ?_
  split_ifs
  · exact .failure
  · exact safe_buildIdFrom hdata l _ 0

/-! ## The dynamic section -/

theorem safe_dynamicEntry (hdata : data.length < 2 ^ 63) (pos : ℕ) (is64 : Bool) :
    Safe (fun _ ↦ pos + dynamicEntrySize is64 ≤ data.length) (dynamicEntry data pos is64) := by
  cases is64 with
  | true =>
    rw [dynamicEntry, if_pos rfl, dynamicEntrySize, if_pos rfl]
    refine Safe.bind (.found fun _ ↦ le64_le) fun tag htag ↦ ?_
    refine Safe.bind (safe_add (by omega)) fun next hnext ↦ ?_
    subst hnext
    exact Safe.bind (.found fun _ ↦ le64_le) fun value hvalue ↦ .pure (by omega)
  | false =>
    rw [dynamicEntry, if_neg Bool.false_ne_true, dynamicEntrySize, if_neg Bool.false_ne_true]
    refine Safe.bind (.found fun _ ↦ le32_le) fun tag htag ↦ ?_
    refine Safe.bind (safe_add (by omega)) fun next hnext ↦ ?_
    subst hnext
    exact Safe.bind (.found fun _ ↦ le32_le) fun value hvalue ↦ .pure (by omega)

/-- The `i`th entry of a dynamic section. -/
def EntryAt (data : List UInt8) (l : Layout) (segment : ProgramHeader) (i : ℕ) (entry : ℕ × ℕ) :
    Prop :=
  (dynamicEntry data (segment.offset + i * dynamicEntrySize l.is64) l.is64).run = .ok (some entry)

/-- The entries from the `i`th on, of which there may be `n`, up to the one that ends them. -/
inductive Entries (data : List UInt8) (l : Layout) (segment : ProgramHeader) :
    ℕ → ℕ → List (ℕ × ℕ) → Prop
  | full (i : ℕ) : Entries data l segment 0 i []
  | null {n i : ℕ} {entry : ℕ × ℕ} (h : EntryAt data l segment i entry) (hnull : entry.1 = dtNull) :
    Entries data l segment (n + 1) i []
  | cons {n i : ℕ} {entry : ℕ × ℕ} {entries : List (ℕ × ℕ)} (h : EntryAt data l segment i entry)
    (hnull : entry.1 ≠ dtNull) (hrest : Entries data l segment n (i + 1) entries) :
    Entries data l segment (n + 1) i (entry :: entries)

variable {l : Layout} {segment : ProgramHeader} {entry : ℕ × ℕ} {entries : List (ℕ × ℕ)}
  {σ : Type} {step : σ → ℕ × ℕ → σ} {s : σ}

theorem EntryAt.le (hdata : data.length < 2 ^ 63) (h : EntryAt data l segment i entry) :
    segment.offset + i * dynamicEntrySize l.is64 + dynamicEntrySize l.is64 ≤ data.length := by
  obtain ⟨value, hvalue, hle⟩ := safe_dynamicEntry hdata
    (segment.offset + i * dynamicEntrySize l.is64) l.is64
  exact hle entry (Except.ok.inj (hvalue.symm.trans h))

/-- The positions of the entries that are there are `u64`. -/
theorem walkEntries_succ (hpos : segment.offset + i * dynamicEntrySize l.is64 < 2 ^ 64) :
    walkEntries data l segment step (n + 1) i s =
      dynamicEntry data (segment.offset + i * dynamicEntrySize l.is64) l.is64 >>= fun entry ↦
        if entry.1 = dtNull then pure s
        else walkEntries data l segment step n (i + 1) (step s entry) := by
  rw [walkEntries, mul, if_pos (by omega), pure_bind, add, if_pos hpos, pure_bind]

/-- **A walk takes its steps over the entries.** -/
theorem walkEntries_run (hdata : data.length < 2 ^ 63) (h : Entries data l segment n i entries) :
    (walkEntries data l segment step n i s).run = .ok (some (entries.foldl step s)) := by
  induction h generalizing s with
  | full i => rfl
  | null h hnull =>
    have hle := h.le hdata
    rw [walkEntries_succ (by omega), run_bind_some h, if_pos hnull]
    rfl
  | cons h hnull _ ih =>
    have hle := h.le hdata
    rw [walkEntries_succ (by omega), run_bind_some h, if_neg hnull, ih]
    rfl

/-- **A walk has no fault.**  Each entry that was read is in the file, so that where the next one
starts is a `u64`. -/
theorem safe_walkEntries (hdata : data.length < 2 ^ 63)
    (hpos : segment.offset + i * dynamicEntrySize l.is64 < 2 ^ 64) :
    Safe (fun s' ↦ ∃ entries, Entries data l segment n i entries ∧ s' = entries.foldl step s)
      (walkEntries data l segment step n i s) := by
  induction n generalizing i s with
  | zero => exact .pure ⟨[], .full i, rfl⟩
  | succ n ih =>
    rw [walkEntries_succ hpos]
    refine Safe.bind (safe_run (safe_dynamicEntry hdata _ _)) fun entry hentry ↦ ?_
    obtain ⟨hle, hrun⟩ := hentry
    split_ifs with hnull
    · exact .pure ⟨[], .null hrun hnull, rfl⟩
    · refine (ih (by rw [Nat.add_mul, Nat.one_mul]; omega)).mono fun s' hs' ↦ ?_
      obtain ⟨entries, hentries, rfl⟩ := hs'
      exact ⟨entry :: entries, .cons hrun hnull hentries, rfl⟩

/-- The last entry that gives the address of the string table. -/
def TableAt (entries : List (ℕ × ℕ)) (strtab : ℕ) : Prop :=
  (entries.filter (·.1 = dtStrtab)).getLast? = some (dtStrtab, strtab)

theorem tableAt_append (entries : List (ℕ × ℕ)) (entry : ℕ × ℕ) (strtab : ℕ) :
    TableAt (entries ++ [entry]) strtab ↔
      if entry.1 = dtStrtab then entry.2 = strtab else TableAt entries strtab := by
  rw [TableAt, filter_append]
  split_ifs with htag
  · rw [filter_singleton, decide_eq_true htag, cond_true, getLast?_concat,
      Option.some_inj]
    exact ⟨fun h ↦ congrArg Prod.snd h, fun h ↦ Prod.ext htag h⟩
  · rw [filter_singleton, decide_eq_false htag]
    simp [TableAt]

/-- **The first pass finds the address of the string table.** -/
theorem foldl_tableStep (entries : List (ℕ × ℕ)) (strtab : ℕ) :
    (entries.foldl tableStep (none, 0)).1 = some strtab ↔ TableAt entries strtab := by
  induction entries using reverseRecOn with
  | nil => simp [TableAt]
  | append_singleton entries entry ih =>
    rw [tableAt_append, foldl_append, foldl_cons, foldl_nil, tableStep]
    split_ifs
    · exact Option.some_inj
    · exact ih
    · exact ih

/-! ## Where an address is in the file -/

/-- The header loads the address. -/
def Maps (vaddr : ℕ) (header : ProgramHeader) : Prop :=
  header.kind = ptLoad ∧ header.vaddr + header.size < 2 ^ 64 ∧ header.vaddr ≤ vaddr ∧
    vaddr < header.vaddr + header.size

instance (vaddr : ℕ) : DecidablePred (Maps vaddr) := fun _ ↦ inferInstanceAs (Decidable (_ ∧ _))

variable {vaddr : ℕ} {header : ProgramHeader} {headers : List ProgramHeader}

theorem headerOffsetOf_not_maps (h : ¬Maps vaddr header) :
    (headerOffsetOf vaddr header).run = .ok none := by
  rw [headerOffsetOf]
  by_cases hkind : header.kind = ptLoad
  · rw [guard, if_pos hkind]
    by_cases hfin : header.vaddr + header.size < 2 ^ 64
    · rw [checkedAdd, if_pos hfin]
      show (if header.vaddr ≤ vaddr ∧ vaddr < header.vaddr + header.size then _
        else failure : Read ℕ).run = _
      rw [if_neg fun hin ↦ h ⟨hkind, hfin, hin⟩]
      rfl
    · rw [checkedAdd, if_neg hfin]
      rfl
  · rw [guard, if_neg hkind]
    rfl

theorem headerOffsetOf_maps (h : Maps vaddr header) :
    (headerOffsetOf vaddr header).run =
      if header.offset + (vaddr - header.vaddr) < 2 ^ 64 then
        .ok (some (header.offset + (vaddr - header.vaddr)))
      else .error .overflow := by
  obtain ⟨hkind, hfin, hle, hlt⟩ := h
  rw [headerOffsetOf, guard, if_pos hkind, checkedAdd, if_pos hfin]
  show (if header.vaddr ≤ vaddr ∧ vaddr < header.vaddr + header.size then _
    else failure : Read ℕ).run = _
  rw [if_pos ⟨hle, hlt⟩, sub, if_pos hle]
  show (add header.offset (vaddr - header.vaddr) >>= fun offset ↦ found (index offset)).run = _
  rw [add]
  split_ifs with hsum
  · show Except.ok (index (header.offset + (vaddr - header.vaddr))) = _
    rw [index, if_pos hsum]
  · rfl

theorem fileOffsetOf_cons (header : ProgramHeader) (headers : List ProgramHeader) (vaddr : ℕ) :
    (fileOffsetOf (header :: headers) vaddr).run = (headerOffsetOf vaddr header).run.bind
      fun value ↦ value.elim (fileOffsetOf headers vaddr).run fun offset ↦ .ok (some offset) :=
  run_orElse _ _

/-- An address that no header loads is nowhere. -/
theorem fileOffsetOf_none (h : headers.find? (Maps vaddr ·) = none) :
    (fileOffsetOf headers vaddr).run = .ok none := by
  induction headers with
  | nil => rfl
  | cons header headers ih =>
    have hmaps : ¬Maps vaddr header := by
      simpa using find?_eq_none.1 h header (.head _)
    rw [find?_cons_of_neg (by simpa using hmaps)] at h
    rw [fileOffsetOf_cons, headerOffsetOf_not_maps hmaps]
    exact ih h

/-- **The first header that loads the address decides.** -/
theorem fileOffsetOf_some (h : headers.find? (Maps vaddr ·) = some header) :
    (fileOffsetOf headers vaddr).run =
      if header.offset + (vaddr - header.vaddr) < 2 ^ 64 then
        .ok (some (header.offset + (vaddr - header.vaddr)))
      else .error .overflow := by
  induction headers with
  | nil => cases h
  | cons other headers ih =>
    rw [fileOffsetOf_cons]
    by_cases hmaps : Maps vaddr other
    · rw [find?_cons_of_pos (by simpa using hmaps), Option.some_inj] at h
      subst h
      rw [headerOffsetOf_maps hmaps]
      split_ifs <;> rfl
    · rw [find?_cons_of_neg (by simpa using hmaps)] at h
      rw [headerOffsetOf_not_maps hmaps]
      exact ih h

/-! ## Names -/

/-- What stands before the first zero, and the zero. -/
theorem take_findIdx_zero {bytes : List UInt8} {fin : ℕ} (h : bytes.findIdx? (· == 0) = some fin) :
    bytes.take fin ++ [0] <+: bytes ∧ 0 ∉ bytes.take fin := by
  obtain ⟨hlt, hzero, hbefore⟩ := findIdx?_eq_some_iff_getElem.1 h
  constructor
  · have htake : bytes.take (fin + 1) = bytes.take fin ++ [0] := by
      rw [take_add_one, getElem?_eq_getElem hlt, beq_iff_eq.1 hzero]
      rfl
    exact htake ▸ take_prefix (fin + 1) bytes
  · intro hmem
    obtain ⟨j, hj, hget⟩ := mem_take_iff_getElem.1 hmem
    exact hbefore j (by omega) (beq_iff_eq.2 hget)

/-- A name of the string table is what stands there up to the first zero. -/
theorem nameAt_spec {strtab offset : ℕ} {name : String}
    (h : nameAt data strtab strsz offset = some name) :
    Holds data (strtab + offset) (Text.utf8 name ++ [0]) ∧ 0 ∉ Text.utf8 name := by
  simp only [nameAt, Option.bind_eq_bind, Option.bind_eq_some_iff] at h
  obtain ⟨o, ho, start, hstart, fin, -, bytes, hbytes, len, hlen, h⟩ := h
  obtain ⟨rfl, -⟩ := index_eq_some ho
  obtain ⟨rfl, -⟩ := checkedAdd_eq_some hstart
  split_ifs at h
  simp only [Option.bind_eq_some_iff] at h
  obtain ⟨text, htext, h⟩ := h
  split_ifs at h
  have htake : text = bytes.take len := by
    rw [slice] at htext
    split_ifs at htext
    rw [← Option.some.inj htext, drop_zero, Nat.sub_zero]
  obtain ⟨hwhole, hzero⟩ := take_findIdx_zero hlen
  rw [← htake, ← Text.fromUtf8_eq_some.1 h] at hwhole hzero
  exact ⟨holds_of_slice hbytes hwhole, hzero⟩

/-! ## The dynamic section -/

variable {sec : Section} {strtab : ℕ} {load : ProgramHeader}

/-- What the dynamic section of a file is. -/
structure IsSection (data : List UInt8) (sec : Section) (entries : List (ℕ × ℕ)) : Prop where
  layout : Elf.layout data = some sec.layout
  size : headerSize sec.layout.is64 ≤ sec.layout.phentsize
  headers : (programHeaders data sec.layout).run = .ok (some sec.headers)
  segment : sec.headers.find? (fun header ↦ header.kind = ptDynamic) = some sec.segment
  count : sec.count = min (sec.segment.size / dynamicEntrySize sec.layout.is64) maxDynamicEntries
  walked : Entries data sec.layout sec.segment sec.count 0 entries
  table : entries.foldl tableStep (none, 0) = (some sec.strtabVaddr, sec.strsz)

theorem IsSection.tableAt (h : IsSection data sec entries) : TableAt entries sec.strtabVaddr :=
  (foldl_tableStep entries sec.strtabVaddr).1 (congrArg Prod.fst h.table)

theorem IsSection.headerAt (hdata : data.length < 2 ^ 63) (h : IsSection data sec entries) :
    ∀ header ∈ sec.headers, header.offset < 2 ^ 64 ∧ HeaderAt data sec.layout header := by
  obtain ⟨value, hvalue, hheaders⟩ := safe_programHeaders hdata (layout_spec h.layout).2
  exact hheaders sec.headers (Except.ok.inj (hvalue.symm.trans h.headers))

theorem dynamicSection_run (hdata : data.length < 2 ^ 63) (h : IsSection data sec entries) :
    (dynamicSection data).run = .ok (some sec) := by
  have hwalk : (walkEntries data sec.layout sec.segment tableStep sec.count 0 (none, 0)).run = _ :=
    walkEntries_run hdata h.walked
  rw [h.table, h.count] at hwalk
  rw [dynamicSection, run_found_bind h.layout, if_neg (Nat.not_lt_of_le h.size),
    run_bind_some h.headers, run_found_bind h.segment, run_bind_some hwalk]
  show Except.ok (some (Section.mk _ _ _ _ _ _)) = _
  rw [← h.count]

/-- **The dynamic section is read without a fault.** -/
theorem safe_dynamicSection (hdata : data.length < 2 ^ 63) :
    Safe (fun sec ↦ ∃ entries, IsSection data sec entries) (dynamicSection data) := by
  refine Safe.bind (.found fun _ ↦ id) fun l hl ↦ ?_
  split_ifs with hsize
  · exact .failure
  refine Safe.bind (safe_run (safe_programHeaders hdata (layout_spec hl).2)) fun headers hheaders ↦ ?_
  obtain ⟨hheaders, hrun⟩ := hheaders
  refine Safe.bind (.found fun _ ↦ id) fun segment hsegment ↦ ?_
  have hoffset := (hheaders segment (mem_of_find?_eq_some hsegment)).1
  refine Safe.bind (safe_walkEntries hdata (by omega)) fun pass hpass ↦ ?_
  obtain ⟨entries, hentries, htable⟩ := hpass
  refine Safe.bind (.found fun _ ↦ id) fun strtab hstrtab ↦ .pure ⟨entries, ?_⟩
  have hpass : pass = (some strtab, pass.2) := Prod.ext hstrtab rfl
  exact ⟨hl, Nat.le_of_not_lt hsize, hrun, hsegment, rfl, hentries, htable.symm.trans hpass⟩

/-! ## Names of the dynamic section -/

/-- A name that the dynamic section gives: the string table it gives it in, a header that loads the
table, and the entry for the name. -/
structure Place (data : List UInt8) where
  layout : Layout
  load : ProgramHeader
  segment : ProgramHeader
  count : ℕ
  entries : List (ℕ × ℕ)
  strtab : ℕ
  tag : ℕ
  offset : ℕ
  hlayout : Elf.layout data = some layout
  hload : HeaderAt data layout load
  maps : Maps strtab load
  hsegment : HeaderAt data layout segment
  isDynamic : segment.kind = ptDynamic
  walked : Entries data layout segment count 0 entries
  tableAt : TableAt entries strtab
  named : tag = dtSoname ∨ tag = dtNeeded
  mem : (tag, offset) ∈ entries

/-- Where the name is in the file. -/
def Place.start {data : List UInt8} (place : Place data) : ℕ :=
  place.load.offset + (place.strtab - place.load.vaddr) + place.offset

/-- The file has the name at such a place, and a zero after it. -/
def NamedAt (data : List UInt8) (name : String) : Prop :=
  ∃ place : Place data, Holds data place.start (Text.utf8 name ++ [0]) ∧ 0 ∉ Text.utf8 name

def Dynamic.names (d : Dynamic) : List String := d.soname.toList ++ d.needed

theorem mem_names_nameStep {d : Dynamic} {name : String}
    (h : name ∈ (nameStep data strtab strsz d entry).names) :
    name ∈ d.names ∨
      (entry.1 = dtSoname ∨ entry.1 = dtNeeded) ∧ nameAt data strtab strsz entry.2 = some name := by
  rw [nameStep] at h
  split_ifs at h with hsoname hneeded
  · rcases mem_append.1 h with hmem | hmem
    · exact .inr ⟨.inl hsoname, Option.mem_toList.1 hmem⟩
    · exact .inl (mem_append_right _ hmem)
  · rcases hname : nameAt data strtab strsz entry.2 with _ | other
    · rw [hname] at h
      exact .inl h
    · rw [hname] at h
      rcases mem_append.1 h with hmem | hmem
      · exact .inl (mem_append_left _ hmem)
      rcases mem_append.1 hmem with hmem | hmem
      · exact .inl (mem_append_right _ hmem)
      · exact .inr ⟨.inr hneeded.1, congrArg some (mem_singleton.1 hmem).symm⟩
  · exact .inl h

/-- **Every name is the name of an entry.** -/
theorem mem_names_foldl {d : Dynamic} {name : String}
    (h : name ∈ (entries.foldl (nameStep data strtab strsz) d).names) :
    name ∈ d.names ∨ ∃ entry ∈ entries,
      (entry.1 = dtSoname ∨ entry.1 = dtNeeded) ∧ nameAt data strtab strsz entry.2 = some name := by
  induction entries generalizing d with
  | nil => exact .inl h
  | cons entry entries ih =>
    rcases ih h with hmem | ⟨other, hother, hname⟩
    · rcases mem_names_nameStep hmem with hmem | hname
      · exact .inl hmem
      · exact .inr ⟨entry, (.head _), hname⟩
    · exact .inr ⟨other, .tail _ hother, hname⟩

/-- The first header that loads the string table puts it where no `u64` is. -/
def Wraps (data : List UInt8) : Prop :=
  ∃ (sec : Section) (entries : List (ℕ × ℕ)) (load : ProgramHeader), IsSection data sec entries ∧
    sec.headers.find? (Maps sec.strtabVaddr ·) = some load ∧
    2 ^ 64 ≤ load.offset + (sec.strtabVaddr - load.vaddr)

/-- **Where the sum is a `u64`, the dynamic section is read without a fault**, and every name is
what the file has at its place. -/
theorem safe_dynamic (hdata : data.length < 2 ^ 63) (h : ¬Wraps data) :
    Safe (fun d ↦ ∀ name ∈ d.names, NamedAt data name) (dynamic data) := by
  refine Safe.bind (safe_dynamicSection hdata) fun sec hsec ↦ ?_
  obtain ⟨entries, hsec⟩ := hsec
  rcases hload : sec.headers.find? (Maps sec.strtabVaddr ·) with _ | load
  · exact Safe.bind (.of_none (fileOffsetOf_none hload)) fun _ hfalse ↦ False.elim hfalse
  have hsum : load.offset + (sec.strtabVaddr - load.vaddr) < 2 ^ 64 :=
    Nat.lt_of_not_le fun hle ↦ h ⟨sec, entries, load, hsec, hload, hle⟩
  have hheaders := hsec.headerAt hdata
  have hstrtab := (fileOffsetOf_some hload).trans (if_pos hsum)
  refine Safe.bind (.of_some hstrtab rfl) fun strtab hstrtab ↦ ?_
  refine Safe.bind (.of_some (walkEntries_run hdata hsec.walked) rfl) fun d hd ↦ ?_
  subst hstrtab hd
  split_ifs
  · exact .failure
  refine .pure fun name hname ↦ ?_
  rcases mem_names_foldl hname with hmem | ⟨entry, hentry, htag, hname⟩
  · cases hmem
  exact ⟨{
    layout := sec.layout
    load := load
    segment := sec.segment
    count := sec.count
    entries := entries
    strtab := sec.strtabVaddr
    tag := entry.1
    offset := entry.2
    hlayout := hsec.layout
    hload := (hheaders load (mem_of_find?_eq_some hload)).2
    maps := by simpa using find?_some hload
    hsegment := (hheaders sec.segment (mem_of_find?_eq_some hsec.segment)).2
    isDynamic := by simpa using find?_some hsec.segment
    walked := hsec.walked
    tableAt := hsec.tableAt
    named := htag
    mem := hentry }, nameAt_spec hname⟩

/-- The answers are what they should be: both readings end without a fault, and every name of the
dynamic section is what the file has at its place. -/
def Correct (data : List UInt8) : Prop :=
  (∃ id, (buildId data).run = .ok id) ∧
    ∃ answer, (dynamic data).run = .ok answer ∧
      ∀ d, answer = some d → ∀ name ∈ d.names, NamedAt data name

/-- **Exactly one sum can go wrong.** -/
theorem correct_iff (data : File) : Correct data.1 ↔ ¬Wraps data.1 := by
  constructor
  · rintro ⟨-, answer, hanswer, -⟩ ⟨sec, entries, load, hsec, hload, hle⟩
    have hrun := dynamicSection_run data.2 hsec
    have hfault := (fileOffsetOf_some hload).trans (if_neg (Nat.not_lt_of_le hle))
    rw [dynamic, run_bind_some hrun, run_bind_error hfault] at hanswer
    cases hanswer
  · intro h
    obtain ⟨id, hid, -⟩ := safe_buildId data.2
    exact ⟨⟨id, hid⟩, safe_dynamic data.2 h⟩

/-- A library whose only loaded segment starts at the last offset there is, and that has its string
table at the second address of the segment. -/
def loadedAtEnd : File :=
  ⟨magic ++ [2, 1, 1] ++ List.replicate 25 0 ++ [64, 0, 0, 0, 0, 0, 0, 0] ++
    List.replicate 14 0 ++ [56, 0, 2, 0] ++ List.replicate 6 0 ++
    [1, 0, 0, 0, 0, 0, 0, 0] ++ List.replicate 8 255 ++ List.replicate 16 0 ++
    [64, 0, 0, 0, 0, 0, 0, 0] ++ List.replicate 16 0 ++
    [2, 0, 0, 0, 0, 0, 0, 0] ++ [176, 0, 0, 0, 0, 0, 0, 0] ++ List.replicate 16 0 ++
    [32, 0, 0, 0, 0, 0, 0, 0] ++ List.replicate 16 0 ++
    [5, 0, 0, 0, 0, 0, 0, 0] ++ [1, 0, 0, 0, 0, 0, 0, 0] ++ List.replicate 16 0, by decide +kernel⟩

/-- The address is at no offset that a `u64` can be. -/
theorem loadedAtEnd_overflows : (dynamic loadedAtEnd.1).run = .error .overflow := by
  decide +kernel

theorem not_correct_loadedAtEnd : ¬Correct loadedAtEnd.1 := by
  rintro ⟨-, answer, hanswer, -⟩
  rw [loadedAtEnd_overflows] at hanswer
  cases hanswer

end Huntsman.Apk.Elf
