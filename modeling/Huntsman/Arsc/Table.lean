import Huntsman.Arsc.Pool

/-!
# The string of a resource

A resource table is a chunk with a pool of strings and packages in it, and a package has chunks with
the entries of its types.  A resource id names a package, a type and an entry, and `stringResource`
looks for the first chunk of such a type in which the entry is a string.

Each chunk is checked to be inside the one it is in.  What a type's chunk gives by further offsets
is not always: the entry's header is checked to be in the chunk, but not the slot of the offset
array that says where the entry is, nor the value after it.
-/

set_option autoImplicit false

namespace Huntsman.Arsc

open Bytes
open Apk (le16 le32)
open Axml (Chunk)

def resTable : ℕ := 0x0002

def resTablePackage : ℕ := 0x0200

def resTableType : ℕ := 0x0201

/-- There is no entry for an id in a type. -/
def noEntry : UInt32 := 0xffffffff

def maxPackages : ℕ := 16

def maxTypeChunks : ℕ := 4096

/-- What an id asks for. -/
structure Wanted where
  package : ℕ
  kind : ℕ
  entry : ℕ
deriving DecidableEq

def Wanted.of (id : UInt32) : Wanted where
  package := id.toNat / 2 ^ 24 % 2 ^ 8
  kind := id.toNat / 2 ^ 16 % 2 ^ 8
  entry := id.toNat % 2 ^ 16

/-! ## Entries -/

/-- Where an entry of a type's chunk is. -/
def entryAt (data : List UInt8) (pos header size want : ℕ) : Option ℕ := do
  let entryCount ← le32 data (pos + 12)
  let entriesStart ← le32 data (pos + 16)
  if entryCount.toNat ≤ want then none
  else
    let offset ← le32 data (pos + header + 4 * want)
    if offset = noEntry then none
    else
      let entry := pos + entriesStart.toNat + offset.toNat
      if pos + size < entry + 8 then none else return entry

/-- Where the value of an entry is: after its header, unless it has several. -/
def valueAt (data : List UInt8) (entry : ℕ) : Option ℕ := do
  let entrySize ← le16 data entry
  let flags ← le16 data (entry + 2)
  if flags.toNat.testBit 0 then none else return entry + entrySize.toNat

/-- Which string a value is. -/
def poolIndex (data : List UInt8) (value : ℕ) : Option ℕ := do
  let dataType ← data[value + 3]?
  if dataType ≠ Axml.typeString then none
  else
    let i ← le32 data (value + 4)
    return i.toNat

def typeEntryString (data : List UInt8) (pos header size : ℕ) (pool : StringPool) (want : ℕ) :
    Option String := do
  let entry ← entryAt data pos header size want
  let value ← valueAt data entry
  let i ← poolIndex data value
  pool.get i

/-! ## Walking the chunks -/

/-- What is made of a chunk: an answer, with which the walk ends, or a count to go on with. -/
inductive Look where
  | stop (answer : Option String)
  | next (count : ℕ)
deriving DecidableEq

theorem chunk_size {data : List UInt8} {pos limit : ℕ} {c : Chunk} (h : chunk data pos limit = some c) :
    8 ≤ c.2.1 ∧ c.2.1 ≤ c.2.2 ∧ pos + c.2.2 ≤ limit :=
  (chunk_fields h).2.2.2

/-- The first answer that the chunks from `pos` on give. -/
def walk (data : List UInt8) (limit : ℕ) (look : ℕ → Chunk → ℕ → Look) (count pos : ℕ) :
    Option String :=
  if pos + 8 ≤ limit then
    match _hchunk : chunk data pos limit with
    | none => none
    | some c =>
      match look pos c count with
      | .stop answer => answer
      | .next count => walk data limit look count (pos + c.2.2)
  else none
termination_by limit - pos
decreasing_by
  have hc := chunk_size _hchunk
  omega

/-- Only so many type chunks are looked at. -/
def typeLook (data : List UInt8) (pool : StringPool) (want : Wanted) (pos : ℕ) (c : Chunk)
    (types : ℕ) : Look :=
  if maxTypeChunks ≤ types then .stop none
  else if c.1 ≠ resTableType then .next types
  else
    match data[pos + 8]? with
    | none => .stop none
    | some kind =>
      if kind.toNat = want.kind then
        match typeEntryString data pos c.2.1 c.2.2 pool want.entry with
        | some label => .stop (some label)
        | none => .next (types + 1)
      else .next (types + 1)

def packageString (data : List UInt8) (pos header size : ℕ) (pool : StringPool) (want : Wanted) :
    Option String := do
  let packageId ← le32 data (pos + 8)
  if packageId.toNat % 2 ^ 8 ≠ want.package then none
  else walk data (pos + size) (typeLook data pool want) 0 (pos + header)

def packageLook (data : List UInt8) (pool : StringPool) (want : Wanted) (pos : ℕ) (c : Chunk)
    (packages : ℕ) : Look :=
  if c.1 = resTablePackage ∧ packages < maxPackages then
    match packageString data pos c.2.1 c.2.2 pool want with
    | some label => .stop (some label)
    | none => .next (packages + 1)
  else .next packages

def stringResource (data : List UInt8) (id : UInt32) : Option String := do
  let (kind, header, size) ← chunk data 0 data.length
  if kind ≠ resTable then none
  else
    let pool ← StringPool.parse data header size
    let (_, _, poolSize) ← chunk data header size
    walk data size (packageLook data pool (Wanted.of id)) 0 (header + poolSize)

/-! ## Two tables that begin alike -/

/-- Two lists of bytes are the same up to `n`. -/
structure Same (n : ℕ) (d d' : List UInt8) : Prop where
  left : n ≤ d.length
  right : n ≤ d'.length
  take : d.take n = d'.take n

variable {d d' data : List UInt8} {n pos limit count : ℕ} {c : Chunk}

theorem slice_take {a b : ℕ} (hb : b ≤ n) (hn : n ≤ d.length) : slice (d.take n) a b = slice d a b := by
  rw [slice, slice, List.length_take, Nat.min_eq_left hn]
  by_cases hab : a ≤ b
  · rw [if_pos ⟨hab, hb⟩, if_pos ⟨hab, hb.trans hn⟩, ← List.drop_take, List.take_take,
      Nat.min_eq_left hb, List.drop_take]
  · rw [if_neg fun h ↦ hab h.1, if_neg fun h ↦ hab h.1]

theorem Same.slice {a b : ℕ} (h : Same n d d') (hb : b ≤ n) : slice d a b = slice d' a b := by
  rw [← slice_take hb h.left, h.take, slice_take hb h.right]

theorem Same.getElem? {i : ℕ} (h : Same n d d') (hi : i < n) : d[i]? = d'[i]? := by
  rw [← List.getElem?_take_of_lt hi, h.take, List.getElem?_take_of_lt hi]

theorem Same.le16 {i : ℕ} (h : Same n d d') (hi : i + 2 ≤ n) : le16 d i = le16 d' i := by
  rw [Apk.le16, Apk.le16, h.slice hi]

theorem Same.le32 {i : ℕ} (h : Same n d d') (hi : i + 4 ≤ n) : le32 d i = le32 d' i := by
  rw [Apk.le32, Apk.le32, h.slice hi]

theorem Same.chunk (h : Same n d d') (hpos : pos + 8 ≤ n) : chunk d pos limit = chunk d' pos limit := by
  rw [Arsc.chunk, Arsc.chunk, h.le16 (by omega), h.le16 (by omega), h.le32 (by omega)]

theorem chunk_short (h : limit < pos + 8) : chunk d pos limit = none := by
  rcases hc : chunk d pos limit with _ | c
  · rfl
  · have hsize := chunk_size hc
    omega

/-! ## The chunks that are reached -/

/-- A walk from `pos` on, with a count, gets to a chunk, and with what count. -/
inductive Reached (data : List UInt8) (limit : ℕ) (look : ℕ → Chunk → ℕ → Look) :
    ℕ → ℕ → ℕ → ℕ → Chunk → Prop
  | here {count pos : ℕ} {c : Chunk} (hc : chunk data pos limit = some c) :
    Reached data limit look count pos count pos c
  | next {count pos count' m q : ℕ} {c c' : Chunk} (hc : chunk data pos limit = some c)
    (hlook : look pos c count = .next count')
    (hrest : Reached data limit look count' (pos + c.2.2) m q c') :
    Reached data limit look count pos m q c'

variable {look look' : ℕ → Chunk → ℕ → Look} {m q : ℕ} {c' : Chunk} {s : String}

theorem Reached.chunk (h : Reached data limit look count pos m q c) :
    Arsc.chunk data q limit = some c ∧ pos ≤ q := by
  induction h with
  | here hc => exact ⟨hc, le_rfl⟩
  | next hc hlook _ ih => exact ⟨ih.1, (Nat.le_add_right _ _).trans ih.2⟩

/-- Nothing is reached after a chunk with an answer. -/
theorem Reached.eq_of_stop {answer : Option String} (h : Reached data limit look count pos m q c')
    (hc : Arsc.chunk data pos limit = some c) (hlook : look pos c count = .stop answer) :
    m = count ∧ q = pos ∧ c' = c := by
  rcases h with hc' | ⟨hc', hlook', -⟩
  · exact ⟨rfl, rfl, Option.some.inj (hc'.symm.trans hc)⟩
  · obtain rfl := Option.some.inj (hc'.symm.trans hc)
    rw [hlook] at hlook'
    cases hlook'

theorem walk_of_none (h : chunk data pos limit = none) : walk data limit look count pos = none := by
  rw [walk]
  split
  · split
    · rfl
    · rename_i hc
      exact absurd (h.symm.trans hc) (Option.some_ne_none _).symm
  · rfl

variable (look count) in
theorem walk_of_chunk (h : chunk data pos limit = some c) :
    (∀ answer, look pos c count = .stop answer → walk data limit look count pos = answer) ∧
      ∀ count', look pos c count = .next count' →
        walk data limit look count pos = walk data limit look count' (pos + c.2.2) := by
  have hsize := chunk_size h
  rw [walk, if_pos (by omega)]
  split
  · rename_i hc
    exact absurd (hc.symm.trans h) (Option.some_ne_none _).symm
  · rename_i c' hc
    obtain rfl := Option.some.inj (hc.symm.trans h)
    constructor
    · intro answer hlook
      rw [hlook]
    · intro count' hlook
      rw [hlook]

/-- **An answer is given by a chunk that is reached.** -/
theorem walk_eq_some (h : walk data limit look count pos = some s) :
    ∃ m q c, Reached data limit look count pos m q c ∧ look q c m = .stop (some s) := by
  induction hleft : limit - pos using Nat.strong_induction_on generalizing count pos with
  | _ left ih =>
    rcases hc : chunk data pos limit with _ | c
    · rw [walk_of_none hc] at h
      cases h
    obtain ⟨hstop, hnext⟩ := walk_of_chunk count look hc
    rcases hlook : look pos c count with answer | count'
    · rw [hstop answer hlook] at h
      exact ⟨count, pos, c, .here hc, h ▸ hlook⟩
    · rw [hnext count' hlook] at h
      have hsize := chunk_size hc
      obtain ⟨m, q, c', hreached, hanswer⟩ := ih (limit - (pos + c.2.2)) (by omega) h rfl
      exact ⟨m, q, c', .next hc hlook hreached, hanswer⟩

/-- **Walks over tables that begin alike are alike.** -/
theorem walk_same (h : Same n d d') (hlimit : limit ≤ n)
    (hlook : ∀ m q c, Reached d limit look count pos m q c → look q c m = look' q c m) :
    walk d limit look count pos = walk d' limit look' count pos := by
  induction hleft : limit - pos using Nat.strong_induction_on generalizing count pos with
  | _ left ih =>
    rcases hc : chunk d pos limit with _ | c
    · have hc' : chunk d' pos limit = none := by
        rcases Nat.lt_or_ge limit (pos + 8) with hshort | hlong
        · exact chunk_short hshort
        · rw [← h.chunk (by omega), hc]
      rw [walk_of_none hc, walk_of_none hc']
    have hsize := chunk_size hc
    have hc' : chunk d' pos limit = some c := by rw [← h.chunk (by omega), hc]
    obtain ⟨hstop, hnext⟩ := walk_of_chunk count look hc
    obtain ⟨hstop', hnext'⟩ := walk_of_chunk count look' hc'
    have hsame := hlook count pos c (.here hc)
    rcases hcase : look pos c count with answer | count'
    · rw [hstop answer hcase, hstop' answer (hsame.symm.trans hcase)]
    · rw [hnext count' hcase, hnext' count' (hsame.symm.trans hcase)]
      exact ih (limit - (pos + c.2.2)) (by omega)
        (fun m q c' hreached ↦ hlook m q c' (.next hc hcase hreached)) rfl

end Huntsman.Arsc
