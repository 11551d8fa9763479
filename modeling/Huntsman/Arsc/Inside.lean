import Huntsman.Arsc.Table

/-!
# Where the string of a resource is read

A string that `stringResource` finds should be the one that an entry refers to, all of it inside a
chunk of its type, and bytes after the table should make no difference.  Neither is always so,
because the slot and the value of an entry are read where they may be, as long as there are bytes.

`Tidy` says that the chunks that the search looks at have what it reads of them, and
`faithful_of_tidy` that then the search is as it should be.
-/

set_option autoImplicit false

namespace Huntsman.Arsc

open Bytes Option
open Apk (le16 le32)
open Axml (Chunk le16Bytes le32Bytes typeString)

variable {d d' data : List UInt8} {n pos header size want limit count : ℕ} {c : Chunk}
  {pool : StringPool} {wanted : Wanted} {s : String}

/-! ## What is read of a chunk -/

/-- What is read of a type's chunk for an entry is inside the chunk: its own fields, the slot of the
entry, and the value after it. -/
structure EntryFits (data : List UInt8) (pos header size want : ℕ) : Prop where
  fields : 20 ≤ size
  slot : ∀ entryCount, le32 data (pos + 12) = some entryCount → want < entryCount.toNat →
    header + 4 * want + 4 ≤ size
  value : ∀ entry value, entryAt data pos header size want = some entry →
    valueAt data entry = some value → value + 4 ≤ pos + size ∧
      (data[value + 3]? = some typeString → value + 8 ≤ pos + size)

/-- What is read of a chunk of types: which type it is of, and the entry if it is the one wanted. -/
structure TypeFits (data : List UInt8) (pos : ℕ) (c : Chunk) (wanted : Wanted) : Prop where
  kind : 9 ≤ c.2.2
  entry : ∀ kind, data[pos + 8]? = some kind → kind.toNat = wanted.kind →
    EntryFits data pos c.2.1 c.2.2 wanted.entry

theorem entryAt_eq_some {entry : ℕ} (h : entryAt data pos header size want = some entry) :
    ∃ entryCount entriesStart offset, le32 data (pos + 12) = some entryCount ∧
      le32 data (pos + 16) = some entriesStart ∧ want < entryCount.toNat ∧
      le32 data (pos + header + 4 * want) = some offset ∧ offset ≠ noEntry ∧
      entry = pos + entriesStart.toNat + offset.toNat ∧ entry + 8 ≤ pos + size := by
  simp only [entryAt, bind_eq_bind, bind_eq_some_iff] at h
  obtain ⟨entryCount, hcount, entriesStart, hstart, h⟩ := h
  split_ifs at h with hwant
  obtain ⟨offset, hoffset, h⟩ := bind_eq_some_iff.1 h
  split_ifs at h with hentry hend
  cases h
  exact ⟨entryCount, entriesStart, offset, hcount, hstart, by omega, hoffset, hentry, rfl, by omega⟩

theorem valueAt_eq_some {entry value : ℕ} (h : valueAt data entry = some value) :
    ∃ entrySize flags, le16 data entry = some entrySize ∧ le16 data (entry + 2) = some flags ∧
      flags.toNat.testBit 0 = false ∧ value = entry + entrySize.toNat := by
  simp only [valueAt, bind_eq_bind, bind_eq_some_iff] at h
  obtain ⟨entrySize, hsize, flags, hflags, h⟩ := h
  split_ifs at h with hbag
  exact ⟨entrySize, flags, hsize, hflags, (Bool.not_eq_true _).mp hbag, (some.inj h).symm⟩

theorem poolIndex_eq_some {value i : ℕ} (h : poolIndex data value = some i) :
    data[value + 3]? = some typeString ∧ (le32 data (value + 4)).map UInt32.toNat = some i := by
  simp only [poolIndex, bind_eq_bind, bind_eq_some_iff] at h
  obtain ⟨dataType, htype, h⟩ := h
  split_ifs at h with hstring
  obtain ⟨index, hindex, h⟩ := bind_eq_some_iff.1 h
  rw [not_ne_iff] at hstring
  rw [hindex]
  exact ⟨hstring ▸ htype, h⟩

theorem entryAt_same (h : Same n d d') (hn : pos + size ≤ n) (hfits : EntryFits d pos header size want) :
    entryAt d pos header size want = entryAt d' pos header size want := by
  have hfields := hfits.fields
  rw [entryAt, entryAt, ← h.le32 (by omega), ← h.le32 (by omega)]
  refine bind_congr fun entryCount hcount ↦ bind_congr fun entriesStart _ ↦ ?_
  split_ifs with hwant
  · rfl
  · have hslot := hfits.slot entryCount hcount (by omega)
    rw [h.le32 (by omega)]

theorem typeEntryString_same (h : Same n d d') (hn : pos + size ≤ n)
    (hfits : EntryFits d pos header size want) :
    typeEntryString d pos header size pool want = typeEntryString d' pos header size pool want := by
  rw [typeEntryString, typeEntryString, ← entryAt_same h hn hfits]
  refine bind_congr fun entry hentry ↦ ?_
  obtain ⟨_, _, _, -, -, -, -, -, -, hend⟩ := entryAt_eq_some hentry
  have hvalueAt : valueAt d entry = valueAt d' entry := by
    rw [valueAt, valueAt, h.le16 (by omega), h.le16 (by omega)]
  rw [← hvalueAt]
  refine bind_congr fun value hvalue ↦ ?_
  obtain ⟨hkind, hindex⟩ := hfits.value entry value hentry hvalue
  have hpool : poolIndex d value = poolIndex d' value := by
    rw [poolIndex, poolIndex, ← h.getElem? (by omega)]
    refine bind_congr fun dataType htype ↦ ?_
    split_ifs with hstring
    · rfl
    · rw [not_ne_iff] at hstring
      have hle := hindex (hstring ▸ htype)
      rw [h.le32 (by omega)]
  rw [hpool]

/-! ## What is read of a package -/

/-- The chunks of types that are looked at in a package have what is read of them. -/
def PackageTidy (data : List UInt8) (pos : ℕ) (c : Chunk) (pool : StringPool) (wanted : Wanted) :
    Prop :=
  ∀ packageId, le32 data (pos + 8) = some packageId → packageId.toNat % 2 ^ 8 = wanted.package →
    ∀ m q c', Reached data (pos + c.2.2) (typeLook data pool wanted) 0 (pos + c.2.1) m q c' →
      m < maxTypeChunks → c'.1 = resTableType → TypeFits data q c' wanted

theorem typeLook_same (h : Same n d d') (hn : pos + c.2.2 ≤ n)
    (hfits : count < maxTypeChunks → c.1 = resTableType → TypeFits d pos c wanted) :
    typeLook d pool wanted pos c count = typeLook d' pool wanted pos c count := by
  rw [typeLook, typeLook]
  split_ifs with hcount hkind
  · rfl
  · rfl
  · have hfits := hfits (by omega) (not_ne_iff.1 hkind)
    have hnine := hfits.kind
    rw [← h.getElem? (by omega)]
    rcases hkind : d[pos + 8]? with _ | kind
    · rfl
    · by_cases hwanted : kind.toNat = wanted.kind
      · simp only [if_pos hwanted, typeEntryString_same h hn (hfits.entry kind hkind hwanted)]
      · simp only [if_neg hwanted]

theorem packageString_same (h : Same n d d') (hheader : 8 ≤ c.2.1) (hn : pos + c.2.2 ≤ n)
    (htidy : PackageTidy d pos c pool wanted) :
    packageString d pos c.2.1 c.2.2 pool wanted = packageString d' pos c.2.1 c.2.2 pool wanted := by
  rw [packageString, packageString]
  rcases Nat.lt_or_ge c.2.2 12 with hshort | hlong
  · -- no chunk is in the package
    have hnone : ∀ (d : List UInt8), (do
        let packageId ← le32 d (pos + 8)
        if packageId.toNat % 2 ^ 8 ≠ wanted.package then none
        else walk d (pos + c.2.2) (typeLook d pool wanted) 0 (pos + c.2.1)) = none := by
      intro d
      rw [walk_of_none (chunk_short (by omega))]
      rcases le32 d (pos + 8) with _ | packageId
      · rfl
      · exact ite_self none
    rw [hnone d, hnone d']
  · rw [← h.le32 (by omega)]
    refine bind_congr fun packageId hid ↦ ?_
    split_ifs with hwanted
    · rfl
    · refine walk_same h hn fun m q c' hreached ↦ typeLook_same h ?_ fun hm hkind ↦ ?_
      · exact (chunk_size hreached.chunk.1).2.2.trans hn
      · exact htidy packageId hid (not_ne_iff.1 hwanted) m q c' hreached hm hkind

/-- A package with a string in it has a chunk in it. -/
theorem packageString_size (hheader : 8 ≤ c.2.1)
    (h : packageString data pos c.2.1 c.2.2 pool wanted = some s) : 16 ≤ c.2.2 := by
  obtain ⟨packageId, -, h⟩ := bind_eq_some_iff.1 h
  split_ifs at h
  by_contra hsize
  rw [walk_of_none (chunk_short (by omega))] at h
  cases h

theorem packageLook_stop (h : packageLook data pool wanted pos c count = .stop (some s)) :
    count < maxPackages ∧ c.1 = resTablePackage ∧ packageString data pos c.2.1 c.2.2 pool wanted = some s := by
  rw [packageLook] at h
  split_ifs at h with hkind
  rcases hs : packageString data pos c.2.1 c.2.2 pool wanted with _ | label
  · rw [hs] at h
    cases h
  · rw [hs] at h
    exact ⟨hkind.2, hkind.1, by cases h; rfl⟩

theorem typeLook_stop (h : typeLook data pool wanted pos c count = .stop (some s)) :
    count < maxTypeChunks ∧ c.1 = resTableType ∧ ∃ kind, data[pos + 8]? = some kind ∧
      kind.toNat = wanted.kind ∧
      typeEntryString data pos c.2.1 c.2.2 pool wanted.entry = some s := by
  rw [typeLook] at h
  split_ifs at h with hcount hkind
  · cases h
  rw [not_ne_iff] at hkind
  rcases hid : data[pos + 8]? with _ | kind
  · rw [hid] at h
    cases h
  simp only [hid] at h
  split_ifs at h with hwanted
  rcases hs : typeEntryString data pos c.2.1 c.2.2 pool wanted.entry with _ | label
  · rw [hs] at h
    cases h
  · rw [hs] at h
    exact ⟨by omega, hkind, kind, rfl, hwanted, by cases h; rfl⟩

/-! ## What is read of a table -/

variable {id : UInt32}

/-- **The chunks that the search looks at have what it reads of them.** -/
def Tidy (data : List UInt8) (id : UInt32) : Prop :=
  ∀ header size pool first, chunk data 0 data.length = some (resTable, header, size) →
    StringPool.parse data header size = some pool → chunk data header size = some first →
    ∀ m q c, Reached data size (packageLook data pool (Wanted.of id)) 0 (header + first.2.2) m q c →
      m < maxPackages → c.1 = resTablePackage → PackageTidy data q c pool (Wanted.of id)

theorem packageLook_same (h : Same n d d') (hheader : 8 ≤ c.2.1) (hn : pos + c.2.2 ≤ n)
    (htidy : count < maxPackages → c.1 = resTablePackage → PackageTidy d pos c pool wanted) :
    packageLook d pool wanted pos c count = packageLook d' pool wanted pos c count := by
  rw [packageLook, packageLook]
  split_ifs with hkind
  · rw [packageString_same h hheader hn (htidy hkind.2 hkind.1)]
  · rfl

theorem parse_same (h : Same n d d') (hpos : pos + 24 ≤ n) (hlimit : limit ≤ n) :
    StringPool.parse d pos limit = StringPool.parse d' pos limit := by
  rw [StringPool.parse, StringPool.parse, ← h.chunk (by omega)]
  refine bind_congr fun c hc ↦ ?_
  obtain ⟨-, -, hend⟩ := chunk_size hc
  obtain ⟨kind, header, size⟩ := c
  dsimp only at hend ⊢
  split_ifs
  · rfl
  · rw [h.le32 (by omega), h.le32 (by omega), h.le32 (by omega), h.slice (by omega)]

/-- There is no package where there is no room for one with a chunk in it. -/
theorem packages_short (h : limit < pos + 16) :
    walk data limit (packageLook data pool wanted) count pos = none := by
  rcases hs : walk data limit (packageLook data pool wanted) count pos with _ | s
  · rfl
  obtain ⟨m, q, c, hreached, hlook⟩ := walk_eq_some hs
  obtain ⟨hchunk, hq⟩ := hreached.chunk
  obtain ⟨hheader, -, hlimit⟩ := chunk_size hchunk
  have hsize := packageString_size hheader (packageLook_stop hlook).2.2
  omega

/-- What is looked for in a table. -/
theorem stringResource_eq {kind : ℕ} (h : chunk data 0 data.length = some (kind, header, size)) :
    stringResource data id = if kind ≠ resTable then none else
      (StringPool.parse data header size).bind fun pool ↦ (chunk data header size).bind fun first ↦
        walk data size (packageLook data pool (Wanted.of id)) 0 (header + first.2.2) := by
  rw [stringResource, h]
  rfl

/-- **A tidy table is read alike whatever comes after it.** -/
theorem stringResource_same {kind : ℕ} (h : Same size d d')
    (hchunk : chunk d 0 d.length = some (kind, header, size)) (htidy : Tidy d id) :
    stringResource d id = stringResource d' id := by
  have hsize : 8 ≤ size := (chunk_size hchunk).1.trans (chunk_size hchunk).2.1
  have hchunk' : chunk d' 0 d'.length = some (kind, header, size) := by
    rw [h.chunk (by omega)] at hchunk
    exact chunk_of_le hchunk (by rw [Nat.zero_add]; exact h.right)
  rw [stringResource_eq hchunk, stringResource_eq hchunk']
  split_ifs with hkind
  · rfl
  rw [not_ne_iff] at hkind
  subst hkind
  rcases Nat.lt_or_ge size (header + 24) with hshort | hlong
  · have hnone : ∀ d : List UInt8, ((StringPool.parse d header size).bind fun pool ↦
        (chunk d header size).bind fun first ↦
          walk d size (packageLook d pool (Wanted.of id)) 0 (header + first.2.2)) = none := by
      intro d
      rw [bind_eq_none_iff]
      refine fun pool _ ↦ bind_eq_none_iff.2 fun first hfirst ↦ packages_short ?_
      have hfirst := chunk_size hfirst
      omega
    rw [hnone d, hnone d']
  · rw [← parse_same h hlong le_rfl, ← h.chunk (by omega)]
    refine bind_congr fun pool hpool ↦ bind_congr fun first hfirst ↦ ?_
    refine walk_same h le_rfl fun m q c hreached ↦ ?_
    obtain ⟨hq, -⟩ := hreached.chunk
    obtain ⟨hheader, -, hlimit⟩ := chunk_size hq
    exact packageLook_same h hheader hlimit fun hm hkind ↦
      htidy header size pool first hchunk hpool hfirst m q c hreached hm hkind

/-- An entry for an id, all of it inside one chunk of the type, in one package of the id, in the
table. -/
structure Entry (data : List UInt8) (id : UInt32) where
  header : ℕ
  size : ℕ
  pool : StringPool
  package : ℕ
  packageChunk : Chunk
  packageId : UInt32
  place : ℕ
  typeChunk : Chunk
  kind : UInt8
  entriesStart : UInt32
  offset : UInt32
  entrySize : UInt16
  flags : UInt16
  index : UInt32
  isTable : chunk data 0 data.length = some (resTable, header, size)
  hpool : StringPool.parse data header size = some pool
  inTable : header ≤ package ∧ chunk data package size = some packageChunk
  isPackage : packageChunk.1 = resTablePackage
  hpackageId : le32 data (package + 8) = some packageId ∧ 12 ≤ packageChunk.2.2
  ofPackage : packageId.toNat % 2 ^ 8 = (Wanted.of id).package
  inPackage : package + packageChunk.2.1 ≤ place ∧
    chunk data place (package + packageChunk.2.2) = some typeChunk
  isType : typeChunk.1 = resTableType
  hkind : data[place + 8]? = some kind ∧ 20 ≤ typeChunk.2.2
  ofType : kind.toNat = (Wanted.of id).kind
  hstart : le32 data (place + 16) = some entriesStart
  hslot : le32 data (place + typeChunk.2.1 + 4 * (Wanted.of id).entry) = some offset
  slotInside : typeChunk.2.1 + 4 * (Wanted.of id).entry + 4 ≤ typeChunk.2.2
  used : offset ≠ noEntry
  headerInside : entriesStart.toNat + offset.toNat + 8 ≤ typeChunk.2.2
  hentry : le16 data (place + entriesStart.toNat + offset.toNat) = some entrySize ∧
    le16 data (place + entriesStart.toNat + offset.toNat + 2) = some flags
  plain : flags.toNat.testBit 0 = false
  valueInside : entriesStart.toNat + offset.toNat + entrySize.toNat + 8 ≤ typeChunk.2.2
  isString :
    data[place + entriesStart.toNat + offset.toNat + entrySize.toNat + 3]? = some typeString
  hindex : le32 data (place + entriesStart.toNat + offset.toNat + entrySize.toNat + 4) = some index

/-- The string that an entry refers to. -/
def Entry.string (entry : Entry data id) : Option String := entry.pool.get entry.index.toNat

/-- **In a tidy table what is found is the string of an entry.** -/
theorem exists_entry (htidy : Tidy data id) (h : stringResource data id = some s) :
    ∃ entry : Entry data id, entry.string = some s := by
  obtain ⟨⟨kind, header, size⟩, htable, -⟩ := bind_eq_some_iff.1 h
  rw [stringResource_eq htable] at h
  split_ifs at h with hkind
  rw [not_ne_iff] at hkind
  subst hkind
  obtain ⟨pool, hpool, h⟩ := bind_eq_some_iff.1 h
  obtain ⟨first, hfirst, h⟩ := bind_eq_some_iff.1 h
  -- the package
  obtain ⟨m, p, c, hreached, hlook⟩ := walk_eq_some h
  obtain ⟨hp, hafter⟩ := hreached.chunk
  obtain ⟨hm, hpackage, h⟩ := packageLook_stop hlook
  have htidy := htidy header size pool first htable hpool hfirst m p c hreached hm hpackage
  have hroom := packageString_size (chunk_size hp).1 h
  obtain ⟨packageId, hpackageId, h⟩ := bind_eq_some_iff.1 h
  split_ifs at h with hid
  rw [not_ne_iff] at hid
  -- the chunk of the type
  obtain ⟨m', q, c', hreached', hlook'⟩ := walk_eq_some h
  obtain ⟨hq, hafter'⟩ := hreached'.chunk
  obtain ⟨hm', htype, kind, hkind, hwanted, h⟩ := typeLook_stop hlook'
  have hfits := (htidy packageId hpackageId hid m' q c' hreached' hm' htype).entry kind hkind hwanted
  -- the entry
  obtain ⟨entry, hentry, h⟩ := bind_eq_some_iff.1 h
  obtain ⟨value, hvalue, h⟩ := bind_eq_some_iff.1 h
  obtain ⟨i, hi, h⟩ := bind_eq_some_iff.1 h
  obtain ⟨entryCount, entriesStart, offset, hcount, hstart, hwant, hslot, hused, rfl, hend⟩ :=
    entryAt_eq_some hentry
  obtain ⟨entrySize, flags, hsize, hflags, hplain, rfl⟩ := valueAt_eq_some hvalue
  obtain ⟨hstring, hindex⟩ := poolIndex_eq_some hi
  obtain ⟨index, hat, rfl⟩ := map_eq_some_iff.1 hindex
  have hinside := (hfits.value _ _ hentry hvalue).2 hstring
  exact ⟨{
    header := header
    size := size
    pool := pool
    package := p
    packageChunk := c
    packageId := packageId
    place := q
    typeChunk := c'
    kind := kind
    entriesStart := entriesStart
    offset := offset
    entrySize := entrySize
    flags := flags
    index := index
    isTable := htable
    hpool := hpool
    inTable := ⟨(Nat.le_add_right _ _).trans hafter, hp⟩
    isPackage := hpackage
    hpackageId := ⟨hpackageId, by omega⟩
    ofPackage := hid
    inPackage := ⟨hafter', hq⟩
    isType := htype
    hkind := ⟨hkind, hfits.fields⟩
    ofType := hwanted
    hstart := hstart
    hslot := hslot
    slotInside := hfits.slot entryCount hcount hwant
    used := hused
    headerInside := by omega
    hentry := ⟨hsize, hflags⟩
    plain := hplain
    valueInside := by omega
    isString := hstring
    hindex := hat }, h⟩

/-- What is found is the string of an entry, and what comes after the table makes no difference. -/
structure Faithful (data : List UInt8) (id : UInt32) : Prop where
  entry : ∀ s, stringResource data id = some s → ∃ entry : Entry data id, entry.string = some s
  same : ∀ kind header size, chunk data 0 data.length = some (kind, header, size) →
    ∀ more, stringResource (data.take size ++ more) id = stringResource data id

/-- **A tidy table is read as it should be.** -/
theorem faithful_of_tidy (data : List UInt8) (id : UInt32) (htidy : Tidy data id) :
    Faithful data id where
  entry := fun _ ↦ exists_entry htidy
  same := by
    intro kind header size hchunk more
    have hsize : size ≤ data.length := by simpa using (chunk_size hchunk).2.2
    have hsame : Same size data (data.take size ++ more) := by
      refine ⟨hsize, ?_, ?_⟩
      · rw [List.length_append, List.length_take]
        omega
      · rw [List.take_append_of_le_length (by rw [List.length_take]; omega), List.take_take,
          Nat.min_self]
    exact (stringResource_same hsame hchunk htidy).symm

/-! ## A value after its chunk -/

/-- A table of one string, `a`, and one entry, in a type's chunk of this size.  The entry's value
ends 40 bytes after the start of the chunk. -/
def tableOf (typeSize : ℕ) : List UInt8 :=
  le16Bytes resTable ++ le16Bytes 12 ++ le32Bytes (60 + typeSize) ++ le32Bytes 1 ++
    -- the pool
    le16Bytes Axml.stringPoolType ++ le16Bytes 28 ++ le32Bytes 36 ++ le32Bytes 1 ++ le32Bytes 0 ++
    le32Bytes 256 ++ le32Bytes 32 ++ le32Bytes 0 ++ le32Bytes 0 ++ [1, 1, 97, 0] ++
    -- the package and the type's chunk
    le16Bytes resTablePackage ++ le16Bytes 12 ++ le32Bytes (12 + typeSize) ++ le32Bytes 0x7f ++
    le16Bytes resTableType ++ le16Bytes 20 ++ le32Bytes typeSize ++ le32Bytes 1 ++ le32Bytes 1 ++
    le32Bytes 24 ++ le32Bytes 0 ++
    -- the entry and its value
    le16Bytes 8 ++ le16Bytes 0 ++ le32Bytes 0 ++ le16Bytes 8 ++ [0, 3] ++ le32Bytes 0

theorem stringResource_tableOf : stringResource (tableOf 32) 0x7f010000 = some "a" ∧
    stringResource ((tableOf 32).take 92 ++ []) 0x7f010000 = none := by
  decide +kernel

/-- The value is after the end of the table. -/
theorem not_faithful_tableOf : ¬Faithful (tableOf 32) 0x7f010000 := by
  intro h
  have hsame := h.same resTable 12 92 (by decide +kernel) []
  rw [stringResource_tableOf.1, stringResource_tableOf.2] at hsame
  cases hsame

theorem tidy_tableOf : Tidy (tableOf 40) 0x7f010000 := by
  intro header size pool first htable hpool hfirst m q c hreached hm hkind
  have hchunk : chunk (tableOf 40) 0 (tableOf 40).length = some (resTable, 12, 100) := by
    decide +kernel
  obtain ⟨-, rfl, rfl⟩ : resTable = resTable ∧ 12 = header ∧ 100 = size := by
    simpa [hchunk] using htable
  have hparse : StringPool.parse (tableOf 40) 12 100 =
      some ⟨((tableOf 40).take 48).drop 12, 1, 28, 32, true⟩ := by decide +kernel
  obtain rfl := some.inj (hparse.symm.trans hpool)
  have hpoolChunk : chunk (tableOf 40) 12 100 = some (Axml.stringPoolType, 28, 36) := by
    decide +kernel
  obtain rfl := some.inj (hpoolChunk.symm.trans hfirst)
  have hpackage : chunk (tableOf 40) 48 100 = some (resTablePackage, 12, 52) := by decide +kernel
  have hpackageLook : packageLook (tableOf 40) ⟨((tableOf 40).take 48).drop 12, 1, 28, 32, true⟩
      (Wanted.of 0x7f010000) 48 (resTablePackage, 12, 52) 0 = .stop (some "a") := by
    decide +kernel
  obtain ⟨rfl, rfl, rfl⟩ := hreached.eq_of_stop hpackage hpackageLook
  intro packageId _ _ m q c hreached _ _
  have htype : chunk (tableOf 40) 60 100 = some (resTableType, 20, 40) := by decide +kernel
  have htypeLook : typeLook (tableOf 40) ⟨((tableOf 40).take 48).drop 12, 1, 28, 32, true⟩
      (Wanted.of 0x7f010000) 60 (resTableType, 20, 40) 0 = .stop (some "a") := by
    decide +kernel
  obtain ⟨rfl, rfl, rfl⟩ := hreached.eq_of_stop htype htypeLook
  refine ⟨by decide, fun _ _ _ ↦ ⟨by decide, fun _ _ _ ↦ by decide, fun entry value hentry hvalue ↦ ?_⟩⟩
  have hat : entryAt (tableOf 40) 60 20 40 0 = some 84 := by decide +kernel
  obtain rfl := some.inj (hat.symm.trans hentry)
  have hvalueAt : valueAt (tableOf 40) 84 = some 92 := by decide +kernel
  obtain rfl := some.inj (hvalueAt.symm.trans hvalue)
  exact ⟨by decide, fun _ ↦ by decide⟩

theorem faithful_tableOf : Tidy (tableOf 40) 0x7f010000 ∧ Faithful (tableOf 40) 0x7f010000 :=
  ⟨tidy_tableOf, faithful_of_tidy (tableOf 40) 0x7f010000 tidy_tableOf⟩

end Huntsman.Arsc
