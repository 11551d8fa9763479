import Huntsman.Apk.Digest

/-!
# What an APK's content digest binds

Two archives with one content digest have the same bytes before their signing blocks and the same
central directories, so they list the same members (`Paired`).  A member's local header and payload
only have to end before the central directory, though, and may lie in the signing block, which no
digest covers: `binds_iff` says that the members' bytes are the same exactly when what of them lies
in the block is, and `payload_in_block` is a pair of archives whose manifests differ.
-/

set_option autoImplicit false

namespace Huntsman.Apk

open Bytes Ledger List

/-! ## What is bound -/

/-- Members with the same headers and bytes, which are therefore read as the same. -/
structure SameMember (data other : List UInt8) (m m' : Member) : Prop where
  name : m.name = m'.name
  flags : m.flags = m'.flags
  method : m.method = m'.method
  crc : m.crc = m'.crc
  size : m.size = m'.size
  payloadLen : m.payloadLen = m'.payloadLen
  payload : m.payload data = m'.payload other
  read : ∀ inflate crc32 limit budget,
    readMember inflate crc32 data m limit budget = readMember inflate crc32 other m' limit budget

theorem readMember_congr {data other : List UInt8} {m m' : Member} (hname : m.name = m'.name)
    (hflags : m.flags = m'.flags) (hmethod : m.method = m'.method) (hcrc : m.crc = m'.crc)
    (hsize : m.size = m'.size) (hlen : m.payloadLen = m'.payloadLen)
    (hpayload : m.payload data = m'.payload other)
    (inflate : List UInt8 → ℕ → Except String (List UInt8)) (crc32 : List UInt8 → UInt32)
    (limit budget : ℕ) :
    readMember inflate crc32 data m limit budget = readMember inflate crc32 other m' limit budget := by
  unfold readMember
  rw [hname, hflags, hmethod, hcrc, hsize, hpayload, hlen]

/-- The bytes of a member's payload that lie in the signing block, from `start` on. -/
def Member.inBlock (data : List UInt8) (start : ℕ) (m : Member) : List UInt8 :=
  (m.payload data).drop (start - m.payloadStart)

/-- What an authenticated digest is to bind: the bytes before the signing block, the central
directory and the end record but for the directory's offset, and the members, the manifest and the
libraries among them. -/
structure Bound (data other : List UInt8) (x y : Archive) (start start' fin fin' : ℕ) : Prop where
  before : data.take start = other.take start'
  directory : slice data x.directoryStart fin = slice other y.directoryStart fin'
  end_head : (data.drop fin).take 16 = (other.drop fin').take 16
  end_tail : (data.drop fin).drop 20 = (other.drop fin').drop 20
  members : List.Forall₂ (SameMember data other) x.members y.members
  manifest : Option.Rel (SameMember data other) x.manifest y.manifest
  native : List.Forall₂ (fun p q ↦ p.1 = q.1 ∧ SameMember data other p.2 q.2) x.native y.native

/-- Members with the same headers, of which only those that reach into the signing block may lie in
different places. -/
structure Paired (start : ℕ) (m m' : Member) : Prop where
  name : m.name = m'.name
  flags : m.flags = m'.flags
  method : m.method = m'.method
  crc : m.crc = m'.crc
  size : m.size = m'.size
  payloadLen : m.payloadLen = m'.payloadLen
  place : m.payloadStart = m'.payloadStart ∨ start ≤ m.payloadStart ∧ start ≤ m'.payloadStart

section Members

variable {data other front directory : List UInt8} {start central central' fin fin' : ℕ}

/-- Two archives with the same bytes before `start` and the same directory list the same entries. -/
theorem MemberAt.paired (hfront : slice data 0 start = some front)
    (hfront' : slice other 0 start = some front)
    (hdirectory : slice data central fin = some directory)
    (hdirectory' : slice other central' fin' = some directory) {pos dirStart dirStart' dirEnd dirEnd' : ℕ}
    {m m' : Member} {e e' : Headers} (hm : MemberAt data (central + pos) dirStart dirEnd m e)
    (hm' : MemberAt other (central' + pos) dirStart' dirEnd' m' e') (hdirEnd : dirEnd ≤ fin) :
    Paired start m m' ∧ ∃ next, m.next = central + next ∧ m'.next = central' + next := by
  have hlength := length_of_slice hdirectory
  have hnext := hm.next_le
  have hnext_eq := hm.next_eq
  have read16 : ∀ k, k + 2 ≤ 46 →
      le16 data (central + pos + k) = le16 other (central' + pos + k) := by
    intro k hk
    rw [Nat.add_assoc, le16_slice hdirectory (by omega), Nat.add_assoc,
      le16_slice hdirectory' (by omega)]
  have read32 : ∀ k, k + 4 ≤ 46 →
      le32 data (central + pos + k) = le32 other (central' + pos + k) := by
    intro k hk
    rw [Nat.add_assoc, le32_slice hdirectory (by omega), Nat.add_assoc,
      le32_slice hdirectory' (by omega)]
  have same : ∀ {α : Type} {x y : Option α} {a b : α}, x = y → x = some a → y = some b → a = b :=
    fun hxy ha hb ↦ Option.some.inj (ha.symm.trans (hxy.trans hb))
  have hnameLen := same (read16 28 (by omega)) hm.nameLen hm'.nameLen
  have hextra := same (read16 30 (by omega)) hm.extra hm'.extra
  have hcomment := same (read16 32 (by omega)) hm.comment hm'.comment
  have hlocalAt := same (read32 42 (by omega)) hm.localAt hm'.localAt
  have hpacked := same (read32 20 (by omega)) hm.packed hm'.packed
  have hsize := same (read32 24 (by omega)) hm.size hm'.size
  have hraw : e.raw = e'.raw := by
    have hrange := hm.raw
    have hrange' := hm'.raw
    rw [Nat.add_assoc, checkedRange_slice hdirectory (by omega)] at hrange
    rw [Nat.add_assoc, ← hnameLen, checkedRange_slice hdirectory' (by omega)] at hrange'
    exact Option.some.inj (hrange.symm.trans hrange')
  have hname : m.name = m'.name :=
    Option.some.inj (hm.name.symm.trans (hraw ▸ hm'.name))
  refine ⟨⟨hname, same (read16 8 (by omega)) hm.flags hm'.flags,
    same (read16 10 (by omega)) hm.method hm'.method,
    same (read32 16 (by omega)) hm.crc hm'.crc, ?_, ?_, ?_⟩, ?_⟩
  · rw [hm.size_eq, hm'.size_eq, hsize]
  · rw [hm.payloadLen_eq, hm'.payloadLen_eq, hpacked]
  · rw [hm.payloadStart_eq, hm'.payloadStart_eq, ← hlocalAt, ← hnameLen]
    -- only a local header in the block can state another length of its extra field
    by_cases hinside : e.localAt.toNat + 30 ≤ start
    · have hin : e.localAt.toNat + 28 + 2 ≤ front.length := by
        rw [length_of_slice hfront]
        exact hinside
      have hread : le16 data (e.localAt.toNat + 28) = le16 other (e'.localAt.toNat + 28) := by
        have hleft := le16_slice hfront hin
        have hright := le16_slice hfront' hin
        rw [Nat.zero_add] at hleft hright
        rw [hleft, ← hlocalAt, hright]
      exact .inl (by rw [same hread hm.localExtra hm'.localExtra])
    · right
      omega
  · refine ⟨pos + 46 + e.nameLen.toNat + e.extra.toNat + e.comment.toNat, ?_, ?_⟩
    · omega
    · rw [hm'.next_eq, ← hnameLen, ← hextra, ← hcomment]
      omega

/-- So they read the same entries from it. -/
theorem readEntries_paired (hfront : slice data 0 start = some front)
    (hfront' : slice other 0 start = some front)
    (hdirectory : slice data central fin = some directory)
    (hdirectory' : slice other central' fin' = some directory)
    {dirStart dirStart' dirEnd dirEnd' : ℕ} (hdirEnd : dirEnd ≤ fin) (n : ℕ) {pos : ℕ}
    {members members' : List Member} {last last' : ℕ}
    (h : readEntries data dirStart dirEnd n (central + pos) = .ok (members, last))
    (h' : readEntries other dirStart' dirEnd' n (central' + pos) = .ok (members', last')) :
    List.Forall₂ (Paired start) members members' := by
  induction n generalizing pos members members' with
  | zero =>
    cases h
    cases h'
    exact .nil
  | succ n ih =>
    obtain ⟨m, rest, hm, hrest, rfl⟩ := readEntries_succ h
    obtain ⟨m', rest', hm', hrest', rfl⟩ := readEntries_succ h'
    obtain ⟨e, he⟩ := member_spec hm
    obtain ⟨e', he'⟩ := member_spec hm'
    obtain ⟨hpaired, next, hnext, hnext'⟩ :=
      he.paired hfront hfront' hdirectory hdirectory' he' hdirEnd
    rw [hnext] at hrest
    rw [hnext'] at hrest'
    exact .cons hpaired (ih hrest hrest')

theorem take_of_front (h : slice data 0 start = some front) : data.take start = front := by
  unfold slice at h
  split at h
  · exact Option.some.inj h
  · simp at h

/-- The bytes of members that are paired are the same if what of them lies in the block is. -/
theorem Paired.same_iff {m m' : Member} (h : Paired start m m')
    (hbefore : data.take start = other.take start) :
    SameMember data other m m' ↔ m.inBlock data start = m'.inBlock other start := by
  constructor
  · intro hsame
    rw [Member.inBlock, Member.inBlock, hsame.payload]
    rcases h.place with hplace | hplace
    · rw [hplace]
    · rw [Nat.sub_eq_zero_of_le hplace.1, Nat.sub_eq_zero_of_le hplace.2]
  · intro hblock
    suffices hpayload : m.payload data = m'.payload other from
      ⟨h.name, h.flags, h.method, h.crc, h.size, h.payloadLen, hpayload,
        readMember_congr h.name h.flags h.method h.crc h.size h.payloadLen hpayload⟩
    rw [Member.inBlock, Member.inBlock] at hblock
    rcases h.place with hplace | hplace
    · rw [← hplace] at hblock
      have htake : ∀ bytes : List UInt8, ∀ n p,
          ((bytes.drop p).take n).take (start - p) = ((bytes.take start).drop p).take n := by
        intro bytes n p
        rw [drop_take, take_take, take_take, Nat.min_comm]
      have hfirst : (m.payload data).take (start - m.payloadStart) =
          (m'.payload other).take (start - m.payloadStart) := by
        rw [Member.payload, Member.payload, htake, ← hplace, htake, hbefore, h.payloadLen]
      rw [← take_append_drop (start - m.payloadStart) (m.payload data), hfirst, hblock,
        take_append_drop]
    · rwa [Nat.sub_eq_zero_of_le hplace.1, Nat.sub_eq_zero_of_le hplace.2] at hblock

/-- Nothing of a payload that ends before the block lies in it. -/
theorem Paired.inBlock_eq {m m' : Member} (h : Paired start m m')
    (hm : m.payloadStart + m.payloadLen ≤ start) :
    m.inBlock data start = m'.inBlock other start := by
  have hnil : ∀ (bytes : List UInt8) (p : ℕ), p + m.payloadLen ≤ start ∨ m.payloadLen = 0 →
      ((bytes.drop p).take m.payloadLen).drop (start - p) = [] := by
    intro bytes p hp
    rw [drop_eq_nil_iff, length_take]
    omega
  rw [Member.inBlock, Member.inBlock, Member.payload, Member.payload, ← h.payloadLen,
    hnil data _ (.inl hm), hnil other]
  rcases h.place with hplace | hplace
  · exact .inl (hplace ▸ hm)
  · exact .inr (by omega)

end Members

/-! ## Members that are read -/

section Picks

variable {α β γ δ : Type} {r : α → β → Prop} {xs : List α} {ys : List β}

theorem rel_find? {p : α → Bool} {q : β → Bool} (hpq : ∀ a b, r a b → p a = q b)
    (h : List.Forall₂ r xs ys) : Option.Rel r (xs.find? p) (ys.find? q) := by
  induction h with
  | nil => exact .none
  | cons hab _ ih =>
    rw [find?_cons, find?_cons, ← hpq _ _ hab]
    split
    · exact .some hab
    · exact ih

theorem forall₂_both {p q : α → β → Prop} (hpq : ∀ a b, p a b → q a b → r a b)
    (hp : List.Forall₂ p xs ys) (hq : List.Forall₂ q xs ys) : List.Forall₂ r xs ys := by
  induction hp with
  | nil => exact .nil
  | cons hab _ ih =>
    cases hq with
    | cons hab' hq => exact .cons (hpq _ _ hab hab') (ih hq)

theorem forall₂_filterMap {s : γ → δ → Prop} {f : α → Option γ} {g : β → Option δ}
    (hfg : ∀ a b, r a b → Option.Rel s (f a) (g b)) (h : List.Forall₂ r xs ys) :
    List.Forall₂ s (xs.filterMap f) (ys.filterMap g) := by
  induction h with
  | nil => exact .nil
  | cons hab _ ih =>
    rename_i a b xs ys _
    have hrel := hfg a b hab
    rw [filterMap_cons, filterMap_cons]
    rcases hf : f a with _ | c
    · rw [hf] at hrel
      rcases hg : g b with _ | d
      · exact ih
      · rw [hg] at hrel
        cases hrel
    · rw [hf] at hrel
      rcases hg : g b with _ | d
      · rw [hg] at hrel
        cases hrel
      · rw [hg] at hrel
        cases hrel with
        | some hcd => exact .cons hcd ih

end Picks

section Walk

variable {data other : List UInt8} {x y : Archive} {start start' fin fin' : ℕ} {digest : Digest}

theorem walk_manifest (h : walk data = .ok x) :
    x.manifest = x.members.find? fun m ↦ m.name == "AndroidManifest.xml" := by
  obtain ⟨_, _, _, _, -, -, hx⟩ := walk_spec h
  rw [hx]
  rfl

theorem walk_native (h : walk data = .ok x) :
    x.native = (x.members.filterMap fun m ↦ (nativeAbi m.name).map fun abi ↦ (abi, m)).take
      maxNativeLibsRead := by
  obtain ⟨_, _, _, _, -, -, hx⟩ := walk_spec h
  rw [hx]
  rfl

/-- Members are chosen by their names. -/
theorem native_rel {m m' : Member} (h : SameMember data other m m') :
    Option.Rel (fun p q ↦ p.1 = q.1 ∧ SameMember data other p.2 q.2)
      ((nativeAbi m.name).map fun abi ↦ (abi, m)) ((nativeAbi m'.name).map fun abi ↦ (abi, m')) := by
  rw [← h.name]
  rcases nativeAbi m.name with _ | abi
  · exact .none
  · exact .some ⟨rfl, h⟩

/-- The entry count is in what two end records of one digest share. -/
theorem le16_end (hfin : fin + 22 ≤ data.length) (hfin' : fin' + 22 ≤ other.length)
    (h : (data.drop fin).take 16 = (other.drop fin').take 16) :
    le16 data (fin + 10) = le16 other (fin' + 10) := by
  have hslice : ∀ (bytes : List UInt8) (pos : ℕ), pos + 22 ≤ bytes.length →
      slice bytes pos (pos + 16) = some ((bytes.drop pos).take 16) := by
    intro bytes pos hpos
    rw [slice, if_pos (by omega), Nat.add_sub_cancel_left]
  have hlength : 10 + 2 ≤ ((data.drop fin).take 16).length := by
    rw [length_take, length_drop]
    omega
  rw [le16_slice (hslice data fin hfin) hlength, h, le16_slice (hslice other fin' hfin') (h ▸ hlength)]

/-- An archive that `walk` accepts and that has a signing block, and its content digest. -/
structure Digested (sha256 : List UInt8 → Digest) (data : List UInt8) (archive : Archive)
    (start fin : ℕ) (digest : Digest) : Prop where
  accepted : walk data = .ok archive
  block : archive.signingStart = some start
  ending : eocd data = .ok fin
  digested : chunkedSha256 sha256 data start archive.directoryStart fin = some digest

theorem Digested.paired {sha256 : List UInt8 → Digest} (hx : Digested sha256 data x start fin digest)
    (hy : Digested sha256 other y start' fin' digest) {front directory : List UInt8}
    (h : SameSections data other start start' x.directoryStart y.directoryStart fin fin' front
      directory) : List.Forall₂ (Paired start) x.members y.members := by
  obtain ⟨count, dirEnd, members, last, hbounds, hentries, hmembers⟩ := walk_spec hx.accepted
  obtain ⟨count', dirEnd', members', last', hbounds', hentries', hmembers'⟩ := walk_spec hy.accepted
  obtain ⟨end₁, width, hat⟩ := directoryBounds_spec hbounds
  obtain ⟨end₂, width', hat'⟩ := directoryBounds_spec hbounds'
  obtain rfl := Except.ok.inj (hat.eocd.symm.trans hx.ending)
  obtain rfl := Except.ok.inj (hat'.eocd.symm.trans hy.ending)
  have hcount : count = count' := by
    obtain ⟨n, hn, rfl⟩ := hat.count
    obtain ⟨n', hn', rfl⟩ := hat'.count
    have hread := le16_end (eocd_spec hat.eocd).2.1 (eocd_spec hat'.eocd).2.1 h.end_head
    rw [hn, hn'] at hread
    rw [Option.some.inj hread]
  subst hcount
  have hfirst : readEntries data x.directoryStart dirEnd count (x.directoryStart + 0) =
      .ok (members, last) := hentries
  have hfirst' : readEntries other y.directoryStart dirEnd' count (y.directoryStart + 0) =
      .ok (members', last') := hentries'
  rw [hmembers, hmembers']
  exact readEntries_paired h.front_left h.front_right h.directory_left h.directory_right hat.dirEnd_le
    count hfirst hfirst'

/-- **A content digest binds what is read** exactly when it binds what of the members' payloads lies
in the signing block, and always when nothing of them does. -/
theorem binds_iff {sha256 : List UInt8 → Digest} (hx : Digested sha256 data x start fin digest)
    (hy : Digested sha256 other y start' fin' digest)
    (hno : ∀ s ∈ hashed sha256 data start x.directoryStart fin,
      ∀ t ∈ hashed sha256 other start' y.directoryStart fin', sha256 s = sha256 t → s = t) :
    (Bound data other x y start start' fin fin' ↔
      List.Forall₂ (fun m m' ↦ m.inBlock data start = m'.inBlock other start') x.members y.members) ∧
    ((∀ m ∈ x.members, m.payloadStart + m.payloadLen ≤ start) →
      Bound data other x y start start' fin fin') := by
  obtain ⟨front, directory, h⟩ := chunkedSha256_binds hno hx.digested hy.digested
    (eocd_spec hx.ending).2.2 (eocd_spec hy.ending).2.2
  have hpaired := hx.paired hy h
  obtain rfl := h.start_eq
  have hbefore : data.take start = other.take start := by
    rw [take_of_front h.front_left, take_of_front h.front_right]
  have hbound : List.Forall₂ (fun m m' ↦ m.inBlock data start = m'.inBlock other start) x.members
      y.members → Bound data other x y start start fin fin' := by
    intro hblock
    have hmembers : List.Forall₂ (SameMember data other) x.members y.members :=
      forall₂_both (fun _ _ hm ↦ (hm.same_iff hbefore).2) hpaired hblock
    refine ⟨hbefore, h.directory_left.trans h.directory_right.symm, h.end_head, h.end_tail, hmembers,
      ?_, ?_⟩
    · rw [walk_manifest hx.accepted, walk_manifest hy.accepted]
      exact rel_find? (fun m m' hm ↦ by rw [hm.name]) hmembers
    · rw [walk_native hx.accepted, walk_native hy.accepted]
      exact forall₂_take _ (forall₂_filterMap (fun m m' hm ↦ native_rel hm) hmembers)
  refine ⟨⟨fun hall ↦ ?_, hbound⟩, fun hends ↦ hbound ?_⟩
  · exact forall₂_both (fun _ _ hm ↦ (hm.same_iff hbefore).1) hpaired hall.members
  · exact ((forall₂_and_left _ _).2 ⟨hends, hpaired⟩).imp fun _ _ hm ↦ hm.2.inBlock_eq hm.1

end Walk

/-! ## Archives -/

namespace Sample

def manifestName : List UInt8 := Text.utf8 "AndroidManifest.xml"

def zeros (n : ℕ) : List UInt8 := List.replicate n 0

/-- A manifest's local header, with `extra` bytes between its name and its payload. -/
def localHeader (extra : UInt8) : List UInt8 :=
  localSignature ++ zeros 22 ++ [19, 0, extra, 0] ++ manifestName

/-- A signing block with one pair of no scheme and five bytes. -/
def block (value : List UInt8) : List UInt8 :=
  [41] ++ zeros 7 ++ ([9] ++ zeros 7 ++ [0x77, 0x65, 0x72, 0x42] ++ value) ++ [41] ++ zeros 7 ++
    apkSigMagic

/-- The manifest's entry: five bytes, stored, at the start of the archive. -/
def directory : List UInt8 :=
  centralSignature ++ zeros 12 ++ [134, 166, 16, 54, 5, 0, 0, 0, 5, 0, 0, 0, 19, 0] ++ zeros 16 ++
    manifestName

def endRecord (offset : UInt8) : List UInt8 :=
  eocdSignature ++ zeros 4 ++ [1, 0, 1, 0, 65, 0, 0, 0, offset, 0, 0, 0, 0, 0]

/-- Two manifests of one checksum. -/
def first : List UInt8 := [104, 101, 108, 108, 111]

def second : List UInt8 := [106, 73, 13, 98, 129]

/-- An archive whose manifest's payload is the value of a pair of its signing block. -/
def inside (value : List UInt8) : List UInt8 :=
  localHeader 20 ++ block value ++ directory ++ endRecord 98

/-- An archive whose manifest's payload is before its signing block. -/
def outside (value : List UInt8) : List UInt8 :=
  localHeader 0 ++ first ++ block value ++ directory ++ endRecord 103

/-- SHA-256, on the texts that are hashed here. -/
def sha256 (known : List (List UInt8 × Digest)) (root : Digest) (text : List UInt8) : Digest :=
  (known.lookup text).getD root

def directoryDigest : Digest :=
  ⟨[213, 183, 195, 169, 92, 174, 119, 201, 138, 212, 13, 61, 222, 204, 178, 161, 244, 75, 108, 236, 15,
    171, 233, 76, 228, 64, 16, 179, 62, 43, 205, 96], rfl⟩

def insideDigest : Digest :=
  ⟨[201, 7, 160, 75, 123, 114, 118, 167, 29, 128, 57, 56, 2, 25, 166, 56, 17, 74, 142, 76, 253, 51, 63,
    50, 220, 148, 106, 62, 254, 97, 167, 253], rfl⟩

def insideSha : List UInt8 → Digest :=
  sha256 [(chunkText (localHeader 20),
      ⟨[191, 187, 120, 136, 44, 211, 216, 24, 215, 69, 30, 66, 138, 134, 186, 251, 53, 206, 185, 149, 62,
        207, 97, 52, 108, 21, 165, 224, 73, 123, 113, 3], rfl⟩),
    (chunkText directory, directoryDigest),
    (chunkText (endRecord 49),
      ⟨[23, 138, 158, 77, 66, 246, 29, 253, 54, 161, 197, 101, 48, 73, 238, 245, 54, 62, 57, 70, 195, 80,
        220, 124, 248, 91, 160, 7, 17, 133, 120, 167], rfl⟩)] insideDigest

def outsideDigest : Digest :=
  ⟨[156, 32, 87, 44, 242, 227, 185, 110, 238, 205, 67, 42, 147, 21, 66, 197, 152, 157, 145, 154, 88, 198,
    252, 179, 162, 222, 0, 225, 82, 128, 154, 254], rfl⟩

def outsideSha : List UInt8 → Digest :=
  sha256 [(chunkText (localHeader 0 ++ first),
      ⟨[63, 80, 86, 18, 250, 157, 253, 111, 183, 62, 54, 242, 173, 148, 9, 177, 183, 223, 106, 156, 87, 151,
        82, 170, 14, 77, 192, 26, 42, 240, 163, 51], rfl⟩),
    (chunkText directory, directoryDigest),
    (chunkText (endRecord 54),
      ⟨[28, 132, 44, 18, 233, 110, 185, 46, 15, 171, 110, 206, 98, 83, 116, 165, 40, 174, 198, 92, 44, 149,
        239, 40, 174, 16, 196, 212, 52, 170, 203, 252], rfl⟩)] outsideDigest

/-- The archive of one manifest. -/
def archive (payloadStart start central : ℕ) : Archive :=
  archiveOf [⟨"AndroidManifest.xml", 0, 0, 0x3610a686, 5, central + 65, payloadStart, 5⟩]
    ⟨true, [], [], [], some start⟩ central

theorem digested_inside :
    Digested insideSha (inside first) (archive 69 49 98) 49 163 insideDigest ∧
      Digested insideSha (inside second) (archive 69 49 98) 49 163 insideDigest := by
  refine ⟨⟨?_, rfl, ?_, ?_⟩, ⟨?_, rfl, ?_, ?_⟩⟩ <;> decide +kernel

theorem digested_outside :
    Digested outsideSha (outside first) (archive 49 54 103) 54 168 outsideDigest ∧
      Digested outsideSha (outside second) (archive 49 54 103) 54 168 outsideDigest := by
  refine ⟨⟨?_, rfl, ?_, ?_⟩, ⟨?_, rfl, ?_, ?_⟩⟩ <;> decide +kernel

theorem noCollision_inside : ∀ s ∈ hashed insideSha (inside first) 49 98 163,
    ∀ t ∈ hashed insideSha (inside second) 49 98 163, insideSha s = insideSha t → s = t := by
  decide +kernel

theorem noCollision_outside : ∀ s ∈ hashed outsideSha (outside first) 54 103 168,
    ∀ t ∈ hashed outsideSha (outside second) 54 103 168, outsideSha s = outsideSha t → s = t := by
  decide +kernel

end Sample

/-- Signing blocks that differ, and one manifest. -/
theorem binds_outside : Bound (Sample.outside Sample.first) (Sample.outside Sample.second)
    (Sample.archive 49 54 103) (Sample.archive 49 54 103) 54 54 168 168 :=
  (binds_iff Sample.digested_outside.1 Sample.digested_outside.2 Sample.noCollision_outside).2
    (by decide)

/-- **A manifest in the signing block is bound by no digest**: two archives with one content digest
whose manifests are stored bytes of one checksum that differ. -/
theorem payload_in_block : ∃ (data other : List UInt8) (x y : Archive) (digest : Digest),
    Digested Sample.insideSha data x 49 163 digest ∧ Digested Sample.insideSha other y 49 163 digest ∧
    (∀ s ∈ hashed Sample.insideSha data 49 x.directoryStart 163,
      ∀ t ∈ hashed Sample.insideSha other 49 y.directoryStart 163,
        Sample.insideSha s = Sample.insideSha t → s = t) ∧
    x.members.map (·.payload data) = [Sample.first] ∧
    y.members.map (·.payload other) = [Sample.second] ∧
    ¬ Bound data other x y 49 49 163 163 := by
  have hfirst : (Sample.archive 69 49 98).members.map (·.payload (Sample.inside Sample.first)) =
      [Sample.first] := by
    decide +kernel
  have hsecond : (Sample.archive 69 49 98).members.map (·.payload (Sample.inside Sample.second)) =
      [Sample.second] := by
    decide +kernel
  refine ⟨_, _, _, _, _, Sample.digested_inside.1, Sample.digested_inside.2,
    Sample.noCollision_inside, hfirst, hsecond, fun hbound ↦ ?_⟩
  have hmembers := hbound.members
  rw [Sample.archive, archiveOf, forall₂_cons] at hmembers
  exact absurd hmembers.1.payload (by decide +kernel)

end Huntsman.Apk
