import Huntsman.Apk.Archive
import Huntsman.Ledger

/-!
# The content digest of an APK

An APK's content digest covers everything but its signing block: the bytes before the block, the
central directory, and the end record with the directory's offset moved to the block's start.  Each
of these sections is hashed in chunks and the hashes are hashed again (`chunkedSha256`).

The boundaries of the sections are not hashed.  They can still be told, because the end record is a
single chunk and holds the length of the first section: `chunkedSha256_binds`.

SHA-256 is a parameter, as in `Huntsman.Ledger`: what is assumed of it is that the texts that are
hashed do not collide.
-/

set_option autoImplicit false

namespace Huntsman.Apk

open Bytes Ledger List

def chunkBytes : ℕ := 1024 * 1024

/-- `u32::to_le_bytes`. -/
def le32Bytes (n : ℕ) : List UInt8 := (bytes32 (UInt32.ofNat n)).reverse

@[simp] theorem length_le32Bytes (n : ℕ) : (le32Bytes n).length = 4 := rfl

theorem le32Bytes_injective {m n : ℕ} (hm : m < 2 ^ 32) (hn : n < 2 ^ 32)
    (h : le32Bytes m = le32Bytes n) : m = n := by
  have hword := congrArg UInt32.toNat (bytes32_injective (reverse_injective h))
  rwa [UInt32.toNat_ofNat', UInt32.toNat_ofNat', Nat.mod_eq_of_lt hm, Nat.mod_eq_of_lt hn] at hword

/-- The end record with the directory's offset moved to `offset`. -/
def correctedEnd (fin : List UInt8) (offset : ℕ) : List UInt8 :=
  fin.take 16 ++ (le32Bytes offset ++ fin.drop 20)

/-- The sections that are digested. -/
def chunkedSections (apk : List UInt8) (signingStart directoryStart eocdAt : ℕ) :
    Option (List (List UInt8)) :=
  if directoryStart < signingStart ∨ eocdAt < directoryStart then none
  else if 2 ^ 32 ≤ signingStart then none
  else if apk.length < eocdAt then none
  else
    let fin := apk.drop eocdAt
    if fin.take 4 ≠ eocdSignature ∨ fin.length < 22 then none
    else
      match slice apk 0 signingStart, slice apk directoryStart eocdAt with
      | some front, some directory => some [front, directory, correctedEnd fin signingStart]
      | _, _ => none

/-- The chunks of all sections. -/
def partsOf (sections : List (List UInt8)) : List (List UInt8) :=
  sections.flatMap (Pieces.chunks chunkBytes)

def chunkText (part : List UInt8) : List UInt8 := 0xa5 :: (le32Bytes part.length ++ part)

section Sha

variable (sha256 : List UInt8 → Digest)

def rootText (parts : List (List UInt8)) : List UInt8 :=
  0x5a :: (le32Bytes parts.length ++ (parts.map fun part ↦ sha256 (chunkText part)).flatMap (·.1))

def chunkedSha256 (apk : List UInt8) (signingStart directoryStart eocdAt : ℕ) : Option Digest :=
  match chunkedSections apk signingStart directoryStart eocdAt with
  | none => none
  | some sections =>
    if 2 ^ 32 ≤ (partsOf sections).length then none
    else some (sha256 (rootText sha256 (partsOf sections)))

/-- The texts that a content digest hashes. -/
def hashed (apk : List UInt8) (signingStart directoryStart eocdAt : ℕ) : List (List UInt8) :=
  match chunkedSections apk signingStart directoryStart eocdAt with
  | none => []
  | some sections => rootText sha256 (partsOf sections) :: (partsOf sections).map chunkText

end Sha

/-! ## The chunks -/

theorem chunkText_injective : Function.Injective chunkText := by
  intro a b h
  exact (append_inj (cons.inj h).2 rfl).2

theorem map_injOn {α β : Type} {f : α → β} {xs ys : List α}
    (hf : ∀ x ∈ xs, ∀ y ∈ ys, f x = f y → x = y) (h : xs.map f = ys.map f) : xs = ys := by
  have hlength := congrArg length h
  rw [length_map, length_map] at hlength
  refine ext_getElem hlength fun i hi hi' ↦ ?_
  refine hf _ (getElem_mem hi) _ (getElem_mem hi') ?_
  have hget := getElem_of_eq h (by rwa [length_map])
  rwa [getElem_map, getElem_map] at hget

variable {sha256 : List UInt8 → Digest}

/-- The root's text determines the digests of the chunks, and they the chunks. -/
theorem rootText_injOn {parts other : List (List UInt8)}
    (hno : ∀ x ∈ parts, ∀ y ∈ other, sha256 (chunkText x) = sha256 (chunkText y) →
      chunkText x = chunkText y)
    (h : rootText sha256 parts = rootText sha256 other) : parts = other := by
  have hdigests : Function.Injective fun digests : List Digest ↦ digests.flatMap (·.1) := by
    refine Codes.Delimited.flatMap_injective ?_ fun digest ↦ ?_
    · exact Codes.Delimited.of_length (fun a b ↦ a.2.trans b.2.symm) Subtype.val_injective
    · intro hnil
      have hlength := digest.2
      rw [hnil] at hlength
      simp at hlength
  have hmap := hdigests (append_inj (cons.inj h).2 rfl).2
  exact map_injOn (fun x hx y hy hxy ↦ chunkText_injective (hno x hx y hy hxy)) hmap

/-- The sections a digest covers. -/
structure Sections (apk : List UInt8) (signingStart directoryStart eocdAt : ℕ)
    (front directory : List UInt8) : Prop where
  front : slice apk 0 signingStart = some front
  directory : slice apk directoryStart eocdAt = some directory
  starts : signingStart ≤ directoryStart
  start_lt : signingStart < 2 ^ 32
  end_length : 22 ≤ (apk.drop eocdAt).length

theorem chunkedSections_spec {apk : List UInt8} {signingStart directoryStart eocdAt : ℕ}
    {sections : List (List UInt8)}
    (h : chunkedSections apk signingStart directoryStart eocdAt = some sections) :
    ∃ front directory, Sections apk signingStart directoryStart eocdAt front directory ∧
      sections = [front, directory, correctedEnd (apk.drop eocdAt) signingStart] := by
  unfold chunkedSections at h
  split at h
  · simp at h
  · split at h
    · simp at h
    · split at h
      · simp at h
      · simp only at h
        split at h
        · simp at h
        · split at h
          · rename_i hle hlt hin hend _ _ front directory hfront hdirectory
            refine ⟨front, directory, ⟨hfront, hdirectory, ?_, ?_, ?_⟩, (Option.some.inj h).symm⟩
            · omega
            · omega
            · exact Nat.not_lt.1 (not_or.1 hend).2
          · simp at h

theorem chunkedSha256_spec {apk : List UInt8} {signingStart directoryStart eocdAt : ℕ}
    {digest : Digest}
    (h : chunkedSha256 sha256 apk signingStart directoryStart eocdAt = some digest) :
    ∃ front directory, Sections apk signingStart directoryStart eocdAt front directory ∧
      ∃ parts, parts = partsOf [front, directory, correctedEnd (apk.drop eocdAt) signingStart] ∧
        digest = sha256 (rootText sha256 parts) ∧
        hashed sha256 apk signingStart directoryStart eocdAt =
          rootText sha256 parts :: parts.map chunkText := by
  unfold chunkedSha256 at h
  split at h
  · simp at h
  · rename_i sections hsections
    split at h
    · simp at h
    · obtain ⟨front, directory, hspec, rfl⟩ := chunkedSections_spec hsections
      refine ⟨front, directory, hspec, _, rfl, (Option.some.inj h).symm, ?_⟩
      rw [hashed, hsections]

/-! ## What a digest binds -/

theorem correctedEnd_eq {fin other : List UInt8} {offset there : ℕ} (hfin : 22 ≤ fin.length)
    (hother : 22 ≤ other.length) (hoffset : offset < 2 ^ 32) (hthere : there < 2 ^ 32)
    (h : correctedEnd fin offset = correctedEnd other there) :
    offset = there ∧ fin.take 16 = other.take 16 ∧ fin.drop 20 = other.drop 20 := by
  have hlength : (fin.take 16).length = (other.take 16).length := by
    rw [length_take, length_take]
    omega
  obtain ⟨hhead, hrest⟩ := append_inj h hlength
  obtain ⟨hword, htail⟩ := append_inj hrest rfl
  exact ⟨le32Bytes_injective hoffset hthere hword, hhead, htail⟩

theorem length_correctedEnd {fin : List UInt8} (offset : ℕ) (hfin : 22 ≤ fin.length) :
    (correctedEnd fin offset).length = fin.length := by
  rw [correctedEnd, length_append, length_append, length_take, length_drop,
    length_le32Bytes]
  omega

/-- The chunks of the sections, when the end record is a chunk. -/
theorem partsOf_sections {front directory fin : List UInt8} (hfin : 22 ≤ fin.length)
    (hchunk : fin.length ≤ chunkBytes) :
    partsOf [front, directory, fin] =
      (Pieces.chunks chunkBytes front ++ Pieces.chunks chunkBytes directory) ++ [fin] := by
  have hne : fin ≠ [] := length_pos_iff.1 (by omega)
  rw [partsOf, flatMap_cons, flatMap_cons, flatMap_singleton,
    Pieces.chunks_of_le hne hchunk, append_assoc]

/-- What two archives with one digest share. -/
structure SameSections (data other : List UInt8) (start start' central central' fin fin' : ℕ)
    (front directory : List UInt8) : Prop where
  start_eq : start = start'
  front_left : slice data 0 start = some front
  front_right : slice other 0 start = some front
  directory_left : slice data central fin = some directory
  directory_right : slice other central' fin' = some directory
  end_head : (data.drop fin).take 16 = (other.drop fin').take 16
  end_tail : (data.drop fin).drop 20 = (other.drop fin').drop 20
  starts_left : start ≤ central
  starts_right : start ≤ central'

/-- **A content digest binds its sections**: two archives of one digest, whose end records are ones
that can be found, have the same sections. -/
theorem chunkedSha256_binds {data other : List UInt8} {start start' central central' fin fin' : ℕ}
    {digest : Digest}
    (hno : ∀ x ∈ hashed sha256 data start central fin, ∀ y ∈ hashed sha256 other start' central' fin',
      sha256 x = sha256 y → x = y)
    (h : chunkedSha256 sha256 data start central fin = some digest)
    (h' : chunkedSha256 sha256 other start' central' fin' = some digest)
    (hend : data.length ≤ fin + 22 + 65535) (hend' : other.length ≤ fin' + 22 + 65535) :
    ∃ front directory, SameSections data other start start' central central' fin fin' front
      directory := by
  obtain ⟨front, directory, hs, parts, hparts, hdigest, hhashed⟩ := chunkedSha256_spec h
  obtain ⟨front', directory', hs', parts', hparts', hdigest', hhashed'⟩ := chunkedSha256_spec h'
  rw [hhashed, hhashed'] at hno
  have hroot : rootText sha256 parts = rootText sha256 parts' :=
    hno _ (.head _) _ (.head _) (hdigest.symm.trans hdigest')
  have heq : parts = parts' := by
    refine rootText_injOn (fun x hx y hy hxy ↦ ?_) hroot
    exact hno _ (.tail _ (mem_map_of_mem hx)) _
      (.tail _ (mem_map_of_mem hy)) hxy
  have hsmall : ∀ (d : List UInt8) (f : ℕ), d.length ≤ f + 22 + 65535 →
      (d.drop f).length ≤ chunkBytes := by
    intro d f hd
    have hchunk : chunkBytes = 1048576 := rfl
    rw [length_drop]
    omega
  have hfin := length_correctedEnd start hs.end_length
  have hfin' := length_correctedEnd start' hs'.end_length
  rw [hparts, hparts', partsOf_sections (hfin ▸ hs.end_length) (hfin ▸ hsmall _ _ hend),
    partsOf_sections (hfin' ▸ hs'.end_length) (hfin' ▸ hsmall _ _ hend')] at heq
  -- the end record is the last chunk, and it holds the length of the first section
  obtain ⟨hchunks, hrecord⟩ := append_inj' heq rfl
  obtain ⟨rfl, hhead, htail⟩ := correctedEnd_eq hs.end_length hs'.end_length hs.start_lt hs'.start_lt
    (cons.inj hrecord).1
  have hlength : front.length = front'.length := by
    rw [length_of_slice hs.front, length_of_slice hs'.front]
  obtain ⟨hfront, hdirectory⟩ := append_inj hchunks (Pieces.length_chunks_congr hlength)
  have hne : chunkBytes ≠ 0 := by decide
  obtain rfl := Pieces.chunks_injective hne hfront
  obtain rfl := Pieces.chunks_injective hne hdirectory
  exact ⟨front, directory, rfl, hs.front, hs'.front, hs.directory, hs'.directory, hhead, htail,
    hs.starts, hs'.starts⟩

end Huntsman.Apk
