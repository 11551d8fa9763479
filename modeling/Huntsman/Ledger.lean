import Huntsman.Lib.Bytes
import Huntsman.Text

/-!
# The evidence ledger

A ledger is a chain of claims.  Each entry's hash covers the hash before it and every field of its
claim, so that two intact chains with one hash in common agree up to it (`chainIntact_binds`).  The
intact chains are those that sealing makes (`chainIntact_iff`).

SHA-256 is a parameter: a function to 32 bytes.  Such a function cannot be injective, so what is
assumed of it is that it does not collide on the texts the two chains hash, nor give a hash of zeros
for one of them (`NoCollision`).  A Rust `String` has fewer than `2 ^ 64` bytes, which the `u64`
before a field relies on: `Str` is that type.
-/

set_option autoImplicit false

namespace Huntsman.Ledger

open Bytes List

/-- A Rust `String`. -/
abbrev Str := {text : String // (Text.utf8 text).length < 2 ^ 64}

/-- `str::as_bytes`. -/
def asBytes (s : Str) : List UInt8 := Text.utf8 s.1

/-- A SHA-256 digest. -/
abbrev Digest := {bytes : List UInt8 // bytes.length = 32}

/-! ## Base 16 -/

def base16LowerTable : List Char := "0123456789abcdef".toList

/-- The character of half a byte. -/
def digit (n : ℕ) : Char := base16LowerTable.getD n '0'

def base16Lower (bytes : List UInt8) : List Char :=
  bytes.flatMap fun byte ↦ [digit (byte.toNat / 16), digit (byte.toNat % 16)]

theorem digit_injective : ∀ m < 16, ∀ n < 16, digit m = digit n → m = n := by decide

theorem utf8Size_digit : ∀ n < 16, (digit n).utf8Size = 1 := by decide

theorem base16Lower_injective : Function.Injective base16Lower := by
  have hbyte : Codes.Delimited fun byte : UInt8 ↦ [digit (byte.toNat / 16), digit (byte.toNat % 16)] := by
    refine Codes.Delimited.of_length (fun _ _ ↦ rfl) fun a b h ↦ ?_
    have ha := a.toNat_lt
    have hb := b.toNat_lt
    obtain ⟨hhigh, hlow⟩ := cons.inj h
    have hhigh := digit_injective _ (by omega) _ (by omega) hhigh
    have hlow := digit_injective _ (by omega) _ (by omega) (cons.inj hlow).1
    apply UInt8.toNat_inj.1
    omega
  exact hbyte.flatMap_injective fun _ ↦ cons_ne_nil _ _

theorem length_utf8_base16Lower (bytes : List UInt8) :
    (Text.utf8 (String.ofList (base16Lower bytes))).length = 2 * bytes.length := by
  rw [Text.utf8, String.toList_ofList]
  induction bytes with
  | nil => rfl
  | cons byte bytes ih =>
    have hbyte := byte.toNat_lt
    have hhigh := utf8Size_digit (byte.toNat / 16) (by omega)
    have hlow := utf8Size_digit (byte.toNat % 16) (by omega)
    rw [base16Lower, flatMap_cons, flatMap_append, length_append]
    simp only [flatMap_cons, flatMap_nil, append_nil, length_append,
      String.length_utf8EncodeChar, hhigh, hlow, length_cons]
    have ih' : ((bytes.flatMap fun byte ↦ [digit (byte.toNat / 16),
      digit (byte.toNat % 16)]).flatMap String.utf8EncodeChar).length = 2 * bytes.length := ih
    omega

/-- `hex32`. -/
def hex32 (digest : Digest) : Str :=
  ⟨String.ofList (base16Lower digest.1), by rw [length_utf8_base16Lower, digest.2]; decide⟩

theorem hex32_injective : Function.Injective hex32 := by
  intro a b h
  have htext : String.ofList (base16Lower a.1) = String.ofList (base16Lower b.1) :=
    congrArg Subtype.val h
  exact Subtype.ext (base16Lower_injective (String.ofList_injective htext))

/-! ## Claims -/

inductive Status where
  | verified | partly | unverified | notApplicable
deriving DecidableEq

def Status.asStr : Status → String
  | .verified => "verified"
  | .partly => "partial"
  | .unverified => "unverified"
  | .notApplicable => "not_applicable"

inductive EvidenceLevel where
  | assertion | derivedEvidence | primaryEvidence | independentCorroboration | directObservation
  | reproduction | endToEndDemonstration
deriving DecidableEq

def EvidenceLevel.asStr : EvidenceLevel → String
  | .assertion => "assertion"
  | .derivedEvidence => "derived_evidence"
  | .primaryEvidence => "primary_evidence"
  | .independentCorroboration => "independent_corroboration"
  | .directObservation => "direct_observation"
  | .reproduction => "reproduction"
  | .endToEndDemonstration => "end_to_end_demonstration"

structure Claim where
  claim : Str
  source : Str
  component : Str
  techniqueId : Option Str
  status : Status
  evidenceLevel : EvidenceLevel
  doesNotShow : Str
deriving DecidableEq

structure LedgerEntry where
  prev : Str
  hash : Str
  claim : Claim
deriving DecidableEq

/-- The hash before the first entry. -/
def genesis : Str :=
  ⟨"0000000000000000000000000000000000000000000000000000000000000000", by decide⟩

def preimageTag : List UInt8 := Text.utf8 "huntsman-ledger-v2"

/-- One field, its length before it. -/
def field (value : List UInt8) : List UInt8 := bytes64 (UInt64.ofNat value.length) ++ value

def preimage (prev : Str) (claim : Claim) : List UInt8 :=
  field preimageTag ++ field (asBytes prev) ++ field (asBytes claim.claim) ++
    field (asBytes claim.source) ++ field (asBytes claim.component) ++
    (match claim.techniqueId with
      | none => [0]
      | some id => 1 :: field (asBytes id)) ++
    field (Text.utf8 claim.status.asStr) ++ field (Text.utf8 claim.evidenceLevel.asStr) ++
    field (asBytes claim.doesNotShow)

/-! ## Fields -/

theorem utf8_injective : Function.Injective Text.utf8 :=
  Function.LeftInverse.injective Text.fromUtf8Lossy_utf8

theorem delimited_field : Codes.Delimited fun s : Str ↦ field (asBytes s) := by
  have hframed : Codes.Delimited fun xs : {xs : List UInt8 // xs.length < 2 ^ 64} ↦ field xs.1 := by
    refine Codes.Delimited.framed (fun n ↦ bytes64 (UInt64.ofNat n)) fun xs ys s t hx hy h ↦ ?_
    obtain ⟨hsize, hrest⟩ := append_inj h rfl
    have hsize := congrArg UInt64.toNat (bytes64_injective hsize)
    rw [UInt64.toNat_ofNat', UInt64.toNat_ofNat', Nat.mod_eq_of_lt hx, Nat.mod_eq_of_lt hy] at hsize
    exact ⟨hsize, hrest⟩
  refine hframed.comp (f := fun s : Str ↦ ⟨asBytes s, s.2⟩) fun a b h ↦ ?_
  exact Subtype.ext (utf8_injective (congrArg Subtype.val h))

theorem delimited_status : Codes.Delimited fun status : Status ↦ field (Text.utf8 status.asStr) :=
  delimited_field.comp (f := fun status : Status ↦ ⟨status.asStr, by rcases status <;> decide⟩)
    fun a b h ↦ by rcases a <;> rcases b <;> first | rfl | exact absurd h (by decide)

theorem delimited_evidenceLevel :
    Codes.Delimited fun level : EvidenceLevel ↦ field (Text.utf8 level.asStr) :=
  delimited_field.comp (f := fun level : EvidenceLevel ↦ ⟨level.asStr, by rcases level <;> decide⟩)
    fun a b h ↦ by rcases a <;> rcases b <;> first | rfl | exact absurd h (by decide)

/-- The fields of a claim after the hash before it, in the order they are hashed. -/
def Claim.fields (prev : Str) (claim : Claim) :
    Str × Str × Str × Str × Option Str × Status × EvidenceLevel × Str :=
  (prev, claim.claim, claim.source, claim.component, claim.techniqueId, claim.status,
    claim.evidenceLevel, claim.doesNotShow)

theorem delimited_fields : Codes.Delimited fun
    p : Str × Str × Str × Str × Option Str × Status × EvidenceLevel × Str ↦
      field (asBytes p.1) ++ (field (asBytes p.2.1) ++ (field (asBytes p.2.2.1) ++
        (field (asBytes p.2.2.2.1) ++
          (Codes.optional 0 1 (fun s : Str ↦ field (asBytes s)) p.2.2.2.2.1 ++
            (field (Text.utf8 p.2.2.2.2.2.1.asStr) ++ (field (Text.utf8 p.2.2.2.2.2.2.1.asStr) ++
              field (asBytes p.2.2.2.2.2.2.2))))))) :=
  delimited_field.pair (delimited_field.pair (delimited_field.pair (delimited_field.pair
    ((delimited_field.optional (by decide)).pair (delimited_status.pair
      (delimited_evidenceLevel.pair delimited_field))))))

/-- **The hashed text says what was hashed.**  No text can be moved from one field to another. -/
theorem preimage_injective {prev prev' : Str} {claim claim' : Claim}
    (h : preimage prev claim = preimage prev' claim') : prev = prev' ∧ claim = claim' := by
  have htechnique : ∀ id : Option Str, (match id with
      | none => [0]
      | some id => 1 :: field (asBytes id)) = Codes.optional 0 1 (fun s : Str ↦ field (asBytes s)) id :=
    fun id ↦ by rcases id <;> rfl
  simp only [preimage, append_assoc, append_cancel_left_eq, htechnique] at h
  have hall : claim.fields prev = claim'.fields prev' := delimited_fields.injective h
  simp only [Claim.fields, Prod.mk.injEq] at hall
  obtain ⟨hprev, hclaim, hsource, hcomponent, htechnique, hstatus, hlevel, hshow⟩ := hall
  obtain ⟨_, _, _, _, _, _, _⟩ := claim
  obtain ⟨_, _, _, _, _, _, _⟩ := claim'
  simp only at hclaim hsource hcomponent htechnique hstatus hlevel hshow
  rw [hprev, hclaim, hsource, hcomponent, htechnique, hstatus, hlevel, hshow]
  exact ⟨rfl, rfl⟩

/-! ## The chain -/

section Chain

variable (sha256 : List UInt8 → Digest)

def append (prev : Str) (claim : Claim) : LedgerEntry :=
  ⟨prev, hex32 (sha256 (preimage prev claim)), claim⟩

/-- The entries from one that follows the hash `prev` on. -/
def chainIntactFrom (prev : Str) : List LedgerEntry → Bool
  | [] => true
  | entry :: rest =>
    if entry.prev ≠ prev then false
    else if (append sha256 prev entry.claim).hash ≠ entry.hash then false
    else chainIntactFrom entry.hash rest

def chainIntact (entries : List LedgerEntry) : Bool := chainIntactFrom sha256 genesis entries

/-- The entries of claims that are sealed one after another, from one that follows `prev` on. -/
def chainFrom (prev : Str) : List Claim → List LedgerEntry
  | [] => []
  | claim :: rest =>
    let entry := append sha256 prev claim
    entry :: chainFrom entry.hash rest

def chain (claims : List Claim) : List LedgerEntry := chainFrom sha256 genesis claims

/-- The last hash of a chain. -/
def lastHash (entries : List LedgerEntry) : Str := (entries.getLast?.map (·.hash)).getD genesis

/-- The texts whose hashes a chain is made of. -/
def hashed (entries : List LedgerEntry) : List (List UInt8) :=
  entries.map fun entry ↦ preimage entry.prev entry.claim

/-- The hash does not collide on these texts, and gives the first hash for none of them. -/
structure NoCollision (texts : List (List UInt8)) : Prop where
  injective : ∀ s ∈ texts, ∀ t ∈ texts, sha256 s = sha256 t → s = t
  not_genesis : ∀ s ∈ texts, hex32 (sha256 s) ≠ genesis

variable {sha256} {a b : List LedgerEntry}

theorem NoCollision.mono {texts more : List (List UInt8)} (h : NoCollision sha256 more)
    (hsub : texts ⊆ more) : NoCollision sha256 texts :=
  ⟨fun s hs t ht ↦ h.injective s (hsub hs) t (hsub ht), fun s hs ↦ h.not_genesis s (hsub hs)⟩

theorem chainIntactFrom_append (prev : Str) (entries : List LedgerEntry) (entry : LedgerEntry) :
    chainIntactFrom sha256 prev (entries ++ [entry]) = true ↔
      chainIntactFrom sha256 prev entries = true ∧
        entry.prev = (entries.getLast?.map (·.hash)).getD prev ∧
        entry.hash = hex32 (sha256 (preimage entry.prev entry.claim)) := by
  induction entries generalizing prev with
  | nil =>
    rw [nil_append, chainIntactFrom, chainIntactFrom]
    simp only [getLast?_nil, Option.map_none, Option.getD_none, append, ne_eq, ite_not,
      true_and]
    split
    · rename_i hprev
      rw [← hprev]
      simp [chainIntactFrom, eq_comm]
    · rename_i hprev
      simp [hprev]
  | cons first rest ih =>
    rw [cons_append, chainIntactFrom, chainIntactFrom]
    split
    · simp
    · split
      · simp
      · rw [ih, getLast?_cons]
        simp

/-- **An entry added to a chain keeps it intact just when it follows the last hash and its own hash
covers it.** -/
theorem chainIntact_append (entries : List LedgerEntry) (entry : LedgerEntry) :
    chainIntact sha256 (entries ++ [entry]) = true ↔ chainIntact sha256 entries = true ∧
      entry.prev = lastHash entries ∧
      entry.hash = hex32 (sha256 (preimage entry.prev entry.claim)) :=
  chainIntactFrom_append genesis entries entry

theorem lastHash_append (entries : List LedgerEntry) (entry : LedgerEntry) :
    lastHash (entries ++ [entry]) = entry.hash := by
  rw [lastHash, getLast?_append_of_ne_nil _ (cons_ne_nil _ _)]
  rfl

theorem hashed_append (entries : List LedgerEntry) (entry : LedgerEntry) :
    hashed (entries ++ [entry]) = hashed entries ++ [preimage entry.prev entry.claim] := by
  rw [hashed, map_append]
  rfl

/-- Two intact chains that end in the same hash are the same. -/
theorem eq_of_lastHash_eq (hsha : NoCollision sha256 (hashed a ++ hashed b))
    (ha : chainIntact sha256 a = true) (hb : chainIntact sha256 b = true)
    (hlast : lastHash a = lastHash b) : a = b := by
  induction a using reverseRecOn generalizing b with
  | nil =>
    rcases eq_nil_or_concat b with rfl | ⟨rest, y, rfl⟩
    · rfl
    · rw [concat_eq_append] at *
      obtain ⟨-, -, hy⟩ := (chainIntact_append rest y).1 hb
      rw [lastHash_append, hy] at hlast
      refine absurd hlast.symm (hsha.not_genesis _ ?_)
      rw [hashed_append]
      simp
  | append_singleton a x ih =>
    obtain ⟨ha, hxprev, hx⟩ := (chainIntact_append a x).1 ha
    have hxmem : preimage x.prev x.claim ∈ hashed (a ++ [x]) ++ hashed b := by
      rw [hashed_append]
      simp
    rcases eq_nil_or_concat b with rfl | ⟨rest, y, rfl⟩
    · rw [lastHash_append, hx] at hlast
      exact absurd hlast (hsha.not_genesis _ hxmem)
    · rw [concat_eq_append] at *
      obtain ⟨hb, hyprev, hy⟩ := (chainIntact_append rest y).1 hb
      have hymem : preimage y.prev y.claim ∈ hashed (a ++ [x]) ++ hashed (rest ++ [y]) := by
        rw [hashed_append rest]
        simp
      rw [lastHash_append, lastHash_append] at hlast
      -- one hash covers the hash before it and the claim, so both are the same in the two chains
      have hsame := hsha.injective _ hxmem _ hymem (hex32_injective (by rw [← hx, ← hy, hlast]))
      obtain ⟨hprev, hclaim⟩ := preimage_injective hsame
      have hrest : a = rest := by
        refine ih (hsha.mono ?_) ha hb (by rw [← hxprev, ← hyprev, hprev])
        rw [hashed_append, hashed_append]
        intro s hs
        simp only [mem_append] at hs ⊢
        rcases hs with hs | hs
        · exact .inl (.inl hs)
        · exact .inr (.inl hs)
      obtain ⟨xp, xh, xc⟩ := x
      obtain ⟨yp, yh, yc⟩ := y
      simp only at hprev hclaim hlast
      rw [hrest, hprev, hclaim, hlast]

theorem chainIntact_take (h : chainIntact sha256 a = true) (n : ℕ) :
    chainIntact sha256 (a.take n) = true := by
  induction a using reverseRecOn with
  | nil => rwa [take_nil]
  | append_singleton a x ih =>
    by_cases hn : n ≤ a.length
    · rw [take_append_of_le_length hn]
      exact ih ((chainIntact_append a x).1 h).1
    · rw [take_of_length_le]
      · exact h
      · rw [length_append, length_singleton]
        omega

theorem lastHash_take {i : ℕ} {x : LedgerEntry} (h : a[i]? = some x) :
    lastHash (a.take (i + 1)) = x.hash := by
  rw [take_add_one, h, Option.toList_some, lastHash_append]

theorem hashed_take_subset (n : ℕ) : hashed (a.take n) ⊆ hashed a := by
  intro s hs
  rw [hashed, mem_map] at hs
  obtain ⟨entry, hentry, rfl⟩ := hs
  exact mem_map.2 ⟨entry, mem_of_mem_take hentry, rfl⟩

/-- **The ledger is tamper-evident.**  Two intact chains with the same last hash are equal entry for
entry; and where one hash stands in both, it stands at the same place and everything up to it is the
same, so that no change of a claim, and no entry removed, inserted or moved, leaves a later hash. -/
theorem chainIntact_binds (hsha : NoCollision sha256 (hashed a ++ hashed b))
    (ha : chainIntact sha256 a = true) (hb : chainIntact sha256 b = true) :
    (lastHash a = lastHash b → a = b) ∧
      ∀ i j x y, a[i]? = some x → b[j]? = some y → x.hash = y.hash →
        i = j ∧ a.take (i + 1) = b.take (j + 1) := by
  refine ⟨eq_of_lastHash_eq hsha ha hb, fun i j x y hx hy hhash ↦ ?_⟩
  have htake : a.take (i + 1) = b.take (j + 1) := by
    refine eq_of_lastHash_eq (hsha.mono ?_) (chainIntact_take ha _) (chainIntact_take hb _) ?_
    · exact List.append_subset.2 ⟨fun s hs ↦ List.mem_append_left _ (hashed_take_subset _ hs),
        fun s hs ↦ List.mem_append_right _ (hashed_take_subset _ hs)⟩
    · rw [lastHash_take hx, lastHash_take hy, hhash]
  refine ⟨?_, htake⟩
  have hi := (List.getElem?_eq_some_iff.1 hx).1
  have hj := (List.getElem?_eq_some_iff.1 hy).1
  have hlength := congrArg List.length htake
  rw [List.length_take_of_le (by omega), List.length_take_of_le (by omega)] at hlength
  omega

theorem chainIntactFrom_iff (prev : Str) (entries : List LedgerEntry) :
    chainIntactFrom sha256 prev entries = true ↔
      chainFrom sha256 prev (entries.map (·.claim)) = entries := by
  induction entries generalizing prev with
  | nil => exact iff_of_true rfl rfl
  | cons entry rest ih =>
    rw [chainIntactFrom, map_cons, chainFrom, cons.injEq]
    split <;> rename_i hprev
    · exact iff_of_false Bool.false_ne_true fun h ↦ hprev (congrArg LedgerEntry.prev h.1).symm
    split <;> rename_i hhash
    · exact iff_of_false Bool.false_ne_true fun h ↦ hhash (congrArg LedgerEntry.hash h.1)
    · have hentry : append sha256 prev entry.claim = entry := by
        rw [← not_not.1 hprev] at hhash ⊢
        exact congrArg (LedgerEntry.mk entry.prev · entry.claim) (not_not.1 hhash)
      rw [ih, hentry, and_iff_right rfl]

theorem map_claim_chainFrom (prev : Str) (claims : List Claim) :
    (chainFrom sha256 prev claims).map (·.claim) = claims := by
  induction claims generalizing prev with
  | nil => rfl
  | cons claim rest ih => exact congrArg (cons claim) (ih _)

variable (sha256) in
/-- **A ledger is intact just when it was made by sealing claims**, and it is read back as these. -/
theorem chainIntact_iff (entries : List LedgerEntry) (claims : List Claim) :
    chainIntact sha256 entries = true ∧ entries.map (·.claim) = claims ↔
      entries = chain sha256 claims := by
  rw [chainIntact, chainIntactFrom_iff, chain]
  constructor
  · rintro ⟨h, rfl⟩
    exact h.symm
  · rintro rfl
    rw [map_claim_chainFrom]
    exact ⟨rfl, rfl⟩

end Chain

/-! ## Two entries -/

namespace Sample

def claim (text : String) (techniqueId : Option Str) (status : Status) (level : EvidenceLevel)
    (h : (Text.utf8 text).length < 2 ^ 64) : Claim where
  claim := ⟨text, h⟩
  source := ⟨"tests/geoint", by decide⟩
  component := ⟨"src/geoint.rs", by decide⟩
  techniqueId
  status
  evidenceLevel := level
  doesNotShow := ⟨"not survey grade", by decide⟩

def firstClaim : Claim :=
  claim "haversine band holds" (some ⟨"T1595", by decide⟩) .verified .directObservation (by decide)

def secondClaim : Claim := claim "second" none .partly .primaryEvidence (by decide)

def firstDigest : Digest :=
  ⟨[41, 243, 93, 152, 92, 62, 172, 91, 100, 143, 44, 232, 204, 218, 246, 184, 70, 143, 244, 193, 74,
    233, 254, 106, 217, 13, 36, 36, 137, 117, 154, 124], rfl⟩

def secondDigest : Digest :=
  ⟨[182, 221, 127, 26, 41, 147, 79, 247, 176, 27, 44, 146, 0, 199, 69, 131, 49, 201, 101, 110, 71, 172,
    72, 19, 252, 181, 80, 39, 104, 251, 180, 196], rfl⟩

/-- SHA-256, on the two texts that are hashed here. -/
def sha256 (text : List UInt8) : Digest :=
  if text = preimage genesis firstClaim then firstDigest else secondDigest

def first : LedgerEntry := append sha256 genesis firstClaim

def second : LedgerEntry := append sha256 first.hash secondClaim

theorem texts_ne : preimage first.hash secondClaim ≠ preimage genesis firstClaim := by
  intro h
  exact absurd (preimage_injective h).2 (by decide)

theorem intact : chainIntact sha256 [first, second] = true :=
  (chainIntact_append [first] second).2 ⟨(chainIntact_append [] first).2 ⟨rfl, rfl, rfl⟩, rfl, rfl⟩

theorem noCollision : NoCollision sha256 (hashed [first, second] ++ hashed [first]) := by
  have hmem : ∀ s ∈ hashed [first, second] ++ hashed [first],
      s = preimage genesis firstClaim ∨ s = preimage first.hash secondClaim := by
    intro s hs
    rcases mem_append.1 hs with hs | hs
    · rcases mem_cons.1 hs with rfl | hs
      · exact .inl rfl
      · exact .inr (mem_singleton.1 hs)
    · exact .inl (mem_singleton.1 hs)
  have hne : firstDigest ≠ secondDigest := by decide
  have hfirst : sha256 (preimage genesis firstClaim) = firstDigest := if_pos rfl
  have hsecond : sha256 (preimage first.hash secondClaim) = secondDigest := if_neg texts_ne
  refine ⟨fun s hs t ht h ↦ ?_, fun s hs ↦ ?_⟩
  · rcases hmem s hs with rfl | rfl <;> rcases hmem t ht with rfl | rfl
    · rfl
    · rw [hfirst, hsecond] at h
      exact absurd h hne
    · rw [hfirst, hsecond] at h
      exact absurd h.symm hne
    · rfl
  · rcases hmem s hs with rfl | rfl
    · rw [hfirst]
      decide
    · rw [hsecond]
      decide

end Sample

theorem chainIntact_binds_sample :
    (lastHash [Sample.first, Sample.second] = lastHash [Sample.first] →
      [Sample.first, Sample.second] = [Sample.first]) ∧
      ∀ i j x y, [Sample.first, Sample.second][i]? = some x → [Sample.first][j]? = some y →
        x.hash = y.hash →
        i = j ∧ [Sample.first, Sample.second].take (i + 1) = [Sample.first].take (j + 1) :=
  chainIntact_binds Sample.noCollision Sample.intact
    ((chainIntact_append [] Sample.first).2 ⟨rfl, rfl, rfl⟩)

end Huntsman.Ledger
