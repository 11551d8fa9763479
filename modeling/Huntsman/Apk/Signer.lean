import Huntsman.Apk.Der

/-!
# The signers of a signing block

A scheme's value is a list of signers, each of them length-prefixed parts within one another: the
signed data, which holds digests, certificates and, from v3 on, the range of SDK versions; the
signatures over it; and the public key.

Each reader of a signer walks these parts by itself.  `Layout` says where they are, and every reader
that accepts a signer has walked the same ones.
-/

set_option autoImplicit false

namespace Huntsman.Apk

open Bytes Ledger Option

def maxCertificates : ℕ := 8

namespace Signer

/-- A number of four bytes. -/
def le32 (data : List UInt8) (pos : ℕ) : Option ℕ := (Apk.le32 data pos).map UInt32.toNat

/-- One item and its length before it. -/
def prefixedOne (data : List UInt8) (pos limit : ℕ) : Option Span := do
  let length ← le32 data pos
  guard (pos + 4 + length ≤ limit)
  return (pos + 4, pos + 4 + length)

theorem prefixedOne_eq_some {data : List UInt8} {pos limit : ℕ} {s : Span}
    (h : prefixedOne data pos limit = some s) : s.1 = pos + 4 ∧ s.1 ≤ s.2 ∧ s.2 ≤ limit := by
  simp only [prefixedOne, bind_eq_bind, bind_eq_some_iff, guard_ok] at h
  obtain ⟨length, -, -, hle, h⟩ := h
  rw [← some.inj h]
  exact ⟨rfl, Nat.le_add_right _ _, hle⟩

/-- The items that fill the range from `pos` to `limit`. -/
def prefixedItems (data : List UInt8) (pos limit : ℕ) : Option (List Span) :=
  if pos < limit then
    match _hitem : prefixedOne data pos limit with
    | none => none
    | some item => (prefixedItems data item.2 limit).map (item :: ·)
  else some []
termination_by limit - pos
decreasing_by
  have hspan := prefixedOne_eq_some _hitem
  omega

section Certificates

variable (sha256 : List UInt8 → Digest)

/-- The certificates from the `index`th on, of which the first has to carry the signer's key. -/
def readCertificates (value : List UInt8) (scheme : String) (keySha256 : Str) :
    ℕ → List Span → List Certificate → Option (List Certificate)
  | _, [], certificates => some certificates
  | index, item :: rest, certificates => do
    let cert ← certificate sha256 (cut value item) scheme
    guard (¬ (index = 0 ∧ cert.publicKeySha256 ≠ keySha256))
    readCertificates value scheme keySha256 (index + 1) rest
      (if certificates.length < maxCertificates then certificates ++ [cert] else certificates)

/-- Where a signer's attributes and its signatures start: after the range of SDK versions, which is
stated inside and outside of the signed data, if the scheme has one. -/
def partsAt (value : List UInt8) (scheme : String) (certsEnd dataEnd : ℕ) : Option (ℕ × ℕ) :=
  if scheme = "v2" then some (certsEnd, dataEnd)
  else if scheme = "v3" ∨ scheme = "v3.1" then do
    let innerMin ← le32 value certsEnd
    let innerMax ← le32 value (certsEnd + 4)
    let outerMin ← le32 value dataEnd
    let outerMax ← le32 value (dataEnd + 4)
    guard (¬ (innerMax < innerMin ∨ (innerMin, innerMax) ≠ (outerMin, outerMax)))
    return (certsEnd + 8, dataEnd + 8)
  else none

def signerCertificates (value : List UInt8) (signer : Span) (scheme : String) :
    Option (List Certificate) := do
  let data ← prefixedOne value signer.1 signer.2
  let digests ← prefixedOne value data.1 data.2
  let certs ← prefixedOne value digests.2 data.2
  let parts ← partsAt value scheme certs.2 data.2
  let attrs ← prefixedOne value parts.1 data.2
  guard (attrs.2 = data.2)
  let signatures ← prefixedOne value parts.2 signer.2
  let key ← prefixedOne value signatures.2 signer.2
  guard (key.2 = signer.2)
  let items ← prefixedItems value certs.1 certs.2
  readCertificates sha256 value scheme (hex32 (sha256 (cut value key))) 0 items []

/-- The signers of a value. -/
def signersOf (value : List UInt8) : Option (List Span) := do
  match ← prefixedItems value 0 value.length with
  | [outer] => prefixedItems value outer.1 outer.2
  | _ => none

/-! ## Digests -/

/-- A digest that a signer declares: the signer's index, the algorithm and the digest. -/
abbrev Claim := ℕ × ℕ × Digest

/-- `<[u8; 32]>::try_from`. -/
def toDigest (bytes : List UInt8) : Option Digest :=
  if h : bytes.length = 32 then some ⟨bytes, h⟩ else none

def digestAlgorithms : List ℕ := [0x0101, 0x0103, 0x0201, 0x0301]

/-- The records of one signer's digests. -/
def readDigests (value : List UInt8) (index : ℕ) :
    List Span → List ℕ → List Claim → Option (List Claim)
  | [], _, found => some found
  | record :: rest, seen, found => do
    let algorithm ← le32 value record.1
    let payload ← prefixedOne value (record.1 + 4) record.2
    guard (payload.2 = record.2 ∧ algorithm ∉ seen)
    if algorithm ∈ digestAlgorithms then do
      let digest ← toDigest (cut value payload)
      guard (found.length < 64)
      readDigests value index rest (algorithm :: seen) (found ++ [(index, algorithm, digest)])
    else readDigests value index rest (algorithm :: seen) found

/-- The digests of the signers from the `index`th on. -/
def signersDigests (value : List UInt8) (scheme : String) :
    ℕ → List Span → List Claim → Option (List Claim)
  | _, [], found => some found
  | index, signer :: rest, found => do
    let _ ← signerCertificates sha256 value signer scheme
    let data ← prefixedOne value signer.1 signer.2
    let digests ← prefixedOne value data.1 data.2
    let records ← prefixedItems value digests.1 digests.2
    signersDigests value scheme (index + 1) rest (← readDigests value index records [] found)

def sha256Digests (value : List UInt8) (scheme : String) : Option (List Claim) := do
  signersDigests sha256 value scheme 0 (← signersOf value) []

end Certificates

/-! ## Signatures -/

/-- Whether a signature was verified, or why not. -/
inductive Verification where
  | verified | invalid | missing | malformed | unsupported
deriving DecidableEq

/-- The algorithms of records, each of them once. -/
def readIds (value : List UInt8) : List Span → List ℕ → Option (List ℕ)
  | [], ids => some ids
  | record :: rest, ids => do
    let id ← le32 value record.1
    let payload ← prefixedOne value (record.1 + 4) record.2
    guard (¬ (payload.2 ≠ record.2 ∨ id ∈ ids))
    readIds value rest (ids ++ [id])

def algorithmIds (value : List UInt8) (s : Span) : Option (List ℕ) := do
  let records ← prefixedItems value s.1 s.2
  guard (records.length ≤ 64)
  readIds value records []

inductive SignatureRecord where
  | malformed
  | missing
  | found (bytes : List UInt8)
deriving DecidableEq

/-- The signature of the algorithm in the records that are left. -/
def findSignature (value : List UInt8) (algorithm : ℕ) :
    List Span → List ℕ → Option (List UInt8) → SignatureRecord
  | [], _, none => .missing
  | [], _, some bytes => .found bytes
  | record :: rest, seen, found =>
    match le32 value record.1, prefixedOne value (record.1 + 4) record.2 with
    | some id, some payload =>
      if payload.2 ≠ record.2 ∨ id ∈ seen ∨ 8192 < payload.2 - payload.1 then .malformed
      else findSignature value algorithm rest (id :: seen)
        (if id = algorithm then some (cut value payload) else found)
    | _, _ => .malformed

def matchingSignature (value : List UInt8) (s : Span) (algorithm : ℕ) : SignatureRecord :=
  match prefixedItems value s.1 s.2 with
  | none => .malformed
  | some records =>
    if 64 < records.length then .malformed else findSignature value algorithm records [] none

def rsaOid : List UInt8 := [0x2a, 0x86, 0x48, 0x86, 0xf7, 0x0d, 0x01, 0x01, 0x01]

def ecOid : List UInt8 := [0x2a, 0x86, 0x48, 0xce, 0x3d, 0x02, 0x01]

def p256Oid : List UInt8 := [0x2a, 0x86, 0x48, 0xce, 0x3d, 0x03, 0x01, 0x07]

open Der in
/-- Whether a key's algorithm, by its elements, is the one of the signature. -/
def algorithmMatches (spki : List UInt8) (elements : List Tlv) (algorithm : ℕ) : Bool :=
  match elements with
  | [] => false
  | type :: parameters =>
    if algorithm = 0x0101 ∨ algorithm = 0x0103 then
      cut spki type.span == rsaOid && match parameters with
        | [] => true
        | [t] => t.tag == null && t.start == t.fin
        | _ => false
    else if algorithm = 0x0201 then
      cut spki type.span == ecOid && match parameters with
        | [t] => t.tag == oid && cut spki t.span == p256Oid
        | _ => false
    else false

open Der in
/-- The key of a `SubjectPublicKeyInfo` for an algorithm. -/
def signingPublicKey (spki : List UInt8) (algorithm : ℕ) : Option (List UInt8) := do
  let outer ← tlv spki 0 spki.length
  guard (outer.tag = sequence ∧ outer.fin = spki.length)
  match ← children spki outer with
  | [kind, bits] =>
    guard (kind.tag = sequence ∧ bits.tag = bitString)
    let elements ← children spki kind
    guard (∀ type ∈ elements.head?, type.tag = oid)
    guard (algorithmMatches spki elements algorithm = true)
    match cut spki bits.span with
    | unused :: key => if unused = 0 ∧ key ≠ [] then some key else none
    | [] => none
  | _ => none

section Verify

variable (sha256 : List UInt8 → Digest)
  (verify : ℕ → List UInt8 → List UInt8 → List UInt8 → Bool)

def signatureAlgorithms : List ℕ := [0x0101, 0x0103, 0x0201]

/-- What a malformed part makes of a verification. -/
def orMalformed {α : Type} (o : Option α) (f : α → Verification) : Verification :=
  match o with
  | none => .malformed
  | some a => f a

def verifySha256Signature (value : List UInt8) (scheme : String) (index algorithm : ℕ) :
    Verification :=
  if algorithm ∉ signatureAlgorithms then .unsupported
  else
    orMalformed (signersOf value) fun signers ↦
    orMalformed signers[index]? fun signer ↦
    orMalformed (signerCertificates sha256 value signer scheme) fun certs ↦
    if certs = [] then .malformed
    else
      orMalformed (prefixedOne value signer.1 signer.2) fun data ↦
      if scheme ≠ "v2" ∧ scheme ≠ "v3" ∧ scheme ≠ "v3.1" then .unsupported
      else
        orMalformed (prefixedOne value (if scheme = "v2" then data.2 else data.2 + 8) signer.2)
            fun signatures ↦
        orMalformed (prefixedOne value data.1 data.2) fun digests ↦
        if algorithmIds value digests = none ∨
            algorithmIds value digests ≠ algorithmIds value signatures then .malformed
        else
          orMalformed (prefixedOne value signatures.2 signer.2) fun key ↦
          if key.2 ≠ signer.2 then .malformed
          else
            match matchingSignature value signatures algorithm with
            | .missing => .missing
            | .malformed => .malformed
            | .found signature =>
              match signingPublicKey (cut value key) algorithm with
              | none => .unsupported
              | some publicKey =>
                if verify algorithm publicKey (cut value data) signature then .verified
                else .invalid

end Verify

/-! ## Signers -/

section Signers

variable (sha256 : List UInt8 → Digest)

/-- A signer of v3 or v3.1: its certificate and its range of SDK versions. -/
structure SdkSigner where
  scheme : String
  signerIndex : ℕ
  minSdk : ℕ
  maxSdk : ℕ
  certificateSha256 : Str
  publicKeySha256 : Str
deriving DecidableEq

def readV2Signers (value : List UInt8) :
    ℕ → List Span → Option (List (ℕ × Certificate))
  | _, [] => some []
  | index, signer :: rest => do
    let leaf ← (← signerCertificates sha256 value signer "v2").head?
    return (index, leaf) :: (← readV2Signers value (index + 1) rest)

def v2Signers (value : List UInt8) : Option (List (ℕ × Certificate)) := do
  let signers ← signersOf value
  guard (¬ (signers = [] ∨ maxCertificates < signers.length))
  readV2Signers sha256 value 0 signers

def readSdkSigners (value : List UInt8) (scheme : String) :
    ℕ → List Span → Option (List SdkSigner)
  | _, [] => some []
  | index, signer :: rest => do
    let certificate ← (← signerCertificates sha256 value signer scheme).head?
    let data ← prefixedOne value signer.1 signer.2
    let digests ← prefixedOne value data.1 data.2
    let certs ← prefixedOne value digests.2 data.2
    let minSdk ← le32 value certs.2
    let maxSdk ← le32 value (certs.2 + 4)
    return ⟨scheme, index, minSdk, maxSdk, certificate.sha256, certificate.publicKeySha256⟩ ::
      (← readSdkSigners value scheme (index + 1) rest)

def sdkSigners (value : List UInt8) (scheme : String) : List SdkSigner :=
  if scheme ≠ "v3" ∧ scheme ≠ "v3.1" then []
  else
    ((do
      let signers ← signersOf value
      guard (signers.length ≤ maxCertificates)
      readSdkSigners sha256 value scheme 0 signers) : Option (List SdkSigner)).getD []

end Signers

/-! ## Where the parts of a signer are -/

/-- The parts of a signer. -/
structure Parts where
  data : Span
  digests : Span
  certs : Span
  signatures : Span
  key : Span

/-- Where a signer's parts are: its digests and certificates, and from v3 on the range of SDK
versions after them, in its signed data, and its signatures and key after it. -/
structure Layout (value : List UInt8) (scheme : String) (signer : Span) (p : Parts) : Prop where
  data : prefixedOne value signer.1 signer.2 = some p.data
  digests : prefixedOne value p.data.1 p.data.2 = some p.digests
  certs : prefixedOne value p.digests.2 p.data.2 = some p.certs
  inside : p.data.1 ≤ p.digests.1 ∧ p.digests.2 ≤ p.certs.1 ∧ p.certs.2 ≤ p.data.2
  range : scheme ≠ "v2" → p.certs.2 + 8 ≤ p.data.2
  signatures : prefixedOne value (if scheme = "v2" then p.data.2 else p.data.2 + 8) signer.2 =
    some p.signatures
  key : prefixedOne value p.signatures.2 signer.2 = some p.key
  key_end : p.key.2 = signer.2

/-- The range holds a record of the algorithm with these bytes. -/
def HasRecord (value : List UInt8) (s : Span) (algorithm : ℕ) (bytes : List UInt8) : Prop :=
  ∃ records, prefixedItems value s.1 s.2 = some records ∧ ∃ record ∈ records, ∃ payload,
    le32 value record.1 = some algorithm ∧
      prefixedOne value (record.1 + 4) record.2 = some payload ∧ payload.2 = record.2 ∧
      bytes = cut value payload

variable {sha256 : List UInt8 → Digest} {value : List UInt8} {scheme : String}

/-- The first certificate stays the first. -/
theorem readCertificates_head {keySha256 : Str} {index : ℕ} {items : List Span}
    {certificates result : List Certificate} (hne : certificates ≠ [])
    (h : readCertificates sha256 value scheme keySha256 index items certificates = some result) :
    result.head? = certificates.head? := by
  induction items generalizing index certificates with
  | nil => rw [← some.inj h]
  | cons item rest ih =>
    simp only [readCertificates, bind_eq_bind, bind_eq_some_iff] at h
    obtain ⟨cert, -, -, -, h⟩ := h
    split at h
    · rw [ih (List.append_ne_nil_of_left_ne_nil hne _) h, List.head?_append_of_ne_nil _ hne]
    · exact ih hne h

theorem readCertificates_first {keySha256 : Str} {items : List Span}
    {result : List Certificate} {c : Certificate} (hc : result.head? = some c)
    (h : readCertificates sha256 value scheme keySha256 0 items [] = some result) :
    ∃ first rest, items = first :: rest ∧ certificate sha256 (cut value first) scheme = some c ∧
      c.publicKeySha256 = keySha256 := by
  rcases items with _ | ⟨item, rest⟩
  · rw [← some.inj h] at hc
    simp at hc
  · simp only [readCertificates, bind_eq_bind, bind_eq_some_iff, guard_ok] at h
    obtain ⟨cert, hcert, -, hkey, h⟩ := h
    rw [if_pos (by decide)] at h
    rw [readCertificates_head (by simp) h, List.nil_append, List.head?_cons] at hc
    cases hc
    refine ⟨item, rest, rfl, hcert, ?_⟩
    by_contra hne
    exact hkey ⟨trivial, hne⟩

variable {signer : Span} {signers : List Span} {algorithm : ℕ}

/-- **What `signerCertificates` walks.** -/
theorem signerCertificates_spec {certs : List Certificate}
    (h : signerCertificates sha256 value signer scheme = some certs) :
    ∃ p, Layout value scheme signer p ∧ ∀ c, certs.head? = some c →
      ∃ first rest, prefixedItems value p.certs.1 p.certs.2 = some (first :: rest) ∧
        certificate sha256 (cut value first) scheme = some c ∧
        c.publicKeySha256 = hex32 (sha256 (cut value p.key)) := by
  simp only [signerCertificates, bind_eq_bind, bind_eq_some_iff, guard_ok] at h
  obtain ⟨data, hdata, digests, hdigests, certsAt, hcerts, parts, hparts, attrs, hattrs, -, hend,
    signatures, hsignatures, key, hkey, -, hkeyEnd, items, hitems, hread⟩ := h
  have hdigests' := prefixedOne_eq_some hdigests
  have hcerts' := prefixedOne_eq_some hcerts
  have hattrs' := prefixedOne_eq_some hattrs
  have hplaces : (scheme ≠ "v2" → certsAt.2 + 8 ≤ data.2) ∧
      parts.2 = if scheme = "v2" then data.2 else data.2 + 8 := by
    unfold partsAt at hparts
    split at hparts
    · rename_i hscheme
      rw [← some.inj hparts, if_pos hscheme]
      exact ⟨fun hne ↦ absurd hscheme hne, rfl⟩
    · rename_i hscheme
      split at hparts
      · simp only [bind_eq_bind, bind_eq_some_iff] at hparts
        obtain ⟨_, -, _, -, _, -, _, -, -, -, hparts⟩ := hparts
        rw [← some.inj hparts] at hattrs' ⊢
        rw [if_neg hscheme]
        exact ⟨fun _ ↦ by omega, rfl⟩
      · simp at hparts
  rw [hplaces.2] at hsignatures
  refine ⟨⟨data, digests, certsAt, signatures, key⟩, ⟨hdata, hdigests, hcerts, ?_, hplaces.1,
    hsignatures, hkey, hkeyEnd⟩, fun c hc ↦ ?_⟩
  · show data.1 ≤ digests.1 ∧ digests.2 ≤ certsAt.1 ∧ certsAt.2 ≤ data.2
    omega
  · obtain ⟨first, rest, hfirst, hcert⟩ := readCertificates_first hc hread
    exact ⟨first, rest, hitems.trans (congrArg some hfirst), hcert⟩

/-- The parts of a signer are determined. -/
theorem Layout.eq {p q : Parts} (hp : Layout value scheme signer p)
    (hq : Layout value scheme signer q) : p = q := by
  obtain ⟨data, digests, certs, signatures, key⟩ := p
  obtain ⟨data', digests', certs', signatures', key'⟩ := q
  obtain rfl : data = data' := some.inj (hp.data.symm.trans hq.data)
  obtain rfl : digests = digests' := some.inj (hp.digests.symm.trans hq.digests)
  obtain rfl : certs = certs' := some.inj (hp.certs.symm.trans hq.certs)
  obtain rfl : signatures = signatures' := some.inj (hp.signatures.symm.trans hq.signatures)
  obtain rfl : key = key' := some.inj (hp.key.symm.trans hq.key)
  rfl

/-! ## What the readers find -/

/-- The digests that are read of a signer are records of its digests. -/
theorem readDigests_spec {index : ℕ} {records : List Span} {seen : List ℕ} {found result : List Claim}
    (h : readDigests value index records seen found = some result) :
    ∀ claim ∈ result, claim ∈ found ∨ claim.1 = index ∧ ∃ record ∈ records, ∃ payload,
      le32 value record.1 = some claim.2.1 ∧
        prefixedOne value (record.1 + 4) record.2 = some payload ∧ payload.2 = record.2 ∧
        claim.2.2.1 = cut value payload := by
  induction records generalizing seen found with
  | nil =>
    rw [← some.inj h]
    exact fun claim hclaim ↦ .inl hclaim
  | cons record rest ih =>
    simp only [readDigests, bind_eq_bind, bind_eq_some_iff, guard_ok] at h
    obtain ⟨algorithm, halgorithm, payload, hpayload, -, hrecord, h⟩ := h
    intro claim hclaim
    split at h
    · simp only [bind_eq_some_iff, guard_ok] at h
      obtain ⟨digest, hdigest, -, -, h⟩ := h
      rcases ih h claim hclaim with hfound | ⟨hindex, record', hrecord', hrest⟩
      · rcases List.mem_append.1 hfound with hfound | hnew
        · exact .inl hfound
        · rw [List.mem_singleton] at hnew
          subst hnew
          have hbytes : digest.1 = cut value payload := by
            unfold toDigest at hdigest
            split at hdigest
            · rw [← some.inj hdigest]
            · simp at hdigest
          exact .inr ⟨rfl, record, (.head _), payload, halgorithm, hpayload, hrecord.1,
            hbytes⟩
      · exact .inr ⟨hindex, record', .tail _ hrecord', hrest⟩
    · rcases ih h claim hclaim with hfound | ⟨hindex, record', hrecord', hrest⟩
      · exact .inl hfound
      · exact .inr ⟨hindex, record', .tail _ hrecord', hrest⟩

theorem signersDigests_spec {index : ℕ} {found result : List Claim}
    (h : signersDigests sha256 value scheme index signers found = some result) :
    ∀ claim ∈ result, claim ∈ found ∨ ∃ i signer p, claim.1 = index + i ∧ signers[i]? = some signer ∧
      Layout value scheme signer p ∧ HasRecord value p.digests claim.2.1 claim.2.2.1 := by
  induction signers generalizing index found with
  | nil =>
    rw [← some.inj h]
    exact fun claim hclaim ↦ .inl hclaim
  | cons signer rest ih =>
    simp only [signersDigests, bind_eq_bind, bind_eq_some_iff] at h
    obtain ⟨certs, hcerts, data, hdata, digests, hdigests, records, hrecords, more, hmore, h⟩ := h
    obtain ⟨p, hp, -⟩ := signerCertificates_spec hcerts
    obtain rfl := some.inj (hdata.symm.trans hp.data)
    obtain rfl := some.inj (hdigests.symm.trans hp.digests)
    intro claim hclaim
    rcases ih h claim hclaim with hfound | ⟨i, signer', p', hi, hsigner, hlayout, hrecord⟩
    · rcases readDigests_spec hmore claim hfound with hfound | ⟨hindex, record, hmem, hrest⟩
      · exact .inl hfound
      · exact .inr ⟨0, signer, p, hindex, rfl, hp, records, hrecords, record, hmem, hrest⟩
    · exact .inr ⟨i + 1, signer', p', by omega, hsigner, hlayout, hrecord⟩

/-- **What `sha256Digests` claims** is in a record of a signer's digests. -/
theorem sha256Digests_spec {claims : List Claim} (h : sha256Digests sha256 value scheme = some claims)
    {claim : Claim} (hclaim : claim ∈ claims) :
    ∃ signers signer p, signersOf value = some signers ∧ signers[claim.1]? = some signer ∧
      Layout value scheme signer p ∧ HasRecord value p.digests claim.2.1 claim.2.2.1 := by
  simp only [sha256Digests, bind_eq_bind, bind_eq_some_iff] at h
  obtain ⟨signers, hsigners, h⟩ := h
  rcases signersDigests_spec h claim hclaim with hnil | ⟨i, signer, p, hi, hsigner, hlayout, hrecord⟩
  · cases hnil
  · rw [Nat.zero_add] at hi
    exact ⟨signers, signer, p, hsigners, hi ▸ hsigner, hlayout, hrecord⟩

theorem findSignature_spec {records : List Span} {seen : List ℕ}
    {found : Option (List UInt8)} {bytes : List UInt8}
    (h : findSignature value algorithm records seen found = .found bytes) :
    found = some bytes ∨ ∃ record ∈ records, ∃ payload, le32 value record.1 = some algorithm ∧
      prefixedOne value (record.1 + 4) record.2 = some payload ∧ payload.2 = record.2 ∧
      bytes = cut value payload := by
  induction records generalizing seen found with
  | nil =>
    rcases found with _ | found
    · exact absurd h (by simp [findSignature])
    · left
      simpa [findSignature] using h
  | cons record rest ih =>
    rw [findSignature] at h
    split at h
    · rename_i id payload hid hpayload
      split at h
      · simp at h
      · rename_i hbad
        obtain ⟨hrecord, -⟩ := not_or.1 hbad
        rcases ih h with hfound | ⟨record', hrecord', hrest⟩
        · split at hfound
          · rename_i hsame
            exact .inr ⟨record, (.head _), payload, hsame ▸ hid, hpayload,
              not_not.1 hrecord, (some.inj hfound).symm⟩
          · exact .inl hfound
        · exact .inr ⟨record', .tail _ hrecord', hrest⟩
    · simp at h

theorem matchingSignature_spec {s : Span} {bytes : List UInt8}
    (h : matchingSignature value s algorithm = .found bytes) : HasRecord value s algorithm bytes := by
  unfold matchingSignature at h
  split at h
  · simp at h
  · rename_i records hrecords
    split at h
    · simp at h
    · rcases findSignature_spec h with hnone | hrecord
      · simp at hnone
      · exact ⟨records, hrecords, hrecord⟩

theorem orMalformed_verified {α : Type} {o : Option α} {f : α → Verification}
    (h : orMalformed o f = .verified) : ∃ a, o = some a ∧ f a = .verified := by
  rcases o with _ | a
  · exact absurd h (by simp [orMalformed])
  · exact ⟨a, rfl, h⟩

/-- **What a verified signature is of**: the signed data of the signer, under its key, and the
signature is the one of the algorithm. -/
theorem verified_spec {verify : ℕ → List UInt8 → List UInt8 → List UInt8 → Bool}
    {index : ℕ}
    (h : verifySha256Signature sha256 verify value scheme index algorithm = .verified) :
    algorithm ∈ signatureAlgorithms ∧ ∃ signers signer p, signersOf value = some signers ∧
      signers[index]? = some signer ∧ Layout value scheme signer p ∧
      ∃ signature publicKey, HasRecord value p.signatures algorithm signature ∧
        signingPublicKey (cut value p.key) algorithm = some publicKey ∧
        verify algorithm publicKey (cut value p.data) signature = true := by
  unfold verifySha256Signature at h
  split at h
  · simp at h
  · rename_i halgorithm
    refine ⟨not_not.1 halgorithm, ?_⟩
    obtain ⟨signers, hsigners, h⟩ := orMalformed_verified h
    obtain ⟨signer, hsigner, h⟩ := orMalformed_verified h
    obtain ⟨certs, hcerts, h⟩ := orMalformed_verified h
    obtain ⟨p, hp, -⟩ := signerCertificates_spec hcerts
    split at h
    · simp at h
    · obtain ⟨data, hdata, h⟩ := orMalformed_verified h
      obtain rfl := some.inj (hdata.symm.trans hp.data)
      split at h
      · simp at h
      · obtain ⟨signatures, hsignatures, h⟩ := orMalformed_verified h
        obtain rfl := some.inj (hsignatures.symm.trans hp.signatures)
        obtain ⟨digests, -, h⟩ := orMalformed_verified h
        split at h
        · simp at h
        · obtain ⟨key, hkey, h⟩ := orMalformed_verified h
          obtain rfl := some.inj (hkey.symm.trans hp.key)
          split at h
          · simp at h
          · split at h
            · simp at h
            · simp at h
            · rename_i signature hsignature
              split at h
              · simp at h
              · rename_i publicKey hpublicKey
                split at h
                · rename_i hverify
                  exact ⟨signers, signer, p, hsigners, hsigner, hp, signature, publicKey,
                    matchingSignature_spec hsignature, hpublicKey, hverify⟩
                · simp at h

/-- The signer presents the certificate first and has its key. -/
def Presents (sha256 : List UInt8 → Digest) (value : List UInt8) (p : Parts)
    (certificateSha256 publicKeySha256 : Str) : Prop :=
  (∃ first rest, prefixedItems value p.certs.1 p.certs.2 = some (first :: rest) ∧
    certificateSha256 = hex32 (sha256 (cut value first))) ∧
  publicKeySha256 = hex32 (sha256 (cut value p.key))

theorem presents_of_certificates {certs : List Certificate} {c : Certificate}
    (h : signerCertificates sha256 value signer scheme = some certs) (hc : certs.head? = some c) :
    ∃ p, Layout value scheme signer p ∧ Presents sha256 value p c.sha256 c.publicKeySha256 := by
  obtain ⟨p, hp, hfirst⟩ := signerCertificates_spec h
  obtain ⟨first, rest, hitems, hcert, hkey⟩ := hfirst c hc
  exact ⟨p, hp, ⟨first, rest, hitems, certificate_sha256 hcert⟩, hkey⟩

/-- What a signer of the value states: its certificate, its key and its range of SDK versions. -/
def States (sha256 : List UInt8 → Digest) (value : List UInt8) (scheme : String) (signer : Span)
    (certificateSha256 publicKeySha256 : Str) (range : Option (ℕ × ℕ)) : Prop :=
  ∃ p, Layout value scheme signer p ∧ Presents sha256 value p certificateSha256 publicKeySha256 ∧
    ∀ r ∈ range, le32 value p.certs.2 = some r.1 ∧ le32 value (p.certs.2 + 4) = some r.2

theorem readV2Signers_spec {index : ℕ} {result : List (ℕ × Certificate)}
    (h : readV2Signers sha256 value index signers = some result) :
    List.Forall₂ (fun s r ↦ r.1 = s.2 ∧
      States sha256 value "v2" s.1 r.2.sha256 r.2.publicKeySha256 none)
      (signers.zipIdx index) result := by
  induction signers generalizing index result with
  | nil =>
    rw [← some.inj h]
    exact .nil
  | cons signer rest ih =>
    simp only [readV2Signers, bind_eq_bind, bind_eq_some_iff] at h
    obtain ⟨certs, hcerts, leaf, hleaf, more, hmore, h⟩ := h
    obtain ⟨p, hp, hpresents⟩ := presents_of_certificates hcerts hleaf
    rw [← some.inj h, List.zipIdx_cons]
    exact .cons ⟨rfl, p, hp, hpresents, by simp⟩ (ih hmore)

theorem readSdkSigners_spec {index : ℕ} {result : List SdkSigner}
    (h : readSdkSigners sha256 value scheme index signers = some result) :
    List.Forall₂ (fun s (r : SdkSigner) ↦ (r.scheme = scheme ∧ r.signerIndex = s.2) ∧
      States sha256 value scheme s.1 r.certificateSha256 r.publicKeySha256 (some (r.minSdk, r.maxSdk)))
      (signers.zipIdx index) result := by
  induction signers generalizing index result with
  | nil =>
    rw [← some.inj h]
    exact .nil
  | cons signer rest ih =>
    simp only [readSdkSigners, bind_eq_bind, bind_eq_some_iff] at h
    obtain ⟨certs, hcerts, certificate, hcertificate, data, hdata, digests, hdigests, certsAt,
      hcertsAt, minSdk, hmin, maxSdk, hmax, more, hmore, h⟩ := h
    obtain ⟨p, hp, hpresents⟩ := presents_of_certificates hcerts hcertificate
    obtain rfl := some.inj (hdata.symm.trans hp.data)
    obtain rfl := some.inj (hdigests.symm.trans hp.digests)
    obtain rfl := some.inj (hcertsAt.symm.trans hp.certs)
    rw [← some.inj h, List.zipIdx_cons]
    refine .cons ⟨⟨rfl, rfl⟩, p, hp, hpresents, ?_⟩ (ih hmore)
    rintro r ⟨⟩
    exact ⟨hmin, hmax⟩

/-- **The signers of a v2 value.** -/
theorem v2Signers_spec {result : List (ℕ × Certificate)} (h : v2Signers sha256 value = some result) :
    ∃ signers, signersOf value = some signers ∧ signers ≠ [] ∧
      List.Forall₂ (fun s r ↦ r.1 = s.2 ∧
        States sha256 value "v2" s.1 r.2.sha256 r.2.publicKeySha256 none) signers.zipIdx result := by
  simp only [v2Signers, bind_eq_bind, bind_eq_some_iff, guard_ok] at h
  obtain ⟨signers, hsigners, -, hbad, h⟩ := h
  exact ⟨signers, hsigners, (not_or.1 hbad).1, readV2Signers_spec h⟩

/-- **The signers of a v3 or v3.1 value.** -/
theorem sdkSigners_spec (h : sdkSigners sha256 value scheme ≠ []) :
    ∃ signers, signersOf value = some signers ∧ signers ≠ [] ∧
      List.Forall₂ (fun s (r : SdkSigner) ↦ (r.scheme = scheme ∧ r.signerIndex = s.2) ∧
        States sha256 value scheme s.1 r.certificateSha256 r.publicKeySha256
          (some (r.minSdk, r.maxSdk))) signers.zipIdx (sdkSigners sha256 value scheme) := by
  unfold sdkSigners at h ⊢
  split at h
  · exact absurd rfl h
  · rename_i hscheme
    rw [if_neg hscheme]
    generalize hread : (do
      let signers ← signersOf value
      guard (signers.length ≤ maxCertificates)
      readSdkSigners sha256 value scheme 0 signers : Option (List SdkSigner)) = read at h ⊢
    rcases read with _ | result
    · exact absurd rfl h
    · simp only [bind_eq_bind, bind_eq_some_iff, guard_ok] at hread
      obtain ⟨signers, hsigners, -, -, hread⟩ := hread
      have hall := readSdkSigners_spec hread
      refine ⟨signers, hsigners, ?_, hall⟩
      rintro rfl
      exact h (List.forall₂_nil_left_iff.1 hall)

end Signer

end Huntsman.Apk
