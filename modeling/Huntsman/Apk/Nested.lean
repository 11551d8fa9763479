import Huntsman.Apk.Binding
import Huntsman.Apk.Signer
import Huntsman.Lib.Slots
import Mathlib.Data.List.Destutter

/-!
# The signers of a nested APK

`inspectNested` reads an APK out of a container and reports the signers of its signing block that
are authenticated: the signature over a signer's signed data verifies under its key, and a digest in
the signed data is the content digest of the APK.

The signatures and the digests are checked by one reader (`compare`), the certificates are read by
another, and the two are joined by a signer's scheme and index.  `inspectNested_authenticated` says
that they are of the same record, and that one signer that is not authenticated withholds all.
-/

set_option autoImplicit false

namespace Huntsman.Apk

open Bytes List Option Signer
open Ledger (Digest Str hex32)

def maxChecks : ℕ := 64

def maxErrors : ℕ := 8

def maxAuthenticatedSigners : ℕ := 8

structure ContentDigestCheck where
  scheme : String
  signerIndex : ℕ
  signatureAlgorithmId : ℕ
  declaredSha256 : Str
  computedSha256 : Str
  isMatch : Bool
  signatureAuthenticated : Bool
  signatureVerification : Verification
deriving DecidableEq

/-- The checks and the errors that were found. -/
structure Compared where
  checks : List ContentDigestCheck
  errors : List String
deriving DecidableEq

def Compared.error (c : Compared) (text : String) : Compared :=
  { c with errors := if c.errors.length < maxErrors then c.errors ++ [text] else c.errors }

section Compare

variable (sha256 : List UInt8 → Digest)
  (verify : ℕ → List UInt8 → List UInt8 → List UInt8 → Bool)

/-- The check of one declared digest against the APK's. -/
def checkOf (scheme : String) (value : List UInt8) (claim : Claim) (actual : Digest) :
    ContentDigestCheck :=
  let verification := verifySha256Signature sha256 verify value scheme claim.1 claim.2.1
  { scheme := scheme
    signerIndex := claim.1
    signatureAlgorithmId := claim.2.1
    declaredSha256 := hex32 claim.2.2
    computedSha256 := hex32 actual
    isMatch := claim.2.2 == actual
    signatureAuthenticated := claim.2.2 == actual && verification == .verified
    signatureVerification := verification }

/-- The checks of one scheme's claims; an error is what is returned early. -/
def compareClaims (computed : Option Digest) (scheme : String) (value : List UInt8) :
    List Claim → Compared → Except Compared Compared
  | [], found => .ok found
  | claim :: rest, found =>
    if maxChecks ≤ found.checks.length then
      .error (found.error "APK SHA-256 digest observations exceed the report limit")
    else
      match computed with
      | none => .error (found.error "invalid APK content-digest boundaries")
      | some actual =>
        compareClaims computed scheme value rest
          { found with checks := found.checks ++ [checkOf sha256 verify scheme value claim actual] }

def compareSchemes (computed : Option Digest) :
    List Signing → Compared → Except Compared Compared
  | [], found => .ok found
  | (scheme, value) :: rest, found =>
    match sha256Digests sha256 value scheme with
    | none =>
      compareSchemes computed rest (found.error (scheme ++ ": malformed signer digest declarations"))
    | some claims =>
      match compareClaims sha256 verify computed scheme value claims found with
      | .error found => .error found
      | .ok found => compareSchemes computed rest found

def compare (apk : List UInt8) (signingStart directoryStart eocdAt : ℕ) (values : List Signing) :
    Compared :=
  match compareSchemes sha256 verify (chunkedSha256 sha256 apk signingStart directoryStart eocdAt)
      values ⟨[], []⟩ with
  | .ok found => found
  | .error found => found

end Compare

/-! ## Authenticated signers -/

structure AuthenticatedSdkSigner where
  scheme : String
  minSdk : ℕ
  maxSdk : ℕ
  certificateSha256 : Str
  publicKeySha256 : Str
deriving DecidableEq

structure AuthenticatedV2Signer where
  certificateSha256 : Str
  publicKeySha256 : Str
deriving DecidableEq

/-- Whether the signer's signature and digest were both found good. -/
def isAuthenticated (checks : List ContentDigestCheck) (scheme : String) (index : ℕ) : Bool :=
  checks.any fun check ↦
    check.scheme == scheme && check.signerIndex == index && check.signatureAuthenticated

def AuthenticatedSdkSigner.le (a b : AuthenticatedSdkSigner) : Bool :=
  ((Ord.compare a.scheme b.scheme).then <| (Ord.compare a.minSdk b.minSdk).then <|
    (Ord.compare a.maxSdk b.maxSdk).then <|
    (Ord.compare a.certificateSha256.1 b.certificateSha256.1).then <|
    Ord.compare a.publicKeySha256.1 b.publicKeySha256.1).isLE

def AuthenticatedV2Signer.le (a b : AuthenticatedV2Signer) : Bool :=
  ((Ord.compare a.certificateSha256.1 b.certificateSha256.1).then <|
    Ord.compare a.publicKeySha256.1 b.publicKeySha256.1).isLE

/-- One more of the signers that are reported, if it is authenticated and there is room. -/
def addSigner {α β : Type} (checks : List ContentDigestCheck) (scheme : β → String) (index : β → ℕ)
    (report : β → α) (verified : List α) (claim : β) : Option (List α) := do
  guard (isAuthenticated checks (scheme claim) (index claim))
  guard (verified.length < maxAuthenticatedSigners)
  return verified ++ [report claim]

def SdkSigner.report (claim : SdkSigner) : AuthenticatedSdkSigner :=
  ⟨claim.scheme, claim.minSdk, claim.maxSdk, claim.certificateSha256, claim.publicKeySha256⟩

def reportV2 (claim : ℕ × Certificate) : AuthenticatedV2Signer :=
  ⟨claim.2.sha256, claim.2.publicKeySha256⟩

section Authenticated

variable (sha256 : List UInt8 → Digest)

/-- The signers of a v3 or v3.1 value; other values have none. -/
def addSdkScheme (checks : List ContentDigestCheck) (verified : List AuthenticatedSdkSigner)
    (signing : Signing) : Option (List AuthenticatedSdkSigner) :=
  if signing.1 ≠ "v3" ∧ signing.1 ≠ "v3.1" then some verified
  else
    let claims := sdkSigners sha256 signing.2 signing.1
    if claims = [] then none
    else claims.foldlM (addSigner checks SdkSigner.scheme SdkSigner.signerIndex SdkSigner.report) verified

def authenticatedSdkSigners (values : List Signing) (checks : List ContentDigestCheck) :
    List AuthenticatedSdkSigner :=
  match values.foldlM (addSdkScheme sha256 checks) [] with
  | none => []
  | some verified => (verified.mergeSort AuthenticatedSdkSigner.le).destutter (· ≠ ·)

def addV2Scheme (checks : List ContentDigestCheck) (verified : List AuthenticatedV2Signer)
    (signing : Signing) : Option (List AuthenticatedV2Signer) :=
  if signing.1 ≠ "v2" then some verified
  else do
    let claims ← v2Signers sha256 signing.2
    claims.foldlM (addSigner checks (fun _ ↦ "v2") Prod.fst reportV2) verified

def authenticatedV2Signers (values : List Signing) (checks : List ContentDigestCheck) :
    List AuthenticatedV2Signer :=
  match values.foldlM (addV2Scheme sha256 checks) [] with
  | none => []
  | some verified => (verified.mergeSort AuthenticatedV2Signer.le).destutter (· ≠ ·)

end Authenticated

/-! ## A nested APK -/

structure NestedApk where
  path : String
  sha256 : Str
  sizeBytes : ℕ
  roleHint : String
  package : Option String
  versionCode : Option String
  manifestError : Option String
  authenticatedSdkSigners : List AuthenticatedSdkSigner
  authenticatedV2Signers : List AuthenticatedV2Signer
  dexCount : ℕ
  nativeAbis : List String
deriving DecidableEq

def maxNestedBytes : ℕ := 64 * 1024 * 1024

def maxManifestBytes : ℕ := 4 * 1024 * 1024

def roleHint (name : String) : String :=
  let filename := (Text.split "/" name).getLast?.getD name
  if Text.toAsciiLowercase filename = "base.apk" ∨
      Text.toAsciiLowercase filename = "base-master.apk" then "base_filename_hint"
  else "unknown_or_split_filename_hint"

/-- The entries that are left: none unsafe, none twice, and the two headers of each in accord. -/
def validateEntries (data : List UInt8) (dirStart dirEnd : ℕ) :
    ℕ → ℕ → List String → Except Error ℕ
  | 0, pos, _ => .ok pos
  | n + 1, pos, seen => do
    let entry ← member data pos dirStart dirEnd
    let key := Text.toAsciiLowercase entry.name
    Except.ensure (¬ (suspicious entry.name = true ∨ Text.startsWith entry.name "./" = true ∨
        "" ∈ Text.split "/" entry.name ∨ key ∈ seen))
      (Error.invalidValue "unsafe or duplicate nested APK path")
    let localAt ← orInvalid "invalid nested local ZIP offset" (Apk.le32 data (pos + 42))
    Except.ensure (le16 data (localAt.toNat + 6) = some entry.flags ∧
        le16 data (localAt.toNat + 8) = some entry.method)
      (Error.invalidValue "nested APK central/local ZIP disagreement")
    validateEntries data dirStart dirEnd n entry.next (key :: seen)

def validateNestedStructure (data : List UInt8) : Except Error Unit := do
  let bounds ← directoryBounds data
  let last ← validateEntries data bounds.2.1 bounds.2.2 bounds.1 bounds.2.1 []
  Except.ensure (last = bounds.2.2)
    (Error.invalidValue "nested APK directory count/size disagree")

section Nested

variable (sha256 : List UInt8 → Digest)
  (verify : ℕ → List UInt8 → List UInt8 → List UInt8 → Bool)
  (inflate : List UInt8 → ℕ → Except String (List UInt8)) (crc32 : List UInt8 → UInt32)
  (manifest : List UInt8 → Except String (Option String × Option String))

def nestedManifest (data : List UInt8) (archive : Archive) :
    Option String × Option String × Option String :=
  match archive.manifest with
  | none => (none, none, some "missing nested AndroidManifest.xml")
  | some m =>
    match (readMember inflate crc32 data m maxManifestBytes maxManifestBytes).1 with
    | .error e => (none, none, some e)
    | .ok (bytes, _) =>
      match manifest bytes with
      | .error e => (none, none, some e)
      | .ok (package, version) => (package, version, none)

/-- The checks of an archive, withheld where a scheme is repeated or anything was malformed. -/
def checksOf (data : List UInt8) (archive : Archive) : Option (List ContentDigestCheck) :=
  if archive.duplicates = [] then
    match archive.signingStart, eocd data with
    | some start, .ok fin =>
      let found := compare sha256 verify data start archive.directoryStart fin archive.signingValues
      if found.errors = [] then some found.checks else none
    | _, _ => none
  else none

/-- What the bytes of a nested APK are reported as. -/
def reportNested (name : String) (bytes : List UInt8) (archive : Archive) : NestedApk :=
  let checks := checksOf sha256 verify bytes archive
  let found := nestedManifest inflate crc32 manifest bytes archive
  { path := name
    sha256 := hex32 (sha256 bytes)
    sizeBytes := bytes.length
    roleHint := roleHint name
    package := found.1
    versionCode := found.2.1
    manifestError := found.2.2
    authenticatedSdkSigners := match checks with
      | none => []
      | some checks => authenticatedSdkSigners sha256 archive.signingValues checks
    authenticatedV2Signers := match checks with
      | none => []
      | some checks => authenticatedV2Signers sha256 archive.signingValues checks
    dexCount := archive.dex.length
    nativeAbis := ((archive.members.filterMap fun m ↦ nativeAbi m.name).mergeSort
      fun a b ↦ (Ord.compare a b).isLE).destutter (· ≠ ·) }

def inspectNested (data : List UInt8) (entry : Member) (centralAt budget : ℕ) :
    Except Error NestedApk := do
  Except.ensure (entry.flags &&& 0x2041 = 0)
    (Error.invalidValue "encrypted or masked nested APK member")
  let mode := ((Apk.le32 data (centralAt + 38)).getD 0) >>> 16
  Except.ensure (mode &&& 0o170000 ≠ 0o120000)
    (Error.invalidValue "nested APK member is a ZIP symlink")
  Except.ensure (entry.method = 0 ∨ entry.method = 8)
    (Error.invalidValue "unsupported nested APK compression method")
  Except.ensure (entry.size ≤ maxNestedBytes)
    (Error.invalidValue "nested APK exceeds 64 MiB limit")
  let read ← ((readMember inflate crc32 data entry maxNestedBytes budget).1.mapError
    Error.invalidValue)
  Except.ensure (read.2 = none) (Error.invalidValue "unexpected nested APK compression quirk")
  validateNestedStructure read.1
  let archive ← walk read.1
  return reportNested sha256 verify inflate crc32 manifest entry.name read.1 archive

end Nested

/-! ## What a check says -/

variable {sha256 : List UInt8 → Digest} {verify : ℕ → List UInt8 → List UInt8 → List UInt8 → Bool}

/-- What a comparison has found when it stops. -/
def foundBy : Except Compared Compared → Compared
  | .ok found => found
  | .error found => found

theorem checks_error (found : Compared) (text : String) : (found.error text).checks = found.checks :=
  rfl

variable {computed : Option Digest} {α : Type} {checks : List ContentDigestCheck}

theorem compareClaims_spec {scheme : String} {value : List UInt8}
    {claims : List Claim} {found : Compared} :
    ∀ check ∈ (foundBy (compareClaims sha256 verify computed scheme value claims found)).checks,
      check ∈ found.checks ∨ ∃ claim ∈ claims, ∃ actual, computed = some actual ∧
        check = checkOf sha256 verify scheme value claim actual := by
  induction claims generalizing found with
  | nil => exact fun check hcheck ↦ .inl hcheck
  | cons claim rest ih =>
    intro check hcheck
    unfold compareClaims at hcheck
    split at hcheck
    · exact .inl hcheck
    · rcases computed with _ | actual
      · exact .inl hcheck
      · rcases ih check hcheck with hfound | ⟨claim', hclaim', hrest⟩
        · rcases mem_append.1 hfound with hfound | hnew
          · exact .inl hfound
          · exact .inr ⟨claim, (.head _), actual, rfl, mem_singleton.1 hnew⟩
        · exact .inr ⟨claim', .tail _ hclaim', hrest⟩

/-- A check is of a claim that is read of one of the values. -/
def IsCheck (sha256 : List UInt8 → Digest) (verify : ℕ → List UInt8 → List UInt8 → List UInt8 → Bool)
    (computed : Option Digest) (values : List Signing) (check : ContentDigestCheck) : Prop :=
  ∃ signing ∈ values, ∃ claims, sha256Digests sha256 signing.2 signing.1 = some claims ∧
    ∃ claim ∈ claims, ∃ actual, computed = some actual ∧
      check = checkOf sha256 verify signing.1 signing.2 claim actual

theorem IsCheck.cons {values : List Signing} {check : ContentDigestCheck}
    (signing : Signing) (h : IsCheck sha256 verify computed values check) :
    IsCheck sha256 verify computed (signing :: values) check := by
  obtain ⟨s, hs, hrest⟩ := h
  exact ⟨s, .tail _ hs, hrest⟩

theorem compareSchemes_spec {values : List Signing} {found : Compared} :
    ∀ check ∈ (foundBy (compareSchemes sha256 verify computed values found)).checks,
      check ∈ found.checks ∨ IsCheck sha256 verify computed values check := by
  induction values generalizing found with
  | nil => exact fun check hcheck ↦ .inl hcheck
  | cons signing rest ih =>
    obtain ⟨scheme, value⟩ := signing
    intro check hcheck
    rw [compareSchemes] at hcheck
    split at hcheck
    · rcases ih check hcheck with hfound | hrest
      · rw [checks_error] at hfound
        exact .inl hfound
      · exact .inr (hrest.cons _)
    · rename_i claims hclaims
      have hclaim : ∀ check ∈
          (foundBy (compareClaims sha256 verify computed scheme value claims found)).checks,
          check ∈ found.checks ∨ IsCheck sha256 verify computed ((scheme, value) :: rest) check := by
        intro check hcheck
        rcases compareClaims_spec check hcheck with hfound | hclaim
        · exact .inl hfound
        · exact .inr ⟨(scheme, value), (.head _), claims, hclaims, hclaim⟩
      split at hcheck
      · rename_i stopped hstopped
        exact hclaim check (by rw [hstopped]; exact hcheck)
      · rename_i more hmore
        rcases ih check hcheck with hfound | hrest
        · exact hclaim check (by rw [hmore]; exact hfound)
        · exact .inr (hrest.cons _)

/-- **Every check is of a claim that is read of one of the values.** -/
theorem compare_spec {apk : List UInt8} {signingStart directoryStart eocdAt : ℕ}
    {values : List Signing} {check : ContentDigestCheck}
    (h : check ∈ (compare sha256 verify apk signingStart directoryStart eocdAt values).checks) :
    IsCheck sha256 verify (chunkedSha256 sha256 apk signingStart directoryStart eocdAt) values
      check := by
  have hfound : check ∈ (foundBy (compareSchemes sha256 verify
      (chunkedSha256 sha256 apk signingStart directoryStart eocdAt) values ⟨[], []⟩)).checks := by
    unfold compare at h
    split at h <;> rename_i hstop <;> rw [hstop] <;> exact h
  rcases compareSchemes_spec check hfound with hnil | hcheck
  · cases hnil
  · exact hcheck

/-! ## Who is reported -/

theorem mem_destutter_ne [DecidableEq α] {a : α} {l : List α} :
    a ∈ l.destutter (· ≠ ·) ↔ a ∈ l := by
  refine ⟨fun h ↦ (destutter_sublist _ l).subset h, fun h ↦ ?_⟩
  rcases l with _ | ⟨b, l⟩
  · cases h
  · rw [destutter_cons']
    induction l generalizing b with
    | nil => exact h
    | cons c l ih =>
      rw [destutter'_cons]
      split
      · rcases mem_cons.1 h with rfl | h
        · exact .head _
        · exact .tail _ (ih c h)
      · rename_i hsame
        obtain rfl := not_not.1 hsame
        rcases mem_cons.1 h with rfl | h
        · exact ih _ (.head _)
        · exact ih _ h

theorem forall₂_of_right {β : Type} {r : α → β → Prop} {q : β → Prop} {xs : List α} {ys : List β}
    (h : List.Forall₂ r xs ys) (hq : ∀ y ∈ ys, q y) : List.Forall₂ (fun x y ↦ q y ∧ r x y) xs ys := by
  induction h with
  | nil => exact .nil
  | cons hxy _ ih =>
    obtain ⟨hy, hrest⟩ := forall_mem_cons.1 hq
    exact .cons ⟨hy, hxy⟩ (ih hrest)

theorem foldlM_addSigner {β : Type} {scheme : β → String}
    {index : β → ℕ} {report : β → α} {verified result : List α} {claims : List β}
    (h : claims.foldlM (addSigner checks scheme index report) verified = some result) :
    (∀ claim ∈ claims, isAuthenticated checks (scheme claim) (index claim) = true) ∧
      result = verified ++ claims.map report := by
  induction claims generalizing verified with
  | nil => exact ⟨by simp, by rw [← some.inj h, map_nil, append_nil]⟩
  | cons claim rest ih =>
    simp only [foldlM_cons, addSigner, bind_eq_bind, bind_eq_some_iff,
      guard_ok] at h
    obtain ⟨more, ⟨-, hauth, -, -, hmore⟩, h⟩ := h
    obtain ⟨hall, rfl⟩ := ih h
    refine ⟨forall_mem_cons.2 ⟨hauth, hall⟩, ?_⟩
    rw [← some.inj hmore, map_cons, append_assoc]
    rfl

/-- A fold that adds to a list for each value adds all of it. -/
theorem foldlM_adds {add : List α → Signing → Option (List α)}
    {adds : Signing → List α → Prop}
    (hadd : ∀ verified signing result, add verified signing = some result →
      ∃ new, adds signing new ∧ result = verified ++ new) {values : List Signing}
    {verified result : List α} (h : values.foldlM add verified = some result) :
    ∃ news, List.Forall₂ adds values news ∧ result = verified ++ news.flatten := by
  induction values generalizing verified with
  | nil => exact ⟨[], .nil, by rw [← some.inj h, flatten_nil, append_nil]⟩
  | cons signing rest ih =>
    simp only [foldlM_cons, bind_eq_bind, bind_eq_some_iff] at h
    obtain ⟨more, hmore, h⟩ := h
    obtain ⟨new, hnew, rfl⟩ := hadd _ _ _ hmore
    obtain ⟨news, hnews, rfl⟩ := ih h
    exact ⟨new :: news, .cons hnew hnews, by rw [flatten_cons, append_assoc]⟩

/-- **What a reported signer is backed by**: the signature over the signed data of one of the
value's signers verifies under its key, and the signed data has the certificate first, the key's
hash in it, the range of SDK versions and the digest. -/
def Attests (sha256 : List UInt8 → Digest) (verify : ℕ → List UInt8 → List UInt8 → List UInt8 → Bool)
    (value : List UInt8) (scheme : String) (signer : Span) (digest : Digest)
    (certificateSha256 publicKeySha256 : Str) (range : Option (ℕ × ℕ)) : Prop :=
  ∃ p, Layout value scheme signer p ∧ Presents sha256 value p certificateSha256 publicKeySha256 ∧
    (∀ r ∈ range, Signer.le32 value p.certs.2 = some r.1 ∧
      Signer.le32 value (p.certs.2 + 4) = some r.2) ∧
    ∃ algorithm ∈ signatureAlgorithms, HasRecord value p.digests algorithm digest.1 ∧
      ∃ signature publicKey, HasRecord value p.signatures algorithm signature ∧
        signingPublicKey (cut value p.key) algorithm = some publicKey ∧
        verify algorithm publicKey (cut value p.data) signature = true

/-- The check and the certificate of one scheme and index are of one record. -/
theorem attests_of_check {values : List Signing}
    (hdistinct : (values.map Prod.fst).Nodup)
    (hchecks : ∀ check ∈ checks, IsCheck sha256 verify computed values check) {signing : Signing}
    (hsigning : signing ∈ values) {signers : List Span}
    (hsigners : signersOf signing.2 = some signers) {s : Span × ℕ} (hs : s ∈ signers.zipIdx)
    (hauth : isAuthenticated checks signing.1 s.2 = true) {certificateSha256 publicKeySha256 : Str}
    {range : Option (ℕ × ℕ)}
    (hstates : States sha256 signing.2 signing.1 s.1 certificateSha256 publicKeySha256 range) :
    ∃ digest, computed = some digest ∧ Attests sha256 verify signing.2 signing.1 s.1 digest
      certificateSha256 publicKeySha256 range := by
  obtain ⟨check, hcheck, hsame⟩ := any_eq_true.1 hauth
  simp only [Bool.and_eq_true, beq_iff_eq] at hsame
  obtain ⟨⟨hscheme, hindex⟩, hgood⟩ := hsame
  obtain ⟨other, hother, claims, hclaims, claim, hclaim, digest, hdigest, rfl⟩ := hchecks check hcheck
  simp only [checkOf, Bool.and_eq_true, beq_iff_eq] at hscheme hindex hgood
  obtain rfl : other = signing := inj_on_of_nodup_map hdistinct hother hsigning hscheme
  have hsigner : signers[s.2]? = some s.1 := mem_zipIdx_iff_getElem?.1 hs
  obtain ⟨signers₁, signer₁, p₁, hsigners₁, hsigner₁, hlayout₁, hrecord⟩ :=
    sha256Digests_spec hclaims hclaim
  obtain ⟨halgorithm, signers₂, signer₂, p₂, hsigners₂, hsigner₂, hlayout₂, signature, publicKey,
    hsignature, hpublicKey, hverify⟩ := verified_spec hgood.2
  obtain ⟨p, hlayout, hpresents, hrange⟩ := hstates
  obtain rfl := some.inj (hsigners₁.symm.trans hsigners)
  obtain rfl := some.inj (hsigners₂.symm.trans hsigners)
  rw [hindex] at hsigner₁ hsigner₂
  obtain rfl := some.inj (hsigner₁.symm.trans hsigner)
  obtain rfl := some.inj (hsigner₂.symm.trans hsigner)
  obtain rfl := hlayout₁.eq hlayout
  obtain rfl := hlayout₂.eq hlayout
  rw [hgood.1] at hrecord
  exact ⟨digest, hdigest, _, hlayout, hpresents, hrange, claim.2.1, halgorithm, hrecord, signature,
    publicKey, hsignature, hpublicKey, hverify⟩

/-- What is reported of a value of a scheme that is looked at: one for each of its signers, each of
them with a good check. -/
def Adds {α : Type} (checks : List ContentDigestCheck) (looked : String → Prop)
    (states : Signing → Span → α → Prop) (signing : Signing) (new : List α) : Prop :=
  (¬ looked signing.1 ∧ new = []) ∨ (looked signing.1 ∧ ∃ signers, signersOf signing.2 = some signers ∧
    signers ≠ [] ∧ List.Forall₂ (fun s a ↦ isAuthenticated checks signing.1 s.2 = true ∧
      states signing s.1 a) signers.zipIdx new)

/-- The schemes that have a range of SDK versions. -/
def HasRange (scheme : String) : Prop := scheme = "v3" ∨ scheme = "v3.1"

def StatesSdk (sha256 : List UInt8 → Digest) (signing : Signing) (signer : Span)
    (a : AuthenticatedSdkSigner) : Prop :=
  a.scheme = signing.1 ∧ States sha256 signing.2 signing.1 signer a.certificateSha256
    a.publicKeySha256 (some (a.minSdk, a.maxSdk))

def StatesV2 (sha256 : List UInt8 → Digest) (signing : Signing) (signer : Span)
    (a : AuthenticatedV2Signer) : Prop :=
  States sha256 signing.2 signing.1 signer a.certificateSha256 a.publicKeySha256 none

theorem addSdkScheme_adds (verified : List AuthenticatedSdkSigner)
    (signing : Signing) (result : List AuthenticatedSdkSigner)
    (h : addSdkScheme sha256 checks verified signing = some result) :
    ∃ new, Adds checks HasRange (StatesSdk sha256) signing new ∧ result = verified ++ new := by
  unfold addSdkScheme at h
  split at h
  · rename_i hother
    refine ⟨[], .inl ⟨fun hrange ↦ ?_, rfl⟩, by rw [← some.inj h, append_nil]⟩
    exact hrange.elim hother.1 hother.2
  · rename_i hrange
    simp only at h
    split at h
    · simp at h
    · rename_i hclaims
      obtain ⟨hauth, rfl⟩ := foldlM_addSigner h
      obtain ⟨signers, hsigners, hne, hall⟩ := sdkSigners_spec hclaims
      refine ⟨_, .inr ⟨?_, signers, hsigners, hne, ?_⟩, rfl⟩
      · unfold HasRange
        tauto
      · rw [forall₂_map_right_iff]
        refine (forall₂_of_right hall hauth).imp fun s claim hclaim ↦ ?_
        obtain ⟨hchecked, ⟨hscheme, hindex⟩, hstates⟩ := hclaim
        rw [hscheme, hindex] at hchecked
        exact ⟨hchecked, hscheme, hstates⟩

theorem addV2Scheme_adds (verified : List AuthenticatedV2Signer)
    (signing : Signing) (result : List AuthenticatedV2Signer)
    (h : addV2Scheme sha256 checks verified signing = some result) :
    ∃ new, Adds checks (· = "v2") (StatesV2 sha256) signing new ∧ result = verified ++ new := by
  unfold addV2Scheme at h
  split at h
  · rename_i hother
    exact ⟨[], .inl ⟨hother, rfl⟩, by rw [← some.inj h, append_nil]⟩
  · rename_i hscheme
    have hv2 : signing.1 = "v2" := not_not.1 hscheme
    simp only [bind_eq_bind, bind_eq_some_iff] at h
    obtain ⟨claims, hclaims, h⟩ := h
    obtain ⟨hauth, rfl⟩ := foldlM_addSigner h
    obtain ⟨signers, hsigners, hne, hall⟩ := v2Signers_spec hclaims
    refine ⟨_, .inr ⟨hv2, signers, hsigners, hne, ?_⟩, rfl⟩
    rw [forall₂_map_right_iff]
    refine (forall₂_of_right hall hauth).imp fun s claim hclaim ↦ ?_
    obtain ⟨hchecked, hindex, hstates⟩ := hclaim
    rw [hindex] at hchecked
    rw [StatesV2, hv2]
    exact ⟨hchecked, hstates⟩

/-! ## The report -/

/-- **Authentic** signers: where any is reported, no scheme of the APK's signing block is repeated,
each of those reported is attested for the content digest of these bytes by a signer of a value that
is looked at, and each signer of each of these values is one of them. -/
def Authentic {α : Type} (sha256 : List UInt8 → Digest) (bytes : List UInt8) (archive : Archive)
    (looked : String → Prop) (attests : Signing → Span → Digest → α → Prop) (reported : List α) : Prop :=
  reported ≠ [] → archive.duplicates = [] ∧ ∃ start fin digest,
    archive.signingStart = some start ∧ eocd bytes = .ok fin ∧
    chunkedSha256 sha256 bytes start archive.directoryStart fin = some digest ∧
    (∀ a ∈ reported, ∃ signing ∈ archive.signingValues, looked signing.1 ∧ ∃ signers,
      signersOf signing.2 = some signers ∧ ∃ signer ∈ signers, attests signing signer digest a) ∧
    ∀ signing ∈ archive.signingValues, looked signing.1 → ∃ signers,
      signersOf signing.2 = some signers ∧ signers ≠ [] ∧
        ∀ signer ∈ signers, ∃ a ∈ reported, attests signing signer digest a

/-- The attestation of a signer of v3 or v3.1. -/
def AttestsSdk (sha256 : List UInt8 → Digest)
    (verify : ℕ → List UInt8 → List UInt8 → List UInt8 → Bool) (signing : Signing) (signer : Span)
    (digest : Digest) (a : AuthenticatedSdkSigner) : Prop :=
  a.scheme = signing.1 ∧ Attests sha256 verify signing.2 signing.1 signer digest a.certificateSha256
    a.publicKeySha256 (some (a.minSdk, a.maxSdk))

/-- The attestation of a signer of v2. -/
def AttestsV2 (sha256 : List UInt8 → Digest)
    (verify : ℕ → List UInt8 → List UInt8 → List UInt8 → Bool) (signing : Signing) (signer : Span)
    (digest : Digest) (a : AuthenticatedV2Signer) : Prop :=
  Attests sha256 verify signing.2 signing.1 signer digest a.certificateSha256 a.publicKeySha256 none

/-- What the checks are of. -/
theorem checksOf_spec {data : List UInt8} {archive : Archive}
    (h : checksOf sha256 verify data archive = some checks) :
    archive.duplicates = [] ∧ ∃ start fin, archive.signingStart = some start ∧ eocd data = .ok fin ∧
      ∀ check ∈ checks, IsCheck sha256 verify
        (chunkedSha256 sha256 data start archive.directoryStart fin) archive.signingValues check := by
  unfold checksOf at h
  split at h
  · rename_i hduplicates
    split at h
    · rename_i start fin hstart hfin
      simp only at h
      split at h
      · rw [← some.inj h]
        exact ⟨hduplicates, start, fin, hstart, hfin, fun check hcheck ↦ compare_spec hcheck⟩
      · simp at h
    · simp at h
  · simp at h

/-- Where every value that is looked at adds its signers, those that are reported are authentic. -/
theorem authentic_of_adds {bytes : List UInt8} {archive : Archive}
    {looked : String → Prop} {states : Signing → Span → α → Prop}
    {attests : Signing → Span → Digest → α → Prop} (hchecks : checksOf sha256 verify bytes archive = some checks)
    (hattests : ∀ computed, (∀ check ∈ checks,
        IsCheck sha256 verify computed archive.signingValues check) →
      ∀ signing ∈ archive.signingValues, ∀ signers, signersOf signing.2 = some signers →
        ∀ s ∈ signers.zipIdx, isAuthenticated checks signing.1 s.2 = true → ∀ a, states signing s.1 a →
          ∃ digest, computed = some digest ∧ attests signing s.1 digest a)
    {news : List (List α)}
    (hadds : List.Forall₂ (Adds checks looked states) archive.signingValues news) {reported : List α}
    (hreported : ∀ a, a ∈ reported ↔ a ∈ news.flatten) :
    Authentic sha256 bytes archive looked attests reported := by
  obtain ⟨hduplicates, start, fin, hstart, hfin, hall⟩ := checksOf_spec hchecks
  have hone := hattests _ hall
  intro hne
  obtain ⟨first, hfirst⟩ := exists_mem_of_ne_nil _ hne
  have hback : ∀ a ∈ reported, ∃ signing ∈ archive.signingValues, looked signing.1 ∧ ∃ signers,
      signersOf signing.2 = some signers ∧ ∃ signer ∈ signers, ∃ digest,
        chunkedSha256 sha256 bytes start archive.directoryStart fin = some digest ∧
          attests signing signer digest a := by
    intro a ha
    obtain ⟨new, hnew, hmem⟩ := mem_flatten.1 ((hreported a).1 ha)
    obtain ⟨signing, hsigning, hadd⟩ := forall₂_mem_right hadds hnew
    rcases hadd with ⟨-, rfl⟩ | ⟨hlooked, signers, hsigners, -, hsome⟩
    · cases hmem
    · obtain ⟨s, hs, hauth, hstates⟩ := forall₂_mem_right hsome hmem
      exact ⟨signing, hsigning, hlooked, signers, hsigners, s.1, fst_mem_of_mem_zipIdx hs,
        hone signing hsigning signers hsigners s hs hauth a hstates⟩
  obtain ⟨_, -, -, _, -, _, -, digest, hdigest, -⟩ := hback first hfirst
  refine ⟨hduplicates, start, fin, digest, hstart, hfin, hdigest, fun a ha ↦ ?_, ?_⟩
  · obtain ⟨signing, hsigning, hlooked, signers, hsigners, signer, hsigner, digest', hdigest', h⟩ :=
      hback a ha
    obtain rfl := some.inj (hdigest'.symm.trans hdigest)
    exact ⟨signing, hsigning, hlooked, signers, hsigners, signer, hsigner, h⟩
  · intro signing hsigning hlooked
    obtain ⟨new, hnew, hadd⟩ := forall₂_mem_left hadds hsigning
    rcases hadd with ⟨hnot, -⟩ | ⟨-, signers, hsigners, hsome, hpairs⟩
    · exact absurd hlooked hnot
    · refine ⟨signers, hsigners, hsome, fun signer hsigner ↦ ?_⟩
      obtain ⟨i, hi⟩ := mem_iff_getElem?.1 hsigner
      have hs : (signer, i) ∈ signers.zipIdx := mem_zipIdx_iff_getElem?.2 hi
      obtain ⟨a, ha, hauth, hstates⟩ := forall₂_mem_left hpairs hs
      obtain ⟨digest', hdigest', h⟩ := hone signing hsigning signers hsigners _ hs hauth a hstates
      obtain rfl := some.inj (hdigest'.symm.trans hdigest)
      exact ⟨a, (hreported a).2 (mem_flatten.2 ⟨new, hnew, ha⟩), h⟩

theorem authentic_nil {bytes : List UInt8} {archive : Archive} {looked : String → Prop}
    {attests : Signing → Span → Digest → α → Prop} :
    Authentic sha256 bytes archive looked attests [] := fun h ↦ absurd rfl h

theorem authentic_sdk {bytes : List UInt8} {archive : Archive} (hwalk : walk bytes = .ok archive)
    (hchecks : checksOf sha256 verify bytes archive = some checks) :
    Authentic sha256 bytes archive HasRange (AttestsSdk sha256 verify)
      (authenticatedSdkSigners sha256 archive.signingValues checks) := by
  unfold authenticatedSdkSigners
  split
  · exact authentic_nil
  · rename_i verified hverified
    obtain ⟨news, hnews, rfl⟩ := foldlM_adds addSdkScheme_adds hverified
    refine authentic_of_adds hchecks ?_ hnews fun a ↦ ?_
    · intro computed hall signing hsigning signers hsigners s hs hauth a hstates
      obtain ⟨digest, hdigest, h⟩ := attests_of_check (walk_distinct hwalk) hall hsigning hsigners hs
        hauth hstates.2
      exact ⟨digest, hdigest, hstates.1, h⟩
    · rw [mem_destutter_ne, mem_mergeSort, nil_append]

theorem authentic_v2 {bytes : List UInt8} {archive : Archive} (hwalk : walk bytes = .ok archive)
    (hchecks : checksOf sha256 verify bytes archive = some checks) :
    Authentic sha256 bytes archive (· = "v2") (AttestsV2 sha256 verify)
      (authenticatedV2Signers sha256 archive.signingValues checks) := by
  unfold authenticatedV2Signers
  split
  · exact authentic_nil
  · rename_i verified hverified
    obtain ⟨news, hnews, rfl⟩ := foldlM_adds addV2Scheme_adds hverified
    refine authentic_of_adds hchecks ?_ hnews fun a ↦ ?_
    · intro computed hall signing hsigning signers hsigners s hs hauth a hstates
      exact attests_of_check (walk_distinct hwalk) hall hsigning hsigners hs hauth hstates
    · rw [mem_destutter_ne, mem_mergeSort, nil_append]

/-- **The signers that are reported of a nested APK are authentic**, and so are those of v2. -/
theorem inspectNested_authenticated (sha256 : List UInt8 → Digest)
    (verify : ℕ → List UInt8 → List UInt8 → List UInt8 → Bool)
    (inflate : List UInt8 → ℕ → Except String (List UInt8)) (crc32 : List UInt8 → UInt32)
    (manifest : List UInt8 → Except String (Option String × Option String)) (data : List UInt8)
    (entry : Member) (centralAt budget : ℕ) (nested : NestedApk)
    (h : inspectNested sha256 verify inflate crc32 manifest data entry centralAt budget = .ok nested) :
    ∃ bytes archive,
      (readMember inflate crc32 data entry maxNestedBytes budget).1 = .ok (bytes, none) ∧
      walk bytes = .ok archive ∧ nested.sha256 = hex32 (sha256 bytes) ∧
      Authentic sha256 bytes archive HasRange (AttestsSdk sha256 verify)
        nested.authenticatedSdkSigners ∧
      Authentic sha256 bytes archive (· = "v2") (AttestsV2 sha256 verify)
        nested.authenticatedV2Signers := by
  simp only [inspectNested, Except.bind_ok, Except.ensure_ok] at h
  obtain ⟨-, -, -, -, -, -, -, -, ⟨bytes, quirk⟩, hread, -, hquirk, -, -, archive, hwalk, h⟩ := h
  cases h
  have hbytes : (readMember inflate crc32 data entry maxNestedBytes budget).1 = .ok (bytes, none) := by
    simp only at hquirk
    subst hquirk
    rcases hmember : (readMember inflate crc32 data entry maxNestedBytes budget).1 with error | read
    · rw [hmember] at hread
      exact absurd hread (by simp [Except.mapError])
    · rw [hmember] at hread
      rw [Except.ok.inj hread]
  refine ⟨bytes, archive, hbytes, hwalk, rfl, ?_, ?_⟩
  · unfold reportNested
    simp only
    split
    · exact authentic_nil
    · rename_i checks hchecks
      exact authentic_sdk hwalk hchecks
  · unfold reportNested
    simp only
    split
    · exact authentic_nil
    · rename_i checks hchecks
      exact authentic_v2 hwalk hchecks

/-! ## An APK with one signer -/

namespace Signed

/-- A P-256 key. -/
def publicKey : List UInt8 :=
  [4, 150, 47, 240, 216, 112, 193, 241, 168, 225, 32, 35, 227, 115, 209, 56, 215, 253, 69, 192,
   75, 201, 77, 207, 7, 95, 219, 0, 129, 12, 223, 3, 58, 104, 179, 16, 248, 50, 75, 40, 57, 255,
   162, 159, 102, 170, 186, 30, 181, 182, 105, 198, 123, 27, 41, 145, 74, 80, 84, 210, 119, 187,
   53, 98, 107]

/-- Its `SubjectPublicKeyInfo`. -/
def spki : List UInt8 :=
  [48, 89, 48, 19, 6, 7, 42, 134, 72, 206, 61, 2, 1, 6, 8, 42, 134, 72, 206, 61, 3, 1, 7, 3, 66,
   0] ++ publicKey

/-- A certificate of the key. -/
def certificate : List UInt8 :=
  [48, 129, 255, 48, 129, 166, 2, 1, 1, 48, 10, 6, 8, 42, 134, 72, 206, 61, 4, 3, 2, 48, 12, 49,
   10, 48, 8, 6, 3, 85, 4, 3, 12, 1, 97, 48, 30, 23, 13, 50, 54, 49, 49, 49, 57, 48, 53, 50, 51,
   48, 52, 90, 23, 13, 51, 54, 49, 49, 49, 54, 48, 53, 50, 51, 48, 52, 90, 48, 12, 49, 10, 48, 8,
   6, 3, 85, 4, 3, 12, 1, 97] ++ spki ++
  [48, 10, 6, 8, 42, 134, 72, 206, 61, 4, 3, 2, 3, 72, 0, 48, 69, 2, 32, 113, 172, 71, 45, 174,
   70, 75, 237, 28, 108, 131, 28, 157, 59, 93, 109, 92, 30, 216, 14, 36, 36, 220, 198, 242, 54,
   12, 100, 121, 69, 37, 29, 2, 33, 0, 236, 44, 101, 31, 222, 119, 111, 95, 237, 246, 154, 176,
   48, 81, 102, 211, 253, 14, 160, 205, 211, 100, 1, 184, 163, 93, 30, 21, 94, 62, 247, 181]

def signature : List UInt8 :=
  [48, 70, 2, 33, 0, 216, 36, 144, 26, 133, 100, 219, 77, 10, 55, 13, 65, 82, 153, 7, 100, 113,
   162, 89, 11, 125, 48, 8, 184, 229, 132, 145, 86, 237, 234, 225, 233, 2, 33, 0, 217, 150, 55,
   110, 7, 116, 217, 248, 211, 196, 180, 89, 184, 20, 22, 50, 76, 253, 231, 157, 101, 248, 3, 84,
   2, 219, 81, 204, 69, 38, 166, 95]

def prefixed (bytes : List UInt8) : List UInt8 := le32Bytes bytes.length ++ bytes

def sdkRange : List UInt8 := le32Bytes 28 ++ le32Bytes 0x7fffffff

/-- ECDSA with SHA-256, and what it is the digest or the signature of. -/
def ecdsaRecord (bytes : List UInt8) : List UInt8 :=
  prefixed (prefixed (le32Bytes 0x0201 ++ prefixed bytes))

def signedData : List UInt8 :=
  ecdsaRecord Sample.outsideDigest.1 ++ prefixed (prefixed certificate) ++ sdkRange ++ prefixed []

def v3Value : List UInt8 :=
  prefixed (prefixed (prefixed signedData ++ sdkRange ++ ecdsaRecord signature ++ prefixed spki))

def block : List UInt8 :=
  le32Bytes 565 ++ Sample.zeros 4 ++ (le32Bytes 533 ++ Sample.zeros 4 ++
    [0xc0, 0x68, 0x53, 0xf0] ++ v3Value) ++ le32Bytes 565 ++ Sample.zeros 4 ++ apkSigMagic

/-- A manifest, the signing block and the directory. -/
def apk : List UInt8 :=
  Sample.localHeader 0 ++ Sample.first ++ block ++ Sample.directory ++
    (eocdSignature ++ Sample.zeros 4 ++ [1, 0, 1, 0] ++ le32Bytes 65 ++ le32Bytes 627 ++ [0, 0])

def keySha : Digest :=
  ⟨[136, 165, 117, 156, 216, 170, 186, 112, 189, 5, 253, 188, 134, 106, 199, 64, 154, 207, 116,
    59, 182, 251, 16, 111, 128, 6, 102, 116, 21, 240, 165, 39], rfl⟩

def certificateSha : Digest :=
  ⟨[212, 252, 44, 52, 122, 25, 45, 158, 36, 7, 74, 127, 237, 43, 181, 248, 217, 250, 6, 96, 178,
    209, 20, 76, 195, 89, 85, 130, 31, 0, 171, 115], rfl⟩

def apkSha : Digest :=
  ⟨[49, 224, 156, 93, 180, 16, 165, 5, 58, 51, 82, 165, 225, 174, 57, 242, 36, 193, 254, 17, 125,
    156, 106, 158, 54, 58, 179, 2, 194, 212, 90, 247], rfl⟩

/-- SHA-256, on the texts that are hashed here. -/
def sha (text : List UInt8) : Digest :=
  ([(spki, keySha), (certificate, certificateSha), (apk, apkSha)].lookup text).getD
    (Sample.outsideSha text)

def verifies (algorithm : ℕ) (key message sig : List UInt8) : Bool :=
  algorithm == 0x0201 && key == publicKey && message == signedData && sig == signature

/-- CRC-32, on the payloads that are read here. -/
def crc32 (bytes : List UInt8) : UInt32 := if bytes = Sample.first then 0x3610a686 else 0x061bc076

/-- The APK as the stored member of a container that starts with it. -/
def entry : Member := ⟨"base.apk", 0, 0, 0x061bc076, 714, 0, 0, 714⟩

def nested : NestedApk where
  path := "base.apk"
  sha256 := hex32 apkSha
  sizeBytes := 714
  roleHint := "base_filename_hint"
  package := none
  versionCode := none
  manifestError := some "not Android binary XML"
  authenticatedSdkSigners := [⟨"v3", 28, 0x7fffffff, hex32 certificateSha, hex32 keySha⟩]
  authenticatedV2Signers := []
  dexCount := 0
  nativeAbis := []

theorem inspected : inspectNested sha verifies (fun _ _ ↦ .error "corrupt") crc32
    (fun _ ↦ .error "not Android binary XML") apk entry 714 maxInflatedBytes = .ok nested := by
  decide +kernel

end Signed

/-- The one signer is authentic. -/
theorem inspectNested_signed : ∃ bytes archive,
    (readMember (fun _ _ ↦ .error "corrupt") Signed.crc32 Signed.apk Signed.entry maxNestedBytes
      maxInflatedBytes).1 = .ok (bytes, none) ∧
    walk bytes = .ok archive ∧ Signed.nested.sha256 = hex32 (Signed.sha bytes) ∧
    Authentic Signed.sha bytes archive HasRange (AttestsSdk Signed.sha Signed.verifies)
      Signed.nested.authenticatedSdkSigners ∧
    Authentic Signed.sha bytes archive (· = "v2") (AttestsV2 Signed.sha Signed.verifies)
      Signed.nested.authenticatedV2Signers :=
  inspectNested_authenticated Signed.sha Signed.verifies _ Signed.crc32 _ Signed.apk Signed.entry 714
    maxInflatedBytes Signed.nested Signed.inspected

end Huntsman.Apk
