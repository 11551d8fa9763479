import Huntsman.Graph.Validate

/-!
# Outputs of tasks

What an output has to be before it is recorded: of its schema, not too large, with sound evidence
references, and, when it claims to be verified, from a verifier that cites evidence of the producer
it depends on.  The same checks are made of an output that a handler answers with and of one that
comes from a checkpoint.
-/

set_option autoImplicit false

namespace Huntsman.Graph

open Std

/-- Whether a character is a hexadecimal digit. -/
def hexDigit (c : Char) : Bool :=
  ('0' ≤ c && c ≤ '9') || ('a' ≤ c && c ≤ 'f') || ('A' ≤ c && c ≤ 'F')

/-- Whether a text is blank. -/
def blank (text : String) : Bool := Text.trim text == ""

/-- Check evidence references, those in `seen` being the identifiers before. -/
def checkEvidence (id : String) : List String → List EvidenceReference → Except String Unit
  | _, [] => .ok ()
  | seen, evidence :: rest => do
    Except.ensure (validToken evidence.id ∧ ¬ blank evidence.sourceId ∧ ¬ blank evidence.locator ∧
        ¬ blank evidence.provenance ∧ evidence.id ∉ seen)
      ("invalid or duplicate evidence reference for " ++ id)
    Except.ensure (∀ hash ∈ evidence.contentSha256,
        hash.utf8ByteSize = 64 ∧ hash.toList.all hexDigit)
      ("invalid evidence hash for " ++ id)
    checkEvidence id (evidence.id :: seen) rest

/-- Encode an output, or say why not. -/
def encodeOutput (enc : Encoders) (output : TaskOutput) : Except String (List UInt8) :=
  match enc.output output with
  | .ok bytes => .ok bytes
  | .error error => .error ("output serialization failed: " ++ error)

def validateOutput (enc : Encoders) (spec : TaskSpec) (output : TaskOutput) (maxBytes : ℕ) :
    Except String Unit := do
  Except.ensure (spec.outputSchema.accepts output.value) ("output schema mismatch for " ++ spec.id)
  let encoded ← encodeOutput enc output
  Except.ensure (encoded.length ≤ maxBytes)
    ("output for " ++ spec.id ++ " exceeds " ++ maxBytes.repr ++ " bytes")
  checkEvidence spec.id [] output.evidence
  let verification := output.verification
  Except.ensure (¬ blank verification.producerId ∧ ¬ blank verification.reviewerId ∧
      ¬ blank verification.basis)
    ("missing verification provenance for " ++ spec.id)
  Except.ensure (∀ reference ∈ verification.evidenceRefs,
      reference ∈ output.evidence.map EvidenceReference.id)
    ("verification references unknown evidence for " ++ spec.id)
  Except.ensure (verification.state = .verified → spec.role = .verifier ∧
      verification.reviewerId = spec.id ∧ verification.producerId ≠ verification.reviewerId ∧
      verification.producerId ∈ spec.dependencies)
    ("verified result lacks a separate dependent verifier task for " ++ spec.id)
  Except.ensure (verification.state = .verified → verification.evidenceRefs ≠ [])
    ("verified result lacks linked evidence for " ++ spec.id)
  Except.ensure verification.evidenceRefs.Nodup
    ("duplicate verification evidence reference for " ++ spec.id)

/-- A verifier must cite at least one exact evidence record from the claimed producer. -/
def validateVerificationLineage (spec : TaskSpec) (output : TaskOutput)
    (producer : Option TaskOutput) : Except String Unit :=
  if output.verification.state ≠ .verified then .ok ()
  else
    match producer with
    | none => .error ("missing producer evidence for " ++ spec.id)
    | some original =>
      Except.ensure (∃ reference ∈ output.evidence,
          reference.id ∈ output.verification.evidenceRefs ∧ reference ∈ original.evidence)
        ("verified task " ++ spec.id ++ " lacks matching producer evidence")

def validateOutputAndLineage (enc : Encoders) (spec : TaskSpec) (output : TaskOutput)
    (maxBytes : ℕ) (producer : Option TaskOutput) : Except String Unit := do
  validateOutput enc spec output maxBytes
  validateVerificationLineage spec output producer

/-- How large an output is, one that cannot be encoded counting as empty. -/
def outputSize (enc : Encoders) (output : TaskOutput) : ℕ :=
  match enc.output output with
  | .ok bytes => bytes.length
  | .error _ => 0

section

variable {enc : Encoders} {spec : TaskSpec} {output : TaskOutput} {maxBytes : ℕ} {u : Unit}

/-- An output that was accepted can be encoded. -/
theorem validateOutput_encodes (h : validateOutput enc spec output maxBytes = .ok u) :
    ∃ bytes, enc.output output = .ok bytes ∧ bytes.length = outputSize enc output := by
  simp only [validateOutput, Except.bind_ok] at h
  obtain ⟨_, _, bytes, hbytes, _⟩ := h
  rw [encodeOutput] at hbytes
  split at hbytes
  · rename_i b hb
    exact ⟨b, hb, by rw [outputSize, hb]⟩
  · cases hbytes

/-- An output that was accepted as verified is a verifier's, about one of its dependencies. -/
theorem validateOutput_verified (h : validateOutput enc spec output maxBytes = .ok u)
    (hstate : output.verification.state = .verified) :
    spec.role = .verifier ∧ output.verification.producerId ≠ spec.id ∧
      output.verification.producerId ∈ spec.dependencies := by
  simp only [validateOutput, Except.bind_ok, Except.ensure_ok, exists_const] at h
  obtain ⟨_, _, _, _, _, _, _, _, hrole, _⟩ := h
  obtain ⟨hverifier, hreviewer, hproducer, hdependency⟩ := hrole hstate
  exact ⟨hverifier, hreviewer ▸ hproducer, hdependency⟩

/-- The lineage of a verified output cites the producer's evidence. -/
theorem validateVerificationLineage_verified {producer : Option TaskOutput}
    (h : validateVerificationLineage spec output producer = .ok u)
    (hstate : output.verification.state = .verified) :
    ∃ original, producer = some original ∧ ∃ reference ∈ output.evidence,
      reference.id ∈ output.verification.evidenceRefs ∧ reference ∈ original.evidence := by
  unfold validateVerificationLineage at h
  rw [if_neg (not_not.2 hstate)] at h
  split at h
  · cases h
  · rename_i original
    exact ⟨original, rfl, Except.ensure_ok.1 h⟩

/-- Only a verified output has a lineage to check. -/
theorem validateVerificationLineage_congr {producer producer' : Option TaskOutput}
    (h : validateVerificationLineage spec output producer = .ok ())
    (heq : output.verification.state = .verified → producer = producer') :
    validateVerificationLineage spec output producer' = .ok () := by
  by_cases hstate : output.verification.state = .verified
  · rwa [← heq hstate]
  · unfold validateVerificationLineage
    rw [if_pos hstate]

theorem validateOutputAndLineage_ok {producer : Option TaskOutput} :
    validateOutputAndLineage enc spec output maxBytes producer = .ok u ↔
      validateOutput enc spec output maxBytes = .ok () ∧
        validateVerificationLineage spec output producer = .ok u := by
  simp only [validateOutputAndLineage, Except.bind_ok]
  exact ⟨fun ⟨_, h, h'⟩ ↦ ⟨h, h'⟩, fun ⟨h, h'⟩ ↦ ⟨(), h, h'⟩⟩

end

/-! ## How a run ended -/

/-- How a run ended, from how its tasks ended. -/
def deriveTermination (records : Records) : RunTermination :=
  let states := records.toList.map fun entry ↦ entry.2.state
  if .timedOut ∈ states then .timedOut
  else if .cancelled ∈ states then .cancelled
  else if .failed ∈ states ∨ .blocked ∈ states then .failed
  else .completed

end Huntsman.Graph
