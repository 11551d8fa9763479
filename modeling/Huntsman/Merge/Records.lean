import Huntsman.Lib.Groups
import Huntsman.Merge.Values

/-!
# What a merge keeps

Records of one uid are folded together one at a time.  Their evidence records are folded together
too, where two are the same observation, and that test is not transitive and reads the attributes as
they are by then; so nothing is said here of which records end up in which.  What is said is that a
record that others were folded into `Covers` each of them: it is of the same source, says the same,
has their observations among its own, and holds each of their attribute values whole.

`mergeByUid_merged` is what follows for a list of entities: one entity for each uid, and each is
made of those with its uid in the sense of `Entity.Merges`.
-/

set_option autoImplicit false

namespace Huntsman

open Std Groups

/-! ## One record -/

/-- Every observation a record holds, its own first. -/
def Evidence.observations (record : Evidence) : List EvidenceProvenance :=
  record.provenance :: record.mergedProvenance

/-- `held` holds the values of `attributes` whole. -/
def HoldsAll (held attributes : TreeMap String String) : Prop :=
  ∀ key value : String, attributes[key]? = some value →
    ∃ text : String, held[key]? = some text ∧ holdsWhole text value = true

/-- Nothing of `record` is lost in `kept`. -/
structure Evidence.Covers (kept record : Evidence) : Prop where
  source : kept.provenance.source = record.provenance.source
  summary : kept.summary = record.summary
  observations : ∀ p ∈ record.observations, p ∈ kept.observations
  values : HoldsAll kept.attributes record.attributes

theorem Evidence.Covers.refl (record : Evidence) : record.Covers record where
  source := rfl
  summary := rfl
  observations := fun _ hp ↦ hp
  values := fun _ value h ↦ ⟨value, h, holdsWhole_refl value⟩

theorem Evidence.Covers.trans {a b c : Evidence} (h : a.Covers b) (h' : b.Covers c) :
    a.Covers c where
  source := h.source.trans h'.source
  summary := h.summary.trans h'.summary
  observations := fun p hp ↦ h.observations p (h'.observations p hp)
  values := fun key value hvalue ↦ by
    obtain ⟨middle, hmiddle, hmiddleHolds⟩ := h'.values key value hvalue
    obtain ⟨held, hheld, hholds⟩ := h.values key middle hmiddle
    exact ⟨held, hheld, holdsWhole_trans hholds hmiddleHolds⟩

/-- Fold one value in under its key. -/
def foldAttribute (attributes : TreeMap String String) (item : String × String) :
    TreeMap String String :=
  attributes.insert item.1 (match attributes[item.1]? with
    | some held => foldValue held item.2
    | none => item.2)

theorem foldAttribute_holds (attributes : TreeMap String String) (item : String × String) :
    HoldsAll (foldAttribute attributes item) attributes ∧
      ∃ text : String, (foldAttribute attributes item)[item.1]? = some text ∧
        holdsWhole text item.2 = true := by
  constructor
  · intro key value hvalue
    by_cases hkey : item.1 = key
    · subst hkey
      rw [foldAttribute, TreeMap.getElem?_insert_self, hvalue]
      exact ⟨_, rfl, (foldValue_holds value item.2).1⟩
    · refine ⟨value, ?_, holdsWhole_refl value⟩
      rw [foldAttribute, TreeMap.getElem?_insert, if_neg (by simpa using hkey)]
      exact hvalue
  · rw [foldAttribute, TreeMap.getElem?_insert_self]
    refine ⟨_, rfl, ?_⟩
    split
    · exact (foldValue_holds _ item.2).2
    · exact holdsWhole_refl item.2

theorem foldl_foldAttribute_holds (items : List (String × String))
    (attributes : TreeMap String String) :
    HoldsAll (items.foldl foldAttribute attributes) attributes ∧
      ∀ item ∈ items, ∃ text : String, (items.foldl foldAttribute attributes)[item.1]? = some text ∧
        holdsWhole text item.2 = true := by
  induction items generalizing attributes with
  | nil => exact ⟨fun _ value h ↦ ⟨value, h, holdsWhole_refl value⟩, by simp⟩
  | cons item items ih =>
    obtain ⟨hkept, hitem⟩ := foldAttribute_holds attributes item
    obtain ⟨hrest, hitems⟩ := ih (foldAttribute attributes item)
    have hthrough : ∀ {key text value : String}, (foldAttribute attributes item)[key]? = some text →
        holdsWhole text value = true → ∃ held : String,
          ((item :: items).foldl foldAttribute attributes)[key]? = some held ∧
            holdsWhole held value = true := by
      intro key text value htext hholds
      obtain ⟨held, hheld, hheldHolds⟩ := hrest key text htext
      exact ⟨held, hheld, holdsWhole_trans hheldHolds hholds⟩
    refine ⟨fun key value hvalue ↦ ?_, fun other hother ↦ ?_⟩
    · obtain ⟨text, htext, hholds⟩ := hkept key value hvalue
      exact hthrough htext hholds
    · rcases List.mem_cons.1 hother with rfl | hother
      · obtain ⟨text, htext, hholds⟩ := hitem
        exact hthrough htext hholds
      · exact hitems other hother

/-- Observations are only added, and those brought in are there. -/
theorem keepObservations_spec (existing : Evidence) (incoming : EvidenceProvenance)
    (earlier : List EvidenceProvenance) :
    ∃ merged, keepObservations existing incoming earlier =
        { existing with mergedProvenance := merged } ∧
      ∀ p, p ∈ existing.observations ∨ p ∈ incoming :: earlier →
        p ∈ existing.provenance :: merged := by
  rw [keepObservations]
  induction incoming :: earlier generalizing existing with
  | nil => exact ⟨existing.mergedProvenance, rfl, fun p hp ↦ hp.resolve_right List.not_mem_nil⟩
  | cons observation rest ih =>
    rw [List.foldl_cons]
    split
    · obtain ⟨merged, hmerged, hall⟩ := ih { existing with
        mergedProvenance := existing.mergedProvenance ++ [observation] }
      refine ⟨merged, hmerged, fun p hp ↦ hall p ?_⟩
      rcases hp with hp | hp
      · rcases List.mem_cons.1 hp with rfl | hp
        · exact .inl (.head _)
        · exact .inl (.tail _ (List.mem_append_left _ hp))
      · rcases List.mem_cons.1 hp with rfl | hp
        · exact .inl (.tail _ (List.mem_append_right _ (.head _)))
        · exact .inr hp
    · rename_i hheld
      obtain ⟨merged, hmerged, hall⟩ := ih existing
      refine ⟨merged, hmerged, fun p hp ↦ hall p ?_⟩
      rcases hp with hp | hp
      · exact .inl hp
      · rcases List.mem_cons.1 hp with rfl | hp
        · rw [not_and_or, not_not, not_not] at hheld
          rcases hheld with rfl | hheld
          · exact .inl (.head _)
          · exact .inl (.tail _ hheld)
        · exact .inr hp

/-- **Nothing of two records is lost when one is folded into the other.** -/
theorem mergeEvidence_covers {existing incoming : Evidence}
    (hsource : existing.provenance.source = incoming.provenance.source)
    (hsummary : existing.summary = incoming.summary) :
    (mergeEvidence existing incoming).Covers existing ∧
      (mergeEvidence existing incoming).Covers incoming := by
  obtain ⟨merged, hmerged, hall⟩ := keepObservations_spec
    { existing with
      attributes := incoming.attributes.toList.foldl foldAttribute existing.attributes
      verification := existing.verification.or incoming.verification
      isInferred := existing.isInferred || incoming.isInferred
      ancestryNode := existing.ancestryNode.or incoming.ancestryNode }
    incoming.provenance incoming.mergedProvenance
  obtain ⟨hexisting, hincoming⟩ :=
    foldl_foldAttribute_holds incoming.attributes.toList existing.attributes
  have heq : mergeEvidence existing incoming = _ := hmerged
  rw [heq]
  refine ⟨⟨rfl, rfl, fun p hp ↦ hall p (.inl hp), hexisting⟩,
    ⟨hsource, hsummary, fun p hp ↦ hall p (.inr hp), fun key value hvalue ↦ ?_⟩⟩
  exact hincoming (key, value) (TreeMap.mem_toList_iff_getElem?_eq_some.2 hvalue)

/-! ## A list of records -/

variable {parsesAsJson : String → Bool}

theorem absorbEvidence_eq (records : List Evidence) (evidence : Evidence) :
    absorbEvidence parsesAsJson records evidence =
      add (sameEvidenceIdentity parsesAsJson) mergeEvidence records evidence := by
  induction records with
  | nil => rfl
  | cons current rest ih => rw [absorbEvidence, add, ih]

/-- Records are the same observation only when they are of one source and say the same. -/
theorem sameEvidenceIdentity_same {left right : Evidence}
    (h : sameEvidenceIdentity parsesAsJson left right = true) :
    left.provenance.source = right.provenance.source ∧ left.summary = right.summary := by
  rw [sameEvidenceIdentity, Bool.and_eq_true, Bool.and_eq_true, beq_iff_eq, beq_iff_eq] at h
  exact h.1

theorem absorbEvidence_covers (records incoming : List Evidence) :
    CoversAll Evidence.Covers (incoming.foldl (absorbEvidence parsesAsJson) records)
      (records ++ incoming) := by
  have hadd : absorbEvidence parsesAsJson = add (sameEvidenceIdentity parsesAsJson) mergeEvidence :=
    funext fun rs ↦ funext fun e ↦ absorbEvidence_eq rs e
  rw [hadd]
  refine foldl_add_covers Evidence.Covers.refl (fun _ _ _ ↦ Evidence.Covers.trans)
    (fun existing other hsame ↦ ?_) incoming records
  obtain ⟨hsource, hsummary⟩ := sameEvidenceIdentity_same hsame
  exact mergeEvidence_covers hsource hsummary

end Huntsman
