import Huntsman.Merge.Records

/-!
# One entity per uid

`mergeByUid` folds the entities of each uid into the first of them.  `Entity.Merges` says what that
makes of them, and `mergeByUid_merged` that it holds for every list of entities.
-/

set_option autoImplicit false

namespace Huntsman

open Groups List Std

/-! ## Extremes -/

/-- `top` is one of `values`, and none of them that is a number is above it. -/
def F64.IsGreatest (top : F64) (values : List F64) : Prop :=
  top ∈ values ∧ ∀ x ∈ values, x ≠ .nan → top.ge x = true

theorem F64.max_eq_or (a b : F64) : a.max b = a ∨ a.max b = b := by
  rcases a with _ | a
  · exact .inr rfl
  · rcases b with _ | b
    · exact .inl rfl
    · rcases le_total a b with hle | hle
      · exact .inr (congrArg F64.number (sup_eq_right.2 hle))
      · exact .inl (congrArg F64.number (sup_eq_left.2 hle))

/-- A maximum is not below what was not below either argument. -/
theorem F64.max_ge {a b x : F64} (hx : x ≠ .nan) (h : a.ge x = true ∨ b = x) :
    (a.max b).ge x = true := by
  rcases x with _ | x
  · exact absurd rfl hx
  · rcases a with _ | a
    · rcases h with h | rfl
      · cases h
      · exact decide_eq_true le_rfl
    · rcases b with _ | b
      · exact h.resolve_right (fun heq ↦ nomatch heq)
      · refine decide_eq_true ?_
        rcases h with h | h
        · exact (of_decide_eq_true h).trans le_sup_left
        · rw [F64.number.injEq] at h
          exact h ▸ le_sup_right

theorem F64.IsGreatest.concat {top x : F64} {values : List F64} (h : top.IsGreatest values) :
    (top.max x).IsGreatest (values ++ [x]) := by
  constructor
  · rw [mem_append, mem_singleton]
    rcases F64.max_eq_or top x with heq | heq
    · exact .inl (by rw [heq]; exact h.1)
    · exact .inr heq
  · intro y hy hnumber
    rcases mem_append.1 hy with hy | hy
    · exact F64.max_ge hnumber (.inl (h.2 y hy hnumber))
    · exact F64.max_ge hnumber (.inr (mem_singleton.1 hy).symm)

section Least

variable {α : Type*} [LE α] [Std.IsLinearOrder α]

theorem isLeast_one (x : α) : IsLeast {y | y ∈ [x]} x :=
  ⟨mem_singleton.2 rfl, fun y hy ↦ by
    rw [mem_singleton.1 hy]
    exact Std.le_refl x⟩

theorem isLeast_concat [Min α] [Std.LawfulOrderMin α] {bottom x : α} {values : List α} (h : IsLeast {y | y ∈ values} bottom) :
    IsLeast {y | y ∈ values ++ [x]} (min bottom x) := by
  constructor
  · rw [Set.mem_ofPred, mem_append, mem_singleton]
    rcases Std.min_eq_or (a := bottom) (b := x) with heq | heq
    · exact .inl (by rw [heq]; exact h.1)
    · exact .inr heq
  · intro y hy
    rcases mem_append.1 hy with hy | hy
    · exact Std.le_trans Std.min_le_left (h.2 hy)
    · rw [mem_singleton.1 hy]
      exact Std.min_le_right

end Least

/-! ## One entity -/

/-- `merged` is what became of `inputs`, records of one uid. -/
structure Entity.Merges (merged : Entity) (inputs : List Entity) : Prop where
  confidence : merged.confidence.IsGreatest (inputs.map Entity.confidence)
  generation : IsLeast {g | g ∈ inputs.map Entity.generation} merged.generation
  observedAtUnix : IsLeast {t | t ∈ inputs.map Entity.observedAtUnix} merged.observedAtUnix
  corroboration : (∀ e ∈ inputs, e.corroboration < 2 ^ 32) →
    merged.corroboration = min (inputs.map Entity.corroboration).sum (2 ^ 32 - 1)
  tags : ∀ tag, tag ∈ merged.tags ↔ ∃ e ∈ inputs, tag ∈ e.tags
  observations : ∀ e ∈ inputs, ∀ record ∈ e.evidence,
    ∀ p ∈ record.provenance :: record.mergedProvenance,
      ∃ kept ∈ merged.evidence, p = kept.provenance ∨ p ∈ kept.mergedProvenance
  values : ∀ e ∈ inputs, ∀ record ∈ e.evidence, ∀ key value : String,
    record.attributes[key]? = some value →
      ∃ kept ∈ merged.evidence, kept.provenance.source = record.provenance.source ∧
        kept.summary = record.summary ∧
        ∃ held : String, kept.attributes[key]? = some held ∧ holdsWhole held value = true

theorem Entity.foldl_tag (entity : Entity) (tags : List String) :
    ∃ all, tags.foldl Entity.tag entity = { entity with tags := all } ∧
      ∀ tag, tag ∈ all ↔ tag ∈ entity.tags ∨ tag ∈ tags := by
  induction tags generalizing entity with
  | nil => exact ⟨entity.tags, rfl, by simp⟩
  | cons tag tags ih =>
    rw [foldl_cons]
    obtain ⟨all, hall, hmem⟩ := ih (entity.tag tag)
    have hone : ∃ some, entity.tag tag = { entity with tags := some } ∧
        ∀ other, other ∈ some ↔ other ∈ entity.tags ∨ other = tag := by
      unfold Entity.tag
      split
      · rename_i hhas
        rw [Entity.hasTag, any_beq'] at hhas
        have hin : tag ∈ entity.tags := by simpa using hhas
        exact ⟨entity.tags, rfl, fun other ↦ ⟨.inl, fun h ↦ h.elim id (· ▸ hin)⟩⟩
      · exact ⟨entity.tags ++ [tag], rfl, by simp⟩
    obtain ⟨some, hsome, hsomeMem⟩ := hone
    refine ⟨all, by rw [hall, hsome], fun other ↦ ?_⟩
    rw [hmem, hsome, hsomeMem, mem_cons, or_assoc]

variable {parsesAsJson : String → Bool} {self other : Entity}

variable (parsesAsJson) in
/-- What absorbing a record of the same uid changes. -/
theorem Entity.absorb_eq (huid : self.uid = other.uid) :
    ∃ tags spellings, self.absorb parsesAsJson other =
        { self with
          confidence := self.confidence.max other.confidence
          corroboration := min (self.corroboration + other.corroboration) (2 ^ 32 - 1)
          observedAtUnix := min self.observedAtUnix other.observedAtUnix
          generation := min self.generation other.generation
          evidence := other.evidence.foldl (absorbEvidence parsesAsJson) self.evidence
          tags
          spellings } ∧
      ∀ tag, tag ∈ tags ↔ tag ∈ self.tags ∨ tag ∈ other.tags := by
  obtain ⟨tags, htags, hmem⟩ := Entity.foldl_tag
    { self with
      confidence := self.confidence.max other.confidence
      corroboration := min (self.corroboration + other.corroboration) (2 ^ 32 - 1)
      observedAtUnix := min self.observedAtUnix other.observedAtUnix
      generation := min self.generation other.generation } other.tags
  rw [Entity.absorb, if_neg (not_not.2 huid)]
  simp only [htags]
  split
  · split
    · exact ⟨tags, _, rfl, hmem⟩
    · exact ⟨tags, _, rfl, hmem⟩
  · exact ⟨tags, _, rfl, hmem⟩

theorem Entity.absorb_uid (parsesAsJson : String → Bool) (self other : Entity) :
    (self.absorb parsesAsJson other).uid = self.uid := by
  by_cases huid : self.uid = other.uid
  · obtain ⟨tags, spellings, heq, -⟩ := Entity.absorb_eq parsesAsJson huid
    rw [heq]
  · rw [Entity.absorb, if_pos huid]

/-- Whatever covers the records of two entities covers what either was made of. -/
theorem Entity.Merges.held {inputs : List Entity} {records : List Evidence}
    (h : self.Merges inputs)
    (hcovers : CoversAll Evidence.Covers records (self.evidence ++ other.evidence)) :
    ∀ e ∈ inputs ++ [other], ∀ record ∈ e.evidence,
      (∀ p ∈ record.observations, ∃ kept ∈ records, p ∈ kept.observations) ∧
        ∀ key value : String, record.attributes[key]? = some value →
          ∃ kept ∈ records, kept.provenance.source = record.provenance.source ∧
            kept.summary = record.summary ∧
            ∃ held : String, kept.attributes[key]? = some held ∧ holdsWhole held value = true := by
  intro e he record hrecord
  rcases mem_append.1 he with he | he
  · constructor
    · intro p hp
      obtain ⟨mine, hmine, hheld⟩ := h.observations e he record hrecord p hp
      obtain ⟨kept, hkept, hc⟩ := hcovers mine (mem_append_left _ hmine)
      exact ⟨kept, hkept, hc.observations p (mem_cons.2 hheld)⟩
    · intro key value hvalue
      obtain ⟨mine, hmine, hsource, hsummary, middle, hmiddle, hholds⟩ :=
        h.values e he record hrecord key value hvalue
      obtain ⟨kept, hkept, hc⟩ := hcovers mine (mem_append_left _ hmine)
      obtain ⟨held, hheld, hheldHolds⟩ := hc.values key middle hmiddle
      exact ⟨kept, hkept, hc.source.trans hsource, hc.summary.trans hsummary, held, hheld,
        holdsWhole_trans hheldHolds hholds⟩
  · obtain rfl := mem_singleton.1 he
    obtain ⟨kept, hkept, hc⟩ := hcovers record (mem_append_right _ hrecord)
    refine ⟨fun p hp ↦ ⟨kept, hkept, hc.observations p hp⟩, fun key value hvalue ↦ ?_⟩
    exact ⟨kept, hkept, hc.source, hc.summary, hc.values key value hvalue⟩

theorem Entity.Merges.one (entity : Entity) : entity.Merges [entity] where
  confidence := by
    refine ⟨mem_singleton.2 rfl, fun x hx hnumber ↦ ?_⟩
    rw [map_singleton, mem_singleton] at hx
    subst hx
    rcases hvalue : entity.confidence with _ | value
    · exact absurd hvalue hnumber
    · exact decide_eq_true le_rfl
  generation := isLeast_one entity.generation
  observedAtUnix := isLeast_one entity.observedAtUnix
  corroboration := fun h ↦ by
    have hlt := h entity (.head _)
    rw [map_singleton, sum_singleton]
    omega
  tags := by simp
  observations := fun e he record hrecord p hp ↦ by
    obtain rfl := mem_singleton.1 he
    exact ⟨record, hrecord, mem_cons.1 hp⟩
  values := fun e he record hrecord key value hvalue ↦ by
    obtain rfl := mem_singleton.1 he
    exact ⟨record, hrecord, rfl, rfl, value, hvalue, holdsWhole_refl value⟩

/-- **Absorbing one more record loses nothing of it, nor of those before.** -/
theorem Entity.Merges.absorb {inputs : List Entity} (h : self.Merges inputs)
    (huid : self.uid = other.uid) :
    (self.absorb parsesAsJson other).Merges (inputs ++ [other]) := by
  obtain ⟨tags, spellings, heq, htags⟩ := Entity.absorb_eq parsesAsJson huid
  have hcovers : CoversAll Evidence.Covers (self.absorb parsesAsJson other).evidence
      (self.evidence ++ other.evidence) := by
    rw [heq]
    exact absorbEvidence_covers self.evidence other.evidence
  rw [heq] at hcovers ⊢
  constructor
  · rw [map_append]
    exact h.confidence.concat
  · rw [map_append]
    exact isLeast_concat h.generation
  · rw [map_append]
    exact isLeast_concat h.observedAtUnix
  · intro hall
    have hself := h.corroboration fun e he ↦ hall e (mem_append_left _ he)
    rw [map_append, sum_append, map_singleton, sum_singleton]
    show min (self.corroboration + other.corroboration) (2 ^ 32 - 1) = _
    omega
  · intro tag
    rw [htags, h.tags]
    simp [or_and_right, exists_or]
  · intro e he record hrecord p hp
    obtain ⟨kept, hkept, hheld⟩ := (h.held hcovers e he record hrecord).1 p hp
    exact ⟨kept, hkept, mem_cons.1 hheld⟩
  · intro e he record hrecord
    exact (h.held hcovers e he record hrecord).2

/-! ## A list of entities -/

theorem absorbByUid_eq (merged : List Entity) (entity : Entity) :
    absorbByUid parsesAsJson merged entity =
      addByKey Entity.uid (Entity.absorb parsesAsJson) merged entity := by
  induction merged with
  | nil => rfl
  | cons first rest ih =>
    rw [absorbByUid, ih, addByKey, add]
    simp only [decide_eq_true_eq]

/-- Merging what is merged changes nothing. -/
theorem mergeByUid_mergeByUid (parsesAsJson : String → Bool) (entities : List Entity) :
    mergeByUid parsesAsJson (mergeByUid parsesAsJson entities) = mergeByUid parsesAsJson entities := by
  have hadd : absorbByUid parsesAsJson = addByKey Entity.uid (Entity.absorb parsesAsJson) :=
    funext fun merged ↦ funext fun entity ↦ absorbByUid_eq merged entity
  rw [mergeByUid, mergeByUid, hadd]
  exact foldl_add_foldl_add (fun first entity _ ↦ Entity.absorb_uid parsesAsJson first entity) entities

/-- **Merging loses nothing.**  The result has one entity for each uid, in the order in which the
uids came, and each is made of all entities with its uid. -/
theorem mergeByUid_merged (parsesAsJson : String → Bool) (entities : List Entity) :
    (mergeByUid parsesAsJson entities).map Entity.uid =
        (entities.map Entity.uid).eraseDups ∧
      ∀ merged ∈ mergeByUid parsesAsJson entities,
        merged.Merges (entities.filter fun e ↦ e.uid = merged.uid) := by
  have hadd : absorbByUid parsesAsJson = addByKey Entity.uid (Entity.absorb parsesAsJson) :=
    funext fun merged ↦ funext fun entity ↦ absorbByUid_eq merged entity
  have hkey : ∀ first entity : Entity, first.uid = entity.uid →
      (first.absorb parsesAsJson entity).uid = first.uid :=
    fun first entity _ ↦ Entity.absorb_uid parsesAsJson first entity
  rw [mergeByUid, hadd]
  exact ⟨foldl_add_keys hkey entities,
    foldl_add_grouped hkey Entity.Merges.one (fun _ _ _ huid h ↦ h.absorb huid) entities⟩

end Huntsman
