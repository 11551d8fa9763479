import Huntsman.Crawl.Defs

/-!
# What reducing a wave does

Everything `CrawlState.reduceBatch` does to the crawl is done one candidate at a time by
`CrawlState.queueCandidate`.  `Reduced` says what that can be: which fields are left alone, where a
queued or turned-away target comes from, and that no offered candidate is forgotten.  It holds of
one candidate and composes, so it holds of an entity's expansions, of a step and of a whole wave
(`reduceBatch_reduced`).

`entities_normalizeBatch` is the other half: normalizing the collector's answer never changes which
entities the lookups of the wave returned.
-/

set_option autoImplicit false

namespace Huntsman

open List

/-- What a reduction that was offered the candidates `offered` and dispatched `n` lookups may do to
the crawl and to the queue for the next generation. -/
structure Reduced (offered : List Target) (n : ℕ) (s s' : CrawlState × Frontier) : Prop where
  /-- Nothing is dispatched by a reduction. -/
  visited : s'.1.visited = s.1.visited
  /-- Each lookup is counted once. -/
  dispatches : s'.1.dispatches = s.1.dispatches + n
  /-- A generation ends elsewhere. -/
  generations : s'.1.generations = s.1.generations
  /-- A stop is recorded elsewhere. -/
  cancelled : s'.1.cancelled = s.1.cancelled
  /-- A limit that was raised stays raised. -/
  limit : s.1.resourceLimited = true → s'.1.resourceLimited = true
  /-- What was queued stays queued. -/
  seen : s.2.seen ⊆ s'.2.seen
  /-- What was turned away stays on record. -/
  turnedAway : s.1.turnedAway ⊆ s'.1.turnedAway
  /-- A target is queued because it was offered and not dispatched before. -/
  queue : ∀ t ∈ s'.2.queue, t ∈ s.2.queue ∨ t ∈ offered ∧ t.ownedKey ∉ s.1.visited
  /-- A candidate is turned away because it was offered and not dispatched before. -/
  refused : ∀ t ∈ s'.1.turnedAway, t ∈ s.1.turnedAway ∨ t ∈ offered ∧ t.ownedKey ∉ s.1.visited
  /-- No offered candidate is forgotten. -/
  covered : ∀ t ∈ offered, t.ownedKey ∈ s.1.visited ∨ t.ownedKey ∈ s'.2.seen ∨ t ∈ s'.1.turnedAway
  /-- The limit is raised only for a candidate turned away. -/
  limited : s'.1.resourceLimited = true → s.1.resourceLimited = true ∨ s'.1.turnedAway ≠ []

namespace Reduced

theorem refl (s : CrawlState × Frontier) : Reduced [] 0 s s where
  visited := rfl
  dispatches := rfl
  generations := rfl
  cancelled := rfl
  limit := id
  seen := Finset.Subset.refl _
  turnedAway := List.Subset.refl _
  queue _ := .inl
  refused _ := .inl
  covered := by simp
  limited := .inl

theorem trans {a b : List Target} {n m : ℕ} {s s' s'' : CrawlState × Frontier}
    (h : Reduced a n s s') (h' : Reduced b m s' s'') : Reduced (a ++ b) (n + m) s s'' where
  visited := h'.visited.trans h.visited
  dispatches := by rw [h'.dispatches, h.dispatches, Nat.add_assoc]
  generations := h'.generations.trans h.generations
  cancelled := h'.cancelled.trans h.cancelled
  limit hl := h'.limit (h.limit hl)
  seen := h.seen.trans h'.seen
  turnedAway := List.Subset.trans h.turnedAway h'.turnedAway
  queue t ht := by
    rcases h'.queue t ht with ht | ⟨hb, hv⟩
    · rcases h.queue t ht with ht | ⟨ha, hv⟩
      · exact .inl ht
      · exact .inr ⟨mem_append_left _ ha, hv⟩
    · exact .inr ⟨mem_append_right _ hb, h.visited ▸ hv⟩
  refused t ht := by
    rcases h'.refused t ht with ht | ⟨hb, hv⟩
    · rcases h.refused t ht with ht | ⟨ha, hv⟩
      · exact .inl ht
      · exact .inr ⟨mem_append_left _ ha, hv⟩
    · exact .inr ⟨mem_append_right _ hb, h.visited ▸ hv⟩
  covered t ht := by
    rcases mem_append.1 ht with ha | hb
    · rcases h.covered t ha with hv | hs | hr
      · exact .inl hv
      · exact .inr (.inl (h'.seen hs))
      · exact .inr (.inr (h'.turnedAway hr))
    · exact h.visited ▸ h'.covered t hb
  limited hl := by
    rcases h'.limited hl with hl | hne
    · rcases h.limited hl with hl | hne
      · exact .inl hl
      · refine .inr fun hnil ↦ hne ?_
        exact eq_nil_of_subset_nil (hnil ▸ h'.turnedAway)
    · exact .inr hne

/-- A change of the fields that a reduction is free to change is a reduction. -/
theorem of_state (self self' : CrawlState) (next : Frontier) (n : ℕ)
    (visited : self'.visited = self.visited) (dispatches : self'.dispatches = self.dispatches + n)
    (generations : self'.generations = self.generations)
    (cancelled : self'.cancelled = self.cancelled)
    (turnedAway : self'.turnedAway = self.turnedAway)
    (limited : self'.resourceLimited = self.resourceLimited) :
    Reduced [] n (self, next) (self', next) where
  visited := visited
  dispatches := dispatches
  generations := generations
  cancelled := cancelled
  limit hl := limited.trans hl
  seen := Finset.Subset.refl _
  turnedAway := turnedAway ▸ List.Subset.refl _
  queue _ := .inl
  refused _ ht := .inl (turnedAway ▸ ht)
  covered := by simp
  limited hl := .inl (limited ▸ hl)

end Reduced

namespace CrawlState

variable (R : Selectors) (policy : RecursionPolicy)

theorem queueCandidate_reduced (heldAt : F64) (s : CrawlState × Frontier) (candidate : Target) :
    Reduced [candidate] 0 s (queueCandidate policy heldAt s candidate) := by
  obtain ⟨self, next⟩ := s
  simp only [queueCandidate]
  split
  · rename_i hv
    refine { Reduced.refl (self, next) with
      queue := fun _ ↦ .inl, refused := fun _ ↦ .inl, covered := ?_ }
    simpa using .inl hv
  rename_i hv
  split
  · rename_i hseen
    rw [Frontier.containsKey_iff] at hseen
    refine { Reduced.of_state self (self.followAt _ _) next 0 rfl rfl rfl rfl rfl rfl with
      queue := fun _ ↦ .inl, refused := fun _ ↦ .inl, covered := ?_ }
    simpa using .inr (.inl hseen)
  split
  · refine ⟨rfl, rfl, rfl, rfl, fun _ ↦ rfl, Finset.Subset.refl _, subset_append_left ..,
      fun _ ↦ .inl, ?_, by simp, by simp⟩
    intro t ht
    rcases mem_append.1 ht with ht | ht
    · exact .inl ht
    · rw [mem_singleton] at ht
      exact .inr ⟨by simp [ht], ht ▸ hv⟩
  · refine ⟨rfl, rfl, rfl, rfl, id, ?_, List.Subset.refl _, ?_, fun _ ↦ .inl, by simp, .inl⟩
    · intro key hkey
      exact Frontier.mem_seen_push.2 (.inr hkey)
    · intro t ht
      rcases Frontier.mem_queue_push ht with rfl | ht
      · exact .inr ⟨by simp, hv⟩
      · exact .inl ht

theorem foldl_queueCandidate_reduced (heldAt : F64) (candidates : List Target)
    (s : CrawlState × Frontier) :
    Reduced candidates 0 s (candidates.foldl (queueCandidate policy heldAt) s) := by
  induction candidates generalizing s with
  | nil => exact Reduced.refl s
  | cons c cs ih =>
    exact (queueCandidate_reduced policy heldAt s c).trans (ih _)

theorem takeEntity_reduced (generation : UInt32) (target : Target) (followedAt : Option F64)
    (s : CrawlState × Frontier) (entity : Entity) :
    Reduced (expansions R entity policy) 0 s
      (takeEntity R policy generation target followedAt s entity) := by
  obtain ⟨self, next⟩ := s
  -- the generation an entity is found in does not change what it expands into
  have hexp : expansions R { entity with generation } policy = expansions R entity policy := rfl
  simp only [takeEntity, queueExpansions, hexp]
  have hedge := fun edges ↦ Reduced.of_state self { self with edges } next 0 rfl rfl rfl rfl rfl rfl
  have hqueue := fun heldAt edges ↦ (hedge edges).trans (foldl_queueCandidate_reduced policy heldAt
    (expansions R entity policy) ({ self with edges }, next))
  have hkeep : ∀ (r : CrawlState × Frontier) (entities : List Entity),
      Reduced [] 0 r ({ r.1 with entities }, r.2) := fun r entities ↦
    Reduced.of_state r.1 _ r.2 0 rfl rfl rfl rfl rfl rfl
  cases followedAt with
  | none => simpa using (hqueue _ _).trans (hkeep _ _)
  | some held =>
    by_cases hkept : (forgetPivotEcho { entity with generation } held).2 = true
    · simp only [hkept, if_true]
      simpa using (hqueue _ _).trans (hkeep _ _)
    · simp only [hkept, Bool.false_eq_true, if_false]
      exact hqueue _ _

theorem foldl_takeEntity_reduced (generation : UInt32) (target : Target)
    (followedAt : Option F64) (entities : List Entity) (s : CrawlState × Frontier) :
    Reduced (entities.flatMap fun e ↦ expansions R e policy) 0 s
      (entities.foldl (takeEntity R policy generation target followedAt) s) := by
  induction entities generalizing s with
  | nil => exact Reduced.refl s
  | cons e es ih =>
    exact (takeEntity_reduced R policy generation target followedAt s e).trans (ih _)

theorem takeStep_reduced (generation : UInt32) (target : Target) (step : Step)
    (s : CrawlState × Frontier) :
    Reduced (step.entities.flatMap fun e ↦ expansions R e policy) 1 s
      (takeStep R policy generation target step s) := by
  obtain ⟨self, next⟩ := s
  have hcount := Reduced.of_state self
    { self with dispatches := self.dispatches + 1
                outcomes := self.outcomes ++ step.outcomes } next 1 rfl rfl rfl rfl rfl rfl
  exact hcount.trans (foldl_takeEntity_reduced R policy generation target _ step.entities _)

/-- **What a wave does to the crawl.**  Every target of the batch is counted, and the candidates
offered are the expansions of the entities the steps hold. -/
theorem reduceBatch_reduced (generation : UInt32) (batch : List Target) (steps : List Step)
    (s : CrawlState × Frontier) :
    Reduced ((batch.zip steps).flatMap fun p ↦ p.2.entities.flatMap fun e ↦ expansions R e policy)
      batch.length s (reduceBatch R policy generation batch steps s) := by
  induction batch generalizing steps s with
  | nil => exact Reduced.refl s
  | cons target batch ih =>
    cases steps with
    | nil =>
      have h := (takeStep_reduced R policy generation target (missingBatchStep target 0) s).trans
        (ih [] _)
      simpa [missingBatchStep, reduceBatch, Nat.add_comm] using h
    | cons step steps =>
      have h := (takeStep_reduced R policy generation target step s).trans (ih steps _)
      simpa [reduceBatch, Nat.add_comm] using h

end CrawlState

/-! ## Normalizing keeps the entities -/

theorem map_entities_pushOutcomeLast (steps : List Step) (outcome : SourceExecutionOutcome) :
    (pushOutcomeLast steps outcome).map LookupReport.entities
      = steps.map LookupReport.entities := by
  induction steps with
  | nil => rfl
  | cons step rest ih =>
    cases rest with
    | nil => rfl
    | cons step' rest => simpa [pushOutcomeLast] using ih

/-- Zipping with the steps only looks at the entities they hold. -/
theorem flatMap_zip_entities (batch : List Target) (steps : List Step) :
    (batch.zip steps).flatMap (fun p ↦ p.2.entities)
      = (batch.zip (steps.map LookupReport.entities)).flatMap Prod.snd := by
  induction batch generalizing steps with
  | nil => rfl
  | cons target batch ih =>
    cases steps with
    | nil => rfl
    | cons step steps => simp [ih]

theorem flatMap_zip_missing (batch : List Target) (f : Target → Step)
    (h : ∀ t, (f t).entities = []) (steps : List Step) :
    (batch.zip (steps.take batch.length ++
        (batch.drop (steps.take batch.length).length).map f)).flatMap (fun p ↦ p.2.entities)
      = (batch.zip steps).flatMap fun p ↦ p.2.entities := by
  induction batch generalizing steps with
  | nil => rfl
  | cons target batch ih =>
    cases steps with
    | nil =>
      have hall : ∀ l m : List Target, (l.zip (m.map f)).flatMap (fun p ↦ p.2.entities) = [] := by
        intro l m
        refine flatMap_eq_nil_iff.2 fun p hp ↦ ?_
        obtain ⟨t, -, ht⟩ := mem_map.1 (of_mem_zip hp).2
        rw [← ht]
        exact h t
      simpa using hall (target :: batch) (target :: batch)
    | cons step steps => simpa using ih steps

/-- **Normalizing a wave's answer keeps the entities its lookups returned**, however many steps the
collector gave. -/
theorem entities_normalizeBatch {σ : Type} (collector : SelectorCollector σ) (batch : List Target)
    (steps : List Step) (s : σ) :
    (batch.zip (normalizeBatch collector batch steps s).1).flatMap (fun p ↦ p.2.entities)
      = (batch.zip steps).flatMap fun p ↦ p.2.entities := by
  simp only [normalizeBatch]
  split
  · rfl
  split
  · rw [flatMap_zip_entities, map_entities_pushOutcomeLast, ← flatMap_zip_entities]
    exact flatMap_zip_missing batch _ (fun _ ↦ rfl) steps
  · exact flatMap_zip_missing batch _ (fun _ ↦ rfl) steps

end Huntsman
