import Huntsman.Crawl.Invariant

/-!
# No target is lost in a generation

A generation can be left at three places: before a wave is begun, while it is being filled and after
it was dispatched.  Wherever it is left, the targets that remain are queued for the next generation,
and the candidates that the lookups led to are queued too, unless they were dispatched or the crawl
says that a resource limit held something back.

`Kept` is what every move keeps (`Kept.move`).
-/

set_option autoImplicit false

namespace Huntsman

open List

/-- Each candidate offered was dispatched before, is queued, or a limit is on record. -/
def Covered (offered : List Target) (s s' : CrawlState × Frontier) : Prop :=
  ∀ t ∈ offered, t.ownedKey ∈ s.1.visited ∨ t.ownedKey ∈ s'.2.seen ∨ s'.1.resourceLimited = true

theorem Covered.trans {a b : List Target} {n m : ℕ} {s s' s'' : CrawlState × Frontier}
    (h : Covered a s s') (hred : Reduced a n s s') (hred' : Reduced b m s' s'')
    (h' : Covered b s' s'') : Covered (a ++ b) s s'' := by
  intro t ht
  rcases mem_append.1 ht with ht | ht
  · exact (h t ht).imp_right (Or.imp (fun hs ↦ hred'.seen hs) hred'.limit)
  · exact hred.visited ▸ h' t ht

/-- What else changes does not matter. -/
theorem Covered.of_eq {offered : List Target} {s₁ s s' s₂ : CrawlState × Frontier}
    (h : Covered offered s s') (hnext : s₂.2 = s'.2)
    (hlimit : s₂.1.resourceLimited = s'.1.resourceLimited)
    (hvisited : s₁.1.visited = s.1.visited) : Covered offered s₁ s₂ := by
  intro t ht
  rw [hvisited, hnext, hlimit]
  exact h t ht

namespace CrawlState

variable (R : Selectors) (policy : RecursionPolicy)

theorem queueCandidate_covered (heldAt : F64) (s : CrawlState × Frontier) (candidate : Target) :
    Covered [candidate] s (queueCandidate policy heldAt s candidate) := by
  intro t ht
  rw [mem_singleton] at ht
  subst ht
  simp only [queueCandidate]
  split
  · rename_i hvisited
    exact .inl hvisited
  split
  · rename_i hseen
    exact .inr (.inl (Frontier.containsKey_iff.1 hseen))
  split
  · exact .inr (.inr rfl)
  · exact .inr (.inl (Frontier.mem_seen_push.2 (.inl rfl)))

theorem foldl_queueCandidate_covered (heldAt : F64) (candidates : List Target)
    (s : CrawlState × Frontier) :
    Covered candidates s (candidates.foldl (queueCandidate policy heldAt) s) := by
  induction candidates generalizing s with
  | nil => exact nofun
  | cons c cs ih =>
    exact (queueCandidate_covered policy heldAt s c).trans
      (queueCandidate_reduced policy heldAt s c) (foldl_queueCandidate_reduced policy heldAt cs _)
      (ih _)

theorem takeEntity_covered (generation : UInt32) (target : Target) (followedAt : Option F64)
    (s : CrawlState × Frontier) (entity : Entity) :
    Covered (expansions R entity policy) s
      (takeEntity R policy generation target followedAt s entity) := by
  have hexp : expansions R { entity with generation } policy = expansions R entity policy := rfl
  have hqueue := fun heldAt edges ↦ foldl_queueCandidate_covered policy heldAt
    (expansions R entity policy) ({ s.1 with edges }, s.2)
  simp only [takeEntity, queueExpansions, hexp]
  cases followedAt with
  | none => exact (hqueue _ _).of_eq rfl rfl rfl
  | some held =>
    by_cases hkept : (forgetPivotEcho { entity with generation } held).2 = true
    · simp only [hkept, if_true]
      exact (hqueue _ _).of_eq rfl rfl rfl
    · simp only [hkept, Bool.false_eq_true, if_false]
      exact (hqueue _ _).of_eq rfl rfl rfl

theorem foldl_takeEntity_covered (generation : UInt32) (target : Target)
    (followedAt : Option F64) (entities : List Entity) (s : CrawlState × Frontier) :
    Covered (entities.flatMap fun e ↦ expansions R e policy) s
      (entities.foldl (takeEntity R policy generation target followedAt) s) := by
  induction entities generalizing s with
  | nil => exact nofun
  | cons e es ih =>
    exact (takeEntity_covered R policy generation target followedAt s e).trans
      (takeEntity_reduced R policy generation target followedAt s e)
      (foldl_takeEntity_reduced R policy generation target followedAt es _) (ih _)

theorem takeStep_covered (generation : UInt32) (target : Target) (step : Step)
    (s : CrawlState × Frontier) :
    Covered (step.entities.flatMap fun e ↦ expansions R e policy) s
      (takeStep R policy generation target step s) :=
  (foldl_takeEntity_covered R policy generation target _ step.entities _).of_eq rfl rfl rfl

/-- **Every candidate a wave leads to** was dispatched before, is queued, or is held back on
record. -/
theorem reduceBatch_covered (generation : UInt32) (batch : List Target) (steps : List Step)
    (s : CrawlState × Frontier) :
    Covered ((batch.zip steps).flatMap fun p ↦ p.2.entities.flatMap fun e ↦ expansions R e policy) s
      (reduceBatch R policy generation batch steps s) := by
  induction batch generalizing steps s with
  | nil => exact nofun
  | cons target batch ih =>
    cases steps with
    | nil => exact nofun
    | cons step steps =>
      exact (takeStep_covered R policy generation target step s).trans
        (takeStep_reduced R policy generation target step s)
        (reduceBatch_reduced R policy generation batch steps _) (ih steps _)

end CrawlState

section

variable {σ : Type} {R : Selectors} {policy : RecursionPolicy} {collector : SelectorCollector σ}
  {generation : UInt32} {l l' : Locals σ}

theorem fly_covered (l : Locals σ) :
    Covered ((l.wave collector).entities.flatMap fun e ↦ expansions R e policy) (l.state, l.next)
      ((l.fly R policy collector generation).state, (l.fly R policy collector generation).next) := by
  have h := CrawlState.reduceBatch_covered R policy generation l.batch
    (normalizeBatch collector l.batch (collector.collectBatch l.batch l.session.outside).1
      (collector.collectBatch l.batch l.session.outside).2).1 (l.state, l.next)
  rw [← flatMap_assoc, entities_normalizeBatch] at h
  exact h

/-! ## What every move keeps -/

variable (R policy) in
/-- The key was dispatched, is in the wave or is queued, in a generation that `before` began. -/
def Placed (before : CrawlState) (l : Locals σ) (key : Key) : Prop :=
  key ∈ before.visited ∨ key ∈ l.taken ∨ key ∈ l.next.seen

variable (R policy) in
/-- The invariant of a generation that `before` began with `frontier`, after the waves `earlier`. -/
structure Kept (before : CrawlState) (frontier : List Target) (earlier : List Wave)
    (l : Locals σ) : Prop where
  /-- A key that is held back from dispatch is in its place. -/
  visited : ∀ key ∈ l.state.visited, Placed before l key
  /-- A target of the frontier still waits for its turn or is in its place. -/
  frontier : ∀ t ∈ frontier, t ∈ l.remaining ∨ Placed before l t.ownedKey
  /-- Whatever the waves of the generation led to is in its place, or a limit is on record. -/
  led : ∃ waves, l.session.waves = earlier ++ waves ∧ ∀ wave ∈ waves, ∀ e ∈ wave.entities,
    ∀ t ∈ expansions R e policy, Placed before l t.ownedKey ∨ l.state.resourceLimited = true
  /-- A generation that was stopped leaves no target of its own. -/
  stopped : l.stopped = true → l.remaining = []

variable {before : CrawlState} {frontier : List Target} {earlier : List Wave} {key : Key}

theorem taken_fly (l : Locals σ) : (l.fly R policy collector generation).taken = l.taken := by
  rw [Locals.taken, Locals.taken]
  have hkeys : (l.fly R policy collector generation).session.keys
      = l.session.keys ++ l.batch.map Target.ownedKey := Session.keys_append _ _ _
  rw [hkeys]
  exact append_nil _

/-- A place is kept by a move that keeps what was taken and what was queued. -/
theorem Placed.mono (h : Placed before l key) (htaken : l.taken ⊆ l'.taken)
    (hseen : l.next.seen ⊆ l'.next.seen) : Placed before l' key :=
  h.imp_right (Or.imp (fun hk ↦ htaken hk) fun hk ↦ hseen hk)

namespace Kept

theorem skip (h : Kept R policy before frontier earlier l) {first : Target} {rest : List Target}
    (hrem : l.remaining = first :: rest) (old : first.ownedKey ∈ l.state.visited) :
    Kept R policy before frontier earlier (l.skip rest) := by
  refine ⟨h.visited, fun t ht ↦ ?_, h.led, fun hstop ↦ ?_⟩
  · rcases h.frontier t ht with hremains | hplaced
    · rw [hrem, mem_cons] at hremains
      rcases hremains with rfl | hrest
      · exact .inr (h.visited _ old)
      · exact .inl hrest
    · exact .inr hplaced
  · have hnil := h.stopped hstop
    rw [hrem] at hnil
    cases hnil

theorem take (h : Kept R policy before frontier earlier l) {first : Target} {rest : List Target}
    (hrem : l.remaining = first :: rest) :
    Kept R policy before frontier earlier (l.take first rest) := by
  have htaken : (l.take first rest).taken = l.taken ++ [first.ownedKey] := by
    simp [Locals.taken, Locals.take]
  have hsub : l.taken ⊆ (l.take first rest).taken := htaken ▸ subset_append_left _ _
  have hfirst : Placed before (l.take first rest) first.ownedKey :=
    .inr (.inl (htaken ▸ mem_append_right _ (.head _)))
  refine ⟨fun key hkey ↦ ?_, fun t ht ↦ ?_, ?_, fun hstop ↦ ?_⟩
  · rcases Finset.mem_insert.1 hkey with rfl | hkey
    · exact hfirst
    · exact (h.visited key hkey).mono hsub (Finset.Subset.refl _)
  · rcases h.frontier t ht with hremains | hplaced
    · rw [hrem, mem_cons] at hremains
      rcases hremains with rfl | hrest
      · exact .inr hfirst
      · exact .inl hrest
    · exact .inr (hplaced.mono hsub (Finset.Subset.refl _))
  · obtain ⟨waves, hwaves, hled⟩ := h.led
    exact ⟨waves, hwaves, fun wave hw e he t ht ↦
      (hled wave hw e he t ht).imp_left (Placed.mono · hsub (Finset.Subset.refl _))⟩
  · have hnil := h.stopped hstop
    rw [hrem] at hnil
    cases hnil

/-- Leaving a generation early queues the targets that remain. -/
theorem halt (h : Kept R policy before frontier earlier l) (state : CrawlState)
    (hvisited : ∀ key ∈ state.visited,
      key ∈ l.state.visited ∨ key ∈ l.remaining.map Target.ownedKey)
    (hlimit : l.state.resourceLimited = true → state.resourceLimited = true) :
    Kept R policy before frontier earlier ({ l with state }.halt) := by
  have hseen : l.next.seen ⊆ (l.next.pushAll l.remaining).seen :=
    fun key hkey ↦ Frontier.mem_seen_pushAll.2 (.inr hkey)
  have hqueued : ∀ key ∈ l.remaining.map Target.ownedKey,
      Placed before ({ l with state }.halt) key :=
    fun key hkey ↦ .inr (.inr (Frontier.mem_seen_pushAll.2 (.inl hkey)))
  refine ⟨fun key hkey ↦ ?_, fun t ht ↦ .inr ?_, ?_, fun _ ↦ rfl⟩
  · rcases hvisited key hkey with hkey | hkey
    · exact (h.visited key hkey).mono (List.Subset.refl _) hseen
    · exact hqueued key hkey
  · rcases h.frontier t ht with hremains | hplaced
    · exact hqueued _ (mem_map_of_mem hremains)
    · exact hplaced.mono (List.Subset.refl _) hseen
  · obtain ⟨waves, hwaves, hled⟩ := h.led
    exact ⟨waves, hwaves, fun wave hw e he t ht ↦
      (hled wave hw e he t ht).imp (fun h ↦ h.mono (List.Subset.refl _) hseen) hlimit⟩

theorem fly (h : Kept R policy before frontier earlier l) :
    Kept R policy before frontier earlier (l.fly R policy collector generation) := by
  have hred := fly_reduced R policy collector generation l
  have hmono : ∀ {key}, Placed before l key →
      Placed before (l.fly R policy collector generation) key :=
    fun hplaced ↦ hplaced.mono (taken_fly l ▸ List.Subset.refl _) hred.seen
  refine ⟨fun key hkey ↦ hmono (h.visited key (hred.visited ▸ hkey)),
    fun t ht ↦ (h.frontier t ht).imp_right hmono, ?_, h.stopped⟩
  obtain ⟨waves, hwaves, hled⟩ := h.led
  refine ⟨waves ++ [l.wave collector], ?_, fun wave hw e he t ht ↦ ?_⟩
  · rw [← append_assoc, ← hwaves]
    rfl
  · rcases mem_append.1 hw with hw | hw
    · exact (hled wave hw e he t ht).imp hmono hred.limit
    · rw [mem_singleton] at hw
      subst hw
      rcases fly_covered l t (mem_flatMap.2 ⟨e, he, ht⟩) with hv | hs | hlim
      · exact .inl (hmono (h.visited _ hv))
      · exact .inl (.inr (.inr hs))
      · exact .inr hlim

/-- **Every move keeps every target in its place.** -/
theorem move (h : Kept R policy before frontier earlier l)
    (m : Move R policy collector generation l l') : Kept R policy before frontier earlier l' := by
  cases m with
  | ask outside => exact ⟨h.visited, h.frontier, h.led, h.stopped⟩
  | skip first rest hrem old => exact h.skip hrem old
  | take first rest hrem => exact h.take hrem
  | cancel => exact h.halt l.state.cancel (fun _ ↦ .inl) id
  | limit first rest hrem =>
    refine h.halt (l.state.visit first.ownedKey).limit (fun key hkey ↦ ?_) fun _ ↦ rfl
    rcases Finset.mem_insert.1 hkey with rfl | hkey
    · refine .inr ?_
      rw [hrem]
      exact (.head _) ..
    · exact .inl hkey
  | fly => exact h.fly

theorem start (before : CrawlState) (frontier : List Target) (session : Session σ) :
    Kept R policy before frontier session.waves (Locals.start before frontier session) :=
  ⟨fun _ hkey ↦ .inl hkey, fun _ ht ↦ .inl ht,
    ⟨[], (append_nil _).symm, nofun⟩,
    nofun⟩

end Kept

variable (R policy collector)

/-- **A generation loses no target.**  Wherever it is left, every target of its frontier was
dispatched or is in the frontier it returns, and so is every target that the entities its lookups
returned lead to, unless a resource limit is on record. -/
theorem CrawlState.step_keeps (self : CrawlState) (generation : UInt32) (frontier : List Target)
    (session : Session σ) :
    let after := self.step R policy collector generation frontier session
    let InPlace (t : Target) := (t.ownedKey ∈ self.visited ∨ t.ownedKey ∈ after.session.keys) ∨
      t.ownedKey ∈ after.next.intoQueue.map Target.ownedKey
    (∀ t ∈ frontier, InPlace t) ∧
      ∃ waves, after.session.waves = session.waves ++ waves ∧ ∀ wave ∈ waves,
        ∀ e ∈ wave.entities, ∀ t ∈ expansions R e policy,
          InPlace t ∨ after.state.resourceLimited = true := by
  intro after InPlace
  obtain ⟨hmoves, hbatch⟩ := runWaves_moves R policy collector generation
    (Locals.start self frontier session) rfl
  have hkept : Kept R policy self frontier session.waves (runWaves R policy collector generation
      (Locals.start self frontier session)) :=
    Loop.steps_inv _ (fun _ _ h m ↦ h.move m) (Kept.start self frontier session) hmoves
  have hplaced : ∀ t, Placed self (runWaves R policy collector generation
      (Locals.start self frontier session)) t.ownedKey → InPlace t := by
    rintro t (hv | ht | hs)
    · exact .inl (.inl hv)
    · rw [Locals.taken, hbatch, map_nil, append_nil] at ht
      exact .inl (.inr ht)
    · rw [Frontier.mem_seen] at hs
      exact .inr (((Frontier.intoQueue_perm _).map _).mem_iff.2 hs)
  constructor
  · intro t ht
    rcases hkept.frontier t ht with hremains | h
    · -- no target remains when the generation is left
      have hnil : (runWaves R policy collector generation
          (Locals.start self frontier session)).remaining = [] := by
        by_cases hstop : (runWaves R policy collector generation
            (Locals.start self frontier session)).stopped = true
        · exact hkept.stopped hstop
        · exact runWaves_remaining R policy collector generation _ (Bool.eq_false_iff.2 hstop)
      rw [hnil] at hremains
      cases hremains
    · exact hplaced t h
  · obtain ⟨waves, hwaves, hled⟩ := hkept.led
    exact ⟨waves, hwaves, fun wave hw e he t ht ↦ (hled wave hw e he t ht).imp_left (hplaced t)⟩

end

end Huntsman
