import Huntsman.Crawl.Reduce

/-!
# What one generation can do, move by move

A generation's loop has an inner loop, five places where it stops and three questions that may
change the collector's world, but what it does to the crawl is always one of six moves: ask the
collector something, skip a target that was dispatched before, take one into the wave, stop because
the operator asked to, stop because a budget is spent, and let the wave fly.  `Move` lists them with
what is known when each is made.

`fillBatch_heard`, `dispatchWave_heard` and `wavePass_heard` say that the loop does nothing else, so
a property of a generation is proved by showing that each of the six keeps it.
-/

set_option autoImplicit false

open Relation

namespace Huntsman

section

variable {σ : Type} (R : Selectors) (policy : RecursionPolicy) (collector : SelectorCollector σ)
  (generation : UInt32)

/-- One move of a generation. -/
inductive Move : Locals σ → Locals σ → Prop where
  /-- A question is put to the collector, whose world may change. -/
  | ask (l : Locals σ) (outside : σ) : Move l (l.asked outside)
  /-- A target whose key was dispatched before is dropped. -/
  | skip (l : Locals σ) (first : Target) (rest : List Target)
      (remaining : l.remaining = first :: rest) (old : first.ownedKey ∈ l.state.visited) :
      Move l (l.skip rest)
  /-- A target joins the wave: its key is new and the budgets have room for it. -/
  | take (l : Locals σ) (first : Target) (rest : List Target)
      (remaining : l.remaining = first :: rest) (new : first.ownedKey ∉ l.state.visited)
      (room : ¬ l.state.spent policy l.batch.length) : Move l (l.take first rest)
  /-- The operator asked the crawl to stop. -/
  | cancel (l : Locals σ) : Move l l.cancel
  /-- A budget is spent before the next target, whose key is new. -/
  | limit (l : Locals σ) (first : Target) (rest : List Target)
      (remaining : l.remaining = first :: rest) (new : first.ownedKey ∉ l.state.visited)
      (spent : l.state.spent policy l.batch.length) : Move l (l.limit first)
  /-- The wave is dispatched and reduced. -/
  | fly (l : Locals σ) (wave : l.batch ≠ []) : Move l (l.fly R policy collector generation)

/-- Any number of moves. -/
abbrev Moves : Locals σ → Locals σ → Prop := ReflTransGen (Move R policy collector generation)

/-- What a question may do to the collector's world. -/
inductive Told : σ → σ → Prop where
  | same (outside : σ) : Told outside outside
  | may (batch : List Target) (target : Target) (outside : σ) :
      Told outside (collector.mayBatch batch target outside).2
  | stop (outside : σ) : Told outside (collector.cancelled outside).2

/-- A move whose question, if it is one, was put to the collector. -/
structure Heard (l l' : Locals σ) : Prop where
  move : Move R policy collector generation l l'
  told : l'.session.waves = l.session.waves → Told collector l.session.outside l'.session.outside

/-- Any number of moves that are heard. -/
abbrev Hears : Locals σ → Locals σ → Prop := ReflTransGen (Heard R policy collector generation)

theorem Hears.moves {l l' : Locals σ} (h : Hears R policy collector generation l l') :
    Moves R policy collector generation l l' :=
  ReflTransGen.mono (p := Move R policy collector generation) (fun _ _ hone ↦ hone.move) _ _ h

/-- **What a wave does to the crawl**: each of its targets is counted, and the candidates offered
are the expansions of the entities its lookups returned. -/
theorem fly_reduced (l : Locals σ) :
    Reduced ((l.wave collector).entities.flatMap fun e ↦ expansions R e policy) l.batch.length
      (l.state, l.next)
      ((l.fly R policy collector generation).state, (l.fly R policy collector generation).next) := by
  have h := CrawlState.reduceBatch_reduced R policy generation l.batch
    (normalizeBatch collector l.batch (collector.collectBatch l.batch l.session.outside).1
      (collector.collectBatch l.batch l.session.outside).2).1 (l.state, l.next)
  rw [← List.flatMap_assoc, entities_normalizeBatch] at h
  exact h

theorem hears_mayBatch (l : Locals σ) (target : Target) :
    Hears R policy collector generation l (l.mayBatch collector target).2 :=
  .single ⟨.ask l _, fun _ ↦ .may l.batch target l.session.outside⟩

theorem hears_cancelled (l : Locals σ) :
    Hears R policy collector generation l (l.cancelled collector).2 :=
  .single ⟨.ask l _, fun _ ↦ .stop l.session.outside⟩

/-- Filling a wave only makes moves, and keeps what the wave holds already. -/
theorem fillBatch_heard (rest : List Target) (l : Locals σ) (hrem : l.remaining = rest) :
    Hears R policy collector generation l (fillBatch policy collector l rest) ∧
      l.batch <+: (fillBatch policy collector l rest).batch := by
  induction rest generalizing l with
  | nil => exact ⟨.refl, List.prefix_rfl⟩
  | cons candidate rest ih =>
    simp only [fillBatch]
    split
    · have hmay := hears_mayBatch R policy collector generation l candidate
      split
      · have hasked := hmay.trans (hears_cancelled R policy collector generation _)
        split
        · exact ⟨hasked.tail ⟨.cancel _, fun _ ↦ .same _⟩, List.prefix_rfl⟩
        split
        · rename_i hold
          obtain ⟨hheard, hbatch⟩ := ih (Locals.skip _ rest) rfl
          exact ⟨(hasked.tail ⟨.skip _ candidate rest hrem hold, fun _ ↦ .same _⟩).trans hheard,
            hbatch⟩
        rename_i hnew
        split
        · rename_i hspent
          exact ⟨hasked.tail ⟨.limit _ candidate rest hrem hnew hspent, fun _ ↦ .same _⟩,
            List.prefix_rfl⟩
        · rename_i hroom
          obtain ⟨hheard, hbatch⟩ := ih (Locals.take _ candidate rest) rfl
          exact ⟨(hasked.tail ⟨.take _ candidate rest hrem hnew hroom, fun _ ↦ .same _⟩).trans hheard,
            (List.prefix_append _ _).trans hbatch⟩
      · exact ⟨hmay, List.prefix_rfl⟩
    · exact ⟨.refl, List.prefix_rfl⟩

/-- Dispatching a wave only makes moves, and no wave is being filled after it. -/
theorem dispatchWave_heard (l : Locals σ) (hwave : l.batch ≠ []) :
    Hears R policy collector generation l (dispatchWave R policy collector generation l) ∧
      (dispatchWave R policy collector generation l).batch = [] := by
  have hflown : Hears R policy collector generation l
      ((l.fly R policy collector generation).cancelled collector).2 := by
    refine (ReflTransGen.single ⟨.fly l hwave, fun hsame ↦ ?_⟩).trans
      (hears_cancelled R policy collector generation _)
    exact absurd (List.append_right_eq_self.1 hsame) (List.cons_ne_nil _ _)
  simp only [dispatchWave]
  split
  · exact ⟨hflown.tail ⟨.cancel _, fun _ ↦ .same _⟩, rfl⟩
  · exact ⟨hflown, rfl⟩

/-- **A pass over a generation's loop only makes moves**, and no wave is being filled after it. -/
theorem wavePass_heard (l : Locals σ) (hbatch : l.batch = []) :
    Hears R policy collector generation l (wavePass R policy collector generation l).locals ∧
      (wavePass R policy collector generation l).locals.batch = [] := by
  rw [wavePass]
  split
  · exact ⟨.refl, hbatch⟩
  rename_i first rest hrem
  have hasked := hears_cancelled R policy collector generation l
  have hnone : (l.cancelled collector).2.batch.length = 0 := by
    show l.batch.length = 0
    rw [hbatch, List.length_nil]
  simp only
  split
  · exact ⟨hasked.tail ⟨.cancel _, fun _ ↦ .same _⟩, hbatch⟩
  split
  · rename_i hold
    exact ⟨hasked.tail ⟨.skip _ first rest hrem hold, fun _ ↦ .same _⟩, hbatch⟩
  rename_i hnew
  split
  · rename_i hspent
    exact ⟨hasked.tail ⟨.limit _ first rest hrem hnew (hnone ▸ hspent), fun _ ↦ .same _⟩, hbatch⟩
  rename_i hroom
  have htaken := hasked.tail ⟨.take _ first rest hrem hnew (hnone ▸ hroom), fun _ ↦ .same _⟩
  obtain ⟨hfilled, hprefix⟩ := fillBatch_heard R policy collector generation rest
    ((l.cancelled collector).2.take first rest) rfl
  have hwave : (fillBatch policy collector ((l.cancelled collector).2.take first rest) rest).batch
      ≠ [] := by
    intro hnil
    rw [hnil, List.prefix_nil] at hprefix
    simp [Locals.take] at hprefix
  obtain ⟨hflown, hempty⟩ := dispatchWave_heard R policy collector generation _ hwave
  have hall := (htaken.trans hfilled).trans hflown
  split
  · exact ⟨hall, hempty⟩
  · exact ⟨hall, hempty⟩

end

end Huntsman
