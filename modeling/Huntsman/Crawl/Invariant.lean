import Huntsman.Crawl.Run

/-!
# What holds all through a crawl

`Inv` is the invariant of a generation: the keys that were passed to the collector, or are in the
wave being filled, are distinct, counted and within the budget, and every target the crawl was led
to was passed, still waits, is queued for the next generation, or was turned away.  Each of the six
moves keeps it (`Inv.move`), and so does the end of a generation (`Inv.next`), so it holds when a
crawl ends (`crawl_ended`).

The last field speaks of runs whose waves are `Wave.Apart`: runs in which no wave dispatches a
target that already waits for the next generation or was already turned away.
-/

set_option autoImplicit false

namespace Huntsman

open List

section

variable {σ : Type} (R : Selectors) (policy : RecursionPolicy) (accepted : List Target)

/-- Whether a crawl was led to `t`: it is an accepted seed, or some lookup returned an entity that
expands into it. -/
def Session.LedTo (session : Session σ) (t : Target) : Prop :=
  t ∈ accepted ∨ ∃ e ∈ session.entities, t ∈ expansions R e policy

theorem Session.ledTo_iff (session : Session σ) (t : Target) :
    session.LedTo R policy accepted t ↔
      t ∈ accepted ++ session.entities.flatMap fun e ↦ expansions R e policy := by
  rw [mem_append, mem_flatMap, Session.LedTo]

instance (session : Session σ) (t : Target) : Decidable (session.LedTo R policy accepted t) :=
  decidable_of_iff' _ (session.ledTo_iff R policy accepted t)

/-- No target of the wave waits for the next generation or was turned away when it is dispatched. -/
def Wave.Apart (wave : Wave) : Prop :=
  ∀ t ∈ wave.targets, t.ownedKey ∉ wave.queued ∧ t.ownedKey ∉ wave.turnedAway.map Target.ownedKey

instance (wave : Wave) : Decidable wave.Apart :=
  inferInstanceAs (Decidable (∀ t ∈ wave.targets, _))

/-- The keys passed to the collector, then those of the wave being filled. -/
def Locals.taken (l : Locals σ) : List Key := l.session.keys ++ l.batch.map Target.ownedKey

/-- What is known of the targets that were not passed when every wave was apart from the queue. -/
structure Locals.Fresh (l : Locals σ) : Prop where
  /-- The targets that remain are distinct. -/
  nodup : (l.remaining.map Target.ownedKey).Nodup
  /-- None of them was passed, or is in the wave. -/
  remaining : ∀ t ∈ l.remaining, t.ownedKey ∉ l.taken
  /-- No queued target was passed. -/
  queued : ∀ key ∈ l.next.seen, key ∉ l.session.keys
  /-- No target that was turned away was passed. -/
  turnedAway : ∀ t ∈ l.state.turnedAway, t.ownedKey ∉ l.session.keys

/-- The invariant of a generation. -/
structure Inv (l : Locals σ) : Prop where
  /-- No key is passed to the collector twice. -/
  nodup : l.taken.Nodup
  /-- A key that was passed is never passed again. -/
  visited : ∀ key ∈ l.taken, key ∈ l.state.visited
  /-- Only a key that was passed is held back, or the one a budget stopped at. -/
  taken : ∀ key ∈ l.state.visited, key ∈ l.taken ∨ l.stopped = true ∧ key ∈ l.next.seen
  /-- Every target passed is counted. -/
  count : l.state.dispatches = l.session.keys.length
  /-- The budget has room for the wave. -/
  budget : l.taken.length ≤ policy.maxDispatches
  /-- Whatever waits or was turned away is something the crawl was led to. -/
  led : ∀ t, t ∈ l.remaining ∨ t ∈ l.next.queue ∨ t ∈ l.state.turnedAway →
    l.session.LedTo R policy accepted t
  /-- Whatever the crawl was led to was passed, waits or was turned away. -/
  covered : ∀ t, l.session.LedTo R policy accepted t → t.ownedKey ∈ l.taken ∨
    t.ownedKey ∈ l.remaining.map Target.ownedKey ∨ t.ownedKey ∈ l.next.seen ∨
    t ∈ l.state.turnedAway
  /-- A resource limit is recorded for a candidate turned away or a target a budget held back. -/
  limited : l.state.resourceLimited = true →
    l.state.turnedAway ≠ [] ∨ l.stopped = true ∧ ∃ key ∈ l.next.seen, key ∉ l.taken
  /-- A generation stops early for a reason, and leaves no target of its own. -/
  halted : l.stopped = true →
    l.remaining = [] ∧ (l.state.cancelled = true ∨ l.state.resourceLimited = true)
  /-- When every wave was apart from the queue, what waits was not passed. -/
  fresh : (∀ wave ∈ l.session.waves, wave.Apart) → l.Fresh

variable {R policy accepted}

/-! ## Sessions grow -/

theorem Session.keys_append (outside : σ) (waves : List Wave) (wave : Wave) :
    (Session.mk outside (waves ++ [wave])).keys
      = (Session.mk outside waves).keys ++ wave.targets.map Target.ownedKey := by
  simp [Session.keys, Session.dispatched]

theorem Session.entities_append (outside : σ) (waves : List Wave) (wave : Wave) :
    (Session.mk outside (waves ++ [wave])).entities
      = (Session.mk outside waves).entities ++ wave.entities := by
  simp [Session.entities]

/-! ## Each move keeps the invariant -/

namespace Inv

variable {l : Locals σ}

theorem asked (h : Inv R policy accepted l) (outside : σ) :
    Inv R policy accepted (l.asked outside) :=
  ⟨h.nodup, h.visited, h.taken, h.count, h.budget, h.led, h.covered, h.limited, h.halted, fun hw ↦
    ⟨(h.fresh hw).nodup, (h.fresh hw).remaining, (h.fresh hw).queued, (h.fresh hw).turnedAway⟩⟩

/-- A generation that has targets left was not stopped. -/
theorem stopped_of_remaining (h : Inv R policy accepted l) {first : Target} {rest : List Target}
    (hrem : l.remaining = first :: rest) : l.stopped = false := by
  by_contra hstop
  have hnil := (h.halted (by simpa using hstop)).1
  rw [hrem] at hnil
  cases hnil

theorem mem_taken_of_visited (h : Inv R policy accepted l) (hstop : l.stopped = false) {key : Key}
    (hkey : key ∈ l.state.visited) : key ∈ l.taken := by
  refine (h.taken key hkey).resolve_right fun hstopped ↦ ?_
  rw [hstop] at hstopped
  exact Bool.false_ne_true hstopped.1

theorem skip (h : Inv R policy accepted l) {first : Target} {rest : List Target}
    (hrem : l.remaining = first :: rest) (old : first.ownedKey ∈ l.state.visited) :
    Inv R policy accepted (l.skip rest) := by
  have hstop := h.stopped_of_remaining hrem
  refine ⟨h.nodup, h.visited, h.taken, h.count, h.budget, ?_, ?_, h.limited, ?_, ?_⟩
  · rintro t (ht | ht)
    · refine h.led t (.inl ?_)
      rw [hrem]
      exact .tail _ ht
    · exact h.led t (.inr ht)
  · intro t ht
    rcases h.covered t ht with hk | hk | hk
    · exact .inl hk
    · rw [hrem, map_cons, mem_cons] at hk
      rcases hk with hk | hk
      · exact .inl (hk ▸ h.mem_taken_of_visited hstop old)
      · exact .inr (.inl hk)
    · exact .inr (.inr hk)
  · intro hstopped
    rw [show (l.skip rest).stopped = l.stopped from rfl, hstop] at hstopped
    cases hstopped
  · intro hw
    obtain ⟨hnodup, hfresh, hqueued, hturned⟩ := h.fresh hw
    rw [hrem, map_cons, nodup_cons] at hnodup
    refine ⟨hnodup.2, fun t ht ↦ hfresh t ?_, hqueued, hturned⟩
    rw [hrem]
    exact .tail _ ht

theorem take (h : Inv R policy accepted l) {first : Target} {rest : List Target}
    (hrem : l.remaining = first :: rest) (new : first.ownedKey ∉ l.state.visited)
    (room : ¬ l.state.spent policy l.batch.length) : Inv R policy accepted (l.take first rest) := by
  have hstop := h.stopped_of_remaining hrem
  have htaken : (l.take first rest).taken = l.taken ++ [first.ownedKey] := by
    simp [Locals.taken, Locals.take]
  have hnew : first.ownedKey ∉ l.taken := fun hk ↦ new (h.visited _ hk)
  have hlen : l.taken.length = l.state.dispatches + l.batch.length := by
    rw [Locals.taken, length_append, length_map, h.count]
  refine ⟨?_, ?_, ?_, h.count, ?_, ?_, ?_, ?_, ?_, ?_⟩
  · rw [htaken, nodup_append]
    refine ⟨h.nodup, by simp, ?_⟩
    rintro a ha b hb rfl
    rw [mem_singleton] at hb
    exact hnew (hb ▸ ha)
  · intro key hkey
    rw [htaken, mem_append, mem_singleton] at hkey
    rcases hkey with hkey | rfl
    · exact Finset.mem_insert_of_mem (h.visited key hkey)
    · exact Finset.mem_insert_self ..
  · intro key hkey
    rw [htaken, mem_append, mem_singleton]
    rcases Finset.mem_insert.1 hkey with rfl | hkey
    · exact .inl (.inr rfl)
    · exact .inl (.inl (h.mem_taken_of_visited hstop hkey))
  · have hroom : ¬ policy.maxDispatches ≤ l.state.dispatches + l.batch.length :=
      fun hmax ↦ room (.inl hmax)
    rw [htaken, length_append, length_singleton]
    omega
  · rintro t (ht | ht)
    · refine h.led t (.inl ?_)
      rw [hrem]
      exact .tail _ ht
    · exact h.led t (.inr ht)
  · intro t ht
    rw [htaken, mem_append, mem_singleton]
    rcases h.covered t ht with hk | hk | hk
    · exact .inl (.inl hk)
    · rw [hrem, map_cons, mem_cons] at hk
      rcases hk with hk | hk
      · exact .inl (.inr hk)
      · exact .inr (.inl hk)
    · exact .inr (.inr hk)
  · intro hlim
    refine (h.limited hlim).imp_right fun hstopped ↦ ?_
    rw [hstop] at hstopped
    exact absurd hstopped.1 Bool.false_ne_true
  · intro hstopped
    rw [show (l.take first rest).stopped = l.stopped from rfl, hstop] at hstopped
    cases hstopped
  · intro hw
    obtain ⟨hnodup, hfresh, hqueued, hturned⟩ := h.fresh hw
    rw [hrem, map_cons, nodup_cons] at hnodup
    refine ⟨hnodup.2, fun t ht ↦ ?_, hqueued, hturned⟩
    rw [htaken, mem_append, mem_singleton, not_or]
    refine ⟨hfresh t (by rw [hrem]; exact .tail _ ht), fun heq ↦ hnodup.1 ?_⟩
    rw [← heq]
    exact mem_map_of_mem ht

/-- Leaving a generation early keeps the invariant, once the state says why. -/
theorem halt (h : Inv R policy accepted l) (state : CrawlState)
    (visited : l.state.visited ⊆ state.visited)
    (taken : ∀ key ∈ state.visited,
      key ∈ l.state.visited ∨ key ∈ l.remaining.map Target.ownedKey)
    (dispatches : state.dispatches = l.state.dispatches)
    (turnedAway : state.turnedAway = l.state.turnedAway)
    (limited : state.resourceLimited = true → l.state.resourceLimited = true ∨
      ∃ key ∈ l.remaining.map Target.ownedKey, key ∉ l.taken)
    (why : state.cancelled = true ∨ state.resourceLimited = true) :
    Inv R policy accepted { l with state }.halt := by
  have hseen : ∀ key, key ∈ { l with state }.halt.next.seen ↔
      key ∈ l.remaining.map Target.ownedKey ∨ key ∈ l.next.seen :=
    fun key ↦ Frontier.mem_seen_pushAll
  refine ⟨h.nodup, fun key hkey ↦ visited (h.visited key hkey), ?_, dispatches.trans h.count,
    h.budget, ?_, ?_, ?_, fun _ ↦ ⟨rfl, why⟩, ?_⟩
  · intro key hkey
    rw [hseen]
    rcases taken key hkey with hkey | hkey
    · rcases h.taken key hkey with hk | hk
      · exact .inl hk
      · exact .inr ⟨rfl, .inr hk.2⟩
    · exact .inr ⟨rfl, .inl hkey⟩
  · rintro t (ht | ht | ht)
    · cases ht
    · rcases Frontier.mem_queue_pushAll ht with ht | ht
      · exact h.led t (.inl ht)
      · exact h.led t (.inr (.inl ht))
    · exact h.led t (.inr (.inr (turnedAway ▸ ht)))
  · intro t ht
    rw [hseen]
    rcases h.covered t ht with hk | hk | hk | hk
    · exact .inl hk
    · exact .inr (.inr (.inl (.inl hk)))
    · exact .inr (.inr (.inl (.inr hk)))
    · exact .inr (.inr (.inr (turnedAway ▸ hk)))
  · intro hlim
    rcases limited hlim with hlim | ⟨key, hkey, hnew⟩
    · rcases h.limited hlim with hne | ⟨-, key, hkey, hnew⟩
      · exact .inl (turnedAway ▸ hne)
      · exact .inr ⟨rfl, key, (hseen key).2 (.inr hkey), hnew⟩
    · exact .inr ⟨rfl, key, (hseen key).2 (.inl hkey), hnew⟩
  · intro hw
    obtain ⟨-, hfresh, hqueued, hturned⟩ := h.fresh hw
    refine ⟨by simp [Locals.halt], nofun, fun key hkey ↦ ?_,
      fun t ht ↦ ?_⟩
    · rcases (hseen key).1 hkey with hkey | hkey
      · obtain ⟨t, ht, rfl⟩ := mem_map.1 hkey
        exact fun hk ↦ hfresh t ht (mem_append_left _ hk)
      · exact hqueued key hkey
    · exact hturned t (turnedAway ▸ ht)

theorem cancel (h : Inv R policy accepted l) : Inv R policy accepted l.cancel :=
  h.halt l.state.cancel (Finset.Subset.refl _) (fun _ ↦ .inl) rfl rfl .inl
    (.inl rfl)

theorem limit (h : Inv R policy accepted l) {first : Target} {rest : List Target}
    (hrem : l.remaining = first :: rest) (new : first.ownedKey ∉ l.state.visited) :
    Inv R policy accepted (l.limit first) := by
  have hfirst : first.ownedKey ∈ l.remaining.map Target.ownedKey := by
    rw [hrem]
    exact (.head _) ..
  refine h.halt (l.state.visit first.ownedKey).limit (Finset.subset_insert _ _) ?_ rfl
    rfl (fun _ ↦ .inr ⟨_, hfirst, fun hk ↦ new (h.visited _ hk)⟩) (.inr rfl)
  intro key hkey
  rcases Finset.mem_insert.1 hkey with rfl | hkey
  · exact .inr hfirst
  · exact .inl hkey

theorem fly (h : Inv R policy accepted l) (collector : SelectorCollector σ)
    (generation : UInt32) : Inv R policy accepted (l.fly R policy collector generation) := by
  have hred := fly_reduced R policy collector generation l
  have hkeys : (l.fly R policy collector generation).session.keys
      = l.session.keys ++ l.batch.map Target.ownedKey := Session.keys_append _ _ _
  have htaken : (l.fly R policy collector generation).taken = l.taken := by
    rw [Locals.taken, hkeys, Locals.taken]
    exact append_nil _
  have hvisited : (l.fly R policy collector generation).state.visited = l.state.visited :=
    hred.visited
  have hentities : (l.fly R policy collector generation).session.entities
      = l.session.entities ++ (l.wave collector).entities := Session.entities_append _ _ _
  have hold : ∀ t, l.session.LedTo R policy accepted t →
      (l.fly R policy collector generation).session.LedTo R policy accepted t := by
    rintro t (ht | ⟨e, he, ht⟩)
    · exact .inl ht
    · refine .inr ⟨e, ?_, ht⟩
      rw [hentities]
      exact mem_append_left _ he
  have hoffered : ∀ t ∈ (l.wave collector).entities.flatMap fun e ↦ expansions R e policy,
      (l.fly R policy collector generation).session.LedTo R policy accepted t := by
    intro t ht
    obtain ⟨e, he, ht⟩ := mem_flatMap.1 ht
    refine .inr ⟨e, ?_, ht⟩
    rw [hentities]
    exact mem_append_right _ he
  refine ⟨htaken ▸ h.nodup, ?_, ?_, ?_, htaken ▸ h.budget, ?_, ?_, ?_, ?_, ?_⟩
  · intro key hkey
    rw [hvisited]
    exact h.visited key (htaken ▸ hkey)
  · intro key hkey
    rw [htaken]
    exact (h.taken key (hvisited ▸ hkey)).imp_right fun hk ↦ ⟨hk.1, hred.seen hk.2⟩
  · rw [hkeys, length_append, length_map, ← h.count]
    exact hred.dispatches
  · rintro t (ht | ht | ht)
    · exact hold t (h.led t (.inl ht))
    · rcases hred.queue t ht with ht | ⟨ht, -⟩
      · exact hold t (h.led t (.inr (.inl ht)))
      · exact hoffered t ht
    · rcases hred.refused t ht with ht | ⟨ht, -⟩
      · exact hold t (h.led t (.inr (.inr ht)))
      · exact hoffered t ht
  · intro t ht
    rw [htaken]
    have hcases : l.session.LedTo R policy accepted t ∨
        t ∈ (l.wave collector).entities.flatMap fun e ↦ expansions R e policy := by
      rcases ht with ht | ⟨e, he, ht⟩
      · exact .inl (.inl ht)
      · rw [hentities, mem_append] at he
        rcases he with he | he
        · exact .inl (.inr ⟨e, he, ht⟩)
        · exact .inr (mem_flatMap.2 ⟨e, he, ht⟩)
    rcases hcases with ht | ht
    · rcases h.covered t ht with hk | hk | hk | hk
      · exact .inl hk
      · exact .inr (.inl hk)
      · exact .inr (.inr (.inl (hred.seen hk)))
      · exact .inr (.inr (.inr (hred.turnedAway hk)))
    · rcases hred.covered t ht with hk | hk | hk
      · rcases h.taken _ hk with hk | ⟨-, hk⟩
        · exact .inl hk
        · exact .inr (.inr (.inl (hred.seen hk)))
      · exact .inr (.inr (.inl hk))
      · exact .inr (.inr (.inr hk))
  · intro hlim
    rw [htaken]
    rcases hred.limited hlim with hlim | hne
    · rcases h.limited hlim with hne | ⟨hstop, key, hkey, hnew⟩
      · refine .inl fun hnil ↦ hne (eq_nil_of_subset_nil ?_)
        exact hnil ▸ hred.turnedAway
      · exact .inr ⟨hstop, key, hred.seen hkey, hnew⟩
    · exact .inl hne
  · intro hstop
    obtain ⟨hnil, hwhy⟩ := h.halted hstop
    refine ⟨hnil, hwhy.imp (fun hc ↦ hred.cancelled.trans hc) fun hl ↦ ?_⟩
    exact hred.limit hl
  · intro hw
    have hapart : (l.wave collector).Apart := hw _ (mem_append_right _ (.head _))
    obtain ⟨hnodup, hfresh, hqueued, hturned⟩ :=
      h.fresh fun wave hwave ↦ hw wave (mem_append_left _ hwave)
    -- a key that is queued or turned away is new to the wave, and the wave is new to the queue
    have hbatch : ∀ key ∈ l.batch.map Target.ownedKey, key ∉ l.next.seen ∧
        key ∉ l.state.turnedAway.map Target.ownedKey := by
      intro key hkey
      obtain ⟨u, hu, rfl⟩ := mem_map.1 hkey
      exact hapart u hu
    refine ⟨hnodup, fun t ht ↦ htaken ▸ hfresh t ht, ?_, ?_⟩
    · intro key hkey hpassed
      obtain ⟨t, ht, rfl⟩ := mem_map.1 ((Frontier.mem_seen _ key).1 hkey)
      rw [hkeys] at hpassed
      rcases hred.queue t ht with ht | ⟨-, hnew⟩
      · rcases mem_append.1 hpassed with hk | hk
        · exact hqueued _ (Frontier.mem_seen_of_mem_queue ht) hk
        · exact (hbatch _ hk).1 (Frontier.mem_seen_of_mem_queue ht)
      · exact hnew (h.visited _ hpassed)
    · intro t ht hpassed
      rw [hkeys] at hpassed
      rcases hred.refused t ht with ht | ⟨-, hnew⟩
      · rcases mem_append.1 hpassed with hk | hk
        · exact hturned t ht hk
        · exact (hbatch _ hk).2 (mem_map_of_mem ht)
      · exact hnew (h.visited _ hpassed)

/-- **Every move keeps the invariant.** -/
theorem move (collector : SelectorCollector σ) (generation : UInt32) (l l' : Locals σ)
    (h : Inv R policy accepted l) (m : Move R policy collector generation l l') :
    Inv R policy accepted l' := by
  cases m with
  | ask outside => exact h.asked outside
  | skip first rest hrem old => exact h.skip hrem old
  | take first rest hrem new room => exact h.take hrem new room
  | cancel => exact h.cancel
  | limit first rest hrem new => exact h.limit hrem new
  | fly => exact h.fly collector generation

/-! ## From one generation to the next -/

/-- Closing a generation keeps the invariant. -/
theorem close (h : Inv R policy accepted l) (generation : UInt32) (dispatched : ℕ) :
    Inv R policy accepted { l with state := l.state.close R generation dispatched } :=
  ⟨h.nodup, h.visited, h.taken, h.count, h.budget, h.led, h.covered, h.limited, h.halted, fun hw ↦
    ⟨(h.fresh hw).nodup, (h.fresh hw).remaining, (h.fresh hw).queued, (h.fresh hw).turnedAway⟩⟩

/-- The queue of a generation that went to its end begins the next one. -/
theorem next (h : Inv R policy accepted l) (hbatch : l.batch = []) (hrem : l.remaining = [])
    (hstop : l.stopped = false) :
    Inv R policy accepted (Locals.start l.state l.next.intoQueue l.session) := by
  have hkeys : l.taken = (Locals.start l.state l.next.intoQueue l.session).taken := by
    rw [Locals.taken, hbatch]
    rfl
  have hqueue : ∀ key, key ∈ l.next.intoQueue.map Target.ownedKey ↔ key ∈ l.next.seen := by
    intro key
    rw [l.next.mem_seen, (l.next.intoQueue_perm.map Target.ownedKey).mem_iff]
  refine ⟨hkeys ▸ h.nodup, fun key hkey ↦ h.visited key (hkeys ▸ hkey), fun key hkey ↦ ?_, h.count,
    hkeys ▸ h.budget, ?_, ?_, ?_, nofun, ?_⟩
  · exact .inl (hkeys ▸ h.mem_taken_of_visited hstop hkey)
  · rintro t (ht | ht | ht)
    · exact h.led t (.inr (.inl (Frontier.mem_intoQueue.1 ht)))
    · cases ht
    · exact h.led t (.inr (.inr ht))
  · intro t ht
    rcases h.covered t ht with hk | hk | hk | hk
    · exact .inl (hkeys ▸ hk)
    · rw [hrem] at hk
      cases hk
    · exact .inr (.inl ((hqueue _).2 hk))
    · exact .inr (.inr (.inr hk))
  · intro hlim
    refine (h.limited hlim).imp_right fun hs ↦ ?_
    rw [hstop] at hs
    exact absurd hs.1 Bool.false_ne_true
  · intro hw
    obtain ⟨-, -, hqueued, hturned⟩ := h.fresh hw
    refine ⟨l.next.nodup_intoQueue, fun t ht ↦ ?_, fun key hkey ↦ ?_, hturned⟩
    · rw [← hkeys, Locals.taken, hbatch, map_nil, append_nil]
      exact hqueued _ ((hqueue _).1 (mem_map_of_mem ht))
    · exact absurd hkey (Finset.notMem_empty key)

/-- A crawl begins with the invariant. -/
theorem init (accepted : List Target) (outside : σ) :
    Inv R policy accepted
      (Locals.start {} (Frontier.empty.pushAll accepted).intoQueue { outside, waves := [] }) := by
  refine ⟨nodup_nil, by simp [Locals.taken, Session.keys, Session.dispatched, Locals.start],
    by simp [Locals.start], rfl, Nat.zero_le _, ?_, ?_, by simp [Locals.start],
    by simp [Locals.start], ?_⟩
  · rintro t (ht | ht | ht)
    · refine .inl ?_
      simpa using Frontier.mem_queue_pushAll (Frontier.mem_intoQueue.1 ht)
    · cases ht
    · cases ht
  · rintro t (ht | ⟨e, he, -⟩)
    · refine .inr (.inl ?_)
      show t.ownedKey ∈ (Frontier.empty.pushAll accepted).intoQueue.map Target.ownedKey
      rw [((Frontier.intoQueue_perm _).map Target.ownedKey).mem_iff, ← Frontier.mem_seen,
        Frontier.mem_seen_pushAll]
      exact .inl (mem_map_of_mem ht)
    · simp [Locals.start, Session.entities] at he
  · intro _
    refine ⟨Frontier.nodup_intoQueue _, ?_, ?_, ?_⟩ <;>
      simp [Locals.start, Locals.taken, Session.keys, Session.dispatched]

end Inv

end

end Huntsman
