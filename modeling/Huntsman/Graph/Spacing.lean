import Huntsman.Graph.Guarantees

/-!
# The spacing of attempts

Two attempts in one rate-limit group start at least the interval of the group apart, in every
execution (`attempts_spaced`).  Spacing is enforced in two places.  Between waves the loop compares
the clock with the start it noted last for the group, and inside a wave a task that retries waits
from its own last attempt.
-/

set_option autoImplicit false

open Relation

namespace Huntsman.Graph

open Std

/-- Whether a task belongs to a rate-limit group. -/
def InGroup (graph : ValidatedGraph) (key id : String) : Prop :=
  (graph.spec id).rateLimit.map RateLimit.key = some key

instance (graph : ValidatedGraph) (key id : String) : Decidable (InGroup graph key id) :=
  inferInstanceAs (Decidable (_ = _))

/-- The starts of a task's attempts, if it belongs to a group. -/
def Dispatch.startsIn (graph : ValidatedGraph) (key : String) (d : Dispatch) : List ℕ :=
  if InGroup graph key d.id then d.ended.attempts.map Attempt.started else []

/-- The starts of the attempts in a group, wave by wave. -/
def startsIn (graph : ValidatedGraph) (key : String) (waves : List Wave) : List ℕ :=
  (waves.flatMap Wave.dispatched).flatMap (Dispatch.startsIn graph key)

section

variable {graph : ValidatedGraph} {key : String}

theorem inGroup_iff {id : String} :
    InGroup graph key id ↔ ∃ limit, (graph.spec id).rateLimit = some limit ∧ limit.key = key := by
  rw [InGroup, Option.map_eq_some_iff]

theorem mem_dispatch_startsIn {d : Dispatch} {start : ℕ} : start ∈ d.startsIn graph key ↔
    InGroup graph key d.id ∧ ∃ attempt ∈ d.ended.attempts, attempt.started = start := by
  rw [Dispatch.startsIn]
  split
  · rename_i h
    simp [h]
  · rename_i h
    simp [h]

theorem startsIn_concat (waves : List Wave) (wave : Wave) : startsIn graph key (waves ++ [wave]) =
    startsIn graph key waves ++ wave.dispatched.flatMap (Dispatch.startsIn graph key) := by
  simp [startsIn]

end

section

variable {e : Execution}

/-- The attempts so far are spaced, and the noted starts are behind none but attempts that have yet
to be noted. -/
structure Spaced (e : Execution) (s : Stage) : Prop where
  spaced : ∀ id ∈ e.graph.topologicalOrder, ∀ limit ∈ (e.graph.spec id).rateLimit,
    (startsIn e.graph limit.key s.run.waves).Pairwise fun a b ↦ a + millis limit.minIntervalMs ≤ b
  noted : ∀ key, ∀ start ∈ startsIn e.graph key s.run.waves, ∃ last : ℕ,
    s.run.lastRateStart[key]? = some last ∧ (start ≤ last ∨
      ∃ d ∈ s.rest, InGroup e.graph key d.id ∧ ∃ own, d.ended.lastAttemptStart = some own ∧
        start ≤ own)
  /-- What will be noted is not before what is. -/
  behind : ∀ d ∈ s.rest, ∀ limit ∈ (e.graph.spec d.id).rateLimit, ∀ own,
    d.ended.lastAttemptStart = some own → ∀ last : ℕ,
    s.run.lastRateStart[limit.key]? = some last → last ≤ own
  apart : s.rest.Pairwise fun a b ↦ ∀ limit ∈ (e.graph.spec a.id).rateLimit,
    ∀ limit' ∈ (e.graph.spec b.id).rateLimit, limit.key ≠ limit'.key

/-- What a dispatched task's attempts are: spaced, and not before the wave. -/
theorem Dispatched.attempts {records : Records} {start : Thread} {d : Dispatch}
    (h : Dispatched e records start d) :
    (∀ attempt ∈ d.ended.attempts, start.now ≤ attempt.started) ∧
    (∀ limit ∈ (e.graph.spec d.id).rateLimit, d.ended.attempts.Pairwise fun a b ↦
      a.started + millis limit.minIntervalMs ≤ b.started) ∧
    (∀ attempt ∈ d.ended.attempts, ∃ own, d.ended.lastAttemptStart = some own ∧
      attempt.started ≤ own) ∧
    ∀ own, d.ended.lastAttemptStart = some own → start.now ≤ own := by
  obtain ⟨t, hnow, _, hended⟩ := h.job_ended
  obtain ⟨_, _, hspec, _⟩ := job_ok.1 h.job
  rw [← hnow]
  refine ⟨fun attempt hattempt ↦ (hended.times attempt hattempt).1, fun limit hlimit ↦ ?_,
    fun attempt hattempt ↦ ?_, fun own hown ↦ ?_⟩
  · have hspaced := hended.spaced
    rw [Job.spacing, hspec, Option.mem_def.1 hlimit, Option.elim_some] at hspaced
    exact hspaced
  · obtain ⟨own, hown⟩ : ∃ own, d.ended.lastAttemptStart = some own := by
      rw [hended.last]
      cases hlast : d.ended.attempts.getLast? with
      | none => simp [List.getLast?_eq_none_iff.1 hlast] at hattempt
      | some last => exact ⟨_, rfl⟩
    exact ⟨own, hown, hended.le_last hattempt hown⟩
  · rw [hended.last] at hown
    obtain ⟨last, hlast, rfl⟩ := Option.map_eq_some_iff.1 hown
    exact (hended.times last (List.mem_of_getLast? hlast)).1

theorem inGroups_iff {key : String} {ds : List Dispatch} :
    InGroups e key (ds.map Dispatch.id) ↔ ∃ d ∈ ds, InGroup e.graph key d.id := by
  simp [InGroups, inGroup_iff]

/-- A group has one interval. -/
theorem Admitted.interval (he : Admitted e) {id id' : String} {limit limit' : RateLimit}
    (hid : id ∈ e.graph.topologicalOrder) (hid' : id' ∈ e.graph.topologicalOrder)
    (hlimit : (e.graph.spec id).rateLimit = some limit)
    (hlimit' : (e.graph.spec id').rateLimit = some limit') (hkey : limit.key = limit'.key) :
    limit.minIntervalMs = limit'.minIntervalMs :=
  he.graph.interval id _ id' _ limit limit' (he.spec hid) (he.spec hid') hlimit hlimit' hkey

/-- The starts in one wave are spaced, no two of its tasks being of one group. -/
theorem Begun.spaced (he : Admitted e) {run run' : Run} {ds : List Dispatch}
    (hbegun : Begun e run ds run') {id : String} {limit : RateLimit}
    (hid : id ∈ e.graph.topologicalOrder) (hlimit : (e.graph.spec id).rateLimit = some limit) :
    (ds.flatMap (Dispatch.startsIn e.graph limit.key)).Pairwise fun a b ↦
      a + millis limit.minIntervalMs ≤ b := by
  obtain ⟨start, started, unixMs, _, _, htogether, hdispatched, _⟩ := hbegun.began
  refine List.pairwise_flatMap.2 ⟨fun d hd ↦ ?_, htogether.rateKeys.imp ?_⟩
  · rw [Dispatch.startsIn]
    split
    · rename_i hgroup
      obtain ⟨limit', hlimit', hkey⟩ := inGroup_iff.1 hgroup
      rw [List.pairwise_map, ← he.interval (hdispatched d hd).1.known hid hlimit' hlimit hkey]
      exact (hdispatched d hd).1.attempts.2.1 limit' hlimit'
    · exact List.Pairwise.nil
  · intro a b hne x hx y hy
    obtain ⟨la, hla, hka⟩ := inGroup_iff.1 (mem_dispatch_startsIn.1 hx).1
    obtain ⟨lb, hlb, hkb⟩ := inGroup_iff.1 (mem_dispatch_startsIn.1 hy).1
    exact absurd (hka.trans hkb.symm) (hne la hla lb hlb)

/-- **Dispatching keeps attempts spaced**: the wave begins when the interval has passed. -/
theorem Spaced.dispatch (he : Admitted e) {run run' : Run} {ds : List Dispatch}
    (h : Spaced e ⟨[], run⟩) (hbegun : Begun e run ds run') : Spaced e ⟨ds, run'⟩ := by
  have hwave {id : String} {limit : RateLimit} (hid : id ∈ e.graph.topologicalOrder)
      (hlimit : (e.graph.spec id).rateLimit = some limit) := hbegun.spaced he hid hlimit
  obtain ⟨start, started, unixMs, _, hstarted, htogether, hdispatched, hgroups, hothers⟩ :=
    hbegun.began
  have hold : ∀ key, ∀ a ∈ startsIn e.graph key run.waves, ∃ last : ℕ,
      run.lastRateStart[key]? = some last ∧ a ≤ last := by
    intro key a ha
    obtain ⟨last, hlast, hle | ⟨d, hd, _⟩⟩ := h.noted key a ha
    · exact ⟨last, hlast, hle⟩
    · cases hd
  have heligible : ∀ d ∈ ds, ∀ limit, (e.graph.spec d.id).rateLimit = some limit →
      ∀ a ∈ startsIn e.graph limit.key run.waves, a + millis limit.minIntervalMs ≤ started := by
    intro d hd limit hlimit a ha
    obtain ⟨last, hlast, hle⟩ := hold limit.key a ha
    exact (Nat.add_le_add_right hle _).trans (htogether.eligible d hd limit hlimit last hlast)
  refine ⟨fun id hid limit hlimit ↦ ?_, fun key a ha ↦ ?_, fun d hd limit hlimit own hown last
    hlast ↦ ?_, htogether.rateKeys⟩
  · simp only [hbegun.waves, startsIn_concat]
    refine List.pairwise_append.2 ⟨h.spaced id hid limit hlimit, hwave hid hlimit, ?_⟩
    intro a ha b hb
    obtain ⟨d, hd, hb⟩ := List.mem_flatMap.1 hb
    obtain ⟨hgroup, attempt, hattempt, rfl⟩ := mem_dispatch_startsIn.1 hb
    obtain ⟨limit', hlimit', hkey⟩ := inGroup_iff.1 hgroup
    have hpassed := heligible d hd limit' hlimit' a (hkey ▸ ha)
    rw [he.interval (hdispatched d hd).1.known hid hlimit' hlimit hkey] at hpassed
    exact hpassed.trans (hstarted.trans ((hdispatched d hd).1.attempts.1 attempt hattempt))
  · simp only [hbegun.waves, startsIn_concat] at ha
    rcases List.mem_append.1 ha with ha | ha
    · by_cases hgroup : InGroups e key (ds.map Dispatch.id)
      · obtain ⟨d, hd, hgroup'⟩ := inGroups_iff.1 hgroup
        obtain ⟨limit, hlimit, rfl⟩ := inGroup_iff.1 hgroup'
        have hpassed := heligible d hd limit hlimit a ha
        exact ⟨started, (hgroups _ hgroup).1, .inl (by omega)⟩
      · obtain ⟨last, hlast, hle⟩ := hold key a ha
        exact ⟨last, (hothers key hgroup).1.trans hlast, .inl hle⟩
    · obtain ⟨d, hd, ha⟩ := List.mem_flatMap.1 ha
      obtain ⟨hgroup, attempt, hattempt, rfl⟩ := mem_dispatch_startsIn.1 ha
      obtain ⟨own, hown, hle⟩ := (hdispatched d hd).1.attempts.2.2.1 attempt hattempt
      exact ⟨started, (hgroups key (inGroups_iff.2 ⟨d, hd, hgroup⟩)).1,
        .inr ⟨d, hd, hgroup, own, hown, hle⟩⟩
  · have hgroup : InGroups e limit.key (ds.map Dispatch.id) :=
      inGroups_iff.2 ⟨d, hd, inGroup_iff.2 ⟨limit, hlimit, rfl⟩⟩
    rw [(hgroups _ hgroup).1, Option.some.injEq] at hlast
    rw [← hlast]
    exact hstarted.trans ((hdispatched d hd).1.attempts.2.2.2 own hown)

/-- **Filing keeps attempts spaced**: the start of the last attempt is noted. -/
theorem Spaced.file {run run' : Run} {d : Dispatch} {rest : List Dispatch}
    (h : Spaced e ⟨d :: rest, run⟩) (hfiled : Filed e run d run') : Spaced e ⟨rest, run'⟩ := by
  obtain ⟨hfirst, hapart⟩ := List.pairwise_cons.1 h.apart
  refine ⟨fun id hid limit hlimit ↦ ?_, fun key a ha ↦ ?_, fun d' hd' limit hlimit own hown last
    hlast ↦ ?_, hapart⟩
  · rw [hfiled.waves]
    exact h.spaced id hid limit hlimit
  · rw [hfiled.waves] at ha
    obtain ⟨last, hlast, hle⟩ := h.noted key a ha
    by_cases hown : ∃ limit ∈ (e.graph.spec d.id).rateLimit, ∃ own,
        d.ended.lastAttemptStart = some own ∧ limit.key = key
    · obtain ⟨limit, hlimit, own, hown, rfl⟩ := hown
      refine ⟨own, (hfiled.stamped limit hlimit own hown).1, .inl ?_⟩
      rcases hle with hle | ⟨d', hd', hgroup, own', hown', hle⟩
      · exact hle.trans (h.behind d (.head _) limit hlimit own hown last hlast)
      · rcases List.mem_cons.1 hd' with rfl | hd'
        · rw [hown, Option.some.injEq] at hown'
          exact hown' ▸ hle
        · obtain ⟨limit', hlimit', hkey⟩ := inGroup_iff.1 hgroup
          exact absurd hkey.symm (hfirst d' hd' limit hlimit limit' hlimit')
    · have hother := (hfiled.others key fun limit hlimit own hlast heq ↦
        hown ⟨limit, hlimit, own, hlast, heq⟩).1
      refine ⟨last, hother.trans hlast, hle.imp_right ?_⟩
      rintro ⟨d', hd', hgroup, own, hown', hle⟩
      rcases List.mem_cons.1 hd' with rfl | hd'
      · obtain ⟨limit, hlimit, hkey⟩ := inGroup_iff.1 hgroup
        exact absurd ⟨limit, hlimit, own, hown', hkey⟩ hown
      · exact ⟨d', hd', hgroup, own, hown', hle⟩
  · have hother := (hfiled.others limit.key fun limit' hlimit' _ _ ↦
      hfirst d' hd' limit' hlimit' limit hlimit).1
    exact h.behind d' (.tail _ hd') limit hlimit own hown last
      (hother.symm.trans hlast)

theorem Spaced.move (he : Admitted e) {s s' : Stage} (h : Spaced e s) (hmove : Move e s s') :
    Spaced e s' := by
  cases hmove with
  | look rest run thread later => exact ⟨h.spaced, h.noted, h.behind, h.apart⟩
  | settle run id state error errors known pending unrun =>
    exact ⟨h.spaced, h.noted, h.behind, h.apart⟩
  | conclude run termination errors reason => exact ⟨h.spaced, h.noted, h.behind, h.apart⟩
  | dispatch run ds run' begun => exact h.dispatch he begun
  | file d rest run run' filed => exact h.file filed
  | hand run final finishedAtUnix durationMs =>
    rw [Execution.hand]
    split
    · exact h
    · exact ⟨h.spaced, h.noted, h.behind, h.apart⟩

variable {call : Call} {world : World} {checkpoint : Option ExecutionCheckpoint}
  {sink : Option CheckpointSink} {x : Executed} {graph : ValidatedGraph}

/-- **Attempts are spaced.**  In every execution, whatever the clocks and the handlers do, any two
attempts in one rate-limit group start at least the interval of the group apart. -/
theorem attempts_spaced (h : call.executeInner world checkpoint sink = some (.ok x))
    (hgraph : call.definition.validate call.enc = .ok graph) :
    ∀ id ∈ graph.topologicalOrder, ∀ limit ∈ (graph.spec id).rateLimit,
      (startsIn graph limit.key x.run.waves).Pairwise fun a b ↦
        a + millis limit.minIntervalMs ≤ b := by
  obtain ⟨e, run, hprepared, _, hreported⟩ := executeInner_reported h
  have hsame := hprepared.validated
  rw [hgraph, Except.ok.injEq] at hsame
  subst hsame
  have hstart : Spaced e ⟨[], run⟩ := by
    refine ⟨fun id hid limit hlimit ↦ ?_, fun key start hstart ↦ ?_, by simp, List.Pairwise.nil⟩
    · rw [hprepared.waves]
      exact List.Pairwise.nil
    · rw [hprepared.waves] at hstart
      cases hstart
  have hend := Loop.steps_inv (Spaced e) (fun _ _ hs hmove ↦ hs.move hprepared.admitted hmove)
    hstart hreported.moves
  exact hend.spaced

/-- In the sample, with both tasks in one group, the review waits for its turn. -/
theorem attempts_spaced_sample : ∃ (x : Executed) (graph : ValidatedGraph),
    (startsIn graph "pages" x.run.waves).length = 2 ∧
    ∀ id ∈ graph.topologicalOrder, ∀ limit ∈ (graph.spec id).rateLimit,
      (startsIn graph limit.key x.run.waves).Pairwise fun a b ↦
        a + millis limit.minIntervalMs ≤ b := by
  have hended : endedWith
      (fun x ↦ ((Sample.call (some ⟨"pages", 20⟩) 1 (.done Sample.found)).definition.validate
        Sample.enc).toOption.map (fun graph ↦ (startsIn graph "pages" x.run.waves).length) = some 2)
      ((Sample.call (some ⟨"pages", 20⟩) 1 (.done Sample.found)).executeInner Sample.world none
        (some Sample.sink)) = true := by decide +kernel
  obtain ⟨x, hx, hshape⟩ := endedWith_iff.1 hended
  obtain ⟨e, run, hprepared, _⟩ := executeInner_reported hx
  have hlength := of_decide_eq_true hshape
  rw [show Sample.enc = (Sample.call (some ⟨"pages", 20⟩) 1 (.done Sample.found)).enc from rfl,
    hprepared.validated] at hlength
  exact ⟨x, e.graph, Option.some.inj hlength, attempts_spaced hx hprepared.validated⟩

end

end Huntsman.Graph
