import Huntsman.Lib.Along
import Huntsman.Lib.Loop
import Mathlib.Data.List.Infix
import Mathlib.Data.List.TakeWhile

/-!
# The request budget of a provider

A limiter grants at most `limit` requests in any `window`.  It keeps when it granted the last of
them, and lets a caller that comes too early wait until the oldest is a window ago; a provider that
asks for a pause stops all callers until then.

Callers share a limiter, and wait outside its lock: a call is a number of turns, each of which is
one atomic section, with the turns of the others in between (`Step`).  Whatever the interleaving,
the budget, the pauses and the refusals are kept (`limiter_kept`).  Only a request that was granted
while the limit was zero, which means unlimited, leaves no trace: it does not count against a limit
that is set after it (`unlimited_forgotten`).

Instants and durations are nanoseconds.
-/

set_option autoImplicit false

open Relation

namespace Huntsman.RateLimit

open List

/-! ## The limiter -/

/-- `fetch::MAX_RETRY_AFTER_SECS`. -/
def maxRetryAfterSecs : ℕ := 3600

/-- A number of seconds, in nanoseconds. -/
def seconds (secs : ℕ) : ℕ := secs * 10 ^ 9

/-- A sliding-window limiter: at most `limit` acquisitions per `window`.  Zero means unlimited. -/
structure RateLimiter where
  limit : UInt32
  window : ℕ
  sent : List ℕ
  blockedUntil : Option ℕ
deriving DecidableEq

/-- How one turn of an acquisition ends. -/
inductive Turn where
  | granted
  | refused (remaining : ℕ)
  | sleep (duration : ℕ)
deriving DecidableEq

namespace RateLimiter

def new (limit : UInt32) (window : ℕ) : RateLimiter where
  limit := limit
  window := window
  sent := []
  blockedUntil := none

def perMinute (perMinute : UInt32) : RateLimiter := new perMinute (seconds 60)

def setLimit (self : RateLimiter) (perMinute : UInt32) : RateLimiter :=
  { self with limit := perMinute }

/-- Hold every caller for at least `d` from `now`. -/
def blockFor (self : RateLimiter) (now d : ℕ) : RateLimiter :=
  let d := min d (seconds maxRetryAfterSecs)
  let deadline := now + d
  if ∀ b ∈ self.blockedUntil, b < deadline then { self with blockedUntil := some deadline } else self

/-- The turn of a caller that no server block holds up. -/
def openTurn (self : RateLimiter) (now : ℕ) : Turn × RateLimiter :=
  let self := { self with blockedUntil := none }
  if self.limit = 0 then (.granted, self)
  else
    let self := { self with sent := self.sent.dropWhile fun t ↦ self.window ≤ now - t }
    if self.sent.length < self.limit.toNat then
      (.granted, { self with sent := self.sent ++ [now] })
    else
      match self.sent.head? with
      | none => (.granted, self)
      | some oldest => (.sleep (oldest + self.window - now), self)

/-- One turn of `acquire_within`: what it does under the lock. -/
def turn (self : RateLimiter) (maxWait now : ℕ) : Turn × RateLimiter :=
  match self.blockedUntil with
  | some deadline =>
    if now < deadline then
      let remaining := deadline - now
      if maxWait < remaining then (.refused remaining, self) else (.sleep remaining, self)
    else self.openTurn now
  | none => self.openTurn now

end RateLimiter

/-! ## Calls -/

/-- Where a call of `acquire_within` is.  One that waits does not take its next turn before
`wake`. -/
inductive Phase where
  | idle
  | waiting (maxWait wake : ℕ)
  | over
deriving DecidableEq

/-- What has happened to a limiter. -/
inductive Event where
  /-- A call was granted its request, under a limit. -/
  | granted (call now : ℕ) (limit : UInt32)
  | refused (call remaining : ℕ)
  /-- A deadline was set. -/
  | blocked (deadline : ℕ)
  | limited (limit : UInt32)
deriving DecidableEq

/-- A limiter and its callers.  The clock is the latest that was read. -/
structure World where
  limiter : RateLimiter
  calls : ℕ → Phase
  clock : ℕ
  history : List Event

namespace World

def new (limit : UInt32) (window : ℕ) : World where
  limiter := .new limit window
  calls := fun _ ↦ .idle
  clock := 0
  history := []

/-- The world after a turn. -/
def turn (w : World) (call maxWait now : ℕ) : World :=
  match w.limiter.turn maxWait now with
  | (.granted, limiter) => {
      limiter, clock := now, calls := Function.update w.calls call .over
      history := w.history ++ [.granted call now w.limiter.limit] }
  | (.refused remaining, limiter) => {
      limiter, clock := now, calls := Function.update w.calls call .over
      history := w.history ++ [.refused call remaining] }
  | (.sleep duration, limiter) => { w with
      limiter, clock := now
      calls := Function.update w.calls call (.waiting maxWait (now + duration)) }

end World

/-- One atomic step of some caller. -/
inductive Step : World → World → Prop where
  /-- A call begins.  `acquire` is the call that would wait for ever. -/
  | call (w : World) (call maxWait : ℕ) (idle : w.calls call = .idle) :
      Step w { w with calls := Function.update w.calls call (.waiting maxWait 0) }
  | turn (w : World) (call maxWait wake now : ℕ) (waiting : w.calls call = .waiting maxWait wake)
      (clock : w.clock ≤ now) (woken : wake ≤ now) : Step w (w.turn call maxWait now)
  | setLimit (w : World) (limit : UInt32) :
      Step w { w with
        limiter := w.limiter.setLimit limit, history := w.history ++ [.limited limit] }
  /-- `block_for` reads the clock before it takes the lock. -/
  | blockFor (w : World) (now d : ℕ) :
      Step w { w with
        limiter := w.limiter.blockFor now d
        clock := max w.clock now
        history := w.history ++ [.blocked (now + min d (seconds maxRetryAfterSecs))] }

/-- The requests that were granted: when, and under which limit. -/
def sends (history : List Event) : List (ℕ × UInt32) :=
  history.filterMap fun
    | .granted _ now limit => some (now, limit)
    | _ => none

/-- How many of some requests were granted less than a window before `now`. -/
def counting (window now : ℕ) (requests : List (ℕ × UInt32)) : ℕ :=
  requests.countP fun request ↦ now < request.1 + window

/-- The requests that were granted under a limit. -/
def limitedSends (history : List Event) : List (ℕ × UInt32) :=
  (sends history).filter fun request ↦ request.2 ≠ 0

/-! ## One turn -/

/-- `sent'` is `sent` without some that were a window ago. -/
def Trimmed (window now : ℕ) (sent sent' : List ℕ) : Prop :=
  ∃ old, sent = old ++ sent' ∧ ∀ t ∈ old, window ≤ now - t

/-- What a turn can come to. -/
inductive Turned (self : RateLimiter) (maxWait now : ℕ) : Turn → RateLimiter → Prop where
  | refused (deadline : ℕ) (blocked : self.blockedUntil = some deadline)
      (long : maxWait < deadline - now) :
      Turned self maxWait now (.refused (deadline - now)) self
  | held (deadline : ℕ) (blocked : self.blockedUntil = some deadline) (early : now < deadline) :
      Turned self maxWait now (.sleep (deadline - now)) self
  | unlimited (passed : ∀ deadline ∈ self.blockedUntil, deadline ≤ now) (unlimited : self.limit = 0) :
      Turned self maxWait now .granted { self with blockedUntil := none }
  | sent (passed : ∀ deadline ∈ self.blockedUntil, deadline ≤ now) (limited : self.limit ≠ 0)
      (sent : List ℕ) (trimmed : Trimmed self.window now self.sent sent)
      (room : sent.length < self.limit.toNat) :
      Turned self maxWait now .granted { self with blockedUntil := none, sent := sent ++ [now] }
  | full (passed : ∀ deadline ∈ self.blockedUntil, deadline ≤ now) (limited : self.limit ≠ 0)
      (sent : List ℕ) (trimmed : Trimmed self.window now self.sent sent) (duration : ℕ) :
      Turned self maxWait now (.sleep duration) { self with blockedUntil := none, sent }

theorem trimmed_dropWhile (window now : ℕ) (sent : List ℕ) :
    Trimmed window now sent (sent.dropWhile fun t ↦ window ≤ now - t) :=
  ⟨_, takeWhile_append_dropWhile.symm, fun _ ht ↦ by simpa using mem_takeWhile_imp ht⟩

variable {maxWait : ℕ} {calls : ℕ → Phase}

theorem RateLimiter.openTurned (self : RateLimiter) {now : ℕ}
    (passed : ∀ deadline ∈ self.blockedUntil, deadline ≤ now) :
    Turned self maxWait now (self.openTurn now).1 (self.openTurn now).2 := by
  rw [RateLimiter.openTurn]
  have htrimmed := trimmed_dropWhile self.window now self.sent
  split
  · rename_i hunlimited
    exact .unlimited passed hunlimited
  rename_i hlimited
  simp only
  split
  · rename_i hroom
    exact .sent passed hlimited _ htrimmed hroom
  rename_i hfull
  split
  · rename_i hnone
    have hpos : 0 < self.limit.toNat := Nat.pos_of_ne_zero fun hzero ↦
      hlimited (UInt32.toNat_inj.1 hzero)
    rw [head?_eq_none_iff] at hnone
    simp only [hnone, length_nil] at hfull
    exact absurd hpos hfull
  · exact .full passed hlimited _ htrimmed _

/-- **One turn**: it refuses, waits or grants, and grants only when no block is left and the budget
is not spent. -/
theorem RateLimiter.turned (self : RateLimiter) (maxWait now : ℕ) :
    Turned self maxWait now (self.turn maxWait now).1 (self.turn maxWait now).2 := by
  rw [RateLimiter.turn.eq_def]
  split
  · rename_i deadline hblocked
    split
    · rename_i hearly
      simp only
      split
      · rename_i hlong
        exact .refused deadline hblocked hlong
      · exact .held deadline hblocked hearly
    · rename_i hpassed
      refine self.openTurned fun b hb ↦ ?_
      rw [hblocked, Option.mem_some_iff] at hb
      exact hb ▸ Nat.le_of_not_lt hpassed
  · rename_i hnone
    refine self.openTurned fun b hb ↦ ?_
    rw [hnone] at hb
    exact nomatch hb

/-! ## Runs -/

/-- No request was granted before a deadline that had been set. -/
def Paused (history : List Event) : Prop :=
  Along (fun before event ↦ ∀ call now limit, event = .granted call now limit →
    ∀ deadline, .blocked deadline ∈ before → deadline ≤ now) history

/-- Under a limit, no request was granted when as many of `counted` were less than a window ago. -/
def Budgeted (window : ℕ) (counted : List Event → List (ℕ × UInt32)) (history : List Event) : Prop :=
  Along (fun before event ↦ ∀ call now limit, event = .granted call now limit → limit ≠ 0 →
    counting window now (counted before) < limit.toNat) history

/-- What a limiter keeps of what has happened to it, when its clock was last read at `clock`. -/
structure Counted (window clock : ℕ) (limiter : RateLimiter) (history : List Event) : Prop where
  sized : limiter.window = window
  /-- What is kept is the last of what was granted under a limit. -/
  sent : ∃ old, (limitedSends history).map Prod.fst = old ++ limiter.sent ∧
    ∀ t ∈ old, t + window ≤ clock
  past : ∀ request ∈ sends history, request.1 ≤ clock
  deadlines : ∀ deadline, .blocked deadline ∈ history →
    deadline ≤ clock ∨ ∃ b ∈ limiter.blockedUntil, deadline ≤ b
  paused : Paused history
  budgeted : Budgeted window limitedSends history

/-- A call whose outcome is known is over, and has one. -/
structure Answered (calls : ℕ → Phase) (history : List Event) : Prop where
  granted : ∀ call now limit, .granted call now limit ∈ history → calls call = .over
  refused : ∀ call remaining, .refused call remaining ∈ history → calls call = .over
  once : ∀ call remaining, .refused call remaining ∈ history →
    ∀ now limit, .granted call now limit ∉ history

variable {window clock : ℕ} {limiter limiter' : RateLimiter} {history : List Event} {event : Event}

@[simp]
theorem sends_append (history history' : List Event) :
    sends (history ++ history') = sends history ++ sends history' :=
  filterMap_append ..

@[simp]
theorem limitedSends_append (history history' : List Event) :
    limitedSends (history ++ history') = limitedSends history ++ limitedSends history' := by
  rw [limitedSends, sends_append, filter_append]
  rfl

theorem sends_of_not_granted (h : ∀ call now limit, event ≠ .granted call now limit) :
    sends [event] = [] := by
  cases event with
  | granted call now limit => exact absurd rfl (h call now limit)
  | refused call remaining => rfl
  | blocked deadline => rfl
  | limited limit => rfl

theorem Counted.mono (h : Counted window clock limiter history) {clock' : ℕ} (hclock : clock ≤ clock') :
    Counted window clock' limiter history := by
  obtain ⟨old, hold, hpast⟩ := h.sent
  refine ⟨h.sized, ⟨old, hold, fun t ht ↦ (hpast t ht).trans hclock⟩, fun request hrequest ↦
    (h.past request hrequest).trans hclock, fun deadline hdeadline ↦ ?_, h.paused, h.budgeted⟩
  exact (h.deadlines deadline hdeadline).imp_left fun hpassed ↦ hpassed.trans hclock

/-- What is kept of a limiter survives its forgetting a block that is over and requests that were a
window ago. -/
theorem Counted.forget (h : Counted window clock limiter history)
    (passed : ∀ deadline ∈ limiter.blockedUntil, deadline ≤ clock) {sent : List ℕ}
    (trimmed : Trimmed limiter.window clock limiter.sent sent) :
    Counted window clock { limiter with blockedUntil := none, sent } history := by
  obtain ⟨old, hold, hpast⟩ := h.sent
  obtain ⟨dropped, hdropped, hwindow⟩ := trimmed
  rw [h.sized] at hwindow
  refine ⟨h.sized, ⟨old ++ dropped, by rw [hold, hdropped, append_assoc], fun t ht ↦ ?_⟩, h.past,
    fun deadline hdeadline ↦ ?_, h.paused, h.budgeted⟩
  · rcases mem_append.1 ht with ht | ht
    · exact hpast t ht
    · have hmem : t ∈ (limitedSends history).map Prod.fst := by
        rw [hold, hdropped]
        simp [ht]
      obtain ⟨request, hrequest, rfl⟩ := mem_map.1 hmem
      have hle := h.past request (mem_filter.1 hrequest).1
      have hfar := hwindow request.1 ht
      omega
  · rcases h.deadlines deadline hdeadline with hpassed | ⟨b, hb, hle⟩
    · exact .inl hpassed
    · exact .inl (hle.trans (passed b hb))

/-- An event that grants nothing. -/
theorem Counted.note (h : Counted window clock limiter history) (hsized : limiter'.window = window)
    (hsent : limiter'.sent = limiter.sent)
    (hgrants : ∀ call now limit, event ≠ .granted call now limit)
    (hdeadlines : ∀ deadline, .blocked deadline ∈ history ++ [event] →
      deadline ≤ clock ∨ ∃ b ∈ limiter'.blockedUntil, deadline ≤ b) :
    Counted window clock limiter' (history ++ [event]) := by
  have hnone := sends_of_not_granted hgrants
  have hlimited : limitedSends [event] = [] := by rw [limitedSends, hnone, filter_nil]
  refine ⟨hsized, ?_, ?_, hdeadlines, ?_, ?_⟩
  · rw [limitedSends_append, hlimited, append_nil, hsent]
    exact h.sent
  · rw [sends_append, hnone, append_nil]
    exact h.past
  · exact h.paused.append_singleton fun call now limit heq ↦ absurd heq (hgrants call now limit)
  · exact h.budgeted.append_singleton fun call now limit heq ↦ absurd heq (hgrants call now limit)

/-- Requests that were less than a window ago are all kept. -/
theorem Counted.counting_le (h : Counted window clock limiter history) :
    counting window clock (limitedSends history) ≤ limiter.sent.length := by
  obtain ⟨old, hold, hpast⟩ := h.sent
  have hcount : counting window clock (limitedSends history) =
      ((limitedSends history).map Prod.fst).countP fun t ↦ clock < t + window := by
    rw [countP_map]
    rfl
  have hnone : old.countP (fun t ↦ clock < t + window) = 0 :=
    countP_eq_zero.2 fun t ht ↦ by simpa using hpast t ht
  rw [hcount, hold, countP_append, hnone, Nat.zero_add]
  exact countP_le_length

/-- A request is granted now, and kept if there is a limit. -/
theorem Counted.grant (h : Counted window clock limiter history) (hopen : limiter.blockedUntil = none)
    (hroom : limiter.limit ≠ 0 → limiter.sent.length < limiter.limit.toNat) (call : ℕ) :
    Counted window clock
      { limiter with sent := if limiter.limit = 0 then limiter.sent else limiter.sent ++ [clock] }
      (history ++ [.granted call clock limiter.limit]) := by
  obtain ⟨old, hold, hpast⟩ := h.sent
  refine ⟨h.sized, ⟨old, ?_, hpast⟩, fun request hrequest ↦ ?_, fun deadline hdeadline ↦ ?_, ?_, ?_⟩
  · have hlimited : limitedSends [.granted call clock limiter.limit] =
        if limiter.limit = 0 then [] else [(clock, limiter.limit)] := by
      by_cases hzero : limiter.limit = 0 <;> simp [limitedSends, sends, hzero]
    rw [limitedSends_append, hlimited, map_append, hold]
    split
    · simp
    · simp
  · rw [sends_append, mem_append] at hrequest
    rcases hrequest with hrequest | hrequest
    · exact h.past request hrequest
    · rw [show sends [.granted call clock limiter.limit] = [(clock, limiter.limit)] from rfl,
        mem_singleton] at hrequest
      rw [hrequest]
  · refine h.deadlines deadline ?_
    simpa using hdeadline
  · refine h.paused.append_singleton fun call' now limit heq deadline hdeadline ↦ ?_
    obtain ⟨-, rfl, -⟩ := Event.granted.inj heq
    rcases h.deadlines deadline hdeadline with hpassed | ⟨b, hb, -⟩
    · exact hpassed
    · rw [hopen] at hb
      exact nomatch hb
  · refine h.budgeted.append_singleton fun call' now limit heq hlimit ↦ ?_
    obtain ⟨-, rfl, rfl⟩ := Event.granted.inj heq
    exact h.counting_le.trans_lt (hroom hlimit)

/-! ## Steps -/

variable {w w' : World}

theorem Counted.turn (h : Counted window w.clock w.limiter w.history) {call now : ℕ}
    (hclock : w.clock ≤ now) :
    Counted window (w.turn call maxWait now).clock (w.turn call maxWait now).limiter
      (w.turn call maxWait now).history := by
  have hnow := h.mono hclock
  have hturned := w.limiter.turned maxWait now
  have hgrants : ∀ remaining call' now' limit,
      Event.refused call remaining ≠ .granted call' now' limit := fun _ _ _ _ heq ↦ nomatch heq
  rw [World.turn.eq_def]
  generalize w.limiter.turn maxWait now = r at hturned
  obtain ⟨turn, limiter⟩ := r
  cases hturned with
  | refused deadline blocked long =>
    refine hnow.note h.sized rfl (hgrants _) fun deadline' hdeadline ↦ hnow.deadlines deadline' ?_
    simpa using hdeadline
  | held deadline blocked early => exact hnow
  | unlimited passed unlimited =>
    have hopen := hnow.forget passed ⟨[], rfl, by simp⟩
    have hgrant := hopen.grant rfl (fun hlimit ↦ absurd unlimited hlimit) call
    simpa only [unlimited, if_true] using hgrant
  | sent passed limited sent trimmed room =>
    have hgrant := (hnow.forget passed trimmed).grant rfl (fun _ ↦ room) call
    simpa only [limited, if_false] using hgrant
  | full passed limited sent trimmed duration => exact hnow.forget passed trimmed

theorem blockFor_deadline (limiter : RateLimiter) (now d : ℕ) :
    (limiter.blockFor now d).window = limiter.window ∧ (limiter.blockFor now d).sent = limiter.sent ∧
      ∃ b ∈ (limiter.blockFor now d).blockedUntil, now + min d (seconds maxRetryAfterSecs) ≤ b ∧
        ∀ b' ∈ limiter.blockedUntil, b' ≤ b := by
  rw [RateLimiter.blockFor]
  split
  · rename_i hlater
    exact ⟨rfl, rfl, _, rfl, le_rfl, fun b' hb' ↦ (hlater b' hb').le⟩
  · rename_i hnot
    push Not at hnot
    obtain ⟨b, hb, hle⟩ := hnot
    exact ⟨rfl, rfl, b, hb, hle, fun b' hb' ↦ (Option.mem_unique hb' hb).le⟩

/-- **What a limiter keeps** is right after every step. -/
theorem Counted.step (h : Counted window w.clock w.limiter w.history) (hstep : Step w w') :
    Counted window w'.clock w'.limiter w'.history := by
  cases hstep with
  | call call maxWait idle => exact h
  | turn call maxWait wake now waiting clock woken => exact h.turn clock
  | setLimit limit =>
    refine h.note h.sized rfl (fun _ _ _ heq ↦ nomatch heq) fun deadline hdeadline ↦
      h.deadlines deadline ?_
    simpa using hdeadline
  | blockFor now d =>
    obtain ⟨hsized, hsent, b, hb, hown, hlater⟩ := blockFor_deadline w.limiter now d
    have hnow := h.mono (le_max_left w.clock now)
    refine hnow.note (hsized.trans h.sized) hsent (fun _ _ _ heq ↦ nomatch heq) fun deadline hdeadline ↦ ?_
    rcases mem_append.1 hdeadline with hdeadline | hdeadline
    · rcases hnow.deadlines deadline hdeadline with hpassed | ⟨b', hb', hle⟩
      · exact .inl hpassed
      · exact .inr ⟨b, hb, hle.trans (hlater b' hb')⟩
    · obtain rfl := Event.blocked.inj (mem_singleton.1 hdeadline)
      exact .inr ⟨b, hb, hown⟩

theorem Answered.keep {calls' : ℕ → Phase} (h : Answered calls history)
    (hover : ∀ call, calls call = .over → calls' call = .over) : Answered calls' history :=
  ⟨fun call now limit hmem ↦ hover call (h.granted call now limit hmem),
    fun call remaining hmem ↦ hover call (h.refused call remaining hmem), h.once⟩

/-- An event that is no outcome of a call. -/
theorem Answered.note (h : Answered calls history)
    (hgrants : ∀ call now limit, event ≠ .granted call now limit)
    (hrefusals : ∀ call remaining, event ≠ .refused call remaining) :
    Answered calls (history ++ [event]) := by
  have hgranted : ∀ call now limit, .granted call now limit ∈ history ++ [event] →
      .granted call now limit ∈ history := by
    intro call now limit hmem
    rcases mem_append.1 hmem with hmem | hmem
    · exact hmem
    · exact absurd (mem_singleton.1 hmem).symm (hgrants call now limit)
  have hrefused : ∀ call remaining, .refused call remaining ∈ history ++ [event] →
      .refused call remaining ∈ history := by
    intro call remaining hmem
    rcases mem_append.1 hmem with hmem | hmem
    · exact hmem
    · exact absurd (mem_singleton.1 hmem).symm (hrefusals call remaining)
  exact ⟨fun call now limit hmem ↦ h.granted call now limit (hgranted call now limit hmem),
    fun call remaining hmem ↦ h.refused call remaining (hrefused call remaining hmem),
    fun call remaining hmem now limit hmem' ↦ h.once call remaining (hrefused call remaining hmem) now
      limit (hgranted call now limit hmem')⟩

/-- A call that was waiting ends, one way or the other. -/
theorem Answered.answer (h : Answered calls history) {call wake : ℕ}
    (hwaiting : calls call = .waiting maxWait wake)
    (hown : (∃ now limit, event = .granted call now limit) ∨ ∃ remaining, event = .refused call remaining) :
    Answered (Function.update calls call .over) (history ++ [event]) := by
  have hover : ∀ other, calls other = .over ∨ other = call →
      Function.update calls call .over other = .over := by
    rintro other (hother | rfl)
    · by_cases heq : other = call
      · rw [heq, Function.update_self]
      · rw [Function.update_of_ne heq, hother]
    · rw [Function.update_self]
  have hnot : calls call ≠ .over := fun heq ↦ nomatch heq.symm.trans hwaiting
  refine ⟨fun other now limit hmem ↦ hover other ?_, fun other remaining hmem ↦ hover other ?_,
    fun other remaining hmem now limit hmem' ↦ ?_⟩
  · rcases mem_append.1 hmem with hmem | hmem
    · exact .inl (h.granted other now limit hmem)
    · rw [mem_singleton] at hmem
      rcases hown with ⟨_, _, rfl⟩ | ⟨_, rfl⟩
      · exact .inr (Event.granted.inj hmem).1
      · exact nomatch hmem
  · rcases mem_append.1 hmem with hmem | hmem
    · exact .inl (h.refused other remaining hmem)
    · rw [mem_singleton] at hmem
      rcases hown with ⟨_, _, rfl⟩ | ⟨_, rfl⟩
      · exact nomatch hmem
      · exact .inr (Event.refused.inj hmem).1
  · rw [mem_append, mem_singleton] at hmem hmem'
    rcases hown with ⟨now', limit', rfl⟩ | ⟨remaining', rfl⟩
    · have hmem := hmem.resolve_right fun heq ↦ nomatch heq
      rcases hmem' with hmem' | heq
      · exact h.once other remaining hmem now limit hmem'
      · exact hnot ((Event.granted.inj heq).1 ▸ h.refused other remaining hmem)
    · have hmem' := hmem'.resolve_right fun heq ↦ nomatch heq
      rcases hmem with hmem | heq
      · exact h.once other remaining hmem now limit hmem'
      · exact hnot ((Event.refused.inj heq).1 ▸ h.granted other now limit hmem')

theorem update_over {call : ℕ} (hnot : calls call ≠ .over) (phase : Phase)
    (other : ℕ) (hover : calls other = .over) : Function.update calls call phase other = .over := by
  have hne : other ≠ call := by
    rintro rfl
    exact hnot hover
  rw [Function.update_of_ne hne, hover]

/-- **A call ends once.** -/
theorem Answered.step (h : Answered w.calls w.history) (hstep : Step w w') :
    Answered w'.calls w'.history := by
  cases hstep with
  | call call maxWait idle => exact h.keep (update_over (fun heq ↦ nomatch heq.symm.trans idle) _)
  | turn call maxWait wake now waiting clock woken =>
    rw [World.turn.eq_def]
    generalize w.limiter.turn maxWait now = r
    obtain ⟨turn, limiter⟩ := r
    cases turn with
    | granted => exact h.answer waiting (.inl ⟨_, _, rfl⟩)
    | refused remaining => exact h.answer waiting (.inr ⟨_, rfl⟩)
    | sleep duration => exact h.keep (update_over (fun heq ↦ nomatch heq.symm.trans waiting) _)
  | setLimit limit => exact h.note (fun _ _ _ heq ↦ nomatch heq) fun _ _ heq ↦ nomatch heq
  | blockFor now d => exact h.note (fun _ _ _ heq ↦ nomatch heq) fun _ _ heq ↦ nomatch heq

/-! ## Whole runs -/

/-- What the limiter and its callers are after any steps. -/
theorem run_kept {limit : UInt32} (hrun : ReflTransGen Step (World.new limit window) w) :
    Counted window w.clock w.limiter w.history ∧ Answered w.calls w.history := by
  refine Loop.steps_inv (fun w ↦ Counted window w.clock w.limiter w.history ∧
    Answered w.calls w.history) (fun w w' h hstep ↦ ⟨h.1.step hstep, h.2.step hstep⟩) ⟨?_, ?_⟩ hrun
  · refine ⟨rfl, ⟨[], rfl, by simp⟩, ?_, ?_, Along.nil, Along.nil⟩ <;> simp [World.new, sends]
  · refine ⟨?_, ?_, ?_⟩ <;> simp [World.new]

/-- Of the requests of an interval as long as the window, all granted under the same limit, there
are no more than that limit. -/
theorem Budgeted.interval (h : Budgeted window limitedSends history) {limit : UInt32} (a : ℕ)
    (hlimit : limit ≠ 0)
    (hforce : ∀ request ∈ sends history, a ≤ request.1 → request.1 < a + window → request.2 = limit) :
    (sends history).countP (fun request ↦ a ≤ request.1 ∧ request.1 < a + window) ≤ limit.toNat := by
  induction history using reverseRecOn with
  | nil => exact Nat.zero_le _
  | append_singleton history event ih =>
    have hbefore : Budgeted window limitedSends history := fun before entry later heq ↦
      h before entry (later ++ [event]) (by rw [heq, append_assoc, cons_append])
    have hinterval : ∀ request ∈ sends history, a ≤ request.1 → request.1 < a + window →
        request.2 = limit := fun request hrequest ↦
      hforce request (by rw [sends_append]; exact mem_append_left _ hrequest)
    have hrest := ih hbefore hinterval
    rw [sends_append, countP_append]
    by_cases hown : ∃ call now limit', event = .granted call now limit' ∧ a ≤ now ∧ now < a + window
    · obtain ⟨call, now, limit', rfl, hle, hlt⟩ := hown
      have hsame : limit' = limit := hforce (now, limit') (by simp [sends]) hle hlt
      subst hsame
      have hroom := h history _ [] rfl call now limit' rfl hlimit
      have hcount : (sends history).countP (fun request ↦ a ≤ request.1 ∧ request.1 < a + window) ≤
          counting window now (limitedSends history) := by
        rw [counting, limitedSends, countP_filter]
        refine countP_mono_left fun request hrequest hin ↦ ?_
        obtain ⟨hle', hlt'⟩ := of_decide_eq_true hin
        have hsame := hinterval request hrequest hle' hlt'
        simp only [hsame, hlimit, ne_eq, not_false_eq_true, decide_true, Bool.and_true,
          decide_eq_true_eq]
        omega
      have hone : (sends [.granted call now limit']).countP
          (fun request ↦ a ≤ request.1 ∧ request.1 < a + window) ≤ 1 := countP_le_length
      omega
    · have hnone : (sends [event]).countP (fun request ↦ a ≤ request.1 ∧ request.1 < a + window) = 0 := by
        refine countP_eq_zero.2 fun request hrequest hin ↦ hown ?_
        cases event with
        | granted call now limit' =>
          obtain rfl := mem_singleton.1 hrequest
          exact ⟨call, now, limit', rfl, of_decide_eq_true hin⟩
        | refused call remaining => exact nomatch hrequest
        | blocked deadline => exact nomatch hrequest
        | limited limit' => exact nomatch hrequest
      omega

/-- **A limiter keeps its budget and its pauses**, whatever the interleaving of its callers: at most
`limit` requests are granted in an interval as long as the window while that limit is in force, none
before a deadline that had been set, and a call that is refused records none.  What was granted
under an earlier limit counts against a later one, as long as no request is granted while the limit
is zero. -/
theorem limiter_kept {limit : UInt32} (hrun : ReflTransGen Step (World.new limit window) w) :
    (∀ (a : ℕ) (inForce : UInt32), inForce ≠ 0 →
      (∀ request ∈ sends w.history, a ≤ request.1 → request.1 < a + window → request.2 = inForce) →
      (sends w.history).countP (fun request ↦ a ≤ request.1 ∧ request.1 < a + window) ≤
        inForce.toNat) ∧
    Paused w.history ∧
    (∀ call remaining, .refused call remaining ∈ w.history →
      ∀ now limit, .granted call now limit ∉ w.history) ∧
    w.limiter.sent.Sublist ((sends w.history).map Prod.fst) ∧
    ((∀ request ∈ sends w.history, request.2 ≠ 0) → Budgeted window sends w.history) := by
  obtain ⟨hcounted, hanswered⟩ := run_kept hrun
  refine ⟨fun a inForce hlimit hforce ↦ hcounted.budgeted.interval a hlimit hforce, hcounted.paused,
    hanswered.once, ?_, fun hlimited ↦ ?_⟩
  · obtain ⟨old, hold, -⟩ := hcounted.sent
    exact (hold ▸ sublist_append_right old _).trans ((filter_sublist).map _)
  · intro before event later heq call now limit' hevent hlimit
    have hall : limitedSends before = sends before := by
      refine filter_eq_self.2 fun request hrequest ↦ decide_eq_true (hlimited request ?_)
      rw [heq, sends_append]
      exact mem_append_left _ hrequest
    rw [← hall]
    exact hcounted.budgeted before event later heq call now limit' hevent hlimit

/-- One request a minute: the second caller waits for the window to pass. -/
theorem limiter_kept_sample : ∃ w, ReflTransGen Step (World.new 1 (seconds 60)) w ∧
    w.history = [.granted 0 0 1, .granted 1 (seconds 60) 1] ∧
    Paused w.history ∧ Budgeted (seconds 60) sends w.history := by
  have hfirst : ReflTransGen Step (World.new 1 (seconds 60)) _ := .single (Step.call _ 0 0 rfl)
  have hgranted := hfirst.tail (Step.turn _ 0 0 0 0 rfl (Nat.le_refl 0) (Nat.le_refl 0))
  have hsecond := hgranted.tail (Step.call _ 1 0 rfl)
  have hwaits := hsecond.tail (Step.turn _ 1 0 0 1 rfl (Nat.zero_le 1) (Nat.zero_le 1))
  have hrun' := hwaits.tail (Step.turn _ 1 0 (seconds 60) (seconds 60) rfl (by decide) (by decide))
  obtain ⟨-, hpaused, -, -, hbudgeted⟩ := limiter_kept hrun'
  exact ⟨_, hrun', rfl, hpaused, hbudgeted (by decide)⟩

/-- **A request that was granted without a limit is forgotten**: a limit of one a minute is set
right after it, and another request is granted at once. -/
theorem unlimited_forgotten : ¬ ∀ (limit : UInt32) (window : ℕ) (w : World),
    ReflTransGen Step (World.new limit window) w → Budgeted window sends w.history := by
  intro hall
  have hfirst : ReflTransGen Step (World.new 0 (seconds 60)) _ := .single (Step.call _ 0 0 rfl)
  have hgranted := hfirst.tail (Step.turn _ 0 0 0 0 rfl (Nat.le_refl 0) (Nat.le_refl 0))
  have hlimited := hgranted.tail (Step.setLimit _ 1)
  have hsecond := hlimited.tail (Step.call _ 1 0 rfl)
  have hrun' := hsecond.tail (Step.turn _ 1 0 0 1 rfl (Nat.zero_le 1) (Nat.zero_le 1))
  have hroom := hall _ _ _ hrun' [.granted 0 0 0, .limited 1] (.granted 1 1 1) [] rfl 1 1 1 rfl (by decide)
  exact absurd hroom (by decide)

end Huntsman.RateLimit
