import Mathlib.Algebra.Ring.Nat
import Mathlib.Data.List.Infix

/-!
# The pacing of a host

A host's breaker decides whether a request may be sent.  It closes on a success; a run of failures,
or a provider's rate limit, opens it until a deadline, after which one call is let through at a
time.

Requests that are under way when it opens report their failures and rate limits later, and each of
them sets the deadline anew.  So a provider's `Retry-After` is honoured in the runs in which no
report sets the deadline back (`honoured_of_kept`), and in no others: a report that does is followed
by a call that is let through too early (`not_honoured_of_set_back`).
-/

set_option autoImplicit false

namespace Huntsman.Circuit

open List

/-- The greatest `u64`. -/
def u64Max : ℕ := 2 ^ 64 - 1

/-- The greatest `u32`. -/
def u32Max : ℕ := 2 ^ 32 - 1

/-- `u64::saturating_add`. -/
def saturatingAdd (a b : ℕ) : ℕ := min (a + b) u64Max

def failureThreshold : ℕ := 5

def cooldownSecs : ℕ := 60

inductive BreakerState where
  | closed | opened | halfOpen
deriving DecidableEq

structure Breaker where
  state : BreakerState
  consecutiveFailures : ℕ
  retryAt : ℕ
deriving DecidableEq

namespace Breaker

def new : Breaker := ⟨.closed, 0, 0⟩

def enterHalfOpen (b : Breaker) (now : ℕ) : Breaker :=
  { b with state := .halfOpen, retryAt := saturatingAdd now cooldownSecs }

def allow (b : Breaker) (now : ℕ) : Breaker × Bool :=
  match b.state with
  | .closed => (b, true)
  | .opened | .halfOpen => if b.retryAt ≤ now then (b.enterHalfOpen now, true) else (b, false)

def onSuccess (_ : Breaker) : Breaker := ⟨.closed, 0, 0⟩

def openFrom (b : Breaker) (now : ℕ) : Breaker :=
  { b with state := .opened, retryAt := saturatingAdd now cooldownSecs }

def onFailure (b : Breaker) (now : ℕ) : Breaker :=
  let b := { b with consecutiveFailures := min (b.consecutiveFailures + 1) u32Max }
  if b.state = .halfOpen ∨ failureThreshold ≤ b.consecutiveFailures then b.openFrom now else b

def onRateLimited (b : Breaker) (now retryAfterSecs : ℕ) : Breaker where
  state := .opened
  consecutiveFailures := min (b.consecutiveFailures + 1) u32Max
  retryAt := saturatingAdd now (max retryAfterSecs 1)

end Breaker

/-! ## Runs -/

/-- A call on a breaker. -/
inductive Call where
  | allow (now : ℕ)
  | onSuccess
  | onFailure (now : ℕ)
  | onRateLimited (now retryAfterSecs : ℕ)
deriving DecidableEq

/-- The clock a call is made at. -/
def Call.now? : Call → Option ℕ
  | .allow now | .onFailure now | .onRateLimited now _ => some now
  | .onSuccess => none

/-- The breaker after a call. -/
def Breaker.step (b : Breaker) : Call → Breaker
  | .allow now => (b.allow now).1
  | .onSuccess => b.onSuccess
  | .onFailure now => b.onFailure now
  | .onRateLimited now retryAfterSecs => b.onRateLimited now retryAfterSecs

/-- The breaker of a host after a run of calls. -/
def after (calls : List Call) : Breaker := calls.foldl Breaker.step .new

/-- The clock is a `u64` and does not go back. -/
def Clocked (calls : List Call) : Prop :=
  (calls.filterMap Call.now?).Pairwise (· ≤ ·) ∧ ∀ now ∈ calls.filterMap Call.now?, now ≤ u64Max

instance (calls : List Call) : Decidable (Clocked calls) := inferInstanceAs (Decidable (_ ∧ _))

/-- `call` was made after the calls `before`, and no success since. -/
def Made (calls before : List Call) (call : Call) : Prop :=
  ∃ later, calls = before ++ call :: later ∧ .onSuccess ∉ later

/-- A request asked for after the calls `before` is let through although the breaker has opened. -/
def LetThrough (before : List Call) (now : ℕ) : Prop :=
  (after before).state ≠ .closed ∧ ((after before).allow now).2 = true

/-- A request let through after the calls `before` is not let through too early: no provider asked
for a longer wait, and it comes `cooldownSecs` after the one let through before it. -/
def Timely (before : List Call) : Call → Prop
  | .allow now => ((after before).allow now).2 = true →
      (∀ earlier t r, Made before earlier (.onRateLimited t r) → t + max r 1 ≤ now) ∧
        ((after before).state ≠ .closed → ∀ earlier m, Made before earlier (.allow m) →
          LetThrough earlier m → m + cooldownSecs ≤ now)
  | _ => True

/-- No request of the run is let through too early. -/
def Honoured (calls : List Call) : Prop :=
  ∀ before call later, calls = before ++ call :: later → Timely before call

/-- A failure reported now opens the breaker. -/
def Breaker.Opens (b : Breaker) : Prop :=
  b.state = .halfOpen ∨ failureThreshold ≤ min (b.consecutiveFailures + 1) u32Max

/-- A call does not set the deadline back: a rate limit names one that comes no sooner than the
waits asked for and the cool-downs begun before it, a failure that opens the breaker one that comes
no sooner than the waits asked for, and no deadline passes the end of the clock. -/
def KeepsDeadline (before : List Call) : Call → Prop
  | .allow now => LetThrough before now → now + cooldownSecs ≤ u64Max
  | .onSuccess => True
  | .onFailure now => (after before).Opens → ∀ earlier t r,
      Made before earlier (.onRateLimited t r) → t + max r 1 ≤ saturatingAdd now cooldownSecs
  | .onRateLimited now retryAfterSecs =>
      now + max retryAfterSecs 1 ≤ u64Max ∧
      (∀ earlier t r, Made before earlier (.onRateLimited t r) →
        t + max r 1 ≤ now + max retryAfterSecs 1) ∧
      ∀ earlier m, Made before earlier (.allow m) → LetThrough earlier m →
        m + cooldownSecs ≤ now + max retryAfterSecs 1

/-- No call of the run sets the deadline back. -/
def DeadlineKept (calls : List Call) : Prop :=
  ∀ before call later, calls = before ++ call :: later → KeepsDeadline before call

/-! ## Steps -/

variable {calls before : List Call} {call other : Call} {now m t r : ℕ}

theorem after_append (calls : List Call) (call : Call) :
    after (calls ++ [call]) = (after calls).step call := foldl_concat ..

/-- Splitting a run that one call was added to: at that call, or before it. -/
theorem append_eq_append_cons {later : List Call} :
    calls ++ [call] = before ++ other :: later ↔
      (before = calls ∧ other = call ∧ later = []) ∨
        ∃ rest, later = rest ++ [call] ∧ calls = before ++ other :: rest := by
  constructor
  · intro h
    rcases eq_nil_or_concat later with rfl | ⟨rest, x, rfl⟩
    · obtain ⟨hcalls, hcall⟩ := append_inj' h rfl
      exact .inl ⟨hcalls.symm, (cons.inj hcall).1.symm, rfl⟩
    · rw [concat_eq_append] at *
      rw [← cons_append, ← append_assoc] at h
      obtain ⟨hcalls, hcall⟩ := append_inj' h rfl
      exact .inr ⟨rest, by rw [(cons.inj hcall).1], hcalls⟩
  · rintro (⟨rfl, rfl, rfl⟩ | ⟨rest, rfl, rfl⟩)
    · rfl
    · rw [append_assoc, cons_append]

theorem made_append : Made (calls ++ [call]) before other ↔
    (before = calls ∧ other = call) ∨ (call ≠ .onSuccess ∧ Made calls before other) := by
  constructor
  · rintro ⟨later, hcalls, hnone⟩
    rcases append_eq_append_cons.1 hcalls with ⟨hbefore, hother, -⟩ | ⟨rest, rfl, hrest⟩
    · exact .inl ⟨hbefore, hother⟩
    · rw [mem_append, not_or, mem_singleton] at hnone
      exact .inr ⟨Ne.symm hnone.2, rest, hrest, hnone.1⟩
  · rintro (⟨rfl, rfl⟩ | ⟨hcall, rest, hrest, hnone⟩)
    · exact ⟨[], rfl, not_mem_nil⟩
    · refine ⟨rest ++ [call], append_eq_append_cons.2 (.inr ⟨rest, rfl, hrest⟩), ?_⟩
      rw [mem_append, not_or, mem_singleton]
      exact ⟨hnone, Ne.symm hcall⟩

theorem not_made_nil : ¬ Made [] before call := by
  rintro ⟨later, h, -⟩
  exact absurd h.symm (by simp)

theorem Made.mem (h : Made calls before call) : call ∈ calls := by
  obtain ⟨later, rfl, -⟩ := h
  exact mem_append_right _ (.head _)

theorem deadlineKept_append :
    DeadlineKept (calls ++ [call]) ↔ DeadlineKept calls ∧ KeepsDeadline calls call := by
  constructor
  · intro h
    refine ⟨fun before other later hcalls ↦ ?_, h calls call [] rfl⟩
    exact h before other (later ++ [call]) (append_eq_append_cons.2 (.inr ⟨later, rfl, hcalls⟩))
  · rintro ⟨hcalls, hcall⟩ before other later hsplit
    rcases append_eq_append_cons.1 hsplit with ⟨rfl, rfl, -⟩ | ⟨rest, -, hrest⟩
    · exact hcall
    · exact hcalls before other rest hrest

theorem Clocked.left {later : List Call} (h : Clocked (calls ++ later)) : Clocked calls := by
  obtain ⟨hsorted, hmax⟩ := h
  rw [filterMap_append] at hsorted hmax
  exact ⟨(pairwise_append.1 hsorted).1, fun now hnow ↦ hmax now (mem_append_left _ hnow)⟩

/-- A call is made no sooner than those before it. -/
theorem Clocked.le_last {last : ℕ} (h : Clocked (calls ++ [call])) (hcall : call.now? = some last)
    (hother : other ∈ calls) (hnow : other.now? = some now) : now ≤ last := by
  obtain ⟨hsorted, -⟩ := h
  rw [filterMap_append] at hsorted
  refine (pairwise_append.1 hsorted).2.2 now (mem_filterMap.2 ⟨other, hother, hnow⟩) last ?_
  rw [filterMap_cons_some hcall]
  exact .head _

theorem Clocked.le_max (h : Clocked calls) (hcall : call ∈ calls) (hnow : call.now? = some now) :
    now ≤ u64Max :=
  h.2 now (mem_filterMap.2 ⟨call, hcall, hnow⟩)

/-! ## Runs that keep the deadline -/

/-- What the breaker guards after a run that keeps the deadline: while it is closed there is nothing
to wait for, and otherwise its deadline comes after every wait asked for and every cool-down
begun. -/
structure Guards (calls : List Call) : Prop where
  closed : (after calls).state = .closed → (∀ earlier t r,
    ¬ Made calls earlier (.onRateLimited t r)) ∧
      ∀ earlier m, Made calls earlier (.allow m) → ¬ LetThrough earlier m
  limit : (after calls).state ≠ .closed → ∀ earlier t r,
    Made calls earlier (.onRateLimited t r) → t + max r 1 ≤ (after calls).retryAt
  pass : (after calls).state ≠ .closed → ∀ earlier m, Made calls earlier (.allow m) →
    LetThrough earlier m → m + cooldownSecs ≤ (after calls).retryAt
  le_max : (after calls).retryAt ≤ u64Max

/-- What `allow` does. -/
theorem Breaker.allow_cases (b : Breaker) (now : ℕ) :
    (b.state = .closed ∧ b.allow now = (b, true)) ∨
      (b.state ≠ .closed ∧ b.retryAt ≤ now ∧ b.allow now = (b.enterHalfOpen now, true)) ∨
      (b.state ≠ .closed ∧ now < b.retryAt ∧ b.allow now = (b, false)) := by
  obtain ⟨state, failures, retryAt⟩ := b
  rcases state with _ | _ | _
  · exact .inl ⟨rfl, rfl⟩
  all_goals
    by_cases h : retryAt ≤ now
    · exact .inr (.inl ⟨by simp, h, by simp [Breaker.allow, h]⟩)
    · exact .inr (.inr ⟨by simp, by simpa using h, by simp [Breaker.allow, h]⟩)

/-- What a failure does. -/
theorem Breaker.onFailure_cases (b : Breaker) (now : ℕ) :
    (b.Opens ∧ (b.onFailure now).state = .opened ∧
        (b.onFailure now).retryAt = saturatingAdd now cooldownSecs) ∨
      (¬ b.Opens ∧ (b.onFailure now).state = b.state ∧ (b.onFailure now).retryAt = b.retryAt) := by
  by_cases h : b.Opens
  · have hif : b.state = .halfOpen ∨ failureThreshold ≤ min (b.consecutiveFailures + 1) u32Max := h
    refine .inl ⟨h, ?_, ?_⟩
    · rw [Breaker.onFailure, if_pos hif, Breaker.openFrom]
    · rw [Breaker.onFailure, if_pos hif, Breaker.openFrom]
  · have hif : ¬ (b.state = .halfOpen ∨ failureThreshold ≤ min (b.consecutiveFailures + 1) u32Max) := h
    refine .inr ⟨h, ?_, ?_⟩
    · rw [Breaker.onFailure, if_neg hif]
    · rw [Breaker.onFailure, if_neg hif]

theorem Guards.nil : Guards [] where
  closed _ := ⟨fun _ _ _ h ↦ not_made_nil h, fun _ _ h ↦ absurd h not_made_nil⟩
  limit _ _ _ _ h := absurd h not_made_nil
  pass _ _ _ h := absurd h not_made_nil
  le_max := Nat.zero_le _

theorem saturatingAdd_le_max (a b : ℕ) : saturatingAdd a b ≤ u64Max := min_le_right _ _

theorem saturatingAdd_eq {a b : ℕ} (h : a + b ≤ u64Max) : saturatingAdd a b = a + b := min_eq_left h

/-- A call that leaves the state and the deadline as they are, and is neither a success, a rate
limit nor let through, leaves what is guarded. -/
theorem Guards.unchanged (h : Guards calls) (hstate : (after (calls ++ [call])).state = (after calls).state)
    (hretry : (after (calls ++ [call])).retryAt = (after calls).retryAt)
    (hlimit : ∀ t r, call ≠ .onRateLimited t r) (hpass : ∀ m, call = .allow m → ¬ LetThrough calls m) :
    Guards (calls ++ [call]) := by
  have hold : ∀ earlier t r, Made (calls ++ [call]) earlier (.onRateLimited t r) →
      Made calls earlier (.onRateLimited t r) := by
    intro earlier t r hmade
    rcases made_append.1 hmade with ⟨-, heq⟩ | ⟨-, hmade⟩
    · exact absurd heq.symm (hlimit t r)
    · exact hmade
  have hold' : ∀ earlier m, Made (calls ++ [call]) earlier (.allow m) → LetThrough earlier m →
      Made calls earlier (.allow m) := by
    intro earlier m hmade hthrough
    rcases made_append.1 hmade with ⟨rfl, heq⟩ | ⟨-, hmade⟩
    · exact absurd hthrough (hpass m heq.symm)
    · exact hmade
  refine ⟨fun hclosed ↦ ?_, fun hopen ↦ ?_, fun hopen ↦ ?_, ?_⟩
  · rw [hstate] at hclosed
    obtain ⟨hlimits, hpasses⟩ := h.closed hclosed
    exact ⟨fun earlier t r hmade ↦ hlimits _ _ _ (hold _ _ _ hmade),
      fun earlier m hmade hthrough ↦ hpasses _ _ (hold' _ _ hmade hthrough) hthrough⟩
  · rw [hstate] at hopen
    rw [hretry]
    exact fun earlier t r hmade ↦ h.limit hopen _ _ _ (hold _ _ _ hmade)
  · rw [hstate] at hopen
    rw [hretry]
    exact fun earlier m hmade hthrough ↦ h.pass hopen _ _ (hold' _ _ hmade hthrough) hthrough
  · rw [hretry]
    exact h.le_max

theorem Guards.allow (h : Guards calls) (hkeep : KeepsDeadline calls (.allow now)) :
    Guards (calls ++ [.allow now]) := by
  have hafter : after (calls ++ [.allow now]) = ((after calls).allow now).1 := after_append _ _
  rcases (after calls).allow_cases now with ⟨hclosed, hallow⟩ | ⟨hopen, hdue, hallow⟩ |
    ⟨-, -, hallow⟩
  · refine h.unchanged ?_ ?_ (by simp) fun m _ hthrough ↦ hthrough.1 hclosed
    · rw [hafter, hallow]
    · rw [hafter, hallow]
  · have hnow : LetThrough calls now := ⟨hopen, by rw [hallow]⟩
    have hretry : (after (calls ++ [.allow now])).retryAt = now + cooldownSecs := by
      rw [hafter, hallow]
      exact saturatingAdd_eq (hkeep hnow)
    have hstate : (after (calls ++ [.allow now])).state = .halfOpen := by
      rw [hafter, hallow]
      rfl
    refine ⟨fun hclosed ↦ ?_, fun _ earlier t r hmade ↦ ?_, fun _ earlier m hmade hthrough ↦ ?_, ?_⟩
    · rw [hstate] at hclosed
      simp at hclosed
    · rcases made_append.1 hmade with ⟨-, heq⟩ | ⟨-, hmade⟩
      · simp at heq
      · have hlimit := h.limit hopen _ _ _ hmade
        omega
    · rcases made_append.1 hmade with ⟨-, heq⟩ | ⟨-, hmade⟩
      · obtain rfl := Call.allow.inj heq
        exact hretry.ge
      · have hpass := h.pass hopen _ _ hmade hthrough
        omega
    · rw [hretry]
      exact hkeep hnow
  · refine h.unchanged ?_ ?_ (by simp) fun m hm hthrough ↦ ?_
    · rw [hafter, hallow]
    · rw [hafter, hallow]
    · obtain rfl := Call.allow.inj hm
      have hrefused := hthrough.2
      rw [hallow] at hrefused
      simp at hrefused

theorem Guards.onSuccess (calls : List Call) : Guards (calls ++ [.onSuccess]) := by
  have hnone : ∀ earlier other, other ≠ .onSuccess → ¬ Made (calls ++ [.onSuccess]) earlier other := by
    intro earlier other hother hmade
    rcases made_append.1 hmade with ⟨-, heq⟩ | ⟨hne, -⟩
    · exact hother heq
    · exact hne rfl
  have hafter : after (calls ++ [.onSuccess]) = ⟨.closed, 0, 0⟩ := after_append _ _
  refine ⟨fun _ ↦ ⟨fun _ _ _ h ↦ hnone _ _ (by simp) h, fun _ _ h ↦ absurd h (hnone _ _ (by simp))⟩,
    fun _ _ _ _ h ↦ absurd h (hnone _ _ (by simp)), fun _ _ _ h ↦ absurd h (hnone _ _ (by simp)), ?_⟩
  rw [hafter]
  exact Nat.zero_le _

theorem Guards.onFailure (h : Guards calls) (hclock : Clocked (calls ++ [.onFailure now]))
    (hkeep : KeepsDeadline calls (.onFailure now)) : Guards (calls ++ [.onFailure now]) := by
  have hafter : after (calls ++ [.onFailure now]) = (after calls).onFailure now := after_append _ _
  rcases (after calls).onFailure_cases now with ⟨hopens, hstate, hretry⟩ | ⟨-, hstate, hretry⟩
  · rw [← hafter] at hstate hretry
    refine ⟨fun hclosed ↦ ?_, fun _ earlier t r hmade ↦ ?_, fun _ earlier m hmade hthrough ↦ ?_, ?_⟩
    · rw [hstate] at hclosed
      simp at hclosed
    · rcases made_append.1 hmade with ⟨-, heq⟩ | ⟨-, hmade⟩
      · simp at heq
      · rw [hretry]
        exact hkeep hopens _ _ _ hmade
    · rcases made_append.1 hmade with ⟨-, heq⟩ | ⟨-, hmade⟩
      · simp at heq
      · -- a cool-down that began earlier ends earlier
        have hearlier := hclock.le_last rfl hmade.mem rfl
        have hpass : m + cooldownSecs ≤ u64Max := by
          by_cases hclosed : (after calls).state = .closed
          · exact absurd hthrough ((h.closed hclosed).2 _ _ hmade)
          · exact (h.pass hclosed _ _ hmade hthrough).trans h.le_max
        rw [hretry]
        exact le_min (by omega) hpass
    · rw [hretry]
      exact saturatingAdd_le_max _ _
  · rw [← hafter] at hstate hretry
    exact h.unchanged hstate hretry (by simp) (by simp)

theorem Guards.onRateLimited (hkeep : KeepsDeadline calls (.onRateLimited now r)) :
    Guards (calls ++ [.onRateLimited now r]) := by
  obtain ⟨hmax, hlimits, hpasses⟩ := hkeep
  have hafter : after (calls ++ [.onRateLimited now r]) = (after calls).onRateLimited now r :=
    after_append _ _
  have hretry : (after (calls ++ [.onRateLimited now r])).retryAt = now + max r 1 := by
    rw [hafter]
    exact saturatingAdd_eq hmax
  refine ⟨fun hclosed ↦ ?_, fun _ earlier t q hmade ↦ ?_, fun _ earlier m hmade hthrough ↦ ?_, ?_⟩
  · rw [hafter] at hclosed
    exact absurd hclosed (by simp [Breaker.onRateLimited])
  · rw [hretry]
    rcases made_append.1 hmade with ⟨-, heq⟩ | ⟨-, hmade⟩
    · obtain ⟨rfl, rfl⟩ := Call.onRateLimited.inj heq
      exact le_rfl
    · exact hlimits _ _ _ hmade
  · rw [hretry]
    rcases made_append.1 hmade with ⟨-, heq⟩ | ⟨-, hmade⟩
    · simp at heq
    · exact hpasses _ _ hmade hthrough
  · rw [hretry]
    exact hmax

theorem guards_of_kept (hclock : Clocked calls) (hkept : DeadlineKept calls) : Guards calls := by
  induction calls using reverseRecOn with
  | nil => exact Guards.nil
  | append_singleton calls call ih =>
    obtain ⟨hkept, hkeep⟩ := deadlineKept_append.1 hkept
    have h := ih hclock.left hkept
    rcases call with now | _ | now | ⟨now, r⟩
    · exact h.allow hkeep
    · exact Guards.onSuccess calls
    · exact h.onFailure hclock hkeep
    · exact Guards.onRateLimited hkeep

/-- A call that a guarding breaker lets through comes in time. -/
theorem Guards.timely (h : Guards calls) (call : Call) : Timely calls call := by
  rcases call with now | _ | _ | _
  · intro hallowed
    rcases (after calls).allow_cases now with ⟨hclosed, -⟩ | ⟨hopen, hdue, -⟩ | ⟨-, -, hallow⟩
    · exact ⟨fun _ _ _ hmade ↦ absurd hmade ((h.closed hclosed).1 _ _ _),
        fun hopen ↦ absurd hclosed hopen⟩
    · exact ⟨fun _ _ _ hmade ↦ (h.limit hopen _ _ _ hmade).trans hdue,
        fun _ _ _ hmade hthrough ↦ (h.pass hopen _ _ hmade hthrough).trans hdue⟩
    · rw [hallow] at hallowed
      simp at hallowed
  all_goals exact trivial

/-- **No request is let through too early in a run that never sets the deadline back.** -/
theorem honoured_of_kept (hclock : Clocked calls) (hkept : DeadlineKept calls) : Honoured calls := by
  rintro before call later rfl
  refine Guards.timely (guards_of_kept hclock.left fun first other rest hbefore ↦ ?_) call
  refine hkept first other (rest ++ call :: later) ?_
  rw [hbefore, append_assoc, cons_append]

/-! ## Runs that set it back -/

theorem Clocked.allow_later {last : ℕ} (h : Clocked (calls ++ [call])) (hcall : call.now? = some last)
    (hlast : last ≤ now) (hmax : now ≤ u64Max) : Clocked (calls ++ [call, .allow now]) := by
  have htimes : (calls ++ [call, .allow now]).filterMap Call.now? =
      (calls ++ [call]).filterMap Call.now? ++ [now] := by
    rw [show calls ++ [call, .allow now] = (calls ++ [call]) ++ [.allow now] by simp,
      filterMap_append]
    rfl
  rw [Clocked, htimes]
  refine ⟨pairwise_append.2 ⟨h.1, pairwise_singleton _ _, fun a ha b hb ↦ ?_⟩, fun a ha ↦ ?_⟩
  · rw [mem_singleton.1 hb]
    rw [filterMap_append, filterMap_cons_some hcall, mem_append] at ha
    rcases ha with ha | ha
    · obtain ⟨other, hother, hnow⟩ := mem_filterMap.1 ha
      exact (h.le_last hcall hother hnow).trans hlast
    · rw [mem_singleton.1 ha]
      exact hlast
  · rcases mem_append.1 ha with ha | ha
    · exact h.2 a ha
    · rw [mem_singleton.1 ha]
      exact hmax

/-- A deadline that comes too early is used. -/
theorem not_honoured_of_due (hopen : (after (calls ++ [call])).state ≠ .closed)
    (hdue : (after (calls ++ [call])).retryAt ≤ now)
    (hearly : (∃ earlier t r, Made (calls ++ [call]) earlier (.onRateLimited t r) ∧
      now < t + max r 1) ∨ ∃ earlier m, Made (calls ++ [call]) earlier (.allow m) ∧
        LetThrough earlier m ∧ now < m + cooldownSecs) :
    ¬ Honoured (calls ++ [call, .allow now]) := by
  intro hhonoured
  have hallowed : ((after (calls ++ [call])).allow now).2 = true := by
    rcases (after (calls ++ [call])).allow_cases now with ⟨-, hallow⟩ | ⟨-, -, hallow⟩ | ⟨-, hlate, -⟩
    · rw [hallow]
    · rw [hallow]
    · omega
  obtain ⟨hlimits, hpasses⟩ := hhonoured (calls ++ [call]) (.allow now) [] (by simp) hallowed
  rcases hearly with ⟨earlier, t, r, hmade, hlt⟩ | ⟨earlier, m, hmade, hthrough, hlt⟩
  · exact absurd (hlimits _ _ _ hmade) (by omega)
  · exact absurd (hpasses hopen _ _ hmade hthrough) (by omega)

/-- **A call that sets the deadline back lets a request through too early.** -/
theorem not_honoured_of_set_back (hclock : Clocked (calls ++ [call]))
    (hback : ¬ KeepsDeadline calls call) :
    ∃ now, Clocked (calls ++ [call, .allow now]) ∧ ¬ Honoured (calls ++ [call, .allow now]) := by
  have hafter := after_append calls call
  have hself : Made (calls ++ [call]) calls call := made_append.2 (.inl ⟨rfl, rfl⟩)
  rcases call with now | _ | now | ⟨now, r⟩
  · have hlate : LetThrough calls now ∧ u64Max < now + cooldownSecs := by
      by_contra hnot
      exact hback fun hthrough ↦ Nat.le_of_not_lt fun hlt ↦ hnot ⟨hthrough, hlt⟩
    obtain ⟨hthrough, hlt⟩ := hlate
    have hnow := hclock.le_max (mem_append_right _ (.head _)) rfl
    have hstep : after (calls ++ [.allow now]) = (after calls).enterHalfOpen now := by
      rw [hafter]
      rcases (after calls).allow_cases now with ⟨hclosed, -⟩ | ⟨-, -, hallow⟩ | ⟨-, -, hallow⟩
      · exact absurd hclosed hthrough.1
      · exact congrArg Prod.fst hallow
      · have hrefused := hthrough.2
        rw [hallow] at hrefused
        simp at hrefused
    refine ⟨u64Max, hclock.allow_later rfl hnow le_rfl, not_honoured_of_due ?_ ?_ (.inr
      ⟨calls, now, hself, hthrough, hlt⟩)⟩
    · rw [hstep]
      simp [Breaker.enterHalfOpen]
    · rw [hstep]
      exact saturatingAdd_le_max _ _
  · exact absurd trivial hback
  · have hlimit : (after calls).Opens ∧ ∃ earlier t r, Made calls earlier (.onRateLimited t r) ∧
        saturatingAdd now cooldownSecs < t + max r 1 := by
      by_contra hnot
      exact hback fun hopens earlier t r hmade ↦ Nat.le_of_not_lt fun hlt ↦
        hnot ⟨hopens, earlier, t, r, hmade, hlt⟩
    obtain ⟨hopens, earlier, t, r, hmade, hlt⟩ := hlimit
    have hnow := hclock.le_max (mem_append_right _ (.head _)) rfl
    rcases (after calls).onFailure_cases now with ⟨-, hstate, hretry⟩ | ⟨hnot, -⟩
    · refine ⟨saturatingAdd now cooldownSecs, hclock.allow_later rfl (le_min (by omega) hnow)
        (saturatingAdd_le_max _ _), not_honoured_of_due ?_ ?_ (.inl ⟨earlier, t, r, ?_, hlt⟩)⟩
      · rw [hafter]
        exact fun hclosed ↦ absurd (hstate.symm.trans hclosed) (by decide)
      · rw [hafter]
        exact hretry.le
      · exact made_append.2 (.inr ⟨by simp, hmade⟩)
    · exact absurd hopens hnot
  · have hnow := hclock.le_max (mem_append_right _ (.head _)) rfl
    refine ⟨saturatingAdd now (max r 1), hclock.allow_later rfl (le_min (by omega) hnow)
      (saturatingAdd_le_max _ _), not_honoured_of_due ?_ ?_ ?_⟩
    · rw [hafter]
      simp [Breaker.step, Breaker.onRateLimited]
    · rw [hafter]
      exact le_rfl
    · by_contra hnot
      rw [not_or] at hnot
      obtain ⟨hlimits, hpasses⟩ := hnot
      have hle : saturatingAdd now (max r 1) ≤ now + max r 1 := min_le_left _ _
      refine hback ⟨?_, fun earlier t q hmade ↦ ?_, fun earlier m hmade hthrough ↦ ?_⟩
      · by_contra hlarge
        refine hlimits ⟨calls, now, r, hself, ?_⟩
        have hmax := saturatingAdd_le_max now (max r 1)
        omega
      · by_contra hlarge
        exact hlimits ⟨earlier, t, q, made_append.2 (.inr ⟨by simp, hmade⟩), by omega⟩
      · by_contra hlarge
        exact hpasses ⟨earlier, m, made_append.2 (.inr ⟨by simp, hmade⟩), hthrough, by omega⟩

/-- **A provider's `Retry-After` is honoured in the runs that never set the deadline back**, and a
call that sets it back lets a request through too early. -/
theorem retryAfter_honoured (calls : List Call) (hclocked : Clocked calls) :
    (DeadlineKept calls → Honoured calls) ∧
      ∀ call, Clocked (calls ++ [call]) → ¬ KeepsDeadline calls call →
        ∃ now, Clocked (calls ++ [call, .allow now]) ∧ ¬ Honoured (calls ++ [call, .allow now]) :=
  ⟨honoured_of_kept hclocked, fun _ ↦ not_honoured_of_set_back⟩

theorem retryAfter_honoured_sample : Honoured [.onRateLimited 0 90, .allow 90] := by
  have hnil : DeadlineKept [] := fun before call later h ↦ absurd h.symm (by simp)
  have hlimited : KeepsDeadline [] (.onRateLimited 0 90) :=
    ⟨by decide, fun _ _ _ h ↦ absurd h not_made_nil, fun _ _ h ↦ absurd h not_made_nil⟩
  have hallowed : KeepsDeadline [.onRateLimited 0 90] (.allow 90) := fun _ ↦ by decide
  have hfirst : DeadlineKept ([] ++ [.onRateLimited 0 90]) := deadlineKept_append.2 ⟨hnil, hlimited⟩
  exact (retryAfter_honoured [.onRateLimited 0 90, .allow 90] (by decide)).1
    (deadlineKept_append.2 ⟨hfirst, hallowed⟩)

/-- A provider that asked for an hour's wait is asked again after five seconds and a cool-down. -/
theorem retryAfter_cut_short : ¬ ∀ calls, Clocked calls → Honoured calls := by
  intro h
  have hrun := h [.onRateLimited 0 3600, .onFailure 5, .onFailure 5, .onFailure 5, .onFailure 5,
    .allow 65] (by decide)
  have htimely := hrun [.onRateLimited 0 3600, .onFailure 5, .onFailure 5, .onFailure 5,
    .onFailure 5] (.allow 65) [] rfl (by decide)
  exact absurd (htimely.1 [] 0 3600 ⟨_, rfl, by decide⟩) (by decide)

end Huntsman.Circuit
