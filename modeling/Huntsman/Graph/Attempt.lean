import Huntsman.Graph.Output
import Huntsman.Lib.Timeline

/-!
# Running one task

`run_one` calls a task's handler until it succeeds, fails for good or has no attempts left, on a
thread of its own: `Job.run`.

A job leaves a history behind, its `attempts`, which the code does not keep: what the handler was
given each time, when, and what it answered.  `Job.Ended` says all that the scheduler relies on, and
`Job.run_ended` that every job ends so, whatever its handler answers, however long it takes, and
whenever a stop comes.
-/

set_option autoImplicit false

namespace Huntsman.Graph

open List Std

/-- A number of nanoseconds, in whole milliseconds that fit a `u64`. -/
def elapsedMs (nanos : ℕ) : ℕ := min (nanos / 10 ^ 6) (2 ^ 64 - 1)

/-- How often a wait looks up. -/
def waitSlice : ℕ := millis 25

theorem waitSlice_pos : 0 < waitSlice := by decide

/-- `wait_until_or_cancel`. -/
def waitUntilOrCancel (until_ deadline : ℕ) (t : Thread) : Thread :=
  Thread.wait waitSlice until_ deadline waitSlice_pos t

/-- What a task is run with. -/
structure Job where
  enc : Encoders
  spec : TaskSpec
  handler : TaskHandler
  dependencyOutputs : TreeMap String TaskOutput
  priorAttempts : ℕ
  runDeadline : ℕ
  maxOutputBytes : ℕ

/-- Whether a handler answered with an output. -/
def Answer.isDone : Answer → Bool
  | .done _ => true
  | _ => false

/-- One call of a handler. -/
structure Attempt where
  context : TaskContext
  started : ℕ
  answer : Answer

/-- The locals of `run_one`, and the history of its attempts. -/
structure Attempting where
  thread : Thread
  record : TaskRecord
  lastError : String := "task did not execute"
  lastAttemptStart : Option ℕ := none
  attempts : List Attempt := []

namespace Attempting

/-- Break out of the loop in a state, for a reason. -/
def stop (a : Attempting) (state : TaskState) (error : String) : Attempting :=
  { a with record := { a.record with state }, lastError := error }

/-- Complete the record of a job that began at `start`. -/
def finish (start : ℕ) (a : Attempting) : Attempting :=
  let (finishedAtUnix, thread) := a.thread.readUnix
  let (ended, thread) := thread.readNow
  let record := { a.record with
    finishedAtUnix := some finishedAtUnix, durationMs := some (elapsedMs (ended - start)) }
  { a with
    thread
    record := if record.state.successful then record else
      { record with error := some a.lastError } }

end Attempting

namespace Job

variable (job : Job)

def maxAttempts : ℕ := satAdd8 job.spec.maxRetries 1

/-- What the handler is given at an attempt. -/
def context (attempt started : ℕ) : TaskContext where
  taskId := job.spec.id
  input := job.spec.input
  dependencyOutputs := job.dependencyOutputs
  attempt := attempt
  idempotencyKey := job.spec.idempotencyKey
  deadline := min (started + millis job.spec.timeoutMs) job.runDeadline

/-- What an answer comes to: an output that is accepted, or a failure.  Only a failure that the
handler reports itself can be retried. -/
def judge : Answer → Except TaskFailure TaskOutput
  | .done output =>
    match validateOutputAndLineage job.enc job.spec output job.maxOutputBytes
        job.dependencyOutputs[output.verification.producerId]? with
    | .ok () => .ok output
    | .error error => .error { message := error, retryable := false }
  | .failed failure => .error failure
  | .panicked => .error { message := "task " ++ job.spec.id ++ " panicked", retryable := false }

/-! ## The loop -/

/-- Leave when the run was cancelled or its deadline has come. -/
def gate (whenNoted : String) (a : Attempting) : Pass Attempting Attempting :=
  let (stop, thread) := a.thread.readStop
  if stop then .leave ({ a with thread }.stop .cancelled ("run cancelled" ++ whenNoted))
  else
    let (now, thread) := thread.readNow
    if job.runDeadline ≤ now then
      .leave ({ a with thread }.stop .timedOut ("run deadline exceeded" ++ whenNoted))
    else .again { a with thread }

/-- Leave when no attempt is left. -/
def spend (a : Attempting) : Pass Attempting Attempting :=
  if job.maxAttempts ≤ satAdd8 job.priorAttempts a.record.attempts then
    .leave (a.stop .failed a.lastError)
  else .again a

/-- Wait for the rate limit, counted from the attempt before. -/
def space (a : Attempting) : Attempting :=
  match job.spec.rateLimit, a.lastAttemptStart with
  | some limit, some previousStart =>
    { a with
      thread := waitUntilOrCancel (previousStart + millis limit.minIntervalMs) job.runDeadline
        a.thread }
  | _, _ => a

/-- Call the handler. -/
def call (a : Attempting) : Attempt × Attempting :=
  let attempts := satAdd8 a.record.attempts 1
  let (started, thread) := a.thread.readNow
  let context := job.context (satAdd8 job.priorAttempts attempts) started
  let (nonce, thread) := thread.await
  let attempt := { context, started, answer := job.handler nonce context }
  (attempt, { a with
    thread
    record := { a.record with attempts, retryable := false }
    lastAttemptStart := some started
    attempts := a.attempts ++ [attempt] })

/-- What to make of an answer, which counts only in time. -/
def settleAnswer (attempt : Attempt) (a : Attempting) : Pass Attempting Attempting :=
  let (stop, thread) := a.thread.readStop
  if stop && !attempt.answer.isDone then
    .leave ({ a with thread }.stop .cancelled "run cancelled while task was executing")
  else
    let (now, thread) := thread.readNow
    let a := { a with thread }
    if attempt.context.deadline < now then
      .leave (a.stop .timedOut ("task " ++ job.spec.id ++ " exceeded its deadline"))
    else
      match job.judge attempt.answer with
      | .ok output =>
        .leave { a with
          record := { a.record with
            state := .succeeded, output := some output, error := none, retryable := false } }
      | .error failure =>
        let a := { a with
          record := { a.record with retryable := failure.retryable }, lastError := failure.message }
        if ¬ failure.retryable ∨
            job.maxAttempts ≤ satAdd8 job.priorAttempts a.record.attempts then
          .leave (a.stop .failed failure.message)
        else .again a

/-- Wait before the next attempt, longer each time. -/
def backOff (attempt : Attempt) (elapsed : ℕ) (a : Attempting) : Pass Attempting Attempting :=
  let backoffMs := 10 * 2 ^ min a.record.attempts 10
  let (now, thread) := a.thread.readNow
  let remaining := attempt.context.deadline - now
  if remaining = 0 then
    .leave ({ a with thread }.stop .timedOut
      ("task " ++ job.spec.id ++ " deadline exceeded before retry"))
  else
    let (now, thread) := thread.readNow
    let a := { a with
      thread := waitUntilOrCancel (now + min (millis backoffMs) remaining) attempt.context.deadline
        thread }
    if millis job.spec.timeoutMs ≤ elapsed then
      .leave (a.stop .timedOut ("task " ++ job.spec.id ++ " exceeded its deadline"))
    else .again a

/-- Call the handler and deal with its answer. -/
def attempt (a : Attempting) : Pass Attempting Attempting :=
  let (attempt, a) := job.call a
  let (ended, thread) := a.thread.readNow
  (job.settleAnswer attempt { a with thread }).andThen
    (job.backOff attempt (ended - attempt.started))

def pass (a : Attempting) : Pass Attempting Attempting :=
  (job.gate "" a).andThen fun a ↦ (job.spend a).andThen fun a ↦
    (job.gate " before retry" (job.space a)).andThen job.attempt

/-- What a pass that goes round again has counted. -/
def Counted (n : ℕ) (a : Attempting) : Prop := a.record.attempts = n

theorem gate_counts (whenNoted : String) (a : Attempting) :
    (job.gate whenNoted a).Meets (fun _ ↦ True) (Counted a.record.attempts) := by
  simp only [gate]
  split
  · trivial
  split
  · trivial
  · rfl

theorem spend_counts (a : Attempting) :
    (job.spend a).Meets (fun _ ↦ True) fun a' ↦ Counted a.record.attempts a' ∧
      satAdd8 job.priorAttempts a.record.attempts < job.maxAttempts := by
  rw [spend]
  split
  · trivial
  · rename_i hleft
    exact ⟨rfl, Nat.lt_of_not_le hleft⟩

theorem attempt_counts (a : Attempting) :
    (job.attempt a).Meets (fun _ ↦ True) (Counted (satAdd8 a.record.attempts 1)) := by
  have hsettle (x : Attempt) (b : Attempting) :
      (job.settleAnswer x b).Meets (fun _ ↦ True) (Counted b.record.attempts) := by
    simp only [settleAnswer]
    split
    · trivial
    split
    · trivial
    split
    · trivial
    split
    · trivial
    · rfl
  refine (hsettle _ _).andThen fun b hb ↦ ?_
  simp only [backOff]
  split
  · trivial
  split
  · trivial
  · exact hb

/-- An attempt was left, and one was used up. -/
theorem pass_falls (a a' : Attempting) (h : job.pass a = .again a') :
    job.maxAttempts - satAdd8 job.priorAttempts a'.record.attempts <
      job.maxAttempts - satAdd8 job.priorAttempts a.record.attempts := by
  have hmax : job.maxAttempts ≤ 2 ^ 8 - 1 := min_le_right _ _
  obtain ⟨b, hgate, h⟩ := Pass.andThen_again.1 h
  obtain ⟨c, hspend, h⟩ := Pass.andThen_again.1 h
  obtain ⟨d, hgate', hattempt⟩ := Pass.andThen_again.1 h
  have hb := job.gate_counts "" a
  have hc := job.spend_counts b
  have hd := job.gate_counts " before retry" (job.space c)
  have ha' := job.attempt_counts d
  rw [hgate] at hb
  rw [hspend] at hc
  rw [hgate'] at hd
  rw [hattempt] at ha'
  simp only [Pass.Meets, Counted] at hb hc hd ha'
  have hspace : (job.space c).record = c.record := by
    rw [space]
    split
    · rfl
    · rfl
  rw [hspace] at hd
  rw [hb, satAdd8] at hc
  rw [ha', hd, hc.1]
  simp only [satAdd8]
  omega

/-- Attempt until there is a reason to stop. -/
def loop (a : Attempting) : Attempting :=
  Loop.run job.pass (fun a ↦ job.maxAttempts - satAdd8 job.priorAttempts a.record.attempts)
    job.pass_falls a

/-- `run_one`. -/
def run (t : Thread) : Attempting :=
  let (start, t) := t.readNow
  let (startedAtUnix, t) := t.readUnix
  (job.loop { thread := t, record := { state := .running, startedAtUnix := some startedAtUnix } }
    ).finish start

/-! ## What holds in the loop -/

/-- The least time between the starts of two attempts. -/
def spacing : ℕ := job.spec.rateLimit.elim 0 fun limit ↦ millis limit.minIntervalMs

/-- What the history of a job that began with thread `start` is, at every moment. -/
structure History (start : Thread) (a : Attempting) : Prop where
  later : start.Later a.thread
  count : a.record.attempts = a.attempts.length
  within : a.attempts.length ≤ job.maxAttempts - job.priorAttempts
  /-- The handler was given the job's own data, and the history has what it answered. -/
  asked : ∀ x ∈ a.attempts, (∃ n, x.context = job.context n x.started) ∧
    ∃ nonce, x.answer = job.handler nonce x.context
  times : ∀ x ∈ a.attempts, start.now ≤ x.started ∧ x.started ≤ a.thread.now
  last : a.lastAttemptStart = a.attempts.getLast?.map Attempt.started
  spaced : a.attempts.Pairwise fun x y ↦ x.started + job.spacing ≤ y.started
  /-- Whatever was followed by another attempt is a failure that could be retried. -/
  retried : ∀ x ∈ a.attempts.dropLast, ∃ message, x.answer = .failed ⟨message, true⟩

variable {job} {start : Thread} {a : Attempting}

variable {thread : Thread} {x : Attempt}

/-- Looking at the clock or the flag does not change a history. -/
theorem History.look (h : job.History start a)
    (hlater : a.thread.Later thread) : job.History start { a with thread } where
  later := h.later.trans hlater
  count := h.count
  within := h.within
  asked := h.asked
  times := fun x hx ↦ ⟨(h.times x hx).1, (h.times x hx).2.trans hlater.now⟩
  last := h.last
  spaced := h.spaced
  retried := h.retried

/-- A history is not about the record, but for the number of attempts. -/
theorem History.note (h : job.History start a)
    {record : TaskRecord} (hcount : record.attempts = a.record.attempts)
    (lastError : String) :
    job.History start { a with record, lastError } :=
  ⟨h.later, hcount.trans h.count, h.within, h.asked, h.times, h.last, h.spaced, h.retried⟩

/-- Nothing started after the last attempt. -/
theorem History.le_last (h : job.History start a)
    (hx : x ∈ a.attempts) {last : ℕ} (hlast : a.lastAttemptStart = some last) :
    x.started ≤ last := by
  rw [h.last] at hlast
  obtain ⟨y, hy, rfl⟩ := Option.map_eq_some_iff.1 hlast
  obtain ⟨before, hbefore⟩ := getLast?_eq_some_iff.1 hy
  have hspaced := h.spaced
  rw [hbefore] at hspaced hx
  rcases mem_append.1 hx with hx | hx
  · have := (pairwise_append.1 hspaced).2.2 x hx y (.head _)
    omega
  · rw [mem_singleton.1 hx]

theorem History.last_le (h : job.History start a) {last : ℕ} (hlast : a.lastAttemptStart = some last) :
    last ≤ a.thread.now := by
  rw [h.last] at hlast
  obtain ⟨x, hx, rfl⟩ := Option.map_eq_some_iff.1 hlast
  exact (h.times x (mem_of_getLast? hx)).2

variable (job start a)

/-- What holds whenever the loop goes round. -/
structure Going : Prop extends job.History start a where
  state : a.record.state = .running
  output : a.record.output = none
  error : a.record.error = none
  failing : ∀ x ∈ a.attempts, ∃ message, x.answer = .failed ⟨message, true⟩
  /-- An attempt is left, unless none was made. -/
  left : a.attempts = [] ∧ a.record.retryable = false ∧ a.lastError = "task did not execute" ∨
    satAdd8 job.priorAttempts a.record.attempts < job.maxAttempts

/-- How a job ends, the failure being the last that the record tells of. -/
inductive Verdict : Prop where
  | cancelled (state : a.record.state = .cancelled) (output : a.record.output = none)
      (stopped : a.thread.stopped = true)
  | timedOut (state : a.record.state = .timedOut) (output : a.record.output = none)
  | spent (state : a.record.state = .failed) (output : a.record.output = none)
      (none_left : job.maxAttempts ≤ job.priorAttempts) (attempts : a.attempts = [])
      (retryable : a.record.retryable = false) (lastError : a.lastError = "task did not execute")
  | succeeded (last : Attempt) (output : TaskOutput) (attempts : a.attempts.getLast? = some last)
      (judged : job.judge last.answer = .ok output) (state : a.record.state = .succeeded)
      (recorded : a.record.output = some output) (error : a.record.error = none)
      (retryable : a.record.retryable = false)
  | failed (last : Attempt) (failure : TaskFailure) (attempts : a.attempts.getLast? = some last)
      (judged : job.judge last.answer = .error failure) (state : a.record.state = .failed)
      (output : a.record.output = none) (retryable : a.record.retryable = failure.retryable)
      (lastError : a.lastError = failure.message)
      (none_left : failure.retryable = true →
        job.maxAttempts ≤ satAdd8 job.priorAttempts a.record.attempts)

/-- What holds when a job has left the loop. -/
structure Left : Prop extends job.History start a where
  verdict : job.Verdict a

/-- What holds when the handler has answered. -/
structure Asked (x : Attempt) : Prop
    extends job.History start a where
  state : a.record.state = .running
  output : a.record.output = none
  error : a.record.error = none
  retryable : a.record.retryable = false
  answered : a.attempts.getLast? = some x

variable {job start a}

theorem Going.look (h : job.Going start a) (hlater : a.thread.Later thread) :
    job.Going start { a with thread } :=
  { h.toHistory.look hlater with
    state := h.state, output := h.output, error := h.error, failing := h.failing, left := h.left }

theorem Going.cancel (h : job.Going start a) (hstopped : a.thread.stopped = true) {error : String} :
    job.Left start (a.stop .cancelled error) :=
  { h.toHistory.note rfl _ with verdict := .cancelled rfl h.output hstopped }

theorem Going.expire (h : job.Going start a) {error : String} :
    job.Left start (a.stop .timedOut error) :=
  { h.toHistory.note rfl _ with verdict := .timedOut rfl h.output }

/-- A gate that is passed was not stopped at, and is before the deadline. -/
theorem gate_meets (h : job.Going start a) (whenNoted : String) :
    (job.gate whenNoted a).Meets (job.Left start) fun a' ↦
      ∃ thread, a.thread.Later thread ∧ a.thread.stopped = false ∧ thread.now < job.runDeadline ∧
        a' = { a with thread } := by
  have hstop := Thread.later_readStop a.thread
  have hnow := hstop.trans (Thread.later_readNow _)
  simp only [gate]
  split
  · rename_i hstopped
    exact (h.look hstop).cancel hstopped
  · rename_i hrunning
    split
    · exact (h.look hnow).expire
    · rename_i hdeadline
      refine ⟨_, hnow, ?_, Nat.lt_of_not_le hdeadline, rfl⟩
      rw [Bool.eq_false_iff]
      exact fun hs ↦ hrunning (hstop.stopped hs)

theorem spend_meets (h : job.Going start a) :
    (job.spend a).Meets (job.Left start) fun a' ↦ a' = a ∧
      satAdd8 job.priorAttempts a.record.attempts < job.maxAttempts := by
  rw [spend]
  split
  · rename_i hspent
    rcases h.left with ⟨hnone, hretryable, herror⟩ | hleft
    · have hprior : job.maxAttempts ≤ job.priorAttempts := by
        rw [h.count, hnone, satAdd8] at hspent
        exact hspent.trans (min_le_left _ _)
      exact { h.toHistory.note rfl _ with
        verdict := .spent rfl h.output hprior hnone hretryable herror }
    · omega
  · rename_i hleft
    exact ⟨rfl, Nat.lt_of_not_le hleft⟩

/-- The wait for the rate limit ends when the next attempt may start, or with the run. -/
theorem space_eq (h : job.Going start a) : ∃ thread, a.thread.Later thread ∧
    job.space a = { a with thread } ∧ ∀ last, a.lastAttemptStart = some last →
      thread.stopped = true ∨ last + job.spacing ≤ thread.now ∨ job.runDeadline ≤ thread.now := by
  simp only [space, spacing]
  split
  · rename_i limit last hlimit hlast
    refine ⟨_, Thread.later_wait _ _ _ waitSlice_pos _, rfl, fun last' hlast' ↦ ?_⟩
    rw [hlast] at hlast'
    cases hlast'
    rw [hlimit]
    exact Thread.wait_ends _ _ _ waitSlice_pos _
  · rename_i hnot
    refine ⟨_, Thread.Later.refl _, rfl, fun last hlast ↦ .inr (.inl ?_)⟩
    cases hlimit : job.spec.rateLimit with
    | none => exact h.last_le hlast
    | some limit => exact absurd hlast (hnot limit last hlimit)

/-- A call adds one attempt to the history. -/
theorem call_asked (h : job.Going start a)
    (hleft : satAdd8 job.priorAttempts a.record.attempts < job.maxAttempts)
    (hspaced : ∀ last, a.lastAttemptStart = some last → last + job.spacing ≤ a.thread.now) :
    job.Asked start (job.call a).2 (job.call a).1 := by
  have hnow := Thread.later_readNow a.thread
  have hawait := Thread.later_await a.thread.readNow.2
  have hmax : job.maxAttempts ≤ 2 ^ 8 - 1 := min_le_right _ _
  have hlength : job.priorAttempts + a.attempts.length < job.maxAttempts := by
    rw [h.count, satAdd8] at hleft
    omega
  refine
    { later := h.later.trans (hnow.trans hawait)
      count := ?_
      within := ?_
      asked := ?_
      times := ?_
      last := by simp [call]
      spaced := ?_
      retried := by simpa [call] using h.failing
      state := h.state
      output := h.output
      error := h.error
      retryable := rfl
      answered := by simp [call] }
  · simp only [call, length_append, length_singleton, h.count, satAdd8]
    omega
  · simp only [call, length_append, length_singleton]
    omega
  · intro x hx
    rcases mem_append.1 hx with hx | hx
    · exact h.asked x hx
    · rw [mem_singleton.1 hx]
      exact ⟨⟨_, rfl⟩, ⟨_, rfl⟩⟩
  · intro x hx
    rcases mem_append.1 hx with hx | hx
    · have := h.times x hx
      exact ⟨this.1, this.2.trans (hnow.trans hawait).now⟩
    · rw [mem_singleton.1 hx]
      exact ⟨(h.later.trans hnow).now, hawait.now⟩
  · refine pairwise_append.2 ⟨h.spaced, pairwise_singleton _ _, fun x hx y hy ↦ ?_⟩
    rw [mem_singleton.1 hy]
    obtain ⟨last, hlast⟩ : ∃ last, a.lastAttemptStart = some last := by
      rw [h.last]
      cases hgl : a.attempts.getLast? with
      | none => simp [getLast?_eq_none_iff.1 hgl] at hx
      | some y => exact ⟨_, rfl⟩
    have hle := h.le_last hx hlast
    have hspace := hspaced last hlast
    have := hnow.now
    exact (Nat.add_le_add_right hle _).trans (hspace.trans this)

theorem Asked.look (h : job.Asked start a x)
    (hlater : a.thread.Later thread) : job.Asked start { a with thread } x :=
  { h.toHistory.look hlater with
    state := h.state, output := h.output, error := h.error, retryable := h.retryable
    answered := h.answered }

/-- Only a failure of the handler's own can be retried. -/
theorem judge_retryable {answer : Answer} {failure : TaskFailure}
    (h : job.judge answer = .error failure) (hretryable : failure.retryable = true) :
    answer = .failed failure := by
  rw [judge.eq_def] at h
  split at h
  · split at h
    · cases h
    · cases h
      cases hretryable
  · cases h
    rfl
  · cases h
    cases hretryable

theorem settleAnswer_meets (h : job.Asked start a x) :
    (job.settleAnswer x a).Meets (job.Left start) (job.Going start) := by
  have hstop := Thread.later_readStop a.thread
  have hnow := hstop.trans (Thread.later_readNow _)
  simp only [settleAnswer]
  split
  · rename_i hstopped
    rw [Bool.and_eq_true] at hstopped
    exact { (h.look hstop).toHistory.note rfl _ with
      verdict := .cancelled rfl h.output hstopped.1 }
  have hlook := h.look hnow
  split
  · exact { hlook.toHistory.note rfl _ with verdict := .timedOut rfl h.output }
  split
  · rename_i output hjudged
    exact { hlook.toHistory.note rfl a.lastError with
      verdict := .succeeded x output h.answered hjudged rfl rfl rfl rfl }
  · rename_i failure hjudged
    split
    · rename_i hend
      exact { hlook.toHistory.note rfl failure.message with
        verdict := .failed x failure h.answered hjudged rfl h.output rfl rfl
          fun hretryable ↦ hend.resolve_left (not_not.2 hretryable) }
    · rename_i hend
      rw [not_or, not_not] at hend
      have hanswer := judge_retryable hjudged hend.1
      refine
        { hlook.toHistory.note rfl failure.message with
          state := h.state
          output := h.output
          error := h.error
          failing := fun y hy ↦ ?_
          left := .inr (Nat.lt_of_not_le hend.2) }
      obtain ⟨before, hbefore⟩ := getLast?_eq_some_iff.1 h.answered
      have hretried := h.retried
      rw [hbefore, dropLast_concat] at hretried
      rw [hbefore] at hy
      rcases mem_append.1 hy with hy | hy
      · exact hretried y hy
      · rw [mem_singleton.1 hy]
        exact ⟨failure.message, by rw [hanswer, ← hend.1]⟩

theorem backOff_meets {elapsed : ℕ} (h : job.Going start a) :
    (job.backOff x elapsed a).Meets (job.Left start) (job.Going start) := by
  have hnow := Thread.later_readNow a.thread
  have hwait (until_ deadline : ℕ) :=
    (hnow.trans (Thread.later_readNow _)).trans
      (Thread.later_wait waitSlice until_ deadline waitSlice_pos _)
  simp only [backOff]
  split
  · exact (h.look hnow).expire
  split
  · exact (h.look (hwait _ _)).expire
  · exact h.look (hwait _ _)

theorem attempt_meets (h : job.Going start a)
    (hleft : satAdd8 job.priorAttempts a.record.attempts < job.maxAttempts)
    (hspaced : ∀ last, a.lastAttemptStart = some last → last + job.spacing ≤ a.thread.now) :
    (job.attempt a).Meets (job.Left start) (job.Going start) :=
  (settleAnswer_meets ((call_asked h hleft hspaced).look (Thread.later_readNow _))).andThen
    fun _ hgoing ↦ backOff_meets hgoing

/-- **One pass** of the loop. -/
theorem pass_meets (h : job.Going start a) :
    (job.pass a).Meets (job.Left start) (job.Going start) := by
  refine (gate_meets h "").andThen ?_
  rintro _ ⟨thread, hlater, _, _, rfl⟩
  refine (spend_meets (h.look hlater)).andThen ?_
  rintro _ ⟨rfl, hleft⟩
  obtain ⟨thread', hlater', hspace, hwaited⟩ := space_eq (h.look hlater)
  rw [hspace]
  refine (gate_meets ((h.look hlater).look hlater') " before retry").andThen ?_
  rintro _ ⟨thread'', hlater'', hrunning, hdeadline, rfl⟩
  refine attempt_meets (((h.look hlater).look hlater').look hlater'') hleft fun last hlast ↦ ?_
  rcases hwaited last hlast with hstopped | hspaced | hexpired
  · exact absurd hstopped (Bool.eq_false_iff.1 hrunning)
  · exact hspaced.trans hlater''.now
  · exact absurd (hexpired.trans hlater''.now) (Nat.not_le_of_lt hdeadline)

theorem Verdict.terminal (h : job.Verdict a) : a.record.state.terminal = true := by
  cases h with
  | cancelled state _ _ => rw [state]; rfl
  | timedOut state _ => rw [state]; rfl
  | spent state _ _ _ _ _ => rw [state]; rfl
  | succeeded _ _ _ _ state _ _ _ => rw [state]; rfl
  | failed _ _ _ _ state _ _ _ _ => rw [state]; rfl

/-- Only what succeeded has an output. -/
theorem Verdict.output_none (h : job.Verdict a) (hstate : a.record.state ≠ .succeeded) :
    a.record.output = none := by
  cases h with
  | cancelled _ output _ => exact output
  | timedOut _ output => exact output
  | spent _ output _ _ _ _ => exact output
  | succeeded _ _ _ _ state _ _ _ => exact absurd state hstate
  | failed _ _ _ _ _ output _ _ _ => exact output

/-- An output that was recorded was accepted, with the producer's output among the dependencies'. -/
theorem Verdict.validated (h : job.Verdict a) (hstate : a.record.state = .succeeded) :
    a.attempts ≠ [] ∧ ∃ output, a.record.output = some output ∧
      validateOutputAndLineage job.enc job.spec output job.maxOutputBytes
        job.dependencyOutputs[output.verification.producerId]? = .ok () := by
  cases h with
  | cancelled state _ _ => simp [hstate] at state
  | timedOut state _ => simp [hstate] at state
  | spent state _ _ _ _ _ => simp [hstate] at state
  | failed _ _ _ _ state _ _ _ _ => simp [hstate] at state
  | succeeded last output attempts judged _ recorded _ _ =>
    refine ⟨fun hnil ↦ by simp [hnil] at attempts, output, recorded, ?_⟩
    rw [judge.eq_def] at judged
    split at judged
    · split at judged
      · rename_i hvalid
        cases judged
        exact hvalid
      · cases judged
    · cases judged
    · cases judged

/-- What holds when a job is over. -/
structure Ended (start : Thread) (a : Attempting) : Prop extends job.Left start a where
  /-- What did not succeed has its last error. -/
  error : a.record.state ≠ .succeeded → a.record.error = some a.lastError

theorem loop_left (h : job.Going start a) : job.Left start (job.loop a) :=
  Loop.run_meets (job.Going start) (job.Left start) (fun _ hgoing ↦ pass_meets hgoing) h

/-- Completing the record changes nothing that a verdict is about. -/
theorem Verdict.complete (h : job.Verdict a) (hlater : a.thread.Later thread)
    {record : TaskRecord} (hstate : record.state = a.record.state)
    (houtput : record.output = a.record.output) (hretryable : record.retryable = a.record.retryable)
    (hattempts : record.attempts = a.record.attempts)
    (herror : a.record.state = .succeeded → record.error = a.record.error) :
    job.Verdict { a with thread, record } := by
  cases h with
  | cancelled state output stopped =>
    exact .cancelled (hstate.trans state) (houtput.trans output) (hlater.stopped stopped)
  | timedOut state output => exact .timedOut (hstate.trans state) (houtput.trans output)
  | spent state output none_left attempts retryable lastError =>
    exact .spent (hstate.trans state) (houtput.trans output) none_left attempts
      (hretryable.trans retryable) lastError
  | succeeded last output attempts judged state recorded error retryable =>
    exact .succeeded last output attempts judged (hstate.trans state) (houtput.trans recorded)
      ((herror state).trans error) (hretryable.trans retryable)
  | failed last failure attempts judged state output retryable lastError none_left =>
    exact .failed last failure attempts judged (hstate.trans state) (houtput.trans output)
      (hretryable.trans retryable) lastError (by rwa [hattempts])

theorem Left.finish (h : job.Left start a) (began : ℕ) : job.Ended start (a.finish began) := by
  have hlater := (Thread.later_readUnix a.thread).trans (Thread.later_readNow _)
  have hhistory := h.toHistory.look hlater
  simp only [Attempting.finish]
  split
  · rename_i hsuccess
    exact { hhistory.note rfl a.lastError with
      verdict := h.verdict.complete hlater rfl rfl rfl rfl fun _ ↦ rfl
      error := fun hstate ↦ by
        cases hs : a.record.state <;> simp_all [TaskState.successful] }
  · rename_i hfailure
    exact { hhistory.note rfl a.lastError with
      verdict := h.verdict.complete hlater rfl rfl rfl rfl fun hs ↦ by
        simp [hs, TaskState.successful] at hfailure
      error := fun _ ↦ rfl }

variable (job) in
/-- **Every job ends**, in one of the ways of `Job.Verdict` and with a sound history. -/
theorem run_ended (t : Thread) : job.Ended t (job.run t) := by
  have hstart := (Thread.later_readNow t).trans (Thread.later_readUnix _)
  have hgoing : job.Going t {
      thread := t.readNow.2.readUnix.2
      record := { state := .running, startedAtUnix := some t.readNow.2.readUnix.1 } } := {
    later := hstart
    count := rfl
    within := Nat.zero_le _
    asked := by simp
    times := by simp
    last := rfl
    spaced := List.Pairwise.nil
    retried := by simp
    state := rfl
    output := rfl
    error := rfl
    failing := by simp
    left := .inl ⟨rfl, rfl, rfl⟩ }
  exact (loop_left hgoing).finish _

end Job

end Huntsman.Graph
