import Huntsman.Lib.Loop
import Mathlib.Order.Nat

/-!
# Threads, clocks and a stop that stays

A `Thread` is what one thread of a concurrent program can observe of the world: a monotonic clock, a
wall clock, a stop flag that other threads may raise, and whatever else an answer from outside may
depend on.  What it is going to observe is its *script*, one `Tick` for every observation.  A
theorem about every script is a theorem about every schedule, every jump of the wall clock and every
moment at which the stop may come.

Two things hold however the script goes, because they hold of the observations themselves: the
monotonic clock never runs backwards, and a stop that was observed stays.  `Thread.Later` is the
relation between a thread and the same thread after some observations.

Instants are nanoseconds.  `Thread.sleep` sleeps at least as long as it is asked to.
-/

set_option autoImplicit false

/-- What happens before one observation of a thread. -/
structure Tick where
  /-- The nanoseconds that pass. -/
  elapsed : ℕ
  /-- What the wall clock then shows, in nanoseconds since the Unix epoch. -/
  wall : ℕ
  /-- Whether the stop flag is raised. -/
  stop : Bool
  /-- Whatever else an answer from outside depends on. -/
  nonce : ℕ

/-- A thread: what it is going to observe, and what it observed last. -/
structure Thread where
  script : ℕ → Tick
  /-- The monotonic clock. -/
  now : ℕ
  /-- Whether the stop flag was raised. -/
  stopped : Bool

namespace Thread

/-- One observation: the thread is where the next tick of its script takes it. -/
def observe (t : Thread) : Tick × Thread :=
  (t.script 0, {
    script := fun n ↦ t.script (n + 1)
    now := t.now + (t.script 0).elapsed
    stopped := t.stopped || (t.script 0).stop })

/-- Read the stop flag. -/
def readStop (t : Thread) : Bool × Thread :=
  (t.observe.2.stopped, t.observe.2)

/-- Read the monotonic clock. -/
def readNow (t : Thread) : ℕ × Thread :=
  (t.observe.2.now, t.observe.2)

/-- Read the wall clock, in whole seconds. -/
def readUnix (t : Thread) : ℕ × Thread :=
  (t.observe.1.wall / 10 ^ 9, t.observe.2)

/-- Read the wall clock, in whole milliseconds. -/
def readUnixMillis (t : Thread) : ℕ × Thread :=
  (t.observe.1.wall / 10 ^ 6, t.observe.2)

/-- Have something done outside, whose answer may depend on the nonce. -/
def await (t : Thread) : ℕ × Thread :=
  (t.observe.1.nonce, t.observe.2)

/-- Sleep for at least `duration`. -/
def sleep (t : Thread) (duration : ℕ) : Thread :=
  { t.observe.2 with now := t.now + max duration (t.script 0).elapsed }

/-- The thread that starts another: the other begins where this one is, with a script of its own. -/
def spawn (t : Thread) (script : ℕ → Tick) : Thread := { t with script }

/-- Wait for another thread to end. -/
def join (t other : Thread) : Thread :=
  { t with now := max t.now other.now, stopped := t.stopped || other.stopped }

/-- `t'` is `t` after some observations. -/
structure Later (t t' : Thread) : Prop where
  /-- The clock does not run backwards. -/
  now : t.now ≤ t'.now
  /-- A stop stays. -/
  stopped : t.stopped = true → t'.stopped = true

theorem Later.refl (t : Thread) : t.Later t := ⟨le_rfl, id⟩

theorem Later.trans {a b c : Thread} (h : a.Later b) (h' : b.Later c) : a.Later c :=
  ⟨h.now.trans h'.now, fun hs ↦ h'.stopped (h.stopped hs)⟩

theorem later_observe (t : Thread) : t.Later t.observe.2 :=
  ⟨Nat.le_add_right _ _, fun h ↦ by simp [observe, h]⟩

theorem later_readStop (t : Thread) : t.Later t.readStop.2 := later_observe t

theorem later_readNow (t : Thread) : t.Later t.readNow.2 := later_observe t

theorem later_readUnix (t : Thread) : t.Later t.readUnix.2 := later_observe t

theorem later_readUnixMillis (t : Thread) : t.Later t.readUnixMillis.2 := later_observe t

theorem later_await (t : Thread) : t.Later t.await.2 := later_observe t

/-- What the clock was read to show, it shows. -/
theorem readNow_fst (t : Thread) : t.readNow.1 = t.readNow.2.now := rfl

theorem later_sleep (t : Thread) (duration : ℕ) : t.Later (t.sleep duration) :=
  ⟨Nat.le_add_right _ _, (later_observe t).stopped⟩

theorem sleep_now (t : Thread) (duration : ℕ) : t.now + duration ≤ (t.sleep duration).now :=
  Nat.add_le_add_left (le_max_left _ _) _

theorem later_join (t other : Thread) : t.Later (t.join other) :=
  ⟨le_max_left _ _, fun h ↦ by simp [join, h]⟩

/-- Waiting for all of several threads to end. -/
def joinAll (t : Thread) (others : List Thread) : Thread := others.foldl join t

theorem later_joinAll (t : Thread) (others : List Thread) : t.Later (t.joinAll others) := by
  induction others generalizing t with
  | nil => exact Later.refl t
  | cons other others ih => exact (later_join t other).trans (ih _)

theorem joinAll_now {t other : Thread} {others : List Thread} (h : other ∈ others) :
    other.now ≤ (t.joinAll others).now := by
  induction others generalizing t with
  | nil => cases h
  | cons first others ih =>
    rcases List.mem_cons.1 h with rfl | h
    · exact (le_max_right _ _).trans (later_joinAll (t.join other) others).now
    · exact ih h

/-! ## Waiting in slices -/

section Wait

variable (slice until_ deadline : ℕ)

/-- One pass of a wait: leave on a stop, when the time has come or when the deadline has, else
sleep one slice. -/
def waitPass (t : Thread) : Pass Thread Thread :=
  let (stop, t) := t.readStop
  if stop then .leave t
  else
    let (now, t) := t.readNow
    let remaining := min (until_ - now) (deadline - now)
    if remaining = 0 then .leave t else .again (t.sleep (min remaining slice))

theorem waitPass_falls (hslice : 0 < slice) (t t' : Thread)
    (h : waitPass slice until_ deadline t = .again t') :
    min until_ deadline - t'.now < min until_ deadline - t.now := by
  simp only [waitPass] at h
  split at h
  · cases h
  split at h
  · cases h
  rename_i hremaining
  cases h
  rw [readNow_fst] at hremaining ⊢
  have hlater := ((later_readStop t).trans (later_readNow _)).now
  have hsleep := sleep_now t.readStop.2.readNow.2
    (min (min (until_ - t.readStop.2.readNow.2.now) (deadline - t.readStop.2.readNow.2.now)) slice)
  omega

/-- Wait until an instant, unless a stop or the deadline comes first, looking up every slice. -/
def wait (hslice : 0 < slice) (t : Thread) : Thread :=
  Loop.run (waitPass slice until_ deadline) (fun t ↦ min until_ deadline - t.now)
    (waitPass_falls slice until_ deadline hslice) t

theorem later_waitPass (t : Thread) : t.Later (waitPass slice until_ deadline t).locals := by
  have hstop := later_readStop t
  have hnow := hstop.trans (later_readNow _)
  simp only [waitPass]
  split
  · exact hstop
  split
  · exact hnow
  · exact hnow.trans (later_sleep _ _)

theorem later_wait (hslice : 0 < slice) (t : Thread) :
    t.Later (wait slice until_ deadline hslice t) := by
  refine Loop.run_inv (fun s ↦ t.Later s) (fun s ↦ t.Later s) ?_ ?_ (Later.refl t)
  · intro s s' hs h
    have := later_waitPass slice until_ deadline s
    rw [h] at this
    exact hs.trans this
  · intro s s' hs h
    have := later_waitPass slice until_ deadline s
    rw [h] at this
    exact hs.trans this

/-- **A wait ends for one of three reasons**: a stop, the time, or the deadline. -/
theorem wait_ends (hslice : 0 < slice) (t : Thread) :
    (wait slice until_ deadline hslice t).stopped = true ∨
      until_ ≤ (wait slice until_ deadline hslice t).now ∨
      deadline ≤ (wait slice until_ deadline hslice t).now := by
  refine Loop.run_inv (fun _ ↦ True)
    (fun s : Thread ↦ s.stopped = true ∨ until_ ≤ s.now ∨ deadline ≤ s.now)
    (fun _ _ _ _ ↦ trivial) ?_ trivial
  intro s s' _ h
  simp only [waitPass] at h
  split at h
  · rename_i hstop
    cases h
    exact .inl hstop
  split at h
  · rename_i hremaining
    cases h
    rw [readNow_fst] at hremaining
    right
    omega
  · cases h

end Wait

end Thread
