import Huntsman.Lib.Slots
import Huntsman.Lib.Transitions
import Mathlib.Algebra.Ring.Nat
import Std.Data.String.ToNat

/-!
# The lock of a file

A writer locks a file by creating its lock file, exclusively, and writes its name into it: its
process id and a number.  When it is done it removes the lock file, but not before it has looked
whether the file is still its own.  A writer whose name cannot be written removes the lock file
without looking.

Between any two system calls of a writer the others may do anything, the process may end, and an
operator may delete the lock file.  Until that happens the lock is held by one writer at a time, and
no writer removes another's (`lock_kept`).  When an operator deletes the file of a writer that is
not going to look at it again, that writer removes the lock of the next one (`lock_removed`).
-/

set_option autoImplicit false

namespace Huntsman.Lock

open List Option Transitions

/-! ## Processes, files and writers -/

structure Process where
  id : ℕ
  /-- `LOCKS_TAKEN`. -/
  taken : ℕ
  alive : Bool
deriving DecidableEq

/-- A lock file.  One that is created later may have the inode of one that was deleted. -/
structure File where
  creator : ℕ
  inode : ℕ
  body : String
deriving DecidableEq

/-- What a writer has done so far. -/
inductive Phase where
  /-- It has no lock yet. -/
  | trying
  | created
  | examined
  /-- The lock file could not be examined or written. -/
  | failed
  /-- `acquire` has returned. -/
  | held
  /-- `drop` has found the inode at the path. -/
  | matched
  /-- `read_bounded` has found this inode at the path. -/
  | linked (inode : ℕ)
  /-- `read_bounded` has opened this file. -/
  | opened (inode file : ℕ)
  /-- `drop` has found the lock to be its own. -/
  | confirmed
  | over
deriving DecidableEq

/-- A writer: a call of `acquire` and the `ExclusiveLock` it returns. -/
structure Writer where
  process : ℕ
  phase : Phase
  /-- The file it created. -/
  file : ℕ
  inode : ℕ
  holder : String
deriving DecidableEq

/-- All processes, lock files and writers there were, and the file that is at the path. -/
structure State where
  processes : List Process
  files : List File
  path : Option ℕ
  writers : List Writer
deriving DecidableEq

def initial : State where
  processes := []
  files := []
  path := none
  writers := []

def maxLockBytes : ℕ := 64

/-- What the `seq`th lock of a process holds. -/
def holderName (id seq : ℕ) : String := id.repr ++ " " ++ seq.repr

/-! ## Steps -/

/-- What happens next.  A flag says whether a system call succeeds that could. -/
inductive Action where
  | spawn (id : ℕ)
  | crash (process : ℕ)
  | acquire (process : ℕ)
  /-- The writer tries to create the lock file, which would have this inode. -/
  | create (writer inode : ℕ)
  /-- The writer has waited long enough, or the file cannot be created. -/
  | refuse (writer : ℕ)
  /-- The writer makes a system call that changes nothing. -/
  | look (writer : ℕ) (ok : Bool)
  /-- The writer writes its name, or only so many characters of it. -/
  | write (writer : ℕ) (stopped : Option ℕ)
  | remove (writer : ℕ) (ok : Bool)
  /-- The operator deletes the lock file. -/
  | delete
deriving DecidableEq

namespace State

def alive (s : State) (process : ℕ) : Bool := s.processes[process]?.any (·.alive)

/-- A writer whose process has not ended. -/
def live (s : State) (writer : ℕ) : Option Writer :=
  s.writers[writer]?.filter fun w ↦ s.alive w.process

def move (s : State) (writer : ℕ) (w : Writer) (phase : Phase) : State :=
  { s with writers := s.writers.set writer { w with phase } }

/-- The lock file at the path. -/
def linked (s : State) : Option File := s.path.bind (s.files[·]?)

end State

/-- What a writer does after a system call that changes nothing: `metadata` in `acquire`, and what
`drop` does until it removes the lock. -/
def Writer.look (w : Writer) (s : State) (ok : Bool) : Option Phase :=
  match w.phase with
  | .created => some (if ok then .examined else .failed)
  | .held => some <|
    match s.linked with
    | some current => if ok ∧ current.inode = w.inode then .matched else .over
    | none => .over
  | .matched => some <|
    match s.linked with
    | some current => if ok then .linked current.inode else .over
    | none => .over
  | .linked inode => some <|
    match s.path with
    | some file => if ok then .opened inode file else .over
    | none => .over
  | .opened inode file => some <|
    match s.files[file]? with
    | some opened =>
      if ok ∧ opened.inode = inode ∧ opened.body.utf8ByteSize ≤ maxLockBytes ∧
        opened.body = w.holder then .confirmed else .over
    | none => .over
  | _ => none

/-- What is left in a lock file when the writer's name could be written only in part. -/
def Writer.written (w : Writer) : Option ℕ → String
  | none => w.holder
  | some stopped => .ofList (w.holder.toList.take stopped)

def step (s : State) : Action → Option State
  | .spawn id =>
    if ∀ p ∈ s.processes, p.alive = true → p.id ≠ id then
      some { s with processes := s.processes ++ [⟨id, 0, true⟩] }
    else none
  | .crash process => do
    let p ← s.processes[process]?
    some { s with processes := s.processes.set process { p with alive := false } }
  | .acquire process =>
    if s.alive process then some { s with writers := s.writers ++ [⟨process, .trying, 0, 0, ""⟩] }
    else none
  | .create writer inode => do
    let w ← s.live writer
    let p ← s.processes[w.process]?
    if w.phase = .trying then
      if s.path.isSome then some s
      else some {
        processes := s.processes.set w.process { p with taken := p.taken + 1 }
        files := s.files ++ [⟨writer, inode, ""⟩]
        path := some s.files.length
        writers := s.writers.set writer {
          process := w.process
          phase := .created
          file := s.files.length
          inode := inode
          holder := holderName p.id (p.taken % 2 ^ 64) } }
    else none
  | .refuse writer => do
    let w ← s.live writer
    if w.phase = .trying then some (s.move writer w .over) else none
  | .look writer ok => do
    let w ← s.live writer
    let phase ← w.look s ok
    some (s.move writer w phase)
  | .write writer stopped => do
    let w ← s.live writer
    let f ← s.files[w.file]?
    if w.phase = .examined then
      some { s.move writer w (if stopped.isNone then .held else .failed) with
        files := s.files.set w.file { f with body := w.written stopped } }
    else none
  | .remove writer ok => do
    let w ← s.live writer
    if w.phase = .failed ∨ w.phase = .confirmed then
      some { s.move writer w .over with path := if ok then none else s.path }
    else none
  | .delete => some { s with path := none }

/-! ## What is to be kept -/

/-- A writer that has created a lock file and has not given it up. -/
def Phase.owns : Phase → Bool
  | .trying | .over => false
  | _ => true

/-- `acquire` has returned the lock, and `drop` is not through with it. -/
def Phase.holds : Phase → Bool
  | .held | .matched | .linked _ | .opened _ _ | .confirmed => true
  | _ => false

/-- The writer is going to remove the lock file and will not look again whether it is its own. -/
def Writer.committed (w : Writer) : Bool :=
  match w.phase with
  | .created | .examined | .failed | .confirmed => true
  | .opened _ file => file == w.file
  | _ => false

/-- No two writers hold the lock. -/
def Exclusive (s : State) : Prop :=
  ∀ (i j : ℕ) (w w' : Writer), s.writers[i]? = some w → s.writers[j]? = some w' →
    w.phase.holds = true → w'.phase.holds = true → i = j

/-- A writer that removes a lock file has created it, and its process has not ended. -/
def Spares (s : State) (action : Action) : Prop :=
  ∀ writer ok, action = .remove writer ok → ∀ file, s.path = some file →
    (∃ f, s.files[file]? = some f ∧ f.creator = writer) ∧ (s.live writer).isSome = true

/-- The operator does not delete the lock file of a writer that will not look at it again; what is
left of a name is not another's; and the numbers of a process's locks are not used up. -/
def Careful (s : State) : Action → Prop
  | .delete => ∀ file f w, s.path = some file → s.files[file]? = some f →
      s.live f.creator = some w → w.committed = false
  | .write writer (some stopped) => ∀ w other w', s.live writer = some w →
      s.live other = some w' → other ≠ writer → w'.phase.owns = true →
        w.written (some stopped) ≠ w'.holder
  | .create writer _ => ∀ w p, s.live writer = some w → s.processes[w.process]? = some p →
      p.taken < 2 ^ 64
  | _ => True

/-! ## What a step can do -/

variable {s s' : State} {action : Action} {writer : ℕ} {w : Writer}

theorem State.live_eq_some :
    s.live writer = some w ↔ s.writers[writer]? = some w ∧ s.alive w.process = true := by
  simp [State.live, filter_eq_some_iff]

theorem State.alive_iff {process : ℕ} :
    s.alive process = true ↔ ∃ p, s.processes[process]? = some p ∧ p.alive = true := by
  rw [State.alive, Option.any_eq_true]

/-- What a step can do. -/
inductive Step (s : State) : Action → State → Prop where
  | spawn (id : ℕ) (h : ∀ p ∈ s.processes, p.alive = true → p.id ≠ id) :
      Step s (.spawn id) { s with processes := s.processes ++ [⟨id, 0, true⟩] }
  | crash {process : ℕ} {p : Process} (hp : s.processes[process]? = some p) :
      Step s (.crash process)
        { s with processes := s.processes.set process { p with alive := false } }
  | acquire {process : ℕ} (h : s.alive process = true) :
      Step s (.acquire process) { s with writers := s.writers ++ [⟨process, .trying, 0, 0, ""⟩] }
  | wait (writer inode : ℕ) : Step s (.create writer inode) s
  | create {writer : ℕ} {w : Writer} {p : Process} (inode : ℕ) (hw : s.live writer = some w)
      (hp : s.processes[w.process]? = some p) (htrying : w.phase = .trying) (hpath : s.path = none) :
      Step s (.create writer inode) {
        processes := s.processes.set w.process { p with taken := p.taken + 1 }
        files := s.files ++ [⟨writer, inode, ""⟩]
        path := some s.files.length
        writers := s.writers.set writer {
          process := w.process
          phase := .created
          file := s.files.length
          inode := inode
          holder := holderName p.id (p.taken % 2 ^ 64) } }
  | refuse {writer : ℕ} {w : Writer} (hw : s.live writer = some w) (htrying : w.phase = .trying) :
      Step s (.refuse writer) (s.move writer w .over)
  | look {writer : ℕ} {w : Writer} {phase : Phase} (ok : Bool) (hw : s.live writer = some w)
      (hlook : w.look s ok = some phase) : Step s (.look writer ok) (s.move writer w phase)
  | write {writer : ℕ} {w : Writer} {f : File} {phase : Phase} (stopped : Option ℕ)
      (hw : s.live writer = some w) (hf : s.files[w.file]? = some f)
      (hexamined : w.phase = .examined) (howns : phase.owns = true)
      (hopened : ∀ inode file, phase ≠ .opened inode file) :
      Step s (.write writer stopped) { s.move writer w phase with
        files := s.files.set w.file { f with body := w.written stopped } }
  | remove {writer : ℕ} {w : Writer} {path : Option ℕ} (ok : Bool) (hw : s.live writer = some w)
      (hphase : w.phase = .failed ∨ w.phase = .confirmed) (hpath : path = none ∨ path = s.path) :
      Step s (.remove writer ok) { s.move writer w .over with path }
  | delete : Step s .delete { s with path := none }

theorem step_cases (h : step s action = some s') : Step s action s' := by
  cases action with
  | spawn id =>
    simp only [step, ite_none_right_eq_some, some.injEq] at h
    obtain ⟨hid, rfl⟩ := h
    exact .spawn id hid
  | crash process =>
    simp only [step, bind_eq_bind, bind_eq_some_iff, some.injEq] at h
    obtain ⟨p, hp, rfl⟩ := h
    exact .crash hp
  | acquire process =>
    simp only [step, ite_none_right_eq_some, some.injEq] at h
    obtain ⟨halive, rfl⟩ := h
    exact .acquire halive
  | create writer inode =>
    simp only [step, bind_eq_bind, bind_eq_some_iff,
      ite_none_right_eq_some] at h
    obtain ⟨w, hw, p, hp, htrying, h⟩ := h
    split at h
    · cases h
      exact .wait writer inode
    · next hpath =>
      cases h
      exact .create inode hw hp htrying (by simpa using hpath)
  | refuse writer =>
    simp only [step, bind_eq_bind, bind_eq_some_iff, ite_none_right_eq_some,
      some.injEq] at h
    obtain ⟨w, hw, htrying, rfl⟩ := h
    exact .refuse hw htrying
  | look writer ok =>
    simp only [step, bind_eq_bind, bind_eq_some_iff, some.injEq] at h
    obtain ⟨w, hw, phase, hphase, rfl⟩ := h
    exact .look ok hw hphase
  | write writer stopped =>
    simp only [step, bind_eq_bind, bind_eq_some_iff, ite_none_right_eq_some,
      some.injEq] at h
    obtain ⟨w, hw, f, hf, hexamined, rfl⟩ := h
    refine .write stopped hw hf hexamined ?_ fun inode file ↦ ?_ <;> split <;> simp [Phase.owns]
  | remove writer ok =>
    simp only [step, bind_eq_bind, bind_eq_some_iff, ite_none_right_eq_some,
      some.injEq] at h
    obtain ⟨w, hw, hphase, rfl⟩ := h
    refine .remove ok hw hphase ?_
    cases ok <;> simp
  | delete =>
    cases h
    exact .delete


/-! ## Whose the file at the path is -/

/-- A writer that is counted on to own the file at the path: one that is committed to removing it,
or, if nobody deletes it (`kept`), any that has not given it up. -/
def Guarded (kept : Bool) (s : State) (w : Writer) : Prop :=
  w.phase.owns = true ∧ (kept = true ∨ s.alive w.process = true ∧ w.committed = true)

structure Owned (kept : Bool) (s : State) : Prop where
  path : ∀ file, s.path = some file → file < s.files.length
  process : ∀ (i : ℕ) (w : Writer), s.writers[i]? = some w → w.process < s.processes.length
  own : ∀ (i : ℕ) (w : Writer), s.writers[i]? = some w → w.phase.owns = true →
    ∃ f : File, s.files[w.file]? = some f ∧ f.creator = i
  guarded : ∀ (i : ℕ) (w : Writer), s.writers[i]? = some w → Guarded kept s w →
    s.path = some w.file

/-- What the writers of a state are after one of them has gone on. -/
theorem writers_move {i j : ℕ} {w' : Writer} {phase : Phase}
    (h : (s.move i w phase).writers[j]? = some w') :
    (j = i ∧ w' = { w with phase }) ∨ (j ≠ i ∧ s.writers[j]? = some w') :=
  getElem?_set_cases h

theorem Guarded.of_alive {kept : Bool} (h : Guarded kept s' w)
    (halive : s'.alive w.process = true → s.alive w.process = true) : Guarded kept s w :=
  ⟨h.1, h.2.imp_right (And.imp_left halive)⟩

/-- A process that has not ended after a step had not ended before. -/
theorem Step.alive (hstep : Step s action s') {q : ℕ} (hq : q < s.processes.length)
    (h : s'.alive q = true) : s.alive q = true := by
  cases hstep with
  | spawn => rwa [State.alive, getElem?_append_left hq] at h
  | crash =>
    obtain ⟨p, hp, halive⟩ := State.alive_iff.1 h
    rcases getElem?_set_cases hp with ⟨-, rfl⟩ | ⟨-, hp⟩
    · simp at halive
    · exact State.alive_iff.2 ⟨p, hp, halive⟩
  | create inode hw =>
    obtain ⟨p, hp, halive⟩ := State.alive_iff.1 h
    rcases getElem?_set_cases hp with ⟨rfl, rfl⟩ | ⟨-, hp⟩
    · exact (State.live_eq_some.1 hw).2
    · exact State.alive_iff.2 ⟨p, hp, halive⟩
  | acquire | wait | refuse | look | write | remove | delete => exact h

/-- A writer that looks has a lock, whatever it sees. -/
theorem look_owns {ok : Bool} {phase : Phase} (h : w.look s ok = some phase) :
    w.phase.owns = true := by
  rw [Writer.look] at h
  split at h <;> simp_all [Phase.owns]

/-- A writer comes to be committed by what it sees in three ways. -/
theorem look_committed {ok : Bool} {phase : Phase} (h : w.look s ok = some phase)
    (hcommitted : { w with phase }.committed = true) :
    w.committed = true ∨ s.path = some w.file ∨
      ∃ inode file f, w.phase = .opened inode file ∧ s.files[file]? = some f ∧ f.body = w.holder := by
  rw [Writer.look] at h
  split at h
  · next hphase => exact .inl (by simp [Writer.committed, hphase])
  · next hphase =>
    cases h
    split at hcommitted
    · split at hcommitted <;> simp [Writer.committed] at hcommitted
    · simp [Writer.committed] at hcommitted
  · next hphase =>
    cases h
    split at hcommitted
    · split at hcommitted <;> simp [Writer.committed] at hcommitted
    · simp [Writer.committed] at hcommitted
  · next inode hphase =>
    cases h
    split at hcommitted
    · next file hpath =>
      split at hcommitted
      · exact .inr (.inl (by rw [hpath, beq_iff_eq.1 hcommitted]))
      · simp [Writer.committed] at hcommitted
    · simp [Writer.committed] at hcommitted
  · next inode file hphase =>
    cases h
    split at hcommitted
    · next f hf =>
      split at hcommitted
      · next hbody => exact .inr (.inr ⟨inode, file, f, hphase, hf, hbody.2.2.2⟩)
      · simp [Writer.committed] at hcommitted
    · simp [Writer.committed] at hcommitted
  · simp at h

/-- A file that is opened is the one at the path. -/
theorem look_opened {ok : Bool} {inode file : ℕ} (h : w.look s ok = some (.opened inode file)) :
    s.path = some file := by
  rw [Writer.look] at h
  split at h
  · split at h <;> simp at h
  · split at h
    · split at h <;> simp at h
    · simp at h
  · split at h
    · split at h <;> simp at h
    · simp at h
  · split at h
    · next path hpath =>
      split at h
      · simp only [some.injEq, Phase.opened.injEq] at h
        rw [hpath, h.2]
      · simp at h
    · simp at h
  · split at h
    · split at h <;> simp at h
    · simp at h
  · simp at h

namespace Owned

variable {kept : Bool}

theorem initial : Owned kept initial where
  path := by simp [Lock.initial]
  process := by simp [Lock.initial]
  own := by simp [Lock.initial]
  guarded := by simp [Lock.initial]

/-- Two writers that are counted on to own the file are one. -/
theorem unique (h : Owned kept s) {i j : ℕ} {w' : Writer} (hi : s.writers[i]? = some w)
    (hj : s.writers[j]? = some w') (hw : Guarded kept s w) (hw' : Guarded kept s w') : i = j := by
  obtain ⟨f, hf, rfl⟩ := h.own i w hi hw.1
  obtain ⟨f', hf', rfl⟩ := h.own j w' hj hw'.1
  have hfile : w.file = w'.file :=
    some.inj ((h.guarded _ w hi hw).symm.trans (h.guarded _ w' hj hw'))
  rw [hfile, hf', some.injEq] at hf
  rw [hf]

/-- A step keeps to whom the file at the path belongs, if a file that is deleted is nobody's, and a
writer that takes the file it has opened for its own is right. -/
theorem step (h : Owned kept s) (hstep : Step s action s')
    (hdelete : action = .delete → ∀ (i : ℕ) (w : Writer), s.writers[i]? = some w →
      ¬ Guarded kept s w)
    (hread : ∀ (i : ℕ) (w : Writer) (inode file : ℕ) (f : File), s.live i = some w →
      w.phase = .opened inode file → s.files[file]? = some f → f.body = w.holder →
        kept = true ∨ file = w.file) :
    Owned kept s' := by
  have hold : ∀ (i : ℕ) (w : Writer), s.writers[i]? = some w → Guarded kept s' w →
      Guarded kept s w :=
    fun i w hw hguarded ↦ hguarded.of_alive (hstep.alive (h.process i w hw))
  cases hstep with
  | spawn id hid =>
    refine ⟨h.path, fun i w hw ↦ ?_, h.own, fun i w hw hguarded ↦ ?_⟩
    · exact Nat.lt_of_lt_of_le (h.process i w hw) (by simp)
    · exact h.guarded i w hw (hold i w hw hguarded)
  | crash hp =>
    refine ⟨h.path, fun i w hw ↦ by simpa using h.process i w hw, h.own, fun i w hw hguarded ↦ ?_⟩
    exact h.guarded i w hw (hold i w hw hguarded)
  | @acquire process halive =>
    obtain ⟨p, hp, -⟩ := State.alive_iff.1 halive
    refine ⟨h.path, fun i w hw ↦ ?_, fun i w hw howns ↦ ?_, fun i w hw hguarded ↦ ?_⟩ <;>
      rcases getElem?_append_cases hw with ⟨-, rfl⟩ | hw
    · exact lt_of_getElem?_eq_some hp
    · exact h.process i w hw
    · simp [Phase.owns] at howns
    · exact h.own i w hw howns
    · simp [Guarded, Phase.owns] at hguarded
    · exact h.guarded i w hw hguarded
  | wait writer inode => exact h
  | @create writer w p inode hw hp htrying hpath =>
    obtain ⟨hw, -⟩ := State.live_eq_some.1 hw
    have hprocess := h.process writer w hw
    refine ⟨?_, fun i w' hw' ↦ ?_, fun i w' hw' howns ↦ ?_, fun i w' hw' hguarded ↦ ?_⟩
    · rintro file ⟨⟩
      simp
    · rcases getElem?_set_cases hw' with ⟨-, rfl⟩ | ⟨-, hw'⟩
      · simpa using hprocess
      · simpa using h.process i w' hw'
    · rcases getElem?_set_cases hw' with ⟨rfl, rfl⟩ | ⟨-, hw'⟩
      · exact ⟨_, getElem?_concat_length, rfl⟩
      · obtain ⟨f, hf, hcreator⟩ := h.own i w' hw' howns
        refine ⟨f, ?_, hcreator⟩
        rw [getElem?_append_left (lt_of_getElem?_eq_some hf), hf]
    · rcases getElem?_set_cases hw' with ⟨-, rfl⟩ | ⟨-, hw'⟩
      · rfl
      · -- Nobody owned the path, for there was no file.
        have hpath' := h.guarded i w' hw' (hold i w' hw' hguarded)
        exact absurd (hpath.symm.trans hpath') (by simp)
  | @refuse writer w hw htrying =>
    obtain ⟨hw, -⟩ := State.live_eq_some.1 hw
    refine ⟨h.path, fun i w' hw' ↦ ?_, fun i w' hw' howns ↦ ?_, fun i w' hw' hguarded ↦ ?_⟩ <;>
      rcases writers_move hw' with ⟨rfl, rfl⟩ | ⟨-, hw'⟩
    · exact h.process _ w hw
    · exact h.process i w' hw'
    · simp [Phase.owns] at howns
    · exact h.own i w' hw' howns
    · simp [Guarded, Phase.owns] at hguarded
    · exact h.guarded i w' hw' hguarded
  | @look writer w phase ok hlive hlook =>
    obtain ⟨hw, halive⟩ := State.live_eq_some.1 hlive
    have howns := look_owns hlook
    refine ⟨h.path, fun i w' hw' ↦ ?_, fun i w' hw' howns' ↦ ?_, fun i w' hw' hguarded ↦ ?_⟩ <;>
      rcases writers_move hw' with ⟨rfl, rfl⟩ | ⟨-, hw'⟩
    · exact h.process _ w hw
    · exact h.process i w' hw'
    · exact h.own _ w hw howns
    · exact h.own i w' hw' howns'
    · rcases hguarded.2 with hkept | ⟨-, hcommitted⟩
      · exact h.guarded _ w hw ⟨howns, .inl hkept⟩
      · rcases look_committed hlook hcommitted with hcommitted₀ | hpath | ⟨inode, file, f, hphase, hf, hb⟩
        · exact h.guarded _ w hw ⟨howns, .inr ⟨halive, hcommitted₀⟩⟩
        · exact hpath
        · refine h.guarded _ w hw ⟨howns, ?_⟩
          refine (hread _ w inode file f hlive hphase hf hb).imp_right fun hfile ↦ ⟨halive, ?_⟩
          simp [Writer.committed, hphase, hfile]
    · exact h.guarded i w' hw' hguarded
  | @write writer w f phase stopped hw hf hexamined howns hopened =>
    obtain ⟨hw, halive⟩ := State.live_eq_some.1 hw
    have hexaminedOwns : w.phase.owns = true := by simp [hexamined, Phase.owns]
    have hown : ∀ (i : ℕ) (w' : Writer), s.writers[i]? = some w' → w'.phase.owns = true →
        ∃ f' : File, (s.files.set w.file { f with body := w.written stopped })[w'.file]? = some f' ∧
          f'.creator = i := by
      intro i w' hw' howns'
      obtain ⟨f', hf', hcreator⟩ := h.own i w' hw' howns'
      by_cases hfile : w'.file = w.file
      · rw [hfile, hf, some.injEq] at hf'
        refine ⟨{ f with body := w.written stopped }, ?_, by rw [← hcreator, ← hf']⟩
        rw [hfile, getElem?_set_self (lt_of_getElem?_eq_some hf)]
      · exact ⟨f', by rw [getElem?_set_ne (Ne.symm hfile), hf'], hcreator⟩
    refine ⟨fun file hfile ↦ ?_, fun i w' hw' ↦ ?_, fun i w' hw' howns' ↦ ?_,
      fun i w' hw' hguarded ↦ ?_⟩
    · simpa using h.path file hfile
    all_goals rcases writers_move hw' with ⟨rfl, rfl⟩ | ⟨-, hw'⟩
    · exact h.process _ w hw
    · exact h.process i w' hw'
    · exact hown _ w hw hexaminedOwns
    · exact hown i w' hw' howns'
    · exact h.guarded _ w hw
        ⟨hexaminedOwns, .inr ⟨halive, by simp [Writer.committed, hexamined]⟩⟩
    · exact h.guarded i w' hw' hguarded
  | @remove writer w path ok hw hphase hpath =>
    obtain ⟨hw, halive⟩ := State.live_eq_some.1 hw
    have hown : Guarded kept s w := by
      rcases hphase with hphase | hphase <;>
        exact ⟨by simp [hphase, Phase.owns], .inr ⟨halive, by simp [Writer.committed, hphase]⟩⟩
    refine ⟨fun file hfile ↦ ?_, fun i w' hw' ↦ ?_, fun i w' hw' howns ↦ ?_,
      fun i w' hw' hguarded ↦ ?_⟩
    · rcases hpath with rfl | rfl
      · simp at hfile
      · exact h.path file hfile
    all_goals rcases writers_move hw' with ⟨rfl, rfl⟩ | ⟨hne, hw'⟩
    · exact h.process _ w hw
    · exact h.process i w' hw'
    · simp [Phase.owns] at howns
    · exact h.own i w' hw' howns
    · simp [Guarded, Phase.owns] at hguarded
    · exact absurd (h.unique hw' hw hguarded hown) hne
  | delete =>
    refine ⟨by simp, h.process, h.own, fun i w hw hguarded ↦ ?_⟩
    exact absurd hguarded (hdelete rfl i w hw)

end Owned

/-! ## What a step leaves as it is -/

/-- A process keeps its id, and its number does not fall. -/
theorem Step.process (hstep : Step s action s') {q : ℕ} {p : Process}
    (hp : s.processes[q]? = some p) :
    ∃ p' : Process, s'.processes[q]? = some p' ∧ p'.id = p.id ∧ p.taken ≤ p'.taken := by
  have hlt := lt_of_getElem?_eq_some hp
  cases hstep with
  | spawn => exact ⟨p, by rw [getElem?_append_left hlt, hp], rfl, le_rfl⟩
  | @crash process p₀ hp₀ =>
    by_cases heq : process = q
    · subst heq
      obtain rfl : p₀ = p := some.inj (hp₀.symm.trans hp)
      exact ⟨_, getElem?_set_self hlt, rfl, le_rfl⟩
    · exact ⟨p, by rw [getElem?_set_ne heq, hp], rfl, le_rfl⟩
  | @create writer w p₀ inode hw hp₀ =>
    by_cases heq : w.process = q
    · subst heq
      obtain rfl : p₀ = p := some.inj (hp₀.symm.trans hp)
      exact ⟨_, getElem?_set_self hlt, rfl, Nat.le_succ _⟩
    · exact ⟨p, by rw [getElem?_set_ne heq, hp], rfl, le_rfl⟩
  | acquire | wait | refuse | look | write | remove | delete => exact ⟨p, hp, rfl, le_rfl⟩

/-- A process that has not ended was there before the step, or is new and its id is no other's. -/
theorem Step.process_before (hstep : Step s action s') {q : ℕ} {p' : Process}
    (hp' : s'.processes[q]? = some p') (halive : p'.alive = true) :
    (∃ p : Process, s.processes[q]? = some p ∧ p.id = p'.id ∧ p.alive = true) ∨
      (q = s.processes.length ∧ ∀ p ∈ s.processes, p.alive = true → p.id ≠ p'.id) := by
  cases hstep with
  | spawn id hid =>
    rcases getElem?_append_cases hp' with ⟨rfl, rfl⟩ | hp
    · exact .inr ⟨rfl, hid⟩
    · exact .inl ⟨p', hp, rfl, halive⟩
  | crash =>
    rcases getElem?_set_cases hp' with ⟨-, rfl⟩ | ⟨-, hp⟩
    · simp at halive
    · exact .inl ⟨p', hp, rfl, halive⟩
  | create inode hw hp =>
    rcases getElem?_set_cases hp' with ⟨rfl, rfl⟩ | ⟨-, hp'⟩
    · exact .inl ⟨_, hp, rfl, halive⟩
    · exact .inl ⟨p', hp', rfl, halive⟩
  | acquire | wait | refuse | look | write | remove | delete => exact .inl ⟨p', hp', rfl, halive⟩

/-- A writer that has just created its file. -/
structure Created (s s' : State) (action : Action) (i : ℕ) (w' : Writer) : Prop where
  action : action = .create i w'.inode
  path : s.path = none
  files : s'.files.length = s.files.length + 1
  file : w'.file = s.files.length
  holder : ∃ p p' : Process, s.processes[w'.process]? = some p ∧
    s'.processes[w'.process]? = some p' ∧ p'.id = p.id ∧ p'.taken = p.taken + 1 ∧
      w'.holder = holderName p.id (p.taken % 2 ^ 64)
  live : ∃ w, s.live i = some w ∧ w.process = w'.process

/-- A writer that has a lock after a step had it before, or has just created it. -/
theorem Step.owner (hstep : Step s action s') {i : ℕ} {w' : Writer} (hw' : s'.writers[i]? = some w')
    (howns : w'.phase.owns = true) :
    (∃ w : Writer, s.writers[i]? = some w ∧ w.phase.owns = true ∧ w.process = w'.process ∧
      w.file = w'.file ∧ w.holder = w'.holder) ∨ Created s s' action i w' := by
  cases hstep with
  | acquire =>
    rcases getElem?_append_cases hw' with ⟨-, rfl⟩ | hw'
    · simp [Phase.owns] at howns
    · exact .inl ⟨w', hw', howns, rfl, rfl, rfl⟩
  | @create writer w p inode hw hp htrying hpath =>
    rcases getElem?_set_cases hw' with ⟨rfl, rfl⟩ | ⟨-, hw'⟩
    · refine .inr ⟨rfl, hpath, by simp, rfl,
        ⟨p, { p with taken := p.taken + 1 }, hp, ?_, rfl, rfl, rfl⟩, w, hw, rfl⟩
      exact getElem?_set_self (lt_of_getElem?_eq_some hp)
    · exact .inl ⟨w', hw', howns, rfl, rfl, rfl⟩
  | refuse hw =>
    rcases writers_move hw' with ⟨-, rfl⟩ | ⟨-, hw'⟩
    · simp [Phase.owns] at howns
    · exact .inl ⟨w', hw', howns, rfl, rfl, rfl⟩
  | look ok hw hlook =>
    rcases writers_move hw' with ⟨rfl, rfl⟩ | ⟨-, hw'⟩
    · exact .inl ⟨_, (State.live_eq_some.1 hw).1, look_owns hlook, rfl, rfl, rfl⟩
    · exact .inl ⟨w', hw', howns, rfl, rfl, rfl⟩
  | write stopped hw hf hexamined =>
    rcases writers_move hw' with ⟨rfl, rfl⟩ | ⟨-, hw'⟩
    · exact .inl ⟨_, (State.live_eq_some.1 hw).1, by simp [hexamined, Phase.owns], rfl, rfl, rfl⟩
    · exact .inl ⟨w', hw', howns, rfl, rfl, rfl⟩
  | remove ok hw hphase hpath =>
    rcases writers_move hw' with ⟨-, rfl⟩ | ⟨-, hw'⟩
    · simp [Phase.owns] at howns
    · exact .inl ⟨w', hw', howns, rfl, rfl, rfl⟩
  | spawn | crash | wait | delete => exact .inl ⟨w', hw', howns, rfl, rfl, rfl⟩

/-- The file at the path was there before the step, or has just been created. -/
theorem Step.path (hstep : Step s action s') {file : ℕ} (h : s'.path = some file) :
    s.path = some file ∨ file = s.files.length := by
  cases hstep with
  | create => exact .inr (some.inj h).symm
  | remove ok hw hphase hpath =>
    rcases hpath with rfl | rfl
    · simp at h
    · exact .inl h
  | delete => simp at h
  | spawn | crash | acquire | wait | refuse | look | write => exact .inl h

/-- What a lock file holds is what it held, or nothing, or what has just been written. -/
theorem Step.body (hstep : Step s action s') {file : ℕ} {f' : File}
    (h : s'.files[file]? = some f') :
    s.files[file]? = some f' ∨ f'.body = "" ∨ ∃ writer w stopped, action = .write writer stopped ∧
      s.live writer = some w ∧ w.phase = .examined ∧ file = w.file ∧ f'.body = w.written stopped := by
  cases hstep with
  | create =>
    rcases getElem?_append_cases h with ⟨-, rfl⟩ | h
    · exact .inr (.inl rfl)
    · exact .inl h
  | write stopped hw hf hexamined =>
    rcases getElem?_set_cases h with ⟨rfl, rfl⟩ | ⟨-, h⟩
    · exact .inr (.inr ⟨_, _, stopped, rfl, hw, hexamined, rfl, rfl⟩)
    · exact .inl h
  | spawn | crash | acquire | wait | refuse | look | remove | delete => exact .inl h

/-- A writer that has opened a file had opened it before, or has just found it at the path. -/
theorem Step.opened (hstep : Step s action s') {i inode file : ℕ} {w' : Writer}
    (hw' : s'.writers[i]? = some w') (hphase : w'.phase = .opened inode file) :
    s.writers[i]? = some w' ∨ s.path = some file := by
  cases hstep with
  | acquire =>
    rcases getElem?_append_cases hw' with ⟨-, rfl⟩ | hw'
    · simp at hphase
    · exact .inl hw'
  | create =>
    rcases getElem?_set_cases hw' with ⟨-, rfl⟩ | ⟨-, hw'⟩
    · simp at hphase
    · exact .inl hw'
  | refuse =>
    rcases writers_move hw' with ⟨-, rfl⟩ | ⟨-, hw'⟩
    · simp at hphase
    · exact .inl hw'
  | look ok hw hlook =>
    rcases writers_move hw' with ⟨-, rfl⟩ | ⟨-, hw'⟩
    · obtain rfl : _ = Phase.opened inode file := hphase
      exact .inr (look_opened hlook)
    · exact .inl hw'
  | write stopped hw hf hexamined howns hopened =>
    rcases writers_move hw' with ⟨-, rfl⟩ | ⟨-, hw'⟩
    · exact absurd hphase (hopened inode file)
    · exact .inl hw'
  | remove =>
    rcases writers_move hw' with ⟨-, rfl⟩ | ⟨-, hw'⟩
    · simp at hphase
    · exact .inl hw'
  | spawn | crash | wait | delete => exact .inl hw'

/-! ## No two names are alike -/

theorem holderName_injective {id id' seq seq' : ℕ} (h : holderName id seq = holderName id' seq') :
    id = id' ∧ seq = seq' := by
  have hspace (n : ℕ) : ' ' ∉ Nat.toDigits 10 n := fun hmem ↦
    absurd (Nat.isDigit_of_mem_toDigits (by decide) (by decide) hmem) (by decide)
  have hchars : Nat.toDigits 10 id ++ ' ' :: Nat.toDigits 10 seq =
      Nat.toDigits 10 id' ++ ' ' :: Nat.toDigits 10 seq' := by
    simpa [holderName] using congrArg String.toList h
  obtain ⟨hid, -, hseq⟩ := (append_cons_inj_of_notMem (hspace id) (hspace seq)).1 hchars
  exact ⟨Nat.repr_injective (String.toList_injective (by simpa using hid)),
    Nat.repr_injective (String.toList_injective (by simpa using hseq))⟩

/-- The names of the writers, and the files that were created after a writer's own: it may have
opened one, but its name is in none. -/
structure Named (s : State) : Prop where
  ids : ∀ (i j : ℕ) (p q : Process), s.processes[i]? = some p → s.processes[j]? = some q →
    p.alive = true → q.alive = true → p.id = q.id → i = j
  holder : ∀ (i : ℕ) (w : Writer), s.writers[i]? = some w → w.phase.owns = true →
    ∃ (p : Process) (seq : ℕ), s.processes[w.process]? = some p ∧ seq < p.taken ∧
      w.holder = holderName p.id seq
  numbers : ∀ (i j : ℕ) (w w' : Writer), s.writers[i]? = some w → s.writers[j]? = some w' →
    w.phase.owns = true → w'.phase.owns = true → w.process = w'.process → w.holder = w'.holder →
      i = j
  path : ∀ (i : ℕ) (w : Writer), s.writers[i]? = some w → w.phase.owns = true →
    ∀ file, s.path = some file → w.file ≤ file
  opened : ∀ (i : ℕ) (w : Writer) (inode file : ℕ), s.writers[i]? = some w →
    w.phase = .opened inode file → w.file ≤ file
  bodies : ∀ (i : ℕ) (w : Writer), s.live i = some w → w.phase.owns = true →
    ∀ (file : ℕ) (f : File), s.files[file]? = some f → w.file < file → f.body ≠ w.holder

namespace Named

theorem initial : Named initial where
  ids := by simp [Lock.initial]
  holder := by simp [Lock.initial]
  numbers := by simp [Lock.initial]
  path := by simp [Lock.initial]
  opened := by simp [Lock.initial]
  bodies := by simp [Lock.initial, State.live]

/-- Two writers whose processes have not ended have different names. -/
theorem distinct (h : Named s) {i j : ℕ} {w' : Writer} (hi : s.live i = some w)
    (hj : s.live j = some w') (hw : w.phase.owns = true) (hw' : w'.phase.owns = true)
    (hne : i ≠ j) : w.holder ≠ w'.holder := by
  obtain ⟨hi, halive⟩ := State.live_eq_some.1 hi
  obtain ⟨hj, halive'⟩ := State.live_eq_some.1 hj
  intro hsame
  refine hne (h.numbers i j w w' hi hj hw hw' ?_ hsame)
  obtain ⟨p, hp, hpalive⟩ := State.alive_iff.1 halive
  obtain ⟨q, hq, hqalive⟩ := State.alive_iff.1 halive'
  obtain ⟨p', seq, hp', -, hholder⟩ := h.holder i w hi hw
  obtain ⟨q', seq', hq', -, hholder'⟩ := h.holder j w' hj hw'
  obtain rfl : p = p' := some.inj (hp.symm.trans hp')
  obtain rfl : q = q' := some.inj (hq.symm.trans hq')
  rw [hholder, hholder'] at hsame
  exact h.ids _ _ p q hp hq hpalive hqalive (holderName_injective hsame).1

end Named

theorem holderName_ne_empty (id seq : ℕ) : holderName id seq ≠ "" := by
  intro h
  simpa [holderName] using congrArg String.toList h

namespace Named

theorem step {kept : Bool} (h : Named s) (howned : Owned kept s) (hcareful : Careful s action)
    (hstep : Step s action s') : Named s' where
  ids := by
    intro i j p q hp hq hpalive hqalive hid
    rcases hstep.process_before hp hpalive with ⟨p', hp', hpid, hp'alive⟩ | ⟨rfl, hnew⟩ <;>
      rcases hstep.process_before hq hqalive with ⟨q', hq', hqid, hq'alive⟩ | ⟨rfl, hnew'⟩
    · exact h.ids i j p' q' hp' hq' hp'alive hq'alive (by rw [hpid, hqid, hid])
    · exact absurd (hpid.trans hid) (hnew' p' (mem_of_getElem? hp') hp'alive)
    · exact absurd (hqid.trans hid.symm) (hnew q' (mem_of_getElem? hq') hq'alive)
    · rfl
  holder := by
    intro i w' hw' howns
    rcases hstep.owner hw' howns with ⟨w, hw, hwowns, hprocess, -, hholder⟩ | hcreated
    · obtain ⟨p, seq, hp, hseq, hname⟩ := h.holder i w hw hwowns
      obtain ⟨p', hp', hid, htaken⟩ := hstep.process hp
      exact ⟨p', seq, hprocess ▸ hp', Nat.lt_of_lt_of_le hseq htaken, by rw [← hholder, hname, hid]⟩
    · obtain ⟨p, p', hp, hp', hid, htaken, hname⟩ := hcreated.holder
      refine ⟨p', p.taken % 2 ^ 64, hp', ?_, by rw [hname, hid]⟩
      have := Nat.mod_le p.taken (2 ^ 64)
      omega
  numbers := by
    intro i j w w' hw hw' howns howns' hprocess hholder
    -- A new number is none of those the process has used.
    have hfresh : ∀ (i j : ℕ) (w w' : Writer), s.writers[i]? = some w → w.phase.owns = true →
        Created s s' action j w' → w.process = w'.process → w.holder ≠ w'.holder := by
      intro i j w w' hw howns hcreated hprocess hholder
      obtain ⟨p, seq, hp, hseq, hname⟩ := h.holder i w hw howns
      obtain ⟨p', -, hp', -, -, -, hname'⟩ := hcreated.holder
      rw [hprocess] at hp
      obtain rfl : p = p' := some.inj (hp.symm.trans hp')
      obtain ⟨w₀, hlive, hsame⟩ := hcreated.live
      rw [hcreated.action] at hcareful
      have hsmall : p.taken < 2 ^ 64 := hcareful w₀ p hlive (hsame ▸ hp)
      rw [hname, hname', Nat.mod_eq_of_lt hsmall] at hholder
      exact absurd (holderName_injective hholder).2 (Nat.ne_of_lt hseq)
    rcases hstep.owner hw howns with ⟨v, hv, hvowns, hvprocess, -, hvholder⟩ | hcreated <;>
      rcases hstep.owner hw' howns' with ⟨v', hv', hvowns', hvprocess', -, hvholder'⟩ | hcreated'
    · exact h.numbers i j v v' hv hv' hvowns hvowns' (by rw [hvprocess, hvprocess', hprocess])
        (by rw [hvholder, hvholder', hholder])
    · exact absurd (hvholder.trans hholder)
        (hfresh i j v w' hv hvowns hcreated' (hvprocess.trans hprocess))
    · exact absurd (hvholder'.trans hholder.symm)
        (hfresh j i v' w hv' hvowns' hcreated (hvprocess'.trans hprocess.symm))
    · have hsame := hcreated.action.symm.trans hcreated'.action
      simp only [Action.create.injEq] at hsame
      exact hsame.1
  path := by
    intro i w' hw' howns file hpath
    rcases hstep.owner hw' howns with ⟨w, hw, hwowns, -, hfile, -⟩ | hcreated
    · rw [← hfile]
      rcases hstep.path hpath with hold | rfl
      · exact h.path i w hw hwowns file hold
      · obtain ⟨f, hf, -⟩ := howned.own i w hw hwowns
        exact Nat.le_of_lt (lt_of_getElem?_eq_some hf)
    · rw [hcreated.file]
      rcases hstep.path hpath with hold | rfl
      · simp [hcreated.path] at hold
      · exact le_rfl
  opened := by
    intro i w' inode file hw' hphase
    rcases hstep.opened hw' hphase with hold | hpath
    · exact h.opened i w' inode file hold hphase
    · rcases hstep.owner hw' (by simp [hphase, Phase.owns]) with ⟨w, hw, hwowns, -, hfile, -⟩ | hcreated
      · rw [← hfile]
        exact h.path i w hw hwowns file hpath
      · simp [hcreated.path] at hpath
  bodies := by
    intro i w' hlive howns file f' hf' hlt
    obtain ⟨hw', halive⟩ := State.live_eq_some.1 hlive
    rcases hstep.owner hw' howns with ⟨w, hw, hwowns, hprocess, hfile, hholder⟩ | hcreated
    · have hlive₀ : s.live i = some w := by
        refine State.live_eq_some.2 ⟨hw, hstep.alive (howned.process i w hw) ?_⟩
        rwa [hprocess]
      rw [← hfile] at hlt
      rw [← hholder]
      rcases hstep.body hf' with hold | hempty | ⟨j, v, stopped, rfl, hv, hexamined, rfl, hbody⟩
      · exact h.bodies i w hlive₀ hwowns file f' hold hlt
      · obtain ⟨p, seq, -, -, hname⟩ := h.holder i w hw hwowns
        rw [hempty, hname]
        exact (holderName_ne_empty _ _).symm
      · have hne : i ≠ j := by
          rintro rfl
          obtain rfl : w = v := some.inj (hlive₀.symm.trans hv)
          exact absurd hlt (Nat.lt_irrefl _)
        rw [hbody]
        cases stopped with
        | none => exact (h.distinct hlive₀ hv hwowns (by simp [hexamined, Phase.owns]) hne).symm
        | some stopped => exact hcareful v i w hv hlive₀ hne hwowns
    · have := lt_of_getElem?_eq_some hf'
      rw [hcreated.files] at this
      rw [hcreated.file] at hlt
      omega

end Named

/-! ## Runs -/

/-- A writer that is committed or, as long as nobody deletes its file, has a lock at all. -/
theorem guarded_of_remove (kept : Bool) {ok : Bool} (h : Step s (.remove writer ok) s') :
    ∃ w, s.live writer = some w ∧ s.writers[writer]? = some w ∧ Guarded kept s w := by
  cases h with
  | remove _ hlive hphase =>
    obtain ⟨hw, halive⟩ := State.live_eq_some.1 hlive
    refine ⟨_, hlive, hw, ?_⟩
    rcases hphase with hphase | hphase <;>
      exact ⟨by simp [hphase, Phase.owns], .inr ⟨halive, by simp [Writer.committed, hphase]⟩⟩

theorem Owned.spares {kept : Bool} (h : Owned kept s) (hstep : Step s action s') :
    Spares s action := by
  rintro writer ok rfl file hfile
  obtain ⟨w, hlive, hw, hguarded⟩ := guarded_of_remove kept hstep
  obtain ⟨f, hf, hcreator⟩ := h.own writer w hw hguarded.1
  have hsame := h.guarded writer w hw hguarded
  rw [hfile, some.injEq] at hsame
  exact ⟨⟨f, hsame ▸ hf, hcreator⟩, by simp [hlive]⟩

theorem Owned.exclusive (h : Owned true s) : Exclusive s := by
  have howns (w : Writer) (hw : w.phase.holds = true) : Guarded true s w := by
    refine ⟨?_, .inl rfl⟩
    revert hw
    cases w.phase <;> simp [Phase.holds, Phase.owns]
  intro i j w w' hi hj hw hw'
  exact h.unique hi hj (howns w hw) (howns w' hw')

/-- Without the operator the file at the path is that of the writer that has the lock. -/
theorem Owned.step_kept (h : Owned true s) (hstep : Step s action s') (hkept : action ≠ .delete) :
    Owned true s' :=
  h.step hstep (fun hdelete ↦ absurd hdelete hkept) fun _ _ _ _ _ _ _ _ _ ↦ .inl rfl

/-- With a careful one it is that of the writer that is going to remove it. -/
theorem step_careful (h : Owned false s ∧ Named s) (hcareful : Careful s action)
    (hstep : Step s action s') : Owned false s' ∧ Named s' := by
  obtain ⟨howned, hnamed⟩ := h
  refine ⟨howned.step hstep ?_ ?_, hnamed.step howned hcareful hstep⟩
  · rintro rfl i w hw hguarded
    obtain ⟨howns, hfalse | ⟨halive, hcommitted⟩⟩ := hguarded
    · simp at hfalse
    · obtain ⟨f, hf, rfl⟩ := howned.own i w hw howns
      have hpath := howned.guarded _ w hw ⟨howns, .inr ⟨halive, hcommitted⟩⟩
      have := hcareful w.file f w hpath hf (State.live_eq_some.2 ⟨hw, halive⟩)
      simp [hcommitted] at this
  · intro i w inode file f hlive hphase hf hbody
    have howns : w.phase.owns = true := by simp [hphase, Phase.owns]
    have hle := hnamed.opened i w inode file (State.live_eq_some.1 hlive).1 hphase
    rcases Nat.eq_or_lt_of_le hle with heq | hlt
    · exact .inr heq.symm
    · exact absurd hbody (hnamed.bodies i w hlive howns file f hf hlt)

/-- **The lock is kept.**  As long as nobody deletes the lock file, one writer at a time has the
lock, and a writer removes none but its own; and so it does with a careful operator. -/
theorem lock_kept {actions : List Action} (h : run step initial actions = some s) :
    (.delete ∉ actions → Exclusive s ∧ Throughout step initial Spares actions) ∧
      (Throughout step initial Careful actions → Throughout step initial Spares actions) := by
  refine ⟨fun hkept ↦ ?_, fun hcareful ↦ ?_⟩
  · have hthroughout : Throughout step initial (fun _ action ↦ action ≠ .delete) actions :=
      throughout_of_forall fun _ action hmem heq ↦ hkept (heq ▸ hmem)
    exact ⟨(inv (Owned true) Owned.initial
        (fun _ _ _ hinv hne hstep ↦ hinv.step_kept (step_cases hstep) hne) hthroughout h).exclusive,
      throughout (Owned true) Owned.initial
        (fun _ _ _ hinv hne hstep ↦ hinv.step_kept (step_cases hstep) hne)
        (fun _ _ _ hinv _ hstep ↦ hinv.spares (step_cases hstep)) hthroughout h⟩
  · exact throughout (fun s ↦ Owned false s ∧ Named s) ⟨Owned.initial, Named.initial⟩
      (fun _ _ _ hinv hstepCareful hstep ↦ step_careful hinv hstepCareful (step_cases hstep))
      (fun _ _ _ hinv _ hstep ↦ hinv.1.spares (step_cases hstep)) hcareful h

/-- A writer that crashes with the lock, and an operator who deletes it. -/
def crashed : List Action :=
  [.spawn 12, .acquire 0, .create 0 7, .look 0 true, .write 0 none, .crash 0, .delete]

theorem lock_kept_sample : Throughout step initial Spares crashed := by
  have hrun : (run step initial crashed).isSome = true := by decide
  obtain ⟨s, hs⟩ := isSome_iff_exists.1 hrun
  refine (lock_kept hs).2 ?_
  refine throughout_cons rfl trivial (throughout_cons rfl trivial ?_)
  refine throughout_cons rfl (fun w p hw hp ↦ ?_) ?_
  · cases hw
    cases hp
    exact Nat.two_pow_pos 64
  refine throughout_cons rfl trivial (throughout_cons rfl trivial (throughout_cons rfl trivial ?_))
  refine throughout_cons rfl (fun file f w hpath hf hw ↦ ?_) Along.nil
  cases hpath
  cases hf
  cases hw

/-- One writer creates the lock file and cannot write its name; before it removes the file, an
operator has deleted it and another writer has taken the lock. -/
def overtaken : List Action :=
  [.spawn 12, .spawn 34, .acquire 0, .acquire 1, .create 0 7, .look 0 true, .delete, .create 1 8,
    .look 1 true, .write 1 none, .write 0 (some 0), .remove 0 true]

/-- A writer that cannot write its name removes the lock that another holds. -/
theorem lock_removed :
    ¬ ∀ actions s, run step initial actions = some s → Throughout step initial Spares actions := by
  intro h
  have hrun : (run step initial overtaken).isSome = true := by decide
  obtain ⟨final, hfinal⟩ := isSome_iff_exists.1 hrun
  have hlast : ∀ s, run step initial overtaken.dropLast = some s → Spares s (.remove 0 true) :=
    fun s hs ↦ Throughout.last (h overtaken final hfinal) hs
  obtain ⟨⟨f, hf, hcreator⟩, -⟩ := hlast _ rfl 0 true rfl 1 rfl
  cases hf
  simp at hcreator

end Huntsman.Lock
