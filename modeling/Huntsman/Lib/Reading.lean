import Huntsman.Lib.Refusal
import Mathlib.Data.Option.Basic

/-!
# Readings that may find nothing

A function that looks for something in data it does not trust may find nothing, and that is an
answer.  What it must not do is stop: with an index out of bounds, an arithmetic operation that
overflows, a loop that is not left.  A `Reading ε` answers an optional value, or stops with a fault
in `ε`.

`Reading.Safe P x` says that `x` answers, and that a value it answers satisfies `P`.
`Reading.Answers x P` says besides that it answers whenever there is a value in `P`.
-/

set_option autoImplicit false

/-- An optional value, or a fault. -/
abbrev Reading (ε : Type) : Type → Type := OptionT (Except ε)

namespace Reading

variable {ε α β : Type} {P : α → Prop} {Q : β → Prop}

/-- A value that may be missing. -/
def found (value : Option α) : Reading ε α := OptionT.mk (.ok value)

/-- A fault. -/
def stop (fault : ε) : Reading ε α := OptionT.mk (.error fault)

/-- What finds something or stops. -/
def attempt (x : Except ε α) : Reading ε α := OptionT.mk (x.map some)

/-- What a reading in two parts answers. -/
theorem run_bind (x : Reading ε α) (f : α → Reading ε β) :
    (x >>= f).run = x.run.bind fun value ↦ value.elim (.ok none) fun a ↦ (f a).run := by
  rw [OptionT.run_bind]
  rcases x.run with _ | _ | _ <;> rfl

/-- What the second of two readings is for. -/
theorem run_orElse (x y : Reading ε α) :
    (x <|> y).run = x.run.bind fun value ↦ value.elim y.run fun a ↦ .ok (some a) := by
  rw [OptionT.run_orElse]
  rcases x.run with _ | _ | _ <;> rfl

variable {x : Reading ε α} {a : α}

theorem run_bind_some (h : x.run = .ok (some a)) (f : α → Reading ε β) :
    (x >>= f).run = (f a).run := by
  rw [run_bind, h]
  rfl

theorem run_bind_error {fault : ε} (h : x.run = .error fault)
    (f : α → Reading ε β) : (x >>= f).run = .error fault := by
  rw [run_bind, h]
  rfl

theorem run_bind_none (h : x.run = .ok none) (f : α → Reading ε β) :
    (x >>= f).run = .ok none := by
  rw [run_bind, h]
  rfl

theorem run_attempt_bind {x : Except ε α} (h : x = .ok a) (f : α → Reading ε β) :
    (attempt x >>= f).run = (f a).run := by
  rw [h]
  exact run_bind_some rfl f

theorem run_guard_bind {p : Prop} [Decidable p] (h : p) (f : Unit → Reading ε β) :
    (guard p >>= f).run = (f ()).run := by
  rw [guard, if_pos h]
  exact run_bind_some rfl f

theorem run_guard_neg {p : Prop} [Decidable p] (h : ¬ p) (f : Unit → Reading ε β) :
    (guard p >>= f).run = .ok none := by
  rw [guard, if_neg h]
  exact run_bind_none rfl f

theorem run_found_bind {value : Option α} (h : value = some a) (f : α → Reading ε β) :
    (found value >>= f).run = (f a).run :=
  run_bind_some (congrArg Except.ok h) f

/-- The reading answers, and a value it answers is in `P`. -/
def Safe (P : α → Prop) (x : Reading ε α) : Prop :=
  ∃ value, x.run = .ok value ∧ ∀ a, value = some a → P a

namespace Safe

theorem pure (h : P a) : Safe P (Pure.pure a : Reading ε α) :=
  ⟨some a, rfl, fun _ ha ↦ Option.some.inj ha ▸ h⟩

variable {x : Reading ε α}

theorem of_some (hx : x.run = .ok (some a)) (h : P a) : Safe P x :=
  ⟨some a, hx, fun _ ha ↦ Option.some.inj ha ▸ h⟩

theorem of_none (hx : x.run = .ok none) : Safe P x :=
  ⟨none, hx, fun a ha ↦ absurd ha.symm (Option.some_ne_none a)⟩

theorem found {value : Option α} (h : ∀ a, value = some a → P a) :
    Safe P (Reading.found value : Reading ε α) :=
  ⟨value, rfl, h⟩

theorem any (value : Option α) : Safe (fun _ ↦ True) (Reading.found value : Reading ε α) :=
  found fun _ _ ↦ trivial

theorem failure : Safe P (Alternative.failure : Reading ε α) :=
  ⟨none, rfl, fun a ha ↦ absurd ha.symm (Option.some_ne_none a)⟩

/-- **The rule for sequences.** -/
theorem bind {f : α → Reading ε β} (h : Safe P x)
    (hf : ∀ a, P a → Safe Q (f a)) : Safe Q (x >>= f) := by
  obtain ⟨value, hx, hP⟩ := h
  rcases value with _ | a
  · exact ⟨none, by rw [run_bind, hx]; rfl, fun b hb ↦ absurd hb.symm (Option.some_ne_none b)⟩
  · obtain ⟨value, hvalue, hQ⟩ := hf a (hP a rfl)
    exact ⟨value, by rw [run_bind_some hx, hvalue], hQ⟩

theorem orElse {y : Reading ε α} (hx : Safe P x) (hy : Safe P y) : Safe P (x <|> y) := by
  obtain ⟨value, hvalue, hP⟩ := hx
  rcases value with _ | a
  · obtain ⟨other, hother, hP'⟩ := hy
    exact ⟨other, by rw [run_orElse, hvalue]; exact hother, hP'⟩
  · exact ⟨some a, by rw [run_orElse, hvalue]; rfl, hP⟩

theorem optional (h : Safe P x) :
    Safe (fun value ↦ ∀ a, value = some a → P a) (optional x : Reading ε (Option α)) := by
  refine orElse (bind h fun a ha ↦ ?_) (pure fun a ha ↦ absurd ha.symm (Option.some_ne_none a))
  exact pure fun b hb ↦ Option.some.inj hb ▸ ha

theorem mono {P' : α → Prop} (h : Safe P x) (hP : ∀ a, P a → P' a) : Safe P' x := by
  obtain ⟨value, hvalue, hP'⟩ := h
  exact ⟨value, hvalue, fun a ha ↦ hP a (hP' a ha)⟩

end Safe

/-- The reading answers, and the values in `P` are the ones it may answer. -/
def Answers (x : Reading ε α) (P : α → Prop) : Prop :=
  ∃ answer, x.run = .ok answer ∧ ∀ a, answer = some a ↔ P a

namespace Answers

variable {x : Reading ε α}

theorem of_some (hx : x.run = .ok (some a)) (h : ∀ b, P b ↔ a = b) :
    Answers x P :=
  ⟨some a, hx, fun b ↦ by rw [Option.some.injEq, h]⟩

theorem of_none (hx : x.run = .ok none) (h : ∀ a, ¬ P a) : Answers x P :=
  ⟨none, hx, fun a ↦ iff_of_false (nofun) (h a)⟩

/-- What a reading in two parts answers. -/
theorem bind {f : α → Reading ε β} {R : α → β → Prop} (hx : Answers x P)
    (hf : ∀ a, P a → Answers (f a) (R a)) : Answers (x >>= f) fun b ↦ ∃ a, P a ∧ R a b := by
  obtain ⟨answer, hrun, hP⟩ := hx
  rcases answer with _ | a
  · refine of_none (run_bind_none hrun f) ?_
    rintro b ⟨a, ha, -⟩
    exact absurd ((hP a).2 ha).symm (Option.some_ne_none a)
  · obtain ⟨answer, hrun', hR⟩ := hf a ((hP a).1 rfl)
    refine ⟨answer, by rw [run_bind_some hrun, hrun'], fun b ↦ ?_⟩
    rw [hR b]
    refine ⟨fun h ↦ ⟨a, (hP a).1 rfl, h⟩, ?_⟩
    rintro ⟨a', ha', h⟩
    obtain rfl := Option.some.inj ((hP a').2 ha')
    exact h

theorem congr {P' : α → Prop} (h : Answers x P) (hP : ∀ a, P a ↔ P' a) :
    Answers x P' := by
  obtain ⟨answer, hrun, hanswer⟩ := h
  exact ⟨answer, hrun, fun a ↦ (hanswer a).trans (hP a)⟩

theorem of_run {y : Reading ε α} (h : x.run = y.run) (hy : Answers y P) : Answers x P := by
  obtain ⟨answer, hrun, hP⟩ := hy
  exact ⟨answer, h.trans hrun, hP⟩

theorem found {value : Option α} (h : ∀ a, value = some a ↔ P a) :
    Answers (Reading.found value : Reading ε α) P :=
  ⟨value, rfl, h⟩

end Answers

end Reading
