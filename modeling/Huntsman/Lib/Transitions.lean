import Huntsman.Lib.Along
import Mathlib.Data.List.Induction
import Mathlib.Data.Option.Basic

/-!
# Runs of a transition function

A transition function says what an action does in a state, and in which states it can happen at all.
A run is a list of actions that can happen one after the other.

What holds `Throughout` a run holds of each of its actions in the state it happens in.  An invariant
that the actions of a run keep holds at its end (`inv`), and what follows from it holds throughout
(`throughout`).  What holds throughout a run that is given can be checked (`check`).
-/

set_option autoImplicit false

universe u v

namespace Transitions

variable {σ : Type u} {α : Type v} (step : σ → α → Option σ) (start : σ)

/-- Where a run ends. -/
def run (actions : List α) : Option σ := actions.foldlM step start

/-- `P` holds of each action in the state it happens in. -/
def Throughout (P : σ → α → Prop) : List α → Prop :=
  Along fun before action ↦ ∀ s, run step start before = some s → P s action

variable {step start} {P Q : σ → α → Prop} {actions : List α} {action : α} {s s' : σ}

theorem run_append_singleton :
    run step start (actions ++ [action]) = some s' ↔
      ∃ s, run step start actions = some s ∧ step s action = some s' := by
  simp only [run, List.foldlM_append, List.foldlM_cons, List.foldlM_nil, Option.bind_eq_bind,
    Option.bind_eq_some_iff, Option.pure_def, Option.some.injEq, exists_eq_right]

/-- A run goes on from where its beginning ends. -/
theorem run_append {before later : List α} :
    run step start (before ++ later) = some s' ↔
      ∃ s, run step start before = some s ∧ run step s later = some s' := by
  rw [run, List.foldlM_append, Option.bind_eq_bind, Option.bind_eq_some_iff]
  rfl

theorem Throughout.append_singleton (h : Throughout step start P actions)
    (hlast : ∀ s, run step start actions = some s → P s action) :
    Throughout step start P (actions ++ [action]) :=
  Along.append_singleton h hlast

theorem Throughout.init (h : Throughout step start P (actions ++ [action])) :
    Throughout step start P actions :=
  Along.init h

theorem Throughout.last (h : Throughout step start P (actions ++ [action]))
    (hrun : run step start actions = some s) : P s action :=
  Along.at_last h s hrun

/-- What holds throughout a run holds of its first action, and throughout the rest of it. -/
theorem throughout_cons (h : step start action = some s) (hfirst : P start action)
    (hrest : Throughout step s P actions) : Throughout step start P (action :: actions) := by
  intro before entry later heq s' hs'
  cases before with
  | nil =>
    cases hs'
    cases heq
    exact hfirst
  | cons first before =>
    rw [List.cons_append, List.cons.injEq] at heq
    obtain ⟨rfl, rfl⟩ := heq
    refine hrest before entry later rfl s' ?_
    rwa [run, List.foldlM_cons, h] at hs'

/-- What every action of a kind is, the actions of a run of that kind are throughout. -/
theorem throughout_of_forall (h : ∀ s, ∀ action ∈ actions, P s action) :
    Throughout step start P actions := by
  rintro before action later rfl s -
  exact h s action (by simp)

/-- **The rule of invariants.** -/
theorem inv (Inv : σ → Prop) (hstart : Inv start)
    (hstep : ∀ s action s', Inv s → P s action → step s action = some s' → Inv s') :
    ∀ {actions s}, Throughout step start P actions → run step start actions = some s → Inv s := by
  intro actions
  induction actions using List.reverseRecOn with
  | nil =>
    intro s _ hrun
    cases hrun
    exact hstart
  | append_singleton actions action ih =>
    intro s hthroughout hrun
    obtain ⟨s₀, hbefore, hlast⟩ := run_append_singleton.1 hrun
    exact hstep s₀ action s (ih hthroughout.init hbefore) (hthroughout.last hbefore) hlast

/-- What an invariant says of the next action holds throughout a run. -/
theorem throughout (Inv : σ → Prop) (hstart : Inv start)
    (hstep : ∀ s action s', Inv s → P s action → step s action = some s' → Inv s')
    (hQ : ∀ s action s', Inv s → P s action → step s action = some s' → Q s action) :
    ∀ {actions s}, Throughout step start P actions → run step start actions = some s →
      Throughout step start Q actions := by
  intro actions
  induction actions using List.reverseRecOn with
  | nil => exact fun _ _ ↦ Along.nil
  | append_singleton actions action ih =>
    intro s hthroughout hrun
    obtain ⟨s₀, hbefore, hlast⟩ := run_append_singleton.1 hrun
    refine (ih hthroughout.init hbefore).append_singleton fun s₁ hrun₁ ↦ ?_
    obtain rfl : s₀ = s₁ := Option.some.inj (hbefore.symm.trans hrun₁)
    exact hQ s₀ action s (inv Inv hstart hstep hthroughout.init hbefore)
      (hthroughout.last hbefore) hlast

/-! ## Checking a run -/

/-- What holds throughout a run, looked up by going through it. -/
def check (step : σ → α → Option σ) (P : σ → α → Prop) [∀ s a, Decidable (P s a)] :
    σ → List α → Bool
  | _, [] => true
  | s, a :: actions => decide (P s a) && (step s a).all fun s' ↦ check step P s' actions

theorem throughout_iff_check [∀ s a, Decidable (P s a)] :
    Throughout step start P actions ↔ check step P start actions = true := by
  induction actions generalizing start with
  | nil => exact ⟨fun _ ↦ rfl, fun _ ↦ Along.nil⟩
  | cons a actions ih =>
    rw [check, Bool.and_eq_true, decide_eq_true_eq, Option.all_eq_true]
    constructor
    · intro h
      refine ⟨h [] a actions rfl start rfl, fun s hs ↦ ih.1 ?_⟩
      rintro before action later rfl s' hs'
      refine h (a :: before) action later rfl s' ?_
      rw [run, List.foldlM_cons, hs]
      exact hs'
    · rintro ⟨hfirst, hrest⟩
      rcases hstep : step start a with _ | s
      · rintro before action later heq s' hs'
        rcases before with _ | ⟨first, before⟩
        · cases heq
          cases hs'
          exact hfirst
        · cases heq
          rw [run, List.foldlM_cons, hstep] at hs'
          cases hs'
      · exact throughout_cons hstep hfirst (ih.2 (hrest s hstep))

end Transitions
