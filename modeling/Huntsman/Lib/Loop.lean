import Huntsman.Lib.Refusal

/-!
# Loops that are left

A `loop` of an imperative program keeps its locals in a record `σ`, and one pass over its body
either leaves the loop with a result in `ρ` or goes round again with new locals.  `Pass ρ σ` is what
one pass answers.

Three ways of running such a body are here.

* `Loop.run` runs a body for which a measure of the locals falls every time it goes round again.
  It is total, and needs no fuel.
* `Loop.runFor` runs a body at most a given number of times and answers `none` when that was not
  enough (`Loop.runFor_isSome`).
* `Loop.tryFor` does the same for a body whose passes may fail, and fails with an error of its own
  when the fuel was not enough.

A recursion on a number of passes that is at least a measure of its state does not depend on that
number (`Loop.enough`).
-/

set_option autoImplicit false

universe u v w

/-- What one pass over a loop body answers. -/
inductive Pass (ρ : Type v) (σ : Type u) where
  /-- The loop is left with this result. -/
  | leave (result : ρ)
  /-- The loop goes round again with these locals. -/
  | again (locals : σ)

/-- The locals a pass ends with, of a loop that is left with its locals. -/
def Pass.locals {σ : Type u} : Pass σ σ → σ
  | .leave s => s
  | .again s => s

namespace Pass

variable {σ : Type u} {τ : Type w} {ρ : Type v}

/-- A pass in two parts: the second is made unless the first leaves. -/
def andThen (p : Pass ρ σ) (next : σ → Pass ρ τ) : Pass ρ τ :=
  match p with
  | .leave r => .leave r
  | .again s => next s

/-- A pass that leaves with a result in `Post`, or goes on with locals in `Inv`. -/
def Meets (Post : ρ → Prop) (Inv : σ → Prop) : Pass ρ σ → Prop
  | .leave r => Post r
  | .again s => Inv s

variable {Post : ρ → Prop} {Mid : σ → Prop} {Inv : τ → Prop}

theorem Meets.andThen {p : Pass ρ σ} {next : σ → Pass ρ τ} (h : p.Meets Post Mid)
    (hnext : ∀ s, Mid s → (next s).Meets Post Inv) : (p.andThen next).Meets Post Inv := by
  cases p with
  | leave r => exact h
  | again s => exact hnext s h

theorem andThen_again {p : Pass ρ σ} {next : σ → Pass ρ τ} {t : τ} :
    p.andThen next = .again t ↔ ∃ s, p = .again s ∧ next s = .again t := by
  cases p with
  | leave r => simp [Pass.andThen]
  | again s => simp [Pass.andThen]

end Pass

namespace Loop

open Relation

variable {σ : Type u} {ρ : Type v}

/-- What a step keeps, any number of steps keep. -/
theorem steps_inv {step : σ → σ → Prop} (P : σ → Prop) (keeps : ∀ s s', P s → step s s' → P s')
    {s s' : σ} (h : P s) (steps : ReflTransGen step s s') : P s' := by
  induction steps with
  | refl => exact h
  | tail _ last ih => exact keeps _ _ ih last

/-! ## Loops with a measure -/

/-- Run `body` from `s` until it leaves.  `falls` is why it does: every time it goes round again the
measure is smaller. -/
def run (body : σ → Pass ρ σ) (measure : σ → ℕ)
    (falls : ∀ s s', body s = .again s' → measure s' < measure s) (s : σ) : ρ :=
  match _h : body s with
  | .leave r => r
  | .again s' => run body measure falls s'
termination_by measure s
decreasing_by exact falls s s' _h

section Measure

variable {body : σ → Pass ρ σ} {measure : σ → ℕ}
  {falls : ∀ s s', body s = .again s' → measure s' < measure s}

theorem run_leave {s : σ} {r : ρ} (h : body s = .leave r) : run body measure falls s = r := by
  rw [run]
  split
  · rename_i r' h'
    rw [h] at h'
    cases h'
    rfl
  · rename_i s' h'
    rw [h] at h'
    cases h'

theorem run_again {s s' : σ} (h : body s = .again s') :
    run body measure falls s = run body measure falls s' := by
  rw [run]
  split
  · rename_i r h'
    rw [h] at h'
    cases h'
  · rename_i s'' h'
    rw [h] at h'
    cases h'
    rfl

/-- **The invariant rule.**  What holds of the first locals and is kept by every pass that goes
round again holds when the loop is left. -/
theorem run_inv (Inv : σ → Prop) (Post : ρ → Prop)
    (again : ∀ s s', Inv s → body s = .again s' → Inv s')
    (leave : ∀ s r, Inv s → body s = .leave r → Post r) {s : σ} (h : Inv s) :
    Post (run body measure falls s) := by
  induction hm : measure s using Nat.strongRecOn generalizing s with
  | ind m ih =>
    subst hm
    cases hb : body s with
    | leave r =>
      rw [run_leave hb]
      exact leave s r h hb
    | again s' =>
      rw [run_again hb]
      exact ih _ (falls s s' hb) (again s s' h hb) rfl

/-- The invariant rule, for passes that are described as a whole. -/
theorem run_meets (Inv : σ → Prop) (Post : ρ → Prop)
    (pass : ∀ s, Inv s → (body s).Meets Post Inv) {s : σ} (h : Inv s) :
    Post (run body measure falls s) := by
  refine run_inv Inv Post (fun t t' ht hb ↦ ?_) (fun t r ht hb ↦ ?_) h
  · have := pass t ht
    rwa [hb] at this
  · have := pass t ht
    rwa [hb] at this

/-- **Refinement of a loop by a step relation.**  When every pass from locals that satisfy `P` is
some number of steps, to locals that satisfy `P`, so is the whole loop. -/
theorem run_steps {body : σ → Pass σ σ}
    {falls : ∀ s s', body s = .again s' → measure s' < measure s} (step : σ → σ → Prop)
    (P : σ → Prop)
    (pass : ∀ s, P s → ReflTransGen step s (body s).locals ∧ P (body s).locals) {s : σ} (h : P s) :
    ReflTransGen step s (run body measure falls s) ∧ P (run body measure falls s) := by
  refine run_inv (fun t ↦ ReflTransGen step s t ∧ P t) (fun t ↦ ReflTransGen step s t ∧ P t)
    ?_ ?_ ⟨.refl, h⟩
  · rintro t t' ⟨hst, ht⟩ hb
    have hp := pass t ht
    rw [hb] at hp
    exact ⟨hst.trans hp.1, hp.2⟩
  · rintro t t' ⟨hst, ht⟩ hb
    have hp := pass t ht
    rw [hb] at hp
    exact ⟨hst.trans hp.1, hp.2⟩

end Measure

/-! ## Loops with fuel -/

/-- Run `body` from `s` at most `fuel` times; `none` when it has not left by then. -/
def runFor (body : σ → Pass ρ σ) : ℕ → σ → Option ρ
  | 0, _ => none
  | fuel + 1, s =>
    match body s with
    | .leave r => some r
    | .again s' => runFor body fuel s'

section Fuel

variable {body : σ → Pass ρ σ}

theorem runFor_succ_leave {fuel : ℕ} {s : σ} {r : ρ} (h : body s = .leave r) :
    runFor body (fuel + 1) s = some r := by
  rw [runFor, h]

theorem runFor_succ_again {fuel : ℕ} {s s' : σ} (h : body s = .again s') :
    runFor body (fuel + 1) s = runFor body fuel s' := by
  rw [runFor, h]

/-- **The invariant rule**, for a loop that was left within its fuel. -/
theorem runFor_inv (Inv : σ → Prop) (Post : ρ → Prop)
    (again : ∀ s s', Inv s → body s = .again s' → Inv s')
    (leave : ∀ s r, Inv s → body s = .leave r → Post r) :
    ∀ {fuel : ℕ} {s : σ} {r : ρ}, Inv s → runFor body fuel s = some r → Post r
  | 0, _, _, _, h => by cases h
  | fuel + 1, s, r, hs, h => by
    cases hb : body s with
    | leave r' =>
      rw [runFor_succ_leave hb] at h
      cases h
      exact leave s r hs hb
    | again s' =>
      rw [runFor_succ_again hb] at h
      exact runFor_inv Inv Post again leave (again s s' hs hb) h

/-- **Enough fuel.**  A loop is left within its fuel when a measure below the fuel falls every time
it goes round again from locals that satisfy the invariant. -/
theorem runFor_isSome (Inv : σ → Prop) (measure : σ → ℕ)
    (again : ∀ s s', Inv s → body s = .again s' → Inv s' ∧ measure s' < measure s) :
    ∀ {fuel : ℕ} {s : σ}, Inv s → measure s < fuel → (runFor body fuel s).isSome
  | 0, _, _, hf => absurd hf (Nat.not_lt_zero _)
  | fuel + 1, s, hs, hf => by
    cases hb : body s with
    | leave r => rw [runFor_succ_leave hb]; rfl
    | again s' =>
      obtain ⟨hs', hlt⟩ := again s s' hs hb
      rw [runFor_succ_again hb]
      exact runFor_isSome Inv measure again hs' (by omega)

end Fuel

/-! ## Loops that may fail -/

/-- Run `body` from `s` at most `fuel` times, until it leaves or fails; `spent` when that was not
enough. -/
def tryFor {ε : Type w} (spent : ε) (body : σ → Except ε (Pass ρ σ)) : ℕ → σ → Except ε ρ
  | 0, _ => .error spent
  | fuel + 1, s =>
    match body s with
    | .error e => .error e
    | .ok (.leave r) => .ok r
    | .ok (.again s') => tryFor spent body fuel s'

section Try

variable {ε : Type w} {spent : ε} {body : σ → Except ε (Pass ρ σ)} {fuel : ℕ} {s : σ}

theorem tryFor_leave {r : ρ} (h : body s = .ok (.leave r)) :
    tryFor spent body (fuel + 1) s = .ok r := by
  rw [tryFor, h]

theorem tryFor_again {s' : σ} (h : body s = .ok (.again s')) :
    tryFor spent body (fuel + 1) s = tryFor spent body fuel s' := by
  rw [tryFor, h]

end Try

/-- **The rule for two such loops**, whose passes come to the same from locals that satisfy the
invariant. -/
theorem tryFor_both {ε : Type w} {spent : ε} {body body' : σ → Except ε (Pass ρ σ)} (E : ε → Prop)
    (Post : ρ → Prop) (Inv : σ → Prop) (measure : σ → ℕ)
    (pass : ∀ s, Inv s →
      Except.Both E (Pass.Meets Post fun s' ↦ Inv s' ∧ measure s' < measure s) (body s) (body' s)) :
    ∀ {fuel : ℕ} {s : σ}, Inv s → measure s < fuel →
      Except.Both E Post (tryFor spent body fuel s) (tryFor spent body' fuel s)
  | 0, _, _, hf => absurd hf (Nat.not_lt_zero _)
  | fuel + 1, s, hs, hf => by
    obtain ⟨heq, hmeets⟩ := pass s hs
    rw [tryFor, tryFor, ← heq]
    rcases h : body s with e | p
    · rw [h] at hmeets
      exact .error hmeets
    · rw [h] at hmeets
      cases p with
      | leave r => exact .ok hmeets
      | again s' => exact tryFor_both E Post Inv measure pass hmeets.1 (by have := hmeets.2; omega)

end Loop
