import Mathlib.Algebra.BigOperators.Group.List.Basic
import Mathlib.Algebra.Ring.Nat

/-!
# Computations that may refuse

A check in a program either goes on or refuses with an error, and a sequence of checks is a
computation in `Except`.  The rules here take such a computation apart: a sequence went through when
each of its parts did (`Except.bind_ok`), and what every step of a fold keeps holds of its end
(`Except.foldlM_inv`).  A fold none of whose steps refuses goes through (`Except.foldlM_ok`), and so
does a list none of whose elements is refused (`Except.mapM_ok`).

Two computations that go the same way are compared part by part (`Except.Sim`): they come to results
that belong together, or one refuses with the other's error.

An error that stands for a defect is one that must never come: `Except.Avoids e x` says that `x`
does not end with `e`, and goes step by step (`Except.Avoids.bind`).
-/

set_option autoImplicit false

universe u v w

namespace Except

variable {ε : Type u} {α β σ τ : Type v} {ι : Type w}

/-- Refuse unless `p` holds. -/
def ensure (p : Prop) [Decidable p] (error : ε) : Except ε Unit :=
  if p then .ok () else .error error

theorem ensure_ok {p : Prop} [Decidable p] {error : ε} {u : Unit} :
    ensure p error = .ok u ↔ p := by
  by_cases h : p <;> simp [ensure, h]

/-- A computation followed by another went through when both did. -/
theorem bind_ok {x : Except ε α} {f : α → Except ε β} {b : β} :
    x >>= f = .ok b ↔ ∃ a, x = .ok a ∧ f a = .ok b := by
  cases x with
  | error e => simp [bind, Except.bind]
  | ok a => simp [bind, Except.bind]

theorem bind_of_ok {x : Except ε α} {a : α} (h : x = .ok a) (f : α → Except ε β) :
    x >>= f = f a := by
  rw [h]
  rfl

section Map

variable {γ : Type v}

theorem map_eq_ok {x : Except ε α} {g : α → β} {b : β} : x.map g = .ok b ↔ ∃ a, x = .ok a ∧ g a = b := by
  cases x with
  | error e => simp [Except.map]
  | ok a => simp [Except.map]

theorem map_eq_bind (x : Except ε α) (g : α → β) : x.map g = x.bind fun a ↦ .ok (g a) := by
  cases x <;> rfl

theorem bind_map (x : Except ε α) (f : α → β) (g : β → Except ε γ) :
    (x.map f).bind g = x.bind fun a ↦ g (f a) := by
  cases x <;> rfl

theorem map_bind (x : Except ε α) (f : α → Except ε β) (g : β → γ) :
    (x.bind f).map g = x.bind fun a ↦ (f a).map g := by
  cases x <;> rfl

end Map

variable {f : σ → ι → Except ε σ}

variable {s : σ} {l : List ι}

theorem foldlM_cons_ok {i : ι} {rest : List ι} {s' : σ} :
    (i :: rest).foldlM f s = .ok s' ↔ ∃ t, f s i = .ok t ∧ rest.foldlM f t = .ok s' := by
  rw [List.foldlM_cons, bind_ok]

/-- **The invariant rule** of a fold that went through. -/
theorem foldlM_inv (Inv : List ι → σ → Prop)
    (keeps : ∀ i rest s s', Inv (i :: rest) s → f s i = .ok s' → Inv rest s') {s' : σ}
    (h : Inv l s) (hf : l.foldlM f s = .ok s') : Inv [] s' := by
  induction l generalizing s with
  | nil =>
    cases hf
    exact h
  | cons i rest ih =>
    obtain ⟨t, ht, hrest⟩ := foldlM_cons_ok.1 hf
    exact ih (keeps i rest s t h ht) hrest

/-- **A fold goes through** when no step refuses from where the invariant holds. -/
theorem foldlM_ok (Inv : List ι → σ → Prop)
    (keeps : ∀ i rest s, Inv (i :: rest) s → ∃ s', f s i = .ok s' ∧ Inv rest s')
    (h : Inv l s) : ∃ s', l.foldlM f s = .ok s' ∧ Inv [] s' := by
  induction l generalizing s with
  | nil => exact ⟨s, rfl, h⟩
  | cons i rest ih =>
    obtain ⟨t, ht, hinv⟩ := keeps i rest s h
    obtain ⟨s', hs', hend⟩ := ih hinv
    exact ⟨s', foldlM_cons_ok.2 ⟨t, ht, hs'⟩, hend⟩

/-- A list none of whose elements is refused. -/
theorem mapM_ok {f : ι → Except ε α} {g : ι → α} (h : ∀ i ∈ l, f i = .ok (g i)) :
    l.mapM f = .ok (l.map g) := by
  induction l with
  | nil => rfl
  | cons i rest ih =>
    rw [List.mapM_cons, h i (.head _), ih fun j hj ↦ h j (.tail _ hj)]
    rfl

/-- What a list whose elements are accepted comes to. -/
theorem getElem?_mapM {f : ι → Except ε α} {ys : List α} (h : l.mapM f = .ok ys) {k : ℕ}
    {i : ι} (hi : l[k]? = some i) : ∃ y, f i = .ok y ∧ ys[k]? = some y := by
  induction l generalizing ys k with
  | nil => cases hi
  | cons j rest ih =>
    rw [List.mapM_cons] at h
    obtain ⟨y, hy, h⟩ := bind_ok.1 h
    obtain ⟨more, hmore, h⟩ := bind_ok.1 h
    cases h
    rcases k with _ | k
    · cases hi
      exact ⟨y, hy, rfl⟩
    · exact ih hmore hi

/-- Every check of a sequence of checks went through. -/
theorem forM_ok {check : ι → Except ε Unit} {u : Unit} :
    l.forM check = .ok u ↔ ∀ i ∈ l, check i = .ok () := by
  induction l with
  | nil => simp [pure, Except.pure]
  | cons i rest ih =>
    rw [List.forall_mem_cons, ← ih]
    exact bind_ok.trans ⟨fun ⟨_, h⟩ ↦ h, fun h ↦ ⟨(), h⟩⟩

/-- **The rule for sums**: a fold whose steps add a weight, unless that goes over a limit, adds up
the weights. -/
theorem foldlM_sum {f : ℕ → ι → Except ε ℕ} (ok : ι → Prop) (weight : ι → ℕ) {limit : ℕ}
    (step : ∀ n i n', n ≤ limit →
      (f n i = .ok n' ↔ ok i ∧ n + weight i ≤ limit ∧ n' = n + weight i))
    {n n' : ℕ} (hn : n ≤ limit) : l.foldlM f n = .ok n' ↔
      (∀ i ∈ l, ok i) ∧ n + (l.map weight).sum ≤ limit ∧ n' = n + (l.map weight).sum := by
  induction l generalizing n with
  | nil => simp [pure, Except.pure, hn, eq_comm]
  | cons i rest ih =>
    rw [foldlM_cons_ok, List.forall_mem_cons, List.map_cons, List.sum_cons, ← Nat.add_assoc]
    constructor
    · rintro ⟨m, hm, hrest⟩
      obtain ⟨hi, hle, rfl⟩ := (step n i m hn).1 hm
      obtain ⟨hok, hlimit, hsum⟩ := (ih hle).1 hrest
      exact ⟨⟨hi, hok⟩, hlimit, hsum⟩
    · rintro ⟨⟨hi, hok⟩, hlimit, hsum⟩
      have hle : n + weight i ≤ limit := Nat.le_trans (Nat.le_add_right _ _) hlimit
      exact ⟨_, (step n i _ hn).2 ⟨hi, hle, rfl⟩, (ih hle).2 ⟨hok, hlimit, hsum⟩⟩

/-! ## Two computations side by side -/

/-- `x` comes to what `y` does: to results that `R` relates, or to the error of `y` as `e` puts
it. -/
inductive Sim {δ : Type w} (e : ε → δ) (R : α → β → Prop) : Except δ α → Except ε β → Prop
  | ok {a : α} {b : β} : R a b → Sim e R (.ok a) (.ok b)
  | error (err : ε) : Sim e R (.error (e err)) (.error err)

namespace Sim

variable {δ : Type w} {e : ε → δ} {R : α → β → Prop} {x : Except δ α} {y : Except ε β}

/-- **The rule for sequences**: the second parts are compared on what the first come to. -/
theorem bind {S : σ → τ → Prop} {f : α → Except δ σ} {g : β → Except ε τ} (h : Sim e R x y)
    (hfg : ∀ a b, x = .ok a → y = .ok b → R a b → Sim e S (f a) (g b)) :
    Sim e S (x >>= f) (y >>= g) := by
  cases h with
  | ok hr => exact hfg _ _ rfl rfl hr
  | error err => exact .error err

/-- What comes to something is as good as left out. -/
theorem ok_bind {S : σ → β → Prop} {f : α → Except δ σ} {a : α} (hx : x = .ok a)
    (h : Sim e S (f a) y) : Sim e S (x >>= f) y := by
  rw [hx]
  exact h

theorem ite {p : Prop} [Decidable p] {x' : Except δ α} {y' : Except ε β} (hpos : p → Sim e R x y)
    (hneg : ¬ p → Sim e R x' y') : Sim e R (if p then x else x') (if p then y else y') := by
  by_cases h : p
  · rw [if_pos h, if_pos h]
    exact hpos h
  · rw [if_neg h, if_neg h]
    exact hneg h

theorem mono {S : α → β → Prop} (h : Sim e R x y) (hrs : ∀ a b, R a b → S a b) : Sim e S x y := by
  cases h with
  | ok hr => exact .ok (hrs _ _ hr)
  | error err => exact .error err

theorem map {S : σ → τ → Prop} {f : α → σ} {g : β → τ} (h : Sim e R x y)
    (hfg : ∀ a b, R a b → S (f a) (g b)) : Sim e S (x.map f) (y.map g) := by
  cases h with
  | ok hr => exact .ok (hfg _ _ hr)
  | error err => exact .error err

theorem map_left {S : σ → β → Prop} {f : α → σ} (h : Sim e R x y)
    (hf : ∀ a b, R a b → S (f a) b) : Sim e S (x.map f) y := by
  cases h with
  | ok hr => exact .ok (hf _ _ hr)
  | error err => exact .error err

theorem mapError (y : Except ε α) : Sim e (fun a b ↦ a = b) (y.mapError e) y := by
  cases y with
  | ok a => exact .ok rfl
  | error err => exact .error err

theorem eq_mapError {y : Except ε α} (h : Sim e (fun a b ↦ a = b) x y) : x = y.mapError e := by
  cases h with
  | ok hr => exact congrArg Except.ok hr
  | error err => rfl

end Sim

/-! ## What a computation comes to -/

/-- The computation comes to a result in `P`, or ends with an error in `E`. -/
def Meets (E : ε → Prop) (P : α → Prop) : Except ε α → Prop
  | .ok a => P a
  | .error err => E err

section Meets

variable {E : ε → Prop} {P : α → Prop} {Q : β → Prop}

/-- **The rule for sequences**: the second part goes on from a result of the first. -/
theorem Meets.bind {x : Except ε α} {f : α → Except ε β} (h : Meets E P x)
    (hf : ∀ a, P a → Meets E Q (f a)) : Meets E Q (x >>= f) := by
  cases x with
  | error err => exact h
  | ok a => exact hf a h

theorem Meets.map {x : Except ε α} {f : α → β} (h : Meets E P x) (hf : ∀ a, P a → Q (f a)) :
    Meets E Q (x.map f) := by
  cases x with
  | error err => exact h
  | ok a => exact hf a h

theorem Meets.mono {E' : ε → Prop} {P' : α → Prop} {x : Except ε α} (h : Meets E P x)
    (herror : ∀ err, E err → E' err) (hok : ∀ a, P a → P' a) : Meets E' P' x := by
  cases x with
  | error err => exact herror err h
  | ok a => exact hok a h

theorem meets_mapM {f : ι → Except ε α} (h : ∀ i ∈ l, Meets E (fun _ ↦ True) (f i)) :
    Meets E (fun _ ↦ True) (l.mapM f) := by
  induction l with
  | nil => exact trivial
  | cons i rest ih =>
    rw [List.mapM_cons]
    refine (h i (.head _)).bind fun a _ ↦ ?_
    exact (ih fun j hj ↦ h j (.tail _ hj)).bind fun _ _ ↦ trivial

/-- Two computations are one, which comes to a result in `P` or ends with an error in `E`. -/
structure Both (E : ε → Prop) (P : α → Prop) (x y : Except ε α) : Prop where
  eq : x = y
  meets : Meets E P x

theorem Both.ok {a : α} (h : P a) : Both E P (.ok a) (.ok a) := ⟨rfl, h⟩

theorem Both.error {err : ε} (h : E err) : Both E P (.error err) (.error err : Except ε α) :=
  ⟨rfl, h⟩

theorem Meets.both {x : Except ε α} (h : Meets E P x) : Both E P x x := ⟨rfl, h⟩

theorem Both.bind {x y : Except ε α} {f g : α → Except ε β} (h : Both E P x y)
    (hfg : ∀ a, P a → Both E Q (f a) (g a)) : Both E Q (x >>= f) (y >>= g) := by
  obtain ⟨rfl, h⟩ := h
  cases x with
  | error err => exact .error h
  | ok a => exact hfg a h

end Meets

/-! ## Errors that never come -/

/-- The computation does not end with the error. -/
def Avoids (e : ε) (x : Except ε α) : Prop := x ≠ .error e

section Avoids

variable {e : ε}

theorem avoids_ok (a : α) : Avoids e (.ok a) := fun h ↦ nomatch h

variable {e' : ε}

theorem avoids_error (h : e' ≠ e) : Avoids e (.error e' : Except ε α) :=
  fun h' ↦ h (Except.error.inj h')

theorem Avoids.ne {x : Except ε α} (h : Avoids e x) (hx : x = .error e') : e' ≠ e :=
  fun he ↦ h (he ▸ hx)

theorem avoids_ensure {p : Prop} [Decidable p] (h : e' ≠ e) : Avoids e (ensure p e') := by
  rw [ensure]
  split
  · exact avoids_ok ()
  · exact avoids_error h

/-- **The rule for sequences**: the second part is only reached with what the first gives. -/
theorem Avoids.bind {x : Except ε α} {f : α → Except ε β} (hx : Avoids e x)
    (hf : ∀ a, x = .ok a → Avoids e (f a)) : Avoids e (x >>= f) := by
  cases x with
  | error e' => exact avoids_error (hx.ne rfl)
  | ok a => exact hf a rfl

theorem avoids_foldlM (h : ∀ s i, Avoids e (f s i)) (l : List ι) (s : σ) :
    Avoids e (l.foldlM f s) := by
  induction l generalizing s with
  | nil => exact avoids_ok s
  | cons i rest ih =>
    rw [List.foldlM_cons]
    exact (h s i).bind fun s' _ ↦ ih s'

theorem avoids_mapM {f : ι → Except ε α} (h : ∀ i ∈ l, Avoids e (f i)) :
    Avoids e (l.mapM f) := by
  induction l with
  | nil => exact avoids_ok []
  | cons i rest ih =>
    rw [List.mapM_cons]
    refine (h i (.head _)).bind fun a _ ↦ ?_
    exact (ih fun j hj ↦ h j (.tail _ hj)).bind fun as _ ↦ avoids_ok _

end Avoids

end Except
