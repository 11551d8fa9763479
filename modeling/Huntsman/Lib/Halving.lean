import Mathlib.Data.List.Infix

/-!
# Naming places by halvings

A place is cut in two, and of the halves one is taken: `split` takes the one that a bit names, and
`choose` is the bit of the half in which a point is looked for.  A list of bits names the place that
is left after all of them (`Halving.run`), and the bits of a point are those of the places it is
looked for in (`Halving.bits`).

A point is in the place that its bits name (`mem_run_bits`), and a point well inside a place has the
bits that name it (`bits_of_inside`).
-/

set_option autoImplicit false

universe u v

namespace Halving

variable {σ : Type u} {π : Type v} (split : Bool → σ → σ) (choose : π → σ → Bool)

/-- The place that bits name. -/
def run (s : σ) : List Bool → σ
  | [] => s
  | b :: bs => run (split b s) bs

/-- The first bits of a point. -/
def bits (p : π) : ℕ → σ → List Bool
  | 0, _ => []
  | n + 1, s => choose p s :: bits p n (split (choose p s) s)

theorem run_append (s : σ) (bs cs : List Bool) :
    run split s (bs ++ cs) = run split (run split s bs) cs := by
  induction bs generalizing s with
  | nil => rfl
  | cons b bs ih => exact ih (split b s)

theorem length_bits (p : π) (n : ℕ) (s : σ) : (bits split choose p n s).length = n := by
  induction n generalizing s with
  | zero => rfl
  | succ n ih => rw [bits, List.length_cons, ih]

theorem bits_add (p : π) (m n : ℕ) (s : σ) : bits split choose p (m + n) s =
    bits split choose p m s ++ bits split choose p n (run split s (bits split choose p m s)) := by
  induction m generalizing s with
  | zero => rw [Nat.zero_add]; rfl
  | succ m ih => rw [Nat.succ_add, bits, ih, bits, List.cons_append, run]

variable {split choose}

/-- A property that halving keeps. -/
theorem run_inv {P : σ → Prop} (hP : ∀ b s, P s → P (split b s)) {s : σ} (hs : P s)
    (bs : List Bool) : P (run split s bs) := by
  induction bs generalizing s with
  | nil => exact hs
  | cons b bs ih => exact ih (hP b s hs)

/-- **A point is in the place that its bits name.** -/
theorem mem_run_bits {In : π → σ → Prop} (h : ∀ p s, In p s → In p (split (choose p s) s)) {p : π}
    {s : σ} (hp : In p s) (n : ℕ) : In p (run split s (bits split choose p n s)) := by
  induction n generalizing s with
  | zero => exact hp
  | succ n ih => exact ih (h p s hp)

/-- **A point well inside a place has the bits that name it**, where all places to cut are proper
ones. -/
theorem bits_of_inside {P : σ → Prop} (hP : ∀ b s, P s → P (split b s)) {Inside : π → σ → Prop}
    (hsub : ∀ p b s, P s → Inside p (split b s) → Inside p s ∧ choose p s = b) {p : π}
    {bs : List Bool} {s : σ} (hs : P s) (hp : Inside p (run split s bs)) :
    Inside p s ∧ bits split choose p bs.length s = bs := by
  induction bs generalizing s with
  | nil => exact ⟨hp, rfl⟩
  | cons b bs ih =>
    obtain ⟨hsplit, hbits⟩ := ih (hP b s hs) hp
    obtain ⟨hin, hb⟩ := hsub p b s hs hsplit
    exact ⟨hin, by rw [List.length_cons, bits, hb, hbits]⟩

end Halving
