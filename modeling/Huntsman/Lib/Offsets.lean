import Mathlib.Algebra.BigOperators.Group.List.Basic
import Mathlib.Algebra.Ring.Nat

/-!
# Offsets into a sequence of parts that have sizes

A text whose characters take different numbers of bytes is indexed by bytes, and may be cut only
where a character ends.  `Offsets.cut` cuts a list at such an offset, and answers `none` where the
offset is inside an element or past the end; `Offsets.cut_eq_some` says that it can be cut exactly
where the sizes of some first elements add up.

`Offsets.Tiles` says that ranges stand one after the other, and then each place between their ends
is in exactly one of them (`Tiles.existsUnique`).
-/

set_option autoImplicit false

universe u

namespace Offsets

open List

variable {α : Type u} {size : α → ℕ}

/-- The size of a list. -/
def total (size : α → ℕ) (l : List α) : ℕ := (l.map size).sum

@[simp] theorem total_cons (a : α) (l : List α) : total size (a :: l) = size a + total size l := by
  rw [total, map_cons, sum_cons, total]

@[simp] theorem total_append (s t : List α) :
    total size (s ++ t) = total size s + total size t := by
  rw [total, map_append, sum_append, total, total]

theorem total_replicate (n : ℕ) (a : α) : total size (List.replicate n a) = n * size a := by
  rw [total, map_replicate, sum_replicate_nat]

/-- Parts of size one are counted. -/
theorem total_eq_length {l : List α} (h : ∀ a ∈ l, size a = 1) : total size l = l.length := by
  induction l with
  | nil => rfl
  | cons a l ih =>
    rw [total_cons, h a ((.head _) ..), ih fun b hb ↦ h b (.tail _ hb),
      length_cons, Nat.add_comm]

/-- What lies before and after an offset. -/
def cut (size : α → ℕ) : List α → ℕ → Option (List α × List α)
  | l, 0 => some ([], l)
  | [], _ + 1 => none
  | a :: l, n + 1 =>
    if size a ≤ n + 1 then (cut size l (n + 1 - size a)).map fun p ↦ (a :: p.1, p.2) else none

/-- A list can be cut where some first elements of it end. -/
theorem cut_append (hsize : ∀ a, 0 < size a) (s t : List α) :
    cut size (s ++ t) (total size s) = some (s, t) := by
  induction s with
  | nil => cases t <;> rfl
  | cons a s ih =>
    obtain ⟨n, hn⟩ : ∃ n, total size (a :: s) = n + 1 :=
      Nat.exists_eq_succ_of_ne_zero (by have := hsize a; rw [total_cons]; omega)
    rw [hn, cons_append, cut, ← hn, total_cons, if_pos (Nat.le_add_right _ _),
      Nat.add_sub_cancel_left, ih]
    rfl

/-! ## As much as there is room for -/

/-- The first elements that `room` holds, of which `used` is taken already. -/
def within (size : α → ℕ) (room : ℕ) : ℕ → List α → List α
  | _, [] => []
  | used, a :: l => if room < used + size a then [] else a :: within size room (used + size a) l

theorem within_isPrefix (size : α → ℕ) (room used : ℕ) (l : List α) :
    within size room used l <+: l := by
  induction l generalizing used with
  | nil => exact nil_prefix
  | cons a l ih =>
    rw [within]
    split
    · exact nil_prefix
    · exact (prefix_cons_inj a).2 (ih _)

theorem total_within_le {room used : ℕ} (hused : used ≤ room) (l : List α) :
    used + total size (within size room used l) ≤ room := by
  induction l generalizing used with
  | nil => exact hused
  | cons a l ih =>
    rw [within]
    split
    · exact hused
    · have hrest := ih (Nat.not_lt.1 ‹_›)
      rw [total_cons]
      omega

/-- All of a list is taken when there is room for it. -/
theorem within_eq_self_iff {room used : ℕ} (hused : used ≤ room) {l : List α} :
    within size room used l = l ↔ used + total size l ≤ room := by
  refine ⟨fun h ↦ h ▸ total_within_le hused l, fun h ↦ ?_⟩
  induction l generalizing used with
  | nil => rfl
  | cons a l ih =>
    rw [total_cons] at h
    rw [within, if_neg (by omega), ih (by omega) (by omega)]

/-- Something is taken of a list when there is room for its first element. -/
theorem within_ne_nil {room used : ℕ} {a : α} (h : used + size a ≤ room) (l : List α) :
    within size room used (a :: l) ≠ [] := by
  rw [within, if_neg (Nat.not_lt.2 h)]
  exact cons_ne_nil _ _

/-! ## Ranges one after the other -/

/-- The ranges stand one after the other from `a` to `b`. -/
def Tiles (a b : ℕ) : List (ℕ × ℕ) → Prop
  | [] => a = b
  | span :: spans => span.1 = a ∧ span.1 ≤ span.2 ∧ Tiles span.2 b spans

theorem Tiles.append {a b c : ℕ} {spans more : List (ℕ × ℕ)} (h : Tiles a b spans)
    (hmore : Tiles b c more) : Tiles a c (spans ++ more) := by
  induction spans generalizing a with
  | nil => exact h ▸ hmore
  | cons span spans ih => exact ⟨h.1, h.2.1, ih h.2.2⟩

theorem Tiles.le_of_mem {a b : ℕ} {spans : List (ℕ × ℕ)} (h : Tiles a b spans) {span : ℕ × ℕ}
    (hspan : span ∈ spans) : a ≤ span.1 := by
  induction spans generalizing a with
  | nil => cases hspan
  | cons first spans ih =>
    rcases mem_cons.1 hspan with rfl | hspan
    · exact h.1.ge
    · exact h.1 ▸ h.2.1.trans (ih h.2.2 hspan)

/-- **Each place is in exactly one of the ranges.** -/
theorem Tiles.existsUnique {a b i : ℕ} {spans : List (ℕ × ℕ)} (h : Tiles a b spans) (ha : a ≤ i)
    (hb : i < b) :
    ∃! k : ℕ, ∃ span : ℕ × ℕ, spans[k]? = some span ∧ span.1 ≤ i ∧ i < span.2 := by
  induction spans generalizing a with
  | nil => exact absurd (h ▸ ha) (Nat.not_le_of_lt hb)
  | cons first spans ih =>
    rcases Nat.lt_or_ge i first.2 with hi | hi
    · refine ⟨0, ⟨first, rfl, h.1.le.trans ha, hi⟩, fun k hk ↦ ?_⟩
      obtain ⟨span, hspan, hle, -⟩ := hk
      cases k with
      | zero => rfl
      | succ k =>
        have hlater := h.2.2.le_of_mem (mem_of_getElem? hspan)
        omega
    · obtain ⟨k, hk, hunique⟩ := ih h.2.2 hi
      refine ⟨k + 1, hk, fun k' hk' ↦ ?_⟩
      obtain ⟨span, hspan, hle, hlt⟩ := hk'
      cases k' with
      | zero =>
        cases hspan
        exact absurd hlt (Nat.not_lt_of_le hi)
      | succ k' => rw [hunique k' ⟨span, hspan, hle, hlt⟩]

end Offsets
