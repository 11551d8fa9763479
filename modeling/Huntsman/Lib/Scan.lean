import Mathlib.Data.List.Infix

/-!
# Looking for a text in a text

A search for a text goes from left to right, and where it has found the text it goes on behind it.
`replace` is the search that puts another text in its place, and `before` is what stands before the
first place.

A text that was put together from parts is searched part by part: `Clear pat s` says that no
occurrence of `pat` begins in `s`, whatever stands behind `s`, so that a search goes through `s` and
leaves it as it is.
-/

set_option autoImplicit false

universe u v

namespace Scan

open List

variable {α : Type u} {β : Type v} {pat new s t : List α} {a c : α}

/-! ## Parts in which nothing is found -/

/-- No occurrence of `pat` begins in the given part, whatever stands behind it. -/
def Clear (pat : List α) : List α → Prop
  | [] => True
  | a :: s => (¬ pat <+: a :: s ∧ ¬ a :: s <+: pat) ∧ Clear pat s

instance decidableClear [DecidableEq α] (pat : List α) : (s : List α) → Decidable (Clear pat s)
  | [] => .isTrue trivial
  | a :: s =>
    have := decidableClear pat s
    inferInstanceAs (Decidable ((¬ pat <+: a :: s ∧ ¬ a :: s <+: pat) ∧ Clear pat s))

theorem Clear.not_prefix (h : Clear pat (a :: s)) (rest : List α) : ¬ pat <+: a :: s ++ rest := by
  intro hpat
  rcases prefix_or_prefix_of_prefix hpat (prefix_append (a :: s) rest) with h' | h'
  · exact h.1.1 h'
  · exact h.1.2 h'

theorem Clear.append (hs : Clear pat s) (ht : Clear pat t) : Clear pat (s ++ t) := by
  induction s with
  | nil => exact ht
  | cons a s ih =>
    refine ⟨⟨hs.not_prefix t, fun hlong ↦ ?_⟩, ih hs.2⟩
    exact hs.1.2 ((prefix_append (a :: s) t).trans hlong)

/-- Nothing begins where the first character of `pat` does not stand. -/
theorem Clear.of_not_mem (h : c ∉ s) (w : List α) : Clear (c :: w) s := by
  induction s with
  | nil => trivial
  | cons a s ih =>
    rw [mem_cons, not_or] at h
    refine ⟨⟨fun hpat ↦ ?_, fun hpat ↦ ?_⟩, ih h.2⟩
    · exact h.1 (cons_prefix_cons.1 hpat).1
    · exact h.1 (cons_prefix_cons.1 hpat).1.symm

theorem Clear.flatMap {f : β → List α} {l : List β} (h : ∀ b ∈ l, Clear pat (f b)) :
    Clear pat (l.flatMap f) := by
  induction l with
  | nil => trivial
  | cons b l ih =>
    rw [flatMap_cons]
    exact (h b (.head _)).append (ih fun b' hb' ↦ h b' (mem_cons_of_mem b hb'))

/-! ## Replacing -/

section Replace

variable [DecidableEq α]

/-- The text with `new` for each `pat`, where the first characters are still part of what was found
last. -/
def replaceAux (pat new : List α) : ℕ → List α → List α
  | _, [] => []
  | skip + 1, _ :: rest => replaceAux pat new skip rest
  | 0, a :: rest =>
    if pat <+: a :: rest then new ++ replaceAux pat new (pat.length - 1) rest
    else a :: replaceAux pat new 0 rest

/-- `new` in place of each `pat`, which is not empty. -/
def replace (pat new s : List α) : List α := replaceAux pat new 0 s

theorem replaceAux_append (s rest : List α) :
    replaceAux pat new s.length (s ++ rest) = replace pat new rest := by
  induction s with
  | nil => rfl
  | cons a s ih => exact ih

theorem replace_found (hpat : pat ≠ []) (rest : List α) :
    replace pat new (pat ++ rest) = new ++ replace pat new rest := by
  obtain ⟨a, pat, rfl⟩ := exists_cons_of_ne_nil hpat
  have hbegins : a :: pat <+: a :: (pat ++ rest) := prefix_append (a :: pat) rest
  rw [replace, cons_append, replaceAux, if_pos hbegins]
  exact congrArg (new ++ ·) (replaceAux_append pat rest)

theorem replace_clear (h : Clear pat s) (rest : List α) :
    replace pat new (s ++ rest) = s ++ replace pat new rest := by
  induction s with
  | nil => rfl
  | cons a s ih =>
    have hnot : ¬ pat <+: a :: (s ++ rest) := h.not_prefix rest
    rw [replace, cons_append, replaceAux, if_neg hnot]
    exact congrArg (a :: ·) (ih h.2)

/-- In a text written part by part, `new` takes the place of the parts that are `pat`. -/
theorem replace_flatMap (hpat : pat ≠ []) {f g : β → List α}
    (h : ∀ b, f b = pat ∧ g b = new ∨ Clear pat (f b) ∧ g b = f b) (l : List β) :
    replace pat new (l.flatMap f) = l.flatMap g := by
  induction l with
  | nil => rfl
  | cons b l ih =>
    rw [flatMap_cons, flatMap_cons, ← ih]
    rcases h b with ⟨hf, hg⟩ | ⟨hf, hg⟩
    · rw [hf, hg, replace_found hpat]
    · rw [hg, replace_clear hf]

theorem replace_skip (h : ¬ pat <+: a :: s) :
    replace pat new (a :: s) = a :: replace pat new s := by
  rw [replace, replaceAux, if_neg h]
  rfl

/-- What holds of a text is shown along the search: where `pat` is found, and where a character is
passed. -/
theorem search_induction (hpat : pat ≠ []) {motive : List α → Prop} (nil : motive [])
    (found : ∀ rest, motive rest → motive (pat ++ rest))
    (skip : ∀ a s, ¬ pat <+: a :: s → motive s → motive (a :: s)) (s : List α) : motive s := by
  induction hlength : s.length using Nat.strong_induction_on generalizing s with
  | _ n ih =>
    rcases s with _ | ⟨a, s⟩
    · exact nil
    · by_cases hbegins : pat <+: a :: s
      · obtain ⟨rest, hrest⟩ := hbegins
        have hpos := length_pos_iff.2 hpat
        have hsum := congrArg length hrest
        rw [length_append] at hsum
        exact hrest ▸ found rest (ih _ (by omega) rest rfl)
      · exact skip a s hbegins (ih _ (by rw [← hlength]; exact Nat.lt_succ_self _) s rfl)

/-! ## Counting -/

/-- At how many places `pat`, which is not empty, begins. -/
def occurrences (pat : List α) : List α → ℕ
  | [] => 0
  | a :: s => (if pat <+: a :: s then 1 else 0) + occurrences pat s

theorem occurrences_append_le (pat s t : List α) :
    occurrences pat s + occurrences pat t ≤ occurrences pat (s ++ t) := by
  induction s with
  | nil => rw [occurrences, Nat.zero_add, nil_append]
  | cons a s ih =>
    have hbegins : (if pat <+: a :: s then 1 else 0) ≤ if pat <+: a :: (s ++ t) then 1 else 0 := by
      split
      · rename_i h
        have hlong : pat <+: a :: (s ++ t) := h.trans (prefix_append (a :: s) t)
        rw [if_pos hlong]
      · exact Nat.zero_le _
    rw [cons_append, occurrences, occurrences]
    omega

theorem occurrences_pos_of_isPrefix (h : pat <+: a :: s) : 0 < occurrences pat (a :: s) := by
  rw [occurrences, if_pos h]
  exact Nat.add_pos_left Nat.one_pos _

/-- Nothing begins in a clear part. -/
theorem Clear.occurrences_append (h : Clear pat s) (rest : List α) :
    occurrences pat (s ++ rest) = occurrences pat rest := by
  induction s with
  | nil => rfl
  | cons a s ih =>
    have hnot : ¬ pat <+: a :: (s ++ rest) := h.not_prefix rest
    rw [cons_append, occurrences, if_neg hnot, Nat.zero_add, ih h.2]

/-- What does not occur is not replaced. -/
theorem replace_eq_self (h : occurrences pat s = 0) : replace pat new s = s := by
  induction s with
  | nil => rfl
  | cons a s ih =>
    rw [occurrences, Nat.add_eq_zero_iff] at h
    have hnot : ¬ pat <+: a :: s := fun hbegins ↦ by simp [hbegins] at h
    rw [replace_skip hnot, ih h.2]

/-- What occurs once is replaced there. -/
theorem replace_once (hpat : pat ≠ [])
    (h : occurrences pat (s ++ (pat ++ t)) = 1) :
    replace pat new (s ++ (pat ++ t)) = s ++ (new ++ t) := by
  have hfirst : ∀ t, 0 < occurrences pat (pat ++ t) := by
    intro t
    obtain ⟨a, pat, rfl⟩ := exists_cons_of_ne_nil hpat
    exact occurrences_pos_of_isPrefix (prefix_append (a :: pat) t)
  induction s with
  | nil =>
    have hrest : occurrences pat t = 0 := by
      have hpos := hfirst []
      have hle := occurrences_append_le pat pat t
      rw [append_nil] at hpos
      rw [nil_append] at h
      omega
    rw [nil_append, nil_append, replace_found hpat, replace_eq_self hrest]
  | cons a s ih =>
    have hpos := (hfirst t).trans_le
      ((Nat.le_add_left _ _).trans (occurrences_append_le pat s (pat ++ t)))
    rw [cons_append, occurrences] at h
    have hnot : ¬ pat <+: a :: (s ++ (pat ++ t)) := by
      intro hbegins
      rw [if_pos hbegins] at h
      omega
    rw [if_neg hnot, Nat.zero_add] at h
    rw [cons_append, replace_skip hnot, ih h, cons_append]

end Replace

/-! ## The part before a text -/

/-- What stands before the first `pat`, which is not empty. -/
def before [DecidableEq α] (pat : List α) : List α → Option (List α)
  | [] => none
  | a :: rest => if pat <+: a :: rest then some [] else (before pat rest).map (a :: ·)

theorem before_clear [DecidableEq α] (hpat : pat ≠ []) (h : Clear pat s) (rest : List α) :
    before pat (s ++ (pat ++ rest)) = some s := by
  induction s with
  | nil =>
    obtain ⟨a, pat, rfl⟩ := exists_cons_of_ne_nil hpat
    have hbegins : a :: pat <+: a :: (pat ++ rest) := prefix_append (a :: pat) rest
    rw [nil_append, cons_append, before, if_pos hbegins]
  | cons a s ih =>
    have hnot : ¬ pat <+: a :: (s ++ (pat ++ rest)) := h.not_prefix (pat ++ rest)
    rw [cons_append, before, if_neg hnot, ih h.2]
    rfl

end Scan
