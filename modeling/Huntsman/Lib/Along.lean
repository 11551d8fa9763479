import Mathlib.Data.List.Basic

/-!
# What holds along a list

A history is a list that grows at its end.  `Along P` says of each of its entries, with the entries
before it, that `P` holds; it is kept when an entry is appended for which `P` holds
(`Along.append_singleton`), and by nothing else.
-/

set_option autoImplicit false

universe u

variable {α : Type u}

/-- `P` holds of each entry and the entries before it. -/
def Along (P : List α → α → Prop) (history : List α) : Prop :=
  ∀ before entry later, history = before ++ entry :: later → P before entry

namespace Along

variable {P Q : List α → α → Prop} {history : List α} {last : α}

/-- A place in a list that is longer by one. -/
theorem append_singleton_eq {before later : List α} {entry : α}
    (h : history ++ [last] = before ++ entry :: later) :
    (∃ later', history = before ++ entry :: later') ∨ history = before ∧ last = entry := by
  rcases List.eq_nil_or_concat later with rfl | ⟨later', last', rfl⟩
  · obtain ⟨hbefore, hlast⟩ := List.append_inj' h rfl
    exact .inr ⟨hbefore, List.singleton_inj.1 hlast⟩
  · rw [List.concat_eq_append, ← List.cons_append, ← List.append_assoc] at h
    exact .inl ⟨later', (List.append_inj' h rfl).1⟩

theorem nil : Along P [] := by
  intro before entry later h
  simp at h

theorem append_singleton (h : Along P history) (hlast : P history last) :
    Along P (history ++ [last]) := by
  intro before entry later heq
  rcases append_singleton_eq heq with ⟨later', heq'⟩ | ⟨rfl, rfl⟩
  · exact h before entry later' heq'
  · exact hlast

theorem init (h : Along P (history ++ [last])) : Along P history :=
  fun before entry later heq ↦ h before entry (later ++ [last]) (by simp [heq])

theorem at_last (h : Along P (history ++ [last])) : P history last :=
  h history last [] rfl

theorem imp (h : Along P history) (himp : ∀ before entry, P before entry → Q before entry) :
    Along Q history :=
  fun before entry later heq ↦ himp before entry (h before entry later heq)

end Along
