import Mathlib.Data.List.Basic

/-!
# Codes that delimit themselves

`code a` is how `a` is written.  A code is `Delimited` when what is written first can be read off
whatever follows it, which makes a record's code, its fields' codes one after the other, as
unambiguous as each of them (`Delimited.pair`), and a list's too (`Delimited.flatMap_injective`).
-/

set_option autoImplicit false

namespace Codes

open List

universe u v w

variable {α : Type u} {β : Type v} {γ : Type w}

/-- What is written first can be read off whatever follows it. -/
def Delimited (code : α → List β) : Prop :=
  ∀ a b s t, code a ++ s = code b ++ t → a = b ∧ s = t

variable {code : α → List β} {other : γ → List β}

theorem Delimited.injective (h : Delimited code) : Function.Injective code := fun a b hab ↦
  (h a b [] [] (by rw [hab])).1

/-- Two lists differ somewhere, or one of them begins with the other. -/
theorem prefix_or_differ (xs ys : List β) : xs <+: ys ∨ ys <+: xs ∨
    ∃ same x xs' y ys', x ≠ y ∧ xs = same ++ x :: xs' ∧ ys = same ++ y :: ys' := by
  induction xs generalizing ys with
  | nil => exact .inl nil_prefix
  | cons x xs ih =>
    rcases ys with _ | ⟨y, ys⟩
    · exact .inr (.inl nil_prefix)
    · by_cases hxy : x = y
      · subst hxy
        rcases ih ys with h | h | ⟨same, x', xs', y', ys', hne, rfl, rfl⟩
        · exact .inl (cons_prefix_cons.2 ⟨rfl, h⟩)
        · exact .inr (.inl (cons_prefix_cons.2 ⟨rfl, h⟩))
        · exact .inr (.inr ⟨x :: same, x', xs', y', ys', hne, rfl, rfl⟩)
      · exact .inr (.inr ⟨[], x, xs, y, ys, hxy, rfl, rfl⟩)

/-- Two words of a delimited code differ in a place that both have. -/
theorem Delimited.differ (h : Delimited code) {a b : α} (hab : a ≠ b) :
    ∃ same x xs y ys, x ≠ y ∧ code a = same ++ x :: xs ∧ code b = same ++ y :: ys := by
  rcases prefix_or_differ (code a) (code b) with ⟨t, ht⟩ | ⟨t, ht⟩ | hdiffer
  · exact absurd (h a b t [] (ht.trans (append_nil _).symm)).1 hab
  · exact absurd (h b a t [] (ht.trans (append_nil _).symm)).1 hab.symm
  · exact hdiffer

theorem Delimited.of_length (hlength : ∀ a b, (code a).length = (code b).length)
    (hinjective : Function.Injective code) : Delimited code := by
  intro a b s t h
  obtain ⟨hcode, hrest⟩ := append_inj h (hlength a b)
  exact ⟨hinjective hcode, hrest⟩

theorem Delimited.pair (hfirst : Delimited code) (hsecond : Delimited other) :
    Delimited fun p : α × γ ↦ code p.1 ++ other p.2 := by
  rintro ⟨a, c⟩ ⟨b, d⟩ s t h
  simp only [append_assoc] at h
  obtain ⟨rfl, hrest⟩ := hfirst _ _ _ _ h
  obtain ⟨rfl, hst⟩ := hsecond _ _ _ _ hrest
  exact ⟨rfl, hst⟩

theorem Delimited.comp (h : Delimited code) {f : γ → α} (hf : Function.Injective f) :
    Delimited fun c ↦ code (f c) := by
  intro c d s t hcd
  obtain ⟨hfc, hst⟩ := h _ _ _ _ hcd
  exact ⟨hf hfc, hst⟩

/-- An optional text, a tag before it that says whether it is there. -/
def optional (absent present : β) (code : α → List β) : Option α → List β
  | none => [absent]
  | some a => present :: code a

theorem Delimited.optional (h : Delimited code) {absent present : β} (htags : absent ≠ present) :
    Delimited (optional absent present code) := by
  intro x y s t hxy
  rcases x with _ | a
  · rcases y with _ | b
    · exact ⟨rfl, (cons.inj hxy).2⟩
    · exact absurd (cons.inj hxy).1 htags
  · rcases y with _ | b
    · exact absurd (cons.inj hxy).1.symm htags
    · obtain ⟨rfl, hst⟩ := h _ _ _ _ (cons.inj hxy).2
      exact ⟨rfl, hst⟩

/-- A text is delimited by its length written before it, if the length is. -/
theorem Delimited.framed (size : ℕ → List γ) {ok : List γ → Prop}
    (hsize : ∀ xs ys s t, ok xs → ok ys → size xs.length ++ s = size ys.length ++ t →
      xs.length = ys.length ∧ s = t) :
    Delimited fun xs : {xs : List γ // ok xs} ↦ size xs.1.length ++ xs.1 := by
  rintro ⟨xs, hx⟩ ⟨ys, hy⟩ s t h
  simp only [append_assoc] at h
  obtain ⟨hlength, hrest⟩ := hsize xs ys _ _ hx hy h
  obtain ⟨htext, hrest⟩ := append_inj hrest hlength
  exact ⟨Subtype.ext htext, hrest⟩

/-- Texts of a delimited code that has no empty word are read back one after the other. -/
theorem Delimited.flatMap_injective (h : Delimited code) (hne : ∀ a, code a ≠ []) :
    Function.Injective fun xs : List α ↦ xs.flatMap code := by
  intro xs ys hxy
  induction xs generalizing ys with
  | nil =>
    rcases ys with _ | ⟨y, ys⟩
    · rfl
    · simp only [flatMap_nil, flatMap_cons] at hxy
      exact absurd (append_eq_nil_iff.1 hxy.symm).1 (hne y)
  | cons x xs ih =>
    rcases ys with _ | ⟨y, ys⟩
    · simp only [flatMap_nil, flatMap_cons] at hxy
      exact absurd (append_eq_nil_iff.1 hxy).1 (hne x)
    · simp only [flatMap_cons] at hxy
      obtain ⟨rfl, hrest⟩ := h _ _ _ _ hxy
      rw [ih hrest]

/-- What a text's code begins with, if it is a text's code too, is the code of the text's
beginning. -/
theorem Delimited.of_flatMap_append (h : Delimited code) (hne : ∀ a, code a ≠ []) {xs ys : List α}
    {s : List β} (hxy : xs.flatMap code ++ s = ys.flatMap code) :
    ∃ zs, ys = xs ++ zs ∧ s = zs.flatMap code := by
  induction xs generalizing ys with
  | nil => exact ⟨ys, rfl, hxy⟩
  | cons x xs ih =>
    rcases ys with _ | ⟨y, ys⟩
    · rw [flatMap_cons, append_assoc, flatMap_nil] at hxy
      exact absurd (append_eq_nil_iff.1 hxy).1 (hne x)
    · rw [flatMap_cons, append_assoc, flatMap_cons] at hxy
      obtain ⟨rfl, hrest⟩ := h _ _ _ _ hxy
      obtain ⟨zs, rfl, hs⟩ := ih hrest
      exact ⟨zs, rfl, hs⟩

end Codes
