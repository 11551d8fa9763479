import Mathlib.Data.Set.Basic

/-!
# Searches that keep a list of what is still to visit

A search of a graph keeps the vertices it has seen and those it still has to look at.  It takes one
of the latter, skips it when it was seen before, and otherwise marks it and adds the vertices it
leads to.  `Exploring` is what holds in between, whatever order the vertices are taken in, and once
nothing is left to look at the seen vertices are exactly those there were before and those the root
leads to (`Exploring.done`).
-/

set_option autoImplicit false

universe u

variable {α : Type u} {next : α → α → Prop} {old seen todo seen' todo' : Set α} {root x : α}

/-- A search from `root` in progress, that began with the vertices `old` seen. -/
structure Exploring (next : α → α → Prop) (old : Set α) (root : α) (seen todo : Set α) : Prop where
  kept : ∀ y ∈ old, y ∈ seen
  reached : ∀ y ∈ seen, y ∈ old ∨ Relation.ReflTransGen next root y
  pending : ∀ y ∈ todo, Relation.ReflTransGen next root y
  closed : ∀ y ∈ seen, ∀ z, next y z → z ∈ seen ∨ z ∈ todo
  begun : root ∈ seen ∨ root ∈ todo

namespace Exploring

/-- A search begins at its root, among vertices that lead only to each other. -/
theorem start (hold : ∀ y ∈ old, ∀ z, next y z → z ∈ old) (hroot : ∀ y, y ∈ todo ↔ y = root) :
    Exploring next old root old todo where
  kept := fun _ hy ↦ hy
  reached := fun _ hy ↦ .inl hy
  pending := fun y hy ↦ by
    rw [(hroot y).1 hy]
  closed := fun y hy z hz ↦ .inl (hold y hy z hz)
  begun := .inr ((hroot root).2 rfl)

/-- A vertex seen before is taken off the list. -/
theorem skip (h : Exploring next old root seen todo) (hx : x ∈ seen)
    (hkeep : ∀ y ∈ todo, y ∈ todo' ∨ y = x) (hfew : ∀ y ∈ todo', y ∈ todo) :
    Exploring next old root seen todo' where
  kept := h.kept
  reached := h.reached
  pending := fun y hy ↦ h.pending y (hfew y hy)
  closed := fun y hy z hz ↦ by
    rcases h.closed y hy z hz with hs | ht
    · exact .inl hs
    · rcases hkeep z ht with ht' | rfl
      · exact .inr ht'
      · exact .inl hx
  begun := by
    rcases h.begun with hs | ht
    · exact .inl hs
    · rcases hkeep root ht with ht' | rfl
      · exact .inr ht'
      · exact .inl hx

/-- A new vertex is marked, and what it leads to is put on the list. -/
theorem visit (h : Exploring next old root seen todo) (hx : x ∈ todo)
    (hseen : ∀ y, y ∈ seen' ↔ y = x ∨ y ∈ seen) (hkeep : ∀ y ∈ todo, y ∈ todo' ∨ y = x)
    (hfew : ∀ y ∈ todo', y ∈ todo ∨ next x y) (hnext : ∀ y, next x y → y ∈ seen' ∨ y ∈ todo') :
    Exploring next old root seen' todo' where
  kept := fun y hy ↦ (hseen y).2 (.inr (h.kept y hy))
  reached := fun y hy ↦ by
    rcases (hseen y).1 hy with rfl | hy'
    · exact .inr (h.pending y hx)
    · exact h.reached y hy'
  pending := fun y hy ↦ by
    rcases hfew y hy with hy' | hxy
    · exact h.pending y hy'
    · exact (h.pending x hx).tail hxy
  closed := fun y hy z hz ↦ by
    rcases (hseen y).1 hy with rfl | hy'
    · exact hnext z hz
    · rcases h.closed y hy' z hz with hs | ht
      · exact .inl ((hseen z).2 (.inr hs))
      · rcases hkeep z ht with ht' | rfl
        · exact .inr ht'
        · exact .inl ((hseen z).2 (.inl rfl))
  begun := by
    rcases h.begun with hs | ht
    · exact .inl ((hseen root).2 (.inr hs))
    · rcases hkeep root ht with ht' | rfl
      · exact .inr ht'
      · exact .inl ((hseen root).2 (.inl rfl))

/-- **A finished search** has seen what there was and all that its root leads to. -/
theorem done (h : Exploring next old root seen todo) (hempty : ∀ y, y ∉ todo) (y : α) :
    y ∈ seen ↔ y ∈ old ∨ Relation.ReflTransGen next root y := by
  constructor
  · exact h.reached y
  · rintro (hy | hy)
    · exact h.kept y hy
    · induction hy with
      | refl => exact h.begun.resolve_right (hempty root)
      | tail _ hyz ih => exact (h.closed _ ih _ hyz).resolve_right (hempty _)

/-- A finished search leads nowhere else. -/
theorem done_closed (h : Exploring next old root seen todo) (hempty : ∀ y, y ∉ todo) :
    ∀ y ∈ seen, ∀ z, next y z → z ∈ seen :=
  fun y hy z hz ↦ (h.closed y hy z hz).resolve_right (hempty z)

end Exploring
