import Mathlib.Data.Nat.Find
import Mathlib.Logic.Function.Iterate
import Mathlib.Logic.Relation

/-!
# Forests of parent links

A forest on `α` is kept as the parent of every element, a root being its own parent.  `Leads parent
root` says that `parent` is one, and that `root` takes each element to the root of its tree.

Two changes of the links keep this.  Making an element's grandparent its parent changes no root
(`Leads.halve`), and brings the element nearer to its root (`Leads.steps_halve_lt`).  Hanging one
root below another makes one tree of the two (`Leads.link`).
-/

set_option autoImplicit false

universe u

namespace Forest

open Function Relation

variable {α : Type u} {parent root : α → α}

/-- The parent links make a forest, and `root` is where each element's links lead. -/
structure Leads (parent root : α → α) : Prop where
  along : ∀ a, root (parent a) = root a
  atRoot : ∀ a, parent a = a → root a = a
  sinks : ∃ depth : α → ℕ, ∀ a, parent a ≠ a → depth (parent a) < depth a

namespace Leads

theorem id : Leads (id : α → α) id :=
  ⟨fun _ ↦ rfl, fun _ _ ↦ rfl, fun _ ↦ 0, fun _ h ↦ absurd rfl h⟩

/-- Following the links ends at a root. -/
theorem exists_iterate (h : Leads parent root) (a : α) : ∃ k, parent (parent^[k] a) = parent^[k] a := by
  obtain ⟨depth, hdepth⟩ := h.sinks
  induction hd : depth a using Nat.strongRecOn generalizing a with
  | ind d ih =>
    by_cases hroot : parent a = a
    · exact ⟨0, hroot⟩
    · obtain ⟨k, hk⟩ := ih _ (hd ▸ hdepth a hroot) (parent a) rfl
      exact ⟨k + 1, hk⟩

theorem root_iterate (h : Leads parent root) (a : α) (k : ℕ) : root (parent^[k] a) = root a := by
  induction k with
  | zero => rfl
  | succ k ih => rw [iterate_succ_apply', h.along, ih]

theorem parent_root (h : Leads parent root) (a : α) : parent (root a) = root a := by
  obtain ⟨k, hk⟩ := h.exists_iterate a
  have hroot : root a = parent^[k] a := by
    rw [← h.root_iterate a k, h.atRoot _ hk]
  rw [hroot, hk]

theorem root_root (h : Leads parent root) (a : α) : root (root a) = root a :=
  h.atRoot _ (h.parent_root a)

theorem parent_eq_iff (h : Leads parent root) {a : α} : parent a = a ↔ root a = a :=
  ⟨h.atRoot a, fun hr ↦ hr ▸ h.parent_root a⟩

/-- No element is its own grandparent but a root. -/
theorem parent_parent_ne (h : Leads parent root) {a : α} (ha : parent a ≠ a) :
    parent (parent a) ≠ a := by
  obtain ⟨depth, hdepth⟩ := h.sinks
  intro heq
  by_cases hp : parent (parent a) = parent a
  · exact ha (hp.symm.trans heq)
  · have h₁ := hdepth a ha
    have h₂ := hdepth (parent a) hp
    rw [heq] at h₂
    exact absurd (Nat.lt_trans h₁ h₂) (Nat.lt_irrefl _)

variable [DecidableEq α]

/-- **Halving a path changes no root.** -/
theorem halve (h : Leads parent root) (a : α) :
    Leads (update parent a (parent (parent a))) root := by
  refine ⟨fun b ↦ ?_, fun b hb ↦ ?_, ?_⟩
  · by_cases hba : b = a
    · rw [hba, update_self, h.along, h.along]
    · rw [update_of_ne hba, h.along]
  · by_cases hba : b = a
    · rw [hba, update_self] at hb
      by_contra hr
      exact h.parent_parent_ne (fun hp ↦ hr (hba ▸ h.atRoot a hp)) hb
    · rw [update_of_ne hba] at hb
      exact h.atRoot b hb
  · obtain ⟨depth, hdepth⟩ := h.sinks
    refine ⟨depth, fun b hb ↦ ?_⟩
    by_cases hba : b = a
    · rw [hba, update_self] at hb ⊢
      have ha : parent a ≠ a := fun hp ↦ hb (by rw [hp, hp])
      by_cases hp : parent (parent a) = parent a
      · rw [hp]
        exact hdepth a ha
      · exact Nat.lt_trans (hdepth _ hp) (hdepth a ha)
    · rw [update_of_ne hba] at hb ⊢
      exact hdepth b hb

/-- How many links an element is from its root. -/
def steps (h : ∃ root, Leads parent root) (a : α) : ℕ :=
  Nat.find (h.elim fun _ h ↦ h.exists_iterate a)

/-- What stands above an element does not change when its own link does. -/
theorem iterate_update {a b : α} (above : α)
    (hb : ∀ k, parent^[k] b ≠ a) (k : ℕ) : (update parent a above)^[k] b = parent^[k] b := by
  induction k with
  | zero => rfl
  | succ k ih => rw [iterate_succ_apply', ih, update_of_ne (hb k), iterate_succ_apply']

/-- No element stands above its parent. -/
theorem iterate_parent_ne (h : Leads parent root) {a : α} (ha : parent a ≠ a) (k : ℕ) :
    parent^[k] (parent a) ≠ a := by
  obtain ⟨depth, hdepth⟩ := h.sinks
  have hle : ∀ k, depth (parent^[k] (parent a)) ≤ depth (parent a) := by
    intro k
    induction k with
    | zero => exact le_rfl
    | succ k ih =>
      rw [iterate_succ_apply']
      by_cases hp : parent (parent^[k] (parent a)) = parent^[k] (parent a)
      · rwa [hp]
      · exact Nat.le_trans (Nat.le_of_lt (hdepth _ hp)) ih
  intro heq
  have hlt := hdepth a ha
  have hk := hle k
  rw [heq] at hk
  exact absurd hlt (Nat.not_lt.2 hk)

/-- **Halving a path shortens it**: the grandparent of an element is nearer to the root, and halving
takes nothing away from the path above it. -/
theorem steps_halve_lt (h : ∃ root, Leads parent root) {a : α}
    (h' : ∃ root, Leads (update parent a (parent (parent a))) root) (ha : parent a ≠ a) :
    steps h' (parent (parent a)) < steps h a := by
  have ⟨root, hleads⟩ := h
  have hspec : parent (parent^[steps h a] a) = parent^[steps h a] a :=
    Nat.find_spec (hleads.exists_iterate a)
  have hpos : 0 < steps h a := by
    refine Nat.pos_of_ne_zero fun hzero ↦ ha ?_
    rwa [hzero] at hspec
  have habove : ∀ k, parent^[k] (parent (parent a)) ≠ a := fun k ↦
    hleads.iterate_parent_ne ha (k + 1)
  have hsame := iterate_update (parent (parent a)) habove
  refine Nat.lt_of_le_of_lt (Nat.find_min' _ ?_) (Nat.sub_lt hpos Nat.one_pos)
  have hlast : parent^[steps h a - 1] (parent (parent a)) = parent^[steps h a] a := by
    have hone : steps h a - 1 + 1 = steps h a := Nat.sub_add_cancel hpos
    rw [← iterate_succ_apply, ← iterate_succ_apply, Nat.succ_eq_add_one, hone,
      iterate_succ_apply', hspec]
  rw [hsame, update_of_ne (habove _), hlast, hspec]

end Leads

variable [DecidableEq α]

/-- The roots once the root `y` hangs below the root `x`. -/
def link (root : α → α) (x y : α) (a : α) : α := if root a = y then x else root a

/-- **Hanging one root below another** makes one tree of the two. -/
theorem Leads.link (h : Leads parent root) {x y : α} (hx : parent x = x) (hy : parent y = y)
    (hne : x ≠ y) : Leads (update parent y x) (link root x y) := by
  have hrx := h.atRoot x hx
  have hry := h.atRoot y hy
  refine ⟨fun a ↦ ?_, fun a ha ↦ ?_, ?_⟩
  · by_cases hay : a = y
    · rw [hay, update_self, Forest.link, Forest.link, hrx, hry, if_neg hne, if_pos rfl]
    · rw [update_of_ne hay, Forest.link, Forest.link, h.along]
  · have hay : a ≠ y := by
      rintro rfl
      rw [update_self] at ha
      exact hne ha
    rw [update_of_ne hay] at ha
    rw [Forest.link, h.atRoot a ha, if_neg hay]
  · obtain ⟨depth, hdepth⟩ := h.sinks
    -- the tree of `y` goes deeper by as much as `x` is deep
    refine ⟨fun a ↦ if root a = y then depth a + depth x + 1 else depth a, fun a ha ↦ ?_⟩
    by_cases hay : a = y
    · dsimp only
      rw [hay, update_self, if_pos hry, hrx, if_neg hne]
      omega
    · rw [update_of_ne hay] at ha ⊢
      have hlt := hdepth a ha
      dsimp only
      rw [h.along]
      split
      · omega
      · exact hlt

/-- Two elements share a root after hanging `y` below `x` if they did before or were in the two
trees. -/
theorem link_eq_iff {x y : α} (a b : α) :
    link root x y a = link root x y b ↔ root a = root b ∨ (root a = x ∧ root b = y) ∨
      (root a = y ∧ root b = x) := by
  simp only [link]
  split
  · rename_i ha
    split
    · rename_i hb
      exact ⟨fun _ ↦ .inl (ha.trans hb.symm), fun _ ↦ rfl⟩
    · rename_i hb
      constructor
      · exact fun h ↦ .inr (.inr ⟨ha, h.symm⟩)
      · rintro (h | ⟨-, h⟩ | ⟨-, h⟩)
        · exact absurd (h.symm.trans ha) hb
        · exact absurd h hb
        · exact h.symm
  · rename_i ha
    split
    · rename_i hb
      constructor
      · exact fun h ↦ .inr (.inl ⟨h, hb⟩)
      · rintro (h | ⟨h, -⟩ | ⟨h, -⟩)
        · exact absurd (h.trans hb) ha
        · exact h
        · exact absurd h ha
    · rename_i hb
      constructor
      · exact .inl
      · rintro (h | ⟨-, h⟩ | ⟨h, -⟩)
        · exact h
        · exact absurd h hb
        · exact absurd h ha

end Forest

namespace Relation

variable {α : Type u} {r : α → α → Prop} {l m : α}

/-- **One more pair** joins two classes of what is generated. -/
theorem eqvGen_or_pair (a b : α) :
    EqvGen (fun a b ↦ r a b ∨ (a = l ∧ b = m)) a b ↔ EqvGen r a b ∨
      (EqvGen r a l ∧ EqvGen r b m) ∨ (EqvGen r a m ∧ EqvGen r b l) := by
  constructor
  · intro h
    induction h with
    | rel a b hab =>
      rcases hab with hab | ⟨rfl, rfl⟩
      · exact .inl (.rel a b hab)
      · exact .inr (.inl ⟨.refl _, .refl _⟩)
    | refl a => exact .inl (.refl a)
    | symm a b _ ih =>
      rcases ih with h | ⟨hl, hm⟩ | ⟨hm, hl⟩
      · exact .inl (.symm _ _ h)
      · exact .inr (.inr ⟨hm, hl⟩)
      · exact .inr (.inl ⟨hl, hm⟩)
    | trans a b c _ _ hab hbc =>
      rcases hab with hab | ⟨hal, hbm⟩ | ⟨ham, hbl⟩
      · rcases hbc with hbc | ⟨hbl, hcm⟩ | ⟨hbm, hcl⟩
        · exact .inl (.trans _ _ _ hab hbc)
        · exact .inr (.inl ⟨.trans _ _ _ hab hbl, hcm⟩)
        · exact .inr (.inr ⟨.trans _ _ _ hab hbm, hcl⟩)
      · rcases hbc with hbc | ⟨hbl, hcm⟩ | ⟨hbm', hcl⟩
        · exact .inr (.inl ⟨hal, .trans _ _ _ (.symm _ _ hbc) hbm⟩)
        · exact .inr (.inl ⟨hal, hcm⟩)
        · exact .inl (.trans _ _ _ hal (.symm _ _ hcl))
      · rcases hbc with hbc | ⟨hbl', hcm⟩ | ⟨hbm, hcl⟩
        · exact .inr (.inr ⟨ham, .trans _ _ _ (.symm _ _ hbc) hbl⟩)
        · exact .inl (.trans _ _ _ ham (.symm _ _ hcm))
        · exact .inr (.inr ⟨ham, hcl⟩)
  · have hmono : ∀ a b, EqvGen r a b → EqvGen (fun a b ↦ r a b ∨ (a = l ∧ b = m)) a b :=
      fun a b ↦ EqvGen.mono (fun _ _ ↦ .inl) a b
    have hpair : EqvGen (fun a b ↦ r a b ∨ (a = l ∧ b = m)) l m := .rel l m (.inr ⟨rfl, rfl⟩)
    rintro (h | ⟨hl, hm⟩ | ⟨hm, hl⟩)
    · exact hmono a b h
    · exact .trans _ _ _ (hmono a l hl) (.trans _ _ _ hpair (.symm _ _ (hmono b m hm)))
    · exact .trans _ _ _ (hmono a m hm) (.trans _ _ _ (.symm _ _ hpair) (.symm _ _ (hmono b l hl)))

end Relation
