import Huntsman.Lib.Along
import Mathlib.Data.Set.Finite.Basic
import Mathlib.Order.WellFounded

/-!
# Orders that respect dependencies

Nodes depend on nodes.  A list of them respects the dependencies when each node stands behind
everything it depends on (`Respects`).  All nodes can be listed like this exactly when no node
depends on itself, over however many others (`Acyclic`).

Of all lists of the nodes that respect the dependencies, the one that always goes on with the least
node that can follow (`Greedy`) is the least (`Greedy.le`).
-/

set_option autoImplicit false

universe u

namespace Dependencies

variable {α : Type u}

/-- Each node stands behind everything it depends on. -/
def Respects (deps : α → List α) (order : List α) : Prop :=
  Along (fun before node ↦ ∀ d ∈ deps node, d ∈ before) order

/-- No node depends on itself, over however many others. -/
def Acyclic (deps : α → List α) : Prop :=
  ∀ node, ¬ Relation.TransGen (fun a b ↦ b ∈ deps a) node node

/-- Each node is the least of those that could stand there. -/
def Greedy [LE α] (deps : α → List α) (nodes order : List α) : Prop :=
  Along (fun before node ↦ ∀ other ∈ nodes, other ∉ before →
    (∀ d ∈ deps other, d ∈ before) → node ≤ other) order

variable {deps : α → List α} {nodes order : List α}

theorem Respects.congr {deps' : α → List α} (h : Respects deps order)
    (hsame : ∀ node d, d ∈ deps' node ↔ d ∈ deps node) : Respects deps' order :=
  h.imp fun _ node hbefore d hd ↦ hbefore d ((hsame node d).1 hd)

/-- Acyclicity depends on what depends on what only. -/
theorem acyclic_congr {deps' : α → List α} (hsame : ∀ node d, d ∈ deps' node ↔ d ∈ deps node) :
    Acyclic deps' ↔ Acyclic deps := by
  have hrel : (fun a b ↦ b ∈ deps' a) = fun a b ↦ b ∈ deps a :=
    funext₂ fun a b ↦ propext (hsame a b)
  rw [Acyclic, hrel, Acyclic]

/-- What a node depends on, directly or not, stands before it. -/
theorem Respects.mem_before (h : Respects deps order) {node d : α}
    (hdepends : Relation.TransGen (fun a b ↦ b ∈ deps a) node d) {before behind : List α}
    (horder : order = before ++ node :: behind) : d ∈ before := by
  induction hdepends with
  | single hd => exact h before node behind horder _ hd
  | tail _ hd ih =>
    obtain ⟨front, rest, rfl⟩ := List.append_of_mem ih
    rw [List.append_assoc, List.cons_append] at horder
    exact List.mem_append_left _ (h front _ _ horder _ hd)

/-- **Only acyclic dependencies can be respected** by a list of everything that depends on
something. -/
theorem Respects.acyclic (h : Respects deps order) (hnodup : order.Nodup)
    (hall : ∀ node, deps node ≠ [] → node ∈ order) : Acyclic deps := by
  intro node hcycle
  obtain ⟨d, hd, -⟩ := Relation.TransGen.head'_iff.1 hcycle
  obtain ⟨before, behind, horder⟩ := List.append_of_mem (hall node (List.ne_nil_of_mem hd))
  have hmem := h.mem_before hcycle horder
  rw [horder, List.nodup_append] at hnodup
  exact hnodup.2.2 node hmem node (.head _) rfl

/-- **Something can always follow** when the dependencies are acyclic and nodes are left. -/
theorem Acyclic.exists_ready (h : Acyclic deps) (hclosed : ∀ node ∈ nodes, deps node ⊆ nodes)
    {node : α} (hnode : node ∈ nodes) (hleft : node ∉ order) :
    ∃ ready ∈ nodes, ready ∉ order ∧ ∀ d ∈ deps ready, d ∈ order := by
  have hfinite : Finite { node // node ∈ nodes } := (List.finite_toSet nodes).to_subtype
  let below (a b : { node // node ∈ nodes }) : Prop :=
    Relation.TransGen (fun a b ↦ b ∈ deps a) b.1 a.1
  have : IsTrans _ below := ⟨fun a b c hab hbc ↦ hbc.trans hab⟩
  have : Std.Irrefl below := ⟨fun a ↦ h a.1⟩
  have hwf : WellFounded below := Finite.wellFounded_of_trans_of_irrefl below
  obtain ⟨⟨ready, hready⟩, hout, hleast⟩ := hwf.has_min { a | a.1 ∉ order } ⟨⟨node, hnode⟩, hleft⟩
  refine ⟨ready, hready, hout, fun d hd ↦ ?_⟩
  by_contra hnot
  exact hleast ⟨d, hclosed ready hready hd⟩ hnot (.single hd)

/-! ## The least order -/

section

variable [LinearOrder α]

/-- Of two lists as long as each other, the one with the lesser element where they part is the
lesser. -/
theorem le_of_parting {xs ys : List α} (hlength : xs.length = ys.length)
    (h : ∀ before a b behind behind', xs = before ++ a :: behind → ys = before ++ b :: behind' →
      a ≤ b) : xs = ys ∨ List.Lex (· < ·) xs ys := by
  induction xs generalizing ys with
  | nil => exact .inl (List.eq_nil_of_length_eq_zero hlength.symm).symm
  | cons x xs ih =>
    cases ys with
    | nil => exact nomatch hlength
    | cons y ys =>
      rcases (h [] x y xs ys rfl rfl).lt_or_eq with hlt | rfl
      · exact .inr (.rel hlt)
      · have htail := ih (Nat.succ.inj hlength) fun before a b behind behind' hxs hys ↦
          h (x :: before) a b behind behind' (congrArg _ hxs) (congrArg _ hys)
        rcases htail with rfl | hlex
        · exact .inl rfl
        · exact .inr (.cons hlex)

/-- **The greedy order is the least.** -/
theorem Greedy.le (h : Greedy deps nodes order) {other : List α} (hperm : other.Perm nodes)
    (hnodup : nodes.Nodup) (hlength : order.length = nodes.length) (hother : Respects deps other) :
    order = other ∨ List.Lex (· < ·) order other := by
  refine le_of_parting (hlength.trans hperm.length_eq.symm) ?_
  intro before a b behind behind' horder heq
  refine h before a behind horder b ?_ ?_ (hother before b behind' heq)
  · rw [← hperm.mem_iff, heq]
    simp
  · intro hmem
    have hnodup' := hperm.nodup_iff.2 hnodup
    rw [heq, List.nodup_append] at hnodup'
    exact hnodup'.2.2 b hmem b (.head _) rfl

end

end Dependencies
