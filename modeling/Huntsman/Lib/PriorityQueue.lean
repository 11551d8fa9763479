import Mathlib.Data.List.Sort
import Mathlib.Data.Multiset.Basic

/-!
# Priority queues

A `PriorityQueue α le` is any implementation of a queue that gives its items back greatest first.
Which of two items that are as great as each other comes first is the implementation's own affair,
so what is proved for every `PriorityQueue` does not depend on it.  `PriorityQueue.sorted` is one.
-/

set_option autoImplicit false

universe u

/-- An implementation of a queue that gives its items back greatest first. -/
structure PriorityQueue (α : Type u) (le : α → α → Prop) where
  Queue : Type u
  empty : Queue
  push : Queue → α → Queue
  pop : Queue → Option (α × Queue)
  /-- What the queue holds. -/
  items : Queue → Multiset α
  items_empty : items empty = 0
  items_push : ∀ q a, items (push q a) = a ::ₘ items q
  items_pop_none : ∀ q, pop q = none → items q = 0
  items_pop : ∀ q a rest, pop q = some (a, rest) → items q = a ::ₘ items rest
  /-- Nothing greater is left behind. -/
  pop_greatest : ∀ q a rest, pop q = some (a, rest) → ∀ b ∈ items rest, le b a

namespace PriorityQueue

variable {α : Type u} {le : α → α → Prop}

/-- The queue kept as a list, greatest first. -/
def sorted [DecidableRel le] (total : ∀ a b, le a b ∨ le b a)
    (trans : ∀ a b c, le a b → le b c → le a c) : PriorityQueue α le where
  Queue := {items : List α // items.Pairwise fun a b ↦ le b a}
  empty := ⟨[], List.Pairwise.nil⟩
  push q a := ⟨q.1.orderedInsert (fun a b ↦ le b a) a,
    have : Std.Total fun a b : α ↦ le b a := ⟨fun a b ↦ total b a⟩
    have : IsTrans α fun a b ↦ le b a := ⟨fun _ _ _ hab hbc ↦ trans _ _ _ hbc hab⟩
    q.2.orderedInsert a q.1⟩
  pop
    | ⟨[], _⟩ => none
    | ⟨a :: rest, h⟩ => some (a, ⟨rest, (List.pairwise_cons.1 h).2⟩)
  items q := q.1
  items_empty := rfl
  items_push q a := Multiset.coe_eq_coe.2 (List.perm_orderedInsert _ a q.1)
  items_pop_none
    | ⟨[], _⟩, _ => rfl
  items_pop
    | ⟨_ :: _, _⟩, _, _, rfl => rfl
  pop_greatest
    | ⟨_ :: _, h⟩, _, _, rfl => (List.pairwise_cons.1 h).1

/-- A queue that pops holds one item fewer. -/
theorem card_pop (queue : PriorityQueue α le) {q rest : queue.Queue} {a : α}
    (h : queue.pop q = some (a, rest)) :
    (queue.items q).card = (queue.items rest).card + 1 := by
  rw [queue.items_pop q a rest h, Multiset.card_cons]

end PriorityQueue
