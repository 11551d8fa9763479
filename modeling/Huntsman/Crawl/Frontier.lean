import Huntsman.Lib.Loop
import Huntsman.Route
import Mathlib.Data.Finset.Insert

/-!
# The queue of targets to look up next

A `Target` is a selector routed to one lookup kind, and its `ownedKey` is what makes two targets the
same lookup.  A `Frontier` is a queue of targets that holds each key at most once.

A `Frontier` carries its invariant in its fields: the keys it has seen are those of its queue, they
are distinct, and the count it keeps for each kind is the number of targets of that kind.
`Frontier.push` is the only way to make one grow, and `Frontier.intoQueue` deals its targets out one
kind at a time.
-/

set_option autoImplicit false

namespace Huntsman

open List Std

/-- What makes two targets the same lookup: the command word and the routed selector. -/
abbrev Key := String × String

/-- One live lookup the driver can dispatch: a selector routed to one lookup kind. -/
structure Target where
  kind : ScanKind
  selector : String
deriving DecidableEq

/-- The de-duplication key: a handle is keyed by how it is routed, so a platform's echo of a handle
in another case is not looked up again. -/
def Target.ownedKey (target : Target) : Key :=
  let selector := match target.kind with
    | .username => handleRouteKey target.selector
    | _ => target.selector
  (target.kind.command, selector)

/-- A de-duplicated queue of targets. -/
structure Frontier where
  /-- The keys that are queued. -/
  seen : Finset Key
  /-- The targets, in the order they were queued. -/
  queue : List Target
  /-- How many queued targets each lookup kind holds. -/
  perKind : TreeMap String ℕ
  /-- The keys seen are the keys of the queue. -/
  mem_seen : ∀ key, key ∈ seen ↔ key ∈ queue.map Target.ownedKey
  /-- Every key is queued once. -/
  nodup : (queue.map Target.ownedKey).Nodup
  /-- The count of a kind is the number of its targets. -/
  perKind_eq : ∀ kind, perKind.getD kind 0 = queue.countP fun t ↦ t.kind.command = kind

namespace Frontier

/-- The empty queue. -/
def empty : Frontier where
  seen := ∅
  queue := []
  perKind := ∅
  mem_seen := by simp
  nodup := by simp
  perKind_eq := by simp

/-- Queue `target` unless one with the same key is already queued, and say whether it was. -/
def push (frontier : Frontier) (target : Target) : Frontier × Bool :=
  if h : target.ownedKey ∈ frontier.seen then (frontier, false)
  else
    ({ seen := insert target.ownedKey frontier.seen
       queue := frontier.queue ++ [target]
       perKind := frontier.perKind.alter target.kind.command fun n ↦ some (n.getD 0 + 1)
       mem_seen := fun key ↦ by
        simp only [Finset.mem_insert, frontier.mem_seen key, List.map_append, List.map_cons,
          List.map_nil, List.mem_append, List.mem_singleton]
        exact or_comm
       nodup := by
        rw [List.map_append, List.nodup_append]
        refine ⟨frontier.nodup, by simp, ?_⟩
        rintro a ha b hb rfl
        rw [List.map_cons, List.map_nil, List.mem_singleton] at hb
        exact h ((frontier.mem_seen _).2 (hb ▸ ha))
       perKind_eq := fun kind ↦ by
        have hold := frontier.perKind_eq
        rw [TreeMap.getD_alter, List.countP_append]
        by_cases hk : target.kind.command = kind
        · subst hk
          have := hold target.kind.command
          rw [TreeMap.getD_eq_getD_getElem?] at this
          simp [this]
        · simp [hk, hold kind] }, true)

/-- Queue every target of a list, in order. -/
def pushAll (frontier : Frontier) (targets : List Target) : Frontier :=
  targets.foldl (fun next target ↦ (next.push target).1) frontier

/-- Whether this de-duplication key is already queued. -/
def containsKey (frontier : Frontier) (key : Key) : Bool := decide (key ∈ frontier.seen)

variable {frontier : Frontier} {target t : Target}

/-- Whether a generation capped at `cap` targets has no room for one more of `kind`: it is full, or
`kind` already holds half of it. -/
def fullFor (frontier : Frontier) (kind : String) (cap : ℕ) : Bool :=
  decide (cap ≤ frontier.queue.length) ||
    decide (max ((cap + 1) / 2) 1 ≤ frontier.perKind.getD kind 0)

/-! ## What is queued -/

theorem push_of_mem (h : target.ownedKey ∈ frontier.seen) :
    (frontier.push target).1 = frontier := by
  rw [push, dif_pos h]

theorem queue_push_of_notMem
    (h : target.ownedKey ∉ frontier.seen) :
    (frontier.push target).1.queue = frontier.queue ++ [target] := by
  rw [push, dif_neg h]

@[simp] theorem mem_seen_push {key : Key} :
    key ∈ (frontier.push target).1.seen ↔ key = target.ownedKey ∨ key ∈ frontier.seen := by
  by_cases h : target.ownedKey ∈ frontier.seen
  · rw [push_of_mem h]
    exact ⟨.inr, fun hk ↦ hk.elim (fun he ↦ he ▸ h) id⟩
  · rw [push, dif_neg h]
    exact Finset.mem_insert

theorem mem_queue_push
    (h : t ∈ (frontier.push target).1.queue) : t = target ∨ t ∈ frontier.queue := by
  by_cases hs : target.ownedKey ∈ frontier.seen
  · rw [push_of_mem hs] at h
    exact .inr h
  · rw [queue_push_of_notMem hs, mem_append, mem_singleton] at h
    exact h.symm

@[simp] theorem pushAll_nil (frontier : Frontier) : frontier.pushAll [] = frontier := rfl

@[simp] theorem pushAll_cons (frontier : Frontier) (t : Target) (ts : List Target) :
    frontier.pushAll (t :: ts) = (frontier.push t).1.pushAll ts := rfl

@[simp] theorem mem_seen_pushAll {targets : List Target} {key : Key} :
    key ∈ (frontier.pushAll targets).seen ↔
      key ∈ targets.map Target.ownedKey ∨ key ∈ frontier.seen := by
  induction targets generalizing frontier with
  | nil => simp
  | cons t ts ih => simp [ih, or_assoc, or_left_comm]

theorem mem_queue_pushAll {targets : List Target}
    (h : t ∈ (frontier.pushAll targets).queue) : t ∈ targets ∨ t ∈ frontier.queue := by
  induction targets generalizing frontier with
  | nil => exact .inr h
  | cons u us ih =>
    rcases ih h with h | h
    · exact .inl (.tail _ h)
    · rcases mem_queue_push h with rfl | h
      · exact .inl ((.head _) ..)
      · exact .inr h

theorem mem_seen_of_mem_queue (h : t ∈ frontier.queue) :
    t.ownedKey ∈ frontier.seen :=
  (frontier.mem_seen _).2 (mem_map_of_mem h)

@[simp] theorem containsKey_iff {key : Key} :
    frontier.containsKey key = true ↔ key ∈ frontier.seen := by
  rw [containsKey, decide_eq_true_iff]

@[simp] theorem seen_empty : empty.seen = ∅ := rfl

@[simp] theorem queue_empty : empty.queue = [] := rfl

/-! ## Dispatch order -/

/-- Put a target with the others of its kind, the kinds in the order they first came. -/
def addToKind (groups : List (String × List Target)) (target : Target) :
    List (String × List Target) :=
  match groups with
  | [] => [(target.kind.command, [target])]
  | (kind, targets) :: rest =>
    if kind = target.kind.command then (kind, targets ++ [target]) :: rest
    else (kind, targets) :: addToKind rest target

/-- Deal out one target of each kind that has one left: the dealt targets and what is left. -/
def dealRound (groups : List (List Target)) : List Target × List (List Target) :=
  (groups.filterMap List.head?, groups.map List.tail)

theorem dealRound_perm (groups : List (List Target)) :
    ((dealRound groups).1 ++ (dealRound groups).2.flatten).Perm groups.flatten := by
  induction groups with
  | nil => simp [dealRound]
  | cons g gs ih =>
    cases g with
    | nil =>
      simp only [dealRound, filterMap_cons, head?_nil, map_cons, tail_nil,
        flatten_cons, nil_append] at ih ⊢
      exact ih
    | cons t ts =>
      simp only [dealRound, filterMap_cons, head?_cons, map_cons, tail_cons,
        flatten_cons, cons_append, perm_cons] at ih ⊢
      calc (gs.filterMap head? ++ (ts ++ (gs.map tail).flatten)).Perm
            (ts ++ (gs.filterMap head? ++ (gs.map tail).flatten)) := by
              simp only [← append_assoc]
              exact (perm_append_comm ..).append_right _
        _ = ts ++ (gs.filterMap head? ++ (gs.map tail).flatten) := rfl
        List.Perm _ (ts ++ gs.flatten) := ih.append_left _

/-- One pass of dealing, over what is left and what is already dealt. -/
def dealPass (s : List (List Target) × List Target) :
    Pass (List Target) (List (List Target) × List Target) :=
  if (dealRound s.1).1 = [] then .leave s.2
  else .again ((dealRound s.1).2, s.2 ++ (dealRound s.1).1)

theorem dealPass_again {s s' : List (List Target) × List Target} (h : dealPass s = .again s') :
    (dealRound s.1).1 ≠ [] ∧ s' = ((dealRound s.1).2, s.2 ++ (dealRound s.1).1) := by
  rw [dealPass] at h
  split at h
  · cases h
  · rename_i hne
    cases h
    exact ⟨hne, rfl⟩

theorem dealPass_falls (s s' : List (List Target) × List Target) (h : dealPass s = .again s') :
    s'.1.flatten.length < s.1.flatten.length := by
  obtain ⟨hne, rfl⟩ := dealPass_again h
  have hlen := (dealRound_perm s.1).length_eq
  rw [length_append] at hlen
  have hpos := length_pos_of_ne_nil hne
  show (dealRound s.1).2.flatten.length < _
  omega

/-- The queue in dispatch order: one target of each kind in turn, each kind in the order it was
queued. -/
def intoQueue (frontier : Frontier) : List Target :=
  Loop.run dealPass (fun s ↦ s.1.flatten.length) dealPass_falls
    ((frontier.queue.foldl addToKind []).map Prod.snd, [])

theorem addToKind_perm (groups : List (String × List Target)) (t : Target) :
    ((addToKind groups t).map Prod.snd).flatten.Perm (t :: (groups.map Prod.snd).flatten) := by
  induction groups with
  | nil => simp [addToKind]
  | cons g gs ih =>
    obtain ⟨kind, targets⟩ := g
    rw [addToKind]
    split
    · simp only [map_cons, flatten_cons, append_assoc, singleton_append]
      exact perm_middle
    · simp only [map_cons, flatten_cons]
      exact (ih.append_left _).trans perm_middle

theorem foldl_addToKind_perm (targets : List Target) (groups : List (String × List Target)) :
    ((targets.foldl addToKind groups).map Prod.snd).flatten.Perm
      ((groups.map Prod.snd).flatten ++ targets) := by
  induction targets generalizing groups with
  | nil => simp
  | cons t ts ih =>
    refine (ih (addToKind groups t)).trans (((addToKind_perm groups t).append_right ts).trans ?_)
    exact perm_middle.symm

/-- **Dispatch order loses nothing**: it is a reordering of the queue. -/
theorem intoQueue_perm (frontier : Frontier) : frontier.intoQueue.Perm frontier.queue := by
  have hstart := foldl_addToKind_perm frontier.queue []
  refine Loop.run_inv
    (fun s : List (List Target) × List Target ↦ (s.2 ++ s.1.flatten).Perm frontier.queue)
    (fun r : List Target ↦ r.Perm frontier.queue) ?_ ?_ (by simpa using hstart)
  · intro s s' hs h
    obtain ⟨-, rfl⟩ := dealPass_again h
    rw [append_assoc]
    exact ((dealRound_perm s.1).append_left _).trans hs
  · intro s r hs h
    rw [dealPass] at h
    split at h
    · rename_i hnil
      cases h
      have hflat := (dealRound_perm s.1).length_eq
      rw [hnil, nil_append] at hflat
      have hempty : s.1.flatten = [] := by
        refine flatten_eq_nil_iff.2 fun g hg ↦ ?_
        cases g with
        | nil => rfl
        | cons t ts =>
          have : t ∈ (dealRound s.1).1 := mem_filterMap.2 ⟨t :: ts, hg, rfl⟩
          rw [hnil] at this
          cases this
      rw [hempty, append_nil] at hs
      exact hs
    · cases h

theorem nodup_intoQueue (frontier : Frontier) :
    (frontier.intoQueue.map Target.ownedKey).Nodup :=
  ((frontier.intoQueue_perm.map _).nodup_iff).2 frontier.nodup

theorem mem_intoQueue :
    t ∈ frontier.intoQueue ↔ t ∈ frontier.queue :=
  frontier.intoQueue_perm.mem_iff

end Frontier

end Huntsman
