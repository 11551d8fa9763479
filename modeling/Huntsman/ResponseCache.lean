import Huntsman.Lib.Lru
import Mathlib.Algebra.Ring.Nat

/-!
# The cache of responses

A `ResponseCache` has room for `cap` responses.  It keeps them in a map, each with the number of its
last use, and makes room for a new one by giving up the one with the least number.  A `get` that
finds nothing is numbered too.

`Ideal` is the cache it is meant to be: a list of what is held, used last first.  As long as the
numbers do not wrap around, the two answer the same (`answers_ideal`).
-/

set_option autoImplicit false

universe u

namespace Huntsman.ResponseCache

variable {ν : Type u}

structure Entry (ν : Type u) where
  used : ℕ
  value : ν

structure Shelf (ν : Type u) where
  entries : AList fun _ : String ↦ Entry ν
  uses : ℕ

/-- An order in which the map lists its entries. -/
abbrev EntryOrder (ν : Type u) : Type u := Iteration (Sigma fun _ : String ↦ Entry ν)

/-- A call on the cache. -/
inductive Call (ν : Type u) where
  | get (key : String)
  | put (key : String) (value : ν)
  | clear

/-- Is it numbered? -/
def Call.isUse : Call ν → Bool
  | .get _ | .put _ _ => true
  | .clear => false

namespace Shelf

def new : Shelf ν := ⟨∅, 0⟩

def nextUse (shelf : Shelf ν) : Shelf ν := { shelf with uses := (shelf.uses + 1) % 2 ^ 64 }

/-- What `get` answers, and the shelf after it. -/
def touch (shelf : Shelf ν) (key : String) : Option ν × Shelf ν :=
  let shelf := shelf.nextUse
  match shelf.entries.lookup key with
  | none => (none, shelf)
  | some entry =>
    (some entry.value,
      { shelf with entries := shelf.entries.insert key { entry with used := shelf.uses } })

def evictLeastRecentlyUsed (order : EntryOrder ν) (shelf : Shelf ν) : Shelf ν :=
  match shelf.entries.minByKey order fun entry ↦ entry.2.used with
  | none => shelf
  | some oldest => { shelf with entries := shelf.entries.erase oldest.1 }

/-- The entry of a `put`, when there is room for it. -/
def store (shelf : Shelf ν) (key : String) (value : ν) : Shelf ν :=
  let shelf := shelf.nextUse
  { shelf with entries := shelf.entries.insert key ⟨shelf.uses, value⟩ }

def put (cap : ℕ) (order : EntryOrder ν) (shelf : Shelf ν) (key : String) (value : ν) : Shelf ν :=
  if cap = 0 then shelf
  else if key ∉ shelf.entries ∧ cap ≤ shelf.entries.entries.length then
    (shelf.evictLeastRecentlyUsed order).store key value
  else shelf.store key value

/-- The numbers go on after a `clear`. -/
def clear (shelf : Shelf ν) : Shelf ν := { shelf with entries := ∅ }

/-- What a call answers, and the shelf after it. -/
def step (cap : ℕ) (order : EntryOrder ν) (shelf : Shelf ν) : Call ν → Option ν × Shelf ν
  | .get key => shelf.touch key
  | .put key value => (none, shelf.put cap order key value)
  | .clear => (none, shelf.clear)

/-- The answers to a run of calls, and the shelf after it.  The map is gone through in any order. -/
def run (cap : ℕ) : List (EntryOrder ν × Call ν) → Shelf ν → List (Option ν) × Shelf ν
  | [], shelf => ([], shelf)
  | (order, call) :: calls, shelf =>
    let now := shelf.step cap order call
    let later := run cap calls now.2
    (now.1 :: later.1, later.2)

end Shelf

/-! ## The ideal -/

/-- What the ideal cache holds, used last first. -/
abbrev Ideal (ν : Type u) : Type u := AList fun _ : String ↦ ν

namespace Ideal

/-- A key that is held and asked for comes to the front. -/
def get (held : Ideal ν) (key : String) : Option ν × Ideal ν :=
  match held.lookup key with
  | none => (none, held)
  | some value => (some value, held.insert key value)

/-- What is put comes to the front, and when there are too many the last is dropped. -/
def put (cap : ℕ) (held : Ideal ν) (key : String) (value : ν) : Ideal ν :=
  (held.insert key value).keep cap

def step (cap : ℕ) (held : Ideal ν) : Call ν → Option ν × Ideal ν
  | .get key => held.get key
  | .put key value => (none, held.put cap key value)
  | .clear => (none, ∅)

/-- The answers of the ideal cache to a run of calls. -/
def answers (cap : ℕ) : List (Call ν) → Ideal ν → List (Option ν)
  | [], _ => []
  | call :: calls, held => (held.step cap call).1 :: answers cap calls (held.step cap call).2

end Ideal

/-! ## The room there is -/

namespace Shelf

variable {cap : ℕ} {order : EntryOrder ν} {shelf : Shelf ν}

theorem length_evict_lt (h : shelf.entries.entries ≠ []) :
    (shelf.evictLeastRecentlyUsed order).entries.entries.length < shelf.entries.entries.length := by
  obtain ⟨oldest, holdest⟩ := AList.exists_minByKey order (fun entry ↦ entry.2.used) h
  have hmem : oldest.1 ∈ shelf.entries := List.mem_keys_of_mem (AList.minByKey_mem holdest)
  rw [evictLeastRecentlyUsed, holdest]
  exact (AList.length_erase_of_mem hmem).le

theorem evict_uses : (shelf.evictLeastRecentlyUsed order).uses = shelf.uses := by
  rw [evictLeastRecentlyUsed]
  split <;> rfl

theorem store_uses (hfew : shelf.uses + 1 < 2 ^ 64) (key : String) (value : ν) :
    (shelf.store key value).uses = shelf.uses + 1 :=
  Nat.mod_eq_of_lt hfew

theorem put_uses_le (hfew : shelf.uses + 1 < 2 ^ 64) (key : String) (value : ν) :
    (shelf.put cap order key value).uses ≤ shelf.uses + 1 := by
  rw [put]
  split_ifs
  · exact Nat.le_succ _
  · rw [store_uses (by rwa [evict_uses]), evict_uses]
  · exact (store_uses hfew key value).le

/-- No call leaves more than there is room for. -/
theorem step_length_le (h : shelf.entries.entries.length ≤ cap) (order : EntryOrder ν)
    (call : Call ν) :
    (shelf.step cap order call).2.entries.entries.length ≤ cap := by
  cases call with
  | get key =>
    simp only [step, touch, nextUse]
    rcases hfind : shelf.entries.lookup key with _ | entry
    · exact h
    · have hmem : key ∈ shelf.entries := AList.lookup_isSome.1 (hfind ▸ rfl)
      exact (AList.length_insert_of_mem hmem _).trans_le h
  | clear => exact Nat.zero_le cap
  | put key value =>
    simp only [step, put]
    split_ifs with hzero hfull
    · exact h
    · refine (AList.length_insert_le _ key _).trans ?_
      have hsome : shelf.entries.entries ≠ [] := by
        rintro hnil
        rw [hnil] at hfull
        exact hzero (Nat.le_zero.1 hfull.2)
      exact (length_evict_lt hsome).trans_le h
    · by_cases hmem : key ∈ shelf.entries
      · exact (AList.length_insert_of_mem hmem _).trans_le h
      · exact (AList.length_insert_le _ key _).trans (not_le.1 fun hge ↦ hfull ⟨hmem, hge⟩)

theorem run_length_le (h : shelf.entries.entries.length ≤ cap)
    (calls : List (EntryOrder ν × Call ν)) :
    (shelf.run cap calls).2.entries.entries.length ≤ cap := by
  induction calls generalizing shelf with
  | nil => exact h
  | cons call calls ih => exact ih (step_length_le h call.1 call.2)

end Shelf

/-! ## The shelf and the ideal -/

/-- What is held, without the numbers. -/
def values (entries : AList fun _ : String ↦ Entry ν) : Ideal ν :=
  entries.mapValues fun _ entry ↦ entry.value

/-- The shelf holds what the ideal cache holds, and its entries are in the order of their
numbers. -/
structure Refines (shelf : Shelf ν) (held : Ideal ν) : Prop where
  stamped : Stamped (fun entry ↦ entry.2.used) shelf.uses shelf.entries
  values_eq : values shelf.entries = held

namespace Refines

variable {cap : ℕ} {order : EntryOrder ν} {shelf : Shelf ν} {held : Ideal ν}

theorem new : Refines (.new : Shelf ν) ∅ where
  stamped := .empty
  values_eq := rfl

theorem clear : Refines shelf.clear ∅ where
  stamped := Stamped.empty.tick (Nat.zero_le _)
  values_eq := rfl

theorem nextUse_eq (hfew : shelf.uses + 1 < 2 ^ 64) :
    shelf.nextUse = { shelf with uses := shelf.uses + 1 } := by
  rw [Shelf.nextUse, Nat.mod_eq_of_lt hfew]

theorem store (h : Refines shelf held) (hfew : shelf.uses + 1 < 2 ^ 64) (key : String) (value : ν) :
    Refines (shelf.store key value) (held.insert key value) := by
  rw [Shelf.store, nextUse_eq hfew]
  refine ⟨h.stamped.insert rfl, ?_⟩
  rw [← h.values_eq]
  exact AList.mapValues_insert _ _ key _

theorem touch (h : Refines shelf held) (hfew : shelf.uses + 1 < 2 ^ 64) (key : String) :
    (shelf.touch key).1 = (held.get key).1 ∧
      Refines (shelf.touch key).2 (held.get key).2 ∧
      (shelf.touch key).2.uses = shelf.uses + 1 := by
  have hfind : held.lookup key = (shelf.entries.lookup key).map Entry.value := by
    rw [← h.values_eq]
    exact AList.mapValues_lookup _ shelf.entries key
  rw [Shelf.touch, nextUse_eq hfew, Ideal.get, hfind]
  rcases shelf.entries.lookup key with _ | entry
  · exact ⟨rfl, ⟨h.stamped.tick (Nat.le_succ _), h.values_eq⟩, rfl⟩
  · refine ⟨rfl, ⟨h.stamped.insert rfl, ?_⟩, rfl⟩
    rw [← h.values_eq]
    exact AList.mapValues_insert _ _ key _

theorem length_eq (h : Refines shelf held) :
    held.entries.length = shelf.entries.entries.length := by
  rw [← h.values_eq]
  exact List.length_map _

theorem mem_iff (h : Refines shelf held) {key : String} : key ∈ held ↔ key ∈ shelf.entries := by
  rw [← AList.lookup_isSome, ← AList.lookup_isSome, ← h.values_eq, values, AList.mapValues_lookup,
    Option.isSome_map]

/-- The entry that was used least recently is the last of the list. -/
theorem evict (h : Refines shelf held) {last : Sigma fun _ : String ↦ ν}
    (hlast : held.entries.getLast? = some last) :
    Refines (shelf.evictLeastRecentlyUsed order) (held.erase last.1) := by
  rw [← h.values_eq, values, AList.mapValues_entries, List.getLast?_map,
    Option.map_eq_some_iff] at hlast
  obtain ⟨oldest, holdest, rfl⟩ := hlast
  rw [Shelf.evictLeastRecentlyUsed, h.stamped.minByKey_eq, holdest]
  refine ⟨h.stamped.erase oldest.1, ?_⟩
  rw [← h.values_eq]
  exact AList.mapValues_erase _ _ oldest.1

theorem put (h : Refines shelf held) (hlength : shelf.entries.entries.length ≤ cap)
    (hfew : shelf.uses + 1 < 2 ^ 64) (key : String) (value : ν) :
    Refines (shelf.put cap order key value) (held.put cap key value) := by
  rw [← h.length_eq] at hlength
  rw [Shelf.put, Ideal.put]
  split_ifs with hzero hfull
  · have hnil : held.entries = [] := List.length_eq_zero_iff.1 (Nat.le_zero.1 (hzero ▸ hlength))
    have hempty : (held.insert key value).keep cap = held := by
      refine AList.ext ?_
      rw [hzero, AList.keep_entries, List.take_zero, hnil]
    rw [hempty]
    exact h
  · rw [← h.mem_iff, ← h.length_eq] at hfull
    obtain ⟨hnew, hcap⟩ := hfull
    obtain rfl : held.entries.length = cap := hlength.antisymm hcap
    have hsome : held.entries ≠ [] := fun hnil ↦ hzero (by rw [hnil, List.length_nil])
    obtain ⟨last, hlast⟩ := Option.isSome_iff_exists.1 (List.getLast?_isSome.2 hsome)
    rw [AList.keep_insert hlast hnew]
    refine (h.evict hlast).store ?_ key value
    rwa [Shelf.evict_uses]
  · rw [← h.mem_iff, ← h.length_eq] at hfull
    rw [AList.keep_of_le]
    · exact h.store hfew key value
    · by_cases hmem : key ∈ held
      · exact (AList.length_insert_of_mem hmem _).trans_le hlength
      · exact (AList.length_insert_le _ key _).trans (not_le.1 fun hge ↦ hfull ⟨hmem, hge⟩)

/-- **A call is answered as the ideal cache answers it**, and leaves the two alike. -/
theorem step (h : Refines shelf held) (hlength : shelf.entries.entries.length ≤ cap)
    (order : EntryOrder ν) (call : Call ν)
    (hfew : shelf.uses + (if call.isUse then 1 else 0) < 2 ^ 64) :
    (shelf.step cap order call).1 = (held.step cap call).1 ∧
      Refines (shelf.step cap order call).2 (held.step cap call).2 ∧
      (shelf.step cap order call).2.uses ≤ shelf.uses + if call.isUse then 1 else 0 := by
  cases call with
  | clear => exact ⟨rfl, .clear, le_rfl⟩
  | get key =>
    obtain ⟨hanswer, hrefines, huses⟩ := h.touch hfew key
    exact ⟨hanswer, hrefines, huses.le⟩
  | put key value => exact ⟨rfl, h.put hlength hfew key value, Shelf.put_uses_le hfew key value⟩

/-- A run of calls is answered as the ideal cache answers it. -/
theorem run (h : Refines shelf held) (hlength : shelf.entries.entries.length ≤ cap)
    (calls : List (EntryOrder ν × Call ν))
    (hfew : shelf.uses + calls.countP (·.2.isUse) < 2 ^ 64) :
    (shelf.run cap calls).1 = held.answers cap (calls.map Prod.snd) := by
  induction calls generalizing shelf held with
  | nil => rfl
  | cons call calls ih =>
    rw [List.countP_cons] at hfew
    obtain ⟨hanswer, hrefines, huses⟩ := h.step hlength call.1 call.2 (by omega)
    rw [List.map_cons, Ideal.answers, ← hanswer]
    exact congrArg _ (ih hrefines (Shelf.step_length_le hlength call.1 call.2) (by omega))

end Refines

/-- **The cache answers as the ideal cache does**, and never holds more than it has room for. -/
theorem answers_ideal (cap : ℕ) (calls : List (EntryOrder ν × Call ν))
    (hfew : calls.countP (·.2.isUse) < 2 ^ 64) :
    (Shelf.new.run cap calls).1 = Ideal.answers cap (calls.map Prod.snd) ∅ ∧
      ∀ early, early <+: calls → (Shelf.new.run cap early).2.entries.entries.length ≤ cap := by
  refine ⟨Refines.new.run (Nat.zero_le cap) calls ?_,
    fun early _ ↦ Shelf.run_length_le (Nat.zero_le cap) early⟩
  rwa [Shelf.new, Nat.zero_add]

/-- With room for two, `b` makes room for `c`, because `a` was asked for in between. -/
theorem answers_ideal_two :
    let calls : List (EntryOrder ℕ × Call ℕ) :=
      [.put "a" 1, .put "b" 2, .get "a", .put "c" 3, .get "b", .get "a"].map (.asListed _, ·)
    calls.countP (·.2.isUse) < 2 ^ 64 ∧
      (Shelf.new.run 2 calls).1 = [none, none, some 1, none, none, some 1] ∧
      (Shelf.new.run 2 calls).1 = Ideal.answers 2 (calls.map Prod.snd) ∅ ∧
      ∀ early, early <+: calls → (Shelf.new.run 2 early).2.entries.entries.length ≤ 2 :=
  ⟨by decide, by decide, answers_ideal 2 _ (by decide)⟩

end Huntsman.ResponseCache
