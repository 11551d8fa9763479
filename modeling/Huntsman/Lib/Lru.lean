import Huntsman.Lib.Iteration
import Mathlib.Data.List.TakeDrop

/-!
# Keeping what was used last

An ideal cache is a list of what it holds, used last first.  What is used comes to its front
(`AList.insert`), and of more entries than it has room for it keeps the first (`AList.keep`).

A program may keep such a cache in a map that has no order, if each entry carries a stamp from a
counter that every use advances.  Listed by their stamps (`Stamped`), the entries are in the order
of their last use, and the entry with the least stamp is the last of them (`Stamped.minByKey_eq`).
-/

set_option autoImplicit false

universe u v w

open List

namespace AList

variable {κ : Type u} {ν : κ → Type v}

/-- The first entries, at most `cap` of them. -/
def keep (cap : ℕ) (m : AList ν) : AList ν where
  entries := m.entries.take cap
  nodupKeys := m.nodupKeys.sublist (take_sublist cap m.entries)

@[simp] theorem keep_entries (cap : ℕ) (m : AList ν) :
    (m.keep cap).entries = m.entries.take cap := rfl

theorem keep_of_le {cap : ℕ} {m : AList ν} (h : m.entries.length ≤ cap) : m.keep cap = m :=
  AList.ext (take_of_length_le h)

variable {μ : κ → Type w}

/-- The map with another value at each key. -/
def mapValues (f : ∀ key, ν key → μ key) (m : AList ν) : AList μ where
  entries := m.entries.map (Sigma.map id f)
  nodupKeys := m.nodupKeys.map₂ f

@[simp] theorem mapValues_entries (f : ∀ key, ν key → μ key) (m : AList ν) :
    (m.mapValues f).entries = m.entries.map (Sigma.map id f) := rfl

variable [DecidableEq κ]

theorem mapValues_lookup (f : ∀ key, ν key → μ key) (m : AList ν) (key : κ) :
    (m.mapValues f).lookup key = (m.lookup key).map (f key) :=
  dlookup_map₂ key

theorem kerase_map (f : ∀ key, ν key → μ key) (entries : List (Sigma ν)) (key : κ) :
    (entries.map (Sigma.map id f)).kerase key = (entries.kerase key).map (Sigma.map id f) := by
  induction entries with
  | nil => rfl
  | cons entry entries ih =>
    by_cases h : key = entry.1
    · rw [map_cons, kerase_cons_eq h]
      exact kerase_cons_eq h
    · rw [map_cons, kerase_cons_ne h, map_cons, ← ih]
      exact kerase_cons_ne h

theorem mapValues_insert (f : ∀ key, ν key → μ key) (m : AList ν) (key : κ) (value : ν key) :
    (m.insert key value).mapValues f = (m.mapValues f).insert key (f key value) := by
  refine AList.ext ?_
  rw [entries_insert]
  exact congrArg _ (kerase_map f m.entries key).symm

theorem mapValues_erase (f : ∀ key, ν key → μ key) (m : AList ν) (key : κ) :
    (m.erase key).mapValues f = (m.mapValues f).erase key :=
  AList.ext (kerase_map f m.entries key).symm

/-- Inserting makes a map longer by one at most. -/
theorem length_insert_le (m : AList ν) (key : κ) (value : ν key) :
    (m.insert key value).entries.length ≤ m.entries.length + 1 := by
  rw [entries_insert, length_cons]
  exact Nat.succ_le_succ (kerase_sublist key m.entries).length_le

theorem length_erase_of_mem {m : AList ν} {key : κ} (h : key ∈ m) :
    (m.erase key).entries.length + 1 = m.entries.length := by
  obtain ⟨_, front, behind, -, hsplit, hrest⟩ := exists_of_kerase (mem_keys.1 h)
  show (kerase key m.entries).length + 1 = _
  rw [hrest, hsplit, length_append, length_append, length_cons, Nat.add_assoc]

theorem length_insert_of_mem {m : AList ν} {key : κ} (h : key ∈ m) (value : ν key) :
    (m.insert key value).entries.length = m.entries.length := by
  rw [entries_insert, length_cons]
  exact length_erase_of_mem h

/-- The entries that are left without the last. -/
theorem kerase_getLast {entries : List (Sigma ν)} (h : entries.NodupKeys) {last : Sigma ν}
    (hlast : entries.getLast? = some last) : entries.kerase last.1 = entries.dropLast := by
  obtain ⟨front, rfl⟩ := getLast?_eq_some_iff.1 hlast
  have hnew : last.1 ∉ front.keys := by
    intro hmem
    rw [NodupKeys, keys_append] at h
    exact disjoint_of_nodup_append h hmem (mem_keys_of_mem (mem_singleton_self last))
  rw [kerase_append_right hnew, kerase_cons_eq rfl, dropLast_concat, append_nil]

/-- A full map makes room for a new entry by giving up its last. -/
theorem keep_insert {m : AList ν} {last : Sigma ν} (hlast : m.entries.getLast? = some last)
    {key : κ} (hnew : key ∉ m) (value : ν key) :
    (m.insert key value).keep m.entries.length = (m.erase last.1).insert key value := by
  have hrest : ((m.erase last.1).insert key value).entries
      = ⟨key, value⟩ :: m.entries.dropLast := by
    have hnew' : key ∉ m.erase last.1 := fun h ↦ hnew (mem_erase.1 h).2
    rw [entries_insert_of_notMem hnew']
    exact congrArg _ (kerase_getLast m.nodupKeys hlast)
  refine AList.ext ?_
  rw [hrest, keep_entries, entries_insert_of_notMem hnew]
  obtain ⟨front, hfront⟩ := getLast?_eq_some_iff.1 hlast
  rw [hfront, dropLast_concat, length_append, length_singleton, take_succ_cons,
    take_left' rfl]

end AList

/-! ## Stamps -/

variable {κ : Type u} {ν : κ → Type v}

/-- The entries of a map are listed by their stamps, the greatest first, and no stamp is greater
than the counter. -/
structure Stamped (stamp : Sigma ν → ℕ) (now : ℕ) (m : AList ν) : Prop where
  descending : m.entries.Pairwise fun later earlier ↦ stamp earlier < stamp later
  le_now : ∀ entry ∈ m.entries, stamp entry ≤ now

namespace Stamped

variable {stamp : Sigma ν → ℕ} {now : ℕ} {m : AList ν}

theorem empty : Stamped stamp now (∅ : AList ν) where
  descending := Pairwise.nil
  le_now _ h := absurd h not_mem_nil

theorem tick (h : Stamped stamp now m) {later : ℕ} (hle : now ≤ later) : Stamped stamp later m where
  descending := h.descending
  le_now entry hentry := (h.le_now entry hentry).trans hle

/-- The last entry is the one with the least stamp, whatever order the map is gone through in. -/
theorem minByKey_eq (h : Stamped stamp now m) (iteration : Iteration (Sigma ν)) :
    m.minByKey iteration stamp = m.entries.getLast? := by
  rcases hleast : m.minByKey iteration stamp with _ | least
  · rw [AList.minByKey_eq_none.1 hleast, getLast?_nil]
  · obtain ⟨front, behind, hsplit⟩ := append_of_mem (AList.minByKey_mem hleast)
    -- what stood behind it would have a lesser stamp
    cases behind with
    | nil => rw [hsplit, getLast?_concat]
    | cons other behind =>
      have hother : other ∈ m.entries := by simp [hsplit]
      have hdescending := h.descending
      rw [hsplit, pairwise_append] at hdescending
      have hlt := rel_of_pairwise_cons hdescending.2.1 (mem_cons_self (a := other) (l := behind))
      exact absurd (AList.minByKey_le hleast hother) hlt.not_ge

variable [DecidableEq κ]

theorem erase (h : Stamped stamp now m) (key : κ) : Stamped stamp now (m.erase key) where
  descending := h.descending.sublist (kerase_sublist key m.entries)
  le_now entry hentry := h.le_now entry ((kerase_sublist key m.entries).subset hentry)

/-- What is stamped with the next number comes to the front. -/
theorem insert (h : Stamped stamp now m) {key : κ} {value : ν key}
    (hstamp : stamp ⟨key, value⟩ = now + 1) : Stamped stamp (now + 1) (m.insert key value) where
  descending := by
    rw [AList.entries_insert]
    refine pairwise_cons.2 ⟨fun other hother ↦ ?_, (h.erase key).descending⟩
    exact hstamp ▸ Nat.lt_succ_of_le ((h.erase key).le_now other hother)
  le_now entry hentry := by
    rw [AList.entries_insert] at hentry
    rcases mem_cons.1 hentry with rfl | hentry
    · exact hstamp.le
    · exact ((h.erase key).le_now entry hentry).trans (Nat.le_succ now)

end Stamped
