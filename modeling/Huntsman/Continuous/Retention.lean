import Huntsman.Scans.Store
import Mathlib.Data.List.Dedup
import Mathlib.Data.Prod.Lex
import Mathlib.Data.String.Basic

/-!
# Which scans retention may delete

`prunable` groups scans by what they looked up, keeps the newest of each group and the newest that
has finished, and plans to delete what has ended of the rest.  Scans are compared by when they were
created, and by their ids where that is the same, so that with distinct ids each group has one
newest scan.

A scan that is the newest of its group, or the newest that has finished, is not planned
(`ne_of_mem_prunable`), and nor is an active one (`not_active_of_mem_prunable`).
-/

set_option autoImplicit false

namespace Huntsman.Continuous

open List

open Scans (ScanRecord ScanStatus)

/-- Not finished one way or another. -/
def isActive : ScanStatus → Bool
  | .created | .starting | .running | .abortRequested => true
  | .aborted | .finished | .errorFailed => false

/-- What scans are compared by. -/
def age (r : ScanRecord) : ℕ ×ₗ String := toLex (r.created.toNat, r.id)

/-- What a scan looked up. -/
def groupKey (r : ScanRecord) : String × String := (r.kind, r.target)

/-- The scans of a group, newest first. -/
def group (records : List ScanRecord) (key : String × String) : List ScanRecord :=
  (records.filter fun r ↦ groupKey r = key).insertionSort fun a b ↦ age b ≤ age a

/-- What is planned of a group. -/
def planned (keep : ℕ) (group : List ScanRecord) : List ScanRecord :=
  let lastFinished := (group.find? fun r ↦ r.status = .finished).map ScanRecord.id
  (group.drop (max keep 1)).filter fun r ↦ !isActive r.status && decide (some r.id ≠ lastFinished)

/-- The groups there are, in order. -/
def groupKeys (records : List ScanRecord) : List (String × String) :=
  (records.map groupKey).dedup.insertionSort fun a b ↦ toLex a ≤ toLex b

/-- The scans that a pass which keeps the newest `keep` of each group would delete, oldest
first. -/
def prunable (records : List ScanRecord) (keep : ℕ) : List ScanRecord :=
  ((groupKeys records).flatMap fun key ↦ planned keep (group records key)).insertionSort
    fun a b ↦ age a ≤ age b

/-! ## What is never planned -/

variable {records : List ScanRecord} {keep : ℕ} {key : String × String} {x r : ScanRecord}

/-- A scan of which no other of its group that satisfies `P` is newer. -/
def Newest (records : List ScanRecord) (P : ScanRecord → Prop) (r : ScanRecord) : Prop :=
  r ∈ records ∧ P r ∧ ∀ x ∈ records, P x → groupKey x = groupKey r → age x ≤ age r

/-- The scans that a store keeps: the newest of each group, and the newest that has finished. -/
def Keeper (records : List ScanRecord) (r : ScanRecord) : Prop :=
  Newest records (fun _ ↦ True) r ∨ Newest records (fun r ↦ r.status = .finished) r

theorem mem_group : x ∈ group records key ↔ x ∈ records ∧ groupKey x = key := by
  rw [group, mem_insertionSort, mem_filter, decide_eq_true_eq]

theorem pairwise_group (records : List ScanRecord) (key : String × String) :
    (group records key).Pairwise fun a b ↦ age b ≤ age a := by
  have htotal : Std.Total fun a b : ScanRecord ↦ age b ≤ age a := ⟨fun a b ↦ le_total (age b) (age a)⟩
  have htrans : IsTrans ScanRecord fun a b ↦ age b ≤ age a := ⟨fun _ _ _ hab hbc ↦ hbc.trans hab⟩
  exact pairwise_insertionSort _ _

theorem mem_prunable : x ∈ prunable records keep ↔
    ∃ key ∈ groupKeys records, x ∈ planned keep (group records key) := by
  rw [prunable, mem_insertionSort, mem_flatMap]

theorem mem_planned {l : List ScanRecord} : x ∈ planned keep l ↔
    x ∈ l.drop (max keep 1) ∧ isActive x.status = false ∧
      some x.id ≠ (l.find? fun r ↦ r.status = .finished).map ScanRecord.id := by
  rw [planned, mem_filter, Bool.and_eq_true, Bool.not_eq_true', decide_eq_true_eq]

/-- What is planned is in the records, and behind the newest of its group. -/
theorem mem_of_mem_prunable (h : x ∈ prunable records keep) :
    x ∈ records ∧ x ∈ (group records (groupKey x)).tail ∧
      some x.id ≠
        ((group records (groupKey x)).find? fun r ↦ r.status = .finished).map ScanRecord.id := by
  obtain ⟨key, -, hplanned⟩ := mem_prunable.1 h
  obtain ⟨hdrop, -, hne⟩ := mem_planned.1 hplanned
  obtain ⟨hmem, rfl⟩ := mem_group.1 (mem_of_mem_drop hdrop)
  refine ⟨hmem, ?_, hne⟩
  rw [← drop_one]
  exact (drop_subset_drop_left _ (le_max_right keep 1)) hdrop

/-- **An active scan is never planned.** -/
theorem not_active_of_mem_prunable (h : x ∈ prunable records keep) : isActive x.status = false := by
  obtain ⟨key, -, hplanned⟩ := mem_prunable.1 h
  exact (mem_planned.1 hplanned).2.1

/-- With distinct ids a scan is known by its age. -/
theorem eq_of_id_eq (hids : (records.map ScanRecord.id).Nodup) (hx : x ∈ records) (hr : r ∈ records)
    (h : x.id = r.id) : x = r :=
  inj_on_of_nodup_map hids hx hr h

/-- **The newest scan of a group and the newest that has finished are never planned.** -/
theorem ne_of_mem_prunable (hids : (records.map ScanRecord.id).Nodup) (hr : Keeper records r)
    (h : x ∈ prunable records keep) : x.id ≠ r.id := by
  obtain ⟨hx, htail, hfinished⟩ := mem_of_mem_prunable h
  have hsorted := pairwise_group records (groupKey x)
  intro hid
  rcases hr with ⟨hr, -, hnewest⟩ | ⟨hr, hstatus, hnewest⟩
  · obtain rfl := eq_of_id_eq hids hx hr hid
    rcases hgroup : group records (groupKey x) with _ | ⟨first, rest⟩
    · rw [hgroup] at htail
      cases htail
    · rw [hgroup] at htail hsorted
      have hfirst := mem_group.1 (hgroup ▸ (.head _) : first ∈ group records (groupKey x))
      have hage := (hnewest first hfirst.1 trivial hfirst.2).antisymm
        ((pairwise_cons.1 hsorted).1 x htail)
      have hsame : first = x := eq_of_id_eq hids hfirst.1 hx (congrArg (fun a ↦ (ofLex a).2) hage)
      have hnodup : (group records (groupKey x)).Nodup :=
        ((List.Nodup.of_map _ hids).filter _).perm (perm_insertionSort _ _).symm
      rw [hgroup, nodup_cons] at hnodup
      exact hnodup.1 (hsame ▸ htail)
  · obtain rfl := eq_of_id_eq hids hx hr hid
    rcases hfind : (group records (groupKey x)).find? fun r ↦ r.status = .finished with _ | first
    · have hnone := find?_eq_none.1 hfind x (mem_group.2 ⟨hx, rfl⟩)
      exact hnone (decide_eq_true hstatus)
    · obtain ⟨hdone, before, after, hsplit, hbefore⟩ := find?_eq_some_iff_append.1 hfind
      have hfirst := mem_group.1
        (hsplit ▸ mem_append_right before (.head _) :
          first ∈ group records (groupKey x))
      have hle := hnewest first hfirst.1 (of_decide_eq_true hdone) hfirst.2
      have hmem : x ∈ first :: after := by
        have hin : x ∈ before ++ first :: after := hsplit ▸ mem_group.2 ⟨hx, rfl⟩
        rcases mem_append.1 hin with hin | hin
        · exact absurd (decide_eq_true hstatus) (by simpa using hbefore x hin)
        · exact hin
      rw [hsplit] at hsorted
      have hge : age x ≤ age first := by
        rcases mem_cons.1 hmem with rfl | hafter
        · exact le_rfl
        · exact (pairwise_cons.1 (pairwise_append.1 hsorted).2.1).1 x hafter
      refine hfinished ?_
      rw [hfind, Option.map_some]
      exact congrArg (fun a ↦ some (ofLex a).2) (hge.antisymm hle)

end Huntsman.Continuous
