import Huntsman.Scans.Store
import Mathlib.Data.List.Infix

/-!
# What a call can do to a store

Whatever a system call does, it changes the store in one of five ways (`Change`): it makes a
directory or removes one that is empty, it puts a row or another file into one, or it changes none.
What the other calls rely on is stated of these: nothing that was recorded is lost, a scan that has
a row keeps its directory, and a row gives way only to one that is recorded after it.
-/

set_option autoImplicit false

namespace Huntsman.Scans

open List

variable {json : Json} {st st' : Store} {i : ℕ} {id : String} {record : ScanRecord}

/-! ## The rows that were written -/

@[simp] theorem lastRow_nil : lastRow [] id = none := rfl

theorem lastRow_append (history : List (String × ScanRecord)) (name : String)
    (record : ScanRecord) :
    lastRow (history ++ [(name, record)]) id =
      if name = id then some record else lastRow history id := by
  by_cases h : name = id <;> simp [lastRow, h]

theorem lastRow_ne_none_later {history history' : List (String × ScanRecord)}
    (h : history <+: history') (hrow : lastRow history id ≠ none) : lastRow history' id ≠ none := by
  obtain ⟨rest, rfl⟩ := h
  induction rest using reverseRecOn with
  | nil => simpa using hrow
  | append_singleton rest last ih =>
    rw [← append_assoc, lastRow_append]
    split
    · simp
    · exact ih

/-- A row that was written is read back as it was given. -/
structure Wrote (json : Json) (record : ScanRecord) (id : String) (body : List UInt8) : Prop where
  encode : json.encode record = .ok body
  size : body.length ≤ maxRowBytes
  format : record.formatVersion = formatVersion
  id : record.id = id

theorem Wrote.parse (hjson : json.ReadsBack) {path : String} {body : List UInt8}
    (h : Wrote json record id body) : parseRow json path id body = .ok record := by
  have hsize : ¬ maxRowBytes < body.length := Nat.not_lt.2 h.size
  have hsame : ¬ (record.formatVersion ≠ formatVersion ∨ record.id ≠ id) := by
    simp [h.format, h.id]
  simp only [parseRow, if_neg hsize, hjson record body h.encode, if_neg hsame]

/-! ## Changes -/

inductive Change (json : Json) (st : Store) (i : ℕ) : Store → Prop where
  | same (locks : List ℕ) (faults : ℕ) (h : st.faults ≤ faults) :
      Change json st i { st with locks, faults }
  | make {id : String} (h : id ∉ st.dirs) : Change json st i (st.makeDir (some i) id)
  | remove {id : String} (locks : List ℕ) (hid : id ∈ st.dirs)
      (hempty : st.contents id = { maker := some i }) :
      Change json st i { st.removeDir id with locks }
  | put {record : ScanRecord} {body : List UInt8} (inode : ℕ) (locks : List ℕ)
      (hid : record.id ∈ st.dirs)
      (hown : (st.contents record.id).maker = some i ∨ (st.contents record.id).row ≠ none)
      (hwrote : Wrote json record record.id body) :
      Change json st i { st.putRow record inode body with locks }
  | touch (id : String) : Change json st i (st.touch id)

theorem Store.putRow_of_mem (h : record.id ∈ st.dirs) (inode : ℕ) (body : List UInt8) :
    st.putRow record inode body = { st with
      files := st.files ++ [⟨inode, body⟩]
      contents := Function.update st.contents record.id
        { st.contents record.id with row := some st.files.length }
      history := st.history ++ [(record.id, record)] } := by
  simp only [Store.putRow, if_pos h]

namespace Change

variable (h : Change json st i st')

include h

theorem history : st.history <+: st'.history := by
  cases h with
  | put inode locks hid hown hwrote =>
    rw [Store.putRow_of_mem hid]
    exact prefix_append ..
  | same | make | remove | touch => exact prefix_rfl

theorem files : st.files <+: st'.files := by
  cases h with
  | put inode locks hid hown hwrote =>
    rw [Store.putRow_of_mem hid]
    exact prefix_append ..
  | same | make | remove | touch => exact prefix_rfl

theorem made : st.made <+: st'.made := by
  cases h with
  | put inode locks hid hown hwrote =>
    rw [Store.putRow_of_mem hid]
  | make => exact prefix_append ..
  | same | remove | touch => exact prefix_rfl

theorem removed : st.removed <+: st'.removed := by
  cases h with
  | put inode locks hid hown hwrote =>
    rw [Store.putRow_of_mem hid]
  | remove => exact prefix_append ..
  | same | make | touch => exact prefix_rfl

theorem faults : st.faults ≤ st'.faults := by
  cases h with
  | same locks faults hfaults => exact hfaults
  | put inode locks hid hown hwrote => rw [Store.putRow_of_mem hid]
  | make | remove | touch => exact le_rfl

/-- A directory stays, or is the one that was removed. -/
theorem mem_dirs (hid : id ∈ st.dirs) :
    id ∈ st'.dirs ∨
      (st'.removed = st.removed ++ [id] ∧ st.contents id = { maker := some i }) := by
  cases h with
  | same | touch => exact .inl hid
  | make => exact .inl (mem_append_left _ hid)
  | @remove name locks hname hempty =>
    by_cases heq : id = name
    · subst heq
      exact .inr ⟨rfl, hempty⟩
    · exact .inl ((mem_erase_of_ne heq).2 hid)
  | put inode locks hid' =>
    rw [Store.putRow_of_mem hid']
    exact .inl hid

/-- A directory was there, or is the one that was made. -/
theorem of_mem_dirs (hid : id ∈ st'.dirs) :
    (id ∈ st.dirs ∧ (st'.contents id).maker = (st.contents id).maker) ∨
      (st' = st.makeDir (some i) id ∧ id ∉ st.dirs) := by
  cases h with
  | same => exact .inl ⟨hid, rfl⟩
  | @make name hname =>
    rcases mem_append.1 hid with hid | hid
    · have hne : id ≠ name := fun heq ↦ hname (heq ▸ hid)
      exact .inl ⟨hid, by simp [Store.makeDir, hne]⟩
    · obtain rfl := mem_singleton.1 hid
      exact .inr ⟨rfl, hname⟩
  | remove => exact .inl ⟨mem_of_mem_erase hid, rfl⟩
  | @put record body inode locks hid' =>
    rw [Store.putRow_of_mem hid'] at hid ⊢
    refine .inl ⟨hid, ?_⟩
    by_cases heq : id = record.id
    · simp [heq]
    · simp [heq]
  | touch name =>
    refine .inl ⟨hid, ?_⟩
    by_cases heq : id = name
    · simp [Store.touch, heq]
    · simp [Store.touch, heq]

/-- What is put into a directory is put there by its maker, as long as it has no row. -/
theorem row_none (hid : id ∈ st.dirs) (hrow : (st.contents id).row = none)
    (hmaker : (st.contents id).maker ≠ some i) :
    id ∈ st'.dirs ∧ (st'.contents id).row = none := by
  cases h with
  | same => exact ⟨hid, hrow⟩
  | @make name hname =>
    have hne : id ≠ name := fun heq ↦ hname (heq ▸ hid)
    exact ⟨mem_append_left _ hid, by simp [Store.makeDir, hne, hrow]⟩
  | @remove name locks hname hempty =>
    have hne : id ≠ name := by
      rintro rfl
      simp [hempty] at hmaker
    exact ⟨(mem_erase_of_ne hne).2 hid, hrow⟩
  | @put record body inode locks hid' hown =>
    have hne : id ≠ record.id := by
      rintro rfl
      exact hown.elim hmaker (· hrow)
    rw [Store.putRow_of_mem hid']
    exact ⟨hid, by simp [hne, hrow]⟩
  | touch name =>
    refine ⟨hid, ?_⟩
    by_cases heq : id = name
    · subst heq
      simp [Store.touch, hrow]
    · simp [Store.touch, heq, hrow]

/-- A row stays, or gives way to one that is recorded. -/
theorem rowFile {file : ℕ} (hfile : st.rowFile id = some file) :
    st'.rowFile id = some file ∨
      ∃ record body inode, st'.rowFile id = some st.files.length ∧
        st'.files = st.files ++ [⟨inode, body⟩] ∧ st'.history = st.history ++ [(id, record)] ∧
        Wrote json record id body := by
  have hid : id ∈ st.dirs := by
    by_contra hid
    simp [Store.rowFile, hid] at hfile
  have hrow : (st.contents id).row = some file := by simpa [Store.rowFile, hid] using hfile
  cases h with
  | same => exact .inl hfile
  | @make name hname =>
    have hne : id ≠ name := fun heq ↦ hname (heq ▸ hid)
    exact .inl (by simp [Store.rowFile, Store.makeDir, hne, hid, hrow])
  | @remove name locks hname hempty =>
    have hne : id ≠ name := by
      rintro rfl
      simp [hempty] at hrow
    exact .inl (by simp [Store.rowFile, Store.removeDir, mem_erase_of_ne hne, hid, hrow])
  | @put record body inode locks hid' hown hwrote =>
    rw [Store.putRow_of_mem hid']
    by_cases heq : id = record.id
    · subst heq
      exact .inr ⟨record, body, inode, by simp [Store.rowFile, hid], rfl, rfl, hwrote⟩
    · exact .inl (by simp [Store.rowFile, heq, hid, hrow])
  | touch name =>
    left
    by_cases heq : id = name
    · subst heq
      simp [Store.rowFile, Store.touch, hid, hrow]
    · simp [Store.rowFile, Store.touch, heq, hid, hrow]

theorem nodup (hnodup : st.dirs.Nodup) : st'.dirs.Nodup := by
  cases h with
  | same | touch => exact hnodup
  | make hid => exact nodup_append.2 ⟨hnodup, nodup_singleton _, by
      rintro a ha b hb rfl
      exact hid (mem_singleton.1 hb ▸ ha)⟩
  | remove => exact hnodup.erase _
  | put inode locks hid =>
    rw [Store.putRow_of_mem hid]
    exact hnodup

end Change

end Huntsman.Scans
