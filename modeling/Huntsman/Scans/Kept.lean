import Huntsman.Lib.Slots
import Huntsman.Scans.Changes

/-!
# What is kept of the scans of a store

`Ok` says of each call what it may rely on wherever it is: a `create` that has made its directory is
the only one that has written in it, a `list` has met each scan whose row it must show, and a row
that was read was the last one at some time since the listing began.  A step of any call keeps it.
-/

set_option autoImplicit false

namespace Huntsman.Scans

open List Option

variable (json : Json)

/-! ## Invariants -/

/-- The last row of each scan is in its directory. -/
structure Store.Ok (st : Store) : Prop where
  nodup : st.dirs.Nodup
  rows : ∀ (id : String) (record : ScanRecord), lastRow st.history id = some record →
    ∃ (n : ℕ) (f : RowFile), st.rowFile id = some n ∧ st.files[n]? = some f ∧
      Wrote json record id f.body

/-- A scan whose row had been written when the directory was opened. -/
def Listing.Known (l : Listing) (st : Store) (id : String) : Prop :=
  lastRow (st.history.take l.history) id ≠ none

/-- How often a row was written since the directory was opened. -/
def Listing.writes (l : Listing) (st : Store) (id : String) : ℕ :=
  rowWrites (st.history.drop l.history) id

/-- What may be listed of a scan: its last row at some time since the directory was opened, or, if a
row could not be read or was replaced under every attempt, that it is unreadable. -/
def Listing.Shows (l : Listing) (st : Store) (id : String) (record : ScanRecord) : Prop :=
  (∃ k, l.history ≤ k ∧ k ≤ st.history.length ∧ lastRow (st.history.take k) id = some record) ∨
    ((∃ error, record = unreadable id error) ∧
      (l.faults < st.faults ∨ maxAttempts ≤ l.writes st id))

structure Listing.Ok (l : Listing) (st : Store) : Prop where
  history : l.history ≤ st.history.length
  made : l.made ≤ st.made.length
  removed : l.removed ≤ st.removed.length
  faults : l.faults ≤ st.faults
  nodup : l.seen.Nodup
  seen : ∀ name ∈ l.seen, name ∈ l.names ∨ name ∈ st.made.drop l.made
  there : ∀ name, name ∈ l.names ∨ name ∈ st.made.drop l.made →
    name ∈ st.dirs ∨ name ∈ st.removed.drop l.removed
  known : ∀ id, l.Known st id → id ∈ l.names ∧ id ∉ st.removed.drop l.removed

/-- Where the reading of a row that is known is. -/
def Reading.Ok (st : Store) (l : Listing) (id : String) : Reading → Prop
  | .requiring => True
  | .linking attempt => attempt ≤ l.writes st id
  | .opening attempt linked =>
    (st.rowFile id = some linked ∧ attempt ≤ l.writes st id) ∨ attempt + 1 ≤ l.writes st id
  | .comparing attempt linked opened =>
    ((linked = opened ∧ attempt ≤ l.writes st id) ∨ attempt + 1 ≤ l.writes st id) ∧
      ∃ (record : ScanRecord) (f : RowFile) (k : ℕ), st.files[opened]? = some f ∧
        Wrote json record id f.body ∧ l.history ≤ k ∧ k ≤ st.history.length ∧
        lastRow (st.history.take k) id = some record

/-- No directory was made by this call. -/
def Unmade (st : Store) (i : ℕ) : Prop :=
  ∀ id ∈ st.dirs, (st.contents id).maker ≠ some i

/-- This directory was made by this call, and no other. -/
def Owns (st : Store) (i : ℕ) (id : String) : Prop :=
  id ∈ st.dirs ∧ ∀ id' ∈ st.dirs, (st.contents id').maker = some i ↔ id' = id

def Creating.Ok (st : Store) (i : ℕ) (record : ScanRecord) : Creating → Prop
  | .waiting | .locked | .checked | .counting _ _ | .counted =>
    record.formatVersion = formatVersion ∧ Unmade st i
  | .made | .secured | .failed _ =>
    record.formatVersion = formatVersion ∧ Owns st i record.id ∧ (st.contents record.id).row = none
  | .done .ok => Owns st i record.id ∧ lastRow st.history record.id ≠ none
  | .done (.refused _) | .done (.rolledBack _) => Unmade st i
  | .done (.uncleaned _ _ _) => True

def Updating.Ok (st : Store) (record : ScanRecord) : Updating → Prop
  | .waiting => record.formatVersion = formatVersion
  | .checked => record.formatVersion = formatVersion ∧ st.rowFile record.id ≠ none
  | .done _ => True

def Listed.Ok (st : Store) : Listed → Prop
  | .waiting | .refused _ => True
  | .reading l records => l.Ok st ∧ records.length ≤ l.seen.length ∧
      ∀ id ∈ l.seen, l.Known st id → ∃ record ∈ records, l.Shows st id record
  | .row l records name r => l.Ok st ∧ records.length < l.seen.length ∧ name ∈ l.seen ∧
      (∀ id ∈ l.seen, id ≠ name → l.Known st id → ∃ record ∈ records, l.Shows st id record) ∧
      (l.Known st name → r.Ok json st l name)
  | .done l records => l.Ok st ∧ ∀ id, l.Known st id → ∃ record ∈ records, l.Shows st id record
  | .tooMany l => l.Ok st ∧ maxScans < l.seen.length

def Call.Ok (st : Store) (i : ℕ) : Call → Prop
  | .create _ record creating => creating.Ok st i record
  | .update record updating => Unmade st i ∧ updating.Ok st record
  | .get _ _ => Unmade st i
  | .list listed => Unmade st i ∧ listed.Ok json st

structure State.Ok (s : State) : Prop where
  store : s.store.Ok json
  calls : ∀ (i : ℕ) (c : Call), s.calls[i]? = some c → c.Ok json s.store i
  makers : ∀ id ∈ s.store.dirs, ∀ i, (s.store.contents id).maker = some i → i < s.calls.length

variable {json} {st st' : Store} {i j : ℕ} {id : String} {record : ScanRecord} {l : Listing}

/-! ## What the other calls rely on -/

theorem mem_drop_later {xs ys : List String} (h : xs <+: ys) {n : ℕ} {x : String}
    (hx : x ∈ xs.drop n) : x ∈ ys.drop n := by
  obtain ⟨rest, rfl⟩ := h
  rw [drop_append]
  exact mem_append_left _ hx

/-- An entry that was appended after a list was `n` long. -/
theorem mem_drop_append_singleton {xs : List String} {n : ℕ} (hn : n ≤ xs.length) {x y : String} :
    x ∈ (xs ++ [y]).drop n ↔ x ∈ xs.drop n ∨ x = y := by
  rw [drop_append_of_le_length hn, mem_append, mem_singleton]

theorem writes_le (h : st.history <+: st'.history) (hl : l.history ≤ st.history.length) :
    l.writes st id ≤ l.writes st' id := by
  obtain ⟨rest, heq⟩ := h
  rw [Listing.writes, Listing.writes, rowWrites, rowWrites, ← heq,
    drop_append_of_le_length hl, countP_append]
  exact Nat.le_add_right ..

theorem known_iff (h : st.history <+: st'.history) (hl : l.history ≤ st.history.length) :
    l.Known st' id ↔ l.Known st id := by
  obtain ⟨rest, heq⟩ := h
  rw [Listing.Known, Listing.Known, ← heq, take_append_of_le_length hl]

theorem Listing.Shows.later (h : l.Shows st id record) (hhistory : st.history <+: st'.history)
    (hfaults : st.faults ≤ st'.faults) (hl : l.history ≤ st.history.length) :
    l.Shows st' id record := by
  rcases h with ⟨k, hk, hle, hrow⟩ | ⟨herror, hwhy⟩
  · refine .inl ⟨k, hk, hle.trans hhistory.length_le, ?_⟩
    obtain ⟨rest, heq⟩ := hhistory
    rwa [← heq, take_append_of_le_length hle]
  · refine .inr ⟨herror, hwhy.imp (fun hlt ↦ Nat.lt_of_lt_of_le hlt hfaults) fun hle ↦ ?_⟩
    exact hle.trans (writes_le hhistory hl)

theorem mem_dirs_of_lastRow (hstore : st.Ok json) (h : lastRow st.history id ≠ none) :
    id ∈ st.dirs ∧ (st.contents id).row ≠ none := by
  obtain ⟨record, hrecord⟩ := ne_none_iff_exists'.1 h
  obtain ⟨n, f, hfile, -⟩ := hstore.rows id record hrecord
  have hid : id ∈ st.dirs := by
    by_contra hid
    simp [Store.rowFile, hid] at hfile
  refine ⟨hid, ?_⟩
  simp [Store.rowFile, hid] at hfile
  simp [hfile]

theorem Store.Ok.change (hstore : st.Ok json) (h : Change json st i st') : st'.Ok json where
  nodup := h.nodup hstore.nodup
  rows := by
    intro id record hrecord
    have hold : ∀ record, lastRow st.history id = some record → st'.history = st.history →
        ∃ (n : ℕ) (f : RowFile), st'.rowFile id = some n ∧ st'.files[n]? = some f ∧
          Wrote json record id f.body := by
      intro record hrecord hsame
      obtain ⟨n, f, hfile, hf, hwrote⟩ := hstore.rows id record hrecord
      rcases h.rowFile hfile with hfile' | ⟨record', body, inode, -, -, hhistory, -⟩
      · obtain ⟨rest, heq⟩ := h.files
        refine ⟨n, f, hfile', ?_, hwrote⟩
        rw [← heq, getElem?_append_left (lt_of_getElem?_eq_some hf), hf]
      · rw [hsame] at hhistory
        simp at hhistory
    cases h with
    | @put record' body inode locks hid hown hwrote =>
      rw [Store.putRow_of_mem hid] at hrecord ⊢
      rw [lastRow_append] at hrecord
      by_cases heq : record'.id = id
      · rw [if_pos heq, some.injEq] at hrecord
        subst hrecord heq
        exact ⟨st.files.length, ⟨inode, body⟩, by simp [Store.rowFile, hid], by simp, hwrote⟩
      · rw [if_neg heq] at hrecord
        obtain ⟨n, f, hfile, hf, hwrote'⟩ := hstore.rows id record hrecord
        refine ⟨n, f, ?_, ?_, hwrote'⟩
        · simpa [Store.rowFile, Ne.symm heq] using hfile
        · rw [getElem?_append_left (lt_of_getElem?_eq_some hf), hf]
    | same | make | remove | touch => exact hold record hrecord rfl

theorem Listing.Ok.change (hl : l.Ok st) (hstore : st.Ok json) (h : Change json st i st') :
    l.Ok st' where
  history := hl.history.trans h.history.length_le
  made := hl.made.trans h.made.length_le
  removed := hl.removed.trans h.removed.length_le
  faults := hl.faults.trans h.faults
  nodup := hl.nodup
  seen name hname := (hl.seen name hname).imp_right (mem_drop_later h.made)
  there := by
    intro name hname
    have hcases : (name ∈ l.names ∨ name ∈ st.made.drop l.made) ∨ name ∈ st'.dirs := by
      rcases hname with hname | hname
      · exact .inl (.inl hname)
      · cases h with
        | @make name' hnew =>
          rw [Store.makeDir, mem_drop_append_singleton hl.made] at hname
          rcases hname with hname | rfl
          · exact .inl (.inr hname)
          · exact .inr (mem_append_right _ (.head _))
        | put inode locks hid =>
          rw [Store.putRow_of_mem hid] at hname
          exact .inl (.inr hname)
        | same | remove | touch => exact .inl (.inr hname)
    rcases hcases with hname | hname
    · rcases hl.there name hname with hid | hremoved
      · rcases h.mem_dirs hid with hid' | ⟨hremoved, -⟩
        · exact .inl hid'
        · rw [hremoved, mem_drop_append_singleton hl.removed]
          exact .inr (.inr rfl)
      · exact .inr (mem_drop_later h.removed hremoved)
    · exact .inl hname
  known := by
    intro id hknown
    rw [known_iff h.history hl.history] at hknown
    obtain ⟨hnames, hremoved⟩ := hl.known id hknown
    refine ⟨hnames, fun hremoved' ↦ ?_⟩
    have hrow := mem_dirs_of_lastRow hstore
      (lastRow_ne_none_later (List.take_prefix ..) hknown)
    cases h with
    | @remove name locks hid hempty =>
      rw [Store.removeDir, mem_drop_append_singleton hl.removed] at hremoved'
      rcases hremoved' with hremoved' | rfl
      · exact hremoved hremoved'
      · simp [hempty] at hrow
    | put inode locks hid =>
      rw [Store.putRow_of_mem hid] at hremoved'
      exact hremoved hremoved'
    | same | make | touch => exact hremoved hremoved'

/-- A row that gives way is written once more. -/
theorem writes_of_put (hl : l.history ≤ st.history.length)
    (h : st'.history = st.history ++ [(id, record)]) : l.writes st' id = l.writes st id + 1 := by
  rw [Listing.writes, Listing.writes, rowWrites, rowWrites, h, drop_append_of_le_length hl,
    countP_append]
  simp

theorem Reading.Ok.change {r : Reading} (hr : r.Ok json st l id) (hl : l.Ok st)
    (h : Change json st i st') : r.Ok json st' l id := by
  have hwrites : l.writes st id ≤ l.writes st' id := writes_le h.history hl.history
  cases r with
  | requiring => trivial
  | linking attempt => exact Nat.le_trans hr hwrites
  | opening attempt linked =>
    rcases hr with ⟨hfile, hle⟩ | hle
    · rcases h.rowFile hfile with hfile' | ⟨record, body, inode, -, -, hhistory, -⟩
      · exact .inl ⟨hfile', hle.trans hwrites⟩
      · right
        rw [writes_of_put hl.history hhistory]
        omega
    · exact .inr (hle.trans hwrites)
  | comparing attempt linked opened =>
    obtain ⟨hattempt, record, f, k, hf, hwrote, hk, hle, hrow⟩ := hr
    refine ⟨hattempt.imp (And.imp_right (·.trans hwrites)) (·.trans hwrites), record, f, k, ?_,
      hwrote, hk, hle.trans h.history.length_le, ?_⟩
    · obtain ⟨rest, heq⟩ := h.files
      rw [← heq, getElem?_append_left (lt_of_getElem?_eq_some hf), hf]
    · obtain ⟨rest, heq⟩ := h.history
      rwa [← heq, take_append_of_le_length hle]

theorem Unmade.change (hunmade : Unmade st j) (h : Change json st i st') (hne : j ≠ i) :
    Unmade st' j := by
  intro id hid
  rcases h.of_mem_dirs hid with ⟨hid', hmaker⟩ | ⟨rfl, -⟩
  · rw [hmaker]
    exact hunmade id hid'
  · simp [Store.makeDir, Ne.symm hne]

theorem Owns.change (howns : Owns st j id) (h : Change json st i st') (hne : j ≠ i) :
    Owns st' j id := by
  obtain ⟨hid, hmaker⟩ := howns
  have hown : (st.contents id).maker = some j := (hmaker id hid).2 rfl
  refine ⟨?_, fun id' hid' ↦ ?_⟩
  · rcases h.mem_dirs hid with hid' | ⟨-, hempty⟩
    · exact hid'
    · rw [hempty, some.injEq] at hown
      exact absurd hown.symm hne
  · rcases h.of_mem_dirs hid' with ⟨hid'', hsame⟩ | ⟨rfl, hnew⟩
    · rw [hsame]
      exact hmaker id' hid''
    · have : id' ≠ id := fun heq ↦ hnew (heq ▸ hid)
      simp [Store.makeDir, Ne.symm hne, this]

theorem Creating.Ok.change {creating : Creating} (hc : creating.Ok st j record)
    (h : Change json st i st') (hne : j ≠ i) : creating.Ok st' j record := by
  have hunwritten : record.formatVersion = formatVersion ∧ Owns st j record.id ∧
      (st.contents record.id).row = none → record.formatVersion = formatVersion ∧
        Owns st' j record.id ∧ (st'.contents record.id).row = none := by
    rintro ⟨hformat, howns, hrow⟩
    refine ⟨hformat, howns.change h hne, (h.row_none howns.1 hrow fun hmaker ↦ hne ?_).2⟩
    rw [(howns.2 _ howns.1).2 rfl, some.injEq] at hmaker
    exact hmaker
  cases creating with
  | waiting | locked | checked | counting | counted => exact ⟨hc.1, hc.2.change h hne⟩
  | made | secured | failed => exact hunwritten hc
  | done created =>
    cases created with
    | ok => exact ⟨hc.1.change h hne, lastRow_ne_none_later h.history hc.2⟩
    | refused | rolledBack => exact Unmade.change hc h hne
    | uncleaned => trivial

theorem Listed.Ok.change {listed : Listed} (hc : listed.Ok json st) (hstore : st.Ok json)
    (h : Change json st i st') : listed.Ok json st' := by
  have hshows : ∀ {l : Listing} {id : String} {records : List ScanRecord}, l.Ok st →
      (l.Known st id → ∃ record ∈ records, l.Shows st id record) →
        l.Known st' id → ∃ record ∈ records, l.Shows st' id record := by
    intro l id records hl hold hknown
    rw [known_iff h.history hl.history] at hknown
    obtain ⟨record, hmem, hshows⟩ := hold hknown
    exact ⟨record, hmem, hshows.later h.history h.faults hl.history⟩
  cases listed with
  | waiting | refused => trivial
  | reading l records =>
    obtain ⟨hl, hlength, hseen⟩ := hc
    exact ⟨hl.change hstore h, hlength, fun id hid ↦ hshows hl (hseen id hid)⟩
  | row l records name r =>
    obtain ⟨hl, hlength, hname, hseen, hr⟩ := hc
    refine ⟨hl.change hstore h, hlength, hname, fun id hid hne ↦ hshows hl (hseen id hid hne), ?_⟩
    intro hknown
    rw [known_iff h.history hl.history] at hknown
    exact (hr hknown).change hl h
  | done l records =>
    obtain ⟨hl, hseen⟩ := hc
    exact ⟨hl.change hstore h, fun id ↦ hshows hl (hseen id)⟩
  | tooMany l => exact ⟨hc.1.change hstore h, hc.2⟩

variable {c : Call} {input : Input}

/-- What a call relies on is kept by the others. -/
theorem Call.Ok.change (hc : c.Ok json st j) (hstore : st.Ok json)
    (h : Change json st i st') (hne : j ≠ i) : c.Ok json st' j := by
  cases c with
  | create process record creating => exact Creating.Ok.change hc h hne
  | update record updating =>
    refine ⟨hc.1.change h hne, ?_⟩
    cases updating with
    | waiting => exact hc.2
    | checked =>
      obtain ⟨-, hformat, hrow⟩ := hc
      obtain ⟨n, hn⟩ := ne_none_iff_exists'.1 hrow
      refine ⟨hformat, ?_⟩
      rcases h.rowFile hn with hn' | ⟨-, -, -, hn', -⟩ <;> simp [hn']
    | done => trivial
  | get => exact Unmade.change hc h hne
  | list listed => exact ⟨hc.1.change h hne, hc.2.change hstore h⟩

/-! ## What a call does itself -/

theorem Change.locks (locks : List ℕ) : Change json st i { st with locks } :=
  .same locks st.faults le_rfl

theorem Change.fault (fault : Option String) : Change json st i (st.fault fault) := by
  rw [Store.fault]
  split
  · exact .same st.locks (st.faults + 1) (Nat.le_succ _)
  · exact .same st.locks st.faults le_rfl

/-- A row that was written can be read back. -/
theorem writeRow_ok {fault : Option String} {inode : ℕ}
    (h : writeRow json st record fault inode = .ok st')
    (hformat : record.formatVersion = formatVersion) :
    ∃ body, st' = st.putRow record inode body ∧ Wrote json record record.id body := by
  rw [writeRow] at h
  split at h
  · simp at h
  · next body hencode =>
    split at h
    · simp at h
    · next hsize =>
      split at h
      · simp at h
      · exact ⟨body, (Except.ok.inj h).symm, hencode, Nat.not_lt.1 hsize, hformat, rfl⟩

theorem owns_makeDir (h : Unmade st i) (hid : id ∉ st.dirs) : Owns (st.makeDir (some i) id) i id := by
  refine ⟨mem_append_right _ (.head _), fun id' hid' ↦ ?_⟩
  rcases mem_append.1 hid' with hid' | hid'
  · have hne : id' ≠ id := fun heq ↦ hid (heq ▸ hid')
    simp [Store.makeDir, hne, h id' hid']
  · obtain rfl := mem_singleton.1 hid'
    simp [Store.makeDir]

theorem owns_putRow (h : Owns st i record.id) (inode : ℕ) (body : List UInt8) (locks : List ℕ) :
    Owns { st.putRow record inode body with locks } i record.id := by
  rw [Store.putRow_of_mem h.1]
  refine ⟨h.1, fun id' hid' ↦ ?_⟩
  rw [← h.2 id' hid']
  by_cases heq : id' = record.id
  · subst heq
    simp
  · simp [heq]

theorem unmade_removeDir (h : Owns st i id) (hnodup : st.dirs.Nodup) (locks : List ℕ) :
    Unmade { st.removeDir id with locks } i := by
  intro id' hid' hmaker
  have hmem : id' ∈ st.dirs := mem_of_mem_erase hid'
  obtain rfl := (h.2 id' hmem).1 hmaker
  exact hnodup.not_mem_erase hid'

theorem Creating.Ok.next {process maxScans : ℕ} {creating creating' : Creating}
    (hstore : st.Ok json) (h : creating.Ok st i record)
    (hnext : creating.next json st i process record maxScans input = some (st', creating')) :
    Change json st i st' ∧ creating'.Ok st' i record := by
  have hrefuse : ∀ {error : StoreError}, Unmade st i →
      refuse st process error = some (st', creating') →
        Change json st i st' ∧ creating'.Ok st' i record := by
    intro error hunmade hrefuse
    simp only [refuse, some.injEq, Prod.mk.injEq] at hrefuse
    obtain ⟨rfl, rfl⟩ := hrefuse
    exact ⟨.locks _, hunmade⟩
  cases creating with
  | waiting =>
    cases input with
    | go fault inode =>
      simp only [Creating.next, ite_none_left_eq_some, some.injEq, Prod.mk.injEq] at hnext
      obtain ⟨-, rfl, rfl⟩ := hnext
      exact ⟨.locks _, h⟩
    | entry | last => simp [Creating.next] at hnext
  | locked =>
    cases input with
    | go fault inode =>
      simp only [Creating.next] at hnext
      split at hnext
      · exact hrefuse h.2 hnext
      · split at hnext
        · exact hrefuse h.2 hnext
        · cases hnext
          exact ⟨.locks _, h⟩
    | entry | last => simp [Creating.next] at hnext
  | checked =>
    cases input with
    | go fault inode =>
      simp only [Creating.next] at hnext
      split at hnext
      · exact hrefuse h.2 hnext
      · cases hnext
        exact ⟨.locks _, h⟩
    | entry | last => simp [Creating.next] at hnext
  | counting listing count =>
    cases input with
    | go fault inode =>
      cases fault with
      | none => simp [Creating.next] at hnext
      | some error => exact hrefuse h.2 hnext
    | entry name gone =>
      simp only [Creating.next, ite_none_right_eq_some] at hnext
      obtain ⟨-, hnext⟩ := hnext
      split at hnext
      · cases hnext
        exact ⟨.locks _, h⟩
      · split at hnext
        · exact hrefuse h.2 hnext
        · cases hnext
          exact ⟨.locks _, h⟩
    | last =>
      simp only [Creating.next, ite_none_right_eq_some, some.injEq,
        Prod.mk.injEq] at hnext
      obtain ⟨-, rfl, rfl⟩ := hnext
      exact ⟨.locks _, h⟩
  | counted =>
    cases input with
    | go fault inode =>
      simp only [Creating.next] at hnext
      split at hnext
      · exact hrefuse h.2 hnext
      · split at hnext
        · exact hrefuse h.2 hnext
        · next hid =>
          cases hnext
          exact ⟨.make hid, h.1, owns_makeDir h.2 hid, by simp [Store.makeDir]⟩
    | entry | last => simp [Creating.next] at hnext
  | made =>
    cases input with
    | go fault inode =>
      simp only [Creating.next] at hnext
      split at hnext <;>
      · cases hnext
        exact ⟨.locks _, h⟩
    | entry | last => simp [Creating.next] at hnext
  | secured =>
    cases input with
    | go fault inode =>
      obtain ⟨hformat, howns, hrow⟩ := h
      simp only [Creating.next] at hnext
      split at hnext
      · next st₁ hwrite =>
        cases hnext
        obtain ⟨body, rfl, hwrote⟩ := writeRow_ok hwrite hformat
        refine ⟨.put inode _ howns.1 (.inl ((howns.2 _ howns.1).2 rfl)) hwrote,
          owns_putRow howns inode body _, ?_⟩
        rw [Store.putRow_of_mem howns.1]
        simp [Store.unlock, lastRow_append]
      · cases hnext
        exact ⟨.locks _, hformat, howns, hrow⟩
    | entry | last => simp [Creating.next] at hnext
  | failed error =>
    cases input with
    | go fault inode =>
      obtain ⟨hformat, howns, hrow⟩ := h
      simp only [Creating.next] at hnext
      split at hnext
      · cases hnext
        exact ⟨.locks _, trivial⟩
      · rw [if_neg (not_not.2 howns.1)] at hnext
        split at hnext
        · next hothers =>
          cases hnext
          refine ⟨.remove _ howns.1 ?_, unmade_removeDir howns hstore.nodup _⟩
          rw [← (howns.2 _ howns.1).2 rfl, ← hrow, ← hothers.2]
        · cases hnext
          exact ⟨.locks _, trivial⟩
    | entry | last => simp [Creating.next] at hnext
  | done created => simp [Creating.next] at hnext

theorem Updating.Ok.next {updating updating' : Updating} (hunmade : Unmade st i)
    (h : updating.Ok st record)
    (hnext : updating.next json st record input = some (st', updating')) :
    Change json st i st' ∧ Unmade st' i ∧ updating'.Ok st' record := by
  cases updating with
  | waiting =>
    cases input with
    | go fault inode =>
      simp only [Updating.next] at hnext
      split at hnext
      · cases hnext
        exact ⟨.locks _, hunmade, trivial⟩
      · cases hnext
        exact ⟨.locks _, hunmade, trivial⟩
      · next hrow =>
        cases hnext
        exact ⟨.locks _, hunmade, h, by simp [hrow]⟩
    | entry | last => simp [Updating.next] at hnext
  | checked =>
    cases input with
    | go fault inode =>
      obtain ⟨hformat, hrow⟩ := h
      have hid : record.id ∈ st.dirs := by
        by_contra hid
        simp [Store.rowFile, hid] at hrow
      simp only [Updating.next] at hnext
      split at hnext
      · next st₁ hwrite =>
        cases hnext
        obtain ⟨body, rfl, hwrote⟩ := writeRow_ok hwrite hformat
        have hchange : Change json st i (st.putRow record inode body) :=
          .put inode _ hid (.inr (by simpa [Store.rowFile, hid] using hrow)) hwrote
        refine ⟨hchange, fun id' hid' ↦ ?_, trivial⟩
        rcases hchange.of_mem_dirs hid' with ⟨hid'', hmaker⟩ | ⟨heq, hnew⟩
        · rw [hmaker]
          exact hunmade id' hid''
        · rw [Store.putRow_of_mem hid] at hid'
          exact absurd hid' hnew
      · cases hnext
        exact ⟨.locks _, hunmade, trivial⟩
    | entry | last => simp [Updating.next] at hnext
  | done answer => simp [Updating.next] at hnext

/-! ## Reading -/

/-- What the reading of a known row comes to. -/
theorem Reading.Ok.next {r : Reading} (hjson : json.ReadsBack) (hstore : st.Ok json) (hl : l.Ok st)
    (hknown : l.Known st id) (h : r.Ok json st l id) (fault : Option String) :
    match r.next json st id fault with
    | .inl r' => r'.Ok json st l id
    | .inr (.ok record) => l.Shows st id record
    | .inr (.error _) => fault.isSome = true ∨ maxAttempts ≤ l.writes st id := by
  obtain ⟨record, hrecord⟩ := ne_none_iff_exists'.1
    (lastRow_ne_none_later (List.take_prefix ..) hknown)
  obtain ⟨n, f, hfile, hf, hwrote⟩ := hstore.rows id record hrecord
  cases fault with
  | some error => cases r <;> simp [Reading.next]
  | none =>
    cases r with
    | requiring =>
      simp only [Reading.next, hfile]
      exact Nat.zero_le _
    | linking attempt =>
      simp only [Reading.next, hfile]
      exact .inl ⟨hfile, h⟩
    | opening attempt linked =>
      simp only [Reading.next, hfile]
      refine ⟨h.imp_left fun ⟨hlinked, hle⟩ ↦ ⟨?_, hle⟩, record, f, st.history.length, hf, hwrote,
        hl.history, le_rfl, by rwa [take_length]⟩
      exact (some.inj (hfile.symm.trans hlinked)).symm
    | comparing attempt linked opened =>
      obtain ⟨hattempt, record', f', k, hf', hwrote', hk, hle, hrow⟩ := h
      simp only [Reading.next, hf']
      by_cases hinode : st.files[linked]?.map RowFile.inode = some f'.inode
      · rw [if_pos hinode, hwrote'.parse hjson]
        exact .inl ⟨k, hk, hle, hrow⟩
      · -- The file that was opened is not the one that was found: a row was written in between.
        have hreplaced : attempt + 1 ≤ l.writes st id := by
          rcases hattempt with ⟨rfl, -⟩ | hreplaced
          · simp [hf'] at hinode
          · exact hreplaced
        rw [if_neg hinode]
        by_cases hmore : attempt + 1 < maxAttempts
        · rw [if_pos hmore]
          exact hreplaced
        · rw [if_neg hmore]
          exact .inr (by omega)

theorem Listing.start_ok (hstore : st.Ok json) : (Listing.start st).Ok st where
  history := le_rfl
  made := le_rfl
  removed := le_rfl
  faults := le_rfl
  nodup := nodup_nil
  seen := by simp [Listing.start]
  there := by simp [Listing.start]
  known := by
    intro id hknown
    rw [Listing.Known, Listing.start, take_length] at hknown
    exact ⟨(mem_dirs_of_lastRow hstore hknown).1, by simp [Listing.start]⟩

theorem Listing.Ok.see {name : String} (hl : l.Ok st) (hmay : l.May st name) :
    (l.see name).Ok st where
  history := hl.history
  made := hl.made
  removed := hl.removed
  faults := hl.faults
  nodup := nodup_append.2 ⟨hl.nodup, nodup_singleton _, by
    rintro a ha b hb rfl
    exact hmay.2 (mem_singleton.1 hb ▸ ha)⟩
  seen := by
    intro name' hname'
    rcases mem_append.1 hname' with hname' | hname'
    · exact hl.seen name' hname'
    · rw [mem_singleton.1 hname']
      exact hmay.1
  there := hl.there
  known := hl.known

theorem Listed.Ok.next {listed listed' : Listed} (hjson : json.ReadsBack)
    (hstore : st.Ok json) (h : listed.Ok json st)
    (hnext : listed.next json st input = some (st', listed')) :
    (∃ fault, st' = st.fault fault) ∧ listed'.Ok json st' := by
  cases listed with
  | waiting =>
    cases input with
    | go fault inode =>
      simp only [Listed.next] at hnext
      split at hnext
      · cases hnext
        exact ⟨⟨none, rfl⟩, trivial⟩
      · cases hnext
        refine ⟨⟨none, rfl⟩, Listing.start_ok hstore, Nat.zero_le _, ?_⟩
        simp [Listing.start]
    | entry | last => simp [Listed.next] at hnext
  | reading l records =>
    obtain ⟨hl, hlength, hseen⟩ := h
    cases input with
    | go fault inode =>
      cases fault with
      | none => simp [Listed.next] at hnext
      | some error =>
        cases hnext
        exact ⟨⟨none, rfl⟩, trivial⟩
    | entry name gone =>
      simp only [Listed.next, ite_none_right_eq_some] at hnext
      obtain ⟨⟨hmay, hgone⟩, hnext⟩ := hnext
      have hsee : (l.see name).seen.length = l.seen.length + 1 := by simp [Listing.see]
      split at hnext
      · next hisGone =>
        cases hnext
        refine ⟨⟨none, rfl⟩, hl.see hmay, by omega, fun id hid hknown ↦ ?_⟩
        rcases mem_append.1 hid with hid | hid
        · exact hseen id hid hknown
        · -- A scan that has a row is not gone.
          obtain rfl := mem_singleton.1 hid
          have hrow := lastRow_ne_none_later (List.take_prefix ..) hknown
          exact absurd (mem_dirs_of_lastRow hstore hrow).1 (hgone hisGone)
      · split at hnext
        · next hmax =>
          cases hnext
          exact ⟨⟨none, rfl⟩, hl.see hmay, by omega⟩
        · cases hnext
          refine ⟨⟨none, rfl⟩, hl.see hmay, by omega,
            mem_append_right _ (.head _), fun id hid hne ↦ ?_, fun _ ↦ trivial⟩
          rcases mem_append.1 hid with hid | hid
          · exact hseen id hid
          · exact absurd (mem_singleton.1 hid) hne
    | last =>
      simp only [Listed.next, ite_none_right_eq_some, some.injEq,
        Prod.mk.injEq] at hnext
      obtain ⟨hexhausted, rfl, rfl⟩ := hnext
      refine ⟨⟨none, rfl⟩, hl, fun id hknown ↦ ?_⟩
      obtain ⟨hnames, hremoved⟩ := hl.known id hknown
      obtain ⟨record, hmem, hshows⟩ := hseen id (hexhausted id hnames hremoved) hknown
      exact ⟨record, mem_mergeSort.2 hmem, hshows⟩
  | row l records name r =>
    obtain ⟨hl, hlength, hname, hseen, hr⟩ := h
    cases input with
    | go fault inode =>
      simp only [Listed.next] at hnext
      have hreading := fun hknown ↦ (hr hknown).next hjson hstore hl hknown fault
      have happend : ∀ {st₁ : Store} {record : ScanRecord}, st₁.history = st.history →
          st.faults ≤ st₁.faults → (l.Known st name → l.Shows st₁ name record) →
          ∀ id ∈ l.seen, l.Known st₁ id → ∃ record' ∈ records ++ [record], l.Shows st₁ id record' := by
        intro st₁ record hhistory hfaults hshows id hid hknown
        have hhistory' : st.history <+: st₁.history := hhistory ▸ prefix_rfl
        rw [known_iff hhistory' hl.history] at hknown
        by_cases heq : id = name
        · subst heq
          exact ⟨record, by simp, hshows hknown⟩
        · obtain ⟨record', hmem, hshows'⟩ := hseen id hid heq hknown
          exact ⟨record', by simp [hmem], hshows'.later hhistory' hfaults hl.history⟩
      cases hresult : r.next json st name fault with
      | inl r' =>
        rw [hresult] at hnext hreading
        cases hnext
        exact ⟨⟨none, rfl⟩, hl, hlength, hname, hseen, hreading⟩
      | inr answer =>
        rw [hresult] at hnext hreading
        cases answer with
        | ok record =>
          cases hnext
          exact ⟨⟨none, rfl⟩, hl, by rw [length_append]; exact hlength,
            happend rfl le_rfl hreading⟩
        | error error =>
          cases hnext
          have hfault : Change json st 0 (st.fault fault) := .fault fault
          refine ⟨⟨fault, rfl⟩, hl.change hstore hfault, by rw [length_append]; exact hlength,
            happend ?_ hfault.faults fun hknown ↦ .inr ⟨⟨error, rfl⟩, ?_⟩⟩
          · rw [Store.fault]
            split <;> rfl
          · refine (hreading hknown).imp (fun hsome ↦ ?_) fun hwrites ↦ ?_
            · rw [Store.fault, if_pos hsome]
              exact Nat.lt_succ_of_le hl.faults
            · exact hwrites.trans (writes_le hfault.history hl.history)
    | entry | last => simp [Listed.next] at hnext
  | done | refused | tooMany => simp [Listed.next] at hnext

/-! ## Runs -/

open Transitions

theorem Call.Ok.next {c' : Call} (hjson : json.ReadsBack) (hstore : st.Ok json)
    (h : c.Ok json st i) (hnext : c.next json st i input = some (st', c')) :
    Change json st i st' ∧ c'.Ok json st' i := by
  cases c with
  | create process record creating =>
    simp only [Call.next, map_eq_some_iff, Prod.mk.injEq, Prod.exists] at hnext
    obtain ⟨st₁, creating', hcreating, rfl, rfl⟩ := hnext
    exact Creating.Ok.next hstore h hcreating
  | update record updating =>
    simp only [Call.next, map_eq_some_iff, Prod.mk.injEq, Prod.exists] at hnext
    obtain ⟨st₁, updating', hupdating, rfl, rfl⟩ := hnext
    exact h.2.next h.1 hupdating
  | get id getting =>
    simp only [Call.next, map_eq_some_iff, Prod.mk.injEq, Prod.exists] at hnext
    obtain ⟨st₁, getting', hgetting, rfl, rfl⟩ := hnext
    cases getting with
    | reading r =>
      cases input with
      | go fault inode =>
        simp only [Getting.next] at hgetting
        split at hgetting
        · cases hgetting
          exact ⟨.locks _, h⟩
        · cases hgetting
          refine ⟨.fault fault, ?_⟩
          rw [Store.fault]
          split <;> exact h
      | entry | last => simp [Getting.next] at hgetting
    | done => simp [Getting.next] at hgetting
  | list listed =>
    simp only [Call.next, map_eq_some_iff, Prod.mk.injEq, Prod.exists] at hnext
    obtain ⟨st₁, listed', hlisted, rfl, rfl⟩ := hnext
    obtain ⟨⟨fault, rfl⟩, hok⟩ := h.2.next hjson hstore hlisted
    refine ⟨.fault fault, ?_, hok⟩
    rw [Store.fault]
    split <;> exact h.1

theorem State.Ok.append {s : State} (h : s.Ok json)
    (hc : Unmade s.store s.calls.length → c.Ok json s.store s.calls.length) :
    ({ s with calls := s.calls ++ [c] } : State).Ok json where
  store := h.store
  calls := by
    intro i c' hc'
    rcases getElem?_append_cases hc' with ⟨rfl, rfl⟩ | hc'
    · exact hc fun id hid hmaker ↦ absurd (h.makers id hid _ hmaker) (Nat.lt_irrefl _)
    · exact h.calls i c' hc'
  makers id hid i hmaker := Nat.lt_of_lt_of_le (h.makers id hid i hmaker) (by simp)

/-- One step of any call keeps what all rely on. -/
theorem State.Ok.step {s s' : State} {action : Action} (hjson : json.ReadsBack) (h : s.Ok json)
    (hstep : Scans.step json s action = some s') : s'.Ok json := by
  cases action with
  | create process record =>
    cases hstep
    refine h.append fun hunmade ↦ ?_
    by_cases hformat : record.formatVersion = formatVersion
    · simp only [if_pos hformat]
      exact ⟨hformat, hunmade⟩
    · simp only [if_neg hformat]
      exact hunmade
  | update record =>
    cases hstep
    refine h.append fun hunmade ↦ ⟨hunmade, ?_⟩
    by_cases hformat : record.formatVersion = formatVersion
    · simp only [if_pos hformat]
      exact hformat
    · simp only [if_neg hformat]
      trivial
  | get id =>
    cases hstep
    exact h.append fun hunmade ↦ hunmade
  | list =>
    cases hstep
    exact h.append fun hunmade ↦ ⟨hunmade, trivial⟩
  | next i input =>
    simp only [Scans.step, bind_eq_bind, bind_eq_some_iff, some.injEq] at hstep
    obtain ⟨c, hc, ⟨st', c'⟩, hnext, rfl⟩ := hstep
    have hlt := lt_of_getElem?_eq_some hc
    obtain ⟨hchange, hok⟩ := (h.calls i c hc).next hjson h.store hnext
    refine ⟨h.store.change hchange, fun j d hd ↦ ?_, fun id hid j hmaker ↦ ?_⟩
    · by_cases heq : j = i
      · subst heq
        rw [getElem?_set_self hlt, some.injEq] at hd
        exact hd ▸ hok
      · rw [getElem?_set_ne (Ne.symm heq)] at hd
        exact (h.calls j d hd).change h.store hchange heq
    · rw [length_set]
      rcases hchange.of_mem_dirs hid with ⟨hid', hsame⟩ | ⟨heq, -⟩
      · exact h.makers id hid' j (hsame ▸ hmaker)
      · rw [heq] at hmaker
        simp only [Store.makeDir, Function.update_self, some.injEq] at hmaker
        exact hmaker ▸ hlt
  | touch id =>
    simp only [Scans.step, ite_none_right_eq_some, some.injEq] at hstep
    obtain ⟨hid, rfl⟩ := hstep
    have hchange : Change json s.store s.calls.length (s.store.touch id) := .touch id
    refine ⟨h.store.change hchange, fun j d hd ↦ ?_, fun id' hid' j hmaker ↦ ?_⟩
    · exact (h.calls j d hd).change h.store hchange
        (Nat.ne_of_lt (lt_of_getElem?_eq_some hd))
    · rcases hchange.of_mem_dirs hid' with ⟨hid'', hsame⟩ | ⟨-, hnew⟩
      · exact h.makers id' hid'' j (hsame ▸ hmaker)
      · exact absurd hid' hnew

theorem initial_ok {path : String} {dirs : List String} {contents : String → Dir}
    {files : List RowFile} (hnodup : dirs.Nodup) (hmakers : ∀ id ∈ dirs, (contents id).maker = none) :
    (initial path dirs contents files).Ok json where
  store := ⟨hnodup, by simp [initial]⟩
  calls := by simp [initial]
  makers id hid i hmaker := by simp [initial, hmakers id hid] at hmaker

end Huntsman.Scans
