import Huntsman.Scans.Capacity
import Huntsman.Text

/-!
# What the scans of a store promise

Whatever the interleaving, no two calls of `create` have made one scan, one that fails takes back no
more than it has made, and a listing shows each scan that was there: its row as it was at some time
since the listing began, unless it could not be read.  While one process creates scans, the store
keeps within its bound (`scans_kept`).

Two processes can overfill the store, and a row that is replaced under each of three attempts to
read it is not shown (`scans_not_kept`).
-/

set_option autoImplicit false

namespace Huntsman.Scans

open List Transitions

variable {json : Json} {st st' : Store} {i j : ℕ} {id : String} {record : ScanRecord} {l : Listing}

/-! ## What is promised -/

/-- The row is what was written last of a scan at some time since. -/
def RowSince (st₀ st : Store) (id : String) (record : ScanRecord) : Prop :=
  ∃ k, st₀.history.length ≤ k ∧ k ≤ st.history.length ∧
    lastRow (st.history.take k) id = some record

/-- A row could not be read since, or was replaced often enough that no attempt to read it was met
by the row it had found. -/
def Disturbed (st₀ st : Store) (id : String) : Prop :=
  st₀.faults < st.faults ∨ maxAttempts ≤ rowWrites (st.history.drop st₀.history.length) id

/-- What a listing that began at `s₀` shows in `s` of the scans that were there: each of them with a
record of which `Shown` holds. -/
def Lists (Shown : Store → Store → String → ScanRecord → Prop) (s₀ s : State) : Prop :=
  ∀ (i : ℕ) (l : Listing) (records : List ScanRecord), s₀.calls[i]? = some (.list .waiting) →
    s.calls[i]? = some (.list (.done l records)) →
      ∀ (j p : ℕ) (r : ScanRecord), s₀.calls[j]? = some (.create p r (.done .ok)) →
        ∃ record ∈ records, Shown s₀.store s.store r.id record

/-- A listing that began at `s₀` has not met too many scans. -/
def Fits (s₀ s : State) : Prop :=
  ∀ (i : ℕ) (l : Listing), s₀.calls[i]? = some (.list .waiting) →
    s.calls[i]? ≠ some (.list (.tooMany l))

/-- Of the directories only one that was made by the call and is empty goes, and it does go when the
row could not be written, unless removing it fails or another writer has written in it. -/
def Tidy (json : Json) (s : State) (action : Action) : Prop :=
  ∀ s', step json s action = some s' →
    (∀ id ∈ s.store.dirs, id ∉ s'.store.dirs →
      ∃ i input, action = .next i input ∧ s.store.contents id = { maker := some i }) ∧
    ∀ i inode p r error, action = .next i (.go none inode) →
      s.calls[i]? = some (.create p r (.failed error)) → (s.store.contents r.id).others = 0 →
        r.id ∉ s'.store.dirs

variable {s s₀ : State} {input : Input} {actions : List Action} {n p : ℕ} {r : ScanRecord}

/-- What holds at the end of a run. -/
structure Guaranteed (json : Json) (start : State) (actions : List Action) (s : State) : Prop where
  once : ∀ (i j p q : ℕ) (r r' : ScanRecord), s.calls[i]? = some (.create p r (.done .ok)) →
    s.calls[j]? = some (.create q r' (.done .ok)) → r.id = r'.id → i = j
  gone : ∀ (i p : ℕ) (r : ScanRecord) (c : Created), s.calls[i]? = some (.create p r (.done c)) →
    (∃ error, c = .refused error ∨ c = .rolledBack error) →
      ∀ id ∈ s.store.dirs, (s.store.contents id).maker ≠ some i
  tidy : Throughout (step json) start (Tidy json) actions
  listed : ∀ before later s₀, actions = before ++ later →
    Transitions.run (step json) start before = some s₀ →
    Lists (fun st₀ st id record ↦ RowSince st₀ st id record ∨
      ((∃ error, record = unreadable id error) ∧ Disturbed st₀ st id)) s₀ s
  few : ∀ process, Throughout (step json) start (OneProcess process) actions →
    s.store.dirs.length ≤ maxScans ∧
      ∀ before later s₀, actions = before ++ later →
        Transitions.run (step json) start before = some s₀ →
        s.store.removed = s₀.store.removed → Fits s₀ s

/-! ## One step -/

theorem State.Ok.tidy (hjson : json.ReadsBack) (h : s.Ok json) (action : Action) :
    Tidy json s action := by
  intro s' hstep
  cases action with
  | next i input =>
    simp only [Scans.step, Option.bind_eq_bind, Option.bind_eq_some_iff, Option.some.injEq] at hstep
    obtain ⟨c, hc, ⟨st', c'⟩, hnext, rfl⟩ := hstep
    obtain ⟨hchange, -⟩ := (h.calls i c hc).next hjson h.store hnext
    refine ⟨fun id hid hgone ↦ ?_, ?_⟩
    · rcases hchange.mem_dirs hid with hid' | ⟨-, hempty⟩
      · exact absurd hid' hgone
      · exact ⟨i, input, rfl, hempty⟩
    · intro i' inode p r error heq hfailed hothers
      rw [Action.next.injEq] at heq
      obtain ⟨rfl, rfl⟩ := heq
      obtain rfl : c = _ := Option.some.inj (hc.symm.trans hfailed)
      obtain ⟨-, howns, hrow⟩ := h.calls i _ hc
      simp only [Call.next, Creating.next, howns.1, not_true_eq_false, if_false, hrow, hothers,
        and_self, if_true, Option.map_some, Option.some.injEq, Prod.mk.injEq] at hnext
      obtain ⟨rfl, -⟩ := hnext
      exact h.store.nodup.not_mem_erase
  | touch id =>
    simp only [Scans.step, Option.ite_none_right_eq_some, Option.some.injEq] at hstep
    obtain ⟨-, rfl⟩ := hstep
    exact ⟨fun _ hid hgone ↦ absurd hid hgone, by simp⟩
  | create | update | get | list =>
    cases hstep
    exact ⟨fun _ hid hgone ↦ absurd hid hgone, by simp⟩

/-! ## Since a listing began -/

/-- What had happened when the directory was opened is no less than what had happened then. -/
def Listed.After (st₀ : Store) : Listed → Prop
  | .waiting | .refused _ => True
  | .reading l _ | .row l _ _ _ | .done l _ | .tooMany l =>
    st₀.history.length ≤ l.history ∧ st₀.faults ≤ l.faults ∧ st₀.removed.length ≤ l.removed

structure Since (i : ℕ) (s₀ s : State) : Prop where
  history : s₀.store.history <+: s.store.history
  faults : s₀.store.faults ≤ s.store.faults
  removed : s₀.store.removed <+: s.store.removed
  calls : s₀.calls.length ≤ s.calls.length
  listed : ∀ listed, s.calls[i]? = some (.list listed) → listed.After s₀.store

theorem Listed.After.next {st₀ : Store} {listed listed' : Listed}
    (h : listed.After st₀) (hhistory : st₀.history.length ≤ st.history.length)
    (hfaults : st₀.faults ≤ st.faults) (hremoved : st₀.removed.length ≤ st.removed.length)
    (hnext : listed.next json st input = some (st', listed')) : listed'.After st₀ := by
  cases listed with
  | waiting =>
    cases input with
    | go fault inode =>
      simp only [Listed.next] at hnext
      split at hnext
      · cases hnext
        trivial
      · cases hnext
        exact ⟨hhistory, hfaults, hremoved⟩
    | entry | last => simp [Listed.next] at hnext
  | reading l records =>
    cases input with
    | go fault inode =>
      cases fault with
      | none => simp [Listed.next] at hnext
      | some error =>
        cases hnext
        trivial
    | entry name gone =>
      simp only [Listed.next, Option.ite_none_right_eq_some] at hnext
      obtain ⟨-, hnext⟩ := hnext
      split at hnext
      · cases hnext
        exact h
      · split at hnext <;>
        · cases hnext
          exact h
    | last =>
      simp only [Listed.next, Option.ite_none_right_eq_some, Option.some.injEq,
        Prod.mk.injEq] at hnext
      obtain ⟨-, -, rfl⟩ := hnext
      exact h
  | row l records name r =>
    cases input with
    | go fault inode =>
      simp only [Listed.next] at hnext
      split at hnext <;>
      · cases hnext
        exact h
    | entry | last => simp [Listed.next] at hnext
  | done | refused | tooMany => simp [Listed.next] at hnext

theorem Since.refl (h : s.calls[i]? = some (.list .waiting)) : Since i s s where
  history := prefix_rfl
  faults := le_rfl
  removed := prefix_rfl
  calls := le_rfl
  listed listed hlisted := by
    rw [h, Option.some.injEq, Call.list.injEq] at hlisted
    exact hlisted ▸ trivial

theorem Since.step {s' : State} {action : Action} (hjson : json.ReadsBack) (hok : s.Ok json)
    (hi : i < s₀.calls.length) (h : Since i s₀ s) (hstep : Scans.step json s action = some s') :
    Since i s₀ s' := by
  have happend : ∀ c : Call, Since i s₀ { s with calls := s.calls ++ [c] } := by
    refine fun c ↦ ⟨h.history, h.faults, h.removed, h.calls.trans (by simp), fun listed hlisted ↦ ?_⟩
    rw [getElem?_append_left (Nat.lt_of_lt_of_le hi h.calls)] at hlisted
    exact h.listed listed hlisted
  cases action with
  | create | update | get | list =>
    cases hstep
    exact happend _
  | next k input =>
    simp only [Scans.step, Option.bind_eq_bind, Option.bind_eq_some_iff, Option.some.injEq] at hstep
    obtain ⟨c, hc, ⟨st', c'⟩, hnext, rfl⟩ := hstep
    obtain ⟨hchange, -⟩ := (hok.calls k c hc).next hjson hok.store hnext
    refine ⟨h.history.trans hchange.history, h.faults.trans hchange.faults,
      h.removed.trans hchange.removed, by simpa using h.calls, fun listed hlisted ↦ ?_⟩
    rcases getElem?_set_cases hlisted with ⟨rfl, heq⟩ | ⟨-, hlisted⟩
    · subst heq
      cases c with
      | list before =>
        simp only [Call.next, Option.map_eq_some_iff, Prod.mk.injEq, Prod.exists] at hnext
        obtain ⟨st₁, listed', hlisted', rfl, heq⟩ := hnext
        rw [Call.list.injEq] at heq
        subst heq
        exact (h.listed before hc).next h.history.length_le h.faults h.removed.length_le hlisted'
      | create | update | get => simp [Call.next] at hnext
    · exact h.listed listed hlisted
  | touch id =>
    simp only [Scans.step, Option.ite_none_right_eq_some, Option.some.injEq] at hstep
    obtain ⟨-, rfl⟩ := hstep
    exact ⟨h.history, h.faults, h.removed, h.calls, h.listed⟩

/-- What was listed since. -/
theorem Listing.Shows.since {listing : Listing}
    (hhistory : s₀.store.history.length ≤ listing.history)
    (hfaults : s₀.store.faults ≤ listing.faults) (hshows : listing.Shows s.store id record) :
    RowSince s₀.store s.store id record ∨
      ((∃ error, record = unreadable id error) ∧ Disturbed s₀.store s.store id) := by
  rcases hshows with ⟨k, hk, hle, hrow⟩ | ⟨herror, hwhy⟩
  · exact .inl ⟨k, hhistory.trans hk, hle, hrow⟩
  · refine .inr ⟨herror, hwhy.imp (Nat.lt_of_le_of_lt hfaults) fun hwrites ↦ hwrites.trans ?_⟩
    have hsuffix : s.store.history.drop listing.history <:+
        s.store.history.drop s₀.store.history.length := drop_suffix_drop_left _ hhistory
    exact hsuffix.sublist.countP_le

/-! ## Runs -/

theorem run_ok {start : State} (hjson : json.ReadsBack)
    (hstart : start.Ok json) (h : Transitions.run (step json) start actions = some s) : s.Ok json :=
  inv (State.Ok json) hstart (fun _ _ _ hok _ hstep ↦ hok.step hjson hstep)
    (throughout_of_forall (P := fun _ _ ↦ True) fun _ _ _ ↦ trivial) h

theorem run_since (hjson : json.ReadsBack)
    (hstart : s₀.Ok json) (hi : s₀.calls[i]? = some (.list .waiting))
    (h : Transitions.run (step json) s₀ actions = some s) : Since i s₀ s := by
  have hlt := lt_of_getElem?_eq_some hi
  refine (inv (fun s ↦ s.Ok json ∧ Since i s₀ s) ⟨hstart, .refl hi⟩
    (fun _ _ _ hboth _ hstep ↦ ⟨hboth.1.step hjson hstep, hboth.2.step hjson hboth.1 hlt hstep⟩)
    (throughout_of_forall (P := fun _ _ ↦ True) fun _ _ _ ↦ trivial) h).2

theorem run_capacity {process : ℕ} {start : State}
    (hjson : json.ReadsBack) (hok : start.Ok json) (hstart : Capacity process start)
    (hone : Throughout (step json) start (OneProcess process) actions)
    (h : Transitions.run (step json) start actions = some s) : s.Ok json ∧ Capacity process s :=
  inv (fun s ↦ s.Ok json ∧ Capacity process s) ⟨hok, hstart⟩
    (fun _ _ _ hboth hone hstep ↦
      ⟨hboth.1.step hjson hstep, hboth.2.step hjson hboth.1 hone hstep⟩) hone h

theorem initial_capacity {path : String} {dirs : List String} {contents : String → Dir}
    {files : List RowFile} (hfew : dirs.length ≤ maxScans) (process : ℕ) :
    Capacity process (initial path dirs contents files) where
  few := hfew
  creates := by simp [initial]
  lock := .inl ⟨rfl, by simp [initial]⟩

/-- A listing that has met too many scans has met one that was removed since. -/
theorem fits_of_few (hok : s.Ok json) (hfew : s.store.dirs.length ≤ maxScans)
    (hsince : ∀ i, s₀.calls[i]? = some (.list .waiting) → Since i s₀ s)
    (hremoved : s.store.removed = s₀.store.removed) : Fits s₀ s := by
  intro i l hwaiting htooMany
  obtain ⟨-, hl, hmany⟩ := hok.calls i _ htooMany
  obtain ⟨-, -, hafter⟩ := (hsince i hwaiting).listed _ htooMany
  have hnone : s.store.removed.drop l.removed = [] := by
    rw [hremoved]
    exact drop_eq_nil_of_le hafter
  have hsubset : l.seen ⊆ s.store.dirs := by
    intro name hname
    rcases hl.there name (hl.seen name hname) with hname | hname
    · exact hname
    · simp [hnone] at hname
  have hle := (subperm_of_subset hl.nodup hsubset).length_le
  omega

/-- **What is promised of the scans of a store.**  In every run, of any number of processes. -/
theorem scans_kept {path : String} {dirs : List String} {contents : String → Dir}
    {files : List RowFile} {actions : List Action} {s : State} (hjson : json.ReadsBack)
    (hnodup : dirs.Nodup) (hmakers : ∀ id ∈ dirs, (contents id).maker = none)
    (hfew : dirs.length ≤ maxScans)
    (h : Transitions.run (step json) (initial path dirs contents files) actions = some s) :
    Guaranteed json (initial path dirs contents files) actions s := by
  have hstart : (initial path dirs contents files).Ok json := initial_ok hnodup hmakers
  have hok := run_ok hjson hstart h
  refine ⟨?_, ?_, ?_, ?_, ?_⟩
  · intro i j p q r r' hi hj hid
    obtain ⟨⟨hmem, howns⟩, -⟩ := hok.calls i _ hi
    obtain ⟨⟨-, howns'⟩, -⟩ := hok.calls j _ hj
    have hmaker := (howns r.id hmem).2 rfl
    have hmaker' := (howns' r.id hmem).2 hid
    exact Option.some.inj (hmaker.symm.trans hmaker')
  · rintro i p r c hi ⟨error, rfl | rfl⟩
    · exact hok.calls i _ hi
    · exact hok.calls i _ hi
  · exact throughout (State.Ok json) hstart (fun _ _ _ hok _ hstep ↦ hok.step hjson hstep)
      (fun s action _ hok _ _ ↦ hok.tidy hjson action)
      (throughout_of_forall (P := fun _ _ ↦ True) fun _ _ _ ↦ trivial) h
  · rintro before later s₀ rfl hbefore i l records hwaiting hdone j p r hcreated
    obtain ⟨s₁, hbefore', hlater⟩ := run_append.1 h
    obtain rfl : s₀ = s₁ := Option.some.inj (hbefore.symm.trans hbefore')
    have hok₀ := run_ok hjson hstart hbefore
    have hsince := run_since hjson hok₀ hwaiting hlater
    obtain ⟨-, hl, hshows⟩ := hok.calls i _ hdone
    obtain ⟨hhistory, hfaults, -⟩ := hsince.listed _ hdone
    -- The scan had its row before the listing opened the directory.
    have hknown : l.Known s.store r.id := by
      refine lastRow_ne_none_later ?_ (hok₀.calls j _ hcreated).2
      exact prefix_of_prefix_length_le hsince.history (List.take_prefix ..)
        (by rw [length_take]; exact Nat.le_min.2 ⟨hhistory, hsince.history.length_le⟩)
    obtain ⟨record, hmem, hshown⟩ := hshows r.id hknown
    exact ⟨record, hmem, hshown.since hhistory hfaults⟩
  · intro process hone
    obtain ⟨-, hcapacity⟩ :=
      run_capacity hjson hstart (initial_capacity hfew process) hone h
    refine ⟨hcapacity.few, ?_⟩
    rintro before later s₀ rfl hbefore hremoved
    obtain ⟨s₁, hbefore', hlater⟩ := run_append.1 h
    obtain rfl : s₀ = s₁ := Option.some.inj (hbefore.symm.trans hbefore')
    exact fits_of_few hok hcapacity.few
      (fun i hwaiting ↦ run_since hjson (run_ok hjson hstart hbefore) hwaiting hlater) hremoved

/-- A row, and how it is written: no other is. -/
def sampleRow : ScanRecord where
  formatVersion := 1
  id := "00000000000000aa"
  name := "ada"
  status := .created
  created := 1

def sampleText : List UInt8 :=
  [10].intercalate <| List.map Text.utf8 [
    "\x7b", "  \"format_version\": 1,", "  \"id\": \"00000000000000aa\",", "  \"name\": \"ada\",",
    "  \"target\": \"\",", "  \"target_type\": \"\",", "  \"kind\": \"\",", "  \"options\": \x7b",
    "    \"usecase\": \"\",", "    \"modules\": [],", "    \"types\": [],", "    \"depth\": 0",
    "  \x7d,", "  \"status\": \"CREATED\",", "  \"created\": 1,", "  \"started\": null,",
    "  \"ended\": null,", "  \"elements\": 0,", "  \"unique\": 0,", "  \"correlations\": \x7b",
    "    \"high\": 0,", "    \"medium\": 0,", "    \"low\": 0,", "    \"info\": 0", "  \x7d,",
    "  \"errors\": 0,", "  \"modules_run\": [],", "  \"owner\": null", "\x7d"]

def sampleJson : Json where
  encode record := if record = sampleRow then .ok sampleText else .error "not the sample"
  decode body := if body = sampleText then .ok sampleRow else .error "not the sample"

theorem sampleJson_readsBack : sampleJson.ReadsBack := by
  intro record body h
  simp only [sampleJson] at h ⊢
  split at h
  · next hrecord =>
    rw [if_pos (Except.ok.inj h).symm, hrecord]
  · simp at h

/-- A call goes on. -/
def go (call : ℕ) : Action := .next call (.go none 0)

/-- A scan is created. -/
def createSample : List Action :=
  [.create 7 sampleRow, go 0, go 0, go 0, .next 0 .last, go 0, go 0, .next 0 (.go none 1), .list]

/-- The scans are listed. -/
def listSample : List Action :=
  [go 1, .next 1 (.entry sampleRow.id false), go 1, go 1, go 1, go 1, .next 1 .last]

theorem scans_kept_sample : ∃ s,
    Transitions.run (step sampleJson) (initial "scans" [] (fun _ ↦ {}) [])
        (createSample ++ listSample) = some s ∧
      Guaranteed sampleJson (initial "scans" [] (fun _ ↦ {}) []) (createSample ++ listSample) s := by
  have hrun : (Transitions.run (step sampleJson) (initial "scans" [] (fun _ ↦ {}) [])
      (createSample ++ listSample)).isSome = true := by decide +kernel
  obtain ⟨s, hs⟩ := Option.isSome_iff_exists.1 hrun
  exact ⟨s, hs, scans_kept sampleJson_readsBack nodup_nil (by simp) (Nat.zero_le _) hs⟩

/-! ## What is not promised -/

/-- The row is replaced between the check and the open. -/
def replaced (call inode : ℕ) : List Action :=
  [go 1, .update sampleRow, go call, .next call (.go none inode), go 1, go 1]

/-- The row is replaced under each attempt to read it. -/
def replaceSample : List Action :=
  [go 1, .next 1 (.entry sampleRow.id false), go 1] ++ replaced 2 2 ++ replaced 3 3 ++ replaced 4 4 ++
    [.next 1 .last]

theorem mem_of_lastRow {history : List (String × ScanRecord)} (h : lastRow history id = some record) :
    (id, record) ∈ history := by
  simp only [lastRow, Option.map_eq_some_iff] at h
  obtain ⟨⟨id', record'⟩, hfind, rfl⟩ := h
  have hid : id' = id := by simpa using find?_some hfind
  exact hid ▸ mem_reverse.1 (mem_of_find?_eq_some hfind)

/-- A listing has ended, without a record. -/
def listedWithout (record : ScanRecord) : Option Call → Bool
  | some (.list (.done _ records)) => records.all (· != record)
  | _ => false

theorem exists_of_listedWithout {call : Option Call}
    (h : listedWithout record call = true) :
    ∃ listing records, call = some (.list (.done listing records)) ∧ record ∉ records := by
  unfold listedWithout at h
  split at h
  · next listing records =>
    refine ⟨listing, records, rfl, fun hmem ↦ ?_⟩
    have hother := all_eq_true.1 h record hmem
    exact bne_iff_ne.1 hother rfl
  · cases h

/-- A scan that is there is listed as unreadable. -/
theorem not_listed : ∃ s₀ s,
    Transitions.run (step sampleJson) (initial "scans" [] (fun _ ↦ {}) []) createSample = some s₀ ∧
    Transitions.run (step sampleJson) s₀ replaceSample = some s ∧ ¬ Lists RowSince s₀ s := by
  have hbefore :
      (Transitions.run (step sampleJson) (initial "scans" [] (fun _ ↦ {}) []) createSample).any
      (fun s ↦ (Transitions.run (step sampleJson) s replaceSample).any fun s' ↦
        s.calls[1]? == some (.list .waiting) &&
        s.calls[0]? == some (.create 7 sampleRow (.done .ok)) &&
        s'.store.history.all (· == (sampleRow.id, sampleRow)) &&
        listedWithout sampleRow s'.calls[1]?) = true := by decide +kernel
  rw [Option.any_eq_true] at hbefore
  obtain ⟨s₀, hs₀, hafter⟩ := hbefore
  rw [Option.any_eq_true] at hafter
  obtain ⟨s, hs, hall⟩ := hafter
  refine ⟨s₀, s, hs₀, hs, fun hlists ↦ ?_⟩
  simp only [Bool.and_eq_true, beq_iff_eq] at hall
  obtain ⟨⟨⟨hwaiting, hcreated⟩, hhistory⟩, hdone⟩ := hall
  obtain ⟨l, records, hl, hother⟩ := exists_of_listedWithout hdone
  obtain ⟨record, hmem, k, -, -, hrow⟩ := hlists 1 l records hwaiting hl 0 7 sampleRow hcreated
  have hrecord := all_eq_true.1 hhistory _ (mem_of_mem_take (mem_of_lastRow hrow))
  rw [beq_iff_eq] at hrecord
  exact hother ((Prod.mk.inj hrecord).2 ▸ hmem)

/-! ### Two processes -/

/-- A name for each of the first scans. -/
def scanName (n : ℕ) : String :=
  .ofList (List.replicate 12 '0' ++ [(n / 4096 % 16).digitChar, (n / 256 % 16).digitChar,
    (n / 16 % 16).digitChar, (n % 16).digitChar])

theorem digitChar_injective {m : ℕ} (hm : m < 16) (hn : n < 16) (h : m.digitChar = n.digitChar) :
    m = n := by
  have hall : ∀ a b : Fin 16, a.1.digitChar = b.1.digitChar → a = b := by decide
  exact congrArg Fin.val (hall ⟨m, hm⟩ ⟨n, hn⟩ h)

theorem scanName_injective {m : ℕ} (hm : m < 65536) (hn : n < 65536)
    (h : scanName m = scanName n) : m = n := by
  have hlist := append_cancel_left (String.ofList_injective h)
  simp only [cons.injEq, and_true] at hlist
  obtain ⟨h₃, h₂, h₁, h₀⟩ := hlist
  have h₃' := digitChar_injective (Nat.mod_lt _ (by decide)) (Nat.mod_lt _ (by decide)) h₃
  have h₂' := digitChar_injective (Nat.mod_lt _ (by decide)) (Nat.mod_lt _ (by decide)) h₂
  have h₁' := digitChar_injective (Nat.mod_lt _ (by decide)) (Nat.mod_lt _ (by decide)) h₁
  have h₀' := digitChar_injective (Nat.mod_lt _ (by decide)) (Nat.mod_lt _ (by decide)) h₀
  omega

theorem scanNames_nodup (hn : n ≤ 65536) : ((List.range n).map scanName).Nodup := by
  refine List.Nodup.map_on (fun a ha b hb h ↦ ?_) nodup_range
  rw [mem_range] at ha hb
  exact scanName_injective (by omega) (by omega) h

/-- `create` counts names that it has not seen. -/
theorem count_entries (json : Json) (names : List String)
    (hi : s.calls[i]? = some (.create p r (.counting l n))) (hmay : ∀ name ∈ names, name ∈ l.names)
    (hnodup : names.Nodup) (hnew : ∀ name ∈ names, name ∉ l.seen)
    (hroom : n + names.length < maxScans) :
    Transitions.run (step json) s (names.map fun name ↦ .next i (.entry name false)) = some { s with
      calls := s.calls.set i (.create p r (.counting { l with seen := l.seen ++ names }
        (n + names.length))) } := by
  induction names generalizing s l n with
  | nil =>
    have hsame : s.calls.set i (.create p r (.counting l n)) = s.calls := by
      obtain ⟨hlt, hget⟩ := List.getElem?_eq_some_iff.1 hi
      rw [← hget, List.set_getElem_self]
    simp [Transitions.run, hsame]
  | cons name names ih =>
    rw [List.forall_mem_cons] at hmay hnew
    rw [List.nodup_cons] at hnodup
    rw [List.length_cons] at hroom
    have hstep : step json s (.next i (.entry name false)) = some { s with
        calls := s.calls.set i (.create p r (.counting (l.see name) (n + 1))) } := by
      have hmayNow : l.May s.store name := ⟨.inl hmay.1, hnew.1⟩
      have hmore : ¬ maxScans ≤ n + 1 := by omega
      simp [step, hi, Call.next, Creating.next, hmayNow, hmore]
    have hlt := List.lt_of_getElem?_eq_some hi
    have hrest := ih (s := { s with
        calls := s.calls.set i (.create p r (.counting (l.see name) (n + 1))) })
      (l := l.see name) (n := n + 1) (List.getElem?_set_self hlt) hmay.2 hnodup.2
      (fun name' hname' ↦ by
        simp only [Listing.see, List.mem_append, List.mem_singleton, not_or]
        exact ⟨hnew.2 name' hname', fun heq ↦ hnodup.1 (heq ▸ hname')⟩) (by omega)
    rw [List.map_cons, Transitions.run, List.foldlM_cons, hstep]
    simp only [Transitions.run, List.set_set] at hrest
    refine hrest.trans ?_
    simp [Listing.see, Nat.add_assoc, Nat.add_comm 1]

theorem step_create {c c' : Creating}
    (hi : s.calls[i]? = some (.create p r c))
    (hnext : c.next json s.store i p r maxScans input = some (st', c')) :
    step json s (.next i input) = some { store := st', calls := s.calls.set i (.create p r c') } := by
  simp [step, hi, Call.next, hnext]

theorem step_again {calls : List Call} {c c' : Creating}
    (hi : i < calls.length) (hnext : c.next json st i p r maxScans input = some (st', c')) :
    step json ⟨st, calls.set i (.create p r c)⟩ (.next i input) =
      some ⟨st', calls.set i (.create p r c')⟩ := by
  rw [step_create (getElem?_set_self hi) hnext, set_set]

/-- What a call of `create` does until it has counted the directories. -/
def admission (call : ℕ) (dirs : List String) : List Action :=
  [go call, go call, go call] ++ (dirs.map fun name ↦ .next call (.entry name false)) ++
    [.next call .last]

theorem admission_run
    (hi : s.calls[i]? = some (.create p r .waiting))
    (hfree : p ∉ s.store.locks) (hvalid : validId r.id = true) (hnew : r.id ∉ s.store.dirs)
    (hnodup : s.store.dirs.Nodup) (hroom : s.store.dirs.length < maxScans) :
    Transitions.run (step json) s (admission i s.store.dirs) = some {
      store := s.store.lock p, calls := s.calls.set i (.create p r .counted) } := by
  have hlt := lt_of_getElem?_eq_some hi
  let counting : State := {
    store := s.store.lock p
    calls := s.calls.set i (.create p r (.counting (.start (s.store.lock p)) 0)) }
  have hstart : Transitions.run (step json) s [go i, go i, go i] = some counting := by
    have hlock : step json s (go i) = some ⟨s.store.lock p, s.calls.set i (.create p r .locked)⟩ :=
      step_create hi (by simp [Creating.next, hfree])
    have hcheck : step json ⟨s.store.lock p, s.calls.set i (.create p r .locked)⟩ (go i) =
        some ⟨s.store.lock p, s.calls.set i (.create p r .checked)⟩ :=
      step_again hlt (by
        have hnew' : r.id ∉ (s.store.lock p).dirs := hnew
        simp [Creating.next, hvalid, hnew'])
    have hopen : step json ⟨s.store.lock p, s.calls.set i (.create p r .checked)⟩ (go i) =
        some counting := step_again hlt rfl
    simp only [Transitions.run, foldlM_cons, foldlM_nil, Option.bind_eq_bind, hlock,
      hcheck, hopen, Option.bind_some, Option.pure_def]
  have hcount := count_entries json (s := counting) s.store.dirs
    (getElem?_set_self hlt) (fun _ hname ↦ hname) hnodup (by simp [Listing.start])
    (by simpa using hroom)
  rw [admission, run_append]
  refine ⟨_, run_append.2 ⟨counting, hstart, hcount⟩, ?_⟩
  have hexhausted : ({ Listing.start (s.store.lock p) with seen := s.store.dirs } : Listing).Exhausted
      (s.store.lock p) := fun name hname _ ↦ hname
  have hlast : step json ⟨s.store.lock p, s.calls.set i (.create p r (.counting
      { Listing.start (s.store.lock p) with seen := s.store.dirs } (0 + s.store.dirs.length)))⟩
      (.next i .last) = some ⟨s.store.lock p, s.calls.set i (.create p r .counted)⟩ :=
    step_again hlt (by simp [Creating.next, hexhausted])
  rw [set_set]
  simp only [Transitions.run, foldlM_cons, foldlM_nil, Option.bind_eq_bind]
  exact congrArg (Option.bind · pure) hlast

theorem make (json : Json)
    (hi : s.calls[i]? = some (.create p r .counted)) (hnew : r.id ∉ s.store.dirs) :
    step json s (go i) = some {
      store := s.store.makeDir (some i) r.id, calls := s.calls.set i (.create p r .made) } := by
  simp [go, step, hi, Call.next, Creating.next, hnew]

/-- `list` reads names that it has not seen, and no row. -/
def reading (call : ℕ) (dirs : List String) : List Action :=
  dirs.flatMap fun name ↦ [.next call (.entry name false), .next call (.go (some "I/O error") 0)]

theorem list_entries (json : Json) {records : List ScanRecord} (names : List String)
    (hi : s.calls[i]? = some (.list (.reading l records))) (hmay : ∀ name ∈ names, name ∈ l.names)
    (hnodup : names.Nodup) (hnew : ∀ name ∈ names, name ∉ l.seen)
    (hroom : records.length + names.length ≤ maxScans) :
    ∃ s' records', Transitions.run (step json) s (reading i names) = some s' ∧
      s'.calls[i]? = some (.list (.reading { l with seen := l.seen ++ names } records')) ∧
      records'.length = records.length + names.length := by
  induction names generalizing s l records with
  | nil => exact ⟨s, records, rfl, by simpa using hi, rfl⟩
  | cons name names ih =>
    rw [forall_mem_cons] at hmay hnew
    rw [nodup_cons] at hnodup
    rw [length_cons] at hroom
    have hlt := lt_of_getElem?_eq_some hi
    have hmayNow : l.May s.store name := ⟨.inl hmay.1, hnew.1⟩
    have hmore : records.length ≠ maxScans := by omega
    let entered : State := { s with
      calls := s.calls.set i (.list (.row (l.see name) records name .requiring)) }
    let error : StoreError := .io (s.store.rowPath name ++ ": " ++ "I/O error")
    let s₁ : State := {
      store := s.store.fault (some "I/O error")
      calls := entered.calls.set i (.list (.reading (l.see name)
        (records ++ [unreadable name error]))) }
    have hentry : step json s (.next i (.entry name false)) = some entered := by
      simp [step, hi, Call.next, Listed.next, hmayNow, hmore, entered]
    have hread : step json entered (.next i (.go (some "I/O error") 0)) = some s₁ := by
      simp [step, hlt, Call.next, Listed.next, Reading.next, entered, s₁, error]
    have hs₁ : s₁.calls[i]? = some (.list (.reading (l.see name)
        (records ++ [unreadable name error]))) := by
      simp [s₁, entered, hlt]
    have hstep : Transitions.run (step json) s
          [.next i (.entry name false), .next i (.go (some "I/O error") 0)] =
        some s₁ := by
      simp [Transitions.run, hentry, hread]
    obtain ⟨s', records', hrun, hs', hlength⟩ := ih hs₁ hmay.2 hnodup.2
      (fun name' hname' ↦ by
        simp only [Listing.see, mem_append, mem_singleton, not_or]
        exact ⟨hnew.2 name' hname', fun heq ↦ hnodup.1 (heq ▸ hname')⟩)
      (by simp only [length_append, length_singleton]; omega)
    refine ⟨s', records', ?_, ?_, ?_⟩
    · rw [reading, flatMap_cons, run_append]
      exact ⟨s₁, hstep, hrun⟩
    · simpa [Listing.see] using hs'
    · simp only [length_append, length_singleton] at hlength
      simp only [length_cons]
      omega

/-- Two processes count the scans, and then each makes another; the scans are listed. -/
def overfill (names : List String) (first second : String) : List Action :=
  admission 0 names ++ admission 1 names ++ [go 0, go 1] ++
    (go 2 :: reading 2 (names ++ [first])) ++ [.next 2 (.entry second false)]

/-- A store that has room for one scan more gets two. -/
theorem overfilled (json : Json) {names : List String} {a b : ScanRecord} (hnodup : names.Nodup)
    (hlength : names.length + 1 = maxScans) (hformat : a.formatVersion = formatVersion)
    (hformat' : b.formatVersion = formatVersion) (hvalid : validId a.id = true)
    (hvalid' : validId b.id = true) (hnew : a.id ∉ names) (hnew' : b.id ∉ names)
    (hne : b.id ≠ a.id) :
    ∃ s₀ s, Transitions.run (step json) (initial "scans" names (fun _ ↦ {}) [])
        [.create 1 a, .create 2 b, .list] = some s₀ ∧
      Transitions.run (step json) s₀ (overfill names a.id b.id) = some s ∧ ¬ Fits s₀ s := by
  let store : Store := (initial "scans" names (fun _ ↦ {}) []).store
  let s₀ : State := ⟨store, [.create 1 a .waiting, .create 2 b .waiting, .list .waiting]⟩
  let s₁ : State := ⟨store.lock 1, [.create 1 a .counted, .create 2 b .waiting, .list .waiting]⟩
  let s₂ : State :=
    ⟨(store.lock 1).lock 2, [.create 1 a .counted, .create 2 b .counted, .list .waiting]⟩
  let full : Store := (((store.lock 1).lock 2).makeDir (some 0) a.id).makeDir (some 1) b.id
  let s₃ : State := ⟨full, [.create 1 a .made, .create 2 b .made, .list .waiting]⟩
  let s₄ : State := ⟨full, [.create 1 a .made, .create 2 b .made,
    .list (.reading (.start full) [])]⟩
  have hroom : names.length < maxScans := by omega
  have hlast : b.id ∉ names ++ [a.id] := by
    rw [mem_append, mem_singleton, not_or]
    exact ⟨hnew', hne⟩
  have h₀ : Transitions.run (step json) (initial "scans" names (fun _ ↦ {}) [])
      [.create 1 a, .create 2 b, .list] = some s₀ := by
    simp [Transitions.run, step, hformat, hformat', initial, s₀, store]
  have h₁ : Transitions.run (step json) s₀ (admission 0 names) = some s₁ :=
    admission_run (s := s₀) rfl not_mem_nil hvalid hnew hnodup hroom
  have h₂ : Transitions.run (step json) s₁ (admission 1 names) = some s₂ :=
    admission_run (s := s₁) rfl (by simp [s₁, store, initial, Store.lock]) hvalid' hnew' hnodup hroom
  have h₃ : Transitions.run (step json) s₂ [go 0, go 1] = some s₃ := by
    have hfirst := make json (s := s₂) (i := 0) rfl hnew
    have hsecond := make json (i := 1)
      (s := ⟨((store.lock 1).lock 2).makeDir (some 0) a.id,
        [.create 1 a .made, .create 2 b .counted, .list .waiting]⟩) rfl hlast
    rw [Transitions.run, foldlM_cons, hfirst, Option.bind_eq_bind, Option.bind_some,
      foldlM_cons]
    exact congrArg (Option.bind · _) hsecond
  have h₄ : step json s₃ (go 2) = some s₄ := rfl
  have hreading : s₄.calls[2]? = some (.list (.reading (.start full) [])) := rfl
  obtain ⟨s₅, records, h₅, hs₅, hrecords⟩ := list_entries json (names ++ [a.id]) hreading
    (fun _ hname ↦ mem_append_left _ hname)
    (nodup_append.2 ⟨hnodup, nodup_singleton _, by
      rintro name hname other hother rfl
      exact hnew (mem_singleton.1 hother ▸ hname)⟩)
    (fun _ _ ↦ not_mem_nil) (by
      rw [length_append, length_singleton, length_nil]
      omega)
  have hmany : records.length = maxScans := by
    rw [hrecords, length_append, length_singleton, length_nil]
    omega
  have hmay : ({ Listing.start full with seen := names ++ [a.id] } : Listing).May s₅.store b.id :=
    ⟨.inl (mem_append_right _ (.head _)), hlast⟩
  have h₆ : step json s₅ (.next 2 (.entry b.id false)) = some { s₅ with
      calls := s₅.calls.set 2 (.list (.tooMany
        (({ Listing.start full with seen := names ++ [a.id] } : Listing).see b.id))) } := by
    simp only [nil_append, Listing.start] at hs₅ hmay ⊢
    simp [step, hs₅, Call.next, Listed.next, hmay, hmany]
  refine ⟨s₀, _, h₀, run_append_singleton.2 ⟨s₅, ?_, h₆⟩, fun hfits ↦ ?_⟩
  · refine run_append.2 ⟨s₃, run_append.2 ⟨s₂, run_append.2 ⟨s₁, h₁, h₂⟩, h₃⟩, ?_⟩
    rw [Transitions.run, foldlM_cons, h₄]
    exact h₅
  · exact hfits 2 _ rfl (getElem?_set_self (lt_of_getElem?_eq_some hs₅))

/-- Two processes overfill a store, and a scan that is there is listed as unreadable. -/
theorem scans_not_kept :
    (¬ ∀ (json : Json), json.ReadsBack → ∀ dirs : List String, dirs.Nodup → dirs.length ≤ maxScans →
      ∀ before later s₀ s,
        Transitions.run (step json) (initial "scans" dirs (fun _ ↦ {}) []) before = some s₀ →
        Transitions.run (step json) s₀ later = some s → Fits s₀ s) ∧
    ¬ ∀ (json : Json), json.ReadsBack → ∀ dirs : List String, dirs.Nodup → dirs.length ≤ maxScans →
      ∀ before later s₀ s,
        Transitions.run (step json) (initial "scans" dirs (fun _ ↦ {}) []) before = some s₀ →
        Transitions.run (step json) s₀ later = some s → Lists RowSince s₀ s := by
  refine ⟨fun h ↦ ?_, fun h ↦ ?_⟩
  · have hnew : ∀ n, 4095 ≤ n → n < 65536 → scanName n ∉ (range 4095).map scanName := by
      intro n hle hlt hmem
      obtain ⟨m, hm, heq⟩ := mem_map.1 hmem
      rw [mem_range] at hm
      have := scanName_injective (by omega) hlt heq
      omega
    have hne : scanName 4096 ≠ scanName 4095 := fun heq ↦
      absurd (scanName_injective (by decide) (by decide) heq) (by decide)
    obtain ⟨names, hnodup, hlength, hfirst, hsecond⟩ : ∃ names : List String, names.Nodup ∧
        names.length + 1 = maxScans ∧ scanName 4095 ∉ names ∧ scanName 4096 ∉ names :=
      ⟨_, scanNames_nodup (by decide), by rw [length_map, length_range]; rfl,
        hnew 4095 (by decide) (by decide), hnew 4096 (by decide) (by decide)⟩
    obtain ⟨s₀, s, hbefore, hlater, hnot⟩ := overfilled sampleJson
      (a := { sampleRow with id := scanName 4095 }) (b := { sampleRow with id := scanName 4096 })
      hnodup hlength rfl rfl (by decide +kernel) (by decide +kernel) hfirst hsecond hne
    exact hnot (h sampleJson sampleJson_readsBack names hnodup
      (Nat.le_of_succ_le (Nat.le_of_eq hlength)) _ _ s₀ s hbefore hlater)
  · obtain ⟨s₀, s, hbefore, hlater, hnot⟩ := not_listed
    exact hnot (h sampleJson sampleJson_readsBack [] nodup_nil (Nat.zero_le _) _ _ s₀ s hbefore
      hlater)

end Huntsman.Scans
