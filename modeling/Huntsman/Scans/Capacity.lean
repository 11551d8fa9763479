import Huntsman.Scans.Kept

/-!
# How many scans a store holds

The calls of `create` in one process come one after the other: from when it counts the directories
to when it makes its own, or takes it back, no other adds one.  So the store keeps within `maxScans`
as long as one process creates scans, and a listing that meets more has met one that was taken back
while it was reading.
-/

set_option autoImplicit false

namespace Huntsman.Scans

open Option Transitions

variable {json : Json} {st st' : Store} {i j : ℕ} {id : String} {record : ScanRecord} {l : Listing}

/-- The call holds `SCAN_CREATE_LOCK`. -/
def Creating.critical : Creating → Bool
  | .waiting | .done _ => false
  | _ => true

/-- What a `create` knows of the number of directories. -/
def Creating.Counted (st : Store) : Creating → Prop
  | .counting l count => l.names = st.dirs ∧ l.made = st.made.length ∧
      l.removed = st.removed.length ∧ l.seen.length = count ∧ count < maxScans
  | .counted => st.dirs.length < maxScans
  | _ => True

/-- All creates are of one process, and at most one of them is past its lock. -/
structure Capacity (process : ℕ) (s : State) : Prop where
  few : s.store.dirs.length ≤ maxScans
  creates : ∀ (i q : ℕ) (r : ScanRecord) (c : Creating), s.calls[i]? = some (.create q r c) →
    q = process ∧ c.Counted s.store
  lock : (s.store.locks = [] ∧ ∀ (i q : ℕ) (r : ScanRecord) (c : Creating),
      s.calls[i]? = some (.create q r c) → c.critical = false) ∨
    ∃ i, s.store.locks = [process] ∧ ∀ (j q : ℕ) (r : ScanRecord) (c : Creating),
      s.calls[j]? = some (.create q r c) → c.critical = true → j = i

/-- The directories are those that were there. -/
def SameDirs (st st' : Store) : Prop :=
  st'.dirs = st.dirs ∧ st'.made = st.made ∧ st'.removed = st.removed

theorem Creating.Counted.same {c : Creating} (h : c.Counted st) (hsame : SameDirs st st') :
    c.Counted st' := by
  obtain ⟨hdirs, hmade, hremoved⟩ := hsame
  cases c with
  | counting => simpa only [Creating.Counted, hdirs, hmade, hremoved] using h
  | counted => simpa only [Creating.Counted, hdirs] using h
  | waiting | locked | checked | made | secured | failed | done => trivial

/-- What a step of `create` does to the lock and to the directories: it takes the lock, or it has it
and keeps it or lets go of it.  The directories become more only where there is room for one. -/
inductive Creating.Turn (process : ℕ) (st st' : Store) (c c' : Creating) : Prop where
  | enter (hc : c.critical = false) (hc' : c'.critical = true) (hfree : process ∉ st.locks)
      (hlocks : st'.locks = process :: st.locks) (hdirs : SameDirs st st')
  | stay (hc : c.critical = true) (hc' : c'.critical = true) (hlocks : st'.locks = st.locks)
      (hdirs : SameDirs st st' ∨
        (st.dirs.length < maxScans ∧ st'.dirs.length = st.dirs.length + 1))
  | leave (hc : c.critical = true) (hc' : c'.critical = false)
      (hlocks : st'.locks = st.locks.erase process)
      (hdirs : SameDirs st st' ∨ st'.dirs.length ≤ st.dirs.length)

theorem Creating.next_turn {process : ℕ} {c c' : Creating} {input : Input} (hok : c.Ok st i record)
    (hstore : st.Ok json) (hcounted : c.Counted st)
    (hnext : c.next json st i process record maxScans input = some (st', c')) :
    c'.Counted st' ∧ c.Turn process st st' c' := by
  have hrefuse : ∀ {error : StoreError}, c.critical = true →
      refuse st process error = some (st', c') → c'.Counted st' ∧ c.Turn process st st' c' := by
    intro error hcritical hrefuse
    simp only [refuse, some.injEq, Prod.mk.injEq] at hrefuse
    obtain ⟨rfl, rfl⟩ := hrefuse
    exact ⟨trivial, .leave hcritical rfl rfl (.inl ⟨rfl, rfl, rfl⟩)⟩
  have hstay : ∀ {c₁ : Creating}, some (st, c₁) = some (st', c') → c.critical = true →
      c₁.critical = true → c₁.Counted st → c'.Counted st' ∧ c.Turn process st st' c' := by
    intro c₁ heq hcritical hcritical' hc₁
    cases heq
    exact ⟨hc₁, .stay hcritical hcritical' rfl (.inl ⟨rfl, rfl, rfl⟩)⟩
  cases c with
  | waiting =>
    cases input with
    | go fault inode =>
      simp only [Creating.next, ite_none_left_eq_some, some.injEq, Prod.mk.injEq] at hnext
      obtain ⟨hfree, rfl, rfl⟩ := hnext
      exact ⟨trivial, .enter rfl rfl hfree rfl ⟨rfl, rfl, rfl⟩⟩
    | entry | last => simp [Creating.next] at hnext
  | locked =>
    cases input with
    | go fault inode =>
      simp only [Creating.next] at hnext
      split at hnext
      · exact hrefuse rfl hnext
      · split at hnext
        · exact hrefuse rfl hnext
        · exact hstay hnext rfl rfl trivial
    | entry | last => simp [Creating.next] at hnext
  | checked =>
    cases input with
    | go fault inode =>
      simp only [Creating.next] at hnext
      split at hnext
      · exact hrefuse rfl hnext
      · exact hstay hnext rfl rfl ⟨rfl, rfl, rfl, rfl, by decide⟩
    | entry | last => simp [Creating.next] at hnext
  | counting l count =>
    obtain ⟨hnames, hmade, hremoved, hcount, hlt⟩ := hcounted
    cases input with
    | go fault inode =>
      cases fault with
      | none => simp [Creating.next] at hnext
      | some error => exact hrefuse rfl hnext
    | entry name gone =>
      simp only [Creating.next, ite_none_right_eq_some] at hnext
      obtain ⟨⟨hmay, hgone⟩, hnext⟩ := hnext
      have hname : name ∈ st.dirs := by
        rcases hmay.1 with hname | hname
        · exact hnames ▸ hname
        · simp [hmade] at hname
      have hstill : ¬ gone = true := fun h ↦ hgone h hname
      rw [if_neg hstill] at hnext
      split at hnext
      · exact hrefuse rfl hnext
      · next hmore =>
        exact hstay hnext rfl rfl ⟨hnames, hmade, hremoved, by simp [Listing.see, hcount],
          Nat.not_le.1 hmore⟩
    | last =>
      simp only [Creating.next, ite_none_right_eq_some] at hnext
      obtain ⟨hexhausted, hnext⟩ := hnext
      refine hstay hnext rfl rfl ?_
      have hsubset : st.dirs ⊆ l.seen := fun name hname ↦
        hexhausted name (hnames ▸ hname) (by simp [hremoved])
      exact Nat.lt_of_le_of_lt (List.subperm_of_subset hstore.nodup hsubset).length_le (hcount ▸ hlt)
  | counted =>
    cases input with
    | go fault inode =>
      simp only [Creating.next] at hnext
      split at hnext
      · exact hrefuse rfl hnext
      · split at hnext
        · exact hrefuse rfl hnext
        · cases hnext
          exact ⟨trivial, .stay rfl rfl rfl (.inr ⟨hcounted, by simp [Store.makeDir]⟩)⟩
    | entry | last => simp [Creating.next] at hnext
  | made =>
    cases input with
    | go fault inode =>
      simp only [Creating.next] at hnext
      split at hnext <;> exact hstay hnext rfl rfl trivial
    | entry | last => simp [Creating.next] at hnext
  | secured =>
    cases input with
    | go fault inode =>
      obtain ⟨hformat, howns, -⟩ := hok
      simp only [Creating.next] at hnext
      split at hnext
      · next st₁ hwrite =>
        cases hnext
        obtain ⟨body, rfl, -⟩ := writeRow_ok hwrite hformat
        rw [Store.putRow_of_mem howns.1]
        exact ⟨trivial, .leave rfl rfl rfl (.inl ⟨rfl, rfl, rfl⟩)⟩
      · exact hstay hnext rfl rfl trivial
    | entry | last => simp [Creating.next] at hnext
  | failed error =>
    cases input with
    | go fault inode =>
      simp only [Creating.next] at hnext
      split at hnext
      · cases hnext
        exact ⟨trivial, .leave rfl rfl rfl (.inl ⟨rfl, rfl, rfl⟩)⟩
      · split at hnext
        · cases hnext
          exact ⟨trivial, .leave rfl rfl rfl (.inl ⟨rfl, rfl, rfl⟩)⟩
        · split at hnext
          · cases hnext
            exact ⟨trivial, .leave rfl rfl rfl (.inr List.length_erase_le)⟩
          · cases hnext
            exact ⟨trivial, .leave rfl rfl rfl (.inl ⟨rfl, rfl, rfl⟩)⟩
    | entry | last => simp [Creating.next] at hnext
  | done created => simp [Creating.next] at hnext

/-! ## Runs -/

theorem SameDirs.fault (fault : Option String) :
    SameDirs st (st.fault fault) ∧ (st.fault fault).locks = st.locks := by
  rw [Store.fault]
  split <;> exact ⟨⟨rfl, rfl, rfl⟩, rfl⟩

/-- The other calls leave the locks and the directories alone. -/
theorem Call.next_same {c c' : Call} {input : Input} (hjson : json.ReadsBack) (hstore : st.Ok json)
    (hok : c.Ok json st i) (hnext : c.next json st i input = some (st', c')) :
    (∃ q r creating creating', c = .create q r creating ∧ c' = .create q r creating' ∧
      creating.next json st i q r maxScans input = some (st', creating')) ∨
    (SameDirs st st' ∧ st'.locks = st.locks ∧ ∀ q r creating, c' ≠ .create q r creating) := by
  cases c with
  | create q r creating =>
    simp only [Call.next, map_eq_some_iff, Prod.mk.injEq, Prod.exists] at hnext
    obtain ⟨st₁, creating', hcreating, rfl, rfl⟩ := hnext
    exact .inl ⟨q, r, creating, creating', rfl, rfl, hcreating⟩
  | update record updating =>
    simp only [Call.next, map_eq_some_iff, Prod.mk.injEq, Prod.exists] at hnext
    obtain ⟨st₁, updating', hupdating, rfl, rfl⟩ := hnext
    refine .inr ?_
    rw [← and_assoc]
    refine ⟨?_, by simp⟩
    cases updating with
    | waiting =>
      cases input with
      | go fault inode =>
        simp only [Updating.next] at hupdating
        split at hupdating <;>
        · cases hupdating
          exact ⟨⟨rfl, rfl, rfl⟩, rfl⟩
      | entry | last => simp [Updating.next] at hupdating
    | checked =>
      cases input with
      | go fault inode =>
        obtain ⟨-, hformat, hrow⟩ := hok
        have hid : record.id ∈ st.dirs := by
          by_contra hid
          simp [Store.rowFile, hid] at hrow
        simp only [Updating.next] at hupdating
        split at hupdating
        · next st₂ hwrite =>
          cases hupdating
          obtain ⟨body, rfl, -⟩ := writeRow_ok hwrite hformat
          rw [Store.putRow_of_mem hid]
          exact ⟨⟨rfl, rfl, rfl⟩, rfl⟩
        · cases hupdating
          exact ⟨⟨rfl, rfl, rfl⟩, rfl⟩
      | entry | last => simp [Updating.next] at hupdating
    | done answer => simp [Updating.next] at hupdating
  | get id getting =>
    simp only [Call.next, map_eq_some_iff, Prod.mk.injEq, Prod.exists] at hnext
    obtain ⟨st₁, getting', hgetting, rfl, rfl⟩ := hnext
    refine .inr ?_
    rw [← and_assoc]
    refine ⟨?_, by simp⟩
    cases getting with
    | reading r =>
      cases input with
      | go fault inode =>
        simp only [Getting.next] at hgetting
        split at hgetting
        · cases hgetting
          exact ⟨⟨rfl, rfl, rfl⟩, rfl⟩
        · cases hgetting
          exact SameDirs.fault fault
      | entry | last => simp [Getting.next] at hgetting
    | done answer => simp [Getting.next] at hgetting
  | list listed =>
    simp only [Call.next, map_eq_some_iff, Prod.mk.injEq, Prod.exists] at hnext
    obtain ⟨st₁, listed', hlisted, rfl, rfl⟩ := hnext
    obtain ⟨⟨fault, rfl⟩, -⟩ := hok.2.next hjson hstore hlisted
    exact .inr ⟨(SameDirs.fault fault).1, (SameDirs.fault fault).2, by simp⟩

/-- All creates are of one process. -/
def OneProcess (process : ℕ) (_ : State) (action : Action) : Prop :=
  ∀ q r, action = .create q r → q = process

theorem Capacity.append {process : ℕ} {s : State} (h : Capacity process s) {c : Call}
    (hc : ∀ q r creating, c = .create q r creating →
      q = process ∧ creating.critical = false ∧ creating.Counted s.store) :
    Capacity process { s with calls := s.calls ++ [c] } where
  few := h.few
  creates := by
    intro i q r creating hi
    rcases List.getElem?_append_cases hi with ⟨-, heq⟩ | hi
    · exact ⟨(hc q r creating heq.symm).1, (hc q r creating heq.symm).2.2⟩
    · exact h.creates i q r creating hi
  lock := by
    rcases h.lock with ⟨hlocks, hnone⟩ | ⟨i, hlocks, hone⟩
    · refine .inl ⟨hlocks, fun j q r creating hj ↦ ?_⟩
      rcases List.getElem?_append_cases hj with ⟨-, heq⟩ | hj
      · exact (hc q r creating heq.symm).2.1
      · exact hnone j q r creating hj
    · refine .inr ⟨i, hlocks, fun j q r creating hj hcritical ↦ ?_⟩
      rcases List.getElem?_append_cases hj with ⟨-, heq⟩ | hj
      · rw [(hc q r creating heq.symm).2.1] at hcritical
        simp at hcritical
      · exact hone j q r creating hj hcritical

/-- The other creates know what they knew, if the directories are the same, or they know nothing. -/
theorem Capacity.next {process : ℕ} {s : State} {c c' : Call} {input : Input}
    (hjson : json.ReadsBack) (hok : s.Ok json) (h : Capacity process s) (hi : s.calls[i]? = some c)
    (hnext : c.next json s.store i input = some (st', c')) :
    Capacity process { store := st', calls := s.calls.set i c' } := by
  rcases Call.next_same hjson hok.store (hok.calls i c hi) hnext with
    ⟨q, r, creating, creating', rfl, rfl, hcreating⟩ | ⟨hsame, hlocks, hother⟩
  · obtain ⟨rfl, hcounted⟩ := h.creates i q r creating hi
    have hthis := hok.calls i _ hi
    obtain ⟨hcounted', hturn⟩ := Creating.next_turn hthis hok.store hcounted hcreating
    -- Where the directories change, this call is past the lock, and the others are not.
    have hothers : ∀ (j q' : ℕ) (r' : ScanRecord) (d : Creating), j ≠ i →
        s.calls[j]? = some (.create q' r' d) → SameDirs s.store st' ∨ d.critical = false →
          d.Counted st' := by
      intro j q' r' d hne hj hwhy
      rcases hwhy with hsame | hcritical
      · exact (h.creates j q' r' d hj).2.same hsame
      · cases d <;> simp_all [Creating.critical, Creating.Counted]
    have hcreates : (∀ (j q' : ℕ) (r' : ScanRecord) (d : Creating), j ≠ i →
        s.calls[j]? = some (.create q' r' d) → SameDirs s.store st' ∨ d.critical = false) →
        ∀ (j q' : ℕ) (r' : ScanRecord) (d : Creating),
          (s.calls.set i (.create q r creating'))[j]? = some (.create q' r' d) →
            q' = q ∧ d.Counted st' := by
      intro hwhy j q' r' d hj
      rcases List.getElem?_set_cases hj with ⟨rfl, heq⟩ | ⟨hne, hj⟩
      · rw [Call.create.injEq] at heq
        obtain ⟨rfl, rfl, rfl⟩ := heq
        exact ⟨rfl, hcounted'⟩
      · exact ⟨(h.creates j q' r' d hj).1, hothers j q' r' d hne hj (hwhy j q' r' d hne hj)⟩
    have hholder : creating.critical = true → s.store.locks = [q] ∧
        ∀ (j q' : ℕ) (r' : ScanRecord) (d : Creating), j ≠ i →
          s.calls[j]? = some (.create q' r' d) → d.critical = false := by
      intro hcritical
      rcases h.lock with ⟨-, hnone⟩ | ⟨k, hlocks, hone⟩
      · rw [hnone i q r creating hi] at hcritical
        simp at hcritical
      · obtain rfl := hone i q r creating hi hcritical
        refine ⟨hlocks, fun j q' r' d hne hj ↦ ?_⟩
        by_contra hd
        exact hne (hone j q' r' d hj (by simpa using hd))
    cases hturn with
    | enter hc hc' hfree hlocks hdirs =>
      refine ⟨by rw [hdirs.1]; exact h.few, hcreates fun _ _ _ _ _ _ ↦ .inl hdirs, .inr ⟨i, ?_, ?_⟩⟩
      · rcases h.lock with ⟨hnone, -⟩ | ⟨k, hone, -⟩
        · rw [hlocks, hnone]
        · simp [hone] at hfree
      · intro j q' r' d hj hcritical
        rcases List.getElem?_set_cases hj with ⟨rfl, -⟩ | ⟨-, hj⟩
        · rfl
        · rcases h.lock with ⟨-, hnone⟩ | ⟨k, hone, -⟩
          · rw [hnone j q' r' d hj] at hcritical
            simp at hcritical
          · simp [hone] at hfree
    | stay hc hc' hlocks hdirs =>
      obtain ⟨hlocks₀, hfree⟩ := hholder hc
      refine ⟨?_, hcreates fun j q' r' d hne hj ↦ .inr (hfree j q' r' d hne hj), .inr ⟨i, ?_, ?_⟩⟩
      · rcases hdirs with hsame | ⟨hroom, hmore⟩
        · rw [hsame.1]
          exact h.few
        · rw [hmore]
          exact hroom
      · rw [hlocks, hlocks₀]
      · intro j q' r' d hj hcritical
        rcases List.getElem?_set_cases hj with ⟨rfl, -⟩ | ⟨hne, hj⟩
        · rfl
        · rw [hfree j q' r' d hne hj] at hcritical
          simp at hcritical
    | leave hc hc' hlocks hdirs =>
      obtain ⟨hlocks₀, hfree⟩ := hholder hc
      refine ⟨?_, hcreates fun j q' r' d hne hj ↦ .inr (hfree j q' r' d hne hj), .inl ⟨?_, ?_⟩⟩
      · rcases hdirs with hsame | hfewer
        · rw [hsame.1]
          exact h.few
        · exact hfewer.trans h.few
      · rw [hlocks, hlocks₀]
        simp
      · intro j q' r' d hj
        rcases List.getElem?_set_cases hj with ⟨rfl, heq⟩ | ⟨hne, hj⟩
        · rw [Call.create.injEq] at heq
          obtain ⟨-, -, rfl⟩ := heq
          exact hc'
        · exact hfree j q' r' d hne hj
  · have hold : ∀ (j q : ℕ) (r : ScanRecord) (d : Creating),
        (s.calls.set i c')[j]? = some (.create q r d) → s.calls[j]? = some (.create q r d) := by
      intro j q r d hj
      rcases List.getElem?_set_cases hj with ⟨-, heq⟩ | ⟨-, hj⟩
      · exact absurd heq.symm (hother q r d)
      · exact hj
    refine ⟨by rw [hsame.1]; exact h.few, fun j q r d hj ↦ ?_, ?_⟩
    · obtain ⟨hq, hcounted⟩ := h.creates j q r d (hold j q r d hj)
      exact ⟨hq, hcounted.same hsame⟩
    · rw [hlocks]
      exact h.lock.imp (And.imp_right fun hnone j q r d hj ↦ hnone j q r d (hold j q r d hj))
        fun ⟨k, hlocks, hone⟩ ↦ ⟨k, hlocks, fun j q r d hj ↦ hone j q r d (hold j q r d hj)⟩

theorem Capacity.step {process : ℕ} {s s' : State} {action : Action} (hjson : json.ReadsBack)
    (hok : s.Ok json) (h : Capacity process s) (hone : OneProcess process s action)
    (hstep : Scans.step json s action = some s') : Capacity process s' := by
  cases action with
  | create q r =>
    cases hstep
    refine h.append fun q' r' creating heq ↦ ?_
    rw [Call.create.injEq] at heq
    obtain ⟨rfl, rfl, rfl⟩ := heq
    refine ⟨hone q r rfl, ?_⟩
    split <;> exact ⟨rfl, trivial⟩
  | update | get | list =>
    cases hstep
    exact h.append fun _ _ _ heq ↦ by simp at heq
  | next i input =>
    simp only [Scans.step, bind_eq_bind, bind_eq_some_iff, some.injEq] at hstep
    obtain ⟨c, hc, ⟨st', c'⟩, hnext, rfl⟩ := hstep
    exact h.next hjson hok hc hnext
  | touch id =>
    simp only [Scans.step, ite_none_right_eq_some, some.injEq] at hstep
    obtain ⟨-, rfl⟩ := hstep
    exact ⟨h.few, fun j q r d hj ↦ ⟨(h.creates j q r d hj).1,
      (h.creates j q r d hj).2.same ⟨rfl, rfl, rfl⟩⟩, h.lock⟩

end Huntsman.Scans
