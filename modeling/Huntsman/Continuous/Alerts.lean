import Huntsman.Continuous.Cycle

/-!
# Each alert once, and no scan deleted before its decision

A cycle knows of a decision by the history, and decides no scan that the history has as a later one.
It forgets a decision that is no longer among the newest thousand, and it passes over two scans of
which one has no results, and goes on to delete.  So an alert may be published a second time, and a
scan may be deleted that an undecided alert still compares against.

`Settled` is what a cycle needs to meet.  Where every step of a run meets it, no scan's alert is
published twice, and whatever is deleted of a newest pair has been decided (`cycles_kept`).
-/

set_option autoImplicit false

namespace Huntsman.Continuous

open List Option

open Scans (ScanRecord ScanStatus)
open Transitions (run Throughout)

variable {R : Type} {cfg : Config} {assess : R → R → Alert} {s s' : State R}

namespace State

/-- There has been an entry for a pair of scans. -/
def Recorded (s : State R) (earlier later : ScanRecord) : Prop :=
  ∃ entry ∈ s.recorded, entry.earlier = some earlier.id ∧ entry.later = some later.id

/-- The scan is in the store, or others have deleted it. -/
def Present (s : State R) (id : String) : Prop := id ∈ s.ids ∨ id ∈ s.removed

/-- The pair of every request is recorded. -/
def Decided (s : State R) (pass : Pass) (requests : List Request) : Prop :=
  ∀ request ∈ requests, ∀ earlier later,
    newestPair pass.listing request = some (earlier, later) → s.Recorded earlier later

end State

/-- The newest finished scan of the target that is looked at has not been decided before, or the
history, as the cycle has read it, has its decision over the scan before it. -/
def LookSettled (recorded : List Entry) : Stage R → Prop
  | .deciding pass history (request :: _) => ∀ pair ∈ newestPair pass.listing request,
      (∃ entry ∈ history, entry.earlier = some pair.1.id ∧ entry.later = some pair.2.id) ∨
        ∀ entry ∈ recorded, entry.later ≠ some pair.2.id
  | _ => True

/-- There are results of the scan whose results are read. -/
def ReadSettled (results : String → Option R) : Stage R → Prop
  | .comparing _ _ _ earlier later base => (results (readNext earlier later base)).isSome = true
  | _ => True

/-- What a step of a cycle needs to meet: where it looks at a target, and where it reads results. -/
def Settled (s : State R) : Action R → Prop
  | .look => LookSettled s.recorded s.stage
  | .readResults ok => ok = true → ReadSettled s.results s.stage
  | _ => True

/-- No active scan is deleted, and of a newest pair the earlier scan only when the pair is
recorded. -/
def DeleteRight (cfg : Config) (s : State R) : Stage R → Prop
  | .retaining pass (record :: plan) => (∀ r ∈ record :: plan, isActive r.status = false) ∧
      ∀ request ∈ cfg.targets, ∀ pair ∈ newestPair pass.listing request,
        record.id = pair.1.id → s.Recorded pair.1 pair.2
  | _ => True

/-- The newest scan of each group of the listing, and the newest that has finished, are there,
unless others deleted them. -/
def FinishRight (s : State R) : Stage R → Prop
  | .retaining pass [] => ∀ r ∈ pass.listing, Keeper pass.listing r → s.Present r.id
  | _ => True

/-- What is promised of a step that deletes, and of the end of a retention. -/
def Right (cfg : Config) (s : State R) : Action R → Prop
  | .delete _ _ => DeleteRight cfg s s.stage
  | .finish => FinishRight s s.stage
  | _ => True

/-! ## The invariant -/

/-- What is known of the scans of a listing before anything is deleted. -/
def Listed (s : State R) (pass : Pass) : Prop :=
  (pass.listing.map ScanRecord.id).Nodup ∧ ∀ r ∈ pass.listing, s.Present r.id

/-- Where a cycle is among its targets: those that are done with are decided. -/
def Between (cfg : Config) (s : State R) (pass : Pass) (history : List Entry)
    (todo : List Request) : Prop :=
  Listed s pass ∧ history ⊆ s.recorded ∧
    ∃ done, cfg.targets = done ++ todo ∧ s.Decided pass done

/-- Where a cycle is within one target, whose newest pair is not decided. -/
def Within (cfg : Config) (s : State R) (pass : Pass) (history : List Entry) (todo : List Request)
    (later : String) (decision : ScanRecord → ScanRecord → Prop) : Prop :=
  Listed s pass ∧ history ⊆ s.recorded ∧ later ∉ s.published.map Event.scan ∧
    ∃ done request, cfg.targets = done ++ request :: todo ∧ s.Decided pass done ∧
      ∀ e l, newestPair pass.listing request = some (e, l) → l.id = later ∧ decision e l

/-- What is known at each place of a cycle. -/
def StageInv (cfg : Config) (s : State R) : Stage R → Prop
  | .idle => True
  | .listed pass => Listed s pass
  | .deciding pass history todo => Between cfg s pass history todo
  | .comparing pass history todo earlier later base => base ≠ some none ∧
      Within cfg s pass history todo later.id fun e l ↦ e = earlier ∧ l = later
  | .recording pass history todo later _ entry => entry.later = some later ∧
      Within cfg s pass history todo later fun e _ ↦ entry.earlier = some e.id
  | .announcing pass history todo later _ => Between cfg s pass history todo ∧
      later ∉ s.published.map Event.scan ∧ ∃ entry ∈ s.recorded, entry.later = some later
  | .retaining pass plan => (pass.listing.map ScanRecord.id).Nodup ∧
      s.Decided pass cfg.targets ∧
      (∃ keep, ∀ r ∈ plan, r ∈ prunable (configured cfg.targets pass.listing) keep) ∧
      ∀ r, Keeper pass.listing r → s.Present r.id

/-- **The invariant**: the history and what is published are among what was recorded, and no scan's
alert is published twice. -/
structure Inv (cfg : Config) (s : State R) : Prop where
  history : s.history ⊆ s.recorded
  published : ∀ event ∈ s.published, ∃ entry ∈ s.recorded, entry.later = some event.scan
  nodup : (s.published.map Event.scan).Nodup
  stage : StageInv cfg s s.stage

/-! ## What others do -/

/-- What a step leaves of what is known: entries and scans that are there stay known, and nothing is
published. -/
structure Grows (s s' : State R) : Prop where
  recorded : s.recorded ⊆ s'.recorded
  present : ∀ id, s.Present id → s'.Present id
  published : s'.published = s.published

variable {pass : Pass} {history : List Entry} {todo : List Request} {st : Stage R}

theorem Grows.decided (h : Grows s s') {requests : List Request}
    (hdecided : s.Decided pass requests) : s'.Decided pass requests := by
  intro request hrequest e l hpair
  obtain ⟨entry, hentry, hboth⟩ := hdecided request hrequest e l hpair
  exact ⟨entry, h.recorded hentry, hboth⟩

theorem Grows.listed (h : Grows s s') (hlisted : Listed s pass) : Listed s' pass :=
  ⟨hlisted.1, fun r hr ↦ h.present r.id (hlisted.2 r hr)⟩

theorem Grows.between (h : Grows s s') (hbetween : Between cfg s pass history todo) :
    Between cfg s' pass history todo := by
  obtain ⟨hlisted, hhistory, done, htargets, hdone⟩ := hbetween
  exact ⟨h.listed hlisted, List.Subset.trans hhistory h.recorded, done, htargets, h.decided hdone⟩

theorem Grows.within (h : Grows s s') {later : String} {decision : ScanRecord → ScanRecord → Prop}
    (hwithin : Within cfg s pass history todo later decision) :
    Within cfg s' pass history todo later decision := by
  obtain ⟨hlisted, hhistory, hnew, done, request, htargets, hdone, hpair⟩ := hwithin
  exact ⟨h.listed hlisted, List.Subset.trans hhistory h.recorded, h.published ▸ hnew, done, request, htargets,
    h.decided hdone, hpair⟩

theorem Grows.stageInv (h : Grows s s') (hst : StageInv cfg s st) : StageInv cfg s' st := by
  cases st with
  | idle => trivial
  | listed pass => exact h.listed hst
  | deciding pass history todo => exact h.between hst
  | comparing pass history todo earlier later base => exact ⟨hst.1, h.within hst.2⟩
  | recording pass history todo later alert entry => exact ⟨hst.1, h.within hst.2⟩
  | announcing pass history todo later alert =>
    obtain ⟨hbetween, hnew, entry, hentry, hlater⟩ := hst
    exact ⟨h.between hbetween, h.published ▸ hnew, entry, h.recorded hentry, hlater⟩
  | retaining pass plan =>
    obtain ⟨hids, hdecided, hplan, hkept⟩ := hst
    exact ⟨hids, h.decided hdecided, hplan, fun r hr ↦ h.present r.id (hkept r hr)⟩

theorem Grows.published_recorded (h : Grows s s') (hinv : Inv cfg s) :
    ∀ event ∈ s'.published, ∃ entry ∈ s'.recorded, entry.later = some event.scan := by
  rw [h.published]
  intro event hevent
  obtain ⟨entry, hentry, hlater⟩ := hinv.published event hevent
  exact ⟨entry, h.recorded hentry, hlater⟩

/-- A step after which no less is known keeps the invariant, where the cycle is in a place of which
it holds. -/
theorem Inv.grow (hinv : Inv cfg s) (h : Grows s s') (hhistory : s'.history ⊆ s'.recorded)
    (hstage : StageInv cfg s s'.stage) : Inv cfg s' :=
  ⟨hhistory, h.published_recorded hinv, h.published ▸ hinv.nodup, h.stageInv hstage⟩

/-- Moving on changes nothing but where the cycle is. -/
theorem Grows.stage (s : State R) (st : Stage R) : Grows s { s with stage := st } :=
  ⟨List.Subset.refl _, fun _ h ↦ h, rfl⟩

theorem Inv.move (hinv : Inv cfg s) (hst : StageInv cfg s st) : Inv cfg { s with stage := st } :=
  hinv.grow (Grows.stage s st) hinv.history hst

/-! ## Looking at a target -/

theorem mem_decided {id : String} :
    id ∈ decided history ↔ ∃ entry ∈ history, entry.later = some id := mem_filterMap

/-- A listing's keepers are not planned, whether their targets are configured or not. -/
theorem ne_of_mem_plan {listing : List ScanRecord} (hids : (listing.map ScanRecord.id).Nodup)
    {r x : ScanRecord} {keep : ℕ} (hr : Keeper listing r)
    (hx : x ∈ prunable (configured cfg.targets listing) keep) : x.id ≠ r.id := by
  have hsub : (configured cfg.targets listing).Sublist listing := filter_sublist
  have hids' := hids.sublist (hsub.map ScanRecord.id)
  have hxin := (mem_of_mem_prunable hx).1
  intro hid
  have hrin : r ∈ listing := hr.elim (·.1) (·.1)
  obtain rfl := eq_of_id_eq hids (hsub.subset hxin) hrin hid
  refine ne_of_mem_prunable hids' (hr.imp ?_ ?_) hx rfl <;>
  · rintro ⟨-, hP, hnewest⟩
    exact ⟨hxin, hP, fun y hy ↦ hnewest y (hsub.subset hy)⟩

theorem stageInv_lookNext (hinv : Inv cfg s) (hst : Between cfg s pass history todo)
    (hsettled : ∀ request rest e l, todo = request :: rest →
      newestPair pass.listing request = some (e, l) →
      (∃ entry ∈ history, entry.earlier = some e.id ∧ entry.later = some l.id) ∨
        ∀ entry ∈ s.recorded, entry.later ≠ some l.id) :
    StageInv cfg s (lookNext cfg pass history todo) := by
  obtain ⟨hlisted, hhistory, done, htargets, hdone⟩ := hst
  rcases todo with _ | ⟨request, todo⟩
  · rw [lookNext]
    split
    · trivial
    · rename_i keep hkeep
      rw [append_nil] at htargets
      exact ⟨hlisted.1, htargets ▸ hdone, ⟨keep, fun _ hr ↦ hr⟩,
        fun r hr ↦ hlisted.2 r (hr.elim (·.1) (·.1))⟩
  · have hnext : ∀ d : s.Decided pass [request], Between cfg s pass history todo := by
      refine fun d ↦ ⟨hlisted, hhistory, done ++ [request], by rw [htargets, append_assoc]; rfl,
        fun other hother ↦ ?_⟩
      rcases mem_append.1 hother with hother | hother
      · exact hdone other hother
      · exact d other hother
    rw [lookNext]
    split
    · rename_i hnone
      refine hnext fun other hother e l hpair ↦ ?_
      rw [mem_singleton.1 hother, hnone] at hpair
      cases hpair
    · rename_i earlier later hpair
      split
      · rename_i hmem
        refine hnext fun other hother e l hother' ↦ ?_
        rw [mem_singleton.1 hother, hpair, some.injEq, Prod.mk.injEq] at hother'
        obtain ⟨rfl, rfl⟩ := hother'
        obtain ⟨entry, hentry, hlater⟩ := mem_decided.1 hmem
        rcases hsettled request todo _ _ rfl hpair with ⟨found, hfound, hboth⟩ | hnever
        · exact ⟨found, hhistory hfound, hboth⟩
        · exact absurd hlater (hnever entry (hhistory hentry))
      · rename_i hmem
        refine ⟨by simp, hlisted, hhistory, fun hpublished ↦ ?_, done, request, htargets, hdone,
          fun e l hother ↦ ?_⟩
        · rcases hsettled request todo _ _ rfl hpair with ⟨found, hfound, -, hlater⟩ | hnever
          · exact hmem (mem_decided.2 ⟨found, hfound, hlater⟩)
          · obtain ⟨event, hevent, heq⟩ := mem_map.1 hpublished
            obtain ⟨entry, hentry, hlater⟩ := hinv.published event hevent
            exact hnever entry hentry (hlater.trans (congrArg some heq))
        · rw [hpair, some.injEq, Prod.mk.injEq] at hother
          obtain ⟨rfl, rfl⟩ := hother
          exact ⟨rfl, rfl, rfl⟩

/-! ## Steps -/

theorem appendHistory_subset (history : List Entry) (entry : Entry) :
    appendHistory history entry ⊆ history ++ [entry] := by
  unfold appendHistory
  exact drop_subset _ _

/-- What others do takes nothing from what is known. -/
theorem Grows.begin (s : State R) (record : ScanRecord) :
    Grows s { s with scans := record :: s.scans } :=
  ⟨List.Subset.refl _, fun _ h ↦ h.imp_left (.tail _), rfl⟩

theorem Grows.update (s : State R) (record : ScanRecord) :
    Grows s { s with scans := s.scans.map fun row ↦ if row.id = record.id then record else row } := by
  refine ⟨List.Subset.refl _, fun id h ↦ h.imp_left fun hid ↦ ?_, rfl⟩
  obtain ⟨row, hrow, rfl⟩ := mem_map.1 hid
  refine mem_map.2 ⟨_, mem_map_of_mem hrow, ?_⟩
  split
  · rename_i heq
    exact heq.symm
  · rfl

theorem Grows.remove (s : State R) (id : String) :
    Grows s { s with scans := s.scans.filter (·.id ≠ id), removed := id :: s.removed } := by
  refine ⟨List.Subset.refl _, fun other h ↦ ?_, rfl⟩
  rcases h with h | h
  · obtain ⟨row, hrow, rfl⟩ := mem_map.1 h
    by_cases hid : row.id = id
    · exact .inr (hid ▸ (.head _))
    · exact .inl (mem_map_of_mem (mem_filter.2 ⟨hrow, decide_eq_true hid⟩))
  · exact .inr (.tail _ h)

theorem inv_readResults {earlier later : ScanRecord} {base : Option (Option R)} {read : Option R}
    (hinv : Inv cfg s)
    (hst : StageInv cfg s (.comparing pass history todo earlier later base))
    (hread : read.isSome = true) :
    Inv cfg { s with stage := readOn assess pass history todo earlier later read base } := by
  obtain ⟨hbase, hwithin⟩ := hst
  obtain ⟨other, rfl⟩ := isSome_iff_exists.1 hread
  refine hinv.move ?_
  rcases base with _ | _ | base
  · exact ⟨by simp, hwithin⟩
  · exact absurd rfl hbase
  · obtain ⟨hlisted, hhistory, hnew, done, request, htargets, hdone, hpair⟩ := hwithin
    refine ⟨rfl, hlisted, hhistory, hnew, done, request, htargets, hdone, fun e l h ↦ ?_⟩
    obtain ⟨hid, rfl, -⟩ := hpair e l h
    exact ⟨hid, rfl⟩

theorem inv_append {later : String} {alert : Alert} {entry : Entry} (hinv : Inv cfg s)
    (hst : StageInv cfg s (.recording pass history todo later alert entry))
    (hhistory' : s'.history ⊆ s'.recorded) (hrecorded : s'.recorded = s.recorded ++ [entry])
    (hpresent : ∀ id, s.Present id → s'.Present id) (hpublished : s'.published = s.published)
    (hstage : s'.stage = if alert.raised then .announcing pass history todo later alert
      else .deciding pass history todo) : Inv cfg s' := by
  obtain ⟨hlater, hlisted, hhistory, hnew, done, request, htargets, hdone, hpair⟩ := hst
  have hgrows : Grows s s' := ⟨hrecorded ▸ subset_append_left _ _, hpresent, hpublished⟩
  refine ⟨hhistory', hgrows.published_recorded hinv, hpublished ▸ hinv.nodup, ?_⟩
  -- the entry is the decision for the target's pair
  have hentry : entry ∈ s'.recorded :=
    hrecorded ▸ mem_append_right _ (mem_singleton_self entry)
  have hbetween : Between cfg s' pass history todo := by
    refine ⟨hgrows.listed hlisted, List.Subset.trans hhistory hgrows.recorded, done ++ [request],
      by rw [htargets, append_assoc]; rfl, fun other hother ↦ ?_⟩
    rcases mem_append.1 hother with hother | hother
    · exact hgrows.decided hdone other hother
    · intro e l h
      rw [mem_singleton.1 hother] at h
      obtain ⟨rfl, hearlier⟩ := hpair e l h
      exact ⟨entry, hentry, hearlier, hlater⟩
  rw [hstage]
  split
  · exact ⟨hbetween, hpublished ▸ hnew, entry, hentry, hlater⟩
  · exact hbetween

theorem inv_announce {later : String} {alert : Alert} (hinv : Inv cfg s)
    (hst : StageInv cfg s (.announcing pass history todo later alert)) :
    Inv cfg { s with
      published := s.published ++ [⟨later, pass.now, alert.reasons⟩]
      stage := .deciding pass history todo } := by
  obtain ⟨⟨hlisted, hhistory, done, htargets, hdone⟩, hnew, entry, hentry, hlater⟩ := hst
  refine ⟨hinv.history, fun event hevent ↦ ?_, ?_, hlisted, hhistory, done, htargets, hdone⟩
  · rcases mem_append.1 hevent with hevent | hevent
    · exact hinv.published event hevent
    · rw [mem_singleton.1 hevent]
      exact ⟨entry, hentry, hlater⟩
  · dsimp only
    rw [map_append, nodup_append']
    refine ⟨hinv.nodup, nodup_singleton _, ?_⟩
    rintro id hid hsingle
    rw [map_singleton, mem_singleton] at hsingle
    subst hsingle
    exact hnew hid

theorem inv_delete {record : ScanRecord} {plan : List ScanRecord} (hinv : Inv cfg s)
    (hst : StageInv cfg s (.retaining pass (record :: plan))) :
    Inv cfg { s with
      scans := s.scans.filter (·.id ≠ record.id), stage := .retaining pass plan } := by
  obtain ⟨hids, hdecided, ⟨keep, hplan⟩, hkept⟩ := hst
  refine ⟨hinv.history, hinv.published, hinv.nodup, hids, hdecided,
    ⟨keep, fun r hr ↦ hplan r (.tail _ hr)⟩, fun r hr ↦ ?_⟩
  refine (hkept r hr).imp_left fun hin ↦ ?_
  obtain ⟨row, hrow, hid⟩ := mem_map.1 hin
  have hne := ne_of_mem_plan hids hr (hplan record (.head _))
  rw [← hid]
  refine mem_map_of_mem (mem_filter.2 ⟨hrow, decide_eq_true ?_⟩)
  rw [hid]
  exact hne.symm

/-- **A step that is settled keeps the invariant.** -/
theorem inv_step (hinv : Inv cfg s) (action : Action R) (hsettled : Settled s action)
    (h : step cfg assess s action = some s') : Inv cfg s' := by
  have hstage := hinv.stage
  cases action with
  | begin record =>
    rw [step] at h
    split at h
    · rw [← some.inj h]
      exact hinv.grow (Grows.begin s record) hinv.history hstage
    · cases h
  | update record =>
    rw [step] at h
    split at h
    · rw [← some.inj h]
      exact hinv.grow (Grows.update s record) hinv.history hstage
    · cases h
  | save id results =>
    rw [step] at h
    rw [← some.inj h]
    exact hinv.grow ⟨List.Subset.refl _, fun _ h ↦ h, rfl⟩ hinv.history hstage
  | remove id =>
    rw [step] at h
    rw [← some.inj h]
    exact hinv.grow (Grows.remove s id) hinv.history hstage
  | rewrite history =>
    rw [step] at h
    rw [← some.inj h]
    exact hinv.grow ⟨subset_append_left _ _, fun _ h ↦ h, rfl⟩ (subset_append_right _ _)
      hstage
  | list listing now =>
    rw [step] at h
    split at h
    · split at h
      · rename_i hlists
        rw [← some.inj h]
        exact hinv.move hlists
      · cases h
    · cases h
  | readHistory ok =>
    rw [step] at h
    split at h
    · rename_i pass hat
      rw [hat] at hstage
      rw [← some.inj h]
      refine hinv.move ?_
      split
      · exact ⟨hstage, hinv.history, [], rfl, nofun⟩
      · trivial
    · cases h
  | look =>
    rw [step] at h
    split at h
    · rename_i pass history todo hat
      rw [hat] at hstage
      rw [← some.inj h]
      refine hinv.move (stageInv_lookNext hinv hstage fun request rest e l htodo hpair ↦ ?_)
      rw [Settled, hat, htodo] at hsettled
      exact hsettled (e, l) hpair
    · cases h
  | readResults ok =>
    rw [step] at h
    split at h
    · rename_i pass history todo earlier later base hat
      rw [hat] at hstage
      dsimp only at h
      split at h
      · rename_i hok
        rw [← some.inj h]
        have hread := hsettled hok.1
        rw [hat] at hread
        exact inv_readResults hinv hstage hread
      · rw [← some.inj h]
        exact hinv.move trivial
    · cases h
  | append ok =>
    rw [step] at h
    split at h
    · rename_i pass history todo later alert entry hat
      rw [hat] at hstage
      split at h
      · rw [← some.inj h]
        refine inv_append hinv hstage ?_ rfl
          (fun _ h ↦ h) rfl rfl
        exact List.Subset.trans (appendHistory_subset _ _) (append_subset.2
          ⟨List.Subset.trans hinv.history (subset_append_left _ _),
            subset_append_right _ _⟩)
      · rw [← some.inj h]
        exact hinv.move trivial
    · cases h
  | announce =>
    rw [step] at h
    split at h
    · rename_i pass history todo later alert hat
      rw [hat] at hstage
      rw [← some.inj h]
      exact inv_announce hinv hstage
    · cases h
  | delete ok unread =>
    rw [step] at h
    split at h
    · rename_i pass record plan hat
      rw [hat] at hstage
      split at h
      · split at h
        · rw [← some.inj h]
          exact inv_delete hinv hstage
        · cases h
      · rw [← some.inj h]
        obtain ⟨hids, hdecided, ⟨keep, hplan⟩, hkept⟩ := hstage
        exact hinv.move ⟨hids, hdecided,
          ⟨keep, fun r hr ↦ hplan r (.tail _ hr)⟩, hkept⟩
    · cases h
  | finish =>
    rw [step] at h
    split at h
    · rw [← some.inj h]
      exact hinv.move trivial
    · cases h
  | crash =>
    rw [step] at h
    rw [← some.inj h]
    exact hinv.move trivial

/-! ## Runs -/

theorem inv_start (scans : List ScanRecord) (results : String → Option R) (history : List Entry) :
    Inv cfg (State.start scans results history) :=
  ⟨List.Subset.refl _, nofun, nodup_nil, trivial⟩

theorem right_of_inv (hinv : Inv cfg s) (action : Action R) : Right cfg s action := by
  have hstage := hinv.stage
  cases action with
  | delete ok unread =>
    rw [Right]
    rcases hat : s.stage with _ | _ | _ | _ | _ | _ | ⟨pass, _ | ⟨record, plan⟩⟩
    all_goals try trivial
    rw [hat] at hstage
    obtain ⟨-, hdecided, ⟨keep, hplan⟩, -⟩ := hstage
    refine ⟨fun r hr ↦ not_active_of_mem_prunable (hplan r hr), ?_⟩
    exact fun request hrequest pair hpair _ ↦ hdecided request hrequest pair.1 pair.2 hpair
  | finish =>
    rw [Right]
    rcases hat : s.stage with _ | _ | _ | _ | _ | _ | ⟨pass, _ | ⟨record, plan⟩⟩
    all_goals try trivial
    rw [hat] at hstage
    obtain ⟨-, -, -, hkept⟩ := hstage
    exact fun r _ hr ↦ hkept r hr
  | _ => trivial

/-- **In a run whose every step is settled, no scan's alert is published twice; whatever is deleted
of a newest pair is recorded, and is no active scan; and after each retention every group keeps its
newest scan and its newest that has finished.** -/
theorem cycles_kept {scans : List ScanRecord} {results : String → Option R} {history : List Entry}
    {actions : List (Action R)}
    (hrun : run (step cfg assess) (State.start scans results history) actions = some s)
    (hsettled : Throughout (step cfg assess) (State.start scans results history) Settled actions) :
    (s.published.map Event.scan).Nodup ∧
      Throughout (step cfg assess) (State.start scans results history) (Right cfg) actions := by
  have hstart : Inv cfg (State.start scans results history) := inv_start scans results history
  constructor
  · have hinv := Transitions.inv (Inv cfg) hstart
      (fun _ action _ hinv hsettled h ↦ inv_step hinv action hsettled h) hsettled hrun
    exact hinv.nodup
  · exact Transitions.throughout (Inv cfg) hstart
      (fun _ action _ hinv hsettled h ↦ inv_step hinv action hsettled h)
      (fun _ action _ hinv _ _ ↦ right_of_inv hinv action) hsettled hrun

/-! ## Two runs -/

/-- One configured target, of which the newest scan is kept. -/
def oneTarget : Config where
  targets := [⟨"example.org", some "domain"⟩]
  distinct := List.nodup_singleton _
  keep := some 1

/-- A finished scan of the target. -/
def finishedScan (id : String) (created : UInt64) : ScanRecord where
  formatVersion := Scans.formatVersion
  id := id
  name := id
  target := "example.org"
  kind := "domain"
  status := .finished
  created := created

/-- An alert is raised where there is more. -/
def more (base other : ℕ) : Alert := ⟨base < other, [.correlation "HIGH" "rule" "title"]⟩

def earlierAndLater : List ScanRecord := [finishedScan "b" 2, finishedScan "a" 1]

/-- A cycle that decides and deletes, and a second one that has nothing to do. -/
def twoCycles : List (Action ℕ) :=
  [.list earlierAndLater 5, .readHistory true, .look, .readResults true, .readResults true,
    .append true, .announce, .look, .delete true false, .finish,
    .list [finishedScan "b" 2] 6, .readHistory true, .look, .look, .finish]

/-- Both scans have results. -/
def bothResults (id : String) : Option ℕ := if id = "a" then some 1 else some 2

/-- The later scan has none. -/
def earlierResults (id : String) : Option ℕ := if id = "a" then some 1 else none

section Decidable

instance (recorded : List Entry) : (st : Stage R) → Decidable (LookSettled recorded st)
  | .deciding _ _ (_ :: _) => inferInstanceAs (Decidable (∀ pair ∈ _, _ ∨ _))
  | .deciding _ _ [] | .idle | .listed _ | .comparing .. | .recording .. | .announcing ..
  | .retaining .. => .isTrue trivial

instance (results : String → Option R) : (st : Stage R) → Decidable (ReadSettled results st)
  | .comparing .. => inferInstanceAs (Decidable (_ = true))
  | .deciding .. | .idle | .listed _ | .recording .. | .announcing .. | .retaining .. =>
    .isTrue trivial

instance (s : State R) : (action : Action R) → Decidable (Settled s action)
  | .look => inferInstanceAs (Decidable (LookSettled _ _))
  | .readResults _ => inferInstanceAs (Decidable (_ = true → ReadSettled _ _))
  | .begin _ | .update _ | .save .. | .remove _ | .rewrite _ | .list .. | .readHistory _
  | .append _ | .announce | .delete .. | .finish | .crash => .isTrue trivial

end Decidable

theorem cycles_kept_sample : ∃ s, run (step oneTarget more)
      (State.start earlierAndLater bothResults []) twoCycles = some s ∧
    (s.published.map Event.scan).Nodup ∧
    Throughout (step oneTarget more) (State.start earlierAndLater bothResults [])
      (Right oneTarget) twoCycles := by
  have hsome : (run (step oneTarget more) (State.start earlierAndLater bothResults [])
      twoCycles).isSome = true := by decide +kernel
  obtain ⟨s, hs⟩ := isSome_iff_exists.1 hsome
  refine ⟨s, hs, cycles_kept hs ?_⟩
  exact Transitions.throughout_iff_check.2 (by decide +kernel)

/-- A cycle that passes over the pair. -/
def passedOver : List (Action ℕ) :=
  [.list earlierAndLater 5, .readHistory true, .look, .readResults true, .readResults true, .look]

/-- What the listing of a cycle is that retains, and what it deletes next. -/
def nextDeleted {R : Type} : Stage R → Option (List ScanRecord × ScanRecord)
  | .retaining pass (record :: _) => some (pass.listing, record)
  | _ => none

/-- The earlier scan of a pair that was passed over is deleted, and the pair is not recorded. -/
theorem not_cycles_kept : ∃ s, run (step oneTarget more)
      (State.start earlierAndLater earlierResults []) (passedOver ++ [.delete true false]) = some s ∧
    ¬ Throughout (step oneTarget more) (State.start earlierAndLater earlierResults [])
      (Right oneTarget) (passedOver ++ [.delete true false]) := by
  have hsome : (run (step oneTarget more) (State.start earlierAndLater earlierResults [])
      (passedOver ++ [.delete true false])).isSome = true := by decide +kernel
  obtain ⟨s, hs⟩ := isSome_iff_exists.1 hsome
  refine ⟨s, hs, fun hright ↦ ?_⟩
  obtain ⟨before, hbefore, -⟩ := Transitions.run_append_singleton.1 hs
  have hstate : (run (step oneTarget more) (State.start earlierAndLater earlierResults [])
      passedOver).map (fun s ↦ (nextDeleted s.stage, s.recorded)) =
        some (some (earlierAndLater, finishedScan "a" 1), []) := by
    decide +kernel
  rw [hbefore, map_some, some.injEq, Prod.mk.injEq] at hstate
  have hpair : newestPair earlierAndLater ⟨"example.org", some "domain"⟩ =
      some (finishedScan "a" 1, finishedScan "b" 2) := by
    decide +kernel
  have hdelete : DeleteRight oneTarget before before.stage := hright.last hbefore
  rcases hat : before.stage with _ | _ | _ | _ | _ | _ | ⟨pass, _ | ⟨record, plan⟩⟩
  all_goals rw [hat] at hstate
  case retaining.cons =>
    obtain ⟨hlisting, rfl⟩ := Prod.mk.inj (some.inj hstate.1)
    rw [← hlisting] at hpair
    rw [hat] at hdelete
    obtain ⟨entry, hentry, -⟩ := hdelete.2 _ (.head _) _ hpair rfl
    rw [hstate.2] at hentry
    cases hentry
  all_goals exact absurd hstate.1.symm (some_ne_none _)

end Huntsman.Continuous
