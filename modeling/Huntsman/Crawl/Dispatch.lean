import Huntsman.Crawl.Defs
import Mathlib.Data.Finset.Card

/-!
# What the queue of a generation admits, and in which order it is dealt out

Two promises of a `Frontier` keep one kind of target from crowding out the others.

* `Frontier.intoQueue` deals the targets out one kind at a time.  Between two rounds every kind that
  still has targets left was dealt equally many (`Dealt.even`), so within a round two such kinds
  are at most one apart.
* Under a cap, a kind holds at most half of the queue.  The other half is then free for whatever the
  other kinds offer, however many targets of the one kind were offered before.
-/

set_option autoImplicit false

namespace Huntsman

open List

namespace Frontier

/-! ## The order of dispatch -/

/-- Each group holds targets of one kind, and no two groups hold the same. -/
def Grouped (groups : List (List Target)) : Prop :=
  (∀ g ∈ groups, ∀ t ∈ g, ∀ u ∈ g, t.kind = u.kind) ∧
    groups.Pairwise fun g h ↦ ∀ t ∈ g, ∀ u ∈ h, t.kind ≠ u.kind

/-- The targets of one kind. -/
def ofKind (kind : ScanKind) (targets : List Target) : List Target :=
  targets.filter fun t ↦ t.kind = kind

variable {kind : ScanKind} {groups : List (List Target)} {g : List Target}

theorem ofKind_nil : ofKind kind [] = [] := rfl

theorem ofKind_append (targets targets' : List Target) :
    ofKind kind (targets ++ targets') = ofKind kind targets ++ ofKind kind targets' :=
  filter_append ..

variable {t : Target}

theorem ofKind_cons_of_eq (h : t.kind = kind) (targets : List Target) :
    ofKind kind (t :: targets) = t :: ofKind kind targets :=
  filter_cons_of_pos (decide_eq_true h)

theorem ofKind_cons_of_ne (h : t.kind ≠ kind) (targets : List Target) :
    ofKind kind (t :: targets) = ofKind kind targets :=
  filter_cons_of_neg (by simpa using h)

theorem ofKind_eq_nil {targets : List Target} (h : ∀ t ∈ targets, t.kind ≠ kind) :
    ofKind kind targets = [] :=
  filter_eq_nil_iff.2 fun t ht ↦ by simpa using h t ht

theorem Grouped.of_cons (h : Grouped (g :: groups)) : Grouped groups :=
  ⟨fun g' hg' ↦ h.1 g' (.tail _ hg'), (pairwise_cons.1 h.2).2⟩

theorem Grouped.ne_of_cons (h : Grouped (g :: groups)) {u : Target} (ht : t ∈ g)
    (hu : u ∈ groups.flatten) : t.kind ≠ u.kind := by
  obtain ⟨g', hg', hu⟩ := mem_flatten.1 hu
  exact (pairwise_cons.1 h.2).1 g' hg' t ht u hu

theorem mem_flatten_of_head (h : t ∈ (dealRound groups).1) : t ∈ groups.flatten :=
  (dealRound_perm groups).mem_iff.1 (mem_append_left _ h)

theorem mem_flatten_of_tail (h : t ∈ (dealRound groups).2.flatten) :
    t ∈ groups.flatten :=
  (dealRound_perm groups).mem_iff.1 (mem_append_right _ h)

/-- What is left after a round is still grouped. -/
theorem Grouped.dealRound (h : Grouped groups) : Grouped (dealRound groups).2 := by
  constructor
  · intro g hg t ht u hu
    obtain ⟨g', hg', rfl⟩ := mem_map.1 hg
    exact h.1 g' hg' t (mem_of_mem_tail ht) u (mem_of_mem_tail hu)
  · refine pairwise_map.2 (h.2.imp fun hgh t ht u hu ↦ ?_)
    exact hgh t (mem_of_mem_tail ht) u (mem_of_mem_tail hu)

/-- A round deals a kind's first target, and leaves the others in their order. -/
theorem ofKind_dealRound (h : Grouped groups) (kind : ScanKind) :
    ofKind kind (dealRound groups).1 ++ ofKind kind (dealRound groups).2.flatten
      = ofKind kind groups.flatten := by
  induction groups with
  | nil => rfl
  | cons g groups ih =>
    rcases g with _ | ⟨t, ts⟩
    · exact ih h.of_cons
    have hfirst : ∀ u ∈ (dealRound groups).1, t.kind ≠ u.kind := fun u hu ↦
      h.ne_of_cons (.head _) (mem_flatten_of_head hu)
    show ofKind kind (t :: (dealRound groups).1) ++ ofKind kind (ts ++ (dealRound groups).2.flatten)
      = ofKind kind ((t :: ts) ++ groups.flatten)
    rw [ofKind_append, ofKind_append, ← ih h.of_cons]
    by_cases hk : t.kind = kind
    · -- no other group has targets of this kind
      have hnone : ofKind kind (dealRound groups).1 = [] :=
        ofKind_eq_nil fun u hu ↦ (hk ▸ hfirst u hu).symm
      rw [ofKind_cons_of_eq hk, ofKind_cons_of_eq hk, hnone]
      rfl
    · have hts : ofKind kind ts = [] := ofKind_eq_nil fun u hu ↦ by
        rw [← h.1 _ (.head _) t (.head _) u (.tail _ hu)]
        exact hk
      rw [ofKind_cons_of_ne hk, ofKind_cons_of_ne hk, hts]
      rfl

/-- Whoever has targets left after a round was dealt one in it. -/
theorem length_ofKind_dealRound (h : Grouped groups)
    (ht : t ∈ (dealRound groups).2.flatten) : (ofKind t.kind (dealRound groups).1).length = 1 := by
  induction groups with
  | nil => cases ht
  | cons g groups ih =>
    rcases g with _ | ⟨u, us⟩
    · exact ih h.of_cons ht
    have hfirst : ∀ v ∈ (dealRound groups).1, u.kind ≠ v.kind := fun v hv ↦
      h.ne_of_cons (.head _) (mem_flatten_of_head hv)
    show (ofKind t.kind (u :: (dealRound groups).1)).length = 1
    rcases mem_append.1 (show t ∈ us ++ (dealRound groups).2.flatten from ht) with ht | ht
    · have hkind : u.kind = t.kind :=
        h.1 _ (.head _) u (.head _) t (.tail _ ht)
      rw [ofKind_cons_of_eq hkind, ofKind_eq_nil fun v hv ↦ (hkind ▸ hfirst v hv).symm]
      rfl
    · have hkind : u.kind ≠ t.kind :=
        h.ne_of_cons (.head _) (mem_flatten_of_tail ht)
      rw [ofKind_cons_of_ne hkind]
      exact ih h.of_cons ht

/-- No kind is dealt two targets in one round. -/
theorem length_ofKind_dealRound_le (h : Grouped groups) (kind : ScanKind) :
    (ofKind kind (dealRound groups).1).length ≤ 1 := by
  induction groups with
  | nil => exact Nat.zero_le 1
  | cons g groups ih =>
    rcases g with _ | ⟨u, us⟩
    · exact ih h.of_cons
    show (ofKind kind (u :: (dealRound groups).1)).length ≤ 1
    by_cases hk : u.kind = kind
    · rw [ofKind_cons_of_eq hk, ofKind_eq_nil fun v hv ↦ (hk ▸ h.ne_of_cons (.head _)
        (mem_flatten_of_head hv)).symm]
      exact le_rfl
    · rw [ofKind_cons_of_ne hk]
      exact ih h.of_cons

/-! ### Rounds -/

/-- Of any two kinds that have targets in `later`, `dealt` holds at most one more of the first. -/
def Fair (dealt later : List Target) : Prop :=
  ∀ t ∈ later, ∀ u ∈ later, (ofKind t.kind dealt).length ≤ (ofKind u.kind dealt).length + 1

/-- What is known between two rounds of dealing out `queue`. -/
structure Dealt (queue : List Target) (s : List (List Target) × List Target) : Prop where
  grouped : Grouped s.1
  /-- Each kind's targets are dealt in the order they were queued. -/
  order : ∀ kind, ofKind kind s.2 ++ ofKind kind s.1.flatten = ofKind kind queue
  /-- All kinds with targets left were dealt equally many. -/
  even : ∀ t ∈ s.1.flatten, ∀ u ∈ s.1.flatten,
    (ofKind t.kind s.2).length = (ofKind u.kind s.2).length
  /-- Wherever the dealing is cut, it was fair. -/
  fair : ∀ dealt later, s.2 = dealt ++ later → Fair dealt (later ++ s.1.flatten)

theorem Dealt.round {queue out : List Target} (h : Dealt queue (groups, out)) :
    Dealt queue ((dealRound groups).2, out ++ (dealRound groups).1) := by
  have hgrouped : Grouped groups := h.grouped
  refine ⟨hgrouped.dealRound, fun kind ↦ ?_, fun t ht u hu ↦ ?_, fun dealt later hcut ↦ ?_⟩
  · show ofKind kind (out ++ (dealRound groups).1) ++ ofKind kind (dealRound groups).2.flatten = _
    rw [ofKind_append, append_assoc, ofKind_dealRound hgrouped]
    exact h.order kind
  · show (ofKind t.kind (out ++ (dealRound groups).1)).length
      = (ofKind u.kind (out ++ (dealRound groups).1)).length
    rw [ofKind_append, ofKind_append, length_append, length_append,
      length_ofKind_dealRound hgrouped ht, length_ofKind_dealRound hgrouped hu,
      h.even t (mem_flatten_of_tail ht) u (mem_flatten_of_tail hu)]
  · rcases append_eq_append_iff.1 hcut with ⟨more, hdealt, hheads⟩ | ⟨rest, hout, hlater⟩
    · -- the cut is in this round
      have hleft : ∀ t ∈ later ++ (dealRound groups).2.flatten, t ∈ groups.flatten := by
        intro t ht
        rcases mem_append.1 ht with ht | ht
        · refine mem_flatten_of_head ?_
          rw [hheads]
          exact mem_append_right _ ht
        · exact mem_flatten_of_tail ht
      intro t ht u hu
      have hround := length_ofKind_dealRound_le hgrouped t.kind
      have heven : (ofKind t.kind out).length = (ofKind u.kind out).length :=
        h.even t (hleft t ht) u (hleft u hu)
      rw [hheads, ofKind_append, length_append] at hround
      rw [hdealt, ofKind_append, ofKind_append, length_append, length_append]
      omega
    · have hleft : ∀ t ∈ later ++ (dealRound groups).2.flatten, t ∈ rest ++ groups.flatten := by
        intro t ht
        rw [hlater, append_assoc] at ht
        exact ((dealRound_perm groups).append_left rest).mem_iff.1 ht
      exact fun t ht u hu ↦ h.fair dealt rest hout t (hleft t ht) u (hleft u hu)

/-! ### Grouping the queue -/

/-- Each kind is listed once, with targets of its own. -/
def Filed (groups : List (String × List Target)) : Prop :=
  (∀ g ∈ groups, ∀ t ∈ g.2, t.kind.command = g.1) ∧ (groups.map Prod.fst).Nodup

theorem map_fst_addToKind (groups : List (String × List Target)) (t : Target) :
    (addToKind groups t).map Prod.fst =
      if t.kind.command ∈ groups.map Prod.fst then groups.map Prod.fst
      else groups.map Prod.fst ++ [t.kind.command] := by
  induction groups with
  | nil => rfl
  | cons g groups ih =>
    obtain ⟨kind, targets⟩ := g
    rw [addToKind]
    split
    · rename_i heq
      rw [if_pos (heq ▸ (.head _))]
      rfl
    · rename_i hne
      rw [map_cons, ih, map_cons]
      by_cases hmem : t.kind.command ∈ groups.map Prod.fst
      · rw [if_pos hmem, if_pos (.tail _ hmem)]
      · rw [if_neg hmem, if_neg fun h ↦ (mem_cons.1 h).elim (fun h ↦ hne h.symm) hmem]
        rfl

theorem mem_addToKind {groups : List (String × List Target)}
    {g : String × List Target} (hg : g ∈ addToKind groups t) (h : ∀ g ∈ groups, ∀ u ∈ g.2,
      u.kind.command = g.1) : ∀ u ∈ g.2, u.kind.command = g.1 := by
  induction groups with
  | nil =>
    obtain rfl := mem_singleton.1 hg
    exact fun u hu ↦ by rw [mem_singleton.1 hu]
  | cons head groups ih =>
    obtain ⟨kind, targets⟩ := head
    have htail := fun g' hg' ↦ h g' (.tail _ hg')
    rw [addToKind] at hg
    split at hg
    · rename_i heq
      rcases mem_cons.1 hg with rfl | hg
      · intro u hu
        rcases mem_append.1 hu with hu | hu
        · exact h _ (.head _) u hu
        · rw [mem_singleton.1 hu, heq]
      · exact htail g hg
    · rcases mem_cons.1 hg with rfl | hg
      · exact h _ (.head _)
      · exact ih hg htail

theorem Filed.addToKind {groups : List (String × List Target)} (h : Filed groups) (t : Target) :
    Filed (addToKind groups t) := by
  refine ⟨fun g hg ↦ mem_addToKind hg h.1, ?_⟩
  rw [map_fst_addToKind]
  split
  · exact h.2
  · rename_i hnew
    refine nodup_append.2 ⟨h.2, nodup_singleton _, ?_⟩
    rintro a ha b hb rfl
    exact hnew (mem_singleton.1 hb ▸ ha)

theorem Filed.grouped {groups : List (String × List Target)} (h : Filed groups) :
    Grouped (groups.map Prod.snd) := by
  constructor
  · intro g hg t ht u hu
    obtain ⟨file, hfile, rfl⟩ := mem_map.1 hg
    exact ScanKind.command_injective ((h.1 file hfile t ht).trans (h.1 file hfile u hu).symm)
  · refine pairwise_map.2 ((pairwise_map.1 h.2).imp_of_mem ?_)
    intro a b ha hb hne t ht u hu hkind
    exact hne ((h.1 a ha t ht).symm.trans (hkind ▸ h.1 b hb u hu))

/-- A filed target stands behind the others of its kind. -/
theorem ofKind_addToKind {groups : List (String × List Target)} (h : Filed groups) (t : Target)
    (kind : ScanKind) : ofKind kind ((addToKind groups t).map Prod.snd).flatten
      = ofKind kind (groups.map Prod.snd).flatten ++ ofKind kind [t] := by
  induction groups with
  | nil => rfl
  | cons head groups ih =>
    obtain ⟨word, targets⟩ := head
    have hgrouped := h.grouped
    have htail : Filed groups :=
      ⟨fun g hg ↦ h.1 g (.tail _ hg), (nodup_cons.1 h.2).2⟩
    rw [Frontier.addToKind]
    split
    · rename_i heq
      show ofKind kind ((targets ++ [t]) ++ (groups.map Prod.snd).flatten)
        = ofKind kind (targets ++ (groups.map Prod.snd).flatten) ++ ofKind kind [t]
      rw [ofKind_append, ofKind_append, ofKind_append, append_assoc, append_assoc]
      congr 1
      by_cases hk : t.kind = kind
      · have hnone : ofKind kind (groups.map Prod.snd).flatten = [] := by
          refine ofKind_eq_nil fun u hu huk ↦ (nodup_cons.1 h.2).1 ?_
          obtain ⟨g, hg, hu⟩ := mem_flatten.1 hu
          obtain ⟨file, hfile, rfl⟩ := mem_map.1 hg
          have hword : file.1 = word := by
            rw [heq, ← h.1 file (.tail _ hfile) u hu, huk, hk]
          exact mem_map.2 ⟨file, hfile, hword⟩
        rw [hnone, append_nil, nil_append]
      · rw [ofKind_cons_of_ne hk, ofKind_nil, nil_append, append_nil]
    · show ofKind kind (targets ++ ((Frontier.addToKind groups t).map Prod.snd).flatten)
        = ofKind kind (targets ++ (groups.map Prod.snd).flatten) ++ ofKind kind [t]
      rw [ofKind_append, ofKind_append, ih htail, append_assoc]

theorem foldl_addToKind_filed (targets : List Target) (kind : ScanKind) :
    ∀ groups, Filed groups → Filed (targets.foldl addToKind groups) ∧
      ofKind kind ((targets.foldl addToKind groups).map Prod.snd).flatten
        = ofKind kind (groups.map Prod.snd).flatten ++ ofKind kind targets := by
  induction targets with
  | nil => exact fun groups h ↦ ⟨h, (append_nil _).symm⟩
  | cons t targets ih =>
    intro groups h
    obtain ⟨hfiled, horder⟩ := ih _ (h.addToKind t)
    refine ⟨hfiled, ?_⟩
    rw [foldl_cons, horder, ofKind_addToKind h, append_assoc, ← ofKind_append]
    rfl

theorem dealt_start (queue : List Target) :
    Dealt queue ((queue.foldl addToKind []).map Prod.snd, []) := by
  have hnil : Filed [] := ⟨nofun, nodup_nil⟩
  refine ⟨(foldl_addToKind_filed queue .people [] hnil).1.grouped, fun kind ↦ ?_,
    fun _ _ _ _ ↦ rfl, fun dealt later hcut ↦ ?_⟩
  · exact (foldl_addToKind_filed queue kind [] hnil).2
  · obtain ⟨rfl, rfl⟩ := nil_eq_append_iff.1 hcut
    exact fun _ _ _ _ ↦ Nat.zero_le _

/-- The rounds of dealing keep each kind's order and are fair wherever they are cut. -/
theorem intoQueue_dealt (frontier : Frontier) : Dealt frontier.queue ([], frontier.intoQueue) := by
  refine Loop.run_inv (Dealt frontier.queue) (fun out ↦ Dealt frontier.queue ([], out)) ?_ ?_
    (dealt_start frontier.queue)
  · rintro ⟨groups, out⟩ s' hdealt h
    obtain ⟨-, rfl⟩ := dealPass_again h
    exact hdealt.round
  · rintro ⟨groups, out⟩ result hdealt h
    rw [dealPass] at h
    split at h
    · rename_i hnil
      cases h
      have hempty : groups.flatten = [] := by
        refine flatten_eq_nil_iff.2 fun g hg ↦ head?_eq_none_iff.1 ?_
        exact filterMap_eq_nil_iff.1 hnil g hg
      refine ⟨⟨fun g hg ↦ absurd hg not_mem_nil, List.Pairwise.nil⟩, fun kind ↦ ?_, ?_, ?_⟩
      · have horder := hdealt.order kind
        rwa [hempty] at horder
      · exact fun t ht ↦ absurd ht not_mem_nil
      · intro dealt later hcut
        have hfair := hdealt.fair dealt later hcut
        rwa [hempty] at hfair
    · cases h

/-- **Dispatch order is fair**: it reorders the targets that were queued, keeps each kind's targets
in the order they were queued, and wherever it is cut, of two kinds that still have targets after
the cut neither is more than one ahead. -/
theorem intoQueue_fair (targets : List Target) :
    let frontier := Frontier.empty.pushAll targets
    frontier.intoQueue.Perm frontier.queue ∧
      (∀ kind, ofKind kind frontier.intoQueue = ofKind kind frontier.queue) ∧
      ∀ dealt later, frontier.intoQueue = dealt ++ later → Fair dealt later := by
  intro frontier
  have hdealt := intoQueue_dealt frontier
  refine ⟨frontier.intoQueue_perm, fun kind ↦ ?_, fun dealt later hcut ↦ ?_⟩
  · have horder := hdealt.order kind
    rwa [flatten_nil, ofKind_nil, append_nil] at horder
  · have hfair := hdealt.fair dealt later hcut
    rwa [flatten_nil, append_nil] at hfair

/-! ## What a capped generation admits -/

/-- Queue a candidate in a generation capped at `cap`, unless it is queued already or there is no
room for its kind. -/
def offer (cap : ℕ) (frontier : Frontier) (candidate : Target) : Frontier :=
  if frontier.containsKey candidate.ownedKey then frontier
  else if frontier.fullFor candidate.kind.command cap then frontier
  else (frontier.push candidate).1

/-- The half of a cap, rounded up, that one kind may hold. -/
def half (cap : ℕ) : ℕ := (cap + 1) / 2

/-- The targets of the other kinds. -/
def ofOthers (kind : ScanKind) (targets : List Target) : List Target :=
  targets.filter fun t ↦ t.kind ≠ kind

theorem mem_ofOthers {targets : List Target} :
    t ∈ ofOthers kind targets ↔ t ∈ targets ∧ t.kind ≠ kind := by
  rw [ofOthers, mem_filter, decide_eq_true_eq]

theorem length_ofKind_add_ofOthers (kind : ScanKind) (targets : List Target) :
    (ofKind kind targets).length + (ofOthers kind targets).length = targets.length := by
  rw [ofKind, ofOthers, ← countP_eq_length_filter, ← countP_eq_length_filter,
    length_eq_countP_add_countP fun t : Target ↦ decide (t.kind = kind)]
  simp only [decide_not, decide_eq_true_eq]

/-- The distinct lookups that the other kinds offer. -/
def otherKeys (kind : ScanKind) (targets : List Target) : Finset Key :=
  ((ofOthers kind targets).map Target.ownedKey).toFinset

theorem fullFor_iff {frontier : Frontier} {cap : ℕ} :
    frontier.fullFor kind.command cap = true ↔ cap ≤ frontier.queue.length ∨
      max (half cap) 1 ≤ (ofKind kind frontier.queue).length := by
  have hcount : frontier.perKind.getD kind.command 0 = (ofKind kind frontier.queue).length := by
    rw [frontier.perKind_eq, ofKind, ← countP_eq_length_filter]
    simp only [ScanKind.command_injective.eq_iff]
  rw [fullFor, Bool.or_eq_true, decide_eq_true_eq, decide_eq_true_eq, hcount]
  rfl

/-- What is known of a queue that only `offer` made grow. -/
structure Capped (cap : ℕ) (offered : List Target) (frontier : Frontier) : Prop where
  /-- It is no longer than the cap. -/
  length : frontier.queue.length ≤ cap
  /-- No kind holds more than half of the cap. -/
  kinds : ∀ kind, (ofKind kind frontier.queue).length ≤ half cap
  /-- Whatever is queued was offered. -/
  offered : frontier.queue ⊆ offered

variable {cap : ℕ} {offered : List Target} {frontier : Frontier}

theorem Capped.offer (h : Capped cap offered frontier) (t : Target) :
    Capped cap (offered ++ [t]) (frontier.offer cap t) := by
  have hsame : Capped cap (offered ++ [t]) frontier :=
    ⟨h.length, h.kinds, List.Subset.trans h.offered (subset_append_left _ _)⟩
  rw [Frontier.offer]
  split
  · exact hsame
  rename_i hnew
  split
  · exact hsame
  rename_i hroom
  rw [containsKey_iff] at hnew
  rw [fullFor_iff, not_or, not_le, not_le] at hroom
  have hqueue := queue_push_of_notMem hnew
  refine ⟨?_, fun kind ↦ ?_, ?_⟩
  · rw [hqueue, length_append]
    exact hroom.1
  · rw [hqueue, ofKind_append, length_append]
    by_cases hk : t.kind = kind
    · rw [ofKind_cons_of_eq hk, ofKind_nil, length_singleton, ← hk]
      have hpos : 0 < cap := (Nat.zero_le _).trans_lt hroom.1
      have hhalf : max (half cap) 1 = half cap := max_eq_left (by rw [half]; omega)
      rw [hhalf] at hroom
      exact hroom.2
    · rw [ofKind_cons_of_ne hk, ofKind_nil]
      exact h.kinds kind
  · rw [hqueue]
    exact append_subset.2 ⟨hsame.offered, subset_append_right _ _⟩

/-- While the other kinds have offered less than half of the cap there is room for one more of
theirs, whatever the one kind holds. -/
theorem Capped.room (h : Capped cap offered frontier)
    {targets : List Target} (hother : t.kind ≠ kind) (hoffered : offered ++ [t] ⊆ targets)
    (hnew : t.ownedKey ∉ frontier.seen) (hfew : (otherKeys kind targets).card ≤ cap / 2) :
    frontier.fullFor t.kind.command cap = false := by
  have hothers : (ofOthers kind frontier.queue).length < cap / 2 := by
    have hnodup : (t.ownedKey :: (ofOthers kind frontier.queue).map Target.ownedKey).Nodup := by
      refine nodup_cons.2 ⟨fun hmem ↦ hnew ?_, ?_⟩
      · obtain ⟨u, hu, hkey⟩ := mem_map.1 hmem
        exact hkey ▸ mem_seen_of_mem_queue (mem_ofOthers.1 hu).1
      · exact frontier.nodup.sublist (filter_sublist.map _)
    have hsub : (t.ownedKey :: (ofOthers kind frontier.queue).map Target.ownedKey).toFinset
        ⊆ otherKeys kind targets := by
      intro key hkey
      rw [mem_toFinset, mem_cons] at hkey
      rw [otherKeys, mem_toFinset, mem_map]
      rcases hkey with rfl | hkey
      · exact ⟨t, mem_ofOthers.2 ⟨hoffered (mem_append_right _ (.head _)),
          hother⟩, rfl⟩
      · obtain ⟨u, hu, rfl⟩ := mem_map.1 hkey
        rw [mem_ofOthers] at hu
        exact ⟨u, mem_ofOthers.2 ⟨hoffered (mem_append_left _ (h.offered hu.1)), hu.2⟩, rfl⟩
    have hcard := Finset.card_le_card hsub
    rw [toFinset_card_of_nodup hnodup, length_cons, length_map] at hcard
    exact hcard.trans hfew
  have hsum := length_ofKind_add_ofOthers kind frontier.queue
  have hkind := h.kinds kind
  have hmine : (ofKind t.kind frontier.queue).length ≤ (ofOthers kind frontier.queue).length := by
    refine (monotone_filter_right _ fun u hu ↦ ?_).length_le
    rw [decide_eq_true_eq] at hu ⊢
    exact hu ▸ hother
  rw [Bool.eq_false_iff, Ne, fullFor_iff, not_or, not_le, not_le]
  rw [half] at hkind ⊢
  omega

end Frontier

end Huntsman
