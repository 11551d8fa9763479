import Huntsman.Merge.Entities

/-!
# The spellings of a username

A username entity stands for the spellings its handle was observed under, each at the highest
confidence it was observed at.  `Entity.observedSpellings` reads them; they are written down only
where they say more than the entity's own spelling at its confidence, so most of the time they
follow from `rawValue`, `confidence` and `evidence`, all of which a merge changes.

Read as a map from what a spelling is looked up under (`routeConfidence`), absorbing one more entity
is the pointwise maximum, and so is any sequence of them (`Entity.absorb_observedSpellings`).
-/

set_option autoImplicit false

namespace Huntsman

open List

open Std (TreeMap LawfulEqCmp)

/-! ## The values of an attribute -/

/-- What follows a separator is split by itself. -/
theorem splitAux_valueSeparator (rest : List Char) : ∀ value piece : List Char,
    Text.splitAux valueSeparator.toList 0 piece (value ++ (valueSeparator.toList ++ rest)) =
      Text.splitAux valueSeparator.toList 0 piece value ++
        Text.splitAux valueSeparator.toList 0 [] rest
  | [], piece => rfl
  | [c], piece => by
    -- the character is no separator alone, nor with the one that follows
    have hnot : ∀ tail : List Char, tail = [] ∨ tail.head? = some ';' →
        valueSeparator.toList.isPrefixOf (c :: tail) = false := by
      rintro (_ | ⟨d, tail⟩) h
      · show (';' == c && false) = false
        rw [Bool.and_false]
      · obtain rfl : d = ';' := by simpa using h
        show (';' == c && ((' ' == ';') && _)) = false
        rw [show (' ' == ';') = false from rfl, Bool.false_and, Bool.and_false]
    rw [singleton_append, Text.splitAux, hnot _ (.inr rfl), if_neg Bool.false_ne_true,
      Text.splitAux, hnot _ (.inl rfl), if_neg Bool.false_ne_true]
    rfl
  | c :: d :: value, piece => by
    have hsame : valueSeparator.toList.isPrefixOf
        (c :: d :: value ++ (valueSeparator.toList ++ rest)) =
          valueSeparator.toList.isPrefixOf (c :: d :: value) := rfl
    rw [cons_append, Text.splitAux, Text.splitAux]
    rw [cons_append] at hsame
    rw [hsame]
    split
    · have hskip : ∀ tail : List Char,
          Text.splitAux valueSeparator.toList (valueSeparator.toList.length - 1) [] (d :: tail) =
            Text.splitAux valueSeparator.toList 0 [] tail := fun _ ↦ rfl
      rw [cons_append, hskip, hskip, splitAux_valueSeparator rest value [], cons_append]
    · rw [splitAux_valueSeparator rest (d :: value) (c :: piece)]

/-- **A value that stands in a text is among the text's values**, or its values are. -/
theorem Stands.pieces {held value : List Char} (h : Stands held value) :
    ∀ piece ∈ Text.splitAux valueSeparator.toList 0 [] value,
      piece ∈ Text.splitAux valueSeparator.toList 0 [] held := by
  intro piece hpiece
  obtain ⟨before, after, rfl, hbefore, hafter⟩ := h
  have hend : piece ∈ Text.splitAux valueSeparator.toList 0 [] (value ++ after) := by
    rcases hafter with rfl | ⟨after, rfl⟩
    · rwa [append_nil]
    · rw [splitAux_valueSeparator]
      exact mem_append_left _ hpiece
  rcases hbefore with rfl | ⟨before, rfl⟩
  · exact hend
  · rw [append_assoc, splitAux_valueSeparator]
    exact mem_append_right _ hend

/-- Folding keeps the values of an attribute. -/
theorem Evidence.Covers.attrValues {kept record : Evidence} (h : kept.Covers record)
    (key : String) : ∀ value ∈ record.attrValues key, value ∈ kept.attrValues key := by
  intro value hvalue
  rw [Evidence.attrValues] at hvalue
  split at hvalue
  · cases hvalue
  · rename_i text htext
    obtain ⟨held, hheld, hholds⟩ := h.values key text htext
    rw [Evidence.attrValues, hheld]
    simp only [mem_filter, mem_map, Text.split] at hvalue ⊢
    obtain ⟨⟨piece, ⟨chars, hchars, rfl⟩, rfl⟩, hne⟩ := hvalue
    exact ⟨⟨_, ⟨chars, (holdsWhole_iff.1 hholds).pieces chars hchars, rfl⟩, rfl⟩, hne⟩

/-! ## Records nobody observed -/

/-- A record that only guesses the entity, or was asked it. -/
def Evidence.Guessed (record : Evidence) : Prop :=
  record.isInferred = true ∨ record.isOperatorSeed = true

variable {entity : Entity} {spellings : TreeMap String F64} {s : String}

theorem Entity.isObserved_eq_false :
    entity.isObserved = false ↔ entity.evidence ≠ [] ∧ ∀ r ∈ entity.evidence, r.Guessed := by
  rw [Entity.isObserved, Bool.or_eq_false_iff, any_eq_false]
  refine and_congr (by simp) (forall₂_congr fun r _ ↦ ?_)
  rw [Evidence.Guessed]
  cases r.isInferred <;> cases r.isOperatorSeed <;> simp

theorem Evidence.Covers.isOperatorSeed {kept record : Evidence} (h : kept.Covers record)
    (hseed : record.isOperatorSeed = true) : kept.isOperatorSeed = true := by
  rw [Evidence.isOperatorSeed, Bool.or_eq_true] at hseed ⊢
  rw [h.source]
  refine hseed.imp id fun hrole ↦ ?_
  obtain ⟨role, hmem, heq⟩ := any_eq_true.1 hrole
  exact any_eq_true.2 ⟨role, h.attrValues _ role hmem, heq⟩

/-- What a guess is merged with stays a guess. -/
theorem mergeEvidence_guessed {existing incoming : Evidence}
    (hsource : existing.provenance.source = incoming.provenance.source)
    (hsummary : existing.summary = incoming.summary) (h : existing.Guessed) :
    (mergeEvidence existing incoming).Guessed := by
  rcases h with h | h
  · refine .inl ?_
    obtain ⟨merged, hmerged, -⟩ := keepObservations_spec
      { existing with
        attributes := incoming.attributes.toList.foldl foldAttribute existing.attributes
        verification := existing.verification.or incoming.verification
        isInferred := existing.isInferred || incoming.isInferred
        ancestryNode := existing.ancestryNode.or incoming.ancestryNode }
      incoming.provenance incoming.mergedProvenance
    have heq : mergeEvidence existing incoming = _ := hmerged
    rw [heq]
    show (existing.isInferred || incoming.isInferred) = true
    rw [h, Bool.true_or]
  · exact .inr ((mergeEvidence_covers hsource hsummary).1.isOperatorSeed h)

variable {parsesAsJson : String → Bool}

variable (parsesAsJson) in
theorem absorbEvidence_guessed {evidence : Evidence} (hevidence : evidence.Guessed)
    (records : List Evidence) (h : ∀ r ∈ records, r.Guessed) :
    absorbEvidence parsesAsJson records evidence ≠ [] ∧
      ∀ r ∈ absorbEvidence parsesAsJson records evidence, r.Guessed := by
  induction records with
  | nil => exact ⟨cons_ne_nil _ _, fun r hr ↦ mem_singleton.1 hr ▸ hevidence⟩
  | cons current rest ih =>
    have hrest := fun r hr ↦ h r (.tail _ hr)
    rw [absorbEvidence]
    split
    · rename_i hsame
      obtain ⟨hsource, hsummary⟩ := sameEvidenceIdentity_same hsame
      refine ⟨cons_ne_nil _ _, fun r hr ↦ ?_⟩
      rcases mem_cons.1 hr with rfl | hr
      · exact mergeEvidence_guessed hsource hsummary (h current (.head _))
      · exact hrest r hr
    · refine ⟨cons_ne_nil _ _, fun r hr ↦ ?_⟩
      rcases mem_cons.1 hr with rfl | hr
      · exact h r (.head _)
      · exact (ih hrest).2 r hr

theorem foldl_absorbEvidence_guessed (incoming : List Evidence)
    (hincoming : ∀ r ∈ incoming, r.Guessed) (records : List Evidence) (hne : records ≠ [])
    (h : ∀ r ∈ records, r.Guessed) :
    incoming.foldl (absorbEvidence parsesAsJson) records ≠ [] ∧
      ∀ r ∈ incoming.foldl (absorbEvidence parsesAsJson) records, r.Guessed := by
  induction incoming generalizing records with
  | nil => exact ⟨hne, h⟩
  | cons evidence incoming ih =>
    obtain ⟨hne', h'⟩ := absorbEvidence_guessed parsesAsJson
      (hincoming evidence (.head _)) records h
    exact ih (fun r hr ↦ hincoming r (.tail _ hr)) _ hne' h'

/-! ## Spellings by what they are looked up under -/

/-- At most one spelling for each lookup. -/
def RouteUnique (spellings : TreeMap String F64) : Prop :=
  ∀ s t : String, s ∈ spellings → t ∈ spellings → handleRouteKey s = handleRouteKey t → s = t

theorem routeUnique_empty : RouteUnique ∅ := fun _ _ hs ↦ absurd hs TreeMap.not_mem_emptyc

/-- The confidence of the spelling that is looked up under `route`. -/
def routeConfidence (spellings : TreeMap String F64) (route : String) : Option F64 :=
  (spellings.toList.find? fun pair ↦ handleRouteKey pair.1 == route).map Prod.snd

theorem mem_iff_toList :
    s ∈ spellings ↔ ∃ confidence, (s, confidence) ∈ spellings.toList := by
  simp only [TreeMap.mem_toList_iff_getElem?_eq_some]
  rw [TreeMap.mem_iff_isSome_getElem?, Option.isSome_iff_exists]

/-- What is looked up, and how often, is read off the list of spellings. -/
theorem RouteUnique.congr {left right : TreeMap String F64} (h : RouteUnique left)
    (hlist : left.toList = right.toList) : RouteUnique right := by
  intro s t hs ht
  rw [mem_iff_toList, ← hlist, ← mem_iff_toList] at hs ht
  exact h s t hs ht

theorem routeConfidence_eq_none {route : String} :
    routeConfidence spellings route = none ↔ ∀ s ∈ spellings, handleRouteKey s ≠ route := by
  simp only [routeConfidence, Option.map_eq_none_iff, find?_eq_none, beq_iff_eq]
  constructor
  · intro h s hs
    obtain ⟨confidence, hpair⟩ := mem_iff_toList.1 hs
    exact h (s, confidence) hpair
  · intro h pair hpair
    exact h pair.1 (mem_iff_toList.2 ⟨pair.2, hpair⟩)

/-- A spelling that was found is there, under the route. -/
theorem of_routeConfidence {route : String} {confidence : F64}
    (h : routeConfidence spellings route = some confidence) :
    ∃ s, spellings[s]? = some confidence ∧ handleRouteKey s = route := by
  obtain ⟨pair, hfind, rfl⟩ := Option.map_eq_some_iff.1 h
  have hroute := find?_some hfind
  exact ⟨pair.1, TreeMap.mem_toList_iff_getElem?_eq_some.1 (mem_of_find?_eq_some hfind),
    beq_iff_eq.1 hroute⟩

theorem RouteUnique.routeConfidence (h : RouteUnique spellings)
    {confidence : F64} (hs : spellings[s]? = some confidence) :
    routeConfidence spellings (handleRouteKey s) = some confidence := by
  have hmem : s ∈ spellings := TreeMap.mem_iff_isSome_getElem?.2 (by rw [hs]; rfl)
  rcases hfound : Huntsman.routeConfidence spellings (handleRouteKey s) with _ | found
  · exact absurd rfl (routeConfidence_eq_none.1 hfound s hmem)
  · obtain ⟨t, ht, hroute⟩ := of_routeConfidence hfound
    have htmem : t ∈ spellings := TreeMap.mem_iff_isSome_getElem?.2 (by rw [ht]; rfl)
    rw [h t s htmem hmem hroute, hs] at ht
    rw [ht]

/-- Keep one more spelling, or raise the confidence of the one that is looked up as it is. -/
def addSpelling (spellings : TreeMap String F64) (item : String × F64) : TreeMap String F64 :=
  match spellings.toList.find? fun pair ↦ handleRouteKey pair.1 == handleRouteKey item.1 with
  | some (kept, held) => spellings.insert kept (held.max item.2)
  | none => spellings.insert item.1 item.2

theorem mergeSpellings_eq (mine other : TreeMap String F64) :
    Entity.mergeSpellings mine other = other.toList.foldl addSpelling mine := rfl

/-- The spellings with one of them put in, where no other is looked up as it is. -/
theorem RouteUnique.insert (h : RouteUnique spellings)
    (hs : ∀ t ∈ spellings, handleRouteKey t = handleRouteKey s → t = s)
    (confidence : F64) :
    RouteUnique (spellings.insert s confidence) ∧ ∀ route,
      Huntsman.routeConfidence (spellings.insert s confidence) route =
        if handleRouteKey s = route then some confidence
        else Huntsman.routeConfidence spellings route := by
  have hunique : RouteUnique (spellings.insert s confidence) := by
    intro t u ht hu hroute
    rw [TreeMap.mem_insert, LawfulEqCmp.compare_eq_iff_eq] at ht hu
    rcases ht with rfl | ht <;> rcases hu with rfl | hu
    · rfl
    · exact (hs u hu hroute.symm).symm
    · exact hs t ht hroute
    · exact h t u ht hu hroute
  refine ⟨hunique, fun route ↦ ?_⟩
  split
  · rename_i hroute
    rw [← hroute]
    exact hunique.routeConfidence TreeMap.getElem?_insert_self
  · rename_i hroute
    rcases hfound : Huntsman.routeConfidence spellings route with _ | found
    · rw [routeConfidence_eq_none] at hfound ⊢
      intro t ht
      rw [TreeMap.mem_insert, LawfulEqCmp.compare_eq_iff_eq] at ht
      rcases ht with rfl | ht
      · exact hroute
      · exact hfound t ht
    · obtain ⟨t, ht, rfl⟩ := of_routeConfidence hfound
      refine hunique.routeConfidence ?_
      rw [TreeMap.getElem?_insert, if_neg, ht]
      rw [LawfulEqCmp.compare_eq_iff_eq]
      rintro rfl
      exact hroute rfl

/-- **One more spelling is one more confidence under its route**, and nothing under any other. -/
theorem RouteUnique.add (h : RouteUnique spellings)
    (item : String × F64) :
    RouteUnique (addSpelling spellings item) ∧ ∀ route,
      Huntsman.routeConfidence (addSpelling spellings item) route =
        Option.merge F64.max (Huntsman.routeConfidence spellings route)
          (if handleRouteKey item.1 = route then some item.2 else none) := by
  unfold addSpelling
  split
  · rename_i kept held hfind
    have hkept : spellings[kept]? = some held :=
      TreeMap.mem_toList_iff_getElem?_eq_some.1 (mem_of_find?_eq_some hfind)
    have hmem : kept ∈ spellings := TreeMap.mem_iff_isSome_getElem?.2 (by rw [hkept]; rfl)
    have hsame : handleRouteKey kept = handleRouteKey item.1 := by
      simpa using find?_some hfind
    obtain ⟨hunique, hroutes⟩ := h.insert (s := kept)
      (fun t ht hroute ↦ h t kept ht hmem hroute) (held.max item.2)
    refine ⟨hunique, fun route ↦ ?_⟩
    rw [hroutes, hsame]
    split
    · rename_i hroute
      rw [← hroute, ← hsame, h.routeConfidence hkept]
      rfl
    · rw [Option.merge_none_right]
  · rename_i hfind
    have hnone : ∀ t ∈ spellings, handleRouteKey t ≠ handleRouteKey item.1 := by
      rw [← routeConfidence_eq_none, Huntsman.routeConfidence, hfind]
      rfl
    obtain ⟨hunique, hroutes⟩ := h.insert (s := item.1)
      (fun t ht hroute ↦ absurd hroute (hnone t ht)) item.2
    refine ⟨hunique, fun route ↦ ?_⟩
    rw [hroutes]
    split
    · rename_i hroute
      rw [← hroute, routeConfidence_eq_none.2 hnone]
      rfl
    · rw [Option.merge_none_right]

theorem RouteUnique.foldl_add (items : List (String × F64))
    (hitems : items.Pairwise fun a b ↦ handleRouteKey a.1 ≠ handleRouteKey b.1)
    (h : RouteUnique spellings) :
    RouteUnique (items.foldl addSpelling spellings) ∧ ∀ route,
      Huntsman.routeConfidence (items.foldl addSpelling spellings) route =
        Option.merge F64.max (Huntsman.routeConfidence spellings route)
          ((items.find? fun pair ↦ handleRouteKey pair.1 == route).map Prod.snd) := by
  induction items generalizing spellings with
  | nil =>
    refine ⟨h, fun route ↦ ?_⟩
    rw [find?_nil, Option.map_none, Option.merge_none_right]
    rfl
  | cons item items ih =>
    obtain ⟨hitem, hrest⟩ := pairwise_cons.1 hitems
    obtain ⟨hadd, hroutes⟩ := h.add item
    obtain ⟨hunique, hall⟩ := ih hrest hadd
    refine ⟨hunique, fun route ↦ ?_⟩
    rw [foldl_cons, hall, hroutes]
    by_cases hroute : handleRouteKey item.1 = route
    · -- no later item is looked up as this one is
      have hlater : items.find? (fun pair ↦ handleRouteKey pair.1 == route) = none := by
        rw [find?_eq_none]
        intro other hother heq
        exact hitem other hother (hroute.trans (beq_iff_eq.1 heq).symm)
      rw [hlater, if_pos hroute, find?_cons_of_pos (by simpa using hroute)]
      rw [Option.map_none, Option.merge_none_right]
      rfl
    · rw [if_neg hroute, Option.merge_none_right, find?_cons_of_neg (by simpa using hroute)]

/-- **Merging is the greater of both under each route.** -/
theorem mergeSpellings_routes {mine other : TreeMap String F64} (hmine : RouteUnique mine)
    (hother : RouteUnique other) :
    RouteUnique (Entity.mergeSpellings mine other) ∧ ∀ route,
      routeConfidence (Entity.mergeSpellings mine other) route =
        Option.merge F64.max (routeConfidence mine route) (routeConfidence other route) := by
  rw [mergeSpellings_eq]
  refine hmine.foldl_add other.toList ?_
  refine (TreeMap.distinct_keys_toList (t := other)).imp_of_mem fun {a b} ha hb hne hroute ↦ ?_
  exact hne (LawfulEqCmp.compare_eq_iff_eq.2
    (hother a.1 b.1 (mem_iff_toList.2 ⟨a.2, ha⟩) (mem_iff_toList.2 ⟨b.2, hb⟩) hroute))

/-! ## Absorbing -/

theorem F64.eq_of_eq {a b : F64} (h : a.eq b = true) : a = b := by
  rcases a with _ | a
  · cases h
  · rcases b with _ | b
    · cases h
    · exact congrArg F64.number (of_decide_eq_true h)

/-- Spellings that compare equal list the same. -/
theorem sameSpellings_toList {left right : TreeMap String F64}
    (h : Entity.sameSpellings left right = true) : left.toList = right.toList := by
  rw [Entity.sameSpellings, Bool.and_eq_true, beq_iff_eq, ← TreeMap.length_toList,
    ← TreeMap.length_toList] at h
  refine ext_getElem h.1 fun i hi hi' ↦ ?_
  have hpair := all_eq_true.1 h.2 (left.toList[i], right.toList[i])
    (mem_iff_getElem.2 ⟨i, by rw [length_zip]; omega, getElem_zip⟩)
  simp only [Bool.and_eq_true, beq_iff_eq] at hpair
  exact Prod.ext hpair.1 (F64.eq_of_eq hpair.2)

theorem sameSpellings_empty (h : spellings.isEmpty = true) :
    Entity.sameSpellings spellings ∅ = true := by
  rw [TreeMap.isEmpty_eq_size_eq_zero, beq_iff_eq] at h
  rw [Entity.sameSpellings, h, eq_nil_of_length_eq_zero (TreeMap.length_toList.trans h)]
  rfl

theorem foldl_addSpelling_isEmpty {items : List (String × F64)}
    (h : (items.foldl addSpelling spellings).isEmpty = true) :
    items = [] ∧ spellings.isEmpty = true := by
  induction items generalizing spellings with
  | nil => exact ⟨rfl, h⟩
  | cons item items ih =>
    have hadd := (ih h).2
    unfold addSpelling at hadd
    split at hadd
    · rw [TreeMap.isEmpty_insert] at hadd
      cases hadd
    · rw [TreeMap.isEmpty_insert] at hadd
      cases hadd

/-- A username without spellings was observed by nobody. -/
theorem Entity.observedSpellings_isEmpty (hkind : entity.kind = .username)
    (h : entity.observedSpellings.isEmpty = true) : entity.isObserved = false := by
  rw [Entity.observedSpellings] at h
  split at h
  · rename_i hwritten
    rw [h] at hwritten
    cases hwritten
  · split at h
    · rw [TreeMap.isEmpty_insert] at h
      cases h
    · rename_i hnot
      rw [not_and] at hnot
      exact Bool.eq_false_iff.2 (hnot hkind)

/-- An entity nobody observed has no spellings but those written down. -/
theorem Entity.observedSpellings_of_guessed
    (hspellings : entity.spellings.isEmpty = true) (h : entity.isObserved = false) :
    entity.observedSpellings = ∅ := by
  rw [Entity.observedSpellings, hspellings, if_neg (by simp), if_neg (by simp [h])]

variable {self other : Entity}

theorem Entity.absorb_kind (huid : self.uid = other.uid) :
    (self.absorb parsesAsJson other).kind = self.kind := by
  obtain ⟨tags, spellings, heq, -⟩ := Entity.absorb_eq parsesAsJson huid
  rw [heq]

variable (parsesAsJson) in
/-- **What a merge reads as is what it was about to write**, written or not. -/
theorem Entity.absorb_toList (huid : self.uid = other.uid) (hself : self.kind = .username)
    (hother : other.kind = .username) :
    (self.absorb parsesAsJson other).observedSpellings.toList =
      (Entity.mergeSpellings self.observedSpellings other.observedSpellings).toList := by
  obtain ⟨tags, htags, -⟩ := Entity.foldl_tag
    { self with
      confidence := self.confidence.max other.confidence
      corroboration := min (self.corroboration + other.corroboration) (2 ^ 32 - 1)
      observedAtUnix := min self.observedAtUnix other.observedAtUnix
      generation := min self.generation other.generation } other.tags
  rw [Entity.absorb, if_neg (not_not.2 huid)]
  simp only [htags]
  rw [if_pos hself]
  split
  · rename_i hsame
    exact (sameSpellings_toList hsame).symm
  · rename_i hdiffer
    rcases hempty : (Entity.mergeSpellings self.observedSpellings other.observedSpellings).isEmpty
      with _ | _
    · conv_lhs => rw [Entity.observedSpellings]
      simp only [hempty, Bool.not_false, if_true]
    · -- nobody observed either of the two, so nobody observed what they were merged into
      refine absurd ?_ hdiffer
      obtain ⟨hitems, hmine⟩ :=
        foldl_addSpelling_isEmpty (mergeSpellings_eq self.observedSpellings _ ▸ hempty)
      have htheirs : other.observedSpellings.isEmpty = true := by
        rw [← TreeMap.isEmpty_toList, hitems]
        rfl
      obtain ⟨hne, hguess⟩ :=
        Entity.isObserved_eq_false.1 (Entity.observedSpellings_isEmpty hself hmine)
      obtain ⟨-, hguess'⟩ :=
        Entity.isObserved_eq_false.1 (Entity.observedSpellings_isEmpty hother htheirs)
      refine (congrArg (Entity.sameSpellings _) (Entity.observedSpellings_of_guessed ?_ ?_)).trans
        (sameSpellings_empty hempty)
      · rfl
      · exact Entity.isObserved_eq_false.2
          (foldl_absorbEvidence_guessed other.evidence hguess' self.evidence hne hguess)

/-- The greatest of `values`, where there are any. -/
def IsGreatestOf (top : Option F64) (values : List F64) : Prop :=
  match top with
  | none => values = []
  | some top => top.IsGreatest values

theorem IsGreatestOf.toList (value : Option F64) : IsGreatestOf value value.toList := by
  rcases value with _ | _ | value
  · rfl
  · exact ⟨mem_singleton.2 rfl, fun x hx hnumber ↦ absurd (mem_singleton.1 hx) hnumber⟩
  · refine ⟨mem_singleton.2 rfl, fun x hx _ ↦ ?_⟩
    rw [mem_singleton.1 hx]
    exact decide_eq_true le_rfl

theorem IsGreatestOf.merge {top : Option F64} {values : List F64} (h : IsGreatestOf top values)
    (value : Option F64) :
    IsGreatestOf (Option.merge F64.max top value) (values ++ value.toList) := by
  rcases top with _ | top
  · obtain rfl : values = [] := h
    rw [Option.merge_none_left, nil_append]
    exact IsGreatestOf.toList value
  · rcases value with _ | value
    · rw [Option.merge_none_right, Option.toList_none, append_nil]
      exact h
    · exact F64.IsGreatest.concat h

/-- Two greatest confidences of the same ones are one. -/
theorem IsGreatestOf.unique {top top' : Option F64} {values values' : List F64}
    (h : IsGreatestOf top values) (h' : IsGreatestOf top' values')
    (hsame : ∀ x, x ∈ values ↔ x ∈ values') : top = top' := by
  rcases top with _ | top <;> rcases top' with _ | top'
  · rfl
  · obtain rfl : values = [] := h
    exact absurd ((hsame top').2 h'.1) not_mem_nil
  · obtain rfl : values' = [] := h'
    exact absurd ((hsame top).1 h.1) not_mem_nil
  · have hle := h.2 top' ((hsame top').2 h'.1)
    have hge := h'.2 top ((hsame top).1 h.1)
    rcases top with _ | a <;> rcases top' with _ | b
    · rfl
    · exact absurd (hle F64.noConfusion) Bool.false_ne_true
    · exact absurd (hge F64.noConfusion) Bool.false_ne_true
    · exact congrArg (some ∘ F64.number) (le_antisymm (of_decide_eq_true (hge F64.noConfusion))
        (of_decide_eq_true (hle F64.noConfusion)))

/-- What is written down is kept unique, and so is what follows from the rest. -/
theorem Entity.observedSpellings_unique (h : RouteUnique entity.spellings) :
    RouteUnique entity.observedSpellings := by
  rw [Entity.observedSpellings]
  split
  · exact h
  · split
    · exact (routeUnique_empty.insert (fun t ht ↦ absurd ht TreeMap.not_mem_emptyc) _).1
    · exact routeUnique_empty

variable (parsesAsJson) in
/-- What a run of merges has made of the entities that went into it. -/
theorem Entity.foldl_absorb_spellings {first : Entity} (hkind : first.kind = .username)
    (hfirst : RouteUnique first.spellings) (rest : List Entity)
    (hrest : ∀ e ∈ rest, e.kind = .username ∧ e.uid = first.uid ∧ RouteUnique e.spellings) :
    (rest.foldl (Entity.absorb parsesAsJson) first).kind = .username ∧
      (rest.foldl (Entity.absorb parsesAsJson) first).uid = first.uid ∧
      RouteUnique (rest.foldl (Entity.absorb parsesAsJson) first).observedSpellings ∧
      ∀ route, IsGreatestOf
        (routeConfidence (rest.foldl (Entity.absorb parsesAsJson) first).observedSpellings route)
        ((first :: rest).filterMap fun e ↦ routeConfidence e.observedSpellings route) := by
  induction rest using reverseRecOn with
  | nil =>
    refine ⟨hkind, rfl, Entity.observedSpellings_unique hfirst, fun route ↦ ?_⟩
    have hone := IsGreatestOf.toList (routeConfidence first.observedSpellings route)
    rcases hvalue : routeConfidence first.observedSpellings route with _ | value
    all_goals
      rw [hvalue] at hone
      simpa [hvalue] using hone
  | append_singleton rest other ih =>
    obtain ⟨hmerged, huid, hunique, hgreatest⟩ := ih fun e he ↦ hrest e (mem_append_left _ he)
    obtain ⟨hother, hotherUid, hotherUnique⟩ :=
      hrest other (mem_append_right _ (.head _))
    have hsame := huid.trans hotherUid.symm
    rw [foldl_append, foldl_cons, foldl_nil]
    obtain ⟨hboth, hroutes⟩ :=
      mergeSpellings_routes hunique (Entity.observedSpellings_unique hotherUnique)
    have hlist := Entity.absorb_toList parsesAsJson hsame hmerged hother
    refine ⟨(Entity.absorb_kind hsame).trans hmerged,
      (Entity.absorb_uid parsesAsJson _ other).trans huid, ?_, fun route ↦ ?_⟩
    · exact hboth.congr hlist.symm
    · rw [routeConfidence, hlist, ← routeConfidence, hroutes, ← cons_append,
        filterMap_append]
      have hmore := (hgreatest route).merge (routeConfidence other.observedSpellings route)
      rcases hvalue : routeConfidence other.observedSpellings route with _ | value
      all_goals
        rw [hvalue] at hmore
        simpa [hvalue] using hmore

/-- **Merging is the pointwise maximum.**  Looked up under any route, what a run of merges of
username entities of one uid reads as is the greatest confidence that any of them has there, and
nothing where none has any; in whatever order they are merged. -/
theorem Entity.absorb_observedSpellings (parsesAsJson : String → Bool) (first : Entity)
    (rest : List Entity) (hkind : ∀ e ∈ first :: rest, e.kind = .username)
    (huid : ∀ e ∈ rest, e.uid = first.uid)
    (hunique : ∀ e ∈ first :: rest, RouteUnique e.spellings) :
    RouteUnique (rest.foldl (Entity.absorb parsesAsJson) first).observedSpellings ∧
      (∀ route, IsGreatestOf
        (routeConfidence (rest.foldl (Entity.absorb parsesAsJson) first).observedSpellings route)
        ((first :: rest).filterMap fun e ↦ routeConfidence e.observedSpellings route)) ∧
      ∀ (first' : Entity) (rest' : List Entity), (first' :: rest').Perm (first :: rest) →
        ∀ route, routeConfidence
            (rest'.foldl (Entity.absorb parsesAsJson) first').observedSpellings route =
          routeConfidence
            (rest.foldl (Entity.absorb parsesAsJson) first).observedSpellings route := by
  have hall : ∀ e ∈ first :: rest, e.uid = first.uid := by
    intro e he
    rcases mem_cons.1 he with rfl | he
    · rfl
    · exact huid e he
  obtain ⟨-, -, hmerged, hgreatest⟩ := Entity.foldl_absorb_spellings parsesAsJson
    (hkind first (.head _)) (hunique first (.head _)) rest fun e he ↦
      ⟨hkind e (.tail _ he), huid e he, hunique e (.tail _ he)⟩
  refine ⟨hmerged, hgreatest, fun first' rest' hperm route ↦ ?_⟩
  have hfirst : first' ∈ first :: rest := hperm.subset (.head _)
  obtain ⟨-, -, -, hgreatest'⟩ := Entity.foldl_absorb_spellings parsesAsJson
    (hkind first' hfirst) (hunique first' hfirst) rest' fun e he ↦ by
      have hmem : e ∈ first :: rest := hperm.subset (.tail _ he)
      exact ⟨hkind e hmem, (hall e hmem).trans (hall first' hfirst).symm, hunique e hmem⟩
  exact (hgreatest' route).unique (hgreatest route) fun x ↦ (hperm.filterMap _).mem_iff

/-- A handle a source reported, and a guess at it that is held higher. -/
def handleSeen : Entity :=
  { uid := "u", kind := .username, value := "alice", rawValue := "@Alice"
    confidence := .ofRat (1 / 2) }

def handleGuessed : Entity :=
  { handleSeen with
    rawValue := "alice", confidence := .ofRat (3 / 4)
    evidence := [{ provenance := { source := "variants" }, isInferred := true }] }

theorem Entity.absorb_observedSpellings_guess :
    IsGreatestOf (routeConfidence
        ([handleGuessed].foldl (Entity.absorb fun _ ↦ false) handleSeen).observedSpellings "alice")
      ([handleSeen, handleGuessed].filterMap
        fun e ↦ routeConfidence e.observedSpellings "alice") := by
  refine (Entity.absorb_observedSpellings (fun _ ↦ false) handleSeen [handleGuessed] ?_ ?_ ?_).2.1
    "alice"
  · intro e he
    rcases mem_cons.1 he with rfl | he
    · rfl
    · rw [mem_singleton.1 he]
      rfl
  · intro e he
    rw [mem_singleton.1 he]
    rfl
  · intro e he
    rcases mem_cons.1 he with rfl | he
    · exact routeUnique_empty
    · rw [mem_singleton.1 he]
      exact routeUnique_empty

end Huntsman
