import Huntsman.DocMeta.Values
import Huntsman.Lib.Groups
import Huntsman.Lib.Slots

/-!
# The fields of a document

`Fields` collects the fields of a document's metadata, at most `maxMetadataFields` of them, in five
collections that have to agree: the fields, where each key stands among them, the fingerprints of
the values that were given, the fields that take no more, and the counts of values not kept.
SHA-256 is a parameter, and of it is assumed that it does not collide on the values that are given.

Every value given to a key that is kept is told of, but for a later value that is cut
(`Huntsman.DocMeta.told_iff`).  A key that is not kept is not remembered, so it is counted each time
a value is given to it, and not once (`collectsExactly_iff`).
-/

set_option autoImplicit false

namespace Huntsman.DocMeta

open List

open Canonical (Chars trim decimal)
open Exif (len renderedWidth capValueWithin maxMetadataValueBytes)

/-! ## The source -/

def maxMetadataFields : ℕ := 512

variable {Digest : Type}

structure Fields (Digest : Type) where
  list : List (Chars × Chars) := []
  index : List (Chars × ℕ) := []
  seen : List (Chars × Digest) := []
  /-- Indexes into `list` whose value is cut or full and takes no more. -/
  full : List ℕ := []
  /-- For indexes into `list`, the distinct values not kept. -/
  more : List (ℕ × ℕ) := []
  omitted : ℕ := 0

/-- One more is counted at a place. -/
def bump (place : ℕ) : List (ℕ × ℕ) → List (ℕ × ℕ)
  | [] => [(place, 1)]
  | (i, n) :: rest => if i = place then (i, n + 1) :: rest else (i, n) :: bump place rest

variable (sha256 : List UInt8 → Digest)

/-- `none` is a panic: the index names no field. -/
def Fields.push [DecidableEq Digest] (s : Fields Digest) (key raw : Chars) :
    Option (Fields Digest) :=
  let fingerprint := sha256 (Utf8.encode (trim raw))
  let (value, cut) := capValueWithin raw 0 valueBound
  if value = [] then some s
  else
    match s.index.lookup key with
    | some place =>
      if (key, fingerprint) ∈ s.seen then some s
      else s.list[place]?.map fun field ↦
        if place ∈ s.full ∨
            valueBound < renderedWidth field.2 + 2 + renderedWidth value then
          { s with
            full := s.full.insert place
            more := bump place s.more
            seen := s.seen.insert (key, fingerprint) }
        else
          { s with
            list := s.list.set place (field.1, field.2 ++ "; ".toList ++ value)
            seen := s.seen.insert (key, fingerprint) }
    | none =>
      if maxMetadataFields ≤ s.list.length then some { s with omitted := s.omitted + 1 }
      else some { s with
        full := if cut then s.full.insert s.list.length else s.full
        index := (key, s.list.length) :: s.index
        list := s.list ++ [(key, value)]
        seen := s.seen.insert (key, fingerprint) }

/-- The fields, each whose later values did not fit closed with their count. -/
def closeAll (more : List (ℕ × ℕ)) (list : List (Chars × Chars)) :
    Option (List (Chars × Chars) × ℕ) :=
  more.foldlM (fun result entry ↦ result.1[entry.1]?.map fun field ↦
    (result.1.set entry.1 (field.1, field.2 ++ valuesMarker entry.2), result.2 + entry.2)) (list, 0)

def Fields.finish (s : Fields Digest) : Option (List (Chars × Chars) × ℕ × ℕ) :=
  (closeAll s.more s.list).map fun result ↦ (result.1, s.omitted, result.2)

/-- What is collected of the values that are given, each with its key. -/
def run [DecidableEq Digest] (given : List (Chars × Chars)) : Option (Fields Digest) :=
  given.foldlM (fun s p ↦ s.push sha256 p.1 p.2) {}

def collect [DecidableEq Digest] (given : List (Chars × Chars)) :
    Option (List (Chars × Chars) × ℕ × ℕ) :=
  (run sha256 given).bind Fields.finish

/-! ## What is meant -/

/-- The values that are not empty, trimmed. -/
def stated (given : List (Chars × Chars)) : List (Chars × Chars) :=
  (given.map fun p ↦ (p.1, trim p.2)).filter fun p ↦ p.2 ≠ []

variable (values : List (Chars × Chars))

/-- The keys, in the order of their first value. -/
def keys : List Chars := (values.map Prod.fst).eraseDups

/-- The distinct values of a key, in the order they are given. -/
def valuesOf (key : Chars) : List Chars :=
  ((values.filter fun p ↦ p.1 = key).map Prod.snd).eraseDups

def keptKeys : List Chars := (keys values).take maxMetadataFields

def refusedKeys : List Chars := (keys values).drop maxMetadataFields

/-- The values given to keys that are not kept. -/
def refused : List (Chars × Chars) := values.filter fun p ↦ p.1 ∉ keptKeys values

/-- No key that is not kept is given a second value. -/
def RefusedOnce : Prop := ((refused values).map Prod.fst).Nodup

/-- The field of a key that was given these values. -/
def fieldAt : List Chars → Field
  | [] => ⟨[], false, 0⟩
  | first :: rest => fieldOf first rest

theorem fieldAt_concat {values : List Chars} (h : values ≠ []) (v : Chars) :
    fieldAt (values ++ [v]) = (fieldAt values).add v := by
  obtain ⟨first, rest, rfl⟩ := exists_cons_of_ne_nil h
  rw [cons_append, fieldAt, fieldAt, fieldOf, foldl_append, ← fieldOf]
  rfl

/-! ## The counts -/

theorem lookup_bump (place i : ℕ) (more : List (ℕ × ℕ)) : (bump place more).lookup i =
    if i = place then some ((more.lookup place).getD 0 + 1) else more.lookup i := by
  induction more with
  | nil => rw [bump, lookup_cons_ite, lookup_nil, lookup_nil, Option.getD_none]
  | cons entry more ih =>
    obtain ⟨j, n⟩ := entry
    rw [bump, lookup_cons_ite, lookup_cons_ite]
    by_cases hj : j = place
    · rw [if_pos hj, lookup_cons_ite, if_pos hj.symm, hj]
      by_cases hi : i = place
      · rw [if_pos hi, if_pos hi, Option.getD_some]
      · rw [if_neg hi, if_neg hi, if_neg hi]
    · rw [if_neg hj, lookup_cons_ite, ih, if_neg (Ne.symm hj)]
      by_cases hi : i = j
      · rw [if_pos hi, if_neg (hi ▸ hj), if_pos hi]
      · rw [if_neg hi, if_neg hi]

theorem places_bump (place : ℕ) (more : List (ℕ × ℕ)) : (bump place more).map Prod.fst =
    if place ∈ more.map Prod.fst then more.map Prod.fst else more.map Prod.fst ++ [place] := by
  induction more with
  | nil => rfl
  | cons entry more ih =>
    obtain ⟨j, n⟩ := entry
    by_cases hj : j = place
    · simp [bump, hj]
    · rw [bump, if_neg hj, map_cons, map_cons, ih]
      by_cases hmem : place ∈ more.map Prod.fst
      · rw [if_pos hmem, if_pos (.tail _ hmem)]
      · rw [if_neg hmem, if_neg, cons_append]
        rw [mem_cons, not_or]
        exact ⟨Ne.symm hj, hmem⟩

theorem sum_bump (place : ℕ) (more : List (ℕ × ℕ)) :
    ((bump place more).map Prod.snd).sum = (more.map Prod.snd).sum + 1 := by
  induction more with
  | nil => rfl
  | cons entry more ih =>
    obtain ⟨j, n⟩ := entry
    by_cases hj : j = place
    · rw [bump, if_pos hj, map_cons, map_cons, sum_cons, sum_cons]
      omega
    · rw [bump, if_neg hj, map_cons, map_cons, sum_cons, sum_cons, ih]
      omega

/-- Fields are closed each with its own count, in whatever order. -/
theorem closeAll_eq {more : List (ℕ × ℕ)} (hnodup : (more.map Prod.fst).Nodup)
    {list : List (Chars × Chars)} (hplaces : ∀ entry ∈ more, entry.1 < list.length) (sum : ℕ) :
    ∃ closed, more.foldlM (fun result entry ↦ result.1[entry.1]?.map fun field ↦
        (result.1.set entry.1 (field.1, field.2 ++ valuesMarker entry.2), result.2 + entry.2))
        (list, sum) = some (closed, sum + (more.map Prod.snd).sum) ∧
      ∀ i : ℕ, closed[i]? = list[i]?.map fun field ↦
        (field.1, field.2 ++ (more.lookup i).elim [] valuesMarker) := by
  induction more generalizing list sum with
  | nil =>
    refine ⟨list, rfl, fun i ↦ ?_⟩
    simp only [lookup_nil, Option.elim_none, append_nil]
    exact Option.map_id'.symm
  | cons entry more ih =>
    obtain ⟨place, count⟩ := entry
    rw [map_cons, nodup_cons] at hnodup
    obtain ⟨hnot, hnodup⟩ := hnodup
    have hplace := hplaces _ ((.head _) ..)
    have hfield := getElem?_eq_getElem hplace
    have hrest : ∀ e ∈ more, e.1 <
        (list.set place (list[place].1, list[place].2 ++ valuesMarker count)).length := by
      intro e he
      rw [length_set]
      exact hplaces e (.tail _ he)
    obtain ⟨closed, hclosed, hfields⟩ := ih hnodup hrest (sum + count)
    refine ⟨closed, ?_, fun i ↦ ?_⟩
    · rw [foldlM_cons, hfield, Option.map_some, Option.bind_eq_bind, Option.bind_some, hclosed,
        map_cons, sum_cons, Nat.add_assoc]
    · rw [hfields, getElem?_set, lookup_cons_ite]
      by_cases hi : place = i
      · subst hi
        have hnone : more.lookup place = none := by
          rw [lookup_eq_none_iff]
          exact fun e he ↦ bne_iff_ne.2 fun heq ↦ hnot (mem_map.2 ⟨e, he, heq.symm⟩)
        simp [hplace, hnone]
      · simp [hi, Ne.symm hi]

/-! ## The five collections agree -/

/-- What the collections hold, of the keys that are kept and of the values that were given to
them. -/
structure Mirrors (kept : List Chars) (values : Chars → List Chars) (s : Fields Digest) : Prop where
  nodup : kept.Nodup
  given : ∀ k ∈ kept, values k ≠ []
  list : s.list = kept.map fun k ↦ (k, (fieldAt (values k)).text)
  index : ∀ k i, s.index.lookup k = some i ↔ kept[i]? = some k
  seen : ∀ k d, (k, d) ∈ s.seen ↔ k ∈ kept ∧ ∃ v ∈ values k, sha256 (Utf8.encode v) = d
  full : ∀ i : ℕ, i ∈ s.full ↔ ∃ k, kept[i]? = some k ∧ (fieldAt (values k)).full = true
  places : (s.more.map Prod.fst).Nodup
  more : ∀ i n, s.more.lookup i = some n ↔
    n ≠ 0 ∧ ∃ k, kept[i]? = some k ∧ (fieldAt (values k)).more = n
  sum : (s.more.map Prod.snd).sum = (kept.map fun k ↦ (fieldAt (values k)).more).sum

variable {sha256} {kept : List Chars} {values values' : Chars → List Chars} {s : Fields Digest}
  {k v : Chars} {place : ℕ}

theorem Mirrors.congr (h : Mirrors sha256 kept values s)
    (hsame : ∀ k ∈ kept, values' k = values k) : Mirrors sha256 kept values' s := by
  have hplace : ∀ {i : ℕ} {k}, kept[i]? = some k → values' k = values k := fun hk ↦
    hsame _ (List.mem_of_getElem? hk)
  exact {
    nodup := h.nodup
    given := fun k hk ↦ hsame k hk ▸ h.given k hk
    list := by
      rw [h.list]
      exact List.map_congr_left fun k hk ↦ by rw [hsame k hk]
    index := h.index
    seen := fun k d ↦ by
      rw [h.seen]
      exact and_congr_right fun hk ↦ by rw [hsame k hk]
    full := fun i ↦ by
      rw [h.full]
      exact exists_congr fun k ↦ and_congr_right fun hk ↦ by rw [hplace hk]
    places := h.places
    more := fun i n ↦ by
      rw [h.more]
      exact and_congr_right fun _ ↦ exists_congr fun k ↦ and_congr_right fun hk ↦ by rw [hplace hk]
    sum := by
      rw [h.sum]
      exact congrArg List.sum (List.map_congr_left fun k hk ↦ by rw [hsame k hk]) }

variable [DecidableEq Digest]

/-- What is remembered of the values, one more of them. -/
theorem Mirrors.seen_add (h : Mirrors sha256 kept values s) (hk : k ∈ kept)
    (hsame : ∀ k', k' ≠ k → values' k' = values k') (hv : values' k = values k ++ [v])
    (k' : Chars) (d : Digest) : (k', d) ∈ s.seen.insert (k, sha256 (Utf8.encode v)) ↔
      k' ∈ kept ∧ ∃ u ∈ values' k', sha256 (Utf8.encode u) = d := by
  rw [mem_insert_iff, Prod.mk.injEq, h.seen]
  by_cases heq : k' = k
  · subst heq
    simp only [true_and, hk, hv, mem_append, mem_singleton]
    constructor
    · rintro (rfl | ⟨u, hu, hd⟩)
      · exact ⟨v, .inr rfl, rfl⟩
      · exact ⟨u, .inl hu, hd⟩
    · rintro ⟨u, hu | rfl, hd⟩
      · exact .inr ⟨u, hu, hd⟩
      · exact .inl hd.symm
  · simp only [heq, false_and, false_or, hsame k' heq]

/-- A further value of a key that is kept, when it does not fit. -/
theorem Mirrors.count (h : Mirrors sha256 kept values s) (hk : kept[place]? = some k)
    (hsame : ∀ k', k' ≠ k → values' k' = values k') (hv : values' k = values k ++ [v])
    (hfull : (fieldAt (values k)).full = true ∨ valueBound <
      renderedWidth (fieldAt (values k)).text + 2 + renderedWidth (capped v)) :
    Mirrors sha256 kept values' { s with
      full := s.full.insert place
      more := bump place s.more
      seen := s.seen.insert (k, sha256 (Utf8.encode v)) } := by
  have hmem := mem_of_getElem? hk
  have hfield : fieldAt (values' k) =
      ⟨(fieldAt (values k)).text, true, (fieldAt (values k)).more + 1⟩ := by
    rw [hv, fieldAt_concat (h.given k hmem), Field.add, if_pos hfull]
  have hplace : ∀ {i : ℕ} {k'}, kept[i]? = some k' → i ≠ place → k' ≠ k := by
    rintro i k' hk' hi rfl
    exact hi ((getElem?_inj (lt_of_getElem?_eq_some hk') h.nodup).1 (hk'.trans hk.symm))
  have hcount : (s.more.lookup place).getD 0 = (fieldAt (values k)).more := by
    cases hlookup : s.more.lookup place with
    | none =>
      by_contra hne
      have hsome := (h.more place _).2 ⟨Ne.symm hne, k, hk, rfl⟩
      rw [hlookup] at hsome
      cases hsome
    | some n =>
      obtain ⟨-, k', hk', hn⟩ := (h.more place n).1 hlookup
      rw [Option.getD_some, ← hn, Option.some.inj (hk.symm.trans hk')]
  exact {
    nodup := h.nodup
    given := fun k' hk' ↦ by
      by_cases heq : k' = k
      · rw [heq, hv]
        exact append_ne_nil_of_right_ne_nil _ (cons_ne_nil _ _)
      · exact hsame k' heq ▸ h.given k' hk'
    list := by
      change s.list = _
      rw [h.list]
      refine map_congr_left fun k' _ ↦ ?_
      by_cases heq : k' = k
      · rw [heq, hfield]
      · rw [hsame k' heq]
    index := h.index
    seen := h.seen_add hmem hsame hv
    full := fun i ↦ by
      change i ∈ s.full.insert place ↔ _
      rw [mem_insert_iff]
      by_cases hi : i = place
      · rw [hi]
        exact iff_of_true (.inl rfl) ⟨k, hk, by rw [hfield]⟩
      · rw [h.full]
        simp only [hi, false_or]
        exact exists_congr fun k' ↦ and_congr_right fun hk' ↦ by rw [hsame k' (hplace hk' hi)]
    places := by
      change ((bump place s.more).map Prod.fst).Nodup
      rw [places_bump]
      split
      · exact h.places
      · exact h.places.append (nodup_singleton _) (disjoint_singleton.2 ‹_›)
    more := fun i n ↦ by
      change (bump place s.more).lookup i = some n ↔ _
      rw [lookup_bump]
      by_cases hi : i = place
      · rw [if_pos hi, hcount, Option.some.injEq, hi]
        constructor
        · rintro rfl
          exact ⟨Nat.succ_ne_zero _, k, hk, by rw [hfield]⟩
        · rintro ⟨-, k', hk', hn⟩
          rw [← hn, ← Option.some.inj (hk.symm.trans hk'), hfield]
      · rw [if_neg hi, h.more]
        exact and_congr_right fun _ ↦ exists_congr fun k' ↦ and_congr_right fun hk' ↦ by
          rw [hsame k' (hplace hk' hi)]
    sum := by
      change ((bump place s.more).map Prod.snd).sum = _
      rw [sum_bump, h.sum]
      refine (sum_map_of_nodup h.nodup hmem (fun k' hk' ↦ by rw [hsame k' hk']) ?_).symm
      rw [hfield] }

/-- A further value of a key that is kept, when it fits. -/
theorem Mirrors.append (h : Mirrors sha256 kept values s) (hk : kept[place]? = some k)
    (hsame : ∀ k', k' ≠ k → values' k' = values k') (hv : values' k = values k ++ [v])
    (hfull : ¬ ((fieldAt (values k)).full = true ∨ valueBound <
      renderedWidth (fieldAt (values k)).text + 2 + renderedWidth (capped v))) :
    Mirrors sha256 kept values' { s with
      list := s.list.set place (k, (fieldAt (values k)).text ++ "; ".toList ++ capped v)
      seen := s.seen.insert (k, sha256 (Utf8.encode v)) } := by
  have hmem := List.mem_of_getElem? hk
  have hfield : fieldAt (values' k) = { fieldAt (values k) with
      text := (fieldAt (values k)).text ++ "; ".toList ++ capped v } := by
    rw [hv, fieldAt_concat (h.given k hmem), Field.add, if_neg hfull]
  have hrest : ∀ k', (fieldAt (values' k')).full = (fieldAt (values k')).full ∧
      (fieldAt (values' k')).more = (fieldAt (values k')).more := by
    intro k'
    by_cases heq : k' = k
    · rw [heq, hfield]
      exact ⟨rfl, rfl⟩
    · rw [hsame k' heq]
      exact ⟨rfl, rfl⟩
  exact {
    nodup := h.nodup
    given := fun k' hk' ↦ by
      by_cases heq : k' = k
      · rw [heq, hv]
        exact List.append_ne_nil_of_right_ne_nil _ (List.cons_ne_nil _ _)
      · exact hsame k' heq ▸ h.given k' hk'
    list := by
      have hset : (kept.map fun k' ↦ (k', (fieldAt (values k')).text)).set place
          (k, (fieldAt (values' k)).text) = kept.map fun k' ↦ (k', (fieldAt (values' k')).text) :=
        List.map_set_of_nodup h.nodup hk (fun k' ↦ (k', (fieldAt (values k')).text))
          (fun k' ↦ (k', (fieldAt (values' k')).text)) fun k' hk' ↦ by rw [hsame k' hk']
      change s.list.set place _ = _
      rw [h.list, ← hset, hfield]
    index := h.index
    seen := h.seen_add hmem hsame hv
    full := fun i ↦ by
      change i ∈ s.full ↔ _
      rw [h.full]
      exact exists_congr fun k' ↦ by rw [(hrest k').1]
    places := h.places
    more := fun i n ↦ by
      change s.more.lookup i = some n ↔ _
      rw [h.more]
      exact and_congr_right fun _ ↦ exists_congr fun k' ↦ by rw [(hrest k').2]
    sum := by
      change (s.more.map Prod.snd).sum = _
      rw [h.sum]
      exact congrArg List.sum (List.map_congr_left fun k' _ ↦ (hrest k').2.symm) }

/-- The first value of a new key. -/
theorem Mirrors.new (h : Mirrors sha256 kept values s) (hk : k ∉ kept)
    (hsame : ∀ k', k' ≠ k → values' k' = values k') (hv : values' k = [v]) :
    Mirrors sha256 (kept ++ [k]) values' { s with
      full := if (capValueWithin v 0 valueBound).2 then s.full.insert s.list.length else s.full
      index := (k, s.list.length) :: s.index
      list := s.list ++ [(k, capped v)]
      seen := s.seen.insert (k, sha256 (Utf8.encode v)) } := by
  have hlength : s.list.length = kept.length := by rw [h.list, List.length_map]
  have hfield : fieldAt (values' k) = Field.first v := by rw [hv]; rfl
  have hne : ∀ k' ∈ kept, k' ≠ k := fun k' hk' heq ↦ hk (heq ▸ hk')
  have hold : ∀ k' ∈ kept, values' k' = values k' := fun k' hk' ↦ hsame k' (hne k' hk')
  have hcases : ∀ {i : ℕ} {k'}, (kept ++ [k])[i]? = some k' ↔
      kept[i]? = some k' ∨ (i = kept.length ∧ k' = k) := by
    intro i k'
    refine ⟨fun hi ↦ (List.getElem?_append_cases hi).symm, ?_⟩
    rintro (hi | ⟨rfl, rfl⟩)
    · rw [List.getElem?_append_left (List.lt_of_getElem?_eq_some hi), hi]
    · rw [List.getElem?_append_right (le_refl _), Nat.sub_self, List.getElem?_cons_zero]
  have hexists : ∀ {i : ℕ} {P : Chars → Prop}, (∃ k', (kept ++ [k])[i]? = some k' ∧ P k') ↔
      (∃ k', kept[i]? = some k' ∧ P k') ∨ (i = kept.length ∧ P k) := by
    intro i P
    simp only [hcases, or_and_right, exists_or, and_assoc]
    exact or_congr_right ⟨fun ⟨k', hi, heq, hP⟩ ↦ ⟨hi, heq ▸ hP⟩, fun ⟨hi, hP⟩ ↦ ⟨k, hi, rfl, hP⟩⟩
  exact {
    nodup := h.nodup.append (List.nodup_singleton k) (List.disjoint_singleton.2 hk)
    given := fun k' hk' ↦ by
      rcases List.mem_append.1 hk' with hk' | hk'
      · rw [hold k' hk']
        exact h.given k' hk'
      · rw [List.mem_singleton.1 hk', hv]
        exact List.cons_ne_nil _ _
    list := by
      change s.list ++ _ = _
      rw [List.map_append, List.map_singleton, hfield, h.list]
      refine congrArg₂ (· ++ ·) (List.map_congr_left fun k' hk' ↦ ?_) rfl
      rw [hold k' hk']
    index := fun k' i ↦ by
      change ((k, s.list.length) :: s.index).lookup k' = some i ↔ _
      rw [List.lookup_cons_ite, hcases, hlength]
      by_cases heq : k' = k
      · rw [if_pos heq, heq, Option.some.injEq]
        refine ⟨fun hi ↦ .inr ⟨hi.symm, rfl⟩, ?_⟩
        rintro (hi | ⟨rfl, -⟩)
        · exact absurd (List.mem_of_getElem? hi) hk
        · rfl
      · rw [if_neg heq, h.index]
        exact ⟨.inl, fun hor ↦ hor.resolve_right fun hi ↦ heq hi.2⟩
    seen := fun k' d ↦ by
      change (k', d) ∈ s.seen.insert _ ↔ _
      rw [List.mem_insert_iff, Prod.mk.injEq, h.seen, List.mem_append, List.mem_singleton]
      by_cases heq : k' = k
      · subst heq
        simp only [hk, hv, true_and, false_and, or_false, or_true, List.mem_singleton,
          exists_eq_left]
        exact eq_comm
      · simp only [heq, hsame k' heq, false_and, false_or, or_false]
    full := fun i ↦ by
      change i ∈ (if _ then _ else _) ↔ _
      rw [hexists, hfield, hlength]
      have hbefore : i ∈ s.full ↔
          ∃ k', kept[i]? = some k' ∧ (fieldAt (values' k')).full = true := by
        rw [h.full]
        exact exists_congr fun k' ↦ and_congr_right fun hi ↦ by
          rw [hold k' (List.mem_of_getElem? hi)]
      rw [← hbefore, Field.first]
      split
      · rename_i hcut
        rw [List.mem_insert_iff, hcut, or_comm]
        simp
      · rename_i hcut
        simp [hcut]
    places := h.places
    more := fun i n ↦ by
      change s.more.lookup i = some n ↔ _
      rw [hexists, hfield, h.more, Field.first]
      refine and_congr_right fun hn ↦ ?_
      simp only [Ne.symm hn, and_false, or_false]
      exact exists_congr fun k' ↦ and_congr_right fun hi ↦ by
        rw [hold k' (List.mem_of_getElem? hi)]
    sum := by
      change (s.more.map Prod.snd).sum = _
      rw [List.map_append, List.sum_append, List.map_singleton, hfield, h.sum, Field.first]
      refine congrArg List.sum (List.map_congr_left fun k' hk' ↦ ?_)
      rw [hold k' hk'] }

/-! ## The values in their order -/

section Values

variable {values : List (Chars × Chars)} {k v : Chars}

theorem mem_keys : k ∈ keys values ↔ ∃ v, (k, v) ∈ values := by
  rw [keys, mem_eraseDups, mem_map]
  exact ⟨fun ⟨p, hp, hk⟩ ↦ ⟨p.2, hk ▸ hp⟩, fun ⟨v, hv⟩ ↦ ⟨(k, v), hv, rfl⟩⟩

theorem mem_valuesOf : v ∈ valuesOf values k ↔ (k, v) ∈ values := by
  rw [valuesOf, mem_eraseDups, mem_map]
  constructor
  · rintro ⟨p, hp, rfl⟩
    obtain ⟨hmem, hk⟩ := mem_filter.1 hp
    exact of_decide_eq_true hk ▸ hmem
  · intro hmem
    exact ⟨(k, v), mem_filter.2 ⟨hmem, decide_eq_true rfl⟩, rfl⟩

theorem keys_concat : keys (values ++ [(k, v)]) =
    if k ∈ keys values then keys values else keys values ++ [k] := by
  rw [keys, map_append, map_singleton, Groups.eraseDups_concat]
  simp only [keys, mem_eraseDups]

theorem valuesOf_concat : valuesOf (values ++ [(k, v)]) k =
    if v ∈ valuesOf values k then valuesOf values k else valuesOf values k ++ [v] := by
  have hthis : [(k, v)].filter (fun p ↦ decide (p.1 = k)) = [(k, v)] := by simp
  rw [valuesOf, filter_append, hthis, map_append, map_singleton,
    Groups.eraseDups_concat]
  simp only [valuesOf, mem_eraseDups]

theorem valuesOf_concat_of_ne {k' : Chars} (h : k' ≠ k) :
    valuesOf (values ++ [(k, v)]) k' = valuesOf values k' := by
  rw [valuesOf, filter_append, filter_cons_of_neg (by simpa using Ne.symm h),
    filter_nil, append_nil, valuesOf]

theorem mem_of_mem_keptKeys (h : k ∈ keptKeys values) : k ∈ keys values :=
  mem_of_mem_take h

theorem keptKeys_of_length (h : (keptKeys values).length < maxMetadataFields) :
    keptKeys values = keys values := by
  rw [keptKeys, length_take] at h
  exact take_of_length_le (by omega)

/-- The keys that are kept stay kept, in their order, and none is added to as many as there may
be. -/
theorem keptKeys_concat : keptKeys (values ++ [(k, v)]) =
    if k ∈ keys values ∨ maxMetadataFields ≤ (keptKeys values).length then keptKeys values
    else keptKeys values ++ [k] := by
  rw [keptKeys, keys_concat]
  by_cases hk : k ∈ keys values
  · rw [if_pos hk, if_pos (.inl hk), keptKeys]
  · rw [if_neg hk]
    by_cases hfull : maxMetadataFields ≤ (keptKeys values).length
    · rw [if_pos (.inr hfull)]
      rw [keptKeys, length_take] at hfull
      exact take_append_of_le_length (by omega)
    · have hkeys := keptKeys_of_length (Nat.not_le.1 hfull)
      rw [if_neg (not_or.2 ⟨hk, hfull⟩), hkeys]
      rw [hkeys] at hfull
      exact take_of_length_le (by rw [length_append, length_singleton]; omega)

theorem refused_of_not_full (h : (keptKeys values).length < maxMetadataFields) :
    refused values = [] := by
  rw [refused, filter_eq_nil_iff]
  intro p hp
  rw [keptKeys_of_length h, decide_eq_true_eq, not_not]
  exact mem_keys.2 ⟨p.2, hp⟩

end Values

/-! ## A run -/

/-- The hash does not collide on the values that are given. -/
def NoCollision (sha256 : List UInt8 → Digest) (given : List (Chars × Chars)) : Prop :=
  ∀ p ∈ given, ∀ q ∈ given,
    sha256 (Utf8.encode (trim p.2)) = sha256 (Utf8.encode (trim q.2)) → trim p.2 = trim q.2

/-- The collections hold what was stated. -/
structure Refines (sha256 : List UInt8 → Digest) (given : List (Chars × Chars))
    (s : Fields Digest) : Prop where
  mirrors : Mirrors sha256 (keptKeys (stated given)) (valuesOf (stated given)) s
  omitted : s.omitted = (refused (stated given)).length

theorem mem_stated {given : List (Chars × Chars)} {p : Chars × Chars} : p ∈ stated given ↔
    p.2 ≠ [] ∧ ∃ q ∈ given, p = (q.1, trim q.2) := by
  rw [stated, mem_filter, mem_map, decide_eq_true_eq, and_comm]
  simp only [eq_comm]

theorem stated_concat (given : List (Chars × Chars)) (p : Chars × Chars) :
    stated (given ++ [p]) =
      if trim p.2 = [] then stated given else stated given ++ [(p.1, trim p.2)] := by
  rw [stated, map_append, filter_append, ← stated, map_singleton]
  by_cases h : trim p.2 = []
  · rw [if_pos h, filter_cons_of_neg (by simpa using h), filter_nil, append_nil]
  · rw [if_neg h, filter_cons_of_pos (by simpa using h), filter_nil]

theorem capped_trim (raw : Chars) :
    capValueWithin raw 0 valueBound = capValueWithin (trim raw) 0 valueBound := by
  rw [capValueWithin, capValueWithin, Canonical.trim_trim]

omit [DecidableEq Digest] in
theorem Mirrors.withOmitted (h : Mirrors sha256 kept values s) (n : ℕ) :
    Mirrors sha256 kept values { s with omitted := n } :=
  ⟨h.nodup, h.given, h.list, h.index, h.seen, h.full, h.places, h.more, h.sum⟩

omit [DecidableEq Digest] in
theorem refines_nil : Refines sha256 [] ({} : Fields Digest) where
  mirrors := {
    nodup := nodup_nil
    given := nofun
    list := rfl
    index := fun _ _ ↦ by simp [stated, keptKeys, keys]
    seen := fun _ _ ↦ by simp [stated, keptKeys, keys]
    full := fun _ ↦ by simp [stated, keptKeys, keys]
    places := nodup_nil
    more := fun _ _ ↦ by simp [stated, keptKeys, keys]
    sum := rfl }
  omitted := rfl

theorem Refines.push {given : List (Chars × Chars)} {p : Chars × Chars}
    (h : Refines sha256 given s) (hlen : len p.2 < 2 ^ 64)
    (hsha : NoCollision sha256 (given ++ [p])) :
    ∃ s', s.push sha256 p.1 p.2 = some s' ∧ Refines sha256 (given ++ [p]) s' := by
  obtain ⟨k, raw⟩ := p
  have hmirrors := h.mirrors
  by_cases hnil : trim raw = []
  · refine ⟨s, ?_, ?_⟩
    · rw [Fields.push, capped_trim, hnil]
      rfl
    · have hsame := stated_concat given (k, raw)
      rw [if_pos hnil] at hsame
      exact ⟨hsame ▸ hmirrors, hsame ▸ h.omitted⟩
  · have hproper : Proper (trim raw) :=
      ⟨Canonical.trim_trim raw, hnil, (Exif.len_trim_le raw).trans_lt hlen⟩
    have hvalue : (capValueWithin (trim raw) 0 valueBound).1 ≠ [] := (capped_spec hproper).1
    have hstated := stated_concat given (k, raw)
    rw [if_neg hnil] at hstated
    have hlength : s.list.length = (keptKeys (stated given)).length := by
      rw [hmirrors.list, length_map]
    rw [Fields.push, capped_trim]
    dsimp only
    rw [if_neg hvalue]
    cases hlookup : s.index.lookup k with
    | some place =>
      have hk := (hmirrors.index k place).1 hlookup
      have hmem := mem_of_getElem? hk
      have hkept : keptKeys (stated (given ++ [(k, raw)])) = keptKeys (stated given) := by
        rw [hstated, keptKeys_concat, if_pos (.inl (mem_of_mem_keptKeys hmem))]
      have hrefused : refused (stated (given ++ [(k, raw)])) = refused (stated given) := by
        rw [refused, hkept, hstated, filter_append,
          filter_cons_of_neg (by simpa using hmem), filter_nil, append_nil, refused]
      have hother : ∀ k', k' ≠ k → valuesOf (stated (given ++ [(k, raw)])) k' =
          valuesOf (stated given) k' := fun k' hne ↦ by rw [hstated, valuesOf_concat_of_ne hne]
      have hseen : (k, sha256 (Utf8.encode (trim raw))) ∈ s.seen ↔
          trim raw ∈ valuesOf (stated given) k := by
        rw [hmirrors.seen]
        refine ⟨?_, fun hv ↦ ⟨hmem, _, hv, rfl⟩⟩
        rintro ⟨-, v, hv, hsame⟩
        obtain ⟨-, q, hq, heq⟩ := mem_stated.1 (mem_valuesOf.1 hv)
        obtain ⟨-, rfl⟩ := Prod.mk.inj heq
        rwa [← hsha q (mem_append_left _ hq) (k, raw) (by simp) hsame]
      dsimp only
      by_cases hold : trim raw ∈ valuesOf (stated given) k
      · rw [if_pos (hseen.2 hold)]
        refine ⟨s, rfl, ?_, by rw [hrefused, h.omitted]⟩
        rw [hkept]
        refine hmirrors.congr fun k' _ ↦ ?_
        by_cases hne : k' = k
        · rw [hne, hstated, valuesOf_concat, if_pos hold]
        · exact hother k' hne
      · have hfield : s.list[place]? = some (k, (fieldAt (valuesOf (stated given) k)).text) := by
          rw [hmirrors.list, getElem?_map, hk, Option.map_some]
        have hvalues : valuesOf (stated (given ++ [(k, raw)])) k =
            valuesOf (stated given) k ++ [trim raw] := by
          rw [hstated, valuesOf_concat, if_neg hold]
        have hplace : place ∈ s.full ↔
            (fieldAt (valuesOf (stated given) k)).full = true := by
          rw [hmirrors.full]
          exact ⟨fun ⟨k', hk', hf⟩ ↦ Option.some.inj (hk.symm.trans hk') ▸ hf, fun hf ↦ ⟨k, hk, hf⟩⟩
        rw [if_neg (mt hseen.1 hold), hfield, Option.map_some]
        refine ⟨_, rfl, ?_, ?_⟩
        · rw [hkept]
          split
          · rename_i hcond
            rw [hplace] at hcond
            exact hmirrors.count hk hother hvalues hcond
          · rename_i hcond
            rw [hplace] at hcond
            exact hmirrors.append hk hother hvalues hcond
        · rw [hrefused, ← h.omitted]
          split <;> rfl
    | none =>
      have hnot : k ∉ keptKeys (stated given) := by
        intro hmem
        obtain ⟨i, hi⟩ := mem_iff_getElem?.1 hmem
        rw [(hmirrors.index k i).2 hi] at hlookup
        cases hlookup
      have hother : ∀ k', k' ≠ k → valuesOf (stated (given ++ [(k, raw)])) k' =
          valuesOf (stated given) k' := fun k' hne ↦ by rw [hstated, valuesOf_concat_of_ne hne]
      dsimp only
      by_cases hfull : maxMetadataFields ≤ s.list.length
      · rw [if_pos hfull]
        rw [hlength] at hfull
        have hkept : keptKeys (stated (given ++ [(k, raw)])) = keptKeys (stated given) := by
          rw [hstated, keptKeys_concat, if_pos (.inr hfull)]
        refine ⟨_, rfl, ?_, ?_⟩
        · rw [hkept]
          refine (hmirrors.congr fun k' hk' ↦ hother k' ?_).withOmitted _
          rintro rfl
          exact hnot hk'
        · rw [refused, hkept, hstated, filter_append, length_append,
            filter_cons_of_pos (by simpa using hnot), filter_nil, length_singleton,
            ← refused, ← h.omitted]
      · rw [if_neg hfull]
        rw [hlength] at hfull
        have hkeys := keptKeys_of_length (Nat.not_le.1 hfull)
        have hkept : keptKeys (stated (given ++ [(k, raw)])) = keptKeys (stated given) ++ [k] := by
          rw [hstated, keptKeys_concat, if_neg (not_or.2 ⟨hkeys ▸ hnot, hfull⟩)]
        have hnone : valuesOf (stated given) k = [] := by
          refine eq_nil_iff_forall_not_mem.2 fun v hv ↦ hnot ?_
          rw [hkeys]
          exact mem_keys.2 ⟨v, mem_valuesOf.1 hv⟩
        have hvalues : valuesOf (stated (given ++ [(k, raw)])) k = [trim raw] := by
          rw [hstated, valuesOf_concat, hnone]
          rfl
        refine ⟨_, rfl, ?_, ?_⟩
        · rw [hkept]
          exact hmirrors.new hnot hother hvalues
        · have hbefore := refused_of_not_full (Nat.not_le.1 hfull)
          have hafter : refused (stated (given ++ [(k, raw)])) = [] := by
            rw [refused, hkept, hstated, filter_eq_nil_iff]
            intro q hq
            rw [decide_eq_true_eq, not_not, mem_append, mem_singleton, hkeys]
            rcases mem_append.1 hq with hq | hq
            · exact .inl (mem_keys.2 ⟨q.2, hq⟩)
            · rw [mem_singleton.1 hq]
              exact .inr rfl
          rw [hafter]
          change s.omitted = _
          rw [h.omitted, hbefore]

omit [DecidableEq Digest] in
theorem NoCollision.mono {given more : List (Chars × Chars)} (h : NoCollision sha256 more)
    (hsub : given ⊆ more) : NoCollision sha256 given :=
  fun p hp q hq ↦ h p (hsub hp) q (hsub hq)

/-- A run does not panic, and its collections agree. -/
theorem run_refines {given : List (Chars × Chars)} (hlen : ∀ p ∈ given, len p.2 < 2 ^ 64)
    (hsha : NoCollision sha256 given) :
    ∃ s, run sha256 given = some s ∧ Refines sha256 given s := by
  induction given using reverseRecOn with
  | nil => exact ⟨{}, rfl, refines_nil⟩
  | append_singleton given p ih =>
    obtain ⟨s, hs, hrefines⟩ := ih (fun q hq ↦ hlen q (mem_append_left _ hq))
      (hsha.mono (subset_append_left _ _))
    obtain ⟨s', hpush, hrefines'⟩ := hrefines.push (hlen p (by simp)) hsha
    refine ⟨s', ?_, hrefines'⟩
    rw [run, foldlM_append, ← run, hs, Option.bind_eq_bind, Option.bind_some,
      foldlM_cons, hpush]
    rfl

/-- The field of a key as it is answered. -/
def closedField (values : List (Chars × Chars)) (k : Chars) : Chars × Chars :=
  (k, (fieldAt (valuesOf values k)).text ++ closing (fieldAt (valuesOf values k)).more)

/-- What is collected, key by key. -/
theorem collect_eq {given : List (Chars × Chars)} (hlen : ∀ p ∈ given, len p.2 < 2 ^ 64)
    (hsha : NoCollision sha256 given) : collect sha256 given =
      some ((keptKeys (stated given)).map (closedField (stated given)),
        (refused (stated given)).length,
        ((keptKeys (stated given)).map
          fun k ↦ (fieldAt (valuesOf (stated given) k)).more).sum) := by
  obtain ⟨s, hs, hmirrors, homitted⟩ := run_refines hlen hsha
  have hplaces : ∀ entry ∈ s.more, entry.1 < s.list.length := by
    intro entry hentry
    have hlookup := lookup_eq_some_of_mem hmirrors.places hentry
    obtain ⟨-, k, hk, -⟩ := (hmirrors.more _ _).1 hlookup
    rw [hmirrors.list, length_map]
    exact lt_of_getElem?_eq_some hk
  obtain ⟨closed, hclosed, hfields⟩ := closeAll_eq hmirrors.places hplaces 0
  have hlist : closed = (keptKeys (stated given)).map (closedField (stated given)) := by
    refine ext_getElem? fun i ↦ ?_
    rw [hfields, hmirrors.list, getElem?_map, getElem?_map, Option.map_map]
    cases hk : (keptKeys (stated given))[i]? with
    | none => rfl
    | some k =>
      have hmarker : (s.more.lookup i).elim [] valuesMarker =
          closing (fieldAt (valuesOf (stated given) k)).more := by
        rw [closing]
        cases hlookup : s.more.lookup i with
        | none =>
          rw [if_pos, Option.elim_none]
          by_contra hne
          rw [(hmirrors.more i _).2 ⟨hne, k, hk, rfl⟩] at hlookup
          cases hlookup
        | some n =>
          obtain ⟨hn, k', hk', rfl⟩ := (hmirrors.more i n).1 hlookup
          rw [Option.some.inj (hk.symm.trans hk'), if_neg hn, Option.elim_some]
      rw [Option.map_some, Option.map_some, Function.comp_apply, hmarker, closedField]
  rw [collect, hs, Option.bind_some, Fields.finish, closeAll, hclosed, Option.map_some,
    Nat.zero_add, hlist, homitted, hmirrors.sum]

/-! ## What is meant by collecting -/

/-- The values given to a document's fields, each with its key. -/
structure Pushes where
  list : List (Chars × Chars)
  length_lt : list.length < 2 ^ 64
  len_lt : ∀ p ∈ list, len p.2 < 2 ^ 64

/-- Each field tells of the values of its key, and what the fields count is counted in all. -/
def ToldAll (values list : List (Chars × Chars)) (valuesOmitted : ℕ) : Prop :=
  ∃ counts : List ℕ, List.Forall₂ (fun field count ↦ ∃ first rest,
    valuesOf values field.1 = first :: rest ∧ Told first rest field.2 count) list counts ∧
      counts.sum = valuesOmitted

/-- No later value of a key that is kept is too wide and fits, cut, after the values before it. -/
def KeptWhole (values : List (Chars × Chars)) : Prop :=
  ∀ k ∈ keptKeys values, ∀ first rest, valuesOf values k = first :: rest → KeepsWhole first rest

/-- What is meant by collecting fields: at most as many as there may be, each key once and in the
order of its first value, every value told of, every key that is not kept counted, nothing changed
by what is repeated, and no field too wide. -/
structure CollectsExactly (sha256 : List UInt8 → Digest) (given list : List (Chars × Chars))
    (omitted valuesOmitted : ℕ) : Prop where
  keys_eq : list.map Prod.fst = keptKeys (stated given)
  omitted_eq : omitted = (refusedKeys (stated given)).length
  told : ToldAll (stated given) list valuesOmitted
  repeats : ∀ p ∈ given, collect sha256 (given ++ [p]) = collect sha256 given
  width_le : ∀ field ∈ list, renderedWidth field.2 ≤ maxMetadataValueBytes

section Meant

variable {values : List (Chars × Chars)}

omit [DecidableEq Digest]

theorem proper_of_stated {given : Pushes}
    (h : v ∈ valuesOf (stated given.list) k) : Proper v := by
  obtain ⟨hne, q, hq, heq⟩ := mem_stated.1 (mem_valuesOf.1 h)
  cases heq
  exact ⟨Canonical.trim_trim _, hne, (Exif.len_trim_le _).trans_lt (given.len_lt q hq)⟩

theorem exists_values (h : k ∈ keptKeys values) :
    ∃ first rest, valuesOf values k = first :: rest := by
  obtain ⟨v, hv⟩ := mem_keys.1 (mem_of_mem_keptKeys h)
  exact exists_cons_of_ne_nil (ne_nil_of_mem (mem_valuesOf.2 hv))

/-- Every key that is kept is told of, when no later value of it is cut. -/
theorem toldAll_iff {given : Pushes} : ToldAll (stated given.list)
      ((keptKeys (stated given.list)).map (closedField (stated given.list)))
      ((keptKeys (stated given.list)).map
        fun k ↦ (fieldAt (valuesOf (stated given.list) k)).more).sum ↔
    KeptWhole (stated given.list) := by
  have hrest : ∀ {k first rest}, valuesOf (stated given.list) k = first :: rest →
      Proper first ∧ ∀ v ∈ rest, Proper v := fun hvalues ↦
    ⟨proper_of_stated (hvalues ▸ mem_cons_self),
      fun v hv ↦ proper_of_stated (hvalues ▸ mem_cons_of_mem _ hv)⟩
  constructor
  · rintro ⟨counts, hall, -⟩ k hk first rest hvalues
    rw [forall₂_map_left_iff] at hall
    obtain ⟨count, -, first', rest', hvalues', htold⟩ := forall₂_mem_left hall hk
    obtain ⟨rfl, rfl⟩ := cons.inj (hvalues.symm.trans hvalues')
    rw [closedField, hvalues] at htold
    exact (told_iff (hrest hvalues).1 (hrest hvalues).2).1 ⟨count, htold⟩
  · intro hkept
    refine ⟨_, ?_, rfl⟩
    rw [forall₂_map_left_iff, forall₂_map_right_iff, forall₂_same]
    intro k hk
    obtain ⟨first, rest, hvalues⟩ := exists_values hk
    obtain ⟨later, counted, hshows⟩ := exists_shows (hrest hvalues).1 rest
    refine ⟨first, rest, hvalues, ?_⟩
    rw [closedField, hvalues]
    exact hshows.told (hkept k hk first rest hvalues) (hrest hvalues).1 (hrest hvalues).2

theorem width_closedField_le {given : Pushes} (hk : k ∈ keptKeys (stated given.list)) :
    renderedWidth (closedField (stated given.list) k).2 ≤ maxMetadataValueBytes := by
  obtain ⟨first, rest, hvalues⟩ := exists_values hk
  obtain ⟨later, counted, hshows⟩ := exists_shows
    (proper_of_stated (hvalues ▸ mem_cons_self) : Proper first) rest
  have hfits := hshows.fits
  have hcount : counted.length < 2 ^ 64 := by
    have hlength : (valuesOf (stated given.list) k).length ≤ given.list.length := by
      refine (Groups.length_eraseDups_le _).trans ?_
      rw [length_map]
      refine (length_filter_le _ _).trans ((length_filter_le _ _).trans ?_)
      rw [length_map]
    have hlt := given.length_lt
    rw [hvalues, hshows.split, length_cons, length_append] at hlength
    omega
  have hclosing := closing_le hcount
  rw [closedField, hvalues]
  change renderedWidth ((fieldOf first rest).text ++ closing (fieldOf first rest).more) ≤ _
  rw [Exif.renderedWidth_append, hshows.more]
  rw [valueBound] at hfits
  have hreserve : valuesMarkerReserve ≤ maxMetadataValueBytes := by decide
  omega

theorem keptKeys_append_refusedKeys : keptKeys values ++ refusedKeys values = keys values :=
  take_append_drop _ _

theorem mem_map_refused :
    k ∈ (refused values).map Prod.fst ↔ k ∈ refusedKeys values := by
  have hnodup : (keptKeys values ++ refusedKeys values).Nodup :=
    keptKeys_append_refusedKeys ▸ Groups.nodup_eraseDups _
  rw [mem_map]
  constructor
  · rintro ⟨p, hp, rfl⟩
    obtain ⟨hvalue, hnot⟩ := mem_filter.1 hp
    have hkey : p.1 ∈ keptKeys values ++ refusedKeys values :=
      keptKeys_append_refusedKeys ▸ mem_keys.2 ⟨p.2, hvalue⟩
    exact (mem_append.1 hkey).resolve_left (of_decide_eq_true hnot)
  · intro hk
    obtain ⟨v, hv⟩ := mem_keys.1 (keptKeys_append_refusedKeys ▸ mem_append_right _ hk)
    refine ⟨(k, v), mem_filter.2 ⟨hv, decide_eq_true fun hkept ↦ ?_⟩, rfl⟩
    exact (nodup_append'.1 hnodup).2.2 hkept hk

/-- As many keys are counted as are not kept, when each of them is given one value. -/
theorem length_refused_iff :
    (refused values).length = (refusedKeys values).length ↔ RefusedOnce values := by
  have hnodup : (keys values).Nodup := Groups.nodup_eraseDups _
  have hperm := (perm_ext_iff_of_nodup (Groups.nodup_eraseDups _)
    (hnodup.sublist (drop_sublist _ _))).2 fun k ↦
      (mem_eraseDups (l := (refused values).map Prod.fst)).trans mem_map_refused
  rw [RefusedOnce, ← Groups.length_eraseDups_eq_iff, hperm.length_eq, length_map]
  exact eq_comm

theorem refused_eq_nil_iff : refused values = [] ↔ refusedKeys values = [] := by
  rw [← map_eq_nil_iff (f := Prod.fst), eq_nil_iff_forall_not_mem,
    eq_nil_iff_forall_not_mem]
  exact forall_congr' fun k ↦ not_congr mem_map_refused

/-- A value that was stated already is another of a key that is not kept, or changes nothing. -/
theorem stated_again (h : (k, v) ∈ values) :
    keptKeys (values ++ [(k, v)]) = keptKeys values ∧
      (∀ k', valuesOf (values ++ [(k, v)]) k' = valuesOf values k') ∧
      refused (values ++ [(k, v)]) = refused values ++ [(k, v)].filter (· ∈ refused values) := by
  have hkept : keptKeys (values ++ [(k, v)]) = keptKeys values := by
    rw [keptKeys_concat, if_pos (.inl (mem_keys.2 ⟨v, h⟩))]
  refine ⟨hkept, fun k' ↦ ?_, ?_⟩
  · by_cases hk : k' = k
    · rw [hk, valuesOf_concat, if_pos (mem_valuesOf.2 h)]
    · exact valuesOf_concat_of_ne hk
  · rw [refused, hkept, filter_append]
    refine congrArg (_ ++ ·) (filter_congr fun p hp ↦ ?_)
    rw [mem_singleton.1 hp]
    refine decide_eq_decide.2 ⟨fun hk ↦ mem_filter.2 ⟨h, decide_eq_true hk⟩, fun hmem ↦ ?_⟩
    exact of_decide_eq_true (mem_filter.1 hmem).2

end Meant

/-- A value that is given again is counted again, when its key is not kept. -/
theorem collect_again {given : Pushes} (hsha : NoCollision sha256 given.list) {p : Chars × Chars}
    (hp : p ∈ given.list) :
    collect sha256 (given.list ++ [p]) = collect sha256 given.list ↔
      (p.1, trim p.2) ∉ refused (stated given.list) := by
  have hlen : ∀ q ∈ given.list ++ [p], len q.2 < 2 ^ 64 := fun q hq ↦
    (mem_append.1 hq).elim (given.len_lt q)
      fun hq ↦ mem_singleton.1 hq ▸ given.len_lt p hp
  have hsub : given.list ++ [p] ⊆ given.list := fun q hq ↦
    (mem_append.1 hq).elim id fun hq ↦ mem_singleton.1 hq ▸ hp
  rw [collect_eq hlen (hsha.mono hsub), collect_eq given.len_lt hsha, stated_concat]
  by_cases hnil : trim p.2 = []
  · rw [if_pos hnil]
    refine iff_of_true rfl fun hmem ↦ ?_
    exact (mem_stated.1 (mem_of_mem_filter hmem)).1 hnil
  · have hstated : (p.1, trim p.2) ∈ stated given.list := mem_stated.2 ⟨hnil, p, hp, rfl⟩
    obtain ⟨hkept, hvalues, hrefused⟩ := stated_again hstated
    have hclosed : closedField (stated given.list ++ [(p.1, trim p.2)]) =
        closedField (stated given.list) := funext fun k ↦ by rw [closedField, hvalues, closedField]
    simp only [if_neg hnil, hkept, hclosed, hvalues, hrefused, length_append,
      Option.some.injEq, Prod.mk.injEq, true_and, and_true]
    rw [Nat.add_eq_left, length_eq_zero_iff, filter_eq_nil_iff]
    simp

/-- **Fields are collected as is meant exactly when no more keys are stated than may be kept and no
later value of a key is cut**; a key that is not kept is counted once when it is given one value. -/
theorem collectsExactly_iff (given : Pushes) (hsha : NoCollision sha256 given.list) :
    ∃ list omitted valuesOmitted,
      collect sha256 given.list = some (list, omitted, valuesOmitted) ∧
      (CollectsExactly sha256 given.list list omitted valuesOmitted ↔
        refusedKeys (stated given.list) = [] ∧ KeptWhole (stated given.list)) ∧
      (omitted = (refusedKeys (stated given.list)).length ↔ RefusedOnce (stated given.list)) ∧
      (ToldAll (stated given.list) list valuesOmitted ↔ KeptWhole (stated given.list)) ∧
      ∀ p ∈ given.list, (collect sha256 (given.list ++ [p]) = collect sha256 given.list ↔
        (p.1, trim p.2) ∉ refused (stated given.list)) := by
  refine ⟨_, _, _, collect_eq given.len_lt hsha, ?_, length_refused_iff, toldAll_iff,
    fun p hp ↦ collect_again hsha hp⟩
  constructor
  · intro h
    refine ⟨refused_eq_nil_iff.1 (eq_nil_iff_forall_not_mem.2 fun q hq ↦ ?_),
      toldAll_iff.1 h.told⟩
    obtain ⟨-, p, hp, rfl⟩ := mem_stated.1 (mem_of_mem_filter hq)
    exact (collect_again hsha hp).1 (h.repeats p hp) hq
  · rintro ⟨hnone, hkept⟩
    have hrefused := refused_eq_nil_iff.2 hnone
    exact {
      keys_eq := by rw [map_map]; exact map_id _
      omitted_eq := by rw [hrefused, hnone]; rfl
      told := toldAll_iff.2 hkept
      repeats := fun p hp ↦ (collect_again hsha hp).2 (by rw [hrefused]; exact not_mem_nil)
      width_le := fun field hfield ↦ by
        obtain ⟨k, hk, rfl⟩ := mem_map.1 hfield
        exact width_closedField_le hk }

/-! ## Two values, and a key too many -/

/-- SHA-256 of `v`, and of `w`. -/
def sampleHash (text : List UInt8) : List UInt8 :=
  if text = [118] then
    [76, 148, 72, 94, 12, 33, 174, 108, 65, 206, 29, 254, 123, 107, 250, 206, 234, 90, 182, 142, 64,
      162, 71, 111, 80, 32, 142, 82, 111, 80, 96, 128]
  else
    [80, 231, 33, 228, 156, 1, 63, 0, 198, 44, 245, 159, 33, 99, 84, 42, 157, 141, 240, 36, 100,
      239, 235, 97, 93, 49, 5, 27, 15, 221, 195, 38]

theorem noCollision_of_mem {given : List (Chars × Chars)}
    (h : ∀ p ∈ given, p.2 = "v".toList ∨ p.2 = "w".toList) : NoCollision sampleHash given := by
  intro p hp q hq hsame
  rcases h p hp with hp | hp <;> rcases h q hq with hq | hq <;> rw [hp, hq] at hsame ⊢
  · exact absurd hsame (by decide)
  · exact absurd hsame (by decide)

theorem len_lt_of_mem {given : List (Chars × Chars)}
    (h : ∀ p ∈ given, p.2 = "v".toList ∨ p.2 = "w".toList) : ∀ p ∈ given, len p.2 < 2 ^ 64 := by
  intro p hp
  rcases h p hp with hp | hp <;> rw [hp] <;> decide

theorem stated_of_mem {given : List (Chars × Chars)}
    (h : ∀ p ∈ given, p.2 = "v".toList ∨ p.2 = "w".toList) : stated given = given := by
  have htrim : ∀ p ∈ given, (p.1, trim p.2) = id p ∧ p.2 ≠ [] := by
    intro p hp
    obtain ⟨k, v⟩ := p
    rcases h (k, v) hp with rfl | rfl
    · exact ⟨rfl, cons_ne_nil _ _⟩
    · exact ⟨rfl, cons_ne_nil _ _⟩
  rw [stated, map_congr_left fun p hp ↦ (htrim p hp).1, map_id, filter_eq_self]
  exact fun p hp ↦ decide_eq_true (htrim p hp).2

/-- A key that is given two values. -/
def twice : Pushes where
  list := [("k".toList, "v".toList), ("k".toList, "w".toList)]
  length_lt := by decide
  len_lt := List.forall_mem_cons.2 ⟨by decide, List.forall_mem_singleton.2 (by decide)⟩

theorem twice_mem : ∀ p ∈ twice.list, p.2 = "v".toList ∨ p.2 = "w".toList :=
  forall_mem_cons.2 ⟨.inl rfl, forall_mem_singleton.2 (.inr rfl)⟩

theorem collectsExactly_twice : ∃ list omitted valuesOmitted,
    collect sampleHash twice.list = some (list, omitted, valuesOmitted) ∧
      CollectsExactly sampleHash twice.list list omitted valuesOmitted := by
  obtain ⟨list, omitted, valuesOmitted, hcollect, hiff, -⟩ :=
    collectsExactly_iff twice (noCollision_of_mem twice_mem)
  refine ⟨list, omitted, valuesOmitted, hcollect, hiff.2 ⟨by decide, ?_⟩⟩
  intro k _ first rest hvalues before v after hsplit hwide
  have hv : v ∈ valuesOf (stated twice.list) k := by
    rw [hvalues, hsplit]
    simp
  rw [stated_of_mem twice_mem] at hv
  rcases twice_mem _ (mem_valuesOf.1 hv) with rfl | rfl
  · exact absurd hwide (by decide)
  · exact absurd hwide (by decide)

/-- As many keys as may be kept, and one more that is given two values. -/
def crowd : List (Chars × Chars) :=
  (List.range 512).map (fun i ↦ (decimal i, "v".toList)) ++ [("k".toList, "v".toList)] ++
    [("k".toList, "w".toList)]

theorem crowd_mem : ∀ p ∈ crowd, p.2 = "v".toList ∨ p.2 = "w".toList := by
  intro p hp
  simp only [crowd, mem_append, mem_map, mem_singleton] at hp
  rcases hp with (⟨i, -, rfl⟩ | rfl) | rfl
  · exact .inl rfl
  · exact .inl rfl
  · exact .inr rfl

theorem key_not_mem : "k".toList ∉ (List.range 512).map decimal := by
  intro hmem
  obtain ⟨i, -, hi⟩ := mem_map.1 hmem
  have hdigit := Nat.isDigit_of_mem_toDigits (by decide) (by decide)
    (show 'k' ∈ decimal i by rw [hi]; decide)
  simp at hdigit

theorem keys_crowd : keys crowd = (List.range 512).map decimal ++ ["k".toList] := by
  have hnumbers : keys ((range 512).map fun i ↦ (decimal i, "v".toList)) =
      (range 512).map decimal := by
    rw [keys, map_map]
    exact Groups.eraseDups_of_nodup (nodup_range.map Canonical.decimal_injective)
  rw [crowd, keys_concat, keys_concat, hnumbers, if_neg key_not_mem, if_pos (by simp)]

theorem keptKeys_crowd : keptKeys crowd = (List.range 512).map decimal := by
  rw [keptKeys, keys_crowd]
  exact take_left' (by rw [length_map, length_range]; rfl)

theorem refused_crowd :
    refused crowd = [("k".toList, "v".toList), ("k".toList, "w".toList)] := by
  have hnone : ((range 512).map fun i ↦ (decimal i, "v".toList)).filter
      (fun p ↦ p.1 ∉ (range 512).map decimal) = [] := by
    rw [filter_eq_nil_iff]
    intro p hp
    obtain ⟨i, hi, rfl⟩ := mem_map.1 hp
    rw [decide_eq_true_eq, not_not]
    exact mem_map_of_mem hi
  have hkey (v : Chars) : [("k".toList, v)].filter
      (fun p ↦ p.1 ∉ (range 512).map decimal) = [("k".toList, v)] :=
    filter_cons_of_pos (decide_eq_true key_not_mem)
  rw [refused, keptKeys_crowd, crowd, filter_append, filter_append, hnone, hkey, hkey]
  rfl

/-- A key that is not kept is counted twice when it is given two values. -/
theorem not_collectsExactly : ∃ list valuesOmitted,
    collect sampleHash crowd = some (list, 2, valuesOmitted) ∧
      (refusedKeys (stated crowd)).length = 1 ∧
      ¬ CollectsExactly sampleHash crowd list 2 valuesOmitted := by
  have hrefusedKeys : refusedKeys crowd = ["k".toList] := by
    rw [refusedKeys, keys_crowd]
    exact drop_left' (by rw [length_map, length_range]; rfl)
  have hcollect : collect sampleHash crowd = _ :=
    collect_eq (len_lt_of_mem crowd_mem) (noCollision_of_mem crowd_mem)
  rw [stated_of_mem crowd_mem, refused_crowd] at hcollect
  rw [stated_of_mem crowd_mem, hrefusedKeys]
  refine ⟨_, _, hcollect, rfl, fun h ↦ ?_⟩
  have hcount := h.omitted_eq
  rw [stated_of_mem crowd_mem, hrefusedKeys] at hcount
  simp at hcount

end Huntsman.DocMeta
