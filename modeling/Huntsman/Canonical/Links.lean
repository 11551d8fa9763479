import Huntsman.Canonical.Numbers
import Mathlib.Data.List.Sort

/-!
# When a link is stable

A canonical link is its head, that is its scheme, host and port, and its tail, that is its path and
query (`UrlParts.render_eq`).  The head is always read back (`canonicalAuthority_stable`).  The tail
is not when white space ends it, for that is trimmed the next time, nor when its query has an empty
piece, for that is dropped the next time (`UrlParts.tail_stable_iff`).
-/

set_option autoImplicit false

namespace Huntsman.Canonical

open List Pieces

variable {s raw d : Chars} {c : Char}

/-! ## The pairs of a query -/

theorem isTrackingParamKey_lower (key : Chars) :
    isTrackingParamKey (lower key) = isTrackingParamKey key := by
  have htake : lower ((lower key).take 4) = lower (key.take 4) := by
    rw [lower, lower, lower, ← map_take]
    exact lower_lower (key.take 4)
  rw [isTrackingParamKey, htake, lower_lower, isTrackingParamKey]

/-- What a kept pair is: its key lower-cased and not one that tracks, and no separator where it
would be read as one. -/
structure IsPair (pair : Pair) : Prop where
  key_equals : '=' ∉ (ofLex pair).1
  key_amp : '&' ∉ (ofLex pair).1
  value_amp : '&' ∉ (ofLex pair).2
  key_lower : lower (ofLex pair).1 = (ofLex pair).1
  key_kept : isTrackingParamKey (ofLex pair).1 = false

theorem not_mem_lower {x : Char} (hx : x.isAlpha = false) (h : x ∉ s) : x ∉ lower s := by
  intro hmem
  obtain ⟨c, hc, hlower⟩ := mem_map.1 hmem
  rw [(toLower_eq_iff hx c).1 hlower] at hc
  exact h hc

/-- A part of a query is its key and its value, with the `=` between them that it may leave out. -/
theorem readPair_some {pair : Pair} (h : readPair s = some pair) : ∃ key value,
    pair = toLex (lower key, value) ∧ isTrackingParamKey key = false ∧ '=' ∉ key ∧
      (s = key ++ '=' :: value ∨ s = key ∧ value = []) := by
  rw [readPair] at h
  rcases hsplit : splitOnce '=' s with _ | ⟨key, value⟩
  · rw [hsplit, Option.getD_none] at h
    simp only [Option.ite_none_left_eq_some, Option.some.injEq] at h
    obtain ⟨hkept, rfl⟩ := h
    rw [Bool.not_eq_true] at hkept
    exact ⟨s, [], rfl, hkept, splitOnce_eq_none.1 hsplit, .inr ⟨rfl, rfl⟩⟩
  · rw [hsplit, Option.getD_some] at h
    simp only [Option.ite_none_left_eq_some, Option.some.injEq] at h
    obtain ⟨hkept, rfl⟩ := h
    rw [Bool.not_eq_true] at hkept
    obtain ⟨htext, hequals⟩ := splitOnce_eq_some.1 hsplit
    exact ⟨key, value, rfl, hkept, hequals, .inl htext⟩

theorem isPair_of_readPair {pair : Pair} (h : readPair s = some pair) (hamp : '&' ∉ s) :
    IsPair pair := by
  obtain ⟨key, value, rfl, hkept, hequals, htext⟩ := readPair_some h
  have hparts : '&' ∉ key ∧ '&' ∉ value := by
    rcases htext with rfl | ⟨rfl, rfl⟩
    · rw [mem_append, mem_cons, not_or, not_or] at hamp
      exact ⟨hamp.1, hamp.2.2⟩
    · exact ⟨hamp, not_mem_nil⟩
  refine ⟨not_mem_lower (by decide) hequals, not_mem_lower (by decide) hparts.1, hparts.2,
    lower_lower key, ?_⟩
  rw [← hkept]
  exact isTrackingParamKey_lower key

theorem IsPair.readPair_render {pair : Pair} (h : IsPair pair) :
    readPair (renderPair pair) = some pair := by
  obtain ⟨key, value⟩ := pair
  obtain ⟨hequals, -, -, hlower, hkept⟩ := h
  change '=' ∉ key at hequals
  change lower key = key at hlower
  change isTrackingParamKey key = false at hkept
  have hrender : renderPair (key, value) = if value = [] then key else key ++ '=' :: value := rfl
  rw [hrender]
  split
  · rename_i hvalue
    rw [readPair, splitOnce_eq_none.2 hequals, Option.getD_none]
    simp only [hkept, hlower, hvalue, Bool.false_eq_true, if_false]
    rfl
  · rw [readPair, splitOnce_append hequals, Option.getD_some]
    simp only [hkept, hlower, Bool.false_eq_true, if_false]
    rfl

theorem IsPair.render_amp {pair : Pair} (h : IsPair pair) : '&' ∉ renderPair pair := by
  have hrender : renderPair pair = if (ofLex pair).2 = [] then (ofLex pair).1 else
    (ofLex pair).1 ++ '=' :: (ofLex pair).2 := rfl
  rw [hrender]
  split
  · exact h.key_amp
  · rw [mem_append, mem_cons, not_or, not_or]
    exact ⟨h.key_amp, by decide, h.value_amp⟩

theorem renderPair_eq_nil {pair : Pair} : renderPair pair = [] ↔ pair = toLex ([], []) := by
  obtain ⟨key, value⟩ := pair
  have hrender : renderPair (key, value) = if value = [] then key else key ++ '=' :: value := rfl
  rw [hrender]
  constructor
  · intro h
    split at h
    · rename_i hvalue
      rw [h, hvalue]
      rfl
    · simp at h
  · intro h
    cases h
    rfl

theorem isPair_of_mem {pair : Pair} (h : pair ∈ queryPairs raw) : IsPair pair := by
  rw [queryPairs, mem_filterMap] at h
  obtain ⟨part, hpart, hread⟩ := h
  exact isPair_of_readPair hread (not_mem_of_mem_splitOn (mem_of_mem_filter hpart))

/-! ## Queries -/

/-- The pairs of a query, in the order they are written. -/
def sortedPairs (raw : Chars) : List Pair := (queryPairs raw).mergeSort fun a b ↦ decide (a ≤ b)

theorem canonicalQuery_eq (raw : Chars) :
    canonicalQuery raw = ['&'].intercalate ((sortedPairs raw).map renderPair) := rfl

theorem pairwise_sortedPairs (raw : Chars) : (sortedPairs raw).Pairwise (· ≤ ·) :=
  pairwise_mergeSort' (· ≤ ·) _

theorem mem_sortedPairs {pair : Pair} : pair ∈ sortedPairs raw ↔ pair ∈ queryPairs raw :=
  mem_mergeSort

theorem isPair_of_mem_sorted {pair : Pair} (h : pair ∈ sortedPairs raw) : IsPair pair :=
  isPair_of_mem (mem_sortedPairs.1 h)

theorem rendered_amp (raw : Chars) : ∀ w ∈ (sortedPairs raw).map renderPair, '&' ∉ w := by
  intro w hw
  obtain ⟨pair, hpair, rfl⟩ := mem_map.1 hw
  exact (isPair_of_mem_sorted hpair).render_amp

/-- The pairs read back from a canonical query: all but the empty ones. -/
theorem queryPairs_canonicalQuery (raw : Chars) : queryPairs (canonicalQuery raw) =
    (sortedPairs raw).filter fun pair ↦ !(renderPair pair).isEmpty := by
  have hread : ∀ pairs : List Pair, (∀ pair ∈ pairs, IsPair pair) →
      (pairs.map renderPair).filterMap readPair = pairs := by
    intro pairs hpairs
    rw [filterMap_map]
    exact (filterMap_congr fun pair hpair ↦ (hpairs pair hpair).readPair_render).trans
      filterMap_some
  rw [canonicalQuery_eq, queryPairs]
  by_cases hnil : (sortedPairs raw).map renderPair = []
  · rw [hnil, map_eq_nil_iff.1 hnil]
    rfl
  · rw [splitOn_intercalate '&' (rendered_amp raw) hnil, filter_map]
    exact hread _ fun pair hpair ↦ isPair_of_mem_sorted (mem_of_mem_filter hpair)

theorem canonicalQuery_canonicalQuery (raw : Chars) : canonicalQuery (canonicalQuery raw) =
    ['&'].intercalate (((sortedPairs raw).map renderPair).filter fun w ↦ !w.isEmpty) := by
  have hsorted := (pairwise_sortedPairs raw).filter fun pair ↦ !(renderPair pair).isEmpty
  have hsame : sortedPairs (canonicalQuery raw) =
      (sortedPairs raw).filter fun pair ↦ !(renderPair pair).isEmpty := by
    rw [sortedPairs, queryPairs_canonicalQuery]
    exact mergeSort_eq_self (· ≤ ·) hsorted
  rw [canonicalQuery_eq, hsame, filter_map]
  rfl

/-- **A canonical query is stable unless an empty pair stands beside another pair.** -/
theorem canonicalQuery_stable_iff (raw : Chars) :
    canonicalQuery (canonicalQuery raw) = canonicalQuery raw ↔
      (toLex ([], []) ∈ queryPairs raw → (queryPairs raw).length = 1) := by
  have hempty : [] ∈ (sortedPairs raw).map renderPair ↔ toLex ([], []) ∈ queryPairs raw := by
    rw [mem_map, ← mem_sortedPairs]
    constructor
    · rintro ⟨pair, hpair, hnil⟩
      rwa [renderPair_eq_nil.1 hnil] at hpair
    · intro hmem
      exact ⟨_, hmem, rfl⟩
  have hlength : ((sortedPairs raw).map renderPair).length = (queryPairs raw).length := by
    rw [length_map, sortedPairs, length_mergeSort]
  rw [canonicalQuery_canonicalQuery, canonicalQuery_eq, intercalate_nonempty_iff
    (rendered_amp raw), hempty, hlength]

/-- A canonical query has no character but the separators that its query had not. -/
theorem not_mem_canonicalQuery {x : Char} (hx : x.isAlpha = false) (hamp : x ≠ '&')
    (hequals : x ≠ '=') (h : x ∉ raw) : x ∉ canonicalQuery raw := by
  intro hmem
  rw [canonicalQuery_eq] at hmem
  rcases mem_of_mem_intercalate hmem with hmem | ⟨w, hw, hmem⟩
  · exact hamp (mem_singleton.1 hmem)
  · obtain ⟨pair, hpair, rfl⟩ := mem_map.1 hw
    rw [mem_sortedPairs, queryPairs, mem_filterMap] at hpair
    obtain ⟨part, hpart, hread⟩ := hpair
    have hno : x ∉ part := fun hc ↦
      h (mem_of_mem_splitOn (mem_of_mem_filter hpart) hc)
    obtain ⟨key, value, rfl, -, -, htext⟩ := readPair_some hread
    have hparts : x ∉ key ∧ x ∉ value := by
      rcases htext with rfl | ⟨rfl, rfl⟩
      · rw [mem_append, mem_cons, not_or, not_or] at hno
        exact ⟨hno.1, hno.2.2⟩
      · exact ⟨hno, not_mem_nil⟩
    have hrender : renderPair (toLex (lower key, value)) =
      if value = [] then lower key else lower key ++ '=' :: value := rfl
    rw [hrender] at hmem
    split at hmem
    · exact not_mem_lower hx hparts.1 hmem
    · rw [mem_append, mem_cons] at hmem
      rcases hmem with hmem | hmem | hmem
      · exact not_mem_lower hx hparts.1 hmem
      · exact hequals hmem
      · exact hparts.2 hmem

/-- A query is written with no more characters than it was. -/
theorem length_canonicalQuery_le (raw : Chars) : (canonicalQuery raw).length ≤ raw.length := by
  have hrender : ∀ part : Chars, ∀ pair, readPair part = some pair →
      (renderPair pair).length ≤ part.length := by
    intro part pair hread
    obtain ⟨key, value, rfl, -, -, htext⟩ := readPair_some hread
    have hlower : (lower key).length = key.length := length_map _
    have hpair : renderPair (toLex (lower key, value)) =
      if value = [] then lower key else lower key ++ '=' :: value := rfl
    rw [hpair]
    rcases htext with rfl | ⟨rfl, rfl⟩
    · split
      · rw [hlower, length_append]
        omega
      · rw [length_append, length_append, hlower, length_cons]
    · rw [if_pos rfl, hlower]
  have hpieces : ∀ parts : List Chars, ((parts.filterMap readPair).map fun pair ↦
      (renderPair pair).length + 1).sum ≤ (parts.map fun part ↦ part.length + 1).sum := by
    intro parts
    induction parts with
    | nil => exact le_rfl
    | cons part parts ih =>
      rw [map_cons, sum_cons]
      rcases hread : readPair part with _ | pair
      · rw [filterMap_cons_none hread]
        omega
      · have hpart := hrender part pair hread
        rw [filterMap_cons_some hread, map_cons, sum_cons]
        omega
  have hfilter : ∀ parts : List Chars, ((parts.filter fun part ↦ !part.isEmpty).map fun part ↦
      part.length + 1).sum ≤ (parts.map fun part ↦ part.length + 1).sum := by
    intro parts
    induction parts with
    | nil => exact le_rfl
    | cons part parts ih =>
      rw [filter_cons]
      split
      · rw [map_cons, sum_cons, map_cons, sum_cons]
        omega
      · rw [map_cons, sum_cons]
        omega
  have hsorted : ((sortedPairs raw).map fun pair ↦ (renderPair pair).length + 1).sum =
      ((queryPairs raw).map fun pair ↦ (renderPair pair).length + 1).sum :=
    ((mergeSort_perm _ _).map _).sum_nat
  have hraw : raw.length = ((raw.splitOn '&').map fun part ↦ part.length + 1).sum - 1 := by
    rw [← length_intercalate '&', intercalate_splitOn]
  have hall := (hpieces _).trans (hfilter (raw.splitOn '&'))
  rw [canonicalQuery_eq, length_intercalate, map_map, hraw]
  have hcomp : ((fun w : Chars ↦ w.length + 1) ∘ renderPair) =
    fun pair ↦ (renderPair pair).length + 1 := rfl
  rw [hcomp, hsorted]
  exact Nat.sub_le_sub_right hall 1

/-! ## The tail of a link -/

/-- `s` does not end in white space. -/
def Ended (s : Chars) : Prop := ∀ c ∈ s.getLast?, Text.isWhitespace c = false

/-- A path as it is written. -/
def writtenPath (path : Chars) : Chars := if path = "/".toList then [] else path

/-- A query as it is written, with the mark before it. -/
def writtenQuery (query : Chars) : Chars :=
  if canonicalQuery query = [] then [] else '?' :: canonicalQuery query

/-- A path and a query as a canonical link writes them. -/
def renderTail (path query : Chars) : Chars := writtenPath path ++ writtenQuery query

/-- The path and the query of what follows an authority. -/
def splitTail (tail : Chars) : Chars × Chars := (Pieces.splitOnce '?' tail).getD (tail, [])

/-- A path of a link: it begins with a slash, and a query is no part of it. -/
structure IsPath (path : Chars) : Prop where
  slash : ∀ c ∈ path.head?, c = '/'
  query : '?' ∉ path

theorem canonicalQuery_nil : canonicalQuery [] = [] := by
  have hpairs : queryPairs [] = [] := rfl
  rw [canonicalQuery, hpairs, mergeSort_nil]
  rfl

theorem length_writtenPath_le (path : Chars) : (writtenPath path).length ≤ path.length := by
  rw [writtenPath]
  split
  · exact Nat.zero_le _
  · exact le_rfl

theorem length_writtenQuery_le (query : Chars) :
    (writtenQuery query).length ≤ query.length + 1 := by
  have hle := length_canonicalQuery_le query
  rw [writtenQuery]
  split
  · exact Nat.zero_le _
  · rw [length_cons]
    omega

theorem writtenPath_writtenPath (path : Chars) :
    writtenPath (writtenPath path) = writtenPath path := by
  by_cases hslash : path = "/".toList
  · rw [hslash]
    rfl
  · rw [writtenPath, writtenPath, if_neg hslash, if_neg hslash]

theorem writtenQuery_inj {v w : Chars} (h : writtenQuery v = writtenQuery w) :
    canonicalQuery v = canonicalQuery w := by
  rw [writtenQuery, writtenQuery] at h
  split at h
  · rename_i hv
    split at h
    · rename_i hw
      rw [hv, hw]
    · simp at h
  · split at h
    · simp at h
    · exact (cons.inj h).2

theorem length_renderTail_le (tail : Chars) :
    (renderTail (splitTail tail).1 (splitTail tail).2).length ≤ tail.length := by
  rw [renderTail, length_append, splitTail]
  rcases hsplit : splitOnce '?' tail with _ | ⟨path, query⟩
  · have hpath := length_writtenPath_le tail
    rw [Option.getD_none, writtenQuery, canonicalQuery_nil, if_pos rfl]
    exact hpath
  · obtain ⟨rfl, -⟩ := splitOnce_eq_some.1 hsplit
    have hpath := length_writtenPath_le path
    have hquery := length_writtenQuery_le query
    simp only [Option.getD_some, length_append, length_cons]
    omega

theorem IsPath.written {path : Chars} (h : IsPath path) : IsPath (writtenPath path) := by
  rw [writtenPath]
  split
  · exact ⟨fun c hc ↦ absurd hc (by simp), not_mem_nil⟩
  · exact h

theorem head_renderTail {path query : Chars} (h : IsPath path) :
    ∀ c ∈ (renderTail path query).head?, c = '/' ∨ c = '?' := by
  intro c hc
  rw [renderTail] at hc
  by_cases hnil : writtenPath path = []
  · rw [hnil, nil_append, writtenQuery] at hc
    split at hc
    · simp at hc
    · exact .inr (Option.some.inj hc).symm
  · rw [head?_append_of_ne_nil _ hnil] at hc
    exact .inl (h.written.slash c hc)

theorem not_mem_renderTail {path query : Chars} (hpath : '#' ∉ path) (hquery : '#' ∉ query) :
    '#' ∉ renderTail path query := by
  rw [renderTail, mem_append, not_or, writtenPath, writtenQuery]
  refine ⟨?_, ?_⟩
  · split
    · exact not_mem_nil
    · exact hpath
  · split
    · exact not_mem_nil
    · rw [mem_cons, not_or]
      exact ⟨by decide, not_mem_canonicalQuery (by decide) (by decide) (by decide) hquery⟩

theorem splitTail_renderTail {path query : Chars} (h : IsPath path) :
    splitTail (renderTail path query) = (writtenPath path, canonicalQuery query) := by
  rw [splitTail, renderTail, writtenQuery]
  split
  · rename_i hquery
    rw [append_nil, splitOnce_eq_none.2 h.written.query, Option.getD_none, hquery]
  · rw [splitOnce_append h.written.query, Option.getD_some]

/-- The tail of a link as it is written the next time, its end trimmed. -/
def rewriteTail (tail : Chars) : Chars :=
  let (path, query) := splitTail (tail.rdropWhile Text.isWhitespace)
  renderTail path query

/-- **The tail of a link is stable when it does not end in white space and its query is stable.** -/
theorem renderTail_stable_iff {path query : Chars} (h : IsPath path) :
    rewriteTail (renderTail path query) = renderTail path query ↔ Ended (renderTail path query) ∧ canonicalQuery (canonicalQuery query) = canonicalQuery query := by
  by_cases hended : Ended (renderTail path query)
  · rw [rewriteTail, rdropWhile_eq_self hended, splitTail_renderTail h]
    simp only [hended, true_and]
    rw [renderTail, renderTail, writtenPath_writtenPath, append_cancel_left_eq]
    refine ⟨writtenQuery_inj, fun hsame ↦ ?_⟩
    rw [writtenQuery, writtenQuery, hsame]
  · have hshort := (List.rdropWhile_prefix Text.isWhitespace (renderTail path query)).length_le
    have hless : (rewriteTail (renderTail path query)).length ≤ _ := length_renderTail_le _
    have hne : ((renderTail path query).rdropWhile Text.isWhitespace).length ≠
        (renderTail path query).length := by
      intro hlen
      refine hended ?_
      have hself := (List.rdropWhile_prefix Text.isWhitespace _).eq_of_length hlen
      rw [← hself]
      exact getLast_rdropWhile _
    simp only [hended, false_and, iff_false]
    intro hsame
    rw [hsame] at hless
    omega

/-! ## What a link ends in -/

/-- What the characters of a canonical link end with: the value of the greatest pair, or its key
where it has no value, or the path where no pair is written. -/
def UrlParts.ending (parts : UrlParts) : Chars :=
  match (queryPairs parts.query).max? with
  | none => parts.path
  | some pair =>
    let (key, value) := ofLex pair
    if value ≠ [] then value else if key ≠ [] then key else parts.path

/-- The links whose canonical form is stable. -/
def UrlParts.Settled (parts : UrlParts) : Prop :=
  (toLex ([], []) ∈ queryPairs parts.query → (queryPairs parts.query).length = 1) ∧
    Ended parts.ending

theorem ended_writtenPath (path : Chars) : Ended (writtenPath path) ↔ Ended path := by
  rw [writtenPath]
  split
  · rename_i hslash
    rw [hslash]
    simp [Ended, Text.isWhitespace]
  · exact Iff.rfl

theorem sortedPairs_last {pair : Pair} (h : (queryPairs raw).max? = some pair) :
    ∃ less, sortedPairs raw = less ++ [pair] := by
  obtain ⟨hmem, hmax⟩ := max?_eq_some_iff.1 h
  have hne : sortedPairs raw ≠ [] := ne_nil_of_mem (mem_sortedPairs.2 hmem)
  refine ⟨(sortedPairs raw).dropLast, ?_⟩
  have hlast : (sortedPairs raw).getLast hne = pair := by
    refine le_antisymm (hmax _ (mem_sortedPairs.1 (getLast_mem hne))) ?_
    have hpair := pairwise_sortedPairs raw
    rw [← dropLast_append_getLast hne] at hpair
    have hsplit := mem_sortedPairs.2 hmem
    rw [← dropLast_append_getLast hne, mem_append, mem_singleton] at hsplit
    rcases hsplit with hin | rfl
    · exact (pairwise_append.1 hpair).2.2 _ hin _ (.head _)
    · exact le_rfl
  rw [← hlast, dropLast_append_getLast hne]

/-- With no empty pair beside another, the tail of a link ends as its greatest pair or its path. -/
theorem ended_renderTail {parts : UrlParts}
    (hone : toLex ([], []) ∈ queryPairs parts.query → (queryPairs parts.query).length = 1) :
    Ended (renderTail parts.path parts.query) ↔ Ended parts.ending := by
  have hpath : canonicalQuery parts.query = [] →
      (Ended (renderTail parts.path parts.query) ↔ Ended parts.path) := by
    intro hquery
    rw [renderTail, writtenQuery, if_pos hquery, append_nil, ended_writtenPath]
  rw [UrlParts.ending]
  rcases hmax : (queryPairs parts.query).max? with _ | pair
  · refine hpath ?_
    rw [canonicalQuery, max?_eq_none_iff.1 hmax, mergeSort_nil]
    rfl
  · obtain ⟨less, hless⟩ := sortedPairs_last hmax
    have hrender : renderPair pair = if (ofLex pair).2 = [] then (ofLex pair).1 else
      (ofLex pair).1 ++ '=' :: (ofLex pair).2 := rfl
    change Ended _ ↔ Ended (if (ofLex pair).2 ≠ [] then (ofLex pair).2 else
      if (ofLex pair).1 ≠ [] then (ofLex pair).1 else parts.path)
    by_cases hempty : renderPair pair = []
    · have hpair := renderPair_eq_nil.1 hempty
      have hmem : toLex ([], []) ∈ queryPairs parts.query := hpair ▸ max?_mem hmax
      have hsorted : (sortedPairs parts.query).length = 1 := by
        rw [sortedPairs, length_mergeSort]
        exact hone hmem
      have hnone : less = [] := by
        rw [hless, length_append, length_singleton] at hsorted
        exact length_eq_zero_iff.1 (by omega)
      have hquery : canonicalQuery parts.query = [] := by
        rw [canonicalQuery_eq, hless, hnone, nil_append, map_singleton,
          intercalate_singleton]
        exact hempty
      refine (hpath hquery).trans ?_
      rw [hpair]
      exact Iff.rfl
    · have hlast : (canonicalQuery parts.query).getLast? = (renderPair pair).getLast? := by
        rw [canonicalQuery_eq, hless, map_append, map_singleton]
        exact getLast?_intercalate _ hempty _
      have hquery : canonicalQuery parts.query ≠ [] := by
        intro hnil
        rw [hnil, getLast?_nil] at hlast
        exact hempty (getLast?_eq_none_iff.1 hlast.symm)
      have htail : (renderTail parts.path parts.query).getLast? = (renderPair pair).getLast? := by
        rw [renderTail, writtenQuery, if_neg hquery, getLast?_append_cons _ _ hquery, hlast]
      rw [Ended, htail, hrender]
      by_cases hvalue : (ofLex pair).2 = []
      · rw [hrender, if_pos hvalue] at hempty
        rw [if_pos hvalue, if_neg (not_not.2 hvalue), if_pos hempty]
        exact Iff.rfl
      · rw [if_neg hvalue, if_pos hvalue, getLast?_append_cons _ _ hvalue]
        exact Iff.rfl

/-- **The tail of a link is stable when the link is settled.** -/
theorem tail_stable_iff {parts : UrlParts} (h : IsPath parts.path) :
    rewriteTail (renderTail parts.path parts.query) = renderTail parts.path parts.query ↔
      parts.Settled := by
  rw [renderTail_stable_iff h, canonicalQuery_stable_iff, UrlParts.Settled]
  constructor
  · rintro ⟨hended, hone⟩
    exact ⟨hone, (ended_renderTail hone).1 hended⟩
  · rintro ⟨hone, hended⟩
    exact ⟨(ended_renderTail hone).2 hended, hone⟩

/-! ## Taking a link apart -/

/-- What the parts of a link are. -/
structure UrlParts.Valid (parts : UrlParts) : Prop where
  scheme : lower parts.scheme = "http".toList ∨ lower parts.scheme = "https".toList
  path : IsPath parts.path
  path_hash : '#' ∉ parts.path
  query_hash : '#' ∉ parts.query

theorem urlParts_valid {parts : UrlParts} (h : urlParts raw = some parts) : parts.Valid := by
  rw [urlParts] at h
  split at h
  · simp at h
  · rename_i scheme rest _
    split at h
    · simp at h
    · rename_i hscheme
      have hhash : '#' ∉ ((splitOnce '#' rest).getD (rest, [])).1 := by
        rcases hsplit : splitOnce '#' rest with _ | ⟨before, after⟩
        · exact splitOnce_eq_none.1 hsplit
        · exact (splitOnce_eq_some.1 hsplit).2
      simp only at h
      generalize ((splitOnce '#' rest).getD (rest, [])).1 = link at h hhash
      have hhead := head_dropWhile (p := fun c : Char ↦ !(c == '/' || c == '?')) link
      have hsub := (dropWhile_suffix (fun c : Char ↦ !(c == '/' || c == '?')) (l := link)).subset
      generalize link.dropWhile (fun c : Char ↦ !(c == '/' || c == '?')) = tail at h hhead hsub
      have hno : '#' ∉ tail := fun hc ↦ hhash (hsub hc)
      rw [not_and_or, not_not, not_not] at hscheme
      rcases hsplit : splitOnce '?' tail with _ | ⟨path, query⟩
      · rw [hsplit, Option.getD_none] at h
        cases h
        have hmark := splitOnce_eq_none.1 hsplit
        refine ⟨hscheme, ⟨fun c hc ↦ ?_, hmark⟩, hno, not_mem_nil⟩
        have hc' := hhead c hc
        simp only [Bool.not_eq_false', Bool.or_eq_true, beq_iff_eq] at hc'
        rcases hc' with rfl | rfl
        · rfl
        · exact absurd (mem_of_mem_head? hc) hmark
      · rw [hsplit, Option.getD_some] at h
        cases h
        obtain ⟨rfl, hmark⟩ := splitOnce_eq_some.1 hsplit
        rw [mem_append, mem_cons, not_or, not_or] at hno
        refine ⟨hscheme, ⟨fun c hc ↦ ?_, hmark⟩, hno.1, hno.2.2⟩
        obtain ⟨more, rfl⟩ := head?_eq_some_iff.1 hc
        have hc' := hhead c rfl
        simp only [Bool.not_eq_false', Bool.or_eq_true, beq_iff_eq] at hc'
        rcases hc' with rfl | rfl
        · rfl
        · exact absurd (.head _) hmark

theorem splitScheme_append {scheme : Chars} (h : ':' ∉ scheme) (rest : Chars) :
    splitScheme (scheme ++ "://".toList ++ rest) = some (scheme, rest) := by
  induction scheme with
  | nil => rfl
  | cons c scheme ih =>
    rw [mem_cons, not_or] at h
    rw [cons_append, cons_append, splitScheme, ih h.2]
    · rfl
    · rintro r rfl
      exact fun _ ↦ h.1 rfl

end Huntsman.Canonical
