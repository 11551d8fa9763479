import Mathlib.Algebra.Ring.Nat
import Mathlib.Data.List.DropRight
import Mathlib.Data.List.Infix

/-!
# Taking a text apart and putting it together

A text is a list.  `trim` takes what satisfies a test off both ends, `splitOnce` cuts at the first
separator, `words` is the pieces between what satisfies a test, and texts are put together by
`List.intercalate`.
-/

set_option autoImplicit false

namespace Pieces

open List

variable {α : Type*} {p : α → Bool} {s t : List α} {c : α}

/-! ## Ends -/

/-- `s` without what satisfies `p` at either end. -/
def trim (p : α → Bool) (s : List α) : List α := (s.dropWhile p).rdropWhile p

/-- `s` neither begins nor ends with what satisfies `p`. -/
def Trimmed (p : α → Bool) (s : List α) : Prop :=
  (∀ a ∈ s.head?, p a = false) ∧ ∀ a ∈ s.getLast?, p a = false

theorem dropWhile_eq_self (h : ∀ a ∈ s.head?, p a = false) : s.dropWhile p = s := by
  rcases s with _ | ⟨a, s⟩
  · rfl
  · rw [dropWhile_cons_of_neg]
    rw [h a rfl]
    exact Bool.false_ne_true

theorem rdropWhile_eq_self (h : ∀ a ∈ s.getLast?, p a = false) : s.rdropWhile p = s := by
  rw [rdropWhile_eq_self_iff]
  intro hne
  rw [h _ (getLast?_eq_some_getLast hne)]
  exact Bool.false_ne_true

theorem head_dropWhile (s : List α) : ∀ a ∈ (s.dropWhile p).head?, p a = false := by
  intro a ha
  obtain ⟨rest, hrest⟩ := head?_eq_some_iff.1 ha
  have hnot := dropWhile_get_zero_not p s (by rw [hrest]; exact Nat.succ_pos _)
  simpa [hrest] using hnot

theorem getLast_rdropWhile (s : List α) : ∀ a ∈ (s.rdropWhile p).getLast?, p a = false := by
  intro a ha
  rw [rdropWhile, getLast?_reverse] at ha
  exact head_dropWhile s.reverse a ha

theorem Trimmed.trim_eq (h : Trimmed p s) : trim p s = s := by
  rw [trim, dropWhile_eq_self h.1, rdropWhile_eq_self h.2]

theorem trimmed_trim (p : α → Bool) (s : List α) : Trimmed p (trim p s) := by
  refine ⟨fun a ha ↦ ?_, getLast_rdropWhile _⟩
  have hprefix : trim p s <+: s.dropWhile p := rdropWhile_prefix p _
  refine head_dropWhile s a ?_
  obtain ⟨rest, hrest⟩ := head?_eq_some_iff.1 ha
  obtain ⟨more, hmore⟩ := hprefix
  rw [← hmore, hrest]
  rfl

theorem trim_eq_self_iff : trim p s = s ↔ Trimmed p s :=
  ⟨fun h ↦ h ▸ trimmed_trim p s, Trimmed.trim_eq⟩

theorem trim_trim (p : α → Bool) (s : List α) : trim p (trim p s) = trim p s :=
  (trimmed_trim p s).trim_eq

theorem Trimmed.of_all (h : ∀ a ∈ s, p a = false) : Trimmed p s :=
  ⟨fun a ha ↦ h a (mem_of_mem_head? ha), fun a ha ↦ h a (mem_of_mem_getLast? ha)⟩

theorem trim_sublist (p : α → Bool) (s : List α) : (trim p s).Sublist s :=
  (List.rdropWhile_prefix p _).sublist.trans (dropWhile_suffix p).sublist

theorem mem_of_mem_trim {a : α} (h : a ∈ trim p s) : a ∈ s := (trim_sublist p s).subset h

/-- Trimming takes nothing or makes a text shorter. -/
theorem length_trim_lt (h : ¬ Trimmed p s) : (trim p s).length < s.length := by
  refine lt_of_le_of_ne (trim_sublist p s).length_le fun hlen ↦ h ?_
  exact trim_eq_self_iff.1 ((trim_sublist p s).eq_of_length hlen)

/-- What trimming takes stands around what it leaves. -/
theorem exists_trim (p : α → Bool) (s : List α) :
    ∃ l r, s = l ++ (trim p s ++ r) ∧ (∀ a ∈ l, p a = true) ∧ ∀ a ∈ r, p a = true := by
  refine ⟨s.takeWhile p, (s.dropWhile p).rtakeWhile p, ?_, fun a ha ↦ mem_takeWhile_imp ha,
    fun a ha ↦ mem_rtakeWhile_imp ha⟩
  rw [trim, rdropWhile_append_rtakeWhile, takeWhile_append_dropWhile]

theorem mem_trim_of_mem {a : α} (ha : a ∈ s) (hp : p a = false) : a ∈ trim p s := by
  obtain ⟨l, r, hs, hl, hr⟩ := exists_trim p s
  rw [hs, mem_append, mem_append] at ha
  rcases ha with ha | ha | ha
  · exact absurd ((hl a ha).symm.trans hp) (by decide)
  · exact ha
  · exact absurd ((hr a ha).symm.trans hp) (by decide)

theorem trim_map {β : Type*} {q : β → Bool} {f : α → β} (hf : ∀ a, q (f a) = p a) (s : List α) :
    trim q (s.map f) = (trim p s).map f := by
  have hq : q ∘ f = p := funext hf
  rw [trim, trim, rdropWhile, rdropWhile, dropWhile_map, hq, ← map_reverse,
    dropWhile_map, hq, map_reverse]

/-! ## The first separator -/

section Once

variable [DecidableEq α]

/-- The parts of `s` before and after its first `c`. -/
def splitOnce (c : α) : List α → Option (List α × List α)
  | [] => none
  | a :: s => if a = c then some ([], s) else (splitOnce c s).map fun r ↦ (a :: r.1, r.2)

theorem splitOnce_append (h : c ∉ s) (t : List α) : splitOnce c (s ++ c :: t) = some (s, t) := by
  induction s with
  | nil => rw [nil_append, splitOnce, if_pos rfl]
  | cons a s ih =>
    rw [mem_cons, not_or] at h
    rw [cons_append, splitOnce, if_neg (Ne.symm h.1), ih h.2]
    rfl

theorem splitOnce_none (h : c ∉ s) : splitOnce c s = none := by
  induction s with
  | nil => rfl
  | cons a s ih =>
    rw [mem_cons, not_or] at h
    rw [splitOnce, if_neg (Ne.symm h.1), ih h.2]
    rfl

theorem splitOnce_eq_some {before after : List α} :
    splitOnce c s = some (before, after) ↔ s = before ++ c :: after ∧ c ∉ before := by
  constructor
  · intro h
    by_cases hmem : c ∈ s
    · obtain ⟨as, bs, rfl, hnot⟩ := eq_append_cons_of_mem hmem
      rw [splitOnce_append hnot] at h
      cases h
      exact ⟨rfl, hnot⟩
    · rw [splitOnce_none hmem] at h
      simp at h
  · rintro ⟨rfl, hnot⟩
    exact splitOnce_append hnot after

theorem splitOnce_eq_none : splitOnce c s = none ↔ c ∉ s := by
  refine ⟨fun h hmem ↦ ?_, splitOnce_none⟩
  obtain ⟨as, bs, rfl, hnot⟩ := eq_append_cons_of_mem hmem
  rw [splitOnce_append hnot] at h
  simp at h

theorem splitOnce_map {f : α → α} (hf : ∀ a, f a = c ↔ a = c) (s : List α) :
    splitOnce c (s.map f) = (splitOnce c s).map (Prod.map (List.map f) (List.map f)) := by
  induction s with
  | nil => rfl
  | cons a s ih =>
    rw [map_cons, splitOnce, splitOnce, ih]
    by_cases h : a = c
    · rw [if_pos h, if_pos ((hf a).2 h)]
      rfl
    · rw [if_neg h, if_neg fun heq ↦ h ((hf a).1 heq), Option.map_map, Option.map_map]
      rfl

end Once

/-! ## Words -/

/-- The pieces of `s` between what satisfies `p`, the empty ones left out. -/
def words (p : α → Bool) (s : List α) : List (List α) := (s.splitOnP p).filter fun w ↦ !w.isEmpty

theorem words_nil (p : α → Bool) : words p [] = [] := rfl

theorem words_append_cons (hc : p c = true) (s t : List α) :
    words p (s ++ c :: t) = words p s ++ words p t := by
  rw [words, splitOnP_append_cons s t hc, filter_append]
  rfl

theorem words_of_all (h : ∀ a ∈ s, p a = false) (hne : s ≠ []) : words p s = [s] := by
  rw [words, splitOnP_eq_singleton h, filter_cons_of_pos, filter_nil]
  simpa using hne

variable {ws : List (List α)} {w : List α} {a : α}

/-- Words put together with a separator between them are read back. -/
theorem words_intercalate (hc : p c = true)
    (h : ∀ w ∈ ws, w ≠ [] ∧ ∀ a ∈ w, p a = false) : words p ([c].intercalate ws) = ws := by
  induction ws with
  | nil => rfl
  | cons w ws ih =>
    obtain ⟨hw, hws⟩ := forall_mem_cons.1 h
    rcases ws with _ | ⟨w', ws⟩
    · rw [intercalate_singleton, words_of_all hw.2 hw.1]
    · rw [intercalate_cons_cons, append_assoc, singleton_append,
        words_append_cons hc, words_of_all hw.2 hw.1, ih hws, singleton_append]

/-- Trimming a text that begins with a trimmed one. -/
theorem trim_append (hs : s ≠ []) (h : Trimmed p s) (t : List α) :
    trim p (s ++ t) = s ++ t.rdropWhile p := by
  have hback : (s ++ t).rdropWhile p = s ++ t.rdropWhile p := by
    induction t using reverseRecOn with
    | nil => rw [append_nil, rdropWhile_nil, append_nil, rdropWhile_eq_self h.2]
    | append_singleton t a ih =>
      rw [← append_assoc]
      by_cases ha : p a = true
      · rw [rdropWhile_concat_pos _ _ _ ha, rdropWhile_concat_pos _ _ _ ha, ih]
      · rw [rdropWhile_concat_neg _ _ _ ha, rdropWhile_concat_neg _ _ _ ha,
          append_assoc]
  have hfront : (s ++ t).dropWhile p = s ++ t := by
    obtain ⟨a, s, rfl⟩ := exists_cons_of_ne_nil hs
    exact dropWhile_eq_self fun b hb ↦ h.1 b hb
  rw [trim, hfront, hback]

theorem Trimmed.append (hs : s ≠ []) (ht : t ≠ []) (hhead : Trimmed p s)
    (hlast : Trimmed p t) (mid : List α) : Trimmed p (s ++ (mid ++ t)) := by
  obtain ⟨a, s, rfl⟩ := exists_cons_of_ne_nil hs
  refine ⟨fun b hb ↦ hhead.1 b hb, fun b hb ↦ hlast.2 b ?_⟩
  rw [← append_assoc, getLast?_append_of_ne_nil _ ht] at hb
  exact hb

/-- Words put together begin and end as a word does. -/
theorem trimmed_intercalate (sep : List α)
    (h : ∀ w ∈ ws, w ≠ [] ∧ ∀ a ∈ w, p a = false) : Trimmed p (sep.intercalate ws) := by
  have hends : ∀ ws : List (List α), ws ≠ [] → (∀ w ∈ ws, w ≠ [] ∧ ∀ a ∈ w, p a = false) →
      sep.intercalate ws ≠ [] ∧ Trimmed p (sep.intercalate ws) := by
    intro ws hne h
    induction ws with
    | nil => exact absurd rfl hne
    | cons w ws ih =>
      obtain ⟨hw, hws⟩ := forall_mem_cons.1 h
      rcases ws with _ | ⟨w', ws⟩
      · rw [intercalate_singleton]
        exact ⟨hw.1, Trimmed.of_all hw.2⟩
      · obtain ⟨hmore, htrim⟩ := ih (cons_ne_nil _ _) hws
        rw [intercalate_cons_cons, append_assoc]
        exact ⟨append_ne_nil_of_left_ne_nil hw.1 _,
          Trimmed.append hw.1 hmore (Trimmed.of_all hw.2) htrim sep⟩
  rcases ws with _ | ⟨w, ws⟩
  · exact ⟨fun a ha ↦ absurd ha (by simp), fun a ha ↦ absurd ha (by simp)⟩
  · exact (hends _ (cons_ne_nil _ _) h).2

/-- A text is one word without what satisfies `p`, or such a word stands before its first `p`. -/
theorem words_induction {P : List α → Prop} (word : ∀ s, (∀ a ∈ s, p a = false) → P s)
    (cons : ∀ s c t, (∀ a ∈ s, p a = false) → p c = true → P t → P (s ++ c :: t)) (s : List α) :
    P s := by
  induction h : s.length using Nat.strong_induction_on generalizing s with
  | h n ih =>
    by_cases hall : ∀ a ∈ s, p a = false
    · exact word s hall
    · have hdrop : s.dropWhile (fun a ↦ !p a) ≠ [] := by
        intro hnil
        rw [dropWhile_eq_nil_iff] at hnil
        exact hall fun a ha ↦ by simpa using hnil a ha
      obtain ⟨c, t, hct⟩ := exists_cons_of_ne_nil hdrop
      have hc : p c = true := by
        have := head_dropWhile (p := fun a ↦ !p a) s c (by rw [hct]; rfl)
        simpa using this
      have hs : s = s.takeWhile (fun a ↦ !p a) ++ c :: t := by
        rw [← hct, takeWhile_append_dropWhile]
      rw [hs]
      refine cons _ c t (fun a ha ↦ by simpa using mem_takeWhile_imp ha) hc
        (ih t.length ?_ t rfl)
      rw [← h, hs, length_append, length_cons]
      omega

theorem words_eq_nil_or (h : ∀ a ∈ s, p a = false) : words p s = if s = [] then [] else [s] := by
  split
  · rename_i hs
    rw [hs, words_nil]
  · rename_i hs
    exact words_of_all h hs

theorem mem_words (h : w ∈ words p s) : w ≠ [] ∧ ∀ a ∈ w, p a = false := by
  induction s using words_induction (p := p) with
  | word s hs =>
    rw [words_eq_nil_or hs] at h
    split at h
    · cases h
    · rename_i hne
      rw [mem_singleton.1 h]
      exact ⟨hne, hs⟩
  | cons s c t hs hc ih =>
    rw [words_append_cons hc, mem_append] at h
    rcases h with h | h
    · rw [words_eq_nil_or hs] at h
      split at h
      · cases h
      · rename_i hne
        rw [mem_singleton.1 h]
        exact ⟨hne, hs⟩
    · exact ih h

/-- Writing out each character leaves the words apart, if what satisfies `p` stays as it is. -/
theorem words_flatMap {f : α → List α} (hf : ∀ a, p a = true → f a = [a]) (s : List α) :
    words p (s.flatMap f) = (words p s).flatMap fun w ↦ words p (w.flatMap f) := by
  have hword : ∀ s : List α, (∀ a ∈ s, p a = false) →
      words p (s.flatMap f) = (words p s).flatMap fun w ↦ words p (w.flatMap f) := by
    intro s hs
    rw [words_eq_nil_or hs]
    split
    · rename_i hnil
      rw [hnil]
      rfl
    · rw [flatMap_singleton]
  induction s using words_induction (p := p) with
  | word s hs => exact hword s hs
  | cons s c t hs hc ih =>
    rw [flatMap_append, flatMap_cons, hf c hc, singleton_append,
      words_append_cons hc, words_append_cons hc, flatMap_append, ih, hword s hs]

theorem words_map {f : α → α} (hf : ∀ a, p (f a) = p a) (s : List α) :
    words p (s.map f) = (words p s).map (List.map f) := by
  have hword : ∀ s : List α, (∀ a ∈ s, p a = false) →
      words p (s.map f) = (words p s).map (map f) := by
    intro s hs
    have hmap : ∀ a ∈ s.map f, p a = false := by
      intro a ha
      obtain ⟨b, hb, rfl⟩ := mem_map.1 ha
      rw [hf, hs b hb]
    rw [words_eq_nil_or hs, words_eq_nil_or hmap]
    simp only [map_eq_nil_iff]
    split <;> rfl
  induction s using words_induction (p := p) with
  | word s hs => exact hword s hs
  | cons s c t hs hc ih =>
    rw [map_append, map_cons, words_append_cons hc,
      words_append_cons (by rw [hf, hc]), map_append, ih, hword s hs]

/-- A text between blanks has the words of its middle. -/
theorem words_trim (s : List α) : words p (trim p s) = words p s := by
  have hblank : ∀ s t : List α, (∀ a ∈ s, p a = true) →
      words p (s ++ t) = words p t ∧ words p (t ++ s) = words p t := by
    intro s t hs
    induction s generalizing t with
    | nil => exact ⟨rfl, by rw [append_nil]⟩
    | cons c s ih =>
      obtain ⟨hc, hs⟩ := forall_mem_cons.1 hs
      refine ⟨?_, ?_⟩
      · rw [cons_append, ← nil_append (c :: (s ++ t)), words_append_cons hc, words_nil,
          nil_append, (ih t hs).1]
      · rw [words_append_cons hc, ← append_nil s, (ih [] hs).1, words_nil, append_nil]
  obtain ⟨l, r, hs, hl, hr⟩ := exists_trim p s
  conv_rhs => rw [hs, (hblank l _ hl).1, (hblank r _ hr).2]

theorem mem_of_mem_words (hw : w ∈ words p s) (ha : a ∈ w) : a ∈ s := by
  induction s using words_induction (p := p) with
  | word s hs =>
    rw [words_eq_nil_or hs] at hw
    split at hw
    · cases hw
    · rwa [mem_singleton.1 hw] at ha
  | cons s c t hs hc ih =>
    rw [words_append_cons hc, mem_append, words_eq_nil_or hs] at hw
    rw [mem_append, mem_cons]
    rcases hw with hw | hw
    · split at hw
      · cases hw
      · rw [mem_singleton.1 hw] at ha
        exact .inl ha
    · exact .inr (.inr (ih hw))

/-- A separator is before each text but the first. -/
theorem intercalate_cons_eq_append_flatMap (sep a : List α) (l : List (List α)) :
    sep.intercalate (a :: l) = a ++ l.flatMap (sep ++ ·) := by
  induction l generalizing a with
  | nil => rw [intercalate_singleton, flatMap_nil, append_nil]
  | cons b l ih => rw [intercalate_cons_cons, ih, flatMap_cons, append_assoc,
      append_assoc]

theorem mem_of_mem_intercalate {sep : List α}
    (h : a ∈ sep.intercalate ws) : a ∈ sep ∨ ∃ w ∈ ws, a ∈ w := by
  induction ws with
  | nil => cases h
  | cons w ws ih =>
    rcases ws with _ | ⟨w', ws⟩
    · rw [intercalate_singleton] at h
      exact .inr ⟨w, (.head _), h⟩
    · rw [intercalate_cons_cons, mem_append, mem_append] at h
      rcases h with (h | h) | h
      · exact .inr ⟨w, (.head _), h⟩
      · exact .inl h
      · exact (ih h).imp_right fun ⟨v, hv, ha⟩ ↦ ⟨v, .tail _ hv, ha⟩

theorem mem_intercalate_of_mem (sep : List α) (hw : w ∈ ws)
    (ha : a ∈ w) : a ∈ sep.intercalate ws := by
  induction ws with
  | nil => cases hw
  | cons v ws ih =>
    rcases ws with _ | ⟨v', ws⟩
    · rw [intercalate_singleton, ← mem_singleton.1 hw]
      exact ha
    · rw [intercalate_cons_cons]
      rcases mem_cons.1 hw with rfl | hw
      · exact mem_append_left _ (mem_append_left _ ha)
      · exact mem_append_right _ (ih hw)

theorem mem_of_mem_splitOn [DecidableEq α] (hw : w ∈ s.splitOn c)
    (ha : a ∈ w) : a ∈ s := by
  have hmem := mem_intercalate_of_mem [c] hw ha
  rwa [intercalate_splitOn] at hmem

theorem getLast?_append_cons (s : List α) (c : α) (ht : t ≠ []) :
    (s ++ c :: t).getLast? = t.getLast? := by
  rw [← singleton_append, ← append_assoc, getLast?_append_of_ne_nil _ ht]

theorem length_intercalate (c : α) (ws : List (List α)) :
    ([c].intercalate ws).length = (ws.map fun w ↦ w.length + 1).sum - 1 := by
  induction ws with
  | nil => rfl
  | cons w ws ih =>
    rcases ws with _ | ⟨w', ws⟩
    · rw [intercalate_singleton, map_singleton, sum_singleton, Nat.add_sub_cancel]
    · rw [intercalate_cons_cons, length_append, ih, length_append,
        length_singleton]
      simp only [map_cons, sum_cons]
      omega

theorem getLast?_intercalate (sep : List α) (hw : w ≠ []) (ws : List (List α)) :
    (sep.intercalate (ws ++ [w])).getLast? = w.getLast? := by
  have hends : sep.intercalate (ws ++ [w]) ≠ [] ∧
      (sep.intercalate (ws ++ [w])).getLast? = w.getLast? := by
    induction ws with
    | nil =>
      rw [nil_append, intercalate_singleton]
      exact ⟨hw, rfl⟩
    | cons v ws ih =>
      have hne : ws ++ [w] ≠ [] := append_ne_nil_of_right_ne_nil _ (cons_ne_nil _ _)
      rw [cons_append, intercalate_cons_of_ne_nil hne]
      rw [getLast?_append_of_ne_nil _ ih.1]
      exact ⟨append_ne_nil_of_right_ne_nil _ ih.1, ih.2⟩
  exact hends.2

theorem not_mem_of_mem_splitOn [DecidableEq α] (h : w ∈ s.splitOn c) : c ∉ w := by
  induction s using words_induction (p := (· == c)) with
  | word s hs =>
    have hnot : c ∉ s := fun hc ↦ by simpa using hs c hc
    rw [splitOn_eq_singleton hnot, mem_singleton] at h
    rwa [h]
  | cons s a t hs ha ih =>
    have hnot : c ∉ s := fun hc ↦ by simpa using hs c hc
    obtain rfl : a = c := by simpa using ha
    rw [splitOn_append_cons_self_of_not_mem hnot, mem_cons] at h
    rcases h with rfl | h
    · exact hnot
    · exact ih h

theorem words_eq_nil_iff : words p s = [] ↔ ∀ a ∈ s, p a = true := by
  induction s using words_induction (p := p) with
  | word s hs =>
    rw [words_eq_nil_or hs]
    rcases s with _ | ⟨a, s⟩
    · simp
    · rw [if_neg (cons_ne_nil a s)]
      refine ⟨fun h ↦ absurd h (cons_ne_nil _ _), fun h ↦ ?_⟩
      exact absurd ((hs a (.head _)).symm.trans (h a (.head _))) (by decide)
  | cons s c t hs hc ih =>
    rw [words_append_cons hc, append_eq_nil_iff, ih, words_eq_nil_or hs, forall_mem_append,
      forall_mem_cons]
    rcases s with _ | ⟨a, s⟩
    · simp [hc]
    · rw [if_neg (cons_ne_nil a s)]
      refine ⟨fun h ↦ absurd h.1 (cons_ne_nil _ _), fun h ↦ ?_⟩
      exact absurd ((hs a (.head _)).symm.trans (h.1 a (.head _))) (by decide)

/-- A text of at most one word that no blank stands around is that word. -/
theorem flatten_words (h : Trimmed p s) (hone : (words p s).length ≤ 1) :
    (words p s).flatten = s := by
  induction s using words_induction (p := p) with
  | word s hs =>
    rw [words_eq_nil_or hs]
    split
    · rename_i hnil
      rw [hnil]
      rfl
    · exact flatten_singleton
  | cons s c t hs hc _ =>
    have hne : s ≠ [] := by
      rintro rfl
      exact absurd (hc.symm.trans (h.1 c rfl)) (by decide)
    rw [words_append_cons hc, words_of_all hs hne, length_append, length_singleton] at hone
    have hblank := words_eq_nil_iff.1 (length_eq_zero_iff.1 (by omega : (words p t).length = 0))
    have hlast := h.2 _ (getLast?_eq_some_getLast (by simp))
    have hmem : (s ++ c :: t).getLast (by simp) ∈ c :: t := by
      rw [getLast_append_of_ne_nil _ (cons_ne_nil c t)]
      exact getLast_mem _
    rcases mem_cons.1 hmem with hmem | hmem
    · rw [hmem, hc] at hlast
      simp at hlast
    · rw [hblank _ hmem] at hlast
      simp at hlast

/-- A text with the words of one that is a single word between blanks is it between blanks. -/
theorem trim_eq_of_words (h : ∀ a ∈ trim p s, p a = false) (hwords : words p t = words p s) :
    trim p t = trim p s := by
  have hone : (words p (trim p s)).length ≤ 1 := by
    rw [words_eq_nil_or h]
    split <;> simp
  have hsame : words p (trim p t) = words p (trim p s) := by
    rw [words_trim, words_trim, hwords]
  rw [← flatten_words (trimmed_trim p s) hone, ← hsame, flatten_words (trimmed_trim p t)]
  rw [hsame]
  exact hone

/-- Leaving the empty pieces out shows, unless the text is one empty piece. -/
theorem intercalate_nonempty_iff [DecidableEq α] (h : ∀ w ∈ ws, c ∉ w) :
    [c].intercalate (ws.filter fun w ↦ !w.isEmpty) = [c].intercalate ws ↔
      ([] ∈ ws → ws.length = 1) := by
  have hkept : ∀ w ∈ ws.filter fun w ↦ !w.isEmpty, c ∉ w := fun w hw ↦ h w (mem_of_mem_filter hw)
  constructor
  · intro heq hmem
    have hne : ws ≠ [] := ne_nil_of_mem hmem
    have hshort : (ws.filter fun w ↦ !w.isEmpty).length < ws.length :=
      length_filter_lt_length_iff_exists.2 ⟨[], hmem, by simp⟩
    have hall := splitOn_intercalate c h hne
    rw [← heq] at hall
    by_cases hnil : (ws.filter fun w ↦ !w.isEmpty) = []
    · rw [hnil, intercalate_nil, splitOn_nil] at hall
      rw [← hall]
      rfl
    · rw [splitOn_intercalate c hkept hnil] at hall
      rw [hall] at hshort
      exact absurd hshort (lt_irrefl _)
  · intro hone
    by_cases hmem : [] ∈ ws
    · obtain ⟨w, rfl⟩ := length_eq_one_iff.1 (hone hmem)
      rw [← mem_singleton.1 hmem]
      rfl
    · congr 1
      rw [filter_eq_self]
      intro w hw
      rw [Bool.not_eq_true', isEmpty_eq_false_iff]
      rintro rfl
      exact hmem hw

/-! ## Lines -/

/-- Lines, each with the separator after it. -/
def unlines (c : α) (lines : List (List α)) : List α := lines.flatMap fun line ↦ line ++ [c]

theorem unlines_append (lines more : List (List α)) :
    unlines c (lines ++ more) = unlines c lines ++ unlines c more := flatMap_append

theorem unlines_singleton (line : List α) : unlines c [line] = line ++ [c] := by
  rw [unlines, flatMap_singleton]

theorem unlines_cons (line : List α) (lines : List (List α)) :
    unlines c (line :: lines) = line ++ c :: unlines c lines := by
  rw [unlines, flatMap_cons, append_assoc]
  rfl

/-- Any text is some lines and a rest without a separator. -/
theorem exists_unlines [DecidableEq α] (c : α) (s : List α) :
    ∃ lines rest, s = unlines c lines ++ rest ∧ (∀ line ∈ lines, c ∉ line) ∧ c ∉ rest := by
  induction s using words_induction (p := (· == c)) with
  | word s hs => exact ⟨[], s, rfl, by simp, fun hc ↦ by simpa using hs c hc⟩
  | cons s d t hs hd ih =>
    obtain ⟨lines, rest, rfl, hlines, hrest⟩ := ih
    rw [beq_iff_eq] at hd
    subst hd
    have hnot : d ∉ s := fun hd ↦ by simpa using hs d hd
    refine ⟨s :: lines, rest, ?_, ?_, hrest⟩
    · rw [unlines_cons, append_assoc, cons_append]
    · exact forall_mem_cons.2 ⟨hnot, hlines⟩

theorem splitOn_unlines [DecidableEq α] {lines : List (List α)} {rest : List α}
    (h : ∀ line ∈ lines, c ∉ line) (hrest : c ∉ rest) :
    (unlines c lines ++ rest).splitOn c = lines ++ [rest] := by
  induction lines with
  | nil => exact splitOn_eq_singleton hrest
  | cons line lines ih =>
    obtain ⟨hline, hlines⟩ := forall_mem_cons.1 h
    rw [unlines_cons, append_assoc, cons_append, splitOn_append_cons_self_of_not_mem hline, ih hlines,
      cons_append]

theorem rdropWhile_unlines [DecidableEq α] {rest : List α} (lines : List (List α))
    (hrest : c ∉ rest) : (unlines c lines ++ rest).rdropWhile (· != c) = unlines c lines := by
  have hall : ∀ a ∈ rest.reverse, (a != c) = true := by
    intro a ha
    rw [bne_iff_ne]
    rintro rfl
    exact hrest (mem_reverse.1 ha)
  rw [rdropWhile, reverse_append, dropWhile_append_of_pos hall]
  rcases lines.eq_nil_or_concat with rfl | ⟨lines, line, rfl⟩
  · rfl
  · rw [concat_eq_append, unlines_append, unlines_singleton, ← append_assoc,
      reverse_append, reverse_singleton, singleton_append,
      dropWhile_cons_of_neg (by simp), reverse_cons, reverse_reverse]

/-! ## Chunks -/

/-- The pieces of `n` elements one after the other, the last of them what is left. -/
def chunks (n : ℕ) (s : List α) : List (List α) :=
  if s = [] ∨ n = 0 then [] else s.take n :: chunks n (s.drop n)
termination_by s.length
decreasing_by
  rename_i h
  rw [List.length_drop]
  have := List.length_pos_iff.2 (not_or.1 h).1
  omega

variable {n : ℕ}

theorem chunks_nil (n : ℕ) : chunks n ([] : List α) = [] := by
  rw [chunks, if_pos (.inl rfl)]

theorem chunks_cons (hs : s ≠ []) (hn : n ≠ 0) :
    chunks n s = s.take n :: chunks n (s.drop n) := by
  rw [chunks, if_neg (not_or.2 ⟨hs, hn⟩)]

/-- A text is taken chunk by chunk. -/
theorem chunks_append (hn : n ≠ 0) (hs : s.length = n) (t : List α) :
    chunks n (s ++ t) = s :: chunks n t := by
  have hne : s ++ t ≠ [] := by
    rintro h
    rw [(append_eq_nil_iff.1 h).1] at hs
    exact hn hs.symm
  rw [chunks_cons hne hn, take_left' hs, drop_left' hs]

/-- **Induction by chunks**: a text that is less than a chunk, and a chunk before a text. -/
theorem chunks_induction {P : List α → Prop} (hn : n ≠ 0) (short : ∀ s, s.length < n → P s)
    (chunk : ∀ s t, s.length = n → P t → P (s ++ t)) (s : List α) : P s := by
  induction h : s.length using Nat.strong_induction_on generalizing s with
  | h k ih =>
    rcases lt_or_ge s.length n with hlt | hge
    · exact short s hlt
    · rw [← take_append_drop n s]
      refine chunk _ _ (length_take_of_le hge) (ih _ ?_ _ rfl)
      rw [length_drop]
      omega

/-- A text of at most `n` elements is one chunk. -/
theorem chunks_of_le (hs : s ≠ []) (h : s.length ≤ n) : chunks n s = [s] := by
  have hn : n ≠ 0 := by
    have := length_pos_iff.2 hs
    omega
  rw [chunks_cons hs hn, take_of_length_le h, drop_of_length_le h, chunks_nil]

theorem flatten_chunks (hn : n ≠ 0) (s : List α) : (chunks n s).flatten = s := by
  induction h : s.length using Nat.strong_induction_on generalizing s with
  | h k ih =>
    by_cases hs : s = []
    · rw [hs, chunks_nil, flatten_nil]
    · have hpos := length_pos_iff.2 hs
      rw [chunks_cons hs hn, flatten_cons, ih _ (by rw [length_drop]; omega) _ rfl,
        take_append_drop]

/-- How many chunks there are is a matter of the length. -/
theorem length_chunks_congr (h : s.length = t.length) :
    (chunks n s).length = (chunks n t).length := by
  induction hk : s.length using Nat.strong_induction_on generalizing s t with
  | h k ih =>
    by_cases hstop : s = [] ∨ n = 0
    · have hstop' : t = [] ∨ n = 0 := by
        rcases hstop with rfl | hn
        · exact .inl (length_eq_zero_iff.1 h.symm)
        · exact .inr hn
      rw [chunks, if_pos hstop, chunks, if_pos hstop']
    · obtain ⟨hs, hn⟩ := not_or.1 hstop
      have hpos := length_pos_iff.2 hs
      have ht : t ≠ [] := length_pos_iff.1 (h ▸ hpos)
      have hdrop : (s.drop n).length = (t.drop n).length := by
        rw [length_drop, length_drop, h]
      have hless : (s.drop n).length < k := by
        rw [length_drop]
        omega
      rw [chunks_cons hs hn, chunks_cons ht hn, length_cons, length_cons,
        ih _ hless hdrop rfl]

theorem chunks_injective (hn : n ≠ 0) : Function.Injective (chunks n : List α → List (List α)) :=
  fun s t h ↦ by rw [← flatten_chunks hn s, h, flatten_chunks hn t]

end Pieces
