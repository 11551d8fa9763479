import Huntsman.Entity

/-!
# Attribute values

An attribute that several records carry holds all their values in one text, with a separator between
them.  `holdsWhole` is the test whether a value is among them, which never looks inside a value: it
is that the value stands in the text with the text's ends or separators around it (`Stands`).  As
such it is a preorder, and `foldValue` makes an upper bound of two texts, so that a sequence of
folds holds all that went into it (`foldl_foldValue_holds`).
-/

set_option autoImplicit false

namespace Huntsman

open List

variable {held value incoming : String}

/-- `value` stands in `held`, at each side an end of it or a separator. -/
def Stands (held value : List Char) : Prop :=
  ∃ before after, held = before ++ (value ++ after) ∧
    (before = [] ∨ valueSeparator.toList <:+ before) ∧
    (after = [] ∨ valueSeparator.toList <+: after)

theorem Stands.refl (held : List Char) : Stands held held :=
  ⟨[], [], by rw [append_nil, nil_append], .inl rfl, .inl rfl⟩

theorem Stands.trans {xs ys zs : List Char} (h : Stands xs ys) (h' : Stands ys zs) :
    Stands xs zs := by
  obtain ⟨before, after, rfl, hbefore, hafter⟩ := h
  obtain ⟨before', after', rfl, hbefore', hafter'⟩ := h'
  refine ⟨before ++ before', after' ++ after, by simp, ?_, ?_⟩
  · rcases hbefore' with rfl | hbefore'
    · rw [append_nil]
      exact hbefore
    · exact .inr (hbefore'.trans (suffix_append _ _))
  · rcases hafter' with rfl | hafter'
    · rw [nil_append]
      exact hafter
    · exact .inr (hafter'.trans (prefix_append _ _))

theorem holdsWhole_iff : holdsWhole held value = true ↔ Stands held.toList value.toList := by
  simp only [holdsWhole, Bool.or_eq_true, beq_iff_eq, Option.any_eq_true, Text.stripPrefix_eq_some,
    Text.stripSuffix_eq_some, Text.startsWith_iff, Text.endsWith_iff, Text.contains_iff]
  constructor
  · rintro (((rfl | ⟨rest, hrest, hstart⟩) | ⟨rest, hrest, hend⟩) | ⟨before, after, hmid⟩)
    · exact .refl _
    · exact ⟨[], rest.toList, hrest, .inl rfl, .inr hstart⟩
    · exact ⟨rest.toList, [], by rw [append_nil, hrest], .inr hend, .inl rfl⟩
    · refine ⟨before ++ valueSeparator.toList, valueSeparator.toList ++ after, ?_,
        .inr (suffix_append _ _), .inr (prefix_append _ _)⟩
      rw [← hmid, String.toList_append, String.toList_append]
      simp
  · rintro ⟨before, after, heq, rfl | ⟨before, rfl⟩, rfl | ⟨after, rfl⟩⟩
    · rw [append_nil, nil_append, String.toList_inj] at heq
      exact .inl (.inl (.inl heq))
    · refine .inl (.inl (.inr ⟨String.ofList (valueSeparator.toList ++ after), ?_, ?_⟩))
      · rw [String.toList_ofList, heq, nil_append]
      · rw [String.toList_ofList]
        exact prefix_append _ _
    · refine .inl (.inr ⟨String.ofList (before ++ valueSeparator.toList), ?_, ?_⟩)
      · rw [String.toList_ofList, heq, append_nil]
      · rw [String.toList_ofList]
        exact suffix_append _ _
    · refine .inr ⟨before, after, ?_⟩
      rw [heq, String.toList_append, String.toList_append]
      simp

theorem holdsWhole_refl (value : String) : holdsWhole value value = true :=
  holdsWhole_iff.2 (.refl _)

theorem holdsWhole_trans {a b c : String} (h : holdsWhole a b = true) (h' : holdsWhole b c = true) :
    holdsWhole a c = true :=
  holdsWhole_iff.2 ((holdsWhole_iff.1 h).trans (holdsWhole_iff.1 h'))

/-- What follows a separator stands in the text. -/
theorem holdsWhole_joined (before value : String) :
    holdsWhole (before ++ valueSeparator ++ value) before = true ∧
      holdsWhole (before ++ valueSeparator ++ value) value = true := by
  rw [holdsWhole_iff, holdsWhole_iff, String.toList_append, String.toList_append]
  constructor
  · refine ⟨[], valueSeparator.toList ++ value.toList, by simp, .inl rfl,
      .inr (prefix_append _ _)⟩
  · refine ⟨before.toList ++ valueSeparator.toList, [], by simp, .inr (suffix_append _ _),
      .inl rfl⟩

/-- **Both texts stand whole in what they are folded into.** -/
theorem foldValue_holds (held incoming : String) :
    holdsWhole (foldValue held incoming) held = true ∧
      holdsWhole (foldValue held incoming) incoming = true := by
  unfold foldValue
  split
  · rename_i h
    exact ⟨holdsWhole_refl held, h⟩
  · split
    · rename_i h
      exact ⟨h, holdsWhole_refl incoming⟩
    · refine ⟨(holdsWhole_joined held _).1, ?_⟩
      simp only
      split
      · -- what both have is written once, so that the incoming text ends the new one
        rename_i i hfind
        have hmem := mem_of_find?_eq_some hfind
        have hshared := find?_some hfind
        obtain ⟨before, hstrip, hend⟩ := (Option.any_eq_true _ _).1 hshared
        have hheld := Text.stripSuffix_eq_some.1 hstrip
        rw [holdsWhole_iff, String.toList_append, String.toList_append]
        refine ⟨before.toList, [], ?_, .inr (Text.endsWith_iff.1 hend), .inl rfl⟩
        rw [hheld, Text.before_after hmem]
        simp
      · exact (holdsWhole_joined held incoming).2

/-- **However many texts are folded in one after the other, all of them stand whole in the one that
holds them**, and whatever is folded in next leaves what was held a run of the new text with its
ends or separators around it. -/
theorem foldl_foldValue_holds (first : String) (values : List String) :
    (∀ value ∈ first :: values, holdsWhole (values.foldl foldValue first) value = true) ∧
      ∀ next : String,
        Stands ((values ++ [next]).foldl foldValue first).toList
          (values.foldl foldValue first).toList := by
  constructor
  · -- what the first step holds, the rest of the steps go on holding
    induction values generalizing first with
    | nil => simp [holdsWhole_refl]
    | cons value values ih =>
      obtain ⟨hfirst, hvalue⟩ := foldValue_holds first value
      have hrest := ih (foldValue first value)
      have hkept := hrest (foldValue first value) (.head _)
      intro other hother
      rw [foldl_cons]
      rcases mem_cons.1 hother with rfl | hother
      · exact holdsWhole_trans hkept hfirst
      · rcases mem_cons.1 hother with rfl | hother
        · exact holdsWhole_trans hkept hvalue
        · exact hrest other (.tail _ hother)
  · intro next
    rw [foldl_append]
    exact holdsWhole_iff.1 (foldValue_holds _ next).1

end Huntsman
