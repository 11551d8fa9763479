import Huntsman.Lib.Offsets

/-!
# The bytes of characters

A character below 128 is one byte, which is its number (`Utf8.encode_ascii`), and every byte of any
other character is at least 128 (`Utf8.le_of_mem`).  So a byte below 128 in a text is a character of
the text.
-/

set_option autoImplicit false

namespace Utf8

open List

variable {c d : Char} {b : UInt8}

theorem size_ascii (h : c.toNat < 128) : c.utf8Size = 1 := by
  rw [Char.utf8Size_eq_one_iff, UInt32.le_iff_toNat_le]
  exact Nat.le_of_lt_succ h

theorem encode_ascii (h : c.toNat < 128) : String.utf8EncodeChar c = [c.toUInt8] :=
  String.utf8EncodeChar_eq_singleton (size_ascii h)

theorem toNat_toUInt8 (h : c.toNat < 128) : c.toUInt8.toNat = c.toNat := by
  have hval : c.val.toNat = c.toNat := rfl
  rw [Char.toUInt8, UInt32.toNat_toUInt8, hval]
  omega

/-- Characters below 128 are told apart by their bytes. -/
theorem toUInt8_inj (hc : c.toNat < 128) (hd : d.toNat < 128) : c.toUInt8 = d.toUInt8 ↔ c = d := by
  refine ⟨fun h ↦ Char.toNat_inj.1 ?_, fun h ↦ h ▸ rfl⟩
  rw [← toNat_toUInt8 hc, h, toNat_toUInt8 hd]

/-- A byte of a character that takes more than one is 128 or more. -/
theorem le_of_mem (h : 128 ≤ c.toNat) (hb : b ∈ String.utf8EncodeChar c) : 128 ≤ b.toNat := by
  have hval : c.val.toNat = c.toNat := rfl
  unfold String.utf8EncodeChar at hb
  simp only [hval] at hb
  split at hb
  · omega
  · split at hb
    · simp only [mem_cons, not_mem_nil, or_false] at hb
      rcases hb with rfl | rfl <;> · rw [UInt8.toNat_ofNat']; omega
    · split at hb
      · simp only [mem_cons, not_mem_nil, or_false] at hb
        rcases hb with rfl | rfl | rfl <;> · rw [UInt8.toNat_ofNat']; omega
      · simp only [mem_cons, not_mem_nil, or_false] at hb
        rcases hb with rfl | rfl | rfl | rfl <;> · rw [UInt8.toNat_ofNat']; omega

/-- A byte below 128 is a character of its own. -/
theorem ascii_of_mem (hb : b ∈ String.utf8EncodeChar c) (hlt : b.toNat < 128) : c.toNat < 128 :=
  not_le.1 fun h ↦ absurd (le_of_mem h hb) hlt.not_ge

/-! ## Texts -/

/-- The bytes of characters. -/
def encode (cs : List Char) : List UInt8 := cs.flatMap String.utf8EncodeChar

@[simp] theorem encode_nil : encode [] = [] := rfl

theorem encode_cons (c : Char) (cs : List Char) :
    encode (c :: cs) = String.utf8EncodeChar c ++ encode cs := flatMap_cons

theorem encode_cons_ascii (h : c.toNat < 128) (cs : List Char) :
    encode (c :: cs) = c.toUInt8 :: encode cs := by
  rw [encode_cons, encode_ascii h, singleton_append]

theorem encode_append (cs ds : List Char) : encode (cs ++ ds) = encode cs ++ encode ds :=
  flatMap_append

theorem encode_eq_nil {cs : List Char} : encode cs = [] ↔ cs = [] := by
  cases cs with
  | nil => exact iff_of_true rfl rfl
  | cons c cs =>
    refine iff_of_false (fun h ↦ ?_) (cons_ne_nil c cs)
    rw [encode_cons, append_eq_nil_iff] at h
    exact String.utf8EncodeChar_ne_nil h.1

/-- The bytes of a text are counted by the sizes of its characters. -/
theorem length_encode (cs : List Char) : (encode cs).length = Offsets.total Char.utf8Size cs := by
  induction cs with
  | nil => rfl
  | cons c cs ih =>
    rw [encode_cons, length_append, String.length_utf8EncodeChar, ih, Offsets.total_cons]

/-- Characters below 128 have a byte each. -/
theorem encode_of_ascii {cs : List Char} (h : ∀ c ∈ cs, c.toNat < 128) :
    encode cs = cs.map Char.toUInt8 := by
  induction cs with
  | nil => rfl
  | cons c cs ih =>
    rw [forall_mem_cons] at h
    rw [encode_cons_ascii h.1, ih h.2, map_cons]

/-- Characters from their bytes, where these are all below 128. -/
theorem map_of_encode {cs : List Char} {bytes : List UInt8} (h : encode cs = bytes)
    (hlt : ∀ b ∈ bytes, b.toNat < 128) :
    cs.map Char.toUInt8 = bytes ∧ ∀ c ∈ cs, c.toNat < 128 := by
  have hascii : ∀ c ∈ cs, c.toNat < 128 := by
    intro c hc
    obtain ⟨b, hb⟩ := exists_mem_of_ne_nil _ (String.utf8EncodeChar_ne_nil (c := c))
    exact ascii_of_mem hb (hlt b (h ▸ mem_flatMap.2 ⟨c, hc, hb⟩))
  exact ⟨(encode_of_ascii hascii).symm.trans h, hascii⟩

/-- Texts of characters below 128 are told apart by their bytes. -/
theorem ascii_ext {cs ds : List Char} (hcs : ∀ c ∈ cs, c.toNat < 128)
    (hds : ∀ c ∈ ds, c.toNat < 128) (h : cs.map Char.toUInt8 = ds.map Char.toUInt8) : cs = ds := by
  induction cs generalizing ds with
  | nil => exact (map_eq_nil_iff.1 h.symm).symm
  | cons c cs ih =>
    rcases ds with _ | ⟨d, ds⟩
    · cases h
    · rw [forall_mem_cons] at hcs hds
      obtain ⟨hfirst, hrest⟩ := cons.inj h
      rw [(toUInt8_inj hcs.1 hds.1).1 hfirst, ih hcs.2 hds.2 hrest]

theorem total_ascii {cs : List Char} (h : ∀ c ∈ cs, c.toNat < 128) :
    Offsets.total Char.utf8Size cs = cs.length := by
  rw [← length_encode, encode_of_ascii h, length_map]

/-- **Where a byte below 128 stands, a text can be cut.** -/
theorem encode_split (hc : c.toNat < 128) {text : List Char} {before after : List UInt8}
    (h : encode text = before ++ c.toUInt8 :: after) (hbefore : c.toUInt8 ∉ before) :
    ∃ front behind, text = front ++ c :: behind ∧ encode front = before := by
  induction text generalizing before with
  | nil => simp at h
  | cons d text ih =>
    by_cases hd : d = c
    · subst hd
      refine ⟨[], text, rfl, ?_⟩
      rw [encode_cons_ascii hc] at h
      rcases before with _ | ⟨b, before⟩
      · rfl
      · exact absurd ((cons.inj h).1 ▸ (.head _)) hbefore
    · have hbyte : c.toUInt8 ∉ String.utf8EncodeChar d := by
        intro hmem
        have hd' := ascii_of_mem hmem ((toNat_toUInt8 hc).symm ▸ hc)
        rw [encode_ascii hd', mem_singleton, toUInt8_inj hc hd'] at hmem
        exact hd hmem.symm
      rw [encode_cons] at h
      -- the bytes of the first character stand before the byte looked for
      obtain ⟨rest, rfl, hrest⟩ : ∃ rest, before = String.utf8EncodeChar d ++ rest ∧
          encode text = rest ++ c.toUInt8 :: after := by
        rcases append_eq_append_iff.1 h with hlong | ⟨rest, hfirst, hrest⟩
        · exact hlong
        · rcases rest with _ | ⟨b, rest⟩
          · exact ⟨[], by rw [hfirst, append_nil, append_nil], hrest.symm⟩
          · cases hrest
            exact absurd (hfirst ▸ by simp) hbyte
      obtain ⟨front, behind, rfl, rfl⟩ := ih hrest fun hmem ↦
        hbefore (mem_append_right _ hmem)
      exact ⟨d :: front, behind, rfl, encode_cons d front⟩

end Utf8
