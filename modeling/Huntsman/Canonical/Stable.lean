import Huntsman.Canonical.Forms

/-!
# Canonical forms that are stable

A rule is stable when its result is its own canonical form.  For a kind other than a domain and a
link `normalise` is stable whatever the value, and the reason is the same each time: what the rule
accepts is trimmed, lower-cased and made of few characters, so that the rule accepts it again as it
is (`canonicalHandle_stable`, `canonicalDomain_stable`, …).
-/

set_option autoImplicit false

namespace Huntsman.Canonical

open List Pieces

variable {s raw : Chars} {c : Char}

/-! ## Characters -/

/-- What holds of the letters `A` to `Z` and of whatever lower-casing leaves alone. -/
theorem toLower_induction {P : Char → Char → Prop} (same : ∀ c : Char, c.toLower = c → P c c)
    (upper : ∀ n < 91, 65 ≤ n → P (Char.ofNat n) (Char.ofNat n).toLower) (c : Char) :
    P c c.toLower := by
  by_cases h : c.val ≥ 'A'.val ∧ c.val ≤ 'Z'.val
  · have hlow : 65 ≤ c.toNat := UInt32.le_iff_toNat_le.1 h.1
    have hhigh : c.toNat ≤ 90 := UInt32.le_iff_toNat_le.1 h.2
    have hupper := upper c.toNat (Nat.lt_succ_of_le hhigh) hlow
    rwa [Char.ofNat_toNat] at hupper
  · have hsame : c.toLower = c := dif_neg h
    have hboth := same c hsame
    rwa [hsame]

theorem toLower_toLower (c : Char) : c.toLower.toLower = c.toLower :=
  toLower_induction (P := fun _ d ↦ d.toLower = d) (fun _ h ↦ h) (by decide) c

theorem isWhitespace_toLower (c : Char) : Text.isWhitespace c.toLower = Text.isWhitespace c :=
  toLower_induction (P := fun c d ↦ Text.isWhitespace d = Text.isWhitespace c) (fun _ _ ↦ rfl)
    (by decide) c

theorem utf8Size_toLower (c : Char) : c.toLower.utf8Size = c.utf8Size :=
  toLower_induction (P := fun c d ↦ d.utf8Size = c.utf8Size) (fun _ _ ↦ rfl) (by decide) c

/-- Lower-casing makes no other character than a letter. -/
theorem toLower_eq_iff {x : Char} (hx : x.isAlpha = false) (c : Char) : c.toLower = x ↔ c = x := by
  refine toLower_induction (P := fun c d ↦ d = x ↔ c = x) (fun _ _ ↦ Iff.rfl) (fun n hn hlow ↦ ?_) c
  have hletters : ∀ n < 91, 65 ≤ n →
      (Char.ofNat n).isAlpha = true ∧ (Char.ofNat n).toLower.isAlpha = true := by decide
  obtain ⟨hupper, hlower⟩ := hletters n hn hlow
  constructor
  · rintro rfl
    exact absurd (hx.symm.trans hlower) (by decide)
  · rintro rfl
    exact absurd (hx.symm.trans hupper) (by decide)

theorem alphanumeric_not_whitespace (h : isAsciiAlphanumeric c = true) :
    Text.isWhitespace c = false := by
  have hlow : c.toNat < 123 := by
    have hkinds : ((decide ('A'.val ≤ c.val ∧ c.val ≤ 'Z'.val) ||
        (decide ('a'.val ≤ c.val) && decide (c.val ≤ 'z'.val))) ||
          (decide ('0'.val ≤ c.val) && decide (c.val ≤ '9'.val))) = true := h
    simp only [Bool.or_eq_true, Bool.and_eq_true, decide_eq_true_eq,
      UInt32.le_iff_toNat_le] at hkinds
    have hval : c.toNat = c.val.toNat := rfl
    have h90 : 'Z'.val.toNat = 90 := rfl
    have h122 : 'z'.val.toNat = 122 := rfl
    have h57 : '9'.val.toNat = 57 := rfl
    omega
  have hall : ∀ n < 123, isAsciiAlphanumeric (Char.ofNat n) = true →
      Text.isWhitespace (Char.ofNat n) = false := by decide
  have hc := hall c.toNat hlow
  rw [Char.ofNat_toNat] at hc
  exact hc h

/-! ## Text -/

@[simp] theorem lower_lower (s : Chars) : lower (lower s) = lower s := by
  rw [lower, lower, map_map]
  exact map_congr_left fun c _ ↦ toLower_toLower c

@[simp] theorem len_lower (s : Chars) : len (lower s) = len s := by
  rw [len, len, lower, map_map]
  exact congrArg sum (map_congr_left fun c _ ↦ utf8Size_toLower c)

@[simp] theorem trim_trim (s : Chars) : trim (trim s) = trim s := Pieces.trim_trim _ s

theorem trim_lower (s : Chars) : trim (lower s) = lower (trim s) :=
  trim_map isWhitespace_toLower s

theorem trimDots_lower (s : Chars) : trimDots (lower s) = lower (trimDots s) :=
  trim_map (fun c ↦ by
    rw [Bool.eq_iff_iff, beq_iff_eq, beq_iff_eq]
    exact toLower_eq_iff (by decide) c) s

theorem dropWhile_lower {p : Char → Bool} (hp : ∀ c : Char, p c.toLower = p c) (s : Chars) :
    (lower s).dropWhile p = lower (s.dropWhile p) := by
  have hcomp : p ∘ Char.toLower = p := funext hp
  rw [lower, dropWhile_map, hcomp, lower]

theorem trim_of_all (h : ∀ c ∈ s, Text.isWhitespace c = false) : trim s = s :=
  (Pieces.Trimmed.of_all h).trim_eq

/-- A refused value that was trimmed and lower-cased is refused in the same way. -/
theorem getD_stable {f : Chars → Option Chars} {g : Chars → Chars} {v : Chars}
    (accepted : ∀ d, f v = some d → f d = some d) (refused : f v = none → f (g v) = none)
    (hg : g (g v) = g v) : (f ((f v).getD (g v))).getD (g ((f v).getD (g v))) = (f v).getD (g v) := by
  rcases h : f v with _ | d
  · rw [Option.getD_none, refused h, Option.getD_none, hg]
  · rw [Option.getD_some, accepted d h, Option.getD_some]

theorem len_cons (c : Char) (s : Chars) : len (c :: s) = c.utf8Size + len s := by
  rw [len, len, map_cons, sum_cons]

theorem len_le_of_sublist {t : Chars} (h : s.Sublist t) : len s ≤ len t := by
  induction h with
  | slnil => exact le_rfl
  | cons c _ ih =>
    rw [len_cons]
    omega
  | cons_cons c _ ih =>
    rw [len_cons, len_cons]
    omega

theorem toLower_of_mem_lower (h : c ∈ lower s) : c.toLower = c := by
  obtain ⟨b, -, rfl⟩ := mem_map.1 h
  exact toLower_toLower b

theorem lower_of_all (h : ∀ c ∈ s, c.toLower = c) : lower s = s := by
  rw [lower, map_congr_left h, map_id']

theorem beq_toLower {x : Char} (hx : x.isAlpha = false) (c : Char) :
    (c.toLower == x) = (c == x) := by
  rw [Bool.eq_iff_iff, beq_iff_eq, beq_iff_eq]
  exact toLower_eq_iff hx c

/-! ## Handles -/

theorem canonicalHandle_lower_trim (raw : Chars) :
    canonicalHandle (lower (trim raw)) = canonicalHandle raw := by
  have hat : (lower (trim raw)).dropWhile (· == '@') = lower ((trim raw).dropWhile (· == '@')) :=
    dropWhile_lower (beq_toLower (by decide)) _
  have hkept : ∀ s : Chars, lower ((lower s).filter fun c ↦ !(c == '.' || c == '_' || c == '-')) =
      lower (s.filter fun c ↦ !(c == '.' || c == '_' || c == '-')) := by
    intro s
    have hsame : (fun c : Char ↦ !(c == '.' || c == '_' || c == '-')) ∘ Char.toLower =
        fun c ↦ !(c == '.' || c == '_' || c == '-') := by
      funext c
      simp only [Function.comp, beq_toLower (x := '.') (by decide),
        beq_toLower (x := '_') (by decide), beq_toLower (x := '-') (by decide)]
    rw [show lower s = s.map Char.toLower from rfl, filter_map, hsame]
    exact lower_lower _
  rw [canonicalHandle, canonicalHandle, trim_lower, trim_trim, hat]
  simp only [len_lower, hkept]

variable {d : Chars}

theorem canonicalHandle_stable (h : canonicalHandle raw = some d) :
    canonicalHandle d = some d := by
  rw [canonicalHandle] at h
  simp only at h
  generalize (trim raw).dropWhile (· == '@') = body at h
  split at h
  · simp at h
  · rename_i hlen
    split at h
    · simp at h
    · rename_i hchars
      obtain ⟨hne, hall⟩ := not_or.1 hchars
      cases h
      generalize hd : lower (body.filter fun c ↦ !(c == '.' || c == '_' || c == '-')) = d at hne hall
      rw [Bool.not_eq_false, all_eq_true] at hall
      have hlow : ∀ c ∈ d, c.toLower = c := fun c hc ↦ toLower_of_mem_lower (hd ▸ hc)
      have hsub : len d ≤ len body := by
        rw [← hd, len_lower]
        exact len_le_of_sublist filter_sublist
      have hmark : ∀ c ∈ d, ∀ x : Char, isAsciiAlphanumeric x = false → (c == x) = false := by
        intro c hc x hx
        rw [beq_eq_false_iff_ne]
        rintro rfl
        exact absurd (hx.symm.trans (hall c hc)) (by decide)
      have htrim : trim d = d := trim_of_all fun c hc ↦ alphanumeric_not_whitespace (hall c hc)
      have hat : d.dropWhile (· == '@') = d :=
        dropWhile_eq_self fun c hc ↦ hmark c (mem_of_mem_head? hc) _ (by decide)
      have hfilter : (d.filter fun c ↦ !(c == '.' || c == '_' || c == '-')) = d := by
        rw [filter_eq_self]
        intro c hc
        rw [hmark c hc _ (by decide), hmark c hc _ (by decide), hmark c hc _ (by decide)]
        rfl
      rw [canonicalHandle]
      simp only [htrim, hat, hfilter, lower_of_all hlow]
      rw [if_neg (by omega), if_neg]
      rw [not_or, Bool.not_eq_false, all_eq_true]
      exact ⟨hne, hall⟩

/-! ## White space -/

theorem canonicalWhitespace_words (raw : Chars) :
    Pieces.words Text.isWhitespace (canonicalWhitespace raw) =
      (Pieces.words Text.isWhitespace raw).map lower := by
  refine words_intercalate (by decide) fun w hw ↦ ?_
  obtain ⟨v, hv, rfl⟩ := mem_map.1 hw
  obtain ⟨hne, hall⟩ := mem_words hv
  refine ⟨fun hnil ↦ hne (map_eq_nil_iff.1 hnil), fun a ha ↦ ?_⟩
  obtain ⟨b, hb, rfl⟩ := mem_map.1 ha
  rw [isWhitespace_toLower, hall b hb]

theorem canonicalWhitespace_stable (raw : Chars) :
    canonicalWhitespace (canonicalWhitespace raw) = canonicalWhitespace raw := by
  rw [canonicalWhitespace, canonicalWhitespace_words, map_map]
  exact congrArg _ (map_congr_left fun w _ ↦ lower_lower w)

theorem trim_canonicalWhitespace (raw : Chars) :
    trim (canonicalWhitespace raw) = canonicalWhitespace raw := by
  refine (trimmed_intercalate _ fun w hw ↦ ?_).trim_eq
  rw [← canonicalWhitespace_words] at hw
  exact mem_words hw

/-! ## Domains -/

/-- What a domain is made of. -/
def isDomainChar (c : Char) : Bool := isAsciiAlphanumeric c || c == '-' || c == '.'

theorem domainChar_not_whitespace (h : isDomainChar c = true) : Text.isWhitespace c = false := by
  rw [isDomainChar, Bool.or_eq_true, Bool.or_eq_true, beq_iff_eq, beq_iff_eq] at h
  rcases h with (h | rfl) | rfl
  · exact alphanumeric_not_whitespace h
  · decide
  · decide

theorem canonicalDomain_eq (h : canonicalDomain raw = some d) :
    d = lower (trimDots (trim raw)) := by
  rw [canonicalDomain] at h
  simp only at h
  split at h
  · simp at h
  · split at h
    · simp at h
    · split at h
      · simp at h
      · exact (Option.some.inj h).symm

/-- What is accepted depends on no more than the text between the outer dots, lower-cased. -/
theorem canonicalDomain_congr {v w : Chars}
    (h : lower (trimDots (trim v)) = lower (trimDots (trim w))) :
    canonicalDomain v = canonicalDomain w := by
  rw [canonicalDomain, canonicalDomain, h]

theorem canonicalDomain_chars (h : canonicalDomain raw = some d) :
    d ≠ [] ∧ (∀ c ∈ d, isDomainChar c = true) ∧ Pieces.Trimmed (· == '.') d := by
  have hd := canonicalDomain_eq h
  rw [canonicalDomain] at h
  simp only at h
  rw [← hd] at h
  split at h
  · simp at h
  · rename_i hne
    refine ⟨fun hnil ↦ hne (.inl hnil), ?_, ?_⟩
    · split at h
      · simp at h
      · rename_i hlabels
        rw [not_or, not_or, Bool.not_eq_false, all_eq_true] at hlabels
        intro c hc
        rw [show d = ['.'].intercalate (d.splitOn '.') from (intercalate_splitOn '.').symm] at hc
        rcases mem_of_mem_intercalate hc with hc | ⟨label, hlabel, hc⟩
        · rw [mem_singleton.1 hc]
          decide
        · have hok := hlabels.2.1 label hlabel
          rw [isDomainLabel, Bool.and_eq_true, all_eq_true] at hok
          rw [isDomainChar, hok.2 c hc, Bool.true_or]
    · rw [hd, ← trimDots_lower]
      exact trimmed_trim _ _

theorem canonicalDomain_stable (h : canonicalDomain raw = some d) :
    canonicalDomain d = some d := by
  obtain ⟨-, hchars, hdots⟩ := canonicalDomain_chars h
  have htrim : trim d = d := trim_of_all fun c hc ↦ domainChar_not_whitespace (hchars c hc)
  have htrimDots : trimDots d = d := hdots.trim_eq
  have hd := canonicalDomain_eq h
  rw [canonicalDomain_congr (w := raw), h]
  rw [htrim, htrimDots, hd, lower_lower]

/-- Accepted or not, a domain is kept as its text between the outer dots, lower-cased. -/
theorem getD_canonicalDomain (v : Chars) :
    (canonicalDomain v).getD (lower (trimDots (trim v))) = lower (trimDots (trim v)) := by
  rcases h : canonicalDomain v with _ | d
  · rfl
  · exact canonicalDomain_eq h

theorem lower_trimDots_trim_lower (s : Chars) :
    lower (trimDots (trim (lower s))) = lower (trimDots (trim s)) := by
  rw [trim_lower, trimDots_lower, lower_lower]

/-- A domain's text is kept whole the next time when no white space stands inside its outer dots. -/
theorem lower_trimDots_trim_stable_iff (v : Chars) :
    lower (trimDots (trim (lower (trimDots (trim v))))) = lower (trimDots (trim v)) ↔
      Pieces.Trimmed Text.isWhitespace (trimDots (trim v)) := by
  rw [lower_trimDots_trim_lower]
  constructor
  · intro h
    by_contra hnot
    have hshort := Pieces.length_trim_lt hnot
    have hless := (Pieces.trim_sublist (· == '.') (trim (trimDots (trim v)))).length_le
    have hlen := congrArg length h
    rw [lower, lower, length_map, length_map] at hlen
    exact absurd hlen (hless.trans_lt hshort).ne
  · intro h
    have htrim : trim (trimDots (trim v)) = trimDots (trim v) := h.trim_eq
    have hdots : trimDots (trimDots (trim v)) = trimDots (trim v) := Pieces.trim_trim _ _
    rw [htrim, hdots]

/-! ## Addresses of mail -/

/-- What the part before the `@` is made of. -/
def isLocalChar (c : Char) : Bool :=
  isAsciiAlphanumeric c || c == '.' || c == '_' || c == '+' || c == '-'

theorem localChar_not_whitespace (h : isLocalChar c = true) : Text.isWhitespace c = false := by
  simp only [isLocalChar, Bool.or_eq_true, beq_iff_eq] at h
  rcases h with (((h | rfl) | rfl) | rfl) | rfl
  · exact alphanumeric_not_whitespace h
  all_goals decide

theorem canonicalEmail_eq_some :
    canonicalEmail raw = some d ↔ ∃ localPart domain host,
      Pieces.splitOnce '@' (lower (trim raw)) = some (localPart, domain) ∧
      emailLocalError localPart = none ∧ (∀ c ∈ localPart, isLocalChar c = true) ∧
      canonicalDomain domain = some host ∧ d = localPart ++ '@' :: host := by
  have hok : ∀ l : Chars, ¬ ((emailLocalError l).isSome || !l.all isLocalChar) = true ↔
      emailLocalError l = none ∧ ∀ c ∈ l, isLocalChar c = true := by
    intro l
    rw [Bool.or_eq_true, not_or, Option.not_isSome_iff_eq_none, Bool.not_eq_true, Bool.not_eq_false',
      all_eq_true]
  rw [canonicalEmail]
  simp only [Option.bind_eq_bind, Option.bind_eq_some_iff, Prod.exists,
    Option.ite_none_left_eq_some, Option.pure_def, Option.some.injEq]
  constructor
  · rintro ⟨l, domain, hsplit, hlocal, host, hhost, rfl⟩
    obtain ⟨herror, hchars⟩ := (hok l).1 hlocal
    exact ⟨l, domain, host, hsplit, herror, hchars, hhost, rfl⟩
  · rintro ⟨l, domain, host, hsplit, herror, hchars, hhost, rfl⟩
    exact ⟨l, domain, hsplit, (hok l).2 ⟨herror, hchars⟩, host, hhost, rfl⟩

theorem canonicalEmail_stable (h : canonicalEmail raw = some d) :
    canonicalEmail d = some d := by
  obtain ⟨l, domain, host, hsplit, herror, hlocal, hhost, rfl⟩ := canonicalEmail_eq_some.1 h
  obtain ⟨htext, hat⟩ := splitOnce_eq_some.1 hsplit
  obtain ⟨-, hchars, -⟩ := canonicalDomain_chars hhost
  have hlow : lower (l ++ '@' :: host) = l ++ '@' :: host := by
    refine lower_of_all fun c hc ↦ ?_
    rcases mem_append.1 hc with hc | hc
    · exact toLower_of_mem_lower (s := trim raw) (htext ▸ mem_append_left _ hc)
    · rcases mem_cons.1 hc with rfl | hc
      · rfl
      · rw [canonicalDomain_eq hhost] at hc
        exact toLower_of_mem_lower hc
  have htrim : trim (l ++ '@' :: host) = l ++ '@' :: host := by
    refine trim_of_all fun c hc ↦ ?_
    rcases mem_append.1 hc with hc | hc
    · exact localChar_not_whitespace (hlocal c hc)
    · rcases mem_cons.1 hc with rfl | hc
      · decide
      · exact domainChar_not_whitespace (hchars c hc)
  refine canonicalEmail_eq_some.2 ⟨l, host, host, ?_, herror, hlocal, canonicalDomain_stable hhost, rfl⟩
  rw [htrim, hlow]
  exact splitOnce_append hat host

theorem canonicalEmail_lower_trim (raw : Chars) :
    canonicalEmail (lower (trim raw)) = canonicalEmail raw := by
  rw [canonicalEmail, canonicalEmail, trim_lower, trim_trim, lower_lower]

end Huntsman.Canonical
