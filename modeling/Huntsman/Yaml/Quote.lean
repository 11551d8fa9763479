import Huntsman.Yaml.Bounds

/-!
# Quoted text

A text in double quotes is written with a backslash before a quote or a backslash, and with escapes
for control characters; one in single quotes, with its quotes doubled.  Where the quoted text ends
is found again by each of the scanners of a line, and they agree: after it a key is read to its
colon and a comment from its `#`, and nothing in it is taken for either (`splitKey_quote`,
`splitKey_comment`, `stripComment_quote`).  What is decoded is the text (`scalar_quote`).
-/

set_option autoImplicit false

namespace Huntsman.Yaml

open Except List Option

/-! ## Quoting -/

def hexDigit (upper : Bool) (n : ℕ) : Char :=
  Char.ofNat (if n < 10 then 48 + n else if upper then 55 + n else 87 + n)

/-- `char::is_control`. -/
def isControl (c : Char) : Bool := c.toNat < 32 || (127 ≤ c.toNat && c.toNat < 160)

def escapeChar (upper : Bool) (c : Char) : Chars :=
  if c = '"' ∨ c = '\\' then ['\\', c]
  else if c = '\n' then ['\\', 'n']
  else if c = '\r' then ['\\', 'r']
  else if isControl c then
    ['\\', 'x', hexDigit upper (c.toNat / 16), hexDigit upper (c.toNat % 16)]
  else [c]

def doubleQuote (c : Char) : Chars := if c = '\'' then ['\'', '\''] else [c]

/-- How a text is quoted: in double quotes, with hexadecimal digits of either case, or in single
quotes. -/
inductive QuoteStyle where
  | double (upper : Bool)
  | single

namespace QuoteStyle

def mark : QuoteStyle → Char
  | .double _ => '"'
  | .single => '\''

theorem mark_cases (style : QuoteStyle) : style.mark = '"' ∨ style.mark = '\'' := by
  cases style with
  | double upper => exact .inl rfl
  | single => exact .inr rfl

/-- How a character of the text is written. -/
def spell : QuoteStyle → Char → Chars
  | .double upper => escapeChar upper
  | .single => doubleQuote

/-- What is between the quotes. -/
def inner (style : QuoteStyle) (s : Chars) : Chars := s.flatMap style.spell

def quote (style : QuoteStyle) (s : Chars) : Chars := style.mark :: (style.inner s ++ [style.mark])

/-- Single quotes hold what has no line break. -/
def Fits : QuoteStyle → Chars → Prop
  | .double _, _ => True
  | .single, s => '\n' ∉ s

end QuoteStyle

variable {lib : Library} {upper : Bool} {style : QuoteStyle} {c : Char} {s tail : Chars}

theorem hexDigit_spec : ∀ upper : Bool, ∀ n < 16, hexValue (hexDigit upper n) = some n ∧
    (hexDigit upper n).utf8Size = 1 ∧ hexDigit upper n ∉ ['"', '\\', '\n', '+'] := by
  decide

theorem isControl_lt (h : isControl c = true) : c.toNat / 16 < 16 := by
  rw [isControl, Bool.or_eq_true, Bool.and_eq_true, decide_eq_true_eq, decide_eq_true_eq,
    decide_eq_true_eq] at h
  omega

/-- The ways in which a character is written within double quotes. -/
theorem escapeChar_cases (upper : Bool) (c : Char) :
    (∃ d, escapeChar upper c = ['\\', d] ∧ simpleEscape d = some c ∧ d ≠ '\n') ∨
      (escapeChar upper c = ['\\', 'x', hexDigit upper (c.toNat / 16), hexDigit upper (c.toNat % 16)] ∧
        c.toNat / 16 < 16) ∨
      (escapeChar upper c = [c] ∧ c ≠ '"' ∧ c ≠ '\\' ∧ c ≠ '\n') := by
  rw [escapeChar]
  split
  · rename_i h
    rcases h with rfl | rfl
    · exact .inl ⟨_, rfl, rfl, by decide⟩
    · exact .inl ⟨_, rfl, rfl, by decide⟩
  · rename_i hquote
    split
    · rename_i h
      subst h
      exact .inl ⟨_, rfl, rfl, by decide⟩
    · rename_i hnewline
      split
      · rename_i h
        subst h
        exact .inl ⟨_, rfl, rfl, by decide⟩
      · split
        · rename_i h
          exact .inr (.inl ⟨rfl, isControl_lt h⟩)
        · rw [not_or] at hquote
          exact .inr (.inr ⟨rfl, hquote.1, hquote.2, hnewline⟩)

/-! ## The end of a quoted text -/

theorem closing_other {quote : Char} (hescape : quote = '"' → c ≠ '\\') (hquote : c ≠ quote)
    (index : ℕ) (rest : Chars) :
    closing quote index (c :: rest) = closing quote (index + c.utf8Size) rest := by
  cases rest with
  | nil =>
    conv_lhs => rw [closing]
    rw [if_neg fun h ↦ hescape h.1 h.2, if_neg hquote]
  | cons d more => rw [closing, if_neg fun h ↦ hescape h.1 h.2, if_neg hquote]

/-- A backslash within double quotes, with the character it escapes. -/
theorem closing_escape (d : Char) (index : ℕ) (rest : Chars) :
    closing '"' index ('\\' :: d :: rest) = closing '"' (index + 1 + d.utf8Size) rest := by
  rw [closing, if_pos ⟨rfl, rfl⟩]
  rfl

/-- A doubled quote within single quotes. -/
theorem closing_doubled (index : ℕ) (rest : Chars) :
    closing '\'' index ('\'' :: '\'' :: rest) = closing '\'' (index + 1 + 1) rest := by
  rw [closing, if_neg fun h ↦ absurd h.1 (by decide), if_pos rfl, if_pos ⟨rfl, rfl⟩]
  rfl

theorem closing_spell (style : QuoteStyle) (c : Char) (index : ℕ) (rest : Chars) :
    closing style.mark index (style.spell c ++ rest) =
      closing style.mark (index + len (style.spell c)) rest := by
  cases style with
  | double upper =>
    rw [QuoteStyle.mark, QuoteStyle.spell]
    rcases escapeChar_cases upper c with ⟨d, hd, -, -⟩ | ⟨hx, hlt⟩ | ⟨hplain, hquote, hslash, -⟩
    · rw [hd, len_cons, len_cons, ← Nat.add_assoc]
      exact closing_escape d index rest
    · obtain ⟨-, hsize, hmem⟩ := hexDigit_spec upper _ hlt
      obtain ⟨-, hsize', hmem'⟩ := hexDigit_spec upper (c.toNat % 16) (Nat.mod_lt _ (by decide))
      simp only [mem_cons, not_or] at hmem hmem'
      rw [hx]
      show closing '"' index ('\\' :: 'x' :: _ :: _ :: rest) = _
      rw [closing_escape, closing_other (fun _ ↦ hmem.2.1) hmem.1,
        closing_other (fun _ ↦ hmem'.2.1) hmem'.1]
      simp only [len_cons, hsize, hsize']
      rfl
    · rw [hplain, singleton_append, closing_other (fun _ ↦ hslash) hquote, len_cons]
      rfl
  | single =>
    rw [QuoteStyle.mark, QuoteStyle.spell, doubleQuote]
    split
    · exact closing_doubled index rest
    · rename_i hquote
      rw [singleton_append, closing_other (fun h ↦ absurd h (by decide)) hquote, len_cons]
      rfl

theorem closing_inner (style : QuoteStyle) (s : Chars) (htail : tail.head? ≠ some '\'') (index : ℕ) :
    closing style.mark index (style.inner s ++ style.mark :: tail) =
      some (index + len (style.inner s) + 1) := by
  induction s generalizing index with
  | nil =>
    have hmark : style.mark ≠ '\\' := by rcases style.mark_cases with h | h <;> rw [h] <;> decide
    show closing style.mark index (style.mark :: tail) = some (index + 1)
    cases tail with
    | nil => rw [closing, if_neg fun h ↦ hmark h.2, if_pos rfl]
    | cons d more =>
      rw [closing, if_neg fun h ↦ hmark h.2, if_pos rfl, if_neg fun h ↦ htail (congrArg some h.2)]
  | cons c s ih =>
    rw [QuoteStyle.inner, flatMap_cons, append_assoc, closing_spell, ← QuoteStyle.inner, ih,
      len_append, Nat.add_assoc index]

theorem len_quote (style : QuoteStyle) (s : Chars) :
    len (style.quote s) = 1 + len (style.inner s) + 1 := by
  have hmark : style.mark.utf8Size = 1 := by rcases style.mark_cases with h | h <;> rw [h] <;> rfl
  rw [QuoteStyle.quote, len_cons, len_append, len_cons, hmark]
  rfl

theorem afterQuote_quote (style : QuoteStyle) (s : Chars) (htail : tail.head? ≠ some '\'') :
    afterQuote (style.quote s ++ tail) = len (style.quote s) := by
  have hsize : style.mark.utf8Size = 1 := by rcases style.mark_cases with h | h <;> rw [h] <;> rfl
  rw [QuoteStyle.quote, cons_append, append_assoc, singleton_append, afterQuote,
    if_pos style.mark_cases, closing_inner style s htail, getD_some, hsize, ← QuoteStyle.quote,
    len_quote]

theorem getLast?_quote (style : QuoteStyle) (s : Chars) :
    (style.quote s).getLast? = some style.mark := by
  rw [QuoteStyle.quote, ← cons_append]
  exact getLast?_concat

theorem mark_not_whitespace (style : QuoteStyle) : Text.isWhitespace style.mark = false := by
  rcases style.mark_cases with h | h <;> rw [h] <;> rfl

theorem trimmed_quote (style : QuoteStyle) (s : Chars) :
    Pieces.Trimmed Text.isWhitespace (style.quote s) := by
  refine ⟨fun c hc ↦ ?_, fun c hc ↦ ?_⟩
  · cases hc
    exact mark_not_whitespace style
  · rw [getLast?_quote] at hc
    cases hc
    exact mark_not_whitespace style

theorem trimEnd_blanks (s : Chars) (k : ℕ) : trimEnd (s ++ List.replicate k ' ') = trimEnd s := by
  induction k with
  | zero => rw [replicate_zero, append_nil]
  | succ k ih =>
    rw [replicate_succ', ← append_assoc, trimEnd,
      rdropWhile_concat_pos _ _ _ (by decide), ← trimEnd, ih]

/-! ## Comments and keys after a quoted text -/

/-- What may follow a scalar on its line: nothing, or a comment after blanks. -/
def IsComment (t : Chars) : Prop :=
  t = [] ∨ ∃ k text, t = List.replicate (k + 1) ' ' ++ '#' :: text

theorem IsComment.head (h : IsComment tail) : tail.head? ≠ some '\'' := by
  rcases h with rfl | ⟨k, text, rfl⟩
  · exact fun h ↦ nomatch h
  · rw [replicate_succ]
    exact fun h ↦ absurd (some.inj h) (by decide)

theorem stripCommentFrom_blanks (text : Chars) (k : ℕ) : ∀ (s : Chars) (previous : Char),
    (k = 0 → previous = ' ') →
      stripCommentFrom (s ++ (List.replicate k ' ' ++ '#' :: text)) (len s) previous
        (List.replicate k ' ' ++ '#' :: text) = .ok (trimEnd s) := by
  induction k with
  | zero =>
    intro s previous h
    rw [replicate_zero, nil_append, stripCommentFrom, if_pos ⟨rfl, h rfl⟩, sliceTo_append]
    rfl
  | succ k ih =>
    intro s previous _
    have hnext := ih (s ++ [' ']) ' ' fun _ ↦ rfl
    rw [append_assoc, len_append] at hnext
    rw [replicate_succ, cons_append, stripCommentFrom,
      if_neg fun h ↦ absurd h.1 (by decide)]
    refine hnext.trans ?_
    rw [← trimEnd_blanks s 1]
    rfl

/-- A comment after a quoted text is taken off, and nothing else is. -/
theorem stripComment_quote (style : QuoteStyle) (s : Chars) (h : IsComment tail) :
    stripComment (style.quote s ++ tail) = .ok (style.quote s) := by
  have htrim : trimEnd (style.quote s) = style.quote s :=
    Pieces.rdropWhile_eq_self (trimmed_quote style s).2
  have hlen : len (style.quote s) ≠ 0 := by
    rw [len_quote]
    omega
  rw [stripComment, afterQuote_quote style s h.head, if_neg hlen]
  refine bind_ok.2 ⟨tail, sliceFrom_append _ _, ?_⟩
  rcases h with rfl | ⟨k, text, rfl⟩
  · rw [append_nil, stripCommentFrom, htrim]
  · have hblanks := stripCommentFrom_blanks text (k + 1) (style.quote s) '"'
      fun h ↦ absurd h (Nat.succ_ne_zero k)
    rwa [htrim] at hblanks

theorem len_blanks (k : ℕ) : len (List.replicate k ' ') = k :=
  (Offsets.total_replicate k ' ').trans (Nat.mul_one k)

theorem splitKeyFrom_blank (whole : Chars) (index : ℕ) (previous : Char) (rest : Chars) :
    splitKeyFrom whole index previous (' ' :: rest) = splitKeyFrom whole (index + 1) ' ' rest := by
  rw [splitKeyFrom, if_neg fun h ↦ absurd h.1 (by decide), if_neg (by decide)]
  rfl

theorem splitKeyFrom_blanks (whole rest : Chars) (k : ℕ) : ∀ index,
    splitKeyFrom whole index ' ' (List.replicate k ' ' ++ rest) =
      splitKeyFrom whole (index + k) ' ' rest := by
  induction k with
  | zero => exact fun index ↦ rfl
  | succ k ih =>
    intro index
    rw [replicate_succ, cons_append, splitKeyFrom_blank, ih, Nat.add_assoc, Nat.add_comm 1]

theorem splitKey_after (style : QuoteStyle) (s : Chars) (htail : tail.head? ≠ some '\'') :
    splitKey (style.quote s ++ tail) =
      splitKeyFrom (style.quote s ++ tail) (len (style.quote s)) ' ' tail := by
  rw [splitKey, afterQuote_quote style s htail, sliceFrom_append]
  rfl

/-- No key is found where a quoted text is all there is on the line but a comment. -/
theorem splitKey_comment (style : QuoteStyle) (s : Chars) (h : IsComment tail) :
    splitKey (style.quote s ++ tail) = .ok none := by
  have hlen := len_quote style s
  rw [splitKey_after style s h.head]
  rcases h with rfl | ⟨k, text, rfl⟩
  · rfl
  · rw [splitKeyFrom_blanks, splitKeyFrom, if_pos ⟨rfl, by omega, rfl⟩]

/-- A quoted text before a colon is the key. -/
theorem splitKey_quote (style : QuoteStyle) (s : Chars) (k : ℕ)
    (htail : tail.head? = none ∨ tail.head? = some ' ') :
    splitKey (style.quote s ++ (List.replicate k ' ' ++ ':' :: tail)) =
      .ok (some (style.quote s, trim tail)) := by
  have hhead : (replicate k ' ' ++ ':' :: tail).head? ≠ some '\'' := by
    cases k with
    | zero => exact fun h ↦ absurd (some.inj h) (by decide)
    | succ k => exact fun h ↦ absurd (some.inj h) (by decide)
  have hkey : trimEnd (style.quote s ++ replicate k ' ') = style.quote s := by
    rw [trimEnd_blanks]
    exact Pieces.rdropWhile_eq_self (trimmed_quote style s).2
  have hlen : len (style.quote s) + k = len (style.quote s ++ replicate k ' ') := by
    rw [len_append, len_blanks]
  have hto := sliceTo_append (style.quote s ++ replicate k ' ') (':' :: tail)
  have hfrom := sliceFrom_append (style.quote s ++ replicate k ' ' ++ [':']) tail
  rw [append_assoc] at hto
  rw [append_assoc, append_assoc, singleton_append, len_append] at hfrom
  rw [splitKey_after style s hhead, splitKeyFrom_blanks, hlen, splitKeyFrom,
    if_neg fun h ↦ absurd h.1 (by decide), if_pos rfl]
  refine bind_ok.2 ⟨tail, hfrom, ?_⟩
  rw [if_pos htail]
  refine bind_ok.2 ⟨_, hto, ?_⟩
  rw [hkey]
  rfl

/-! ## Decoding -/

theorem escapedChar_hex (upper : Bool) (h : c.toNat / 16 < 16) :
    escapedChar 2 [hexDigit upper (c.toNat / 16), hexDigit upper (c.toNat % 16)] = some c := by
  obtain ⟨hvalue, hsize, hmem⟩ := hexDigit_spec upper _ h
  obtain ⟨hvalue', hsize', -⟩ := hexDigit_spec upper (c.toNat % 16) (Nat.mod_lt _ (by decide))
  simp only [mem_cons, not_or] at hmem
  have hnumber : hexNumber [hexDigit upper (c.toNat / 16), hexDigit upper (c.toNat % 16)] =
      some c.toNat := by
    simp only [hexNumber, foldlM_cons, foldlM_nil, hvalue, hvalue', Option.map_some,
      Option.bind_eq_bind, Option.bind_some, Option.pure_def, Option.some.injEq]
    omega
  have hradix : fromStrRadix [hexDigit upper (c.toNat / 16), hexDigit upper (c.toNat % 16)] =
      some c.toNat := by
    rw [fromStrRadix, if_neg (cons_ne_nil _ _), hnumber, Option.filter_some, if_pos]
    · exact decide_eq_true (by omega)
    · exact fun rest heq ↦ hmem.2.2.2.1 (cons.inj heq).1
  have hvalid : c.toNat.isValidChar := c.valid
  rw [escapedChar, hradix, Option.filter_some, if_pos, Option.bind_some, fromU32, if_pos hvalid,
    Char.ofNat_toNat]
  rw [len_cons, len_cons, hsize, hsize']
  rfl

variable {number : ℕ}

theorem unescape_escape (upper : Bool) (c : Char) (rest : Chars) :
    unescape number 0 (escapeChar upper c ++ rest) =
      unescape number 0 rest >>= fun more ↦ pure (c :: more) := by
  rcases escapeChar_cases upper c with ⟨d, hd, hsimple, -⟩ | ⟨hx, hlt⟩ | ⟨hplain, hquote, hslash, -⟩
  · have hnext : unescape number 1 (d :: rest) = unescape number 0 rest := by rw [unescape]
    rw [hd, cons_append, singleton_append, unescape, if_neg (by decide), if_neg (by decide)]
    simp only [head?_cons, bind_some, hsimple, hnext]
  · have hnext : ∀ a b, unescape number (1 + 2) ('x' :: a :: b :: rest) = unescape number 0 rest :=
      fun a b ↦ rfl
    have hchar := escapedChar_hex upper hlt
    rw [hx]
    show unescape number 0 ('\\' :: 'x' :: _ :: _ :: rest) = _
    have hsimple : simpleEscape 'x' = none := rfl
    have hwidth : escapeWidth 'x' = some 2 := rfl
    rw [unescape, if_neg (by decide), if_neg (by decide)]
    simp only [head?_cons, bind_some, hsimple, hwidth, drop_succ_cons, drop_zero,
      take_succ_cons, take_zero, hchar, hnext]
  · rw [hplain, singleton_append, unescape, if_neg hquote, if_pos hslash]

theorem unescape_inner (upper : Bool) (s : Chars) :
    unescape number 0 ((QuoteStyle.double upper).inner s) = .ok s := by
  induction s with
  | nil => rfl
  | cons c s ih =>
    rw [QuoteStyle.inner, flatMap_cons, ← QuoteStyle.inner]
    show unescape number 0 (escapeChar upper c ++ _) = _
    rw [unescape_escape, ih]
    rfl

theorem unquote_other (hc : c ≠ '\'') (rest : Chars) :
    unquote number (c :: rest) = unquote number rest >>= fun more ↦ pure (c :: more) := by
  cases rest with
  | nil =>
    conv_lhs => rw [unquote]
    rw [if_neg hc]
  | cons d more => rw [unquote, if_neg hc]

theorem unquote_inner (s : Chars) : unquote number (QuoteStyle.single.inner s) = .ok s := by
  induction s with
  | nil => rfl
  | cons c s ih =>
    rw [QuoteStyle.inner, flatMap_cons, ← QuoteStyle.inner]
    show unquote number (doubleQuote c ++ _) = _
    rw [doubleQuote]
    split
    · rename_i hc
      rw [cons_append, singleton_append, unquote, if_pos rfl, if_pos rfl, ih, hc]
      rfl
    · rename_i hc
      rw [singleton_append, unquote_other hc, ih]
      rfl

theorem stripQuotes_quote (style : QuoteStyle) (s : Chars) :
    stripQuotes style.mark (style.quote s) = some (style.inner s) := by
  rw [QuoteStyle.quote, stripQuotes, if_pos ⟨rfl, getLast?_concat⟩, dropLast_concat]

/-- **A quoted text says what it quotes**, whether or not a comment follows. -/
theorem scalar_quote (style : QuoteStyle) (s : Chars) (h : IsComment tail) :
    scalar lib (style.quote s ++ tail) number = .ok (.string s) := by
  rw [scalar, stripComment_quote style s h]
  have hstrip := stripQuotes_quote style s
  cases style with
  | double upper =>
    show (doubleQuoted _ number).map Scalar.string = _
    rw [doubleQuoted, show stripQuotes '"' _ = _ from hstrip]
    simp only [unescape_inner]
    rfl
  | single =>
    show (singleQuoted _ number).map Scalar.string = _
    rw [singleQuoted, show stripQuotes '\'' _ = _ from hstrip]
    simp only [unquote_inner]
    rfl

theorem keyText_quote (style : QuoteStyle) (s : Chars) :
    keyText lib (style.quote s) number = .ok s := by
  have hscalar : scalar lib (style.quote s ++ []) number = .ok (.string s) :=
    scalar_quote style s (.inl rfl)
  rw [append_nil] at hscalar
  rw [keyText, hscalar]
  rfl

theorem blockScalarStyle_quote (style : QuoteStyle) (s : Chars) (h : IsComment tail) :
    blockScalarStyle (style.quote s ++ tail) = .ok none := by
  rw [blockScalarStyle, stripComment_quote style s h]
  cases style <;> rfl

theorem isBlank_quote (style : QuoteStyle) (s tail : Chars) : isBlank (style.quote s ++ tail) = false := by
  cases style <;> rfl

theorem isItem_quote (style : QuoteStyle) (s tail : Chars) : isItem (style.quote s ++ tail) = false := by
  cases style <;> rfl

end Huntsman.Yaml
