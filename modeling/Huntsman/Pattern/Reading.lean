import Huntsman.Lib.Loop
import Huntsman.Pattern.Grammar
import Mathlib.Data.List.Basic

/-!
# What the parser reads

The parser against the grammar.  What a part of the parser reads is what the grammar says of the
characters it moved over, and where it refuses, it does so at an offset of the text (`Meets`); what
the grammar says is read (`Takes`).

The trees that come out are therefore those of the grammar, but for the two forms the parser takes
besides (`parsesGrammar_iff`), and they are well formed (`parse_formed`): the bounds of every
repetition in them are in order, and every alternation has branches.
-/

set_option autoImplicit false

namespace Huntsman.Pattern

open Grammar

namespace Parser

variable {α : Type} {p q r : Parser} {c : Char} {m n : ℕ} {reason : String}

/-- `q` is at least `n` characters further on than `p` in the same text. -/
def Reaches (n : ℕ) (p q : Parser) : Prop :=
  q.pos + q.rest.length = p.pos + p.rest.length ∧ q.rest.length + n ≤ p.rest.length

theorem Reaches.trans (h : Reaches m p q) (h' : Reaches n q r) : Reaches (m + n) p r := by
  unfold Reaches at *
  omega

theorem Reaches.weaken (h : Reaches n p q) (hle : m ≤ n) : Reaches m p q := by
  unfold Reaches at *
  omega

theorem Reaches.le (h : Reaches n p q) : Reaches 0 p q := h.weaken (Nat.zero_le n)

theorem reaches_rfl : Reaches 0 p p := ⟨rfl, le_rfl⟩

theorem skip_reaches (h : n ≤ p.rest.length) : Reaches n p (p.skip n) := by
  simp only [Reaches, skip, List.length_drop]
  omega

/-- What was read is what `G` says, at least `n` characters long; a refusal is at an offset of the
text. -/
def Meets (n : ℕ) (G : Reading α) (p : Parser) : Parsed α → Prop
  | .ok (a, q) => G p.rest q.rest a ∧ Reaches n p q
  | .error e => e.offset ≤ p.pos + p.rest.length

section Meets

variable {G : Reading α}

theorem Meets.fail (h : Reaches m p q) : Meets n G p (q.fail reason) := by
  simp only [Meets, Parser.fail, ← h.1]
  omega

theorem Meets.error {e : PatternError} (h : Meets m G q (.error e)) {β : Type}
    {H : Reading β} (hq : Reaches 0 p q) : Meets n H p (.error e) := by
  simpa only [Meets, ← hq.1] using h

theorem Meets.after {H : Reading α} {r : Parsed α} (h : Meets n G q r)
    (hq : Reaches m p q) (hG : ∀ t a, G q.rest t a → H p.rest t a) : Meets m H p r := by
  match r with
  | .error e => exact h.error hq.le
  | .ok (a, _) => exact ⟨hG _ _ h.1, (hq.trans h.2).weaken (Nat.le_add_right _ _)⟩

end Meets

theorem peek_some (h : p.peek = some c) :
    p.rest = c :: (p.skip 1).rest ∧ Reaches 1 p (p.skip 1) := by
  obtain ⟨s, hs⟩ := List.head?_eq_some_iff.1 h
  exact ⟨by simp [skip, hs], skip_reaches (by simp [hs])⟩

theorem eat_true (h : p.eat c = (true, q)) : p.rest = c :: q.rest ∧ Reaches 1 p q := by
  unfold eat at h
  split at h
  · rename_i hpeek
    cases h
    exact peek_some hpeek
  · cases h

theorem eat_false (h : p.eat c = (false, q)) : q = p ∧ p.rest.head? ≠ some c := by
  unfold eat at h
  split at h
  · cases h
  · rename_i hpeek
    cases h
    exact ⟨rfl, hpeek⟩

theorem hexPair_take {s : List Char} {value : ℕ} {inClass : Bool}
    (h : hexPair (s.take 2) = some value) :
    Escape true inClass ('x' :: s) (s.drop 2) (.char (Char.ofNat value)) ∧ 2 ≤ s.length := by
  match s with
  | [] => simp [hexPair] at h
  | [_] => simp [hexPair] at h
  | high :: low :: s =>
    refine ⟨?_, by simp⟩
    simp only [List.take_succ_cons, List.take_zero] at h
    unfold hexPair at h
    split at h
    · rename_i heq
      cases heq
      exact .signed rfl h
    · rename_i heq
      cases heq
      obtain ⟨a, ha, b, hb, rfl⟩ := by simpa [Option.bind_eq_some_iff] using h
      exact .hex ha hb
    · cases h

theorem escape_meets {inClass : Bool} : Meets 1 (Escape true inClass) p (p.escape inClass) := by
  unfold escape
  split
  · exact .fail reaches_rfl
  · rename_i c hpeek
    obtain ⟨hrest, hstep⟩ := peek_some hpeek
    simp only
    split
    · rename_i e hnamed
      exact ⟨hrest ▸ .named hnamed, hstep⟩
    · split
      · rename_i hx
        split
        · exact .fail hstep
        · rename_i value hpair
          obtain ⟨hescape, hlength⟩ := @hexPair_take _ _ inClass hpair
          exact ⟨by rw [hrest, hx]; exact hescape,
            (hstep.trans (skip_reaches hlength)).weaken (by omega)⟩
      · split
        · exact .fail hstep
        · split
          · exact .fail hstep
          · rename_i hdigit halpha
            exact ⟨hrest ▸ .plain (by simp_all [Char.isAlphanum]), hstep⟩

theorem rangeEnd_meets : Meets 1 (ClassChar true) p p.rangeEnd := by
  unfold rangeEnd
  split
  · exact .fail reaches_rfl
  · rename_i c hpeek
    obtain ⟨hrest, hstep⟩ := peek_some hpeek
    simp only
    have hescape := @escape_meets (p.skip 1) true
    split
    · rename_i hc
      split
      · rename_i e he
        exact (he ▸ hescape).error hstep.le
      · rename_i low q hq
        obtain ⟨hescape, hq⟩ := hq ▸ hescape
        exact ⟨by rw [hrest, hc]; exact .escaped hescape, (hstep.trans hq).weaken (by omega)⟩
      · rename_i e q _ hq
        obtain ⟨-, hq⟩ := hq ▸ hescape
        exact .fail (hstep.trans hq)
    · rename_i hc
      exact ⟨hrest ▸ .plain hc, hstep⟩

theorem rangeSign_iff :
    RangeSign p.rest ↔ p.peek = some '-' ∧ (p.rest[1]?).any (· ≠ ']') = true := by
  rw [peek]
  generalize p.rest = s
  constructor
  · rintro ⟨h⟩
    simpa using h
  · rintro ⟨hhead, hnext⟩
    match s with
    | [] => cases hhead
    | [_] => cases hnext
    | c :: d :: s =>
      cases hhead
      exact .mk (by simpa using hnext)

theorem classRange_meets {s : List Char} (h : ClassChar true s p.rest c) :
    Meets 0 (fun _ t ↦ ClassEntry true s t) p (p.classRange c) := by
  unfold classRange
  split
  · rename_i hsign
    obtain ⟨hrest, hstep⟩ := peek_some hsign.1
    have hend := rangeEnd_meets (p := p.skip 1)
    split
    · rename_i e he
      exact (he ▸ hend).error hstep.le
    · rename_i high q hq
      obtain ⟨hhigh, hq⟩ := hq ▸ hend
      split
      · exact .fail (hstep.trans hq)
      · rename_i hle
        refine ⟨.range (hrest ▸ h) (hrest ▸ rangeSign_iff.2 hsign) hhigh (Char.not_lt.1 hle), ?_⟩
        exact (hstep.trans hq).le
  · rename_i hsign
    exact ⟨.single h (fun h ↦ hsign (rangeSign_iff.1 h)), reaches_rfl⟩

theorem classItem_meets : Meets 0 (fun s ↦ ClassEntry true (c :: s)) p (p.classItem c) := by
  unfold classItem
  split
  · rename_i hc
    have hescape := @escape_meets p true
    split
    · rename_i e he
      exact (he ▸ hescape).error reaches_rfl
    · rename_i low q hq
      obtain ⟨hlow, hq⟩ := hq ▸ hescape
      exact (classRange_meets (hc ▸ .escaped hlow)).after hq.le fun _ _ h ↦ h
    · rename_i kind negated q hq
      obtain ⟨hperl, hq⟩ := hq ▸ hescape
      exact ⟨hc ▸ .perl hperl, hq.le⟩
    · rename_i assertion q hq
      exact .fail (hq ▸ hescape).2
  · rename_i hc
    exact classRange_meets (.plain hc)

/-- What a part of the class loop reads comes after the items it has. -/
theorem classLoop_meets {fuel : ℕ} {first : Bool} {items : List ClassItem} :
    Meets 0 (fun s t all ↦ ∃ read, ClassEntries true first s t read ∧ all = items ++ read) p
      (classLoop fuel first items p) := by
  induction fuel generalizing first items p with
  | zero => exact .fail reaches_rfl
  | succ fuel ih =>
    unfold classLoop
    split
    · exact .fail reaches_rfl
    · rename_i c hpeek
      obtain ⟨hrest, hstep⟩ := peek_some hpeek
      have hstep' := hstep.le
      split
      · rename_i hclose
        refine ⟨⟨[], ?_, (List.append_nil _).symm⟩, hstep'⟩
        rw [hrest, hclose.1, hclose.2]
        exact .close
      · rename_i hopen
        have hitem := classItem_meets (p := p.skip 1) (c := c)
        split
        · rename_i e he
          exact (he ▸ hitem).error hstep'
        · rename_i item q hq
          obtain ⟨hentry, hq⟩ := hq ▸ hitem
          refine ih.after (hstep'.trans hq) ?_
          rintro t all ⟨read, hread, rfl⟩
          refine ⟨item :: read, .cons ?_ (hrest ▸ hentry) hread, by simp⟩
          intro hhead
          simp_all

theorem charClass_meets :
    Meets 0 (fun s t node ↦ ∃ k, CharClass true s t k ∧ node = .charClass k) p p.charClass := by
  unfold charClass
  simp only
  have hloop := @classLoop_meets (p.eat '^').2 (p.eat '^').2.rest.length true []
  cases heat : p.eat '^' with
  | mk negated q =>
    simp only [heat] at hloop ⊢
    have hq : Reaches 0 p q := by
      cases negated with
      | true => exact (eat_true heat).2.le
      | false => exact (eat_false heat).1 ▸ reaches_rfl
    split
    · rename_i e he
      exact (he ▸ hloop).error hq
    · rename_i items r hr
      obtain ⟨⟨read, hread, rfl⟩, hr⟩ := hr ▸ hloop
      refine ⟨⟨_, ?_, rfl⟩, hq.trans hr⟩
      cases negated with
      | true => exact (eat_true heat).1 ▸ .negated hread
      | false =>
        obtain ⟨rfl, hhead⟩ := eat_false heat
        exact .plain hhead hread

/-- The answer is `a`, and `t` is what is left then. -/
def Takes (answer : Parsed α) (a : α) (t : List Char) : Prop :=
  ∃ q, answer = .ok (a, q) ∧ q.rest = t

variable {wide inClass first : Bool} {s t u : List Char} {low high : Char} {entry : ClassItem}

theorem number_eq {source : String} {pos : ℕ} {digits s : List Char} {ic : Bool}
    (hdigits : ∀ d ∈ digits, d.isDigit = true) (hc : c.isDigit = false) :
    number ⟨source, pos, digits ++ c :: s, ic⟩ =
      (parseDigits digits, ⟨source, pos + digits.length, c :: s, ic⟩) := by
  have htake : (digits ++ c :: s).takeWhile Char.isDigit = digits := by
    rw [List.takeWhile_append_of_pos hdigits, List.takeWhile_cons_of_neg (by simp [hc]),
      List.append_nil]
  simp [number, htake, skip]

theorem number_reads {o : Option ℕ} (h : p.number = (o, q)) :
    ∃ digits, (∀ d ∈ digits, d.isDigit = true) ∧ p.rest = digits ++ q.rest ∧
      parseDigits digits = o ∧ q.pos = p.pos + digits.length ∧ Reaches 0 p q := by
  cases h
  refine ⟨p.rest.takeWhile Char.isDigit, fun d hd ↦ ?_, ?_, rfl, rfl, ?_⟩
  · exact List.all_eq_true.1 List.all_takeWhile d hd
  · exact (List.prefix_iff_eq_append.1 (List.takeWhile_prefix _)).symm
  · exact (skip_reaches (List.takeWhile_prefix _).length_le).le

theorem countedBody_reads {b : Bounds} (h : p.countedBody = some (b, q)) :
    Quantifier ('{' :: p.rest) q.rest b ∧ Reaches 0 p q := by
  unfold countedBody at h
  simp only at h
  cases hnumber : p.number with
  | mk min p₁ =>
    obtain ⟨low, hlow, hrest, hmin, hpos, hp₁⟩ := number_reads hnumber
    simp only [hnumber] at h
    split at h
    · cases h
    · rename_i hguard
      have hnil : min = none → low = [] := fun hnone ↦ by
        by_contra hne
        have := List.length_pos_iff.2 hne
        exact hguard ⟨by omega, hnone⟩
      split at h
      · rename_i p₂ heat
        obtain ⟨hclose, hp₂⟩ := eat_true heat
        obtain ⟨n, hn, heq⟩ := Option.map_eq_some_iff.1 h
        cases heq
        rw [hrest, hclose]
        exact ⟨.exactly ⟨hlow, hmin.trans hn⟩, (hp₁.trans hp₂).le⟩
      · rename_i p₂ heat
        rw [(eat_false heat).1] at h
        split at h
        · cases h
        · rename_i p₃ hcomma
          obtain ⟨hcomma, hp₃⟩ := eat_true hcomma
          have hp₃ := (hp₁.trans hp₃).le
          rw [hrest, hcomma]
          split at h
          · rename_i p₄ hclose
            obtain ⟨hclose, hp₄⟩ := eat_true hclose
            cases h
            refine ⟨?_, (hp₃.trans hp₄).le⟩
            rw [hclose]
            cases min with
            | none => rw [hnil rfl]; exact .any
            | some n => exact .atLeast ⟨hlow, hmin⟩
          · rename_i p₄ hclose
            rw [(eat_false hclose).1] at h
            split at h
            · cases h
            · rename_i max p₅ hmax
              obtain ⟨high, hhigh, hrest', hmax, -, hp₅⟩ := number_reads hmax
              split at h
              · rename_i p₆ hend
                obtain ⟨hend, hp₆⟩ := eat_true hend
                cases h
                refine ⟨?_, ((hp₃.trans hp₅).trans hp₆).le⟩
                rw [hrest', hend]
                cases min with
                | none => rw [hnil rfl]; exact .atMost ⟨hhigh, hmax⟩
                | some n => exact .between ⟨hlow, hmin⟩ ⟨hhigh, hmax⟩
              · cases h

theorem quantifier_reads {b : Bounds} (h : p.quantifier = some (b, q)) :
    Quantifier p.rest q.rest b ∧ Reaches 0 p q := by
  have hone {c : Char} {b : Bounds} (hpeek : p.peek = some c)
      (hb : Quantifier (c :: (p.skip 1).rest) (p.skip 1).rest b) :
      Quantifier p.rest (p.skip 1).rest b ∧ Reaches 0 p (p.skip 1) :=
    ⟨(peek_some hpeek).1 ▸ hb, (peek_some hpeek).2.le⟩
  unfold quantifier at h
  split at h
  · cases h
    exact hone ‹_› .star
  · cases h
    exact hone ‹_› .plus
  · cases h
    exact hone ‹_› .optional
  · unfold counted at h
    split at h
    · rename_i p₁ heat
      obtain ⟨hrest, hp₁⟩ := eat_true heat
      obtain ⟨hbody, hq⟩ := countedBody_reads h
      exact ⟨hrest ▸ hbody, (hp₁.trans hq).le⟩
    · cases h
  · cases h

theorem eat_cons {source : String} {pos : ℕ} {d : Char} {s : List Char} {ic : Bool} :
    eat ⟨source, pos, d :: s, ic⟩ c =
      if d = c then (true, ⟨source, pos + 1, s, ic⟩) else (false, ⟨source, pos, d :: s, ic⟩) := by
  simp [eat, peek, skip]

/-- A number is not read past. -/
theorem eat_bound {source : String} {pos : ℕ} {digits s : List Char} {ic : Bool}
    (h : Bound digits n) :
    eat ⟨source, pos, digits ++ s, ic⟩ '}' = (false, ⟨source, pos, digits ++ s, ic⟩) := by
  cases digits with
  | nil => exact absurd h.2 (by simp [parseDigits])
  | cons d digits =>
    have hd : d ≠ '}' := fun hd ↦ absurd (hd ▸ h.1 d List.mem_cons_self) (by decide)
    rw [List.cons_append, eat_cons, if_neg hd]

theorem quantifier_takes {t : List Char} {b : Bounds} (h : Quantifier p.rest t b) :
    ∃ q, p.quantifier = some (b, q) ∧ q.rest = t := by
  obtain ⟨source, pos, rest, ic⟩ := p
  -- a bound that is left out
  have hnone {pos : ℕ} {c : Char} {s : List Char} (hc : c.isDigit = false) :
      number ⟨source, pos, c :: s, ic⟩ = (none, ⟨source, pos, c :: s, ic⟩) :=
    @number_eq _ _ _ [] _ _ (by simp) hc
  cases h with
  | star | plus | optional => exact ⟨_, rfl, rfl⟩
  | any => simp [quantifier, counted, eat_cons, peek, countedBody, hnone]
  | exactly h => simp [quantifier, counted, eat_cons, peek, countedBody, number_eq h.1, h.2]
  | atLeast h => simp [quantifier, counted, eat_cons, peek, countedBody, number_eq h.1, h.2]
  | atMost h =>
    simp [quantifier, counted, eat_cons, peek, countedBody, hnone, eat_bound h, number_eq h.1, h.2]
  | between h h' =>
    simp [quantifier, counted, eat_cons, peek, countedBody, number_eq h.1, h.2, eat_bound h',
      number_eq h'.1, h'.2]

/-! ## Atoms, concatenations and alternations -/

theorem eatBoth_reads {a b : Char} {ate : Bool} (h : p.eatBoth a b = (ate, q)) :
    Reaches 0 p q ∧ ((ate = true ∧ p.rest = a :: b :: q.rest) ∨
      (ate = false ∧ (p.rest = q.rest ∨ p.rest = a :: q.rest))) := by
  unfold eatBoth at h
  split at h
  · rename_i p₁ hp₁
    obtain ⟨hrest, hp₁⟩ := eat_true hp₁
    have hp₁ := hp₁.le
    cases ate with
    | true =>
      obtain ⟨hrest', hq⟩ := eat_true h
      exact ⟨hp₁.trans hq.le, .inl ⟨rfl, hrest' ▸ hrest⟩⟩
    | false =>
      obtain ⟨rfl, -⟩ := eat_false h
      exact ⟨hp₁, .inr ⟨rfl, .inr hrest⟩⟩
  · rename_i p₁ hp₁
    cases h
    rw [(eat_false hp₁).1]
    exact ⟨reaches_rfl, .inr ⟨rfl, .inl rfl⟩⟩

theorem skipName_eq {source : String} {pos : ℕ} {name s : List Char} {ic : Bool}
    (h : '>' ∉ name) : skipName ⟨source, pos, name ++ '>' :: s, ic⟩ =
      ⟨source, pos + (name.length + 1), s, ic⟩ := by
  have htake : (name ++ '>' :: s).takeWhile (· != '>') = name := by
    rw [List.takeWhile_append_of_pos fun c hc ↦ bne_iff_ne.2 (ne_of_mem_of_not_mem hc h),
      List.takeWhile_cons_of_neg (by simp), List.append_nil]
  simp [skipName, skip, htake]

theorem skipName_reads : Reaches 0 p p.skipName ∧
    (p.skipName.rest = [] ∨ ∃ name, '>' ∉ name ∧ p.rest = name ++ '>' :: p.skipName.rest) := by
  refine ⟨(skip_reaches (Nat.min_le_right _ _)).le, ?_⟩
  have hsplit := List.takeWhile_append_dropWhile (p := (· != '>')) (l := p.rest)
  have hname : '>' ∉ p.rest.takeWhile (· != '>') := fun hmem ↦
    absurd (List.all_eq_true.1 List.all_takeWhile '>' hmem) (by decide)
  cases hdrop : p.rest.dropWhile (· != '>') with
  | nil =>
    rw [hdrop, List.append_nil] at hsplit
    exact .inl (by simp [skipName, skip, hsplit])
  | cons c s =>
    have hc : c = '>' := by
      have := List.head?_dropWhile_not (· != '>') p.rest
      simpa [hdrop] using this
    rw [hdrop, hc] at hsplit
    refine .inr ⟨_, hname, ?_⟩
    generalize p.rest.takeWhile (· != '>') = name at hname hsplit ⊢
    obtain ⟨source, pos, rest, ic⟩ := p
    obtain rfl : name ++ '>' :: s = rest := hsplit
    rw [skipName_eq hname]

/-- What an opening leaves to be read.  A name without its `>` goes on to the end. -/
def Opened (s t : List Char) : Bool → Prop
  | true => Opening s t ∨ t = []
  | false => Flag true s t

theorem opening_meets : Meets 0 Opened p p.opening := by
  unfold opening
  split
  · rename_i q hq
    obtain ⟨rfl, hhead⟩ := eat_false hq
    exact ⟨.inl (.captured hhead), reaches_rfl⟩
  · rename_i p₁ hp₁
    obtain ⟨hrest, hp₁⟩ := eat_true hp₁
    have hp₁ := hp₁.le
    split
    · rename_i p₂ hp₂
      obtain ⟨hrest', hp₂⟩ := eat_true hp₂
      exact ⟨.inl (by rw [hrest, hrest']; exact .uncaptured), hp₁.trans hp₂.le⟩
    · rename_i p₂ hp₂
      obtain ⟨rfl, -⟩ := eat_false hp₂
      split
      · rename_i p₃ hp₃
        obtain ⟨hp₃, ⟨-, hrest'⟩ | ⟨h, -⟩⟩ := eatBoth_reads hp₃
        · obtain ⟨hq, hnil | ⟨name, hname, hrest''⟩⟩ := skipName_reads (p := p₃)
          · exact ⟨.inr hnil, hp₁.trans (hp₃.trans hq)⟩
          · refine ⟨.inl ?_, hp₁.trans (hp₃.trans hq)⟩
            rw [hrest, hrest', hrest'']
            exact .named hname
        · cases h
      · rename_i p₃ hp₃
        obtain ⟨hp₃, ⟨h, -⟩ | ⟨-, hrest'⟩⟩ := eatBoth_reads hp₃
        · cases h
        · split
          · rename_i p₄ hp₄
            obtain ⟨hp₄, ⟨-, hflag⟩ | ⟨h, -⟩⟩ := eatBoth_reads hp₄
            · refine ⟨?_, hp₁.trans (hp₃.trans hp₄)⟩
              rw [hrest]
              rcases hrest' with hrest' | hrest' <;> rw [hrest', hflag]
              · exact .plain
              · exact .loose rfl
            · cases h
          · rename_i p₄ hp₄
            exact .fail (hp₁.trans (hp₃.trans (eatBoth_reads hp₄).1))

/-- How the inside of a group is read, against what it may be. -/
def MeetsInner (read : Option (Parser → Parsed Node)) (inner : Reading Node) :
    Prop :=
  ∀ f ∈ read, ∀ p, Meets 0 inner p (f p)

variable {read : Option (Parser → Parsed Node)} {inner : Reading Node}
  {node : Node}

theorem group_meets (hinner : MeetsInner read inner) :
    Meets 0 (fun s ↦ Atom true inner ('(' :: s)) p (group read p) := by
  unfold group
  have hopening := opening_meets (p := p)
  split
  · rename_i e he
    exact (he ▸ hopening).error reaches_rfl
  · rename_i q hq
    obtain ⟨hflag, hq⟩ := hq ▸ hopening
    exact ⟨.flag hflag, hq⟩
  · rename_i p₁ hp₁
    obtain ⟨hopened, hp₁⟩ := hp₁ ▸ hopening
    split
    · exact .fail hp₁
    · rename_i f
      have hread := hinner f rfl p₁
      split
      · rename_i e he
        exact (he ▸ hread).error hp₁
      · rename_i node p₂ hp₂
        obtain ⟨hnode, hp₂⟩ := hp₂ ▸ hread
        split
        · rename_i p₃ hp₃
          obtain ⟨hclose, hp₃⟩ := eat_true hp₃
          refine ⟨?_, (hp₁.trans hp₂).trans hp₃.le⟩
          rcases hopened with hopened | hnil
          · exact .group hopened (hclose ▸ hnode)
          · -- a name that goes on to the end leaves no `)`
            have := hp₂.2
            simp [hnil, hclose] at this
        · rename_i p₃ hp₃
          rw [(eat_false hp₃).1]
          exact .fail (hp₁.trans hp₂)

/-- Where an item starts: not at what ends a concatenation. -/
def Starts (p : Parser) : Prop := ∃ c, p.peek = some c ∧ ¬(c = '|' ∨ c = ')')

theorem atom_meets (hinner : MeetsInner read inner) (hstarts : Starts p) :
    Meets 1 (Atom true inner) p (atom read p) := by
  unfold atom
  split
  · exact .fail reaches_rfl
  · rename_i c hpeek
    obtain ⟨hrest, hstep⟩ := peek_some hpeek
    simp only
    split
    · exact ⟨hrest ▸ .any, hstep⟩
    · exact ⟨hrest ▸ .start, hstep⟩
    · exact ⟨hrest ▸ .end, hstep⟩
    · refine charClass_meets.after hstep ?_
      rintro t _ ⟨k, hk, rfl⟩
      exact hrest ▸ .charClass hk
    · exact (group_meets hinner).after hstep fun t node h ↦ hrest ▸ h
    · have hescape := @escape_meets (p.skip 1) false
      split
      · rename_i e he
        exact (he ▸ hescape).error hstep.le
      · rename_i e q hq
        obtain ⟨hescape, hq⟩ := hq ▸ hescape
        exact ⟨hrest ▸ .escape hescape, (hstep.trans hq).weaken (by omega)⟩
    · exact .fail hstep
    · exact .fail hstep
    · exact .fail hstep
    · refine ⟨hrest ▸ .char ?_, hstep⟩
      obtain ⟨d, hd, hstarts⟩ := hstarts
      rw [hpeek] at hd
      cases hd
      simp_all [special]

theorem quantified_meets {s : List Char} (h : Atom true inner s p.rest node) :
    Meets 0 (fun _ ↦ Item true inner s) p (p.quantified node) := by
  unfold quantified
  split
  · rename_i hnone
    refine ⟨.once h fun u b hb ↦ ?_, reaches_rfl⟩
    obtain ⟨q, hq, -⟩ := quantifier_takes hb
    rw [hnone] at hq
    cases hq
  · rename_i min max q hq
    obtain ⟨hquantifier, hq⟩ := quantifier_reads hq
    split
    · exact .fail hq
    · rename_i hbounds
      split
      · exact .fail hq
      · rename_i hrepeatable
        have hbounds' : ∀ m ∈ max, min ≤ m := by
          rintro m rfl
          simpa using hbounds
        cases heat : q.eat '?' with
        | mk lazy r =>
          cases lazy with
          | true =>
            obtain ⟨hmark, hr⟩ := eat_true heat
            exact ⟨.repeated h hquantifier (by simpa using hrepeatable) hbounds' (hmark ▸ .mark),
              hq.trans hr.le⟩
          | false =>
            obtain ⟨rfl, hhead⟩ := eat_false heat
            exact ⟨.repeated h hquantifier (by simpa using hrepeatable) hbounds' (.none hhead), hq⟩

theorem item_meets (hinner : MeetsInner read inner) (hstarts : Starts p) :
    Meets 1 (Item true inner) p (item read p) := by
  unfold item
  have hatom := atom_meets hinner hstarts
  split
  · rename_i e he
    exact (he ▸ hatom).error reaches_rfl
  · rename_i node q hq
    obtain ⟨hatom, hq⟩ := hq ▸ hatom
    exact (quantified_meets hatom).after hq fun t node h ↦ h

theorem concatLoop_meets (hinner : MeetsInner read inner) {fuel : ℕ} (items : List Node)
    (hfuel : p.rest.length ≤ fuel) :
    Meets 0 (fun s t all ↦ ∃ nodes, Items true inner s t nodes ∧ all = items ++ nodes) p
      (concatLoop read fuel items p) := by
  induction fuel generalizing items p with
  | zero =>
    refine ⟨⟨[], .nil ?_, (List.append_nil _).symm⟩, reaches_rfl⟩
    rw [List.eq_nil_of_length_eq_zero (Nat.le_zero.1 hfuel)]
    simp
  | succ fuel ih =>
    unfold concatLoop
    split
    · rename_i hpeek
      refine ⟨⟨[], .nil ?_, (List.append_nil _).symm⟩, reaches_rfl⟩
      rw [← peek, hpeek]
      simp
    · rename_i c hpeek
      split
      · rename_i hstop
        refine ⟨⟨[], .nil ?_, (List.append_nil _).symm⟩, reaches_rfl⟩
        rw [← peek, hpeek]
        simpa using hstop
      · rename_i hstarts
        have hitem := item_meets hinner ⟨c, hpeek, hstarts⟩
        split
        · rename_i e he
          exact (he ▸ hitem).error reaches_rfl
        · rename_i node q hq
          obtain ⟨hitem, hq⟩ := hq ▸ hitem
          refine (ih _ ?_).after hq.le ?_
          · unfold Reaches at hq
            omega
          · rintro t all ⟨nodes, hnodes, rfl⟩
            exact ⟨node :: nodes, .cons hitem hnodes, by simp⟩

-- What is read inside a group, by the grammar the parser accepts.
variable {G : Reading Node}

theorem concat_meets (hinner : MeetsInner read inner) :
    Meets 0 (fun s t node ↦ ∃ nodes, Items true inner s t nodes ∧ node = concatOf nodes) p
      (concat read p) := by
  unfold concat
  have hloop := concatLoop_meets hinner (p := p) [] le_rfl
  split
  · rename_i e he
    exact (he ▸ hloop).error reaches_rfl
  · rename_i items q hq
    obtain ⟨⟨nodes, hnodes, rfl⟩, hq⟩ := hq ▸ hloop
    exact ⟨⟨_, hnodes, rfl⟩, hq⟩

/-- The branches after the first, each with its `|`. -/
def MoreBranches (wide : Bool) (inner : Reading Node) (s t : List Char)
    (branches : List Node) : Prop :=
  branches = [] ∧ s = t ∧ s.head? ≠ some '|' ∨
    ∃ s', s = '|' :: s' ∧ Branches wide inner s' t branches

theorem MoreBranches.after {nodes branches : List Node} (h : Items wide inner s t nodes)
    (hmore : MoreBranches wide inner t u branches) :
    Branches wide inner s u (concatOf nodes :: branches) := by
  rcases hmore with ⟨rfl, rfl, ht⟩ | ⟨t, rfl, hrest⟩
  · exact .last h ht
  · exact .more h hrest

theorem alternationLoop_meets (hinner : MeetsInner read inner) {fuel : ℕ} (branches : List Node)
    (hfuel : p.rest.length ≤ fuel) :
    Meets 0 (fun s t all ↦ ∃ more, MoreBranches true inner s t more ∧ all = branches ++ more) p
      (alternationLoop read fuel branches p) := by
  induction fuel generalizing branches p with
  | zero =>
    refine ⟨⟨[], .inl ⟨rfl, rfl, ?_⟩, (List.append_nil _).symm⟩, reaches_rfl⟩
    rw [List.eq_nil_of_length_eq_zero (Nat.le_zero.1 hfuel)]
    simp
  | succ fuel ih =>
    unfold alternationLoop
    split
    · rename_i q heat
      obtain ⟨rfl, hhead⟩ := eat_false heat
      exact ⟨⟨[], .inl ⟨rfl, rfl, hhead⟩, (List.append_nil _).symm⟩, reaches_rfl⟩
    · rename_i p₁ heat
      obtain ⟨hrest, hp₁⟩ := eat_true heat
      have hconcat := concat_meets hinner (p := p₁)
      split
      · rename_i e he
        exact (he ▸ hconcat).error hp₁.le
      · rename_i branch p₂ hp₂
        have hbranch := hp₂ ▸ hconcat
        obtain ⟨⟨nodes, hnodes, rfl⟩, hp₂'⟩ := hbranch
        have hp₂ := hp₁.trans hp₂'
        refine (ih _ ?_).after hp₂.le ?_
        · unfold Reaches at hp₂
          omega
        · rintro t all ⟨more, hmore, rfl⟩
          exact ⟨concatOf nodes :: more, .inr ⟨p₁.rest, hrest, hmore.after hnodes⟩, by simp⟩

theorem alternationWith_meets (hinner : MeetsInner read inner) :
    Meets 0 (AlternationOf true inner) p (alternationWith read p) := by
  unfold alternationWith
  have hconcat := concat_meets hinner (p := p)
  split
  · rename_i e he
    exact (he ▸ hconcat).error reaches_rfl
  · rename_i first q hq
    have hfirst := hq ▸ hconcat
    obtain ⟨⟨nodes, hnodes, rfl⟩, hq'⟩ := hfirst
    have hloop := alternationLoop_meets hinner (p := q) [concatOf nodes] le_rfl
    split
    · rename_i e he
      exact (he ▸ hloop).error hq'
    · rename_i branches r hr
      have hmore := hr ▸ hloop
      obtain ⟨⟨more, hmore, rfl⟩, hr'⟩ := hmore
      exact ⟨⟨_, hmore.after hnodes, rfl⟩, hq'.trans hr'⟩

theorem alternation_meets {level : ℕ} :
    Meets 0 (Alternation true level) p (alternation level p) := by
  induction level generalizing p with
  | zero => exact alternationWith_meets (fun _ hread ↦ by cases hread)
  | succ level ih =>
    refine alternationWith_meets (fun f hread p ↦ ?_)
    cases hread
    exact ih

end Parser

/-! ## The trees of the grammar are well formed -/

section Formed

variable {wide : Bool} {inner : Reading Node} {s t : List Char} {node : Node}
  {nodes : List Node} (hinner : ∀ s t node, inner s t node → node.Formed)

include hinner

theorem Grammar.Item.formed (h : Item wide inner s t node) : node.Formed := by
  have hatom {s t : List Char} {node : Node} (h : Atom wide inner s t node) : node.Formed := by
    cases h with
    | group _ h => exact hinner _ _ _ h
    | @escape _ _ e => cases e <;> trivial
    | _ => trivial
  cases h with
  | once h => exact hatom h
  | repeated h _ _ hbounds => exact ⟨hatom h, hbounds⟩

theorem Grammar.Items.formed (h : Items wide inner s t nodes) : (Parser.concatOf nodes).Formed := by
  have hnodes : ∀ n ∈ nodes, n.Formed := by
    induction h with
    | nil => simp
    | cons h _ ih => exact List.forall_mem_cons.2 ⟨h.formed hinner, ih⟩
  match nodes with
  | [] => exact trivial
  | [node] => exact hnodes node (List.mem_singleton.2 rfl)
  | _ :: _ :: _ => exact formedAll_iff.2 hnodes

theorem Grammar.AlternationOf.formed (h : AlternationOf wide inner s t node) : node.Formed := by
  obtain ⟨branches, h, rfl⟩ := h
  have hbranches : branches ≠ [] ∧ ∀ b ∈ branches, b.Formed := by
    induction h with
    | last h => exact ⟨by simp, by simpa using h.formed hinner⟩
    | more h _ ih => exact ⟨by simp, List.forall_mem_cons.2 ⟨h.formed hinner, ih.2⟩⟩
  match branches with
  | [] => exact absurd rfl hbranches.1
  | [node] => exact hbranches.2 node (List.mem_singleton.2 rfl)
  | _ :: _ :: _ => exact ⟨hbranches.1, formedAll_iff.2 hbranches.2⟩

end Formed

theorem Grammar.Alternation.formed {wide : Bool} {level : ℕ} {s t : List Char} {node : Node}
    (h : Alternation wide level s t node) : node.Formed := by
  induction level generalizing s t node with
  | zero => exact AlternationOf.formed (fun _ _ _ h ↦ h.elim) h
  | succ level ih => exact AlternationOf.formed (fun _ _ _ ↦ ih) h

/-! ## What is read is what the grammar derives -/

variable {source : String} {ignoreCase rule : Bool} {node : Node}

theorem parse_meets (source : String) (ignoreCase : Bool) :
    match parse source ignoreCase with
    | .ok (node, _) => Derives true source node
    | .error e => e.offset ≤ source.toList.length := by
  have hmeets := @Parser.alternation_meets ⟨source, 0, source.toList, ignoreCase⟩ maxDepth
  unfold parse
  generalize Parser.alternation maxDepth _ = answer at hmeets
  match answer with
  | .error e => simpa [Parser.Meets] using hmeets
  | .ok (node, p) =>
    obtain ⟨hread, hsum, -⟩ := hmeets
    by_cases hrest : p.rest = []
    · rw [hrest] at hread
      simp only [if_pos hrest]
      exact hread
    · simp only [if_neg hrest]
      simp only at hsum
      omega

/-- **A tree that was read is well formed.** -/
theorem parse_formed (h : parse source ignoreCase = .ok (node, rule)) : node.Formed := by
  have hmeets := parse_meets source ignoreCase
  rw [h] at hmeets
  exact hmeets.formed

/-- A pattern that begins with a `\` begins with an escape. -/
theorem Grammar.AlternationOf.escape {wide : Bool} {inner : Reading Node}
    {s t : List Char} (h : AlternationOf wide inner ('\\' :: s) t node) :
    ∃ u e, Escape wide false s u e := by
  have hatom {u : List Char} {node : Node} (h : Atom wide inner ('\\' :: s) u node) :
      ∃ u e, Escape wide false s u e := by
    cases h with
    | escape h => exact ⟨_, _, h⟩
    | char h => exact absurd (by decide) h
  have hitems {u : List Char} {nodes : List Node} (h : Items wide inner ('\\' :: s) u nodes) :
      ∃ u e, Escape wide false s u e := by
    cases h with
    | nil h => exact absurd (h '\\' rfl) (by decide)
    | cons h =>
      cases h with
      | once h => exact hatom h
      | repeated h => exact hatom h
  obtain ⟨branches, h, -⟩ := h
  cases h with
  | last h => exact hitems h
  | more h => exact hitems h

end Huntsman.Pattern
