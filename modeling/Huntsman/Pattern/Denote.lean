import Huntsman.Pattern.Code
import Huntsman.Pattern.Machine

/-!
# What code accepts

A machine at the start of the code of a tree can reach the match instruction exactly when the tree
matches some stretch of the text from there and a machine at the end of the code, past that stretch,
can reach it (`Node.Code.enters` and `Node.Code.leaves`).
-/

set_option autoImplicit false

namespace Huntsman.Pattern

section

variable (u : Unicode) (ignoreCase : Bool) (prog : List Inst) (chars : List Char)

/-- The match instruction is `n` steps away from `pc` at position `i`. -/
def Accepts : ℕ → ℕ → ℕ → Prop
  | 0, pc, _ => prog[pc]? = some .matched
  | n + 1, pc, i => ∃ pc' i', Step u ignoreCase prog chars (pc, i) (pc', i') ∧ Accepts n pc' i'

/-- From `s` at `i` a machine that gets to the match instruction first gets to `e`, at some `j` that
`R` relates to `i`. -/
def Enters (R : ℕ → ℕ → Prop) (s e : ℕ) : Prop :=
  ∀ n i, Accepts u ignoreCase prog chars n s i →
    ∃ j m, m ≤ n ∧ R i j ∧ Accepts u ignoreCase prog chars m e j

/-- From `s` at `i` a machine can get to `e` at every `j` that `R` relates to `i`. -/
def Leaves (R : ℕ → ℕ → Prop) (s e : ℕ) : Prop :=
  ∀ i j, R i j → Relation.ReflTransGen (Step u ignoreCase prog chars) (s, i) (e, j)

end

variable {u : Unicode} {ignoreCase : Bool} {prog : List Inst} {chars : List Char}

/-! ### One instruction -/

theorem accepts_follow {pc : ℕ} {inst : Inst} (hinst : prog[pc]? = some inst)
    (hreads : ∀ c, inst.advances u ignoreCase c = false) (hmatch : inst ≠ .matched) {n i : ℕ}
    (h : Accepts u ignoreCase prog chars n pc i) :
    ∃ m pc', n = m + 1 ∧ pc' ∈ inst.follows u chars i pc ∧
      Accepts u ignoreCase prog chars m pc' i := by
  match n with
  | 0 =>
    rw [Accepts, hinst, Option.some.injEq] at h
    exact absurd h hmatch
  | m + 1 =>
    obtain ⟨pc', i', hstep, hrest⟩ := h
    cases hstep with
    | follow h =>
      obtain ⟨inst', hinst', hmem⟩ := h
      rw [hinst, Option.some.injEq] at hinst'
      exact ⟨m, pc', rfl, hinst' ▸ hmem, hrest⟩
    | read hinst' _ h =>
      rw [hinst, Option.some.injEq] at hinst'
      subst hinst'
      rw [hreads] at h
      simp at h

/-- An instruction that reads a character. -/
theorem accepts_read {pc : ℕ} {inst : Inst} (hinst : prog[pc]? = some inst)
    (hfollows : ∀ i, inst.follows u chars i pc = []) (hmatch : inst ≠ .matched) :
    Enters u ignoreCase prog chars (Reads chars (inst.advances u ignoreCase)) pc (pc + 1) := by
  intro n i h
  match n with
  | 0 =>
    rw [Accepts, hinst, Option.some.injEq] at h
    exact absurd h hmatch
  | m + 1 =>
    obtain ⟨pc', i', hstep, hrest⟩ := h
    cases hstep with
    | follow h =>
      obtain ⟨inst', hinst', hmem⟩ := h
      rw [hinst, Option.some.injEq] at hinst'
      subst hinst'
      rw [hfollows] at hmem
      cases hmem
    | read hinst' hc h =>
      rw [hinst, Option.some.injEq] at hinst'
      subst hinst'
      exact ⟨_, m, Nat.le_succ m, ⟨_, hc, h, rfl⟩, hrest⟩

theorem leaves_read {pc : ℕ} {inst : Inst} (hinst : prog[pc]? = some inst) :
    Leaves u ignoreCase prog chars (Reads chars (inst.advances u ignoreCase)) pc (pc + 1) := by
  rintro i j ⟨c, hc, h, rfl⟩
  exact .single (.read hinst hc h)

theorem step_follow {pc pc' i : ℕ} {inst : Inst} (hinst : prog[pc]? = some inst)
    (h : pc' ∈ inst.follows u chars i pc) :
    Relation.ReflTransGen (Step u ignoreCase prog chars) (pc, i) (pc', i) :=
  .single (.follow ⟨inst, hinst, h⟩)

/-! ### Sequences and loops -/

theorem Enters.times {C R : ℕ → ℕ → Prop}
    (hR : ∀ {s e}, C s e → Enters u ignoreCase prog chars R s e) {k s e : ℕ} (h : Times C k s e) :
    Enters u ignoreCase prog chars (Times R k) s e := by
  induction k generalizing s with
  | zero =>
    obtain rfl : s = e := h
    exact fun n i hn ↦ ⟨i, n, le_rfl, rfl, hn⟩
  | succ k ih =>
    obtain ⟨a, ha, hrest⟩ := h
    intro n i hn
    obtain ⟨j, m, hm, hij, hacc⟩ := hR ha n i hn
    obtain ⟨l, m', hm', hjl, hend⟩ := ih hrest m j hacc
    exact ⟨l, m', hm'.trans hm, ⟨j, hij, hjl⟩, hend⟩

theorem Leaves.times {C R : ℕ → ℕ → Prop}
    (hR : ∀ {s e}, C s e → Leaves u ignoreCase prog chars R s e) {k s e : ℕ} (h : Times C k s e) :
    Leaves u ignoreCase prog chars (Times R k) s e := by
  induction k generalizing s with
  | zero =>
    obtain rfl : s = e := h
    rintro i j rfl
    exact .refl
  | succ k ih =>
    obtain ⟨a, ha, hrest⟩ := h
    rintro i l ⟨j, hij, hjl⟩
    exact (hR ha i j hij).trans (ih hrest j l hjl)

/-- A loop back to its split is any number of its bodies. -/
theorem Enters.loop {R : ℕ → ℕ → Prop} {a k : ℕ}
    (hsplit : prog[a]? = some (.split (a + 1) (k + 1))) (hjmp : prog[k]? = some (.jmp a))
    (hR : Enters u ignoreCase prog chars R (a + 1) k) :
    Enters u ignoreCase prog chars (fun i j ↦ ∃ n, Times R n i j) a (k + 1) := by
  intro n
  -- strong induction: a turn of the loop uses up its split and its jump
  induction n using Nat.strong_induction_on with
  | _ n ih =>
    intro i hn
    obtain ⟨m, pc, rfl, hpc, hm⟩ := accepts_follow hsplit (fun _ ↦ rfl) (by simp) hn
    rw [Inst.follows, List.mem_pair] at hpc
    rcases hpc with rfl | rfl
    · obtain ⟨j, m₁, hm₁, hij, hacc⟩ := hR m i hm
      obtain ⟨m₂, pc, rfl, hpc, hback⟩ := accepts_follow hjmp (fun _ ↦ rfl) (by simp) hacc
      rw [Inst.follows, List.mem_singleton] at hpc
      subst hpc
      obtain ⟨l, m₃, hm₃, ⟨t, ht⟩, hend⟩ := ih m₂ (by omega) j hback
      exact ⟨l, m₃, by omega, ⟨t + 1, j, hij, ht⟩, hend⟩
    · exact ⟨i, m, Nat.le_succ m, ⟨0, rfl⟩, hm⟩

theorem Leaves.loop {R : ℕ → ℕ → Prop} {a k : ℕ}
    (hsplit : prog[a]? = some (.split (a + 1) (k + 1))) (hjmp : prog[k]? = some (.jmp a))
    (hR : Leaves u ignoreCase prog chars R (a + 1) k) :
    Leaves u ignoreCase prog chars (fun i j ↦ ∃ n, Times R n i j) a (k + 1) := by
  rintro i j ⟨n, hn⟩
  induction n generalizing i with
  | zero =>
    obtain rfl : i = j := hn
    exact step_follow hsplit (by simp [Inst.follows])
  | succ n ih =>
    obtain ⟨l, hil, hlj⟩ := hn
    have henter : Relation.ReflTransGen (Step u ignoreCase prog chars) (a, i) (a + 1, i) :=
      step_follow hsplit (by simp [Inst.follows])
    have hback : Relation.ReflTransGen (Step u ignoreCase prog chars) (k, l) (a, l) :=
      step_follow hjmp (by simp [Inst.follows])
    exact henter.trans ((hR i l hil).trans (hback.trans (ih l hlj)))

/-- Copies after splits that lead past them are any number of bodies up to theirs. -/
theorem Enters.optionals {C R : ℕ → ℕ → Prop}
    (hR : ∀ {s e}, C s e → Enters u ignoreCase prog chars R s e) {k s e : ℕ} {splits : List ℕ}
    (h : Optionals prog (fun i ↦ .split (i + 1) e) C k s e splits) :
    Enters u ignoreCase prog chars (fun i j ↦ ∃ n ≤ k, Times R n i j) s e := by
  induction k generalizing s splits with
  | zero =>
    obtain ⟨rfl, -⟩ := h
    exact fun n i hn ↦ ⟨i, n, le_rfl, ⟨0, le_rfl, rfl⟩, hn⟩
  | succ k ih =>
    obtain ⟨hsplit, a, rest, ha, -, hrest⟩ := h
    intro n i hn
    obtain ⟨m, pc, rfl, hpc, hm⟩ := accepts_follow hsplit (fun _ ↦ rfl) (by simp) hn
    rw [Inst.follows, List.mem_pair] at hpc
    rcases hpc with rfl | rfl
    · obtain ⟨j, m₁, hm₁, hij, hacc⟩ := hR ha m i hm
      obtain ⟨l, m₂, hm₂, ⟨t, htk, ht⟩, hend⟩ := ih hrest m₁ j hacc
      exact ⟨l, m₂, by omega, ⟨t + 1, by omega, j, hij, ht⟩, hend⟩
    · exact ⟨i, m, Nat.le_succ m, ⟨0, Nat.zero_le _, rfl⟩, hm⟩

theorem Leaves.optionals {C R : ℕ → ℕ → Prop}
    (hR : ∀ {s e}, C s e → Leaves u ignoreCase prog chars R s e) {k s e : ℕ} {splits : List ℕ}
    (h : Optionals prog (fun i ↦ .split (i + 1) e) C k s e splits) :
    Leaves u ignoreCase prog chars (fun i j ↦ ∃ n ≤ k, Times R n i j) s e := by
  induction k generalizing s splits with
  | zero =>
    obtain ⟨rfl, -⟩ := h
    rintro i j ⟨n, hn, htimes⟩
    obtain rfl := Nat.le_zero.1 hn
    obtain rfl : i = j := htimes
    exact .refl
  | succ k ih =>
    obtain ⟨hsplit, a, rest, ha, -, hrest⟩ := h
    rintro i j ⟨n, hn, htimes⟩
    match n with
    | 0 =>
      obtain rfl : i = j := htimes
      exact step_follow hsplit (by simp [Inst.follows])
    | n + 1 =>
      obtain ⟨l, hil, hlj⟩ := htimes
      have henter : Relation.ReflTransGen (Step u ignoreCase prog chars) (s, i) (s + 1, i) :=
        step_follow hsplit (by simp [Inst.follows])
      exact henter.trans ((hR ha i l hil).trans (ih hrest l j ⟨n, by omega, hlj⟩))

theorem Enters.comp {R R' : ℕ → ℕ → Prop} {a s e : ℕ}
    (h : Enters u ignoreCase prog chars R s a) (h' : Enters u ignoreCase prog chars R' a e) :
    Enters u ignoreCase prog chars (fun i k ↦ ∃ j, R i j ∧ R' j k) s e := by
  intro n i hn
  obtain ⟨j, m, hm, hij, hacc⟩ := h n i hn
  obtain ⟨k, m', hm', hjk, hend⟩ := h' m j hacc
  exact ⟨k, m', hm'.trans hm, ⟨j, hij, hjk⟩, hend⟩

theorem Enters.mono {R R' : ℕ → ℕ → Prop} {s e : ℕ} (h : Enters u ignoreCase prog chars R s e)
    (hR : ∀ i j, R i j → R' i j) : Enters u ignoreCase prog chars R' s e := by
  intro n i hn
  obtain ⟨j, m, hm, hij, hacc⟩ := h n i hn
  exact ⟨j, m, hm, hR i j hij, hacc⟩

/-! ### Trees -/

theorem CodeAll.enters {items : List Node}
    (hitems : ∀ i ∈ items, ∀ s e, i.Code prog s e →
      Enters u ignoreCase prog chars (i.Matches u ignoreCase chars) s e) {s e : ℕ}
    (h : CodeAll prog items s e) :
    Enters u ignoreCase prog chars (MatchesAll u ignoreCase chars items) s e := by
  induction items generalizing s with
  | nil =>
    obtain rfl : s = e := h
    exact fun n i hn ↦ ⟨i, n, le_rfl, rfl, hn⟩
  | cons item rest ih =>
    obtain ⟨k, hk, hrest⟩ := h
    rw [List.forall_mem_cons] at hitems
    exact (hitems.1 s k hk).comp (ih hitems.2 hrest)

theorem CodeAny.enters {branches : List Node}
    (hbranches : ∀ b ∈ branches, ∀ s e, b.Code prog s e →
      Enters u ignoreCase prog chars (b.Matches u ignoreCase chars) s e) (hne : branches ≠ [])
    {s e : ℕ} {jumps : List ℕ} (h : CodeAny prog (.jmp e) branches s e jumps) :
    Enters u ignoreCase prog chars (MatchesAny u ignoreCase chars branches) s e := by
  induction branches generalizing s jumps with
  | nil => exact absurd rfl hne
  | cons branch rest ih =>
    rw [List.forall_mem_cons] at hbranches
    match rest with
    | [] => exact (hbranches.1 s e h.1).mono fun i j hij ↦ .inl hij
    | next :: rest =>
      obtain ⟨k, more, hsplit, hcode, hjmp, -, hrest⟩ := h
      intro n i hn
      obtain ⟨m, pc, rfl, hpc, hm⟩ := accepts_follow hsplit (fun _ ↦ rfl) (by simp) hn
      rw [Inst.follows, List.mem_pair] at hpc
      rcases hpc with rfl | rfl
      · obtain ⟨j, m₁, hm₁, hij, hacc⟩ := hbranches.1 _ _ hcode m i hm
        obtain ⟨m₂, pc, rfl, hpc, hend⟩ := accepts_follow hjmp (fun _ ↦ rfl) (by simp) hacc
        rw [Inst.follows, List.mem_singleton] at hpc
        subst hpc
        exact ⟨j, m₂, by omega, .inl hij, hend⟩
      · obtain ⟨j, m₁, hm₁, hij, hend⟩ := ih hbranches.2 (List.cons_ne_nil _ _) hrest m i hm
        exact ⟨j, m₁, by omega, .inr hij, hend⟩

/-- **Nothing but matches**: past the code of a tree there was a match of it. -/
theorem Node.Code.enters {node : Node} (hformed : node.Formed) : ∀ {s e : ℕ}, node.Code prog s e →
    Enters u ignoreCase prog chars (node.Matches u ignoreCase chars) s e := by
  induction node using Node.induct with
  | empty =>
    rintro s e rfl n i hn
    exact ⟨i, n, le_rfl, rfl, hn⟩
  | char c | any | charClass k =>
    rintro s e ⟨hinst, rfl⟩
    exact accepts_read hinst (fun _ ↦ rfl) (by simp)
  | assert a =>
    rintro s e ⟨hinst, rfl⟩ n i hn
    obtain ⟨m, pc, rfl, hpc, hm⟩ := accepts_follow hinst (fun _ ↦ rfl) (by simp) hn
    rw [Inst.follows] at hpc
    split at hpc
    · rename_i hholds
      rw [List.mem_singleton] at hpc
      subst hpc
      exact ⟨i, m, Nat.le_succ m, ⟨hholds, rfl⟩, hm⟩
    · cases hpc
  | concat items ih =>
    intro s e h
    exact CodeAll.enters (fun i hi s e ↦ ih i hi (formedAll_iff.1 hformed i hi)) h
  | alt branches ih =>
    rintro s e ⟨jumps, h⟩
    exact CodeAny.enters (fun b hb s e ↦ ih b hb (formedAll_iff.1 hformed.2 b hb)) hformed.1 h
  | repeated body min max ih =>
    rintro s e ⟨a, hmin, h⟩
    have hbody : ∀ {s e : ℕ}, body.Code prog s e →
        Enters u ignoreCase prog chars (body.Matches u ignoreCase chars) s e := ih hformed.1
    have hrequired := Enters.times hbody hmin
    cases max with
    | none =>
      obtain ⟨hsplit, k, hk, hjmp, rfl⟩ := h
      refine (hrequired.comp (Enters.loop hsplit hjmp (hbody hk))).mono ?_
      rintro i l ⟨j, hij, n, hjl⟩
      exact ⟨min + n, Nat.le_add_right _ _, by simp, hij.add hjl⟩
    | some max =>
      obtain ⟨splits, hopt⟩ := h
      refine (hrequired.comp (Enters.optionals hbody hopt)).mono ?_
      rintro i l ⟨j, hij, n, hn, hjl⟩
      have hle := hformed.2 max rfl
      refine ⟨min + n, Nat.le_add_right _ _, fun m hm ↦ ?_, hij.add hjl⟩
      rw [Option.mem_some_iff] at hm
      omega

theorem CodeAll.leaves {items : List Node}
    (hitems : ∀ i ∈ items, ∀ s e, i.Code prog s e →
      Leaves u ignoreCase prog chars (i.Matches u ignoreCase chars) s e) {s e : ℕ}
    (h : CodeAll prog items s e) :
    Leaves u ignoreCase prog chars (MatchesAll u ignoreCase chars items) s e := by
  induction items generalizing s with
  | nil =>
    obtain rfl : s = e := h
    rintro i j rfl
    exact .refl
  | cons item rest ih =>
    obtain ⟨k, hk, hrest⟩ := h
    rw [List.forall_mem_cons] at hitems
    rintro i l ⟨j, hij, hjl⟩
    exact (hitems.1 s k hk i j hij).trans (ih hitems.2 hrest j l hjl)

theorem CodeAny.leaves {branches : List Node}
    (hbranches : ∀ b ∈ branches, ∀ s e, b.Code prog s e →
      Leaves u ignoreCase prog chars (b.Matches u ignoreCase chars) s e)
    {s e : ℕ} {jumps : List ℕ} (h : CodeAny prog (.jmp e) branches s e jumps) :
    Leaves u ignoreCase prog chars (MatchesAny u ignoreCase chars branches) s e := by
  induction branches generalizing s jumps with
  | nil => exact fun _ _ hij ↦ hij.elim
  | cons branch rest ih =>
    rw [List.forall_mem_cons] at hbranches
    match rest with
    | [] =>
      rintro i j (hij | hij)
      · exact hbranches.1 s e h.1 i j hij
      · exact hij.elim
    | next :: rest =>
      obtain ⟨k, more, hsplit, hcode, hjmp, -, hrest⟩ := h
      rintro i j (hij | hij)
      · have hfirst : Relation.ReflTransGen (Step u ignoreCase prog chars) (s, i) (s + 1, i) :=
          step_follow hsplit (by simp [Inst.follows])
        have hlast : Relation.ReflTransGen (Step u ignoreCase prog chars) (k, j) (e, j) :=
          step_follow hjmp (by simp [Inst.follows])
        exact hfirst.trans ((hbranches.1 _ _ hcode i j hij).trans hlast)
      · have hsecond : Relation.ReflTransGen (Step u ignoreCase prog chars) (s, i) (k + 1, i) :=
          step_follow hsplit (by simp [Inst.follows])
        exact hsecond.trans (ih hbranches.2 hrest i j hij)

/-- **Every match**: the code of a tree leads past every match of it. -/
theorem Node.Code.leaves {node : Node} : ∀ {s e : ℕ}, node.Code prog s e →
    Leaves u ignoreCase prog chars (node.Matches u ignoreCase chars) s e := by
  induction node using Node.induct with
  | empty =>
    rintro s e rfl i j rfl
    exact .refl
  | char c | any | charClass k =>
    rintro s e ⟨hinst, rfl⟩
    exact leaves_read hinst
  | assert a =>
    rintro s e ⟨hinst, rfl⟩ i j ⟨hholds, rfl⟩
    exact step_follow hinst (by simp [Inst.follows, hholds])
  | concat items ih =>
    intro s e h
    exact CodeAll.leaves (fun i hi s e ↦ ih i hi) h
  | alt branches ih =>
    rintro s e ⟨jumps, h⟩
    exact CodeAny.leaves (fun b hb s e ↦ ih b hb) h
  | repeated body min max ih =>
    rintro s e ⟨a, hmin, h⟩ i l ⟨n, hn, hmax, htimes⟩
    obtain ⟨t, rfl⟩ := Nat.exists_eq_add_of_le hn
    obtain ⟨j, hij, hjl⟩ := htimes.split
    have hrequired := Leaves.times ih hmin i j hij
    cases max with
    | none =>
      obtain ⟨hsplit, k, hk, hjmp, rfl⟩ := h
      exact hrequired.trans (Leaves.loop hsplit hjmp (ih hk) j l ⟨t, hjl⟩)
    | some max =>
      obtain ⟨splits, hopt⟩ := h
      have hle := hmax max rfl
      exact hrequired.trans (Leaves.optionals ih hopt j l ⟨t, by omega, hjl⟩)

end Huntsman.Pattern
