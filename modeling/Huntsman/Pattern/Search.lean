import Huntsman.Lib.Worklist
import Huntsman.Pattern.Denote
import Huntsman.Pattern.Reading
import Mathlib.Data.Set.Insert

/-!
# A search finds exactly the matches

At each position of the text the machine holds every instruction that some machine started no later
has come to (`Live`), each once.  So it answers whether a machine started anywhere comes to the
match instruction, and by what the code of a tree accepts that is whether the tree matches somewhere
in the text (`isMatch_iff`).
-/

set_option autoImplicit false

namespace Huntsman.Pattern

open List

/-! ## Programs whose jumps stay inside -/

/-- Where an instruction at `pc` may lead, whatever is read. -/
def Inst.targets (pc : ℕ) : Inst → List ℕ
  | .jmp target => [target]
  | .split first second => [first, second]
  | .matched => []
  | _ => [pc + 1]

/-- The instructions from `s` up to `e` lead to `e` at most. -/
def Within (prog : List Inst) (s e : ℕ) : Prop :=
  ∀ x, s ≤ x → x < e → ∃ inst, prog[x]? = some inst ∧ ∀ y ∈ inst.targets x, y ≤ e

variable {u : Unicode} {ignoreCase : Bool} {prog : List Inst} {chars : List Char}

theorem Within.nil (s : ℕ) : Within prog s s :=
  fun _ hx hx' ↦ absurd hx (Nat.not_le_of_lt hx')

theorem Within.trans {s k e : ℕ} (h : Within prog s k) (h' : Within prog k e) (hke : k ≤ e) :
    Within prog s e := by
  intro x hs he
  by_cases hk : x < k
  · obtain ⟨inst, hinst, hy⟩ := h x hs hk
    exact ⟨inst, hinst, fun y hmem ↦ (hy y hmem).trans hke⟩
  · exact h' x (Nat.le_of_not_lt hk) he

theorem Within.one {s e : ℕ} {inst : Inst} (hinst : prog[s]? = some inst)
    (ht : ∀ y ∈ inst.targets s, y ≤ e) (h : Within prog (s + 1) e) : Within prog s e := by
  intro x hs he
  by_cases hx : x = s
  · subst hx
    exact ⟨inst, hinst, ht⟩
  · exact h x (by omega) he

theorem Times.within {C : ℕ → ℕ → Prop} (hle : ∀ {s e}, C s e → s ≤ e)
    (hC : ∀ {s e}, C s e → Within prog s e) {n s e : ℕ} (h : Times C n s e) : Within prog s e := by
  induction n generalizing s with
  | zero =>
    obtain rfl : s = e := h
    exact Within.nil s
  | succ n ih =>
    obtain ⟨k, hk, hrest⟩ := h
    exact (hC hk).trans (ih hrest) (hrest.mono_le hle)

theorem Optionals.within {C : ℕ → ℕ → Prop} (hle : ∀ {s e}, C s e → s ≤ e)
    (hC : ∀ {s e}, C s e → Within prog s e) {n s e : ℕ} {splits : List ℕ}
    (h : Optionals prog (fun i ↦ .split (i + 1) e) C n s e splits) : Within prog s e := by
  induction n generalizing s splits with
  | zero =>
    obtain ⟨rfl, -⟩ := h
    exact Within.nil s
  | succ n ih =>
    obtain ⟨hsplit, k, rest, hk, -, hrest⟩ := h
    have hsk := hle hk
    have hke := (hrest.le hle).1
    refine Within.one hsplit (fun y hy ↦ ?_) ((hC hk).trans (ih hrest) hke)
    rw [Inst.targets, mem_pair] at hy
    omega

theorem CodeAll.within {items : List Node}
    (hitems : ∀ i ∈ items, ∀ s e, i.Code prog s e → Within prog s e) {s e : ℕ}
    (h : CodeAll prog items s e) : Within prog s e := by
  induction items generalizing s with
  | nil =>
    obtain rfl : s = e := h
    exact Within.nil s
  | cons item rest ih =>
    obtain ⟨k, hk, hrest⟩ := h
    rw [forall_mem_cons] at hitems
    exact (hitems.1 s k hk).trans (ih hitems.2 hrest) (hrest.le fun _ _ _ _ ↦ Node.Code.le)

theorem CodeAny.within {branches : List Node}
    (hbranches : ∀ b ∈ branches, ∀ s e, b.Code prog s e → Within prog s e) {s e : ℕ}
    {jumps : List ℕ} (h : CodeAny prog (.jmp e) branches s e jumps) : Within prog s e := by
  induction branches generalizing s jumps with
  | nil =>
    obtain ⟨rfl, -⟩ := h
    exact Within.nil s
  | cons branch rest ih =>
    rw [forall_mem_cons] at hbranches
    match rest with
    | [] => exact hbranches.1 s e h.1
    | next :: rest =>
      obtain ⟨k, more, hsplit, hcode, hjmp, -, hrest⟩ := h
      have hsk := hcode.le
      have hke := (hrest.le fun _ _ _ _ ↦ Node.Code.le).1
      have hlast : Within prog k e := by
        refine Within.one hjmp (fun y hy ↦ ?_) (ih hbranches.2 hrest)
        rw [Inst.targets, mem_singleton] at hy
        omega
      refine Within.one hsplit (fun y hy ↦ ?_) ((hbranches.1 _ _ hcode).trans hlast (by omega))
      rw [Inst.targets, mem_pair] at hy
      omega

/-- The code of a tree leads nowhere outside it but just past its end. -/
theorem Node.Code.within {node : Node} : ∀ {s e : ℕ}, node.Code prog s e → Within prog s e := by
  induction node using Node.induct with
  | empty =>
    rintro s e rfl
    exact Within.nil s
  | char c | any | charClass k | assert a =>
    rintro s e ⟨hinst, rfl⟩
    exact Within.one hinst (by simp [Inst.targets]) (Within.nil _)
  | concat items ih =>
    intro s e h
    exact CodeAll.within (fun i hi s e ↦ ih i hi) h
  | alt branches ih =>
    rintro s e ⟨jumps, h⟩
    exact CodeAny.within (fun b hb s e ↦ ih b hb) h
  | repeated body min max ih =>
    rintro s e ⟨a, hmin, h⟩
    have hrequired := hmin.within Node.Code.le ih
    cases max with
    | none =>
      obtain ⟨hsplit, k, hk, hjmp, rfl⟩ := h
      have hak := hk.le
      have hlast : Within prog k (k + 1) := by
        refine Within.one hjmp (fun y hy ↦ ?_) (Within.nil _)
        rw [Inst.targets, mem_singleton] at hy
        omega
      refine hrequired.trans (Within.one hsplit (fun y hy ↦ ?_)
        ((ih hk).trans hlast (Nat.le_succ k))) (by omega)
      rw [Inst.targets, mem_pair] at hy
      omega
    | some max =>
      obtain ⟨splits, hopt⟩ := h
      exact hrequired.trans (hopt.within Node.Code.le ih) (hopt.le Node.Code.le).1

/-- Whatever instruction of the program runs, the next is one of the program too. -/
def Closed (prog : List Inst) : Prop :=
  0 < prog.length ∧ ∀ x (inst : Inst), prog[x]? = some inst → ∀ y ∈ inst.targets x, y < prog.length

theorem Node.Code.closed {node : Node} {n : ℕ} (h : node.Code prog 0 n)
    (hend : prog[n]? = some .matched) (hlen : prog.length = n + 1) : Closed prog := by
  refine ⟨by omega, fun x inst hinst y hy ↦ ?_⟩
  have hx := (List.getElem?_eq_some_iff.1 hinst).1
  by_cases hxn : x < n
  · obtain ⟨inst', hinst', hle⟩ := h.within x (Nat.zero_le _) hxn
    rw [hinst', Option.some.injEq] at hinst
    subst hinst
    have := hle y hy
    omega
  · obtain rfl : x = n := by omega
    rw [hend, Option.some.injEq] at hinst
    subst hinst
    cases hy

theorem Inst.follows_targets {inst : Inst} {pos pc y : ℕ} (h : y ∈ inst.follows u chars pos pc) :
    y ∈ inst.targets pc := by
  cases inst with
  | assert a =>
    rw [Inst.follows] at h
    split at h
    · exact h
    · cases h
  | split first second => exact h
  | jmp target => exact h
  | char c | any | charClass k | matched => cases h

/-! ## The threads at one position -/

/-- Whether an instruction reads a character. -/
def Inst.reads : Inst → Bool
  | .char _ | .any | .charClass _ => true
  | _ => false

/-- The threads hold exactly the instructions of `S`, none of them the match instruction. -/
structure Marked (prog : List Inst) (S : Set ℕ) (t : Threads) : Prop where
  size : t.seen.length = prog.length
  seen : ∀ x, t.seen[x]? = some true ↔ x ∈ S
  visited : ∀ x, x ∈ t.visited ↔ x ∈ S
  dense : ∀ x, x ∈ t.dense ↔ x ∈ S ∧ ∃ inst, prog[x]? = some inst ∧ inst.reads = true
  running : ∀ x ∈ S, prog[x]? ≠ some .matched

theorem Marked.congr {S S' : Set ℕ} {t : Threads} (h : Marked prog S t)
    (hS : ∀ x, x ∈ S' ↔ x ∈ S) : Marked prog S' t := by
  obtain rfl : S' = S := Set.ext hS
  exact h

theorem marked_new : Marked prog ∅ (.new prog.length) where
  size := length_replicate
  seen := fun x ↦ by simp [Threads.new, getElem?_replicate]
  visited := fun x ↦ by simp [Threads.new]
  dense := fun x ↦ by simp [Threads.new]
  running := fun x hx ↦ absurd hx (Set.notMem_empty x)

theorem setAll_length {places : List ℕ} {l : List Bool} :
    (places.foldl (fun l i ↦ l.set i false) l).length = l.length := by
  induction places generalizing l with
  | nil => rfl
  | cons i rest ih => rw [foldl_cons, ih, length_set]

theorem Marked.clear {S : Set ℕ} {t : Threads} (h : Marked prog S t) :
    Marked prog ∅ t.clear where
  size := setAll_length.trans h.size
  seen := fun x ↦ by
    have hset : t.clear.seen[x]? = _ := getElem?_setAll (f := fun _ ↦ false)
    rw [hset]
    by_cases hx : x ∈ t.visited
    · rw [if_pos hx, (h.seen x).2 ((h.visited x).1 hx)]
      simp
    · rw [if_neg hx, h.seen x, ← h.visited x]
      simp [hx]
  visited := fun x ↦ by simp [Threads.clear]
  dense := fun x ↦ by simp [Threads.clear]
  running := fun x hx ↦ absurd hx (Set.notMem_empty x)

/-- An instruction newly visited: what reads a character is kept. -/
def Threads.keep (t : Threads) (pc : ℕ) (inst : Inst) : Threads :=
  if inst.reads then { t with dense := t.dense ++ [pc] } else t

@[simp] theorem Threads.keep_seen {t : Threads} {pc : ℕ} {inst : Inst} :
    (t.keep pc inst).seen = t.seen := by
  unfold Threads.keep
  split <;> rfl

@[simp] theorem Threads.keep_visited {t : Threads} {pc : ℕ} {inst : Inst} :
    (t.keep pc inst).visited = t.visited := by
  unfold Threads.keep
  split <;> rfl

theorem Marked.insert_new {S : Set ℕ} {t : Threads} {pc : ℕ} {inst : Inst} (h : Marked prog S t)
    (hinst : prog[pc]? = some inst) (hrun : inst ≠ .matched) (hnew : t.seen[pc]? = some false) :
    Marked prog (insert pc S)
      (Threads.keep ⟨t.seen.set pc true, t.visited ++ [pc], t.dense⟩ pc inst) := by
  have hlt := (List.getElem?_eq_some_iff.1 hnew).1
  have hnotin : pc ∉ S := fun hmem ↦ by
    rw [(h.seen pc).2 hmem] at hnew
    simp at hnew
  refine ⟨?_, fun x ↦ ?_, fun x ↦ ?_, fun x ↦ ?_, fun x hx ↦ ?_⟩
  · rw [Threads.keep_seen, List.length_set, h.size]
  · rw [Threads.keep_seen, List.getElem?_set, Set.mem_insert_iff, ← h.seen x]
    by_cases hx : pc = x
    · simp [hx, hx ▸ hlt]
    · simp [hx, Ne.symm hx]
  · rw [Threads.keep_visited, List.mem_append, List.mem_singleton, Set.mem_insert_iff, h.visited x, or_comm]
  · unfold Threads.keep
    split
    · rename_i hreads
      rw [List.mem_append, List.mem_singleton, Set.mem_insert_iff, h.dense x]
      constructor
      · rintro (⟨hx, hr⟩ | rfl)
        · exact ⟨.inr hx, hr⟩
        · exact ⟨.inl rfl, inst, hinst, hreads⟩
      · rintro ⟨rfl | hx, hr⟩
        · exact .inr rfl
        · exact .inl ⟨hx, hr⟩
    · rename_i hreads
      rw [Set.mem_insert_iff, h.dense x]
      constructor
      · rintro ⟨hx, hr⟩
        exact ⟨.inr hx, hr⟩
      · rintro ⟨rfl | hx, inst', hinst', hr⟩
        · rw [hinst, Option.some.injEq] at hinst'
          exact absurd (hinst' ▸ hr) hreads
        · exact ⟨hx, inst', hinst', hr⟩
  · rcases hx with rfl | hx
    · rw [hinst]
      exact fun heq ↦ hrun (Option.some.inj heq)
    · exact h.running x hx

/-! ## Following what does not read -/

/-- One turn of the loop at a new instruction other than the match instruction. -/
theorem addLoop_visit {pos fuel pc : ℕ} {stack : List ℕ} {t : Threads} {inst : Inst}
    (hinst : prog[pc]? = some inst) (hrun : inst ≠ .matched) (hnew : t.seen[pc]? = some false) :
    addLoop u prog chars pos (fuel + 1) (pc :: stack) t =
      addLoop u prog chars pos fuel (inst.follows u chars pos pc ++ stack)
        (Threads.keep ⟨t.seen.set pc true, t.visited ++ [pc], t.dense⟩ pc inst) := by
  rw [addLoop, Threads.insert, hnew]
  simp only [hinst]
  cases inst with
  | matched => exact absurd rfl hrun
  | assert a =>
    by_cases hholds : holds u a pos chars = true
    · simp only [Inst.follows, if_pos hholds]
      rfl
    · simp only [Inst.follows, if_neg hholds]
      rfl
  | char c | any | charClass k | split first second | jmp target => rfl

theorem follows_length {inst : Inst} {pos pc : ℕ} :
    (inst.follows u chars pos pc).length ≤ 2 := by
  cases inst with
  | assert a =>
    rw [Inst.follows]
    split <;> simp
  | _ => simp [Inst.follows]

/-- **Following** from the instructions on the stack comes to an end: at the match instruction, if
the root leads there, and else with everything marked that the root leads to. -/
theorem addLoop_spec (hclosed : Closed prog) {pos fuel root : ℕ} {stack : List ℕ} {t : Threads}
    {old S : Set ℕ} (hmarked : Marked prog S t)
    (hexp : Exploring (Follows u prog chars pos) old root S {x | x ∈ stack})
    (hstack : ∀ x ∈ stack, x < prog.length)
    (hfuel : 3 * t.seen.count false + stack.length < fuel) :
    (∃ t', addLoop u prog chars pos fuel stack t = some (true, t') ∧
      ∃ y, Relation.ReflTransGen (Follows u prog chars pos) root y ∧
        prog[y]? = some .matched) ∨
    ∃ t', addLoop u prog chars pos fuel stack t = some (false, t') ∧
      Marked prog {y | y ∈ old ∨ Relation.ReflTransGen (Follows u prog chars pos) root y} t' := by
  induction fuel generalizing stack t S with
  | zero => omega
  | succ fuel ih =>
    match stack with
    | [] =>
      refine .inr ⟨t, rfl, hmarked.congr fun y ↦ ?_⟩
      exact (hexp.done (fun _ ↦ List.not_mem_nil) y).symm
    | pc :: stack =>
      rw [List.forall_mem_cons] at hstack
      rw [List.length_cons] at hfuel
      have hkeep : ∀ y ∈ {x | x ∈ pc :: stack}, y ∈ {x | x ∈ stack} ∨ y = pc := fun y hy ↦
        (List.mem_cons.1 hy).symm
      obtain ⟨seen, hseen⟩ : ∃ seen, t.seen[pc]? = some seen :=
        ⟨_, List.getElem?_eq_getElem (by rw [hmarked.size]; exact hstack.1)⟩
      cases seen with
      | true =>
        have hskip : addLoop u prog chars pos (fuel + 1) (pc :: stack) t =
            addLoop u prog chars pos fuel stack t := by
          rw [addLoop, Threads.insert, hseen]
        rw [hskip]
        exact ih hmarked (hexp.skip ((hmarked.seen pc).1 hseen) hkeep
          fun y hy ↦ List.mem_cons_of_mem pc hy) hstack.2 (by omega)
      | false =>
        obtain ⟨inst, hinst⟩ : ∃ inst, prog[pc]? = some inst :=
          ⟨_, List.getElem?_eq_getElem hstack.1⟩
        by_cases hrun : inst = .matched
        · subst hrun
          have hdone : addLoop u prog chars pos (fuel + 1) (pc :: stack) t =
              some (true, ⟨t.seen.set pc true, t.visited ++ [pc], t.dense⟩) := by
            rw [addLoop, Threads.insert, hseen]
            simp only [hinst]
          exact .inl ⟨_, hdone, pc, hexp.pending pc (.head _), hinst⟩
        · rw [addLoop_visit hinst hrun hseen]
          have hcount : t.seen.count false =
              (t.seen.set pc true).count false + 1 := by
            have hlt := (List.getElem?_eq_some_iff.1 hseen).1
            have hpos : 0 < t.seen.count false :=
              List.count_pos_iff.2 (List.mem_of_getElem? hseen)
            have hval : t.seen[pc] = false := (List.getElem?_eq_some_iff.1 hseen).2
            rw [List.count_set hlt, hval]
            simp
            omega
          have hlen : (inst.follows u chars pos pc).length ≤ 2 := follows_length
          refine ih (hmarked.insert_new hinst hrun hseen)
            (hexp.visit (.head _) (fun y ↦ Set.mem_insert_iff) (fun y hy ↦ ?_)
              (fun y hy ↦ ?_) fun y hy ↦ ?_) (fun y hy ↦ ?_) ?_
          · rcases hkeep y hy with hy | hy
            · exact .inl (List.mem_append_right _ hy)
            · exact .inr hy
          · rcases List.mem_append.1 hy with hy | hy
            · exact .inr ⟨inst, hinst, hy⟩
            · exact .inl (List.mem_cons_of_mem pc hy)
          · obtain ⟨inst', hinst', hy⟩ := hy
            rw [hinst, Option.some.injEq] at hinst'
            exact .inr (List.mem_append_left _ (hinst' ▸ hy))
          · rcases List.mem_append.1 hy with hy | hy
            · exact hclosed.2 pc inst hinst y (Inst.follows_targets hy)
            · exact hstack.2 y hy
          · rw [Threads.keep_seen, List.length_append]
            show 3 * (t.seen.set pc true).count false + _ < fuel
            omega

/-- Following from one instruction, among threads that were followed to their ends. -/
theorem add_spec (hclosed : Closed prog) {pos pc : ℕ} {t : Threads} {S : Set ℕ}
    (hmarked : Marked prog S t)
    (hS : ∀ y ∈ S, ∀ z, Follows u prog chars pos y z → z ∈ S) (hpc : pc < prog.length) :
    (∃ t', add u prog chars pos pc t = some (true, t') ∧
      ∃ y, Relation.ReflTransGen (Follows u prog chars pos) pc y ∧ prog[y]? = some .matched) ∨
    ∃ t', add u prog chars pos pc t = some (false, t') ∧
      Marked prog {y | y ∈ S ∨ Relation.ReflTransGen (Follows u prog chars pos) pc y} t' := by
  refine addLoop_spec hclosed hmarked (Exploring.start hS fun y ↦ mem_singleton) ?_ ?_
  · intro x hx
    rw [mem_singleton.1 hx]
    exact hpc
  · have hcount : t.seen.count false ≤ t.seen.length := count_le_length
    rw [hmarked.size] at hcount
    rw [length_singleton]
    omega

/-! ## Reading a character -/

/-- The instruction at `pc` reads `c`. -/
def Advances (u : Unicode) (ignoreCase : Bool) (prog : List Inst) (c : Char) (pc : ℕ) : Prop :=
  ∃ inst, prog[pc]? = some inst ∧ inst.advances u ignoreCase c = true

theorem Advances.lt (hclosed : Closed prog) {c : Char} {pc : ℕ}
    (h : Advances u ignoreCase prog c pc) : pc + 1 < prog.length := by
  obtain ⟨inst, hinst, hadv⟩ := h
  refine hclosed.2 pc inst hinst (pc + 1) ?_
  cases inst with
  | char want | any | charClass k => exact .head _
  | assert a | split first second | jmp target | matched => cases hadv

theorem Advances.reads {c : Char} {pc : ℕ} (h : Advances u ignoreCase prog c pc) :
    ∃ inst, prog[pc]? = some inst ∧ inst.reads = true := by
  obtain ⟨inst, hinst, hadv⟩ := h
  refine ⟨inst, hinst, ?_⟩
  cases inst with
  | char want | any | charClass k => rfl
  | assert a | split first second | jmp target | matched => cases hadv

/-- What the threads `pcs` lead to once `c` was read. -/
def After (u : Unicode) (ignoreCase : Bool) (prog : List Inst) (chars : List Char) (c : Char)
    (pos : ℕ) (pcs : List ℕ) : Set ℕ :=
  {y | ∃ x ∈ pcs, Advances u ignoreCase prog c x ∧
    Relation.ReflTransGen (Follows u prog chars pos) (x + 1) y}

theorem advance_spec (hclosed : Closed prog) {c : Char} {pos : ℕ} {pcs : List ℕ} {next : Threads}
    {S : Set ℕ} (hmarked : Marked prog S next)
    (hS : ∀ y ∈ S, ∀ z, Follows u prog chars pos y z → z ∈ S)
    (hpcs : ∀ x ∈ pcs, x < prog.length) :
    (∃ t', advance u ignoreCase prog chars c pos pcs next = some (true, t') ∧
      ∃ y ∈ After u ignoreCase prog chars c pos pcs, prog[y]? = some .matched) ∨
    ∃ t', advance u ignoreCase prog chars c pos pcs next = some (false, t') ∧
      Marked prog {y | y ∈ S ∨ y ∈ After u ignoreCase prog chars c pos pcs} t' := by
  induction pcs generalizing next S with
  | nil =>
    refine .inr ⟨next, rfl, hmarked.congr fun y ↦ ?_⟩
    simp [After]
  | cons pc rest ih =>
    rw [forall_mem_cons] at hpcs
    have hafter : ∀ y ∈ After u ignoreCase prog chars c pos rest,
        y ∈ After u ignoreCase prog chars c pos (pc :: rest) := by
      rintro y ⟨x, hx, hy⟩
      exact ⟨x, mem_cons_of_mem pc hx, hy⟩
    obtain ⟨inst, hinst⟩ : ∃ inst, prog[pc]? = some inst :=
      ⟨_, getElem?_eq_getElem hpcs.1⟩
    rw [advance, hinst]
    simp only
    by_cases hadv : inst.advances u ignoreCase c = true
    · rw [if_pos hadv]
      have hreads : Advances u ignoreCase prog c pc := ⟨inst, hinst, hadv⟩
      rcases add_spec hclosed hmarked hS (hreads.lt hclosed) with
        ⟨t', hadd, y, hy, hmatch⟩ | ⟨t', hadd, hmarked'⟩
      · rw [hadd]
        exact .inl ⟨t', rfl, y, ⟨pc, (.head _), hreads, hy⟩, hmatch⟩
      · rw [hadd]
        have hS' : ∀ y ∈ {y | y ∈ S ∨ Relation.ReflTransGen (Follows u prog chars pos) (pc + 1) y},
            ∀ z, Follows u prog chars pos y z →
              z ∈ {y | y ∈ S ∨ Relation.ReflTransGen (Follows u prog chars pos) (pc + 1) y} := by
          rintro y (hy | hy) z hz
          · exact .inl (hS y hy z hz)
          · exact .inr (hy.tail hz)
        rcases ih hmarked' hS' hpcs.2 with ⟨t'', hrest, y, hy, hmatch⟩ | ⟨t'', hrest, hmarked''⟩
        · exact .inl ⟨t'', hrest, y, hafter y hy, hmatch⟩
        · refine .inr ⟨t'', hrest, hmarked''.congr fun y ↦ ?_⟩
          constructor
          · rintro (hy | ⟨x, hx, hy⟩)
            · exact .inl (.inl hy)
            · rcases mem_cons.1 hx with rfl | hx
              · exact .inl (.inr hy.2)
              · exact .inr ⟨x, hx, hy⟩
          · rintro ((hy | hy) | hy)
            · exact .inl hy
            · exact .inr ⟨pc, (.head _), hreads, hy⟩
            · exact .inr (hafter y hy)
    · rw [if_neg hadv]
      have hnot : ¬ Advances u ignoreCase prog c pc := by
        rintro ⟨inst', hinst', hadv'⟩
        rw [hinst, Option.some.injEq] at hinst'
        exact hadv (hinst' ▸ hadv')
      rcases ih hmarked hS hpcs.2 with ⟨t', hrest, y, hy, hmatch⟩ | ⟨t', hrest, hmarked'⟩
      · exact .inl ⟨t', hrest, y, hafter y hy, hmatch⟩
      · refine .inr ⟨t', hrest, hmarked'.congr fun y ↦ ?_⟩
        constructor
        · rintro (hy | ⟨x, hx, hy⟩)
          · exact .inl hy
          · rcases mem_cons.1 hx with rfl | hx
            · exact absurd hy.1 hnot
            · exact .inr ⟨x, hx, hy⟩
        · rintro (hy | hy)
          · exact .inl hy
          · exact .inr (hafter y hy)

/-! ## The instructions live at a position -/

section Live

variable (u ignoreCase prog chars)

/-- The instructions that a machine started before `pos` comes to at `pos`. -/
def Arrived (pos : ℕ) : Set ℕ :=
  {pc | ∃ i < pos, Relation.ReflTransGen (Step u ignoreCase prog chars) (0, i) (pc, pos)}

/-- The instructions that a machine started at `pos` or before comes to at `pos`. -/
def Live (pos : ℕ) : Set ℕ :=
  {pc | ∃ i ≤ pos, Relation.ReflTransGen (Step u ignoreCase prog chars) (0, i) (pc, pos)}

end Live

theorem follows_steps {pos pc pc' : ℕ}
    (h : Relation.ReflTransGen (Follows u prog chars pos) pc pc') :
    Relation.ReflTransGen (Step u ignoreCase prog chars) (pc, pos) (pc', pos) := by
  induction h with
  | refl => exact .refl
  | tail _ hstep ih => exact ih.tail (.follow hstep)

/-- A way through the machine goes forward in the text, and without reading it only follows. -/
theorem steps_cases {pc i pc' j : ℕ}
    (h : Relation.ReflTransGen (Step u ignoreCase prog chars) (pc, i) (pc', j)) :
    i ≤ j ∧ (i = j → Relation.ReflTransGen (Follows u prog chars j) pc pc') ∧
      (i < j → ∃ x c, chars[j - 1]? = some c ∧ Advances u ignoreCase prog c x ∧
        Relation.ReflTransGen (Step u ignoreCase prog chars) (pc, i) (x, j - 1) ∧
        Relation.ReflTransGen (Follows u prog chars j) (x + 1) pc') := by
  generalize hend : (pc', j) = last at h
  induction h generalizing pc' j with
  | refl =>
    cases hend
    exact ⟨le_rfl, fun _ ↦ .refl, fun hlt ↦ absurd hlt (Nat.lt_irrefl _)⟩
  | tail hprev hstep ih =>
    cases hstep with
    | follow hfollow =>
      cases hend
      obtain ⟨hle, hsame, hread⟩ := ih rfl
      refine ⟨hle, fun heq ↦ (hsame heq).tail hfollow, fun hlt ↦ ?_⟩
      obtain ⟨x, c, hc, hadv, hx, hrest⟩ := hread hlt
      exact ⟨x, c, hc, hadv, hx, hrest.tail hfollow⟩
    | read hinst hc hadv =>
      cases hend
      obtain ⟨hle, -, -⟩ := ih rfl
      refine ⟨hle.trans (Nat.le_succ _), fun heq ↦ by omega, fun _ ↦ ?_⟩
      exact ⟨_, _, hc, ⟨_, hinst, hadv⟩, hprev, .refl⟩

theorem live_iff {pos pc : ℕ} : pc ∈ Live u ignoreCase prog chars pos ↔
    pc ∈ Arrived u ignoreCase prog chars pos ∨
      Relation.ReflTransGen (Follows u prog chars pos) 0 pc := by
  constructor
  · rintro ⟨i, hi, h⟩
    rcases Nat.lt_or_eq_of_le hi with hlt | rfl
    · exact .inl ⟨i, hlt, h⟩
    · exact .inr ((steps_cases h).2.1 rfl)
  · rintro (⟨i, hi, h⟩ | h)
    · exact ⟨i, Nat.le_of_lt hi, h⟩
    · exact ⟨pos, le_rfl, follows_steps h⟩

theorem arrived_closed {pos : ℕ} : ∀ y ∈ Arrived u ignoreCase prog chars pos,
    ∀ z, Follows u prog chars pos y z → z ∈ Arrived u ignoreCase prog chars pos := by
  rintro y ⟨i, hi, h⟩ z hz
  exact ⟨i, hi, h.tail (.follow hz)⟩

/-- What arrives at the next position is what the live instructions lead to over one character. -/
theorem arrived_succ {pos y : ℕ} {c : Char} {pcs : List ℕ} (hc : chars[pos]? = some c)
    (hpcs : ∀ x, x ∈ pcs ↔ x ∈ Live u ignoreCase prog chars pos ∧
      ∃ inst, prog[x]? = some inst ∧ inst.reads = true) :
    y ∈ Arrived u ignoreCase prog chars (pos + 1) ↔
      y ∈ After u ignoreCase prog chars c (pos + 1) pcs := by
  constructor
  · rintro ⟨i, hi, h⟩
    obtain ⟨x, c', hc', hadv, hx, hrest⟩ := (steps_cases h).2.2 hi
    rw [Nat.add_sub_cancel] at hc' hx
    rw [hc, Option.some.injEq] at hc'
    subst hc'
    exact ⟨x, (hpcs x).2 ⟨⟨i, Nat.le_of_lt_succ hi, hx⟩, hadv.reads⟩, hadv, hrest⟩
  · rintro ⟨x, hx, ⟨inst, hinst, hadv⟩, hrest⟩
    obtain ⟨⟨i, hi, hlive⟩, -⟩ := (hpcs x).1 hx
    exact ⟨i, Nat.lt_succ_of_le hi,
      (hlive.tail (.read hinst hc hadv)).trans (follows_steps hrest)⟩

/-- **The search** answers, and says whether some position from here on has the match instruction
live. -/
theorem search_spec (hclosed : Closed prog) {rest : List Char} {pos : ℕ} {current next : Threads}
    {S : Set ℕ} (hrest : chars.drop pos = rest) (hpos : pos ≤ chars.length)
    (hcurrent : Marked prog (Arrived u ignoreCase prog chars pos) current)
    (hnext : Marked prog S next) :
    ∃ found, search u ignoreCase prog chars rest pos current next = some found ∧
      (found = true ↔ ∃ p, pos ≤ p ∧ p ≤ chars.length ∧
        ∃ y ∈ Live u ignoreCase prog chars p, prog[y]? = some .matched) := by
  induction rest generalizing pos current next S with
  | nil =>
    have hend : pos = chars.length := by
      rw [List.drop_eq_nil_iff] at hrest
      omega
    rcases add_spec hclosed hcurrent arrived_closed hclosed.1 with
      ⟨t', hadd, y, hy, hmatch⟩ | ⟨t', hadd, hmarked⟩
    · refine ⟨true, by rw [search, hadd], ?_⟩
      exact iff_of_true rfl ⟨pos, le_rfl, hpos, y, live_iff.2 (.inr hy), hmatch⟩
    · refine ⟨false, by rw [search, hadd], iff_of_false (by decide) ?_⟩
      rintro ⟨p, hp, hp', y, hy, hmatch⟩
      obtain rfl : p = pos := by omega
      exact hmarked.running y (live_iff.1 hy) hmatch
  | cons c rest ih =>
    have hc : chars[pos]? = some c := by
      have hget : (chars.drop pos)[0]? = chars[pos + 0]? := List.getElem?_drop
      rw [hrest, Nat.add_zero] at hget
      exact hget.symm
    have hlt := (List.getElem?_eq_some_iff.1 hc).1
    have hdrop : chars.drop (pos + 1) = rest := by
      rw [← List.drop_drop, hrest, List.drop_one, List.tail_cons]
    rcases add_spec hclosed hcurrent arrived_closed hclosed.1 with
      ⟨t', hadd, y, hy, hmatch⟩ | ⟨t', hadd, hmarked⟩
    · refine ⟨true, by rw [search, hadd], ?_⟩
      exact iff_of_true rfl ⟨pos, le_rfl, hpos, y, live_iff.2 (.inr hy), hmatch⟩
    · have hlive : Marked prog (Live u ignoreCase prog chars pos) t' :=
        hmarked.congr fun _ ↦ live_iff
      have hdense : ∀ x ∈ t'.dense, x < prog.length := fun x hx ↦ by
        obtain ⟨-, inst, hinst, -⟩ := (hlive.dense x).1 hx
        exact (List.getElem?_eq_some_iff.1 hinst).1
      have hsucc : ∀ y, y ∈ Arrived u ignoreCase prog chars (pos + 1) ↔
          y ∈ After u ignoreCase prog chars c (pos + 1) t'.dense := fun y ↦
        arrived_succ hc hlive.dense
      rcases @advance_spec u ignoreCase prog chars hclosed c (pos + 1) _ _ _ hnext.clear
        (fun y hy ↦ absurd hy (Set.notMem_empty y)) hdense with
        ⟨t'', hadv, y, hy, hmatch⟩ | ⟨t'', hadv, harrived⟩
      · refine ⟨true, by rw [search, hadd]; simp only; rw [hadv], iff_of_true rfl ?_⟩
        exact ⟨pos + 1, Nat.le_succ pos, hlt, y, live_iff.2 (.inl ((hsucc y).2 hy)), hmatch⟩
      · have harrived' : Marked prog (Arrived u ignoreCase prog chars (pos + 1)) t'' :=
          harrived.congr fun y ↦ by simp [hsucc y]
        obtain ⟨found, hfound, hiff⟩ := ih hdrop hlt harrived' hlive
        refine ⟨found, by rw [search, hadd]; simp only; rw [hadv]; exact hfound, hiff.trans ?_⟩
        constructor
        · rintro ⟨p, hp, hp', hy⟩
          exact ⟨p, by omega, hp', hy⟩
        · rintro ⟨p, hp, hp', y, hy, hmatch⟩
          refine ⟨p, ?_, hp', y, hy, hmatch⟩
          rcases Nat.lt_or_eq_of_le hp with hgt | rfl
          · exact hgt
          · exact absurd hmatch (hlive.running y hy)

/-! ## The search and the tree -/

theorem Node.Matches.le {node : Node} : ∀ {i j : ℕ}, node.Matches u ignoreCase chars i j →
    i ≤ chars.length → i ≤ j ∧ j ≤ chars.length := by
  induction node using Node.induct with
  | empty =>
    rintro i j rfl hi
    exact ⟨le_rfl, hi⟩
  | char c | any | charClass k =>
    intro i j h _
    exact Reads.le h
  | assert a =>
    rintro i j ⟨-, rfl⟩ hi
    exact ⟨le_rfl, hi⟩
  | concat items ih =>
    intro i j h hi
    have h : MatchesAll u ignoreCase chars items i j := h
    induction items generalizing i with
    | nil =>
      obtain rfl : i = j := h
      exact ⟨le_rfl, hi⟩
    | cons item rest ihrest =>
      rw [forall_mem_cons] at ih
      obtain ⟨k, hk, hrest⟩ := h
      obtain ⟨hik, hkl⟩ := ih.1 hk hi
      obtain ⟨hkj, hjl⟩ := ihrest ih.2 hrest hkl hrest
      exact ⟨hik.trans hkj, hjl⟩
  | alt branches ih =>
    intro i j h hi
    have h : MatchesAny u ignoreCase chars branches i j := h
    induction branches with
    | nil => exact h.elim
    | cons branch rest ihrest =>
      rw [forall_mem_cons] at ih
      rcases h with h | h
      · exact ih.1 h hi
      · exact ihrest ih.2 h h
  | repeated body min max ih =>
    rintro i j ⟨n, -, -, h⟩ hi
    exact h.le ih hi

theorem accepts_of_steps {pc i y j : ℕ}
    (h : Relation.ReflTransGen (Step u ignoreCase prog chars) (pc, i) (y, j))
    (hmatch : prog[y]? = some .matched) : ∃ n, Accepts u ignoreCase prog chars n pc i := by
  generalize hstart : (pc, i) = first at h
  induction h using Relation.ReflTransGen.head_induction_on generalizing pc i with
  | refl =>
    cases hstart
    exact ⟨0, hmatch⟩
  | head hstep _ ih =>
    rename_i a b hrest
    obtain ⟨pc', i'⟩ := b
    obtain ⟨n, hn⟩ := ih rfl
    cases hstart
    exact ⟨n + 1, pc', i', hstep, hn⟩

/-- A compiled program is the code of the tree it was read as, and the match instruction. -/
theorem build_code {source : String} {p : Program}
    (h : build source ignoreCase = .ok p) :
    ∃ node n, parse source ignoreCase = .ok (node, p.ignoreCase) ∧ node.Code p.prog 0 n ∧
      p.prog[n]? = some .matched ∧ p.prog.length = n + 1 := by
  unfold build at h
  split at h
  · cases h
  · rename_i tree rule hparse
    split at h
    · cases h
    · rename_i c hcompile
      split at h
      · cases h
      · rename_i c' hemit
        cases h
        obtain ⟨-, hcode⟩ := Compiler.node_code tree hcompile
        obtain ⟨hgrow, hlen⟩ := Compiler.emit_grow hemit
        exact ⟨tree, c.prog.length, hparse, hcode.grow hgrow,
          Compiler.emit_at hemit prefix_rfl, hlen⟩

/-- **`is_match` finds exactly the matches.**  Of every pattern that compiles, case ignored or not,
and every text, the search answers, without leaving its program, and says whether the tree the
pattern was read as matches the text somewhere. -/
theorem isMatch_iff (u : Unicode) (source : String) (ignoreCase : Bool) (p : Program) (text : String)
    (h : (if ignoreCase then newIgnoreCase source else new source) = .ok p) :
    ∃ node found, parse source ignoreCase = .ok (node, p.ignoreCase) ∧
      p.isMatch u text = some found ∧
      (found = true ↔ ∃ i j, i ≤ j ∧ j ≤ text.toList.length ∧
        node.Matches u p.ignoreCase text.toList i j) := by
  have hbuild : build source ignoreCase = .ok p := by
    cases ignoreCase
    · exact h
    · exact h
  obtain ⟨node, n, hparse, hcode, hend, hlen⟩ := build_code hbuild
  have hclosed := hcode.closed hend hlen
  have hnone : Marked p.prog (Arrived u p.ignoreCase p.prog text.toList 0)
      (.new p.prog.length) := marked_new.congr fun x ↦ by simp [Arrived]
  obtain ⟨found, hsearch, hiff⟩ :=
    search_spec hclosed (drop_zero) (Nat.zero_le _) hnone marked_new
  refine ⟨node, found, hparse, hsearch, hiff.trans ?_⟩
  constructor
  · rintro ⟨q, -, hq, y, ⟨i, hi, hsteps⟩, hmatch⟩
    obtain ⟨m, hm⟩ := accepts_of_steps hsteps hmatch
    obtain ⟨j, -, -, hij, -⟩ := hcode.enters (parse_formed hparse) m i hm
    obtain ⟨hle, hlast⟩ := hij.le (hi.trans hq)
    exact ⟨i, j, hle, hlast, hij⟩
  · rintro ⟨i, j, hij, hj, hmatches⟩
    exact ⟨j, Nat.zero_le j, hj, n, ⟨i, hij, hcode.leaves i j hmatches⟩, hend⟩

/-- The tests and mappings on ASCII text. -/
def Unicode.ascii : Unicode where
  isNumeric := Char.isDigit
  isAlphanumeric := Char.isAlphanum
  toLowercase c := [c.toLower]
  toUppercase c := [c.toUpper]

/-- A counted repetition of an alternation one of whose branches is nullable, an assertion
inside. -/
theorem isMatch_iff_sample :
    ∃ p, newIgnoreCase "(?:a|b?){2,3}\\Z" = .ok p ∧ ∃ node found,
      parse "(?:a|b?){2,3}\\Z" true = .ok (node, p.ignoreCase) ∧
      p.isMatch .ascii "xab" = some found ∧
      (found = true ↔ ∃ i j, i ≤ j ∧ j ≤ "xab".toList.length ∧
        node.Matches .ascii p.ignoreCase "xab".toList i j) := by
  obtain ⟨p, hp⟩ : ∃ p, newIgnoreCase "(?:a|b?){2,3}\\Z" = .ok p := ⟨_, rfl⟩
  exact ⟨p, hp, isMatch_iff .ascii _ true p "xab" hp⟩

end Huntsman.Pattern
