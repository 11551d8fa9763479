import Huntsman.Lib.Refusal
import Huntsman.Pattern.Compile

/-!
# The code of a tree

`Node.Code prog node s e` says that the instructions of `prog` from `s` up to `e` are a translation
of `node`: it reads the code back along the tree, with every jump where the tree needs it.

`Compiler.node_code` is the correctness of the compiler's bookkeeping: what it adds to a program is
the code of the tree, for every tree, repeated bodies copied and placeholders patched.
-/

set_option autoImplicit false

namespace Huntsman.Pattern

open List

/-- Induction over a tree, with a hypothesis for each of its parts. -/
@[elab_as_elim]
theorem Node.induct {P : Node → Prop} (empty : P .empty) (char : ∀ c, P (.char c)) (any : P .any)
    (charClass : ∀ k, P (.charClass k)) (assert : ∀ a, P (.assert a))
    (concat : ∀ items, (∀ i ∈ items, P i) → P (.concat items))
    (alt : ∀ branches, (∀ b ∈ branches, P b) → P (.alt branches))
    (repeated : ∀ node min max, P node → P (.repeated node min max)) (node : Node) : P node :=
  @Node.rec P (fun items ↦ ∀ i ∈ items, P i) empty char any charClass
    assert concat alt repeated (fun _ h ↦ absurd h (not_mem_nil))
    (fun _ _ hhead htail ↦ forall_mem_cons.2 ⟨hhead, htail⟩) node

/-! ## Reading code back -/

/-- Copies of `R`, each after a split; `inst` says what the splits are, which stand at `splits`. -/
def Optionals (prog : List Inst) (inst : ℕ → Inst) (R : ℕ → ℕ → Prop) :
    ℕ → ℕ → ℕ → List ℕ → Prop
  | 0, s, e, splits => s = e ∧ splits = []
  | n + 1, s, e, splits => prog[s]? = some (inst s) ∧
    ∃ k rest, R (s + 1) k ∧ splits = s :: rest ∧ Optionals prog inst R n k e rest

section

variable (prog : List Inst)

mutual

/-- The instructions from `s` up to `e` are a translation of the tree. -/
def Node.Code : Node → ℕ → ℕ → Prop
  | .empty, s, e => s = e
  | .char c, s, e => prog[s]? = some (.char c) ∧ e = s + 1
  | .any, s, e => prog[s]? = some .any ∧ e = s + 1
  | .charClass k, s, e => prog[s]? = some (.charClass k) ∧ e = s + 1
  | .assert assertion, s, e => prog[s]? = some (.assert assertion) ∧ e = s + 1
  | .concat items, s, e => CodeAll items s e
  | .alt branches, s, e => ∃ jumps, CodeAny (.jmp e) branches s e jumps
  | .repeated body min max, s, e =>
    ∃ a, Times (fun s e ↦ body.Code s e) min s a ∧
      match max with
      | none => prog[a]? = some (.split (a + 1) e) ∧
        ∃ k, body.Code (a + 1) k ∧ prog[k]? = some (.jmp a) ∧ e = k + 1
      | some max => ∃ splits,
        Optionals prog (fun i ↦ .split (i + 1) e) (fun s e ↦ body.Code s e) (max - min) a e splits

/-- The trees' code, one after the other. -/
def CodeAll : List Node → ℕ → ℕ → Prop
  | [], s, e => s = e
  | item :: rest, s, e => ∃ k, item.Code s k ∧ CodeAll rest k e

/-- The branches' code: each but the last after a split past it and before the instruction `jump`,
which stands at `jumps`. -/
def CodeAny (jump : Inst) : List Node → ℕ → ℕ → List ℕ → Prop
  | [], s, e, jumps => s = e ∧ jumps = []
  | [branch], s, e, jumps => branch.Code s e ∧ jumps = []
  | branch :: next :: rest, s, e, jumps => ∃ k more, prog[s]? = some (.split (s + 1) (k + 1)) ∧
    branch.Code (s + 1) k ∧ prog[k]? = some jump ∧ jumps = k :: more ∧
    CodeAny jump (next :: rest) (k + 1) e more

end

end

variable {prog prog' : List Inst}

/-! ### Spans -/

theorem Times.mono_le {R : ℕ → ℕ → Prop} (hR : ∀ {s e}, R s e → s ≤ e) {n s e : ℕ}
    (h : Times R n s e) : s ≤ e := by
  induction n generalizing s with
  | zero => exact Nat.le_of_eq h
  | succ n ih =>
    obtain ⟨k, hk, hrest⟩ := h
    exact (hR hk).trans (ih hrest)

theorem Optionals.le {inst : ℕ → Inst} {R : ℕ → ℕ → Prop} (hR : ∀ {s e}, R s e → s ≤ e)
    {n s e : ℕ} {splits : List ℕ} (h : Optionals prog inst R n s e splits) :
    s ≤ e ∧ ∀ x ∈ splits, s ≤ x ∧ x < e ∧ prog[x]? = some (inst x) := by
  induction n generalizing s splits with
  | zero =>
    obtain ⟨rfl, rfl⟩ := h
    simp
  | succ n ih =>
    obtain ⟨hsplit, k, rest, hk, rfl, hrest⟩ := h
    have h₁ := hR hk
    obtain ⟨h₂, hmore⟩ := ih hrest
    refine ⟨by omega, forall_mem_cons.2 ⟨⟨le_rfl, by omega, hsplit⟩, fun x hx ↦ ?_⟩⟩
    obtain ⟨hkx, hxe, hinst⟩ := hmore x hx
    exact ⟨by omega, hxe, hinst⟩

theorem CodeAll.le {items : List Node} (hitems : ∀ i ∈ items, ∀ s e, i.Code prog s e → s ≤ e)
    {s e : ℕ} (h : CodeAll prog items s e) : s ≤ e := by
  induction items generalizing s with
  | nil => exact Nat.le_of_eq h
  | cons item rest ih =>
    obtain ⟨k, hk, hrest⟩ := h
    rw [forall_mem_cons] at hitems
    exact (hitems.1 s k hk).trans (ih hitems.2 hrest)

theorem CodeAny.le {jump : Inst} {branches : List Node}
    (hbranches : ∀ b ∈ branches, ∀ s e, b.Code prog s e → s ≤ e) {s e : ℕ} {jumps : List ℕ}
    (h : CodeAny prog jump branches s e jumps) :
    s ≤ e ∧ ∀ j ∈ jumps, s ≤ j ∧ j < e ∧ prog[j]? = some jump := by
  induction branches generalizing s jumps with
  | nil =>
    obtain ⟨rfl, rfl⟩ := h
    simp
  | cons branch rest ih =>
    rw [forall_mem_cons] at hbranches
    match rest with
    | [] =>
      obtain ⟨hcode, rfl⟩ := h
      exact ⟨hbranches.1 s e hcode, by simp⟩
    | next :: rest =>
      obtain ⟨k, more, -, hcode, hjump, rfl, hrest⟩ := h
      have hk := hbranches.1 _ _ hcode
      obtain ⟨hle, hmore⟩ := ih hbranches.2 hrest
      refine ⟨by omega, forall_mem_cons.2 ⟨⟨by omega, by omega, hjump⟩, fun j hj ↦ ?_⟩⟩
      obtain ⟨hkj, hje, hinst⟩ := hmore j hj
      exact ⟨by omega, hje, hinst⟩

theorem Node.Code.le {node : Node} : ∀ {s e : ℕ}, node.Code prog s e → s ≤ e := by
  induction node using Node.induct with
  | empty => exact Nat.le_of_eq
  | char c | any | charClass k | assert a =>
    rintro s e ⟨-, rfl⟩
    exact Nat.le_succ s
  | concat items ih => exact CodeAll.le fun i hi s e ↦ ih i hi
  | alt branches ih =>
    rintro s e ⟨jumps, h⟩
    exact (CodeAny.le (fun b hb s e ↦ ih b hb) h).1
  | repeated body min max ih =>
    rintro s e ⟨a, hmin, h⟩
    refine (hmin.mono_le ih).trans ?_
    cases max with
    | none =>
      obtain ⟨-, k, hk, -, rfl⟩ := h
      have := ih hk
      omega
    | some max =>
      obtain ⟨splits, hopt⟩ := h
      exact (hopt.le ih).1

/-! ### Moving code -/

/-- `prog'` has, `d` further on, the instructions that `prog` has from `s` up to `e`. -/
def Moved (prog prog' : List Inst) (d s e : ℕ) : Prop :=
  ∀ x inst, s ≤ x → x < e → prog[x]? = some inst → prog'[x + d]? = some (inst.shift d)

theorem Moved.sub {d s e s' e' : ℕ} (h : Moved prog prog' d s e) (hs : s ≤ s') (he : e' ≤ e) :
    Moved prog prog' d s' e' :=
  fun x inst hx hx' ↦ h x inst (hs.trans hx) (Nat.lt_of_lt_of_le hx' he)

theorem Times.move {R R' : ℕ → ℕ → Prop} {d s e n : ℕ} (hle : ∀ {s e}, R s e → s ≤ e)
    (hR : ∀ {s' e'}, s ≤ s' → e' ≤ e → R s' e' → R' (s' + d) (e' + d)) (h : Times R n s e) :
    Times R' n (s + d) (e + d) := by
  induction n generalizing s with
  | zero => exact congrArg (· + d) h
  | succ n ih =>
    obtain ⟨k, hk, hrest⟩ := h
    exact ⟨k + d, hR le_rfl (hrest.mono_le hle) hk,
      ih (fun hs' he' ↦ hR ((hle hk).trans hs') he') hrest⟩

/-- Copies are moved with what is between their splits; what stands at the splits may change. -/
theorem Optionals.move {inst inst' : ℕ → Inst} {R R' : ℕ → ℕ → Prop} {d s e n : ℕ}
    {splits : List ℕ} (hle : ∀ {s e}, R s e → s ≤ e)
    (hR : ∀ {s e}, Moved prog prog' d s e → R s e → R' (s + d) (e + d))
    (hm : ∀ x inst, s ≤ x → x < e → x ∉ splits → prog[x]? = some inst →
      prog'[x + d]? = some (inst.shift d))
    (hj : ∀ x ∈ splits, prog'[x + d]? = some (inst' (x + d)))
    (h : Optionals prog inst R n s e splits) :
    Optionals prog' inst' R' n (s + d) (e + d) (splits.map (· + d)) := by
  induction n generalizing s splits with
  | zero =>
    obtain ⟨rfl, rfl⟩ := h
    exact ⟨rfl, rfl⟩
  | succ n ih =>
    obtain ⟨-, k, rest, hk, rfl, hrest⟩ := h
    rw [forall_mem_cons] at hj
    have hs := hle hk
    obtain ⟨he, hmore⟩ := hrest.le hle
    have hcopy : R' (s + 1 + d) (k + d) := by
      refine hR (fun x inst hx hx' ↦ hm x inst (by omega) (by omega) fun hmem ↦ ?_) hk
      rcases mem_cons.1 hmem with rfl | hmem
      · omega
      · have := hmore x hmem
        omega
    rw [Nat.add_right_comm] at hcopy
    refine ⟨hj.1, k + d, rest.map (· + d), hcopy, rfl,
      ih (fun x inst hx hx' hout ↦ hm x inst (by omega) hx' fun hmem ↦ ?_) hj.2 hrest⟩
    rcases mem_cons.1 hmem with rfl | hmem
    · omega
    · exact hout hmem

theorem CodeAll.move {d s e : ℕ} {items : List Node}
    (hitems : ∀ i ∈ items, ∀ s e, Moved prog prog' d s e → i.Code prog s e →
      i.Code prog' (s + d) (e + d))
    (hm : Moved prog prog' d s e) (h : CodeAll prog items s e) :
    CodeAll prog' items (s + d) (e + d) := by
  induction items generalizing s with
  | nil => exact congrArg (· + d) h
  | cons item rest ih =>
    obtain ⟨k, hk, hrest⟩ := h
    rw [forall_mem_cons] at hitems
    have hke : k ≤ e := hrest.le fun _ _ _ _ ↦ Node.Code.le
    exact ⟨k + d, hitems.1 s k (hm.sub le_rfl hke) hk,
      ih hitems.2 (hm.sub hk.le le_rfl) hrest⟩

/-- Branches are moved with their splits; what stands at the jumps may change. -/
theorem CodeAny.move {jump jump' : Inst} {d s e : ℕ} {branches : List Node} {jumps : List ℕ}
    (hbranches : ∀ b ∈ branches, ∀ s e, Moved prog prog' d s e → b.Code prog s e →
      b.Code prog' (s + d) (e + d))
    (hm : ∀ x inst, s ≤ x → x < e → x ∉ jumps → prog[x]? = some inst →
      prog'[x + d]? = some (inst.shift d))
    (hj : ∀ j ∈ jumps, prog'[j + d]? = some jump') (h : CodeAny prog jump branches s e jumps) :
    CodeAny prog' jump' branches (s + d) (e + d) (jumps.map (· + d)) := by
  induction branches generalizing s jumps with
  | nil =>
    obtain ⟨rfl, rfl⟩ := h
    exact ⟨rfl, rfl⟩
  | cons branch rest ih =>
    rw [forall_mem_cons] at hbranches
    match rest with
    | [] =>
      obtain ⟨hcode, rfl⟩ := h
      exact ⟨hbranches.1 s e (fun x inst hs he ↦ hm x inst hs he (by simp)) hcode, rfl⟩
    | next :: rest =>
      obtain ⟨k, more, hsplit, hcode, -, rfl, hrest⟩ := h
      rw [forall_mem_cons] at hj
      have hk := hcode.le
      obtain ⟨hke, hmore⟩ := hrest.le fun _ _ _ _ ↦ Node.Code.le
      have hout : ∀ x, x < k → x ∉ k :: more := fun x hx hmem ↦ by
        rcases mem_cons.1 hmem with rfl | hmem
        · omega
        · have := hmore x hmem
          omega
      have hsplit' := hm s _ le_rfl (by omega) (hout s (by omega)) hsplit
      have hcode' := hbranches.1 (s + 1) k
        (fun x inst hs he ↦ hm x inst (by omega) (by omega) (hout x he)) hcode
      rw [Inst.shift, Nat.add_right_comm, Nat.add_right_comm k] at hsplit'
      rw [Nat.add_right_comm] at hcode'
      have hrest' := ih hbranches.2 (fun x inst hs he hx ↦ hm x inst (by omega) he fun hmem ↦ by
        rcases mem_cons.1 hmem with rfl | hmem
        · omega
        · exact hx hmem) hj.2 hrest
      rw [Nat.add_right_comm] at hrest'
      exact ⟨k + d, more.map (· + d), hsplit', hcode', hj.1, rfl, hrest'⟩

/-- **Code may be moved**, into another program too. -/
theorem Node.Code.move {node : Node} {d : ℕ} : ∀ {s e : ℕ}, Moved prog prog' d s e →
    node.Code prog s e → node.Code prog' (s + d) (e + d) := by
  induction node using Node.induct with
  | empty =>
    rintro s e - rfl
    exact rfl
  | char c | any | charClass k | assert a =>
    rintro s e hm ⟨hs, rfl⟩
    exact ⟨hm s _ le_rfl (Nat.lt_succ_self s) hs, Nat.add_right_comm s 1 d⟩
  | concat items ih =>
    intro s e hm h
    exact CodeAll.move (fun i hi s e ↦ ih i hi) hm h
  | alt branches ih =>
    rintro s e hm ⟨jumps, h⟩
    have hjump : ∀ j ∈ jumps, prog'[j + d]? = some (.jmp (e + d)) := fun j hj ↦ by
      obtain ⟨hs, he, hinst⟩ := (h.le fun _ _ _ _ ↦ Node.Code.le).2 j hj
      exact hm j _ hs he hinst
    exact ⟨_, CodeAny.move (fun b hb s e ↦ ih b hb) (fun x inst hs he _ ↦ hm x inst hs he)
      hjump h⟩
  | repeated body min max ih =>
    rintro s e hm ⟨a, hmin, h⟩
    have hsa := hmin.mono_le Node.Code.le
    cases max with
    | none =>
      obtain ⟨hsplit, k, hk, hjmp, rfl⟩ := h
      have hak := hk.le
      have hmin' := hmin.move Node.Code.le
        fun hs' he' ↦ ih (hm.sub hs' (by omega))
      have hsplit' := hm a _ hsa (by omega) hsplit
      have hk' := ih (hm.sub (by omega) (by omega)) hk
      have hjmp' := hm k _ (by omega) (by omega) hjmp
      rw [Inst.shift, Nat.add_right_comm a] at hsplit'
      rw [Nat.add_right_comm] at hk'
      exact ⟨a + d, hmin', hsplit', k + d, hk', hjmp', Nat.add_right_comm k 1 d⟩
    | some max =>
      obtain ⟨splits, hopt⟩ := h
      obtain ⟨hae, hsplits⟩ := hopt.le Node.Code.le
      have hmin' := hmin.move Node.Code.le fun hs' he' ↦ ih (hm.sub hs' (by omega))
      refine ⟨a + d, hmin', splits.map (· + d), hopt.move Node.Code.le ih
        (fun x inst hx hx' _ ↦ hm x inst (by omega) hx') fun x hx ↦ ?_⟩
      obtain ⟨hax, hxe, hinst⟩ := hsplits x hx
      have hsplit' := hm x _ (by omega) hxe hinst
      rw [Inst.shift, Nat.add_right_comm x] at hsplit'
      exact hsplit'

@[simp] theorem Inst.shift_zero (inst : Inst) : inst.shift 0 = inst := by
  cases inst <;> rfl

theorem getElem?_grow {x : ℕ} {inst : Inst} (hgrow : prog <+: prog') (h : prog[x]? = some inst) :
    prog'[x]? = some inst := by
  obtain ⟨more, rfl⟩ := hgrow
  rw [List.getElem?_append_left (List.getElem?_eq_some_iff.1 h).1, h]

/-- What is written after code does not matter to it. -/
theorem Node.Code.grow {node : Node} {s e : ℕ} (h : node.Code prog s e) (hgrow : prog <+: prog') :
    node.Code prog' s e := by
  refine Node.Code.move (d := 0) (fun x inst _ _ hx ↦ ?_) h
  rw [Inst.shift_zero]
  exact getElem?_grow hgrow hx

/-! ## The compiler writes the code of the tree -/

theorem getElem?_setAll {α : Type} {places : List ℕ} {f : ℕ → α} {l : List α} {x : ℕ} :
    (places.foldl (fun l i ↦ l.set i (f i)) l)[x]? =
      if x ∈ places then l[x]?.map fun _ ↦ f x else l[x]? := by
  induction places generalizing l with
  | nil => simp
  | cons i rest ih =>
    rw [foldl_cons, ih, getElem?_set]
    by_cases hx : i = x
    · subst hx
      by_cases hlt : i < l.length
      · simp [hlt]
      · simp [hlt]
    · simp [hx, Ne.symm hx]

namespace Compiler

variable {c c' : Compiler}

theorem emit_ok {inst : Inst} (h : c.emit inst = .ok c') : c'.prog = c.prog ++ [inst] := by
  unfold emit at h
  split at h
  · cases h
  · cases h
    rfl

theorem patch_prog {places : List ℕ} {inst : ℕ → Inst} {x : ℕ} :
    (c.patch places inst).prog[x]? =
      if x ∈ places then c.prog[x]?.map fun _ ↦ inst x else c.prog[x]? :=
  getElem?_setAll

theorem patch_length {places : List ℕ} {inst : ℕ → Inst} :
    (c.patch places inst).prog.length = c.prog.length := by
  unfold patch
  simp only
  generalize c.prog = prog
  induction places generalizing prog with
  | nil => rfl
  | cons i rest ih => rw [foldl_cons, ih, length_set]

/-- Patches past the end of a shorter program leave it the start. -/
theorem patch_keeps {places : List ℕ} {inst : ℕ → Inst}
    (h : prog <+: c.prog) (hplaces : ∀ x ∈ places, prog.length ≤ x) :
    prog <+: (c.patch places inst).prog := by
  rw [prefix_iff_getElem?] at h ⊢
  intro x hx
  have hout : x ∉ places := fun hmem ↦ absurd (hplaces x hmem) (by omega)
  rw [patch_prog, if_neg hout]
  exact h x hx

/-- An instruction that is not patched stays. -/
theorem patch_apart {places : List ℕ} {inst : ℕ → Inst} {x : ℕ} {i : Inst} (hx : x ∉ places)
    (h : c.prog[x]? = some i) : (c.patch places inst).prog[x]? = some i := by
  rw [patch_prog, if_neg hx, h]

theorem patch_at {places : List ℕ} {inst : ℕ → Inst} {x : ℕ} {i : Inst} (hx : x ∈ places)
    (h : c.prog[x]? = some i) : (c.patch places inst).prog[x]? = some (inst x) := by
  rw [patch_prog, if_pos hx, h]
  rfl

/-- Code that no patch touches stays. -/
theorem patch_code {tree : Node} {places : List ℕ} {inst : ℕ → Inst} {s e : ℕ}
    (hplaces : ∀ x ∈ places, x < s ∨ e ≤ x) (h : tree.Code c.prog s e) :
    tree.Code (c.patch places inst).prog s e := by
  refine Node.Code.move (d := 0) (fun x i hs he hi ↦ ?_) h
  have hout : x ∉ places := fun hmem ↦ by
    have := hplaces x hmem
    omega
  rw [Inst.shift_zero]
  exact patch_apart hout hi

/-- A compiler that adds to the program the code of `tree`. -/
def Writes (tree : Node) (compile : Compile) : Prop :=
  ∀ {c c' : Compiler}, compile c = .ok c' →
    c.prog <+: c'.prog ∧ tree.Code c'.prog c.prog.length c'.prog.length

/-- The span of a compiled body holds its code. -/
def Holds (tree : Node) (span : Body) (c : Compiler) : Prop :=
  ∀ start stop, span = some (start, stop) →
    tree.Code c.prog start stop ∧ stop ≤ c.prog.length

theorem Holds.grow {tree : Node} {span : Body} (h : Holds tree span c)
    (hgrow : c.prog <+: c'.prog) : Holds tree span c' := by
  intro start stop hspan
  obtain ⟨hcode, hle⟩ := h start stop hspan
  exact ⟨hcode.grow hgrow, hle.trans hgrow.length_le⟩

theorem emitAll_ok {d : ℕ} {code : List Inst}
    (h : code.foldlM (fun c inst ↦ emit c (inst.shift d)) c = .ok c') :
    c'.prog = c.prog ++ code.map (Inst.shift d) := by
  induction code generalizing c with
  | nil =>
    cases h
    simp
  | cons inst rest ih =>
    rw [Except.foldlM_cons_ok] at h
    obtain ⟨c₁, hemit, hrest⟩ := h
    rw [ih hrest, emit_ok hemit, map_cons, append_assoc, singleton_append]

/-- A copy of a body is its code, the first and every later one. -/
theorem copy_code {tree : Node} {body : Compile} (hbody : Writes tree body) {span span' : Body}
    (hspan : Holds tree span c) (h : copy body c span = .ok (span', c')) :
    c.prog <+: c'.prog ∧ tree.Code c'.prog c.prog.length c'.prog.length ∧
      Holds tree span' c' := by
  unfold copy at h
  split at h
  · split at h
    · cases h
    · rename_i c₁ hcompile
      cases h
      obtain ⟨hgrow, hcode⟩ := hbody hcompile
      refine ⟨hgrow, hcode, fun start stop hspan ↦ ?_⟩
      cases hspan
      exact ⟨hcode, le_rfl⟩
  · rename_i start stop
    simp only at h
    split at h
    · cases h
    · rename_i c₁ hemit
      cases h
      obtain ⟨hcode, hle⟩ := hspan start stop rfl
      have hss := hcode.le
      have hprog := emitAll_ok hemit
      have hgrow : c.prog <+: c'.prog := by
        rw [hprog]
        exact prefix_append _ _
      have hmoved : Moved c.prog c'.prog (c.prog.length - start) start stop := by
        intro x inst hx hx' hinst
        rw [hprog, getElem?_append_right (by omega), getElem?_map, getElem?_drop,
          getElem?_take_of_lt (by omega)]
        rw [show start + (x + (c.prog.length - start) - c.prog.length) = x by omega, hinst]
        rfl
      have hcopy := hcode.move hmoved
      have hlen : c'.prog.length = stop + (c.prog.length - start) := by
        rw [hprog, length_append, length_map, length_drop, length_take]
        omega
      rw [show start + (c.prog.length - start) = c.prog.length by omega, ← hlen] at hcopy
      exact ⟨hgrow, hcopy, hspan.grow hgrow⟩

theorem Times.of_loop {R : ℕ → ℕ → Prop} {s : ℕ} (h : R s s) (n : ℕ) : Times R n s s := by
  induction n with
  | zero => rfl
  | succ n ih => exact ⟨s, h, ih⟩

theorem Times.grow {tree : Node} (hgrow : prog <+: prog') {n s e : ℕ}
    (h : Times (fun s e ↦ tree.Code prog s e) n s e) :
    Times (fun s e ↦ tree.Code prog' s e) n s e := by
  induction n generalizing s with
  | zero => exact h
  | succ n ih =>
    obtain ⟨k, hk, hrest⟩ := h
    exact ⟨k, hk.grow hgrow, ih hrest⟩

section Repeat

variable {tree : Node} {body : Compile} {span span' : Body}

/-- The copies a repetition has at least; a body that compiles to nothing stands for all of them. -/
theorem required_code (hbody : Writes tree body) {n : ℕ} (hspan : Holds tree span c)
    (h : required body n span c = .ok (span', c')) :
    c.prog <+: c'.prog ∧
      Times (fun s e ↦ tree.Code c'.prog s e) n c.prog.length c'.prog.length ∧
      Holds tree span' c' := by
  induction n generalizing span c with
  | zero =>
    cases h
    exact ⟨prefix_rfl, rfl, hspan⟩
  | succ n ih =>
    unfold required at h
    split at h
    · cases h
    · rename_i span₁ c₁ hcopy
      obtain ⟨hgrow, hcode, hspan₁⟩ := copy_code hbody hspan hcopy
      split at h
      · rename_i hnothing
        cases h
        rw [hnothing] at hcode ⊢
        exact ⟨hgrow, Times.of_loop hcode _, hspan₁⟩
      · obtain ⟨hgrow', htimes, hspan'⟩ := ih hspan₁ h
        exact ⟨hgrow.trans hgrow', ⟨c₁.prog.length, hcode.grow hgrow', htimes⟩, hspan'⟩

/-- What stands at a place that was just written. -/
theorem emit_at {inst : Inst} (h : c.emit inst = .ok c')
    (hgrow : c'.prog <+: prog) : prog[c.prog.length]? = some inst := by
  rw [emit_ok h] at hgrow
  obtain ⟨more, rfl⟩ := hgrow
  simp

theorem emit_grow {inst : Inst} (h : c.emit inst = .ok c') :
    c.prog <+: c'.prog ∧ c'.prog.length = c.prog.length + 1 := by
  rw [emit_ok h]
  exact ⟨prefix_append _ _, by simp⟩

/-- The copies a repetition may have, their splits still open. -/
theorem optional_code (hbody : Writes tree body) {n : ℕ} {splits : List ℕ}
    (hspan : Holds tree span c) (h : optional body n span c = .ok (splits, c')) :
    c.prog <+: c'.prog ∧ Optionals c'.prog (fun _ ↦ .split 0 0) (fun s e ↦ tree.Code c'.prog s e) n
      c.prog.length c'.prog.length splits := by
  induction n generalizing span c splits with
  | zero =>
    cases h
    exact ⟨prefix_rfl, rfl, rfl⟩
  | succ n ih =>
    unfold optional at h
    split at h
    · cases h
    · rename_i c₁ hemit
      obtain ⟨hgrow₁, hlen₁⟩ := emit_grow hemit
      split at h
      · cases h
      · rename_i span₁ c₂ hcopy
        obtain ⟨hgrow₂, hcode, hspan₁⟩ := copy_code hbody (hspan.grow hgrow₁) hcopy
        split at h
        · cases h
        · rename_i splits₁ c₃ hrest
          cases h
          obtain ⟨hgrow₃, hopt⟩ := ih hspan₁ hrest
          rw [hlen₁] at hcode
          exact ⟨hgrow₁.trans (hgrow₂.trans hgrow₃), emit_at hemit (hgrow₂.trans hgrow₃),
            c₂.prog.length, splits₁, hcode.grow hgrow₃, rfl, hopt⟩

/-- Patching the open splits to lead past the last copy finishes the copies. -/
theorem optional_patched {n s : ℕ} {splits : List ℕ}
    (h : Optionals c.prog (fun _ ↦ .split 0 0) (fun s e ↦ tree.Code c.prog s e) n
      s c.prog.length splits) :
    Optionals (c.patch splits fun i ↦ .split (i + 1) c.prog.length).prog
      (fun i ↦ .split (i + 1) c.prog.length)
      (fun s e ↦ tree.Code (c.patch splits fun i ↦ .split (i + 1) c.prog.length).prog s e)
      n s c.prog.length splits := by
  have hsplits := (h.le Node.Code.le).2
  have hmoved : Optionals (c.patch splits fun i ↦ .split (i + 1) c.prog.length).prog
      (fun i ↦ .split (i + 1) c.prog.length)
      (fun s e ↦ tree.Code (c.patch splits fun i ↦ .split (i + 1) c.prog.length).prog s e)
      n (s + 0) (c.prog.length + 0) (splits.map (· + 0)) :=
    h.move Node.Code.le Node.Code.move
      (fun x inst _ _ hout hinst ↦ by
        rw [Inst.shift_zero]
        exact patch_apart hout hinst)
      fun x hx ↦ patch_at hx (hsplits x hx).2.2
  simpa using hmoved

/-- The loop of a repetition without an upper bound. -/
theorem unbounded_code (hbody : Writes tree body) (hspan : Holds tree span c)
    (h : unbounded body span c = .ok c') :
    c.prog <+: c'.prog ∧ c'.prog[c.prog.length]? = some (.split (c.prog.length + 1) c'.prog.length) ∧
      ∃ k, tree.Code c'.prog (c.prog.length + 1) k ∧
        c'.prog[k]? = some (.jmp c.prog.length) ∧ c'.prog.length = k + 1 := by
  unfold unbounded at h
  split at h
  · cases h
  · rename_i c₁ hsplit
    obtain ⟨hgrow₁, hlen₁⟩ := emit_grow hsplit
    split at h
    · cases h
    · rename_i span₁ c₂ hcopy
      obtain ⟨hgrow₂, hcode, -⟩ := copy_code hbody (hspan.grow hgrow₁) hcopy
      split at h
      · cases h
      · rename_i c₃ hjmp
        cases h
        obtain ⟨hgrow₃, hlen₃⟩ := emit_grow hjmp
        have hlen₂ := hgrow₂.length_le
        rw [patch_length]
        rw [hlen₁] at hcode hlen₂
        have hout : c₂.prog.length ∉ [c.prog.length] := by
          rw [mem_singleton]
          omega
        exact ⟨patch_keeps (hgrow₁.trans (hgrow₂.trans hgrow₃)) (by simp),
          patch_at (.head _) (emit_at hsplit (hgrow₂.trans hgrow₃)),
          c₂.prog.length, patch_code (by simp) (hcode.grow hgrow₃),
          patch_apart hout (emit_at hjmp prefix_rfl), hlen₃⟩

/-- A repetition is written as its tree says. -/
theorem repetition_code (hbody : Writes tree body) (min : ℕ) (max : Option ℕ) :
    Writes (.repeated tree min max) (repetition body min max) := by
  intro c c' h
  unfold repetition at h
  split at h
  · cases h
  · rename_i span₁ c₁ hrequired
    obtain ⟨hgrow, htimes, hspan⟩ :=
      required_code hbody (fun _ _ hnone ↦ by cases hnone) hrequired
    split at h
    · obtain ⟨hgrow', hsplit, k, hcode, hjmp, hend⟩ := unbounded_code hbody hspan h
      exact ⟨hgrow.trans hgrow', c₁.prog.length, Times.grow hgrow' htimes, hsplit, k, hcode, hjmp,
        hend⟩
    · split at h
      · cases h
      · rename_i max splits c₂ hoptional
        cases h
        obtain ⟨hgrow', hopt⟩ := optional_code hbody hspan hoptional
        have hsplits := (hopt.le Node.Code.le).2
        have hkept : c₁.prog <+: (c₂.patch splits fun i ↦ .split (i + 1) c₂.prog.length).prog :=
          patch_keeps hgrow' fun x hx ↦ (hsplits x hx).1
        rw [patch_length]
        exact ⟨hgrow.trans hkept, c₁.prog.length, Times.grow hkept htimes, splits,
          optional_patched hopt⟩

end Repeat

theorem nodes_code {items : List Node} (hitems : ∀ i ∈ items, Writes i (node i))
    (h : nodes items c = .ok c') :
    c.prog <+: c'.prog ∧ CodeAll c'.prog items c.prog.length c'.prog.length := by
  induction items generalizing c with
  | nil =>
    cases h
    exact ⟨prefix_rfl, rfl⟩
  | cons item rest ih =>
    rw [forall_mem_cons] at hitems
    unfold nodes at h
    split at h
    · cases h
    · rename_i c₁ hitem
      obtain ⟨hgrow₁, hcode⟩ := hitems.1 hitem
      obtain ⟨hgrow₂, hrest⟩ := ih hitems.2 h
      exact ⟨hgrow₁.trans hgrow₂, c₁.prog.length, hcode.grow hgrow₂, hrest⟩

/-- The branches of an alternation, their jumps still open. -/
theorem alternatives_code {branches : List Node} (hbranches : ∀ b ∈ branches, Writes b (node b))
    {jumps : List ℕ} (h : alternatives branches c = .ok (jumps, c')) :
    c.prog <+: c'.prog ∧
      CodeAny c'.prog (.jmp 0) branches c.prog.length c'.prog.length jumps := by
  induction branches generalizing c jumps with
  | nil =>
    cases h
    exact ⟨prefix_rfl, rfl, rfl⟩
  | cons branch rest ih =>
    rw [forall_mem_cons] at hbranches
    match rest with
    | [] =>
      unfold alternatives at h
      split at h
      · cases h
      · rename_i c₁ hbranch
        cases h
        obtain ⟨hgrow, hcode⟩ := hbranches.1 hbranch
        exact ⟨hgrow, hcode, rfl⟩
    | next :: rest =>
      unfold alternatives at h
      split at h
      · cases h
      · rename_i c₁ hsplit
        obtain ⟨hgrow₁, hlen₁⟩ := emit_grow hsplit
        split at h
        · cases h
        · rename_i c₂ hbranch
          obtain ⟨hgrow₂, hcode⟩ := hbranches.1 hbranch
          have hlen₂ := hgrow₂.length_le
          split at h
          · cases h
          · rename_i c₃ hjmp
            obtain ⟨hgrow₃, hlen₃⟩ := emit_grow hjmp
            split at h
            · cases h
            · rename_i jumps₁ c₄ hrest
              cases h
              obtain ⟨hgrow₄, hmore⟩ := ih hbranches.2 hrest
              rw [patch_length, hlen₃] at hmore
              have hkept : c.prog <+:
                  (c₃.patch [c.prog.length] fun i ↦ .split (i + 1) c₃.prog.length).prog :=
                patch_keeps (hgrow₁.trans (hgrow₂.trans hgrow₃)) (by simp)
              have hout : c₂.prog.length ∉ [c.prog.length] := by
                rw [mem_singleton]
                omega
              rw [hlen₁] at hcode
              rw [hlen₃] at hkept hgrow₄
              exact ⟨hkept.trans hgrow₄, c₂.prog.length, jumps₁,
                getElem?_grow hgrow₄
                  (patch_at (.head _) (emit_at hsplit (hgrow₂.trans hgrow₃))),
                (patch_code (by simp) (hcode.grow hgrow₃)).grow hgrow₄,
                getElem?_grow hgrow₄ (patch_apart hout (emit_at hjmp prefix_rfl)), rfl, hmore⟩

/-- Patching the open jumps to lead past the last branch finishes the alternation. -/
theorem alternatives_patched {branches : List Node} {s : ℕ} {jumps : List ℕ}
    (h : CodeAny c.prog (.jmp 0) branches s c.prog.length jumps) :
    CodeAny (c.patch jumps fun _ ↦ .jmp c.prog.length).prog (.jmp c.prog.length) branches s
      c.prog.length jumps := by
  have hjumps := (h.le fun _ _ _ _ ↦ Node.Code.le).2
  have hmoved : CodeAny (c.patch jumps fun _ ↦ .jmp c.prog.length).prog (.jmp c.prog.length)
      branches (s + 0) (c.prog.length + 0) (jumps.map (· + 0)) :=
    h.move (fun _ _ _ _ ↦ Node.Code.move)
      (fun x inst _ _ hout hinst ↦ by
        rw [Inst.shift_zero]
        exact patch_apart hout hinst)
      fun x hx ↦ patch_at hx (hjumps x hx).2.2
  simpa using hmoved

/-- **The compiler writes the code of its tree**, after what the program already had. -/
theorem node_code (tree : Node) : Writes tree (node tree) := by
  induction tree using Node.induct with
  | empty =>
    intro c c' h
    cases h
    exact ⟨prefix_rfl, rfl⟩
  | char x | any | charClass k | assert a =>
    intro c c' h
    obtain ⟨hgrow, hlen⟩ := emit_grow h
    exact ⟨hgrow, emit_at h prefix_rfl, hlen⟩
  | concat items ih =>
    intro c c' h
    exact nodes_code ih h
  | alt branches ih =>
    intro c c' h
    unfold node at h
    split at h
    · cases h
    · rename_i jumps c₁ hbranches
      cases h
      obtain ⟨hgrow, hcode⟩ := alternatives_code ih hbranches
      have hjumps := (hcode.le fun _ _ _ _ ↦ Node.Code.le).2
      rw [patch_length]
      exact ⟨patch_keeps hgrow fun x hx ↦ (hjumps x hx).1, jumps, alternatives_patched hcode⟩
  | repeated body min max ih => exact repetition_code ih min max

end Compiler

end Huntsman.Pattern
