import Huntsman.Pattern.Search

/-!
# Copies of a repeated body

A repetition compiles its body once, and each further copy is the code written for the first with
its jumps shifted.  `Compiler.repetitionAfresh` is the compiler that does without: it compiles the
body again for each copy.  The two agree on everything (`Compiler.copies_afresh`), the program, its
cost and whether it is refused as too large, because what a tree is compiled to depends on where its
code begins and on nothing else, and moves as a whole with that place (`Compiler.node_emits`).

What a compiler appends is `Compiler.extend`: the instructions fit, all of them, or none are kept.
-/

set_option autoImplicit false

namespace Huntsman.Pattern

open List

/-! ## Without copies -/

namespace Compiler

section Afresh

variable (body : Compile)

/-- The copies a repetition has at least, each compiled. -/
def requiredAfresh : ℕ → Compile
  | 0, c => .ok c
  | n + 1, c => do
    let c' ← body c
    if c'.prog.length = c.prog.length then .ok c' else requiredAfresh n c'

/-- The copies a repetition may have beyond that, each compiled. -/
def optionalAfresh : ℕ → Compiler → Except String (List ℕ × Compiler)
  | 0, c => .ok ([], c)
  | n + 1, c => do
    let (splits, c') ← optionalAfresh n (← body (← c.emit (.split 0 0)))
    return (c.prog.length :: splits, c')

/-- A loop back to before the body. -/
def unboundedAfresh (c : Compiler) : Except String Compiler := do
  let c' ← (← body (← c.emit (.split 0 0))).emit (.jmp c.prog.length)
  return c'.patch [c.prog.length] fun i ↦ .split (i + 1) c'.prog.length

/-- A repetition that compiles its body for each copy. -/
def repetitionAfresh (min : ℕ) (max : Option ℕ) (c : Compiler) : Except String Compiler := do
  let c ← requiredAfresh body min c
  match max with
  | none => unboundedAfresh body c
  | some max =>
    let (splits, c) ← optionalAfresh body (max - min) c
    return c.patch splits fun i ↦ .split (i + 1) c.prog.length

end Afresh

end Compiler

/-! ## Code as a function of where it begins -/

/-- What instructions count against the limit. -/
def weigh (code : List Inst) : ℕ := (code.map Inst.weight).sum

@[simp] theorem weigh_append (xs ys : List Inst) : weigh (xs ++ ys) = weigh xs + weigh ys := by
  rw [weigh, map_append, sum_append]
  rfl

@[simp] theorem weigh_nil : weigh [] = 0 := rfl

@[simp] theorem weigh_cons (x : Inst) (xs : List Inst) : weigh (x :: xs) = x.weight + weigh xs :=
  sum_cons

/-- Code that moves as a whole: further on by `d`, its jumps are shifted by `d`. -/
def Moves (code : ℕ → List Inst) : Prop := ∀ n d, code (n + d) = (code n).map (Inst.shift d)

theorem Moves.length {code : ℕ → List Inst} (h : Moves code) (n : ℕ) :
    (code n).length = (code 0).length := by
  have hn := h 0 n
  rw [Nat.zero_add] at hn
  rw [hn, length_map]

theorem Moves.one {inst : Inst} (h : ∀ d, inst.shift d = inst) : Moves fun _ ↦ [inst] :=
  fun _ d ↦ by rw [map_singleton, h]

/-- Code followed by code. -/
def followed (first second : ℕ → List Inst) (n : ℕ) : List Inst :=
  first n ++ second (n + (first 0).length)

theorem Moves.followed {first second : ℕ → List Inst} (h : Moves first) (h' : Moves second) :
    Moves (followed first second) := by
  intro n d
  rw [Pattern.followed, Pattern.followed, map_append, h n d, ← h', Nat.add_right_comm]

/-- Code repeated. -/
def copies (code : ℕ → List Inst) : ℕ → ℕ → List Inst
  | 0, _ => []
  | k + 1, n => followed code (copies code k) n

theorem Moves.copies {code : ℕ → List Inst} (h : Moves code) (k : ℕ) : Moves (copies code k) := by
  induction k with
  | zero => exact fun _ _ ↦ rfl
  | succ k ih => exact h.followed ih

theorem Moves.copies_nil {code : ℕ → List Inst} (h : Moves code) {n : ℕ} (hnil : code n = [])
    (k m : ℕ) : Pattern.copies code k m = [] := by
  induction k generalizing m with
  | zero => rfl
  | succ k ih =>
    have hm : code m = [] := by
      rw [← length_eq_zero_iff, h.length, ← h.length n, hnil]
      rfl
    rw [Pattern.copies, Pattern.followed, hm, ih, append_nil]

namespace Compiler

open Except (map_eq_bind bind_map map_bind)

variable {c : Compiler} {xs ys : List Inst}

/-- The compiler after it appended `code`. -/
def after (c : Compiler) (code : List Inst) : Compiler := ⟨c.prog ++ code, c.cost + weigh code⟩

@[simp] theorem after_nil : c.after [] = c := by
  rw [after, append_nil]
  rfl

@[simp] theorem after_after : (c.after xs).after ys = c.after (xs ++ ys) := by
  simp [after, Nat.add_assoc]

@[simp] theorem after_length : (c.after xs).prog.length = c.prog.length + xs.length :=
  length_append

/-- The code stays within the limit. -/
def Fits (c : Compiler) (code : List Inst) : Prop :=
  code = [] ∨ c.cost + weigh code ≤ maxProgram

instance (c : Compiler) (code : List Inst) : Decidable (c.Fits code) :=
  inferInstanceAs (Decidable (_ ∨ _))

/-- Append `code`, all of it or nothing. -/
def extend (c : Compiler) (code : List Inst) : Except String Compiler :=
  if c.Fits code then .ok (c.after code)
  else .error "compiles to more than 20000 instructions"

theorem fits_append : c.Fits (xs ++ ys) ↔ c.Fits xs ∧ (c.after xs).Fits ys := by
  simp only [Fits, after, append_eq_nil_iff, weigh_append]
  constructor
  · rintro (⟨rfl, rfl⟩ | h)
    · exact ⟨.inl rfl, .inl rfl⟩
    · exact ⟨.inr (by omega), .inr (by omega)⟩
  · rintro ⟨rfl | h, rfl | h'⟩
    · exact .inl ⟨rfl, rfl⟩
    · exact .inr (by simpa using h')
    · exact .inr (by simpa using h)
    · exact .inr (by omega)

theorem emit_eq (c : Compiler) (inst : Inst) : c.emit inst = c.extend [inst] := by
  rw [emit, extend]
  split
  · rw [if_neg]
    simp only [Fits, cons_ne_nil, false_or, weigh_cons, weigh_nil]
    omega
  · rw [if_pos]
    · rfl
    · refine .inr ?_
      rw [weigh_cons, weigh_nil]
      omega

theorem extend_nil (c : Compiler) : c.extend [] = .ok c := by
  rw [extend, if_pos (.inl rfl), after_nil]

/-- **Two appends are one**, whatever comes after them. -/
theorem extend_bind {β : Type} {next last : Compiler → Except String β}
    (h : next (c.after xs) = ((c.after xs).extend ys).bind last) :
    (c.extend xs).bind next = (c.extend (xs ++ ys)).bind last := by
  rw [extend, extend]
  by_cases hxs : c.Fits xs
  · rw [if_pos hxs]
    refine h.trans ?_
    rw [extend]
    by_cases hys : (c.after xs).Fits ys
    · rw [if_pos hys, if_pos (fits_append.2 ⟨hxs, hys⟩), after_after]
    · rw [if_neg hys, if_neg fun hall ↦ hys (fits_append.1 hall).2]
  · rw [if_neg hxs, if_neg fun hall ↦ hxs (fits_append.1 hall).1]
    rfl

theorem extend_then {β : Type} {next : Compiler → Except String β} {g : Compiler → β}
    (h : next (c.after xs) = ((c.after xs).extend ys).map g) :
    (c.extend xs).bind next = (c.extend (xs ++ ys)).map g := by
  rw [map_eq_bind] at h ⊢
  exact extend_bind h

theorem extend_next {next : Compile} (h : next (c.after xs) = (c.after xs).extend ys) :
    (c.extend xs).bind next = c.extend (xs ++ ys) := by
  have hall := extend_then (g := id) (h.trans (congrFun Except.map_id _).symm)
  rwa [Except.map_id] at hall

/-- What comes after an append depends on nothing but where it begins. -/
theorem extend_congr {β : Type} {f g : Compiler → Except String β}
    (h : f (c.after xs) = g (c.after xs)) : (c.extend xs).bind f = (c.extend xs).bind g := by
  rw [extend]
  split
  · exact h
  · rfl

theorem extend_map {β : Type} {f g : Compiler → β} (h : f (c.after xs) = g (c.after xs)) :
    (c.extend xs).map f = (c.extend xs).map g := by
  rw [map_eq_bind, map_eq_bind]
  exact extend_congr (congrArg _ h)

/-- Patches of instructions that weigh the same. -/
theorem extend_patch {places : List ℕ} {inst : ℕ → Inst}
    (hprog : places.foldl (fun prog i ↦ prog.set i (inst i)) (c.prog ++ xs) = c.prog ++ ys)
    (hweigh : weigh xs = weigh ys) :
    (c.extend xs).map (fun c' ↦ c'.patch places inst) = c.extend ys := by
  have hlen : xs.length = ys.length := by
    have hset : (patch ⟨c.prog ++ xs, 0⟩ places inst).prog.length = (c.prog ++ xs).length :=
      patch_length
    have hsame := (congrArg length hprog).symm.trans hset
    rw [length_append, length_append] at hsame
    omega
  have hfits : c.Fits xs ↔ c.Fits ys := by
    rw [Fits, Fits, hweigh, ← length_eq_zero_iff, ← length_eq_zero_iff, hlen]
  rw [extend, extend]
  by_cases hxs : c.Fits xs
  · rw [if_pos hxs, if_pos (hfits.1 hxs)]
    refine congrArg Except.ok ?_
    simp only [patch, after, hprog, hweigh]
  · rw [if_neg hxs, if_neg fun hys ↦ hxs (hfits.2 hys)]
    rfl

/-- A compiler that appends `code`, as it stands where the program ends. -/
def Emits (compile : Compile) (code : ℕ → List Inst) : Prop :=
  ∀ c : Compiler, compile c = c.extend (code c.prog.length)

theorem Emits.one {inst : Inst} : Emits (fun c ↦ c.emit inst) fun _ ↦ [inst] :=
  fun c ↦ c.emit_eq inst

theorem Emits.followed {compile compile' : Compile} {code code' : ℕ → List Inst}
    (h : Emits compile code) (hcode : Moves code) (h' : Emits compile' code') :
    Emits (fun c ↦ (compile c).bind compile') (Pattern.followed code code') := by
  intro c
  simp only [h c]
  refine extend_next ?_
  rw [h', after_length, hcode.length]

/-! ## A copy is the body compiled afresh -/

section Copies

variable {body : Compile} {code : ℕ → List Inst} {span span' : Body} {c : Compiler}

/-- The span of a compiled body holds its code. -/
def Spans (code : ℕ → List Inst) (span : Body) (c : Compiler) : Prop :=
  ∀ start stop, span = some (start, stop) →
    start ≤ c.prog.length ∧ (c.prog.take stop).drop start = code start ∧ stop ≤ c.prog.length

theorem Spans.after (h : Spans code span c) (xs : List Inst) : Spans code span (c.after xs) := by
  intro start stop hspan
  obtain ⟨hstart, hcode, hstop⟩ := h start stop hspan
  refine ⟨by simp only [after_length]; omega, ?_, by simp only [after_length]; omega⟩
  rw [Compiler.after, take_append_of_le_length hstop, hcode]

theorem emitAll_eq (d : ℕ) (xs : List Inst) (c : Compiler) :
    xs.foldlM (fun c inst ↦ c.emit (inst.shift d)) c = c.extend (xs.map (Inst.shift d)) := by
  induction xs generalizing c with
  | nil => exact c.extend_nil.symm
  | cons x xs ih =>
    rw [foldlM_cons, emit_eq]
    exact extend_next (ih _)

/-- **One more copy is the body once more**, the first and every later one. -/
theorem copy_eq (hbody : Emits body code) (hcode : Moves code) (hspan : Spans code span c) :
    ∃ span', copy body c span = (body c).map (fun c' ↦ (span', c')) ∧
      Spans code span' (c.after (code c.prog.length)) := by
  rcases span with _ | ⟨start, stop⟩
  · refine ⟨some (c.prog.length, c.prog.length + (code c.prog.length).length), ?_, ?_⟩
    · rw [copy, hbody c, extend]
      by_cases hfits : c.Fits (code c.prog.length)
      · rw [if_pos hfits]
        simp only [after_length]
        rfl
      · rw [if_neg hfits]
        rfl
    · intro start stop h
      cases h
      refine ⟨by simp, ?_, by simp⟩
      rw [Compiler.after, ← length_append, take_length, drop_left]
  · obtain ⟨hstart, hheld, hstop⟩ := hspan start stop rfl
    refine ⟨some (start, stop), ?_, hspan.after _⟩
    have hmoved : ((c.prog.take stop).drop start).map (Inst.shift (c.prog.length - start)) =
        code c.prog.length := by
      rw [hheld, ← hcode, Nat.add_sub_cancel' hstart]
    rw [hbody c, ← hmoved, ← emitAll_eq, copy]
    rcases foldlM _ c _ with e | c'
    · rfl
    · rfl

theorem requiredAfresh_emits (hbody : Emits body code) (hcode : Moves code) (k : ℕ) :
    Emits (requiredAfresh body k) (copies code k) := by
  induction k with
  | zero => exact fun c ↦ c.extend_nil.symm
  | succ k ih =>
    intro c
    rw [requiredAfresh, hbody c]
    refine extend_next ?_
    by_cases hnothing : code c.prog.length = []
    · rw [hnothing, after_nil, if_pos rfl, hcode.copies_nil hnothing, extend_nil]
    · rw [if_neg (by simpa using hnothing), ih, after_length, hcode.length]

theorem required_succ (k : ℕ) (span : Body) (c : Compiler) :
    required body (k + 1) span c = (copy body c span).bind fun r ↦
      if r.2.prog.length = c.prog.length then .ok r else required body k r.1 r.2 := by
  rw [required]
  rcases copy body c span with e | r
  · rfl
  · rfl

theorem optional_succ (k : ℕ) (span : Body) (c : Compiler) :
    optional body (k + 1) span c = (c.emit (.split 0 0)).bind fun c₁ ↦
      (copy body c₁ span).bind fun r ↦ (optional body k r.1 r.2).bind fun s ↦
        .ok (c.prog.length :: s.1, s.2) := by
  rw [optional]
  rcases c.emit (.split 0 0) with e | c₁
  · rfl
  · simp only [Except.bind]
    rcases copy body c₁ span with e | ⟨span', c₂⟩
    · rfl
    · dsimp only
      rcases optional body k span' c₂ with e | s
      · rfl
      · rfl

theorem unbounded_bind (span : Body) (c : Compiler) :
    unbounded body span c = (c.emit (.split 0 0)).bind fun c₁ ↦
      (copy body c₁ span).bind fun r ↦ (r.2.emit (.jmp c.prog.length)).bind fun c₃ ↦
        .ok (c₃.patch [c.prog.length] fun i ↦ .split (i + 1) c₃.prog.length) := by
  rw [unbounded]
  rcases c.emit (.split 0 0) with e | c₁
  · rfl
  · simp only [Except.bind]
    rcases copy body c₁ span with e | ⟨span', c₂⟩
    · rfl
    · dsimp only
      rcases c₂.emit (.jmp c.prog.length) with e | c₃
      · rfl
      · rfl

theorem repetition_bind (min : ℕ) (max : Option ℕ) (c : Compiler) :
    repetition body min max c = (required body min none c).bind fun r ↦
      match max with
      | none => unbounded body r.1 r.2
      | some max => (optional body (max - min) r.1 r.2).bind fun s ↦
          .ok (s.2.patch s.1 fun i ↦ .split (i + 1) s.2.prog.length) := by
  rw [repetition]
  rcases required body min none c with e | ⟨span, c'⟩
  · rfl
  · rcases max with _ | max
    · rfl
    · simp only [Except.bind]
      rcases optional body (max - min) span c' with e | s
      · rfl
      · rfl

/-- The copies a repetition has at least are the same, and leave the span of the body right. -/
theorem required_eq (hbody : Emits body code) (hcode : Moves code) (k : ℕ)
    (hspan : Spans code span c) :
    ∃ span', required body k span c = (requiredAfresh body k c).map (fun c' ↦ (span', c')) ∧
      Spans code span' (c.after (copies code k c.prog.length)) := by
  induction k generalizing span c with
  | zero =>
    refine ⟨span, rfl, ?_⟩
    rw [copies, after_nil]
    exact hspan
  | succ k ih =>
    obtain ⟨span₁, hcopy, hspan₁⟩ := copy_eq hbody hcode hspan
    obtain ⟨span₂, hrest, hspan₂⟩ := ih hspan₁
    have hafresh : requiredAfresh body (k + 1) c = (body c).bind fun c' ↦
        if c'.prog.length = c.prog.length then .ok c' else requiredAfresh body k c' := rfl
    rw [required_succ, hafresh, hcopy, bind_map, hbody c]
    by_cases hnothing : (c.after (code c.prog.length)).prog.length = c.prog.length
    · have hnil : code c.prog.length = [] := by simpa using hnothing
      refine ⟨span₁, ?_, ?_⟩
      · rw [map_bind]
        refine extend_congr ?_
        rw [if_pos hnothing, if_pos hnothing]
        rfl
      · rw [hcode.copies_nil hnil]
        rwa [hnil] at hspan₁
    · refine ⟨span₂, ?_, ?_⟩
      · rw [map_bind]
        refine extend_congr ?_
        rw [if_neg hnothing, if_neg hnothing]
        exact hrest
      · rwa [after_length, after_after, hcode.length] at hspan₂

/-- The copies a repetition may have beyond that are the same. -/
theorem optional_eq (hbody : Emits body code) (hcode : Moves code) (k : ℕ)
    (hspan : Spans code span c) : optional body k span c = optionalAfresh body k c := by
  induction k generalizing span c with
  | zero => rfl
  | succ k ih =>
    have hafresh : optionalAfresh body (k + 1) c = (c.emit (.split 0 0)).bind fun c₁ ↦
        (body c₁).bind fun c₂ ↦ (optionalAfresh body k c₂).bind fun s ↦
          .ok (c.prog.length :: s.1, s.2) := rfl
    rw [optional_succ, hafresh, emit_eq]
    refine extend_congr ?_
    obtain ⟨span₁, hcopy, hspan₁⟩ := copy_eq hbody hcode (hspan.after [.split 0 0])
    rw [hcopy, bind_map, hbody (c.after _)]
    refine extend_congr ?_
    rw [ih hspan₁]

theorem unbounded_eq (hbody : Emits body code) (hcode : Moves code) (hspan : Spans code span c) :
    unbounded body span c = unboundedAfresh body c := by
  have hafresh : unboundedAfresh body c = (c.emit (.split 0 0)).bind fun c₁ ↦
      (body c₁).bind fun c₂ ↦ (c₂.emit (.jmp c.prog.length)).bind fun c₃ ↦
        .ok (c₃.patch [c.prog.length] fun i ↦ .split (i + 1) c₃.prog.length) := rfl
  rw [unbounded_bind, hafresh, emit_eq]
  refine extend_congr ?_
  obtain ⟨span₁, hcopy, -⟩ := copy_eq hbody hcode (hspan.after [.split 0 0])
  rw [hcopy, bind_map]

/-- **A repetition compiles as it would without copies**, when what its body compiles to depends on
nothing but where it begins. -/
theorem repetition_eq (hbody : Emits body code) (hcode : Moves code) (min : ℕ) (max : Option ℕ)
    (c : Compiler) : repetition body min max c = repetitionAfresh body min max c := by
  have hnone : Spans code none c := fun _ _ h ↦ by cases h
  obtain ⟨span, hrequired, hspan⟩ := required_eq hbody hcode min hnone
  have hafresh : repetitionAfresh body min max c = (requiredAfresh body min c).bind fun c ↦
      match max with
      | none => unboundedAfresh body c
      | some max => (optionalAfresh body (max - min) c).bind fun s ↦
          .ok (s.2.patch s.1 fun i ↦ .split (i + 1) s.2.prog.length) := by
    cases max <;> rfl
  rw [repetition_bind, hrequired, hafresh, bind_map, requiredAfresh_emits hbody hcode min c]
  refine extend_congr ?_
  rcases max with _ | max
  · exact unbounded_eq hbody hcode hspan
  · exact congrArg (Except.bind · _) (optional_eq hbody hcode (max - min) hspan)

end Copies

/-! ## What a tree is compiled to -/

section Codes

variable (code : ℕ → List Inst)

/-- Copies of `code`, each after a split. -/
def optionalCode (split : ℕ → Inst) : ℕ → ℕ → List Inst
  | 0, _ => []
  | k + 1, n => split n :: (code (n + 1) ++ optionalCode split k (n + 1 + (code 0).length))

/-- Where the splits of these copies stand. -/
def optionalSplits : ℕ → ℕ → List ℕ
  | 0, _ => []
  | k + 1, n => n :: optionalSplits k (n + 1 + (code 0).length)

/-- Copies of `code` that may be left out from any on. -/
def optionalsCode (k n : ℕ) : List Inst :=
  optionalCode code (fun i ↦ .split (i + 1) (n + k * ((code 0).length + 1))) k n

/-- A loop of `code`. -/
def loopCode (n : ℕ) : List Inst :=
  .split (n + 1) (n + (code 0).length + 2) :: (code (n + 1) ++ [.jmp n])

/-- The code of a repetition. -/
def repetitionCode (min : ℕ) : Option ℕ → ℕ → List Inst
  | none => followed (copies code min) (loopCode code)
  | some max => followed (copies code min) (optionalsCode code (max - min))

end Codes

section Repetition

variable {body : Compile} {code : ℕ → List Inst}

/-- An instruction in a program, replaced. -/
theorem set_here (base rest : List Inst) (x y : Inst) :
    (base ++ x :: rest).set base.length y = base ++ y :: rest := by
  rw [set_append_right _ _ le_rfl, Nat.sub_self, set_cons_zero]

theorem optionalCode_length (hcode : Moves code) (split : ℕ → Inst) (k n : ℕ) :
    (optionalCode code split k n).length = k * ((code 0).length + 1) := by
  induction k generalizing n with
  | zero => simp [optionalCode]
  | succ k ih =>
    rw [optionalCode, length_cons, length_append, ih, hcode.length, Nat.succ_mul]
    omega

theorem optionalCode_weigh (split split' : ℕ → Inst)
    (h : ∀ i, (split i).weight = (split' i).weight) (k n : ℕ) :
    weigh (optionalCode code split k n) = weigh (optionalCode code split' k n) := by
  induction k generalizing n with
  | zero => rfl
  | succ k ih => simp only [optionalCode, weigh_cons, weigh_append, h, ih]

theorem optionalCode_patch (hcode : Moves code) (split split' : ℕ → Inst) (k : ℕ)
    (base : List Inst) :
    (optionalSplits code k base.length).foldl (fun prog i ↦ prog.set i (split' i))
        (base ++ optionalCode code split k base.length) =
      base ++ optionalCode code split' k base.length := by
  induction k generalizing base with
  | zero => rfl
  | succ k ih =>
    have hnext := ih (base ++ split' base.length :: code (base.length + 1))
    have hlength : (base ++ split' base.length :: code (base.length + 1)).length =
        base.length + 1 + (code 0).length := by
      rw [length_append, length_cons, hcode.length]
      omega
    rw [hlength, append_assoc, append_assoc, cons_append, cons_append] at hnext
    rw [optionalSplits, foldl_cons, optionalCode, set_here]
    exact hnext

theorem Moves.optionalCode (hcode : Moves code) {split split' : ℕ → Inst} {d : ℕ}
    (h : ∀ i, split' (i + d) = (split i).shift d) (k n : ℕ) :
    Compiler.optionalCode code split' k (n + d) =
      (Compiler.optionalCode code split k n).map (Inst.shift d) := by
  induction k generalizing n with
  | zero => rfl
  | succ k ih =>
    rw [Compiler.optionalCode, Compiler.optionalCode, map_cons, map_append, h, ← hcode,
      ← ih, Nat.add_right_comm n d 1, Nat.add_right_comm (n + 1) d]

theorem optionalAfresh_emits (hbody : Emits body code) (hcode : Moves code) (k : ℕ) (c : Compiler) :
    optionalAfresh body k c =
      (c.extend (optionalCode code (fun _ ↦ .split 0 0) k c.prog.length)).map fun c' ↦
        (optionalSplits code k c.prog.length, c') := by
  induction k generalizing c with
  | zero =>
    rw [optionalCode, extend_nil]
    rfl
  | succ k ih =>
    have hafresh : optionalAfresh body (k + 1) c = (c.emit (.split 0 0)).bind fun c₁ ↦
        (body c₁).bind fun c₂ ↦ (optionalAfresh body k c₂).bind fun s ↦
          .ok (c.prog.length :: s.1, s.2) := rfl
    rw [hafresh, emit_eq, optionalCode, optionalSplits]
    refine extend_then ?_
    rw [hbody (c.after _), after_length]
    refine extend_then ?_
    rw [ih, bind_map, ← map_eq_bind, after_length, after_length, hcode.length]
    rfl

/-- What a repetition's copies beyond the first ones compile to, their splits closed. -/
theorem optionals_emits (hbody : Emits body code) (hcode : Moves code) (k : ℕ) :
    Emits (fun c ↦ (optionalAfresh body k c).bind fun s ↦
      .ok (s.2.patch s.1 fun i ↦ .split (i + 1) s.2.prog.length)) (optionalsCode code k) := by
  intro c
  simp only [optionalAfresh_emits hbody hcode k c]
  rw [bind_map, ← map_eq_bind, extend_map (g := fun c' ↦ c'.patch (optionalSplits code k
    c.prog.length) fun i ↦ .split (i + 1) (c.prog.length + k * ((code 0).length + 1)))]
  · refine extend_patch (optionalCode_patch hcode _ _ k c.prog)
      (optionalCode_weigh _ _ ?_ k c.prog.length)
    exact fun _ ↦ rfl
  · rw [after_length, optionalCode_length hcode]

theorem unboundedAfresh_emits (hbody : Emits body code) (hcode : Moves code) :
    Emits (unboundedAfresh body) (loopCode code) := by
  intro c
  have hafresh : unboundedAfresh body c = (c.emit (.split 0 0)).bind fun c₁ ↦
      (body c₁).bind fun c₂ ↦ (c₂.emit (.jmp c.prog.length)).bind fun c₃ ↦
        .ok (c₃.patch [c.prog.length] fun i ↦ .split (i + 1) c₃.prog.length) := rfl
  have hopen : unboundedAfresh body c = (c.extend ([.split 0 0] ++
      (code (c.prog.length + 1) ++ [.jmp c.prog.length]))).map fun c₃ ↦
        c₃.patch [c.prog.length] fun i ↦ .split (i + 1) c₃.prog.length := by
    rw [hafresh, emit_eq]
    refine extend_then ?_
    rw [hbody (c.after _), after_length]
    refine extend_then ?_
    rw [emit_eq, map_eq_bind]
  rw [hopen, extend_map (g := fun c₃ ↦ c₃.patch [c.prog.length] fun i ↦
    .split (i + 1) (c.prog.length + (code 0).length + 2))]
  · refine extend_patch ?_ rfl
    exact set_here c.prog _ _ _
  · simp only [after_length, length_append, length_singleton, hcode.length]
    rw [show c.prog.length + (1 + ((code 0).length + 1)) = c.prog.length + (code 0).length + 2 by
      omega]

theorem repetitionAfresh_emits (hbody : Emits body code) (hcode : Moves code) (min : ℕ)
    (max : Option ℕ) : Emits (repetitionAfresh body min max) (repetitionCode code min max) := by
  have hrequired := requiredAfresh_emits hbody hcode min
  rcases max with _ | max
  · exact hrequired.followed (hcode.copies min) (unboundedAfresh_emits hbody hcode)
  · exact hrequired.followed (hcode.copies min) (optionals_emits hbody hcode (max - min))

theorem Moves.repetitionCode (hcode : Moves code) (min : ℕ) (max : Option ℕ) :
    Moves (Compiler.repetitionCode code min max) := by
  rcases max with _ | max
  · refine (hcode.copies min).followed fun n d ↦ ?_
    rw [loopCode, loopCode, map_cons, map_append, ← hcode]
    simp only [Inst.shift, map_singleton]
    rw [show n + d + 1 = n + 1 + d by omega,
      show n + d + (code 0).length + 2 = n + (code 0).length + 2 + d by omega]
  · refine (hcode.copies min).followed fun n d ↦ Moves.optionalCode hcode (fun i ↦ ?_) _ n
    simp only [Inst.shift]
    rw [show i + d + 1 = i + 1 + d by omega, Nat.add_right_comm n d]

end Repetition

section Alternation

/-- Branches, each but the last after a split past it and before the instruction `jump`. -/
def alternativesCode (jump : Inst) : List (ℕ → List Inst) → ℕ → List Inst
  | [], _ => []
  | [code], n => code n
  | code :: next :: rest, n =>
    .split (n + 1) (n + 1 + (code 0).length + 1) :: (code (n + 1) ++
      jump :: alternativesCode jump (next :: rest) (n + 1 + (code 0).length + 1))

/-- Where these jumps stand. -/
def alternativesJumps : List (ℕ → List Inst) → ℕ → List ℕ
  | [], _ => []
  | [_], _ => []
  | code :: next :: rest, n =>
    (n + 1 + (code 0).length) :: alternativesJumps (next :: rest) (n + 1 + (code 0).length + 1)

/-- How long the branches are. -/
def alternativesLength : List (ℕ → List Inst) → ℕ
  | [] => 0
  | [code] => (code 0).length
  | code :: next :: rest => 1 + (code 0).length + 1 + alternativesLength (next :: rest)

variable {codes : List (ℕ → List Inst)}

theorem alternativesCode_length (hcodes : ∀ code ∈ codes, Moves code) (jump : Inst) (n : ℕ) :
    (alternativesCode jump codes n).length = alternativesLength codes := by
  induction codes generalizing n with
  | nil => rfl
  | cons code rest ih =>
    rw [forall_mem_cons] at hcodes
    rcases rest with _ | ⟨next, rest⟩
    · exact hcodes.1.length n
    · rw [alternativesCode, alternativesLength, length_cons, length_append,
        length_cons, hcodes.1.length, ih hcodes.2]
      omega

theorem alternativesCode_weigh {jump jump' : Inst} (h : jump.weight = jump'.weight) (n : ℕ) :
    weigh (alternativesCode jump codes n) = weigh (alternativesCode jump' codes n) := by
  induction codes generalizing n with
  | nil => rfl
  | cons code rest ih =>
    rcases rest with _ | ⟨next, rest⟩
    · rfl
    · simp only [alternativesCode, weigh_cons, weigh_append, h, ih]

theorem alternativesCode_patch (hcodes : ∀ code ∈ codes, Moves code) (jump jump' : Inst)
    (base : List Inst) :
    (alternativesJumps codes base.length).foldl (fun prog i ↦ prog.set i jump')
        (base ++ alternativesCode jump codes base.length) =
      base ++ alternativesCode jump' codes base.length := by
  induction codes generalizing base with
  | nil => rfl
  | cons code rest ih =>
    rw [forall_mem_cons] at hcodes
    rcases rest with _ | ⟨next, rest⟩
    · rfl
    · -- what stands before the jump, and then with it closed
      have hbefore : (base ++ .split (base.length + 1) (base.length + 1 + (code 0).length + 1) ::
          code (base.length + 1)).length = base.length + 1 + (code 0).length := by
        rw [length_append, length_cons, hcodes.1.length]
        omega
      have hset := set_here (base ++ .split (base.length + 1) (base.length + 1 +
        (code 0).length + 1) :: code (base.length + 1)) (alternativesCode jump (next :: rest)
          (base.length + 1 + (code 0).length + 1)) jump jump'
      have hnext := ih hcodes.2 (base ++ .split (base.length + 1) (base.length + 1 +
        (code 0).length + 1) :: code (base.length + 1) ++ [jump'])
      rw [length_append, hbefore, length_singleton] at hnext
      rw [hbefore] at hset
      simp only [append_assoc, cons_append, nil_append] at hset hnext
      rw [alternativesJumps, foldl_cons, alternativesCode, hset]
      exact hnext

theorem Moves.alternativesCode (hcodes : ∀ code ∈ codes, Moves code) (jump : Inst) (n d : ℕ) :
    Compiler.alternativesCode (jump.shift d) codes (n + d) =
      (Compiler.alternativesCode jump codes n).map (Inst.shift d) := by
  induction codes generalizing n with
  | nil => rfl
  | cons code rest ih =>
    rw [forall_mem_cons] at hcodes
    rcases rest with _ | ⟨next, rest⟩
    · exact hcodes.1 n d
    · rw [Compiler.alternativesCode, Compiler.alternativesCode, map_cons, map_append,
        map_cons, ← hcodes.1, ← ih hcodes.2]
      simp only [Inst.shift]
      rw [show n + d + 1 = n + 1 + d by omega,
        show n + 1 + d + (code 0).length + 1 = n + 1 + (code 0).length + 1 + d by omega]

theorem alternatives_bind (branch next : Node) (rest : List Node) (c : Compiler) :
    alternatives (branch :: next :: rest) c = (c.emit (.split 0 0)).bind fun c₁ ↦
      (node branch c₁).bind fun c₂ ↦ (c₂.emit (.jmp 0)).bind fun c₃ ↦
        (alternatives (next :: rest)
          (c₃.patch [c.prog.length] fun i ↦ .split (i + 1) c₃.prog.length)).bind fun r ↦
            .ok (c₂.prog.length :: r.1, r.2) := by
  rw [alternatives]
  rcases c.emit (.split 0 0) with e | c₁
  · rfl
  · simp only [Except.bind]
    rcases node branch c₁ with e | c₂
    · rfl
    · dsimp only
      rcases c₂.emit (.jmp 0) with e | c₃
      · rfl
      · dsimp only
        rcases alternatives (next :: rest) _ with e | r
        · rfl
        · rfl

/-- A tree's compiler appends `code`, which moves as a whole. -/
def NodeEmits (tree : Node) (code : ℕ → List Inst) : Prop :=
  Emits (fun c ↦ node tree c) code ∧ Moves code

theorem moves_of_forall₂ {branches : List Node} (h : List.Forall₂ NodeEmits branches codes) :
    ∀ code ∈ codes, Moves code := by
  induction h with
  | nil => simp
  | cons hbranch _ ih => exact forall_mem_cons.2 ⟨hbranch.2, ih⟩

/-- The branches of an alternation are appended, the jumps to its end still open. -/
theorem alternatives_emits {branches : List Node}
    (h : List.Forall₂ NodeEmits branches codes) (c : Compiler) :
    alternatives branches c = (c.extend (alternativesCode (.jmp 0) codes c.prog.length)).map
      fun c' ↦ (alternativesJumps codes c.prog.length, c') := by
  induction h generalizing c with
  | nil =>
    rw [alternatives, alternativesCode, extend_nil]
    rfl
  | @cons branch code branches codes hbranch hrest ih =>
    obtain ⟨hemits, hmoves⟩ := hbranch
    rcases hrest with _ | @⟨next, code', branches, codes, hnext, hrest⟩
    · rw [alternatives, show node branch c = _ from hemits c, alternativesCode, alternativesJumps]
      rcases c.extend (code c.prog.length) with e | c'
      · rfl
      · rfl
    · have hopen : alternatives (branch :: next :: branches) c =
          ((c.extend ([.split 0 0] ++ (code (c.prog.length + 1) ++ [.jmp 0]))).map fun c₃ ↦
            c₃.patch [c.prog.length] fun i ↦
              .split (i + 1) (c.prog.length + 1 + (code 0).length + 1)).bind fun c₃ ↦
                (alternatives (next :: branches) c₃).bind fun r ↦
                  .ok ((c.prog.length + 1 + (code 0).length) :: r.1, r.2) := by
        rw [alternatives_bind, emit_eq, bind_map]
        refine extend_bind ?_
        rw [show node branch (c.after _) = _ from hemits (c.after _), after_length]
        refine extend_bind ?_
        rw [emit_eq]
        refine extend_congr ?_
        simp only [after_length, length_singleton, hmoves.length]
      have hclosed : ((c.extend ([.split 0 0] ++ (code (c.prog.length + 1) ++ [.jmp 0]))).map
          fun c₃ ↦ c₃.patch [c.prog.length] fun i ↦
            .split (i + 1) (c.prog.length + 1 + (code 0).length + 1)) =
          c.extend (.split (c.prog.length + 1) (c.prog.length + 1 + (code 0).length + 1) ::
            (code (c.prog.length + 1) ++ [.jmp 0])) :=
        extend_patch (set_here c.prog _ _ _) rfl
      have hcode : alternativesCode (.jmp 0) (code :: code' :: codes) c.prog.length =
          (.split (c.prog.length + 1) (c.prog.length + 1 + (code 0).length + 1) ::
            (code (c.prog.length + 1) ++ [.jmp 0])) ++ alternativesCode (.jmp 0) (code' :: codes)
              (c.prog.length + 1 + (code 0).length + 1) := by
        simp [alternativesCode]
      rw [hopen, hclosed, hcode]
      refine extend_then ?_
      have hlength : (c.after (.split (c.prog.length + 1)
          (c.prog.length + 1 + (code 0).length + 1) ::
            (code (c.prog.length + 1) ++ [.jmp 0]))).prog.length =
              c.prog.length + 1 + (code 0).length + 1 := by
        simp only [after_length, length_cons, length_append, length_nil,
          hmoves.length]
        omega
      rw [ih, bind_map, ← map_eq_bind, hlength]
      rfl

end Alternation

/-- **What a tree compiles to depends on nothing but where its code begins**, and moves as a whole
with that place. -/
theorem node_emits (tree : Node) : ∃ code, NodeEmits tree code := by
  induction tree using Node.induct with
  | empty => exact ⟨fun _ ↦ [], fun c ↦ c.extend_nil.symm, fun _ _ ↦ rfl⟩
  | char x => exact ⟨_, Emits.one, Moves.one fun _ ↦ rfl⟩
  | any => exact ⟨_, Emits.one, Moves.one fun _ ↦ rfl⟩
  | charClass k => exact ⟨_, Emits.one, Moves.one fun _ ↦ rfl⟩
  | assert a => exact ⟨_, Emits.one, Moves.one fun _ ↦ rfl⟩
  | concat items ih =>
    induction items with
    | nil => exact ⟨fun _ ↦ [], fun c ↦ c.extend_nil.symm, fun _ _ ↦ rfl⟩
    | cons item items ihitems =>
      rw [forall_mem_cons] at ih
      obtain ⟨code, hemits, hmoves⟩ := ih.1
      obtain ⟨code', hemits', hmoves'⟩ := ihitems ih.2
      refine ⟨followed code code', fun c ↦ ?_, hmoves.followed hmoves'⟩
      refine Eq.trans ?_ (hemits.followed hmoves hemits' c)
      show nodes (item :: items) c = (node item c).bind fun c' ↦ nodes items c'
      rw [nodes]
      rcases node item c with e | c'
      · rfl
      · rfl
  | alt branches ih =>
    obtain ⟨codes, hcodes⟩ : ∃ codes, List.Forall₂ NodeEmits branches codes := by
      induction branches with
      | nil => exact ⟨[], .nil⟩
      | cons branch branches ihbranches =>
        rw [forall_mem_cons] at ih
        obtain ⟨code, hcode⟩ := ih.1
        obtain ⟨codes, hcodes⟩ := ihbranches ih.2
        exact ⟨code :: codes, .cons hcode hcodes⟩
    have hmoves := moves_of_forall₂ hcodes
    refine ⟨fun n ↦ alternativesCode (.jmp (n + alternativesLength codes)) codes n, fun c ↦ ?_,
      fun n d ↦ ?_⟩
    · have halt : node (.alt branches) c = (alternatives branches c).bind fun r ↦
          .ok (r.2.patch r.1 fun _ ↦ .jmp r.2.prog.length) := by
        rw [node]
        rcases alternatives branches c with e | r
        · rfl
        · rfl
      simp only [halt]
      rw [alternatives_emits hcodes, bind_map, ← map_eq_bind,
        extend_map (g := fun c' ↦ c'.patch (alternativesJumps codes c.prog.length) fun _ ↦
          .jmp (c.prog.length + alternativesLength codes))]
      · refine extend_patch (alternativesCode_patch hmoves _ _ c.prog)
          (alternativesCode_weigh ?_ c.prog.length)
        rfl
      · rw [after_length, alternativesCode_length hmoves]
    · rw [← Moves.alternativesCode hmoves, Inst.shift, Nat.add_right_comm]
  | repeated body min max ih =>
    obtain ⟨code, hemits, hmoves⟩ := ih
    refine ⟨repetitionCode code min max, fun c ↦ ?_, Moves.repetitionCode hmoves min max⟩
    rw [← repetitionAfresh_emits hemits hmoves min max c, ← repetition_eq hemits hmoves]
    rfl

/-- **Copying changes nothing.**  A repetition compiled by copies of its body, to whatever program
already written, is what it is compiled to when the body is compiled for each copy: the program, its
cost, and whether it is refused.  And a pattern that compiles never runs out of its program: every
target of a split or a jump is an instruction, every instruction but a match has one behind it, and
the search answers for every text. -/
theorem copies_afresh :
    (∀ (body : Node) (min : ℕ) (max : Option ℕ) (c : Compiler),
      node (.repeated body min max) c = repetitionAfresh (fun c ↦ node body c) min max c) ∧
    ∀ (source : String) (ignoreCase : Bool) (p : Program), build source ignoreCase = .ok p →
      (∀ (x : ℕ) (inst : Inst), p.prog[x]? = some inst → inst ≠ .matched →
        x + 1 < p.prog.length ∧ ∀ y ∈ inst.targets x, y < p.prog.length) ∧
      ∀ (u : Unicode) (text : String), ∃ found, p.isMatch u text = some found := by
  refine ⟨fun body min max c ↦ ?_, fun source ignoreCase p hbuild ↦ ?_⟩
  · obtain ⟨code, hemits, hmoves⟩ := node_emits body
    exact repetition_eq hemits hmoves min max c
  · obtain ⟨tree, n, -, hcode, hend, hlen⟩ := build_code hbuild
    have hclosed := hcode.closed hend hlen
    refine ⟨fun x inst hinst hmatched ↦ ⟨?_, hclosed.2 x inst hinst⟩, fun u text ↦ ?_⟩
    · have hx := (List.getElem?_eq_some_iff.1 hinst).1
      have hne : x ≠ n := by
        rintro rfl
        rw [hend, Option.some.injEq] at hinst
        exact hmatched hinst.symm
      omega
    · have hnone : Marked p.prog (Arrived u p.ignoreCase p.prog text.toList 0)
          (.new p.prog.length) := marked_new.congr fun x ↦ by simp [Arrived]
      obtain ⟨found, hsearch, -⟩ :=
        search_spec hclosed (List.drop_zero) (Nat.zero_le _) hnone marked_new
      exact ⟨found, hsearch⟩

/-- Copies of an alternation, a loop of one and copies that may be left out, all in one pattern. -/
theorem copies_afresh_sample :
    ∃ p, build "(?:(?:a|b){2}c){2,3}d*" true = .ok p ∧
      (∀ (x : ℕ) (inst : Inst), p.prog[x]? = some inst → inst ≠ .matched →
        x + 1 < p.prog.length ∧ ∀ y ∈ inst.targets x, y < p.prog.length) ∧
      ∃ found, p.isMatch .ascii "abcbac" = some found := by
  obtain ⟨p, hp⟩ : ∃ p, build "(?:(?:a|b){2}c){2,3}d*" true = .ok p := ⟨_, rfl⟩
  obtain ⟨hclosed, hsearch⟩ := copies_afresh.2 _ true p hp
  exact ⟨p, hp, hclosed, hsearch .ascii "abcbac"⟩

end Compiler

end Huntsman.Pattern
