import Huntsman.Dns.Query

/-!
# No reader leaves the message

The readers of a DNS message ask for a range and take one that is not there for an error of the
message.  What they do besides, they do without asking: they index what they got, cut it, and add
lengths to offsets, and an index out of bounds would end the process, as a sum that is too large
might.  Here each reader is written with these as faults apart from the errors (`Fault`), and
reading a name with the turns it takes (`NameRead`).

No fault comes (`parse_checked`): each reader comes to what its plain form in `Dns.Parse` does.
What a name takes is followed through its turns.  `Turns` says which labels and pointers they are,
and where the message goes on after the name: past every label before the first pointer.
-/

set_option autoImplicit false

namespace Huntsman.Dns

open Bytes Except List

/-- How a reader ends without a result. -/
inductive Fault where
  | wire (error : WireError)
  | outOfBounds
  | overflow
deriving DecidableEq

/-- What a name takes at an offset of the message: a label after its length, or a pointer. -/
inductive Turn where
  | label (pos : ℕ) (bytes : List UInt8)
  | pointer (pos target : ℕ)
deriving DecidableEq

/-- What reading a name did, and what it came to: the name, and where the message goes on. -/
structure NameRead where
  turns : List Turn
  result : Except Fault (String × ℕ)

/-- A record, where its data ends, and the turns of its own name and of each name in the data. -/
structure RecordRead where
  record : Record
  stop : ℕ
  owner : List Turn
  names : List (List Turn)

namespace Checked

/-! ## The readers, with their faults -/

/-- What refuses only with errors of the message. -/
def lift {α : Type} (x : Except WireError α) : Except Fault α := x.mapError .wire

/-- `a + b`, an offset. -/
def sum (body : List UInt8) (a b : ℕ) : Except Fault ℕ :=
  if a + b ≤ body.length + 65545 then .ok (a + b) else .error .overflow

/-- `bytes[i]`. -/
def index (bytes : List UInt8) (i : ℕ) : Except Fault UInt8 :=
  match bytes[i]? with
  | none => .error .outOfBounds
  | some byte => .ok byte

/-- `&bytes[a..b]`. -/
def between (bytes : List UInt8) (a b : ℕ) : Except Fault (List UInt8) :=
  match slice bytes a b with
  | none => .error .outOfBounds
  | some part => .ok part

/-- The word at `i`. -/
def word (bytes : List UInt8) (i : ℕ) : Except Fault UInt16 := do
  let high ← index bytes i
  let low ← index bytes (i + 1)
  return word16 high low

/-- The number at `i`. -/
def number (bytes : List UInt8) (i : ℕ) : Except Fault UInt32 := do
  let a ← index bytes i
  let b ← index bytes (i + 1)
  let c ← index bytes (i + 2)
  let d ← index bytes (i + 3)
  return word32 a b c d

/-- A label and the place after it. -/
def readLabel (body : List UInt8) (pos : ℕ) (length : UInt8) : Except Fault (List UInt8 × ℕ) := do
  let start ← sum body pos 1
  let stop ← sum body start length.toNat
  let label ← lift (range body start stop)
  let next ← sum body pos (1 + length.toNat)
  return (label, next)

/-- The second octet of a pointer. -/
def readLow (body : List UInt8) (pos : ℕ) : Except Fault UInt8 := do
  let i ← sum body pos 1
  match body[i]? with
  | none => throw (.wire .truncated)
  | some low => return low

/-- The labels from `pos` on. -/
def readLabels (body : List UInt8) (pos : ℕ) (labels : List String) (resume : Option ℕ)
    (pointers octets : ℕ) : NameRead :=
  match body[pos]? with
  | none => ⟨[], .error (.wire .truncated)⟩
  | some length =>
    if length = 0 then
      ⟨[], (sum body pos 1).map fun next ↦ (nameText labels, resume.getD next)⟩
    else if length ≤ 63 then
      if maxNameOctets < octets + (1 + length.toNat) then ⟨[], .error (.wire .badName)⟩
      else
        match readLabel body pos length with
        | .error fault => ⟨[], .error fault⟩
        | .ok (label, next) =>
          let more := readLabels body next (labels ++ [labelText label]) resume pointers
            (octets + (1 + length.toNat))
          ⟨.label pos label :: more.turns, more.result⟩
    else if 0xC0 ≤ length then
      match readLow body pos with
      | .error fault => ⟨[], .error fault⟩
      | .ok low =>
        if maxPointers < pointers + 1 then ⟨[], .error (.wire .badName)⟩
        else
          match sum body pos 2 with
          | .error fault => ⟨[], .error fault⟩
          | .ok next =>
            let target := length.toNat % 64 * 256 + low.toNat
            let more := readLabels body target labels (some (resume.getD next)) (pointers + 1) octets
            ⟨.pointer pos target :: more.turns, more.result⟩
    else ⟨[], .error (.wire .badName)⟩
termination_by (maxNameOctets + 1 - octets) + (maxPointers + 1 - pointers)

def readName (body : List UInt8) (pos : ℕ) : NameRead := readLabels body pos [] none 0 1

def nameWithin (body : List UInt8) (start stop : ℕ) : Except Fault (String × List Turn) := do
  if stop ≤ start then throw (.wire .truncated)
  let read := readName body start
  let name ← read.result
  if stop < name.2 then throw (.wire .truncated)
  return (name.1, read.turns)

/-- The word at `i` of a record's data. -/
def short (body rdata : List UInt8) (i : ℕ) : Except Fault UInt16 := do
  let stop ← sum body i 2
  let bytes ← lift (range rdata i stop)
  word bytes 0

def characterStrings (rdata : List UInt8) : Except Fault (List String) :=
  match rdata with
  | [] => .ok []
  | length :: rest => do
    let text ← lift (range rest 0 length.toNat)
    let _ ← between rest length.toNat rest.length
    let more ← characterStrings (rest.drop length.toNat)
    return Text.fromUtf8Lossy text :: more
termination_by rdata.length
decreasing_by
  rw [List.length_drop, List.length_cons]
  omega

def readSoa (body : List UInt8) (start stop : ℕ) : Except Fault (Data × List (List Turn)) := do
  let first := readName body start
  let mname ← first.result
  let second := readName body mname.2
  let rname ← second.result
  let last ← sum body rname.2 20
  let numbers ← lift (range body rname.2 last)
  if stop < last then throw (.wire .truncated)
  let serial ← number numbers 0
  let refresh ← number numbers 4
  let retry ← number numbers 8
  let expire ← number numbers 12
  let minimum ← number numbers 16
  return (.soa mname.1 rname.1 serial refresh retry expire minimum, [first.turns, second.turns])

def readCaa (rdata : List UInt8) : Except Fault Data :=
  match rdata with
  | flags :: length :: rest => do
    let tag ← lift (range rest 0 length.toNat)
    let value ← between rest length.toNat rest.length
    return .caa flags (Text.fromUtf8Lossy tag) (Text.fromUtf8Lossy value)
  | _ => .error (.wire .truncated)

def readMx (body rdata : List UInt8) (start stop : ℕ) :
    Except Fault (Data × List (List Turn)) := do
  let preference ← short body rdata 0
  let place ← sum body start 2
  let exchange ← nameWithin body place stop
  return (.mx preference exchange.1, [exchange.2])

def readSrv (body rdata : List UInt8) (start stop : ℕ) :
    Except Fault (Data × List (List Turn)) := do
  let priority ← short body rdata 0
  let weight ← short body rdata 2
  let port ← short body rdata 4
  let place ← sum body start 6
  let target ← nameWithin body place stop
  return (.srv priority weight port target.1, [target.2])

def readData (body : List UInt8) (kind : UInt16) (start stop : ℕ) :
    Except Fault (Data × List (List Turn)) := do
  let rdata ← between body start stop
  if kind = 1 then (lift (address 4 rdata)).map fun a ↦ (.a a, [])
  else if kind = 28 then (lift (address 16 rdata)).map fun a ↦ (.aaaa a, [])
  else if kind = 2 ∨ kind = 5 ∨ kind = 12 ∨ kind = 39 then
    (nameWithin body start stop).map fun name ↦ (.name name.1, [name.2])
  else if kind = 15 then readMx body rdata start stop
  else if kind = 16 then (characterStrings rdata).map fun strings ↦ (.txt strings, [])
  else if kind = 6 then readSoa body start stop
  else if kind = 33 then readSrv body rdata start stop
  else if kind = 257 then (readCaa rdata).map fun data ↦ (data, [])
  else .ok (.other rdata, [])

def readRecord (body : List UInt8) (pos : ℕ) : Except Fault RecordRead := do
  let read := readName body pos
  let name ← read.result
  let start ← sum body name.2 10
  let fixed ← lift (range body name.2 start)
  let kind ← word fixed 0
  let ttl ← number fixed 4
  let length ← word fixed 8
  let stop ← sum body start length.toNat
  if body.length < stop then throw (.wire .truncated)
  let data ← readData body kind start stop
  return ⟨⟨name.1, kind, ttl, data.1⟩, stop, read.turns, data.2⟩

/-- The extended error that an option's value holds. -/
def optionError (value : List UInt8) : Except Fault ExtendedError := do
  let code ← word value 0
  let text ← between value 2 value.length
  return ⟨code, Text.trimEndMatches (Char.ofNat 0) (Text.fromUtf8Lossy text)⟩

def optionErrors (body options : List UInt8) : Except Fault (List ExtendedError) :=
  if 4 ≤ options.length then do
    let code ← word options 0
    let length ← word options 2
    let stop ← sum body 4 length.toNat
    match slice options 4 stop with
    | none => return []
    | some value =>
      let found ←
        if code = 15 ∧ 2 ≤ value.length then (optionError value).map fun error ↦ [error]
        else .ok []
      let _ ← between options 0 stop
      let rest ← optionErrors body (options.drop (4 + length.toNat))
      return found ++ rest
  else return []
termination_by options.length
decreasing_by
  rw [List.length_drop]
  omega

/-- The extended errors of the records left; a record that does not read cleanly ends them. -/
def readErrors (body : List UInt8) (authority : ℕ) : ℕ → ℕ → ℕ → Except Fault (List ExtendedError)
  | 0, _, _ => .ok []
  | left + 1, index, pos =>
    match readRecord body pos with
    | .error (.wire _) => .ok []
    | .error fault => .error fault
    | .ok read => do
      let found ←
        match read.record.data with
        | .other options =>
          if authority ≤ index ∧ read.record.kind = 41 then optionErrors body options else .ok []
        | _ => .ok []
      let more ← readErrors body authority left (index + 1) read.stop
      return found ++ more

/-- The questions left. -/
def readQuestions (body : List UInt8) :
    ℕ → Option Question → ℕ → Except Fault (Option Question × ℕ)
  | 0, first, pos => .ok (first, pos)
  | left + 1, first, pos => do
    let name ← (readName body pos).result
    let stop ← sum body name.2 4
    let kind ← lift (range body name.2 stop)
    let kind ← word kind 0
    let next ← sum body name.2 4
    readQuestions body left (some (first.getD ⟨name.1, kind⟩)) next

/-- The answer records left. -/
def readAnswers (body : List UInt8) : ℕ → ℕ → Except Fault (List Record × ℕ)
  | 0, pos => .ok ([], pos)
  | left + 1, pos => do
    let read ← readRecord body pos
    let more ← readAnswers body left read.stop
    return (read.record :: more.1, more.2)

def parse (body : List UInt8) : Except Fault Message := do
  let header ← lift (range body 0 12)
  let flags ← word header 2
  if flags &&& 0x8000 = 0 then throw (.wire .notAnswer)
  let questions ← word header 4
  let first ← readQuestions body questions.toNat none 12
  let records ← word header 6
  let answers ← readAnswers body records.toNat first.2
  let id ← word header 0
  let authority ← word header 8
  let additional ← word header 10
  let errors ← readErrors body authority.toNat (authority.toNat + additional.toNat) 0 answers.2
  return {
    id := id
    rcode := (flags &&& 0x0F).toUInt8
    truncated := flags &&& 0x0200 != 0
    question := first.1
    answers := answers.1
    extendedErrors := errors }

def question (body : List UInt8) : Except Fault Question := do
  let header ← lift (range body 0 12)
  let count ← word header 4
  if count = 0 then throw (.wire .truncated)
  let name ← (readName body 12).result
  let stop ← sum body name.2 2
  let kind ← lift (range body name.2 stop)
  let kind ← word kind 0
  return ⟨name.1, kind⟩

/-! ## Nothing is out of bounds -/

variable {body bytes : List UInt8} {pos a b i : ℕ}

theorem sum_eq (h : a + b ≤ body.length + 65545) : sum body a b = .ok (a + b) := if_pos h

theorem index_eq (h : i < bytes.length) : index bytes i = .ok (bytes.getD i 0) := by
  rw [index, getD_eq_getElem?_getD, getElem?_eq_getElem h]
  rfl

theorem word_eq (h : i + 1 < bytes.length) : word bytes i = .ok (Dns.word bytes i) :=
  bind_ok.2 ⟨_, index_eq (by omega), bind_ok.2 ⟨_, index_eq h, rfl⟩⟩

theorem number_eq (h : i + 3 < bytes.length) : number bytes i = .ok (Dns.number bytes i) :=
  bind_ok.2 ⟨_, index_eq (by omega), bind_ok.2 ⟨_, index_eq (by omega),
    bind_ok.2 ⟨_, index_eq (by omega), bind_ok.2 ⟨_, index_eq h, rfl⟩⟩⟩⟩

theorem between_eq (hab : a ≤ b) (hb : b ≤ bytes.length) :
    between bytes a b = .ok ((bytes.drop a).take (b - a)) := by
  rw [between, slice, if_pos ⟨hab, hb⟩]

/-- The rest of some bytes. -/
theorem between_length (ha : a ≤ bytes.length) :
    between bytes a bytes.length = .ok (bytes.drop a) := by
  rw [between_eq ha le_rfl, ← length_drop, take_length]

theorem range_bounds {part : List UInt8} (h : range bytes a b = .ok part) :
    a ≤ b ∧ b ≤ bytes.length ∧ part.length = b - a := by
  rw [range] at h
  cases hslice : slice bytes a b with
  | none =>
    rw [hslice] at h
    cases h
  | some found =>
    rw [hslice] at h
    cases h
    refine ⟨?_, ?_, length_of_slice hslice⟩ <;>
      · rw [slice] at hslice
        split at hslice
        · omega
        · cases hslice

theorem lift_sim {α : Type} (x : Except WireError α) : Sim Fault.wire (fun a b ↦ a = b) (lift x) x :=
  .mapError x

theorem readLabel_eq {length : UInt8} (hpos : pos < body.length) (hlength : length ≤ 63) :
    readLabel body pos length =
      (lift (range body (pos + 1) (pos + 1 + length.toNat))).map fun label ↦
        (label, pos + (1 + length.toNat)) := by
  have hlength : length.toNat ≤ 63 := hlength
  rw [readLabel, sum_eq (by omega)]
  show (sum body (pos + 1) length.toNat >>= _) = _
  rw [sum_eq (by omega)]
  show (lift _ >>= _) = _
  rw [sum_eq (by omega)]
  cases range body (pos + 1) (pos + 1 + length.toNat) <;> rfl

theorem readLow_eq (hpos : pos < body.length) : readLow body pos =
    match body[pos + 1]? with
    | none => .error (.wire .truncated)
    | some low => .ok low := by
  rw [readLow, sum_eq (by omega)]
  show (match body[pos + 1]? with | none => _ | some low => _) = _
  cases body[pos + 1]? <;> rfl

variable {rdata : List UInt8}

/-- Reading a name comes to what it does without faults, and goes on within the message. -/
theorem readLabels_sim {labels : List String} {resume : Option ℕ} {pointers octets : ℕ}
    (hresume : ∀ next ∈ resume, next ≤ body.length) :
    Sim Fault.wire (fun a b ↦ a = b ∧ b.2 ≤ body.length)
      (readLabels body pos labels resume pointers octets).result
      (Dns.readLabels body pos labels resume pointers octets) := by
  fun_induction Dns.readLabels body pos labels resume pointers octets with
  | case1 pos labels resume pointers octets hget =>
    rw [readLabels, hget]
    exact .error _
  | case2 pos labels resume pointers octets hget =>
    have hpos := (List.getElem?_eq_some_iff.1 hget).1
    rw [readLabels, hget]
    simp only [if_true]
    rw [sum_eq (by omega)]
    refine .ok ⟨rfl, ?_⟩
    cases resume with
    | none => exact hpos
    | some next => exact hresume next rfl
  | case3 pos labels resume pointers octets length hget hzero hlabel hlong =>
    rw [readLabels, hget]
    simp only [if_neg hzero, if_pos hlabel, if_pos hlong]
    exact .error _
  | case4 pos labels resume pointers octets length hget hzero hlabel hlong hslice =>
    have hpos := (List.getElem?_eq_some_iff.1 hget).1
    have hread : readLabel body pos length = .error (.wire .truncated) := by
      rw [readLabel_eq hpos hlabel, range, hslice]
      rfl
    rw [readLabels, hget]
    simp only [if_neg hzero, if_pos hlabel, if_neg hlong]
    rw [hread]
    exact .error _
  | case5 pos labels resume pointers octets length hget hzero hlabel hlong label hslice ih =>
    have hpos := (List.getElem?_eq_some_iff.1 hget).1
    have hread : readLabel body pos length = .ok (label, pos + (1 + length.toNat)) := by
      rw [readLabel_eq hpos hlabel, range, hslice]
      rfl
    rw [readLabels, hget]
    simp only [if_neg hzero, if_pos hlabel, if_neg hlong]
    rw [hread]
    exact ih hresume
  | case6 pos labels resume pointers octets length hget hzero hlabel hmark hlow =>
    have hpos := (List.getElem?_eq_some_iff.1 hget).1
    have hread : readLow body pos = .error (.wire .truncated) := by
      rw [readLow_eq hpos, hlow]
    rw [readLabels, hget]
    simp only [if_neg hzero, if_neg hlabel, if_pos hmark]
    rw [hread]
    exact .error _
  | case7 pos labels resume pointers octets length hget hzero hlabel hmark low hlow hmany =>
    have hpos := (List.getElem?_eq_some_iff.1 hget).1
    have hread : readLow body pos = .ok low := by
      rw [readLow_eq hpos, hlow]
    rw [readLabels, hget]
    simp only [if_neg hzero, if_neg hlabel, if_pos hmark]
    rw [hread]
    simp only [if_pos hmany]
    exact .error _
  | case8 pos labels resume pointers octets length hget hzero hlabel hmark low hlow hmany ih =>
    have hpos := (List.getElem?_eq_some_iff.1 hget).1
    have hread : readLow body pos = .ok low := by
      rw [readLow_eq hpos, hlow]
    have hnext := (List.getElem?_eq_some_iff.1 hlow).1
    rw [readLabels, hget]
    simp only [if_neg hzero, if_neg hlabel, if_pos hmark]
    rw [hread]
    simp only [if_neg hmany]
    rw [sum_eq (by omega)]
    refine ih fun next hmem ↦ ?_
    cases hmem
    cases resume with
    | none => exact hnext
    | some next => exact hresume next rfl
  | case9 pos labels resume pointers octets length hget hzero hlabel hmark =>
    rw [readLabels, hget]
    simp only [if_neg hzero, if_neg hlabel, if_neg hmark]
    exact .error _

theorem readName_sim (body : List UInt8) (pos : ℕ) :
    Sim Fault.wire (fun a b ↦ a = b ∧ b.2 ≤ body.length) (readName body pos).result
      (Dns.readName body pos) :=
  readLabels_sim fun next hnext ↦ absurd hnext (by simp)

theorem nameWithin_sim (body : List UInt8) (start stop : ℕ) :
    Sim Fault.wire (fun a b ↦ a.1 = b) (nameWithin body start stop)
      (Dns.nameWithin body start stop) := by
  refine .ite (fun _ ↦ .error _) fun _ ↦ ?_
  refine (readName_sim body start).bind fun a b _ _ hab ↦ ?_
  obtain ⟨rfl, -⟩ := hab
  exact .ite (fun _ ↦ .error _) fun _ ↦ .ok rfl

/-! ### Records -/

theorem short_sim (body : List UInt8) (hi : i ≤ 4) :
    Sim Fault.wire (fun a b ↦ a = b ∧ i + 2 ≤ rdata.length) (short body rdata i)
      (Dns.short rdata i) := by
  refine .ok_bind (sum_eq (by omega)) ?_
  refine (lift_sim _).bind fun part _ _ hpart heq ↦ ?_
  subst heq
  obtain ⟨-, hlength, hpart⟩ := range_bounds hpart
  rw [word_eq (by omega)]
  exact .ok ⟨rfl, hlength⟩

theorem characterStrings_sim (rdata : List UInt8) :
    Sim Fault.wire (fun a b ↦ a = b) (characterStrings rdata) (Dns.characterStrings rdata) := by
  fun_induction Dns.characterStrings rdata with
  | case1 =>
    rw [characterStrings]
    exact .ok rfl
  | case2 length rest ih =>
    rw [characterStrings]
    refine (lift_sim _).bind fun text _ _ htext heq ↦ ?_
    subst heq
    obtain ⟨-, hlength, -⟩ := range_bounds htext
    refine .ok_bind (between_length hlength) ?_
    refine ih.bind fun more _ _ _ heq ↦ ?_
    subst heq
    exact .ok rfl

theorem readSoa_sim (body : List UInt8) (start stop : ℕ) :
    Sim Fault.wire (fun a b ↦ a.1 = b) (readSoa body start stop) (Dns.readSoa body start stop) := by
  refine (readName_sim body start).bind fun mname _ _ _ heq ↦ ?_
  obtain ⟨rfl, -⟩ := heq
  refine (readName_sim body mname.2).bind fun rname _ _ _ heq ↦ ?_
  obtain ⟨rfl, hnext⟩ := heq
  refine .ok_bind (sum_eq (by omega)) ?_
  refine (lift_sim _).bind fun numbers _ _ hnumbers heq ↦ ?_
  subst heq
  obtain ⟨-, -, hlength⟩ := range_bounds hnumbers
  refine .ite (fun _ ↦ .error _) fun _ ↦ ?_
  refine .ok_bind (number_eq (by omega)) (.ok_bind (number_eq (by omega))
    (.ok_bind (number_eq (by omega)) (.ok_bind (number_eq (by omega))
      (.ok_bind (number_eq (by omega)) (.ok rfl)))))

theorem readCaa_sim (rdata : List UInt8) :
    Sim Fault.wire (fun a b ↦ a = b) (readCaa rdata) (Dns.readCaa rdata) := by
  match rdata with
  | [] => exact .error _
  | [_] => exact .error _
  | flags :: length :: rest =>
    refine (lift_sim _).bind fun tag _ _ htag heq ↦ ?_
    subst heq
    obtain ⟨-, hlength, -⟩ := range_bounds htag
    exact .ok_bind (between_length hlength) (.ok rfl)

theorem readMx_sim {start stop : ℕ} (hstart : start + rdata.length ≤ body.length) :
    Sim Fault.wire (fun a b ↦ a.1 = b) (readMx body rdata start stop)
      (Dns.readMx body rdata start stop) := by
  refine (short_sim body (by omega)).bind fun preference _ _ _ heq ↦ ?_
  obtain ⟨rfl, hlength⟩ := heq
  refine .ok_bind (sum_eq (by omega)) ?_
  refine (nameWithin_sim body _ _).bind fun exchange _ _ _ heq ↦ ?_
  subst heq
  exact .ok rfl

theorem readSrv_sim {start stop : ℕ}
    (hstart : start + rdata.length ≤ body.length) :
    Sim Fault.wire (fun a b ↦ a.1 = b) (readSrv body rdata start stop)
      (Dns.readSrv body rdata start stop) := by
  refine (short_sim body (by omega)).bind fun priority _ _ _ heq ↦ ?_
  obtain ⟨rfl, -⟩ := heq
  refine (short_sim body (by omega)).bind fun weight _ _ _ heq ↦ ?_
  obtain ⟨rfl, -⟩ := heq
  refine (short_sim body (by omega)).bind fun port _ _ _ heq ↦ ?_
  obtain ⟨rfl, hlength⟩ := heq
  refine .ok_bind (sum_eq (by omega)) ?_
  refine (nameWithin_sim body _ _).bind fun target _ _ _ heq ↦ ?_
  subst heq
  exact .ok rfl

theorem readData_sim {kind : UInt16} {start stop : ℕ} (hstart : start ≤ stop)
    (hstop : stop ≤ body.length) :
    Sim Fault.wire (fun a b ↦ a.1 = b) (readData body kind start stop)
      (Dns.readData body kind start stop) := by
  have hlength : start + ((body.drop start).take (stop - start)).length ≤ body.length := by
    rw [length_take, length_drop]
    omega
  refine .ok_bind (between_eq hstart hstop) ?_
  refine .ite (fun _ ↦ (lift_sim _).map fun a b h ↦ congrArg Data.a h) fun _ ↦ ?_
  refine .ite (fun _ ↦ (lift_sim _).map fun a b h ↦ congrArg Data.aaaa h) fun _ ↦ ?_
  refine .ite (fun _ ↦ (nameWithin_sim body start stop).map fun a b h ↦ congrArg Data.name h) fun _ ↦ ?_
  refine .ite (fun _ ↦ readMx_sim hlength) fun _ ↦ ?_
  refine .ite (fun _ ↦ (characterStrings_sim _).map fun a b h ↦ congrArg Data.txt h) fun _ ↦ ?_
  refine .ite (fun _ ↦ readSoa_sim body start stop) fun _ ↦ ?_
  refine .ite (fun _ ↦ readSrv_sim hlength) fun _ ↦ ?_
  exact .ite (fun _ ↦ (readCaa_sim _).map_left fun a b h ↦ h) fun _ ↦ .ok rfl

/-- Reading a record comes to what it does without faults, and its data ends in the message. -/
theorem readRecord_sim (body : List UInt8) (pos : ℕ) :
    Sim Fault.wire (fun a b ↦ (a.record, a.stop) = b ∧ a.stop ≤ body.length) (readRecord body pos)
      (Dns.readRecord body pos) := by
  refine (readName_sim body pos).bind fun name _ _ _ heq ↦ ?_
  obtain ⟨rfl, hname⟩ := heq
  refine .ok_bind (sum_eq (by omega)) ?_
  refine (lift_sim _).bind fun fixed _ _ hfixed heq ↦ ?_
  subst heq
  obtain ⟨-, hstart, hlength⟩ := range_bounds hfixed
  refine .ok_bind (word_eq (by omega)) (.ok_bind (number_eq (by omega))
    (.ok_bind (word_eq (by omega)) ?_))
  have hdata := (Dns.word fixed 8).toNat_lt
  refine .ok_bind (sum_eq (by omega)) ?_
  refine .ite (fun _ ↦ .error _) fun hstop ↦ ?_
  rw [Nat.not_lt] at hstop
  refine (readData_sim (Nat.le_add_right _ _) hstop).bind fun data _ _ _ heq ↦ ?_
  subst heq
  exact .ok ⟨rfl, hstop⟩

/-! ### Messages -/

theorem optionError_eq {value : List UInt8} (h : 2 ≤ value.length) : optionError value =
    .ok ⟨Dns.word value 0,
      Text.trimEndMatches (Char.ofNat 0) (Text.fromUtf8Lossy (value.drop 2))⟩ :=
  bind_ok.2 ⟨_, word_eq h, bind_ok.2 ⟨_, between_length h, rfl⟩⟩

/-- An option that is there goes through all its steps. -/
theorem optionErrors_some {options value : List UInt8} {rest : List ExtendedError}
    (hfour : 4 ≤ options.length)
    (hslice : slice options 4 (4 + (Dns.word options 2).toNat) = some value)
    (hrest : optionErrors body (options.drop (4 + (Dns.word options 2).toNat)) = .ok rest) :
    optionErrors body options = .ok
      (if Dns.word options 0 = 15 ∧ 2 ≤ value.length then
        ⟨Dns.word value 0, Text.trimEndMatches (Char.ofNat 0) (Text.fromUtf8Lossy (value.drop 2))⟩ ::
          rest
      else rest) := by
  have hlength := (Dns.word options 2).toNat_lt
  have hrange : range options 4 (4 + (Dns.word options 2).toNat) = .ok value := by rw [range, hslice]
  obtain ⟨-, hstop, -⟩ := range_bounds hrange
  rw [optionErrors, if_pos hfour]
  refine bind_ok.2 ⟨_, word_eq (by omega), bind_ok.2 ⟨_, word_eq (by omega),
    bind_ok.2 ⟨_, sum_eq (by omega), ?_⟩⟩⟩
  rw [hslice]
  by_cases herror : Dns.word options 0 = 15 ∧ 2 ≤ value.length
  · simp only [if_pos herror, optionError_eq herror.2]
    exact bind_ok.2 ⟨_, rfl, bind_ok.2 ⟨_, between_eq (Nat.zero_le _) hstop,
      bind_ok.2 ⟨_, hrest, rfl⟩⟩⟩
  · simp only [if_neg herror]
    exact bind_ok.2 ⟨_, rfl, bind_ok.2 ⟨_, between_eq (Nat.zero_le _) hstop,
      bind_ok.2 ⟨_, hrest, rfl⟩⟩⟩

theorem optionErrors_eq (body options : List UInt8) :
    optionErrors body options = .ok (Dns.optionErrors options) := by
  fun_induction Dns.optionErrors options with
  | case1 options hfour length hslice =>
    rw [optionErrors, if_pos hfour]
    have hlength := (Dns.word options 2).toNat_lt
    refine bind_ok.2 ⟨_, word_eq (by omega), bind_ok.2 ⟨_, word_eq (by omega),
      bind_ok.2 ⟨_, sum_eq (by omega), ?_⟩⟩⟩
    rw [hslice]
    rfl
  | case2 options hfour code length value hslice rest herror ih =>
    rw [optionErrors_some hfour hslice ih, if_pos herror]
  | case3 options hfour code length value hslice rest herror ih =>
    rw [optionErrors_some hfour hslice ih, if_neg herror]
  | case4 options hfour =>
    rw [optionErrors, if_neg hfour]
    rfl

theorem readErrors_eq (body : List UInt8) (authority left index pos : ℕ) :
    readErrors body authority left index pos = .ok (Dns.readErrors body authority left index pos) := by
  induction left generalizing index pos with
  | zero => rfl
  | succ left ih =>
    have hrecord := readRecord_sim body pos
    rw [readErrors, Dns.readErrors]
    generalize readRecord body pos = x at hrecord
    generalize Dns.readRecord body pos = y at hrecord
    cases hrecord with
    | error err => rfl
    | @ok read record hread =>
      obtain ⟨rfl, -⟩ := hread
      have hmore := ih (index + 1) read.stop
      simp only
      cases read.record.data with
      | other options =>
        by_cases hkept : authority ≤ index ∧ read.record.kind = 41
        · simp only [if_pos hkept]
          exact bind_ok.2 ⟨_, optionErrors_eq body options, bind_ok.2 ⟨_, hmore, rfl⟩⟩
        · simp only [if_neg hkept]
          exact bind_ok.2 ⟨_, rfl, bind_ok.2 ⟨_, hmore, rfl⟩⟩
      | _ => exact bind_ok.2 ⟨_, rfl, bind_ok.2 ⟨_, hmore, rfl⟩⟩

theorem readQuestions_sim (body : List UInt8) (left : ℕ) (first : Option Question) (pos : ℕ) :
    Sim Fault.wire (fun a b ↦ a = b) (readQuestions body left first pos)
      (Dns.readQuestions body left first pos) := by
  induction left generalizing first pos with
  | zero => exact .ok rfl
  | succ left ih =>
    refine (readName_sim body pos).bind fun name _ _ _ heq ↦ ?_
    obtain ⟨rfl, hname⟩ := heq
    refine .ok_bind (sum_eq (by omega)) ?_
    refine (lift_sim _).bind fun kind _ _ hkind heq ↦ ?_
    subst heq
    obtain ⟨-, -, hlength⟩ := range_bounds hkind
    exact .ok_bind (word_eq (by omega)) (.ok_bind (sum_eq (by omega)) (ih _ _))

theorem readAnswers_sim (body : List UInt8) (left pos : ℕ) :
    Sim Fault.wire (fun a b ↦ a = b) (readAnswers body left pos) (Dns.readAnswers body left pos) := by
  induction left generalizing pos with
  | zero => exact .ok rfl
  | succ left ih =>
    refine (readRecord_sim body pos).bind fun read _ _ _ heq ↦ ?_
    obtain ⟨rfl, -⟩ := heq
    refine (ih read.stop).bind fun more _ _ _ heq ↦ ?_
    subst heq
    exact .ok rfl

theorem parse_sim (body : List UInt8) :
    Sim Fault.wire (fun a b ↦ a = b) (parse body) (Dns.parse body) := by
  refine (lift_sim _).bind fun header _ _ hheader heq ↦ ?_
  subst heq
  obtain ⟨-, -, hlength⟩ := range_bounds hheader
  refine .ok_bind (word_eq (by omega)) (.ite (fun _ ↦ .error _) fun _ ↦ ?_)
  refine .ok_bind (word_eq (by omega)) ((readQuestions_sim body _ _ _).bind fun first _ _ _ heq ↦ ?_)
  subst heq
  refine .ok_bind (word_eq (by omega)) ((readAnswers_sim body _ _).bind fun answers _ _ _ heq ↦ ?_)
  subst heq
  exact .ok_bind (word_eq (by omega)) (.ok_bind (word_eq (by omega))
    (.ok_bind (word_eq (by omega)) (.ok_bind (readErrors_eq body _ _ _ _) (.ok rfl))))

theorem question_sim (body : List UInt8) :
    Sim Fault.wire (fun a b ↦ a = b) (question body) (Dns.question body) := by
  refine (lift_sim _).bind fun header _ _ hheader heq ↦ ?_
  subst heq
  obtain ⟨-, -, hlength⟩ := range_bounds hheader
  refine .ok_bind (word_eq (by omega)) (.ite (fun _ ↦ .error _) fun _ ↦ ?_)
  refine (readName_sim body 12).bind fun name _ _ _ heq ↦ ?_
  obtain ⟨rfl, hname⟩ := heq
  refine .ok_bind (sum_eq (by omega)) ?_
  refine (lift_sim _).bind fun kind _ _ hkind heq ↦ ?_
  subst heq
  obtain ⟨-, -, hlength⟩ := range_bounds hkind
  exact .ok_bind (word_eq (by omega)) (.ok rfl)

/-! ## What a name takes -/

end Checked

namespace Turn

def isLabel : Turn → Bool
  | .label _ _ => true
  | .pointer _ _ => false

/-- The octets a turn adds to the wire form. -/
def octets : Turn → ℕ
  | .label _ bytes => 1 + bytes.length
  | .pointer _ _ => 0

/-- The offset after what a turn takes. -/
def stop : Turn → ℕ
  | .label pos bytes => pos + (1 + bytes.length)
  | .pointer pos _ => pos + 2

/-- The label of a turn. -/
def text? : Turn → Option String
  | .label _ bytes => some (labelText bytes)
  | .pointer _ _ => none

end Turn

/-- The pointers that were followed. -/
def followed (turns : List Turn) : ℕ := turns.countP fun t ↦ !t.isLabel

/-- The octets of the labels in the wire form. -/
def labelOctets (turns : List Turn) : ℕ := (turns.map Turn.octets).sum

/-- The labels as text. -/
def labelTexts (turns : List Turn) : List String := turns.filterMap Turn.text?

section Counts

variable (turns : List Turn) (pos target : ℕ) (bytes : List UInt8)

@[simp] theorem followed_label : followed (.label pos bytes :: turns) = followed turns :=
  countP_cons_of_neg (by simp [Turn.isLabel])

@[simp] theorem followed_pointer : followed (.pointer pos target :: turns) = followed turns + 1 :=
  countP_cons_of_pos rfl

@[simp] theorem labelOctets_label :
    labelOctets (.label pos bytes :: turns) = 1 + bytes.length + labelOctets turns :=
  rfl

@[simp] theorem labelOctets_pointer :
    labelOctets (.pointer pos target :: turns) = labelOctets turns := by
  rw [labelOctets, map_cons, sum_cons, Turn.octets, Nat.zero_add, labelOctets]

@[simp] theorem labelTexts_label :
    labelTexts (.label pos bytes :: turns) = labelText bytes :: labelTexts turns :=
  rfl

@[simp] theorem labelTexts_pointer : labelTexts (.pointer pos target :: turns) = labelTexts turns :=
  rfl

end Counts

/-- The message has the name at `pos` in these turns, and goes on after it at `next`. -/
inductive Turns (body : List UInt8) : ℕ → List Turn → ℕ → Prop
  | root {pos : ℕ} : body[pos]? = some 0 → Turns body pos [] (pos + 1)
  | label {pos next : ℕ} {length : UInt8} {bytes : List UInt8} {turns : List Turn} :
    body[pos]? = some length → length ≠ 0 → length ≤ 63 →
    slice body (pos + 1) (pos + 1 + length.toNat) = some bytes →
    Turns body (pos + (1 + length.toNat)) turns next →
    Turns body pos (.label pos bytes :: turns) next
  | pointer {pos next : ℕ} {high low : UInt8} {turns : List Turn} :
    body[pos]? = some high → 0xC0 ≤ high → body[pos + 1]? = some low →
    Turns body (high.toNat % 64 * 256 + low.toNat) turns next →
    Turns body pos (.pointer pos (high.toNat % 64 * 256 + low.toNat) :: turns) (pos + 2)

/-- The labels that stand before a name's first pointer. -/
def inPlace (turns : List Turn) : List Turn := turns.takeWhile Turn.isLabel

section Turns

variable {body : List UInt8} {pos next : ℕ} {turns : List Turn}

theorem Turns.lt (h : Turns body pos turns next) : pos < next := by
  induction h with
  | root _ => exact Nat.lt_succ_self _
  | label _ _ _ _ _ ih => omega
  | pointer _ _ _ _ => omega

/-- Every label in place ends before the message goes on. -/
theorem Turns.inPlace_stop (h : Turns body pos turns next) : ∀ t ∈ inPlace turns, t.stop < next := by
  induction h with
  | root _ => exact nofun
  | label _ _ _ hslice hturns ih =>
    have hlength := length_of_slice hslice
    rw [inPlace, takeWhile_cons_of_pos rfl, forall_mem_cons]
    refine ⟨?_, ih⟩
    have hlt := hturns.lt
    rw [Turn.stop]
    omega
  | pointer _ _ _ _ => exact fun t ht ↦ absurd ht (by simp [inPlace, Turn.isLabel])

end Turns

namespace Checked

variable {body : List UInt8} {pos : ℕ}

theorem readLabel_ok {length : UInt8} {label : List UInt8} {next : ℕ}
    (hget : body[pos]? = some length) (hlength : length ≤ 63)
    (h : readLabel body pos length = .ok (label, next)) :
    slice body (pos + 1) (pos + 1 + length.toNat) = some label ∧
      next = pos + (1 + length.toNat) := by
  rw [readLabel_eq (List.getElem?_eq_some_iff.1 hget).1 hlength, range] at h
  cases hslice : slice body (pos + 1) (pos + 1 + length.toNat) with
  | none =>
    rw [hslice] at h
    cases h
  | some bytes =>
    rw [hslice] at h
    cases h
    exact ⟨rfl, rfl⟩

theorem readLow_ok {length low : UInt8} (hget : body[pos]? = some length)
    (h : readLow body pos = .ok low) : body[pos + 1]? = some low := by
  rw [readLow_eq (List.getElem?_eq_some_iff.1 hget).1] at h
  cases hlow : body[pos + 1]? with
  | none =>
    rw [hlow] at h
    cases h
  | some byte =>
    rw [hlow] at h
    cases h
    rfl

theorem sum_ok {a b n : ℕ} (h : sum body a b = .ok n) : n = a + b := by
  rw [sum] at h
  split at h
  · exact (Except.ok.inj h).symm
  · cases h

/-- However it ends, reading a name follows so many pointers and takes so many octets at most. -/
theorem readLabels_limits {labels : List String} {resume : Option ℕ} {pointers octets : ℕ}
    (hpointers : pointers ≤ maxPointers) (hoctets : octets ≤ maxNameOctets) :
    pointers + followed (readLabels body pos labels resume pointers octets).turns ≤ maxPointers ∧
      octets + labelOctets (readLabels body pos labels resume pointers octets).turns ≤
        maxNameOctets := by
  fun_induction readLabels body pos labels resume pointers octets with
  | case5 pos labels resume pointers octets length hget hzero hlabel hlong label next hread more ih =>
    obtain ⟨hslice, -⟩ := readLabel_ok hget hlabel hread
    have hlength := length_of_slice hslice
    obtain ⟨hfollowed, hlimit⟩ : pointers + followed more.turns ≤ maxPointers ∧
        octets + (1 + length.toNat) + labelOctets more.turns ≤ maxNameOctets :=
      ih hpointers (by omega)
    refine ⟨hfollowed, ?_⟩
    show octets + labelOctets (.label pos label :: more.turns) ≤ maxNameOctets
    rw [labelOctets_label]
    omega
  | case9 pos labels resume pointers octets length hget hzero hlabel hmark low hlow hmany next hnext
      target more ih =>
    obtain ⟨hfollowed, hlimit⟩ : pointers + 1 + followed more.turns ≤ maxPointers ∧
        octets + labelOctets more.turns ≤ maxNameOctets :=
      ih (by omega) hoctets
    show pointers + followed (.pointer pos target :: more.turns) ≤ maxPointers ∧
      octets + labelOctets (.pointer pos target :: more.turns) ≤ maxNameOctets
    rw [followed_pointer, labelOctets_pointer]
    omega
  | _ => exact ⟨hpointers, hoctets⟩

theorem readName_limits (body : List UInt8) (pos : ℕ) :
    followed (readName body pos).turns ≤ maxPointers ∧
      1 + labelOctets (readName body pos).turns ≤ maxNameOctets := by
  obtain ⟨hfollowed, hoctets⟩ : 0 + followed (readName body pos).turns ≤ maxPointers ∧
      1 + labelOctets (readName body pos).turns ≤ maxNameOctets :=
    readLabels_limits (Nat.zero_le _) (by decide)
  rw [Nat.zero_add] at hfollowed
  exact ⟨hfollowed, hoctets⟩

/-- A name that is read is in the message as its turns say. -/
theorem readLabels_turns {labels : List String} {resume : Option ℕ} {pointers octets : ℕ}
    {read : String × ℕ}
    (h : (readLabels body pos labels resume pointers octets).result = .ok read) :
    ∃ next, Turns body pos (readLabels body pos labels resume pointers octets).turns next ∧
      read = (nameText (labels ++
        labelTexts (readLabels body pos labels resume pointers octets).turns), resume.getD next) := by
  fun_induction readLabels body pos labels resume pointers octets with
  | case2 pos labels resume pointers octets hget =>
    have hpos := (List.getElem?_eq_some_iff.1 hget).1
    rw [sum_eq (by omega)] at h
    cases h
    exact ⟨_, .root hget, by rw [labelTexts, List.filterMap_nil, List.append_nil]⟩
  | case5 pos labels resume pointers octets length hget hzero hlabel hlong label next hread more ih =>
    obtain ⟨hslice, rfl⟩ := readLabel_ok hget hlabel hread
    obtain ⟨next, hturns, hname⟩ := ih h
    refine ⟨next, .label hget hzero hlabel hslice hturns, ?_⟩
    rw [hname, List.append_assoc]
    rfl
  | case9 pos labels resume pointers octets length hget hzero hlabel hmark low hlow hmany next hnext
      target more ih =>
    obtain rfl := sum_ok hnext
    obtain ⟨after, hturns, hname⟩ := ih h
    refine ⟨_, .pointer hget hmark (readLow_ok hget hlow) hturns, ?_⟩
    rw [hname]
    rfl
  | _ => cases h

/-- What it means for a name that was read: its turns are in the message, and it is their labels. -/
theorem readName_turns {read : String × ℕ} (h : (readName body pos).result = .ok read) :
    Turns body pos (readName body pos).turns read.2 ∧
      read.1 = nameText (labelTexts (readName body pos).turns) := by
  obtain ⟨next, hturns, rfl⟩ := readLabels_turns h
  exact ⟨hturns, rfl⟩

end Checked

/-- The names that data holds. -/
def Data.names : Data → List String
  | .name target => [target]
  | .mx _ exchange => [exchange]
  | .soa mname rname .. => [mname, rname]
  | .srv _ _ _ target => [target]
  | _ => []

/-- The names of the data are those the turns spell, none of which goes past `stop`. -/
structure NamesBy (body : List UInt8) (stop : ℕ) (data : Data) (names : List (List Turn)) : Prop where
  spelled : data.names = names.map fun turns ↦ nameText (labelTexts turns)
  within : ∀ turns ∈ names, ∃ start next, Turns body start turns next ∧ next ≤ stop

namespace Checked

variable {body : List UInt8} {pos start stop : ℕ}

theorem nameWithin_ok {read : String × List Turn} (h : nameWithin body start stop = .ok read) :
    read.1 = nameText (labelTexts read.2) ∧ ∃ next, Turns body start read.2 next ∧ next ≤ stop := by
  rw [nameWithin] at h
  split at h
  · cases h
  · obtain ⟨name, hname, h⟩ := bind_ok.1 h
    obtain ⟨hturns, htext⟩ := readName_turns hname
    split at h
    · cases h
    · rename_i hstop
      cases h
      exact ⟨htext, name.2, hturns, Nat.not_lt.1 hstop⟩

theorem readSoa_names {read : Data × List (List Turn)} (h : readSoa body start stop = .ok read) :
    NamesBy body stop read.1 read.2 := by
  obtain ⟨mname, hmname, h⟩ := bind_ok.1 h
  obtain ⟨rname, hrname, h⟩ := bind_ok.1 h
  obtain ⟨hturns, htext⟩ := readName_turns hmname
  obtain ⟨hturns', htext'⟩ := readName_turns hrname
  obtain ⟨last, hlast, h⟩ := bind_ok.1 h
  obtain ⟨numbers, -, h⟩ := bind_ok.1 h
  obtain rfl := sum_ok hlast
  dsimp only at h
  split at h
  · cases h
  rename_i hstop
  obtain ⟨serial, -, h⟩ := bind_ok.1 h
  obtain ⟨refresh, -, h⟩ := bind_ok.1 h
  obtain ⟨retry, -, h⟩ := bind_ok.1 h
  obtain ⟨expire, -, h⟩ := bind_ok.1 h
  obtain ⟨minimum, -, h⟩ := bind_ok.1 h
  cases h
  refine ⟨by rw [Data.names, htext, htext']; rfl, ?_⟩
  -- The second name starts where the first ends, and the numbers stand after it.
  have hlt := hturns'.lt
  simp only [forall_mem_cons]
  exact ⟨⟨_, _, hturns, by omega⟩, ⟨_, _, hturns', by omega⟩, nofun⟩

theorem names_none {data : Data} (h : data.names = []) : NamesBy body stop data [] :=
  ⟨h, nofun⟩

theorem names_single {data : Data} {name : String × List Turn} (h : data.names = [name.1])
    (hname : nameWithin body start stop = .ok name) : NamesBy body stop data [name.2] := by
  obtain ⟨htext, next, hturns, hnext⟩ := nameWithin_ok hname
  refine ⟨by rw [h, htext]; rfl, fun turns hmem ↦ ?_⟩
  obtain rfl := mem_singleton.1 hmem
  exact ⟨start, next, hturns, hnext⟩

variable {rdata : List UInt8}

theorem readMx_names {read : Data × List (List Turn)}
    (h : readMx body rdata start stop = .ok read) : NamesBy body stop read.1 read.2 := by
  obtain ⟨preference, -, h⟩ := bind_ok.1 h
  obtain ⟨place, -, h⟩ := bind_ok.1 h
  obtain ⟨exchange, hexchange, h⟩ := bind_ok.1 h
  cases h
  exact names_single rfl hexchange

theorem readSrv_names {read : Data × List (List Turn)}
    (h : readSrv body rdata start stop = .ok read) : NamesBy body stop read.1 read.2 := by
  obtain ⟨priority, -, h⟩ := bind_ok.1 h
  obtain ⟨weight, -, h⟩ := bind_ok.1 h
  obtain ⟨port, -, h⟩ := bind_ok.1 h
  obtain ⟨place, -, h⟩ := bind_ok.1 h
  obtain ⟨target, htarget, h⟩ := bind_ok.1 h
  cases h
  exact names_single rfl htarget

theorem readCaa_names {data : Data} (h : readCaa rdata = .ok data) :
    data.names = [] := by
  match rdata, h with
  | flags :: length :: rest, h =>
    obtain ⟨tag, -, h⟩ := bind_ok.1 h
    obtain ⟨value, -, h⟩ := bind_ok.1 h
    cases h
    rfl

theorem readData_names {kind : UInt16} {read : Data × List (List Turn)}
    (h : readData body kind start stop = .ok read) : NamesBy body stop read.1 read.2 := by
  obtain ⟨rdata, -, h⟩ := bind_ok.1 h
  split at h
  · obtain ⟨a, -, rfl⟩ := map_eq_ok.1 h
    exact names_none rfl
  split at h
  · obtain ⟨a, -, rfl⟩ := map_eq_ok.1 h
    exact names_none rfl
  split at h
  · obtain ⟨name, hname, rfl⟩ := map_eq_ok.1 h
    exact names_single rfl hname
  split at h
  · exact readMx_names h
  split at h
  · obtain ⟨strings, -, rfl⟩ := map_eq_ok.1 h
    exact names_none rfl
  split at h
  · exact readSoa_names h
  split at h
  · exact readSrv_names h
  split at h
  · obtain ⟨data, hdata, rfl⟩ := map_eq_ok.1 h
    exact names_none (readCaa_names hdata)
  · cases h
    exact names_none rfl

/-- **The names of a record** are in the message as their turns say, and end where its data ends, or
before. -/
theorem readRecord_names {read : RecordRead} (h : readRecord body pos = .ok read) :
    NamesBy body read.stop read.record.data read.names ∧
      ∃ next, Turns body pos read.owner next ∧ next ≤ read.stop := by
  obtain ⟨name, hname, h⟩ := bind_ok.1 h
  obtain ⟨start, hstart, h⟩ := bind_ok.1 h
  obtain ⟨fixed, -, h⟩ := bind_ok.1 h
  obtain ⟨kind, -, h⟩ := bind_ok.1 h
  obtain ⟨ttl, -, h⟩ := bind_ok.1 h
  obtain ⟨length, -, h⟩ := bind_ok.1 h
  obtain ⟨stop, hstop, h⟩ := bind_ok.1 h
  split at h
  · cases h
  · obtain ⟨data, hdata, h⟩ := bind_ok.1 h
    cases h
    obtain rfl := sum_ok hstart
    obtain rfl := sum_ok hstop
    exact ⟨readData_names hdata, name.2, (readName_turns hname).1, by simp only; omega⟩

/-- **No reader leaves the message**, whatever is in it: each comes to what it does without faults,
so that none of the faults comes.  Reading a name follows at most `maxPointers` pointers and takes
labels of at most `maxNameOctets` octets, however it ends; a name that is read is what its turns
spell; and the names of a record have no label past the end of its data but by a pointer. -/
theorem parse_checked (body : List UInt8) :
    parse body = lift (Dns.parse body) ∧ question body = lift (Dns.question body) ∧
      (∀ pos, (readName body pos).result = lift (Dns.readName body pos) ∧
        followed (readName body pos).turns ≤ maxPointers ∧
        1 + labelOctets (readName body pos).turns ≤ maxNameOctets ∧
        ∀ read, (readName body pos).result = .ok read →
          Turns body pos (readName body pos).turns read.2 ∧
            read.1 = nameText (labelTexts (readName body pos).turns)) ∧
      ∀ pos read, readRecord body pos = .ok read →
        read.record.data.names = (read.names.map fun turns ↦ nameText (labelTexts turns)) ∧
          ∀ turns ∈ read.owner :: read.names, ∀ t ∈ inPlace turns, t.stop ≤ read.stop := by
  refine ⟨(parse_sim body).eq_mapError, (question_sim body).eq_mapError, fun pos ↦ ?_,
    fun pos read hread ↦ ?_⟩
  · obtain ⟨hfollowed, hoctets⟩ := readName_limits body pos
    exact ⟨((readName_sim body pos).mono fun a b h ↦ h.1).eq_mapError, hfollowed, hoctets,
      fun read hread ↦ readName_turns hread⟩
  · obtain ⟨hnames, next, hturns, hnext⟩ := readRecord_names hread
    refine ⟨hnames.spelled, forall_mem_cons.2 ⟨fun t ht ↦ ?_, fun turns hmem t ht ↦ ?_⟩⟩
    · exact Nat.le_trans (Nat.le_of_lt (hturns.inPlace_stop t ht)) hnext
    · obtain ⟨start, next, hturns, hnext⟩ := hnames.within turns hmem
      exact Nat.le_trans (Nat.le_of_lt (hturns.inPlace_stop t ht)) hnext

end Checked

end Huntsman.Dns
