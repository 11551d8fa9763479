import Huntsman.Dns.Layout
import Huntsman.Lib.Refusal
import Mathlib.Data.Nat.Bitwise

/-!
# Reading undoes laying out

Each reader, at a place where the message holds the wire form of something, answers what that says
and the place just past it; a message is read part by part in the order it was laid out.  Put
together, `parse` undoes `Layout.bytes`, compressed or not and whatever follows (`parse_layout`).
-/

set_option autoImplicit false

namespace Huntsman.Dns

open Bytes Except List

variable {body : List UInt8} {pos : ℕ}

/-! ## Names -/

theorem length_toNat {l : List UInt8} (h : l.length < 2 ^ 8) :
    (UInt8.ofNat l.length).toNat = l.length := by
  rw [UInt8.toNat_ofNat']
  exact Nat.mod_eq_of_lt h

theorem labelsBytes_cons (l : List UInt8) (ls : List (List UInt8)) :
    labelsBytes (l :: ls) = UInt8.ofNat l.length :: (l ++ labelsBytes ls) := by
  simp [labelsBytes]

theorem labelsBytes_length (ls : List (List UInt8)) :
    (labelsBytes ls).length = (ls.map fun l ↦ 1 + l.length).sum := by
  induction ls with
  | nil => rfl
  | cons l ls ih =>
    rw [labelsBytes_cons, length_cons, length_append, ih, map_cons, sum_cons]
    omega

variable {labels : List String} {resume : Option ℕ} {pointers : ℕ}

/-- Labels are read one after the other, as long as they fit in a name. -/
theorem readLabels_labels {ls : List (List UInt8)}
    {octets : ℕ} (hsized : ∀ l ∈ ls, 1 ≤ l.length ∧ l.length ≤ 63)
    (hshort : octets + (ls.map fun l ↦ 1 + l.length).sum ≤ maxNameOctets)
    (h : Holds body pos (labelsBytes ls)) :
    readLabels body pos labels resume pointers octets =
      readLabels body (pos + (labelsBytes ls).length) (labels ++ ls.map labelText) resume pointers
        (octets + (ls.map fun l ↦ 1 + l.length).sum) := by
  induction ls generalizing pos labels octets with
  | nil => simp [labelsBytes]
  | cons l ls ih =>
    rw [labelsBytes_cons] at h ⊢
    rw [forall_mem_cons] at hsized
    simp only [map_cons, sum_cons] at hshort ⊢
    obtain ⟨hone, hmany⟩ := hsized.1
    have hlen : (UInt8.ofNat l.length).toNat = l.length := length_toNat (by omega)
    have hzero : UInt8.ofNat l.length ≠ 0 := fun heq ↦ by
      rw [heq] at hlen
      have : (0 : UInt8).toNat = 0 := rfl
      omega
    have hle : UInt8.ofNat l.length ≤ 63 := by
      rw [UInt8.le_iff_toNat_le, hlen]
      exact hmany
    have hlabel := h.tail.left.slice
    rw [readLabels, h.head]
    simp only [hlen, if_neg hzero, if_pos hle]
    rw [if_neg (by omega), hlabel]
    simp only
    have htail : Holds body (pos + (1 + l.length)) (labelsBytes ls) := by
      rw [← Nat.add_assoc]
      exact h.tail.right
    rw [ih hsized.2 (by omega) htail, length_cons, length_append, append_assoc,
      singleton_append]
    congr 1 <;> omega

/-- The root's zero octet ends a name. -/
theorem readLabels_end {octets : ℕ}
    (h : Holds body pos [0]) : readLabels body pos labels resume pointers octets =
      .ok (nameText labels, resume.getD (pos + 1)) := by
  rw [readLabels, h.head]
  rfl

/-- A pointer goes on with the labels it points to. -/
theorem readLabels_pointer {octets offset : ℕ}
    (hoffset : offset < 2 ^ 14) (hpointers : pointers < maxPointers)
    (h : Holds body pos (pointerBytes offset)) :
    readLabels body pos labels resume pointers octets =
      readLabels body offset labels (some (resume.getD (pos + 2))) (pointers + 1) octets := by
  have hhigh : (UInt8.ofNat (0xC0 + offset / 256)).toNat = 0xC0 + offset / 256 := by
    rw [UInt8.toNat_ofNat']
    omega
  have hzero : UInt8.ofNat (0xC0 + offset / 256) ≠ 0 := fun heq ↦ by
    rw [heq] at hhigh
    have : (0 : UInt8).toNat = 0 := rfl
    omega
  have hmany : ¬ UInt8.ofNat (0xC0 + offset / 256) ≤ 63 := by
    rw [UInt8.le_iff_toNat_le, hhigh]
    have : (63 : UInt8).toNat = 63 := rfl
    omega
  have hmark : 0xC0 ≤ UInt8.ofNat (0xC0 + offset / 256) := by
    rw [UInt8.le_iff_toNat_le, hhigh]
    exact Nat.le_add_right _ _
  have hto : (0xC0 + offset / 256) % 64 * 256 + (UInt8.ofNat offset).toNat = offset := by
    rw [UInt8.toNat_ofNat']
    omega
  rw [readLabels, h.head]
  simp only [if_neg hzero, if_neg hmany, if_pos hmark]
  rw [h.tail.head]
  simp only [hhigh, hto]
  rw [if_neg (by omega)]

theorem Name.take_short (n : Name) (kept : ℕ) :
    1 + ((n.labels.take kept).map fun l ↦ 1 + l.length).sum +
      ((n.labels.drop kept).map fun l ↦ 1 + l.length).sum ≤ maxNameOctets := by
  have h := n.short
  rw [← take_append_drop kept n.labels, map_append, sum_append] at h
  omega

/-- **A name is read as it was written**, whole or cut short by a pointer to its rest. -/
theorem readName_spelled {s : Spelled} (hpointed : s.Pointed body) (h : Holds body pos s.bytes) :
    readName body pos = .ok (s.text, pos + s.bytes.length) := by
  obtain ⟨n, cut⟩ := s
  match cut with
  | none =>
    have h : Holds body pos (labelsBytes n.labels ++ [0]) := h
    rw [readName, readLabels_labels n.sized n.short h.left, readLabels_end h.right]
    show Except.ok (nameText ([] ++ n.labels.map labelText), _) = _
    rw [nil_append, Option.getD_none, Nat.add_assoc]
    simp [Spelled.text, Spelled.bytes, wholeBytes]
  | some (kept, offset) =>
    have h : Holds body pos (labelsBytes (n.labels.take kept) ++ pointerBytes offset) := h
    obtain ⟨hoffset, hrest⟩ := hpointed kept offset rfl
    have hshort := n.take_short kept
    have htake : ∀ l ∈ n.labels.take kept, 1 ≤ l.length ∧ l.length ≤ 63 :=
      fun l hl ↦ n.sized l (mem_of_mem_take hl)
    have hdrop : ∀ l ∈ n.labels.drop kept, 1 ≤ l.length ∧ l.length ≤ 63 :=
      fun l hl ↦ n.sized l (mem_of_mem_drop hl)
    rw [readName, readLabels_labels htake (by omega) h.left,
      readLabels_pointer hoffset (by decide) h.right,
      readLabels_labels hdrop hshort hrest.left, readLabels_end hrest.right]
    rw [nil_append, ← map_append, take_append_drop, Option.getD_some,
      Option.getD_none, Nat.add_assoc]
    simp [Spelled.text, Spelled.bytes, pointerBytes]

theorem Spelled.bytes_length (s : Spelled) : 1 ≤ s.bytes.length ∧ s.bytes.length ≤ 257 := by
  obtain ⟨n, cut⟩ := s
  have hmax : maxNameOctets = 255 := rfl
  match cut with
  | none =>
    have hshort := n.short
    rw [← labelsBytes_length] at hshort
    simp only [bytes, wholeBytes, length_append, length_singleton]
    omega
  | some (kept, offset) =>
    have hshort := n.take_short kept
    rw [← labelsBytes_length, ← labelsBytes_length] at hshort
    simp only [bytes, pointerBytes, length_append, length_cons, length_nil]
    omega

theorem nameWithin_spelled {s : Spelled} (hpointed : s.Pointed body) (h : Holds body pos s.bytes) :
    nameWithin body pos (pos + s.bytes.length) = .ok s.text := by
  have hlen := s.bytes_length
  rw [nameWithin, if_neg (by omega)]
  refine bind_ok.2 ⟨_, readName_spelled hpointed h, ?_⟩
  rw [if_neg (by simp)]
  rfl

/-! ## Records -/

theorem range_holds {bytes : List UInt8} (h : Holds body pos bytes) :
    range body pos (pos + bytes.length) = .ok bytes := by
  rw [range, h.slice]

/-- The start of a list of bytes. -/
theorem range_prefix (bytes more : List UInt8) :
    range (bytes ++ more) 0 bytes.length = .ok bytes := by
  have h := range_holds (holds_self bytes more)
  rwa [Nat.zero_add] at h

theorem short_holds {rdata more : List UInt8} {w : UInt16}
    (h : Holds rdata pos (bytes16 w ++ more)) : short rdata pos = .ok w := by
  refine bind_ok.2 ⟨_, range_holds h.left, ?_⟩
  exact congrArg Except.ok (word16_bytes w)

theorem characterStrings_bytes {strings : List (List UInt8)}
    (hfits : ∀ s ∈ strings, s.length < 2 ^ 8) :
    characterStrings (labelsBytes strings) = .ok (strings.map Text.fromUtf8Lossy) := by
  induction strings with
  | nil =>
    rw [labelsBytes, flatMap_nil, characterStrings]
    rfl
  | cons s rest ih =>
    rw [forall_mem_cons] at hfits
    rw [labelsBytes_cons, characterStrings, length_toNat hfits.1, drop_left]
    refine bind_ok.2 ⟨s, range_prefix _ _, bind_ok.2 ⟨_, ih hfits.2, rfl⟩⟩

theorem readCaa_bytes {flags : UInt8} {tag value : List UInt8} (hfits : tag.length < 2 ^ 8) :
    readCaa (flags :: UInt8.ofNat tag.length :: (tag ++ value)) =
      .ok (.caa flags (Text.fromUtf8Lossy tag) (Text.fromUtf8Lossy value)) := by
  rw [readCaa, length_toNat hfits, drop_left]
  exact bind_ok.2 ⟨tag, range_prefix _ _, rfl⟩

theorem address_holds {n : ℕ} (v : List.Vector UInt8 n) : address n v.toList = .ok v := by
  obtain ⟨l, hl⟩ := v
  exact dif_pos hl

theorem readSoa_holds {mname rname : Spelled} {serial refresh retry expire minimum : UInt32}
    (hm : mname.Pointed body) (hr : rname.Pointed body)
    (h : Holds body pos
      (Rdata.soa mname rname serial refresh retry expire minimum).bytes) :
    readSoa body pos (pos + (Rdata.soa mname rname serial refresh retry expire minimum).bytes.length) =
      .ok (.soa mname.text rname.text serial refresh retry expire minimum) := by
  rw [Rdata.bytes] at h ⊢
  refine bind_ok.2 ⟨_, readName_spelled hm h.left,
    bind_ok.2 ⟨_, readName_spelled hr h.right.left,
      bind_ok.2 ⟨_, range_holds h.right.right, ?_⟩⟩⟩
  rw [if_neg (by simp only [length_append, bytes32_length]; omega)]
  show Except.ok (Data.soa mname.text rname.text (word32 _ _ _ _) (word32 _ _ _ _)
    (word32 _ _ _ _) (word32 _ _ _ _) (word32 _ _ _ _)) = _
  congr 2
  · exact word32_bytes serial
  · exact word32_bytes refresh
  · exact word32_bytes retry
  · exact word32_bytes expire
  · exact word32_bytes minimum

theorem readMx_holds {preference : UInt16} {exchange : Spelled} (hx : exchange.Pointed body)
    (h : Holds body pos (bytes16 preference ++ exchange.bytes)) :
    readMx body (bytes16 preference ++ exchange.bytes) pos
        (pos + (bytes16 preference ++ exchange.bytes).length) =
      .ok (.mx preference exchange.text) := by
  have hself : Holds (bytes16 preference ++ exchange.bytes) 0
      (bytes16 preference ++ exchange.bytes) := by
    have := holds_self (bytes16 preference ++ exchange.bytes) []
    rwa [append_nil] at this
  have hname := nameWithin_spelled hx h.right
  rw [length_append, ← Nat.add_assoc]
  exact bind_ok.2 ⟨_, short_holds hself, bind_ok.2 ⟨_, hname, rfl⟩⟩

theorem readSrv_holds {priority weight port : UInt16} {target : Spelled} (ht : target.Pointed body)
    (h : Holds body pos (bytes16 priority ++ (bytes16 weight ++ (bytes16 port ++ target.bytes)))) :
    readSrv body (bytes16 priority ++ (bytes16 weight ++ (bytes16 port ++ target.bytes))) pos
        (pos + (bytes16 priority ++ (bytes16 weight ++ (bytes16 port ++ target.bytes))).length) =
      .ok (.srv priority weight port target.text) := by
  have hself : Holds (bytes16 priority ++ (bytes16 weight ++ (bytes16 port ++ target.bytes))) 0
      (bytes16 priority ++ (bytes16 weight ++ (bytes16 port ++ target.bytes))) := by
    have := holds_self
      (bytes16 priority ++ (bytes16 weight ++ (bytes16 port ++ target.bytes))) []
    rwa [append_nil] at this
  have hname := nameWithin_spelled ht h.right.right.right
  simp only [length_append, bytes16_length, ← Nat.add_assoc] at hname ⊢
  exact bind_ok.2 ⟨_, short_holds hself, bind_ok.2 ⟨_, short_holds hself.right,
    bind_ok.2 ⟨_, short_holds hself.right.right, bind_ok.2 ⟨_, hname, rfl⟩⟩⟩⟩

/-- **A record's data is read as what it says**, by its type. -/
theorem readData_holds {d : Rdata} (hfits : d.Fits) (hpointed : ∀ s ∈ d.names, s.Pointed body)
    (h : Holds body pos d.bytes) :
    readData body d.kind pos (pos + d.bytes.length) = .ok d.data := by
  have hrdata : (body.drop pos).take (pos + d.bytes.length - pos) = d.bytes := by
    obtain ⟨-, more, hmore⟩ := h
    rw [← hmore, Nat.add_sub_cancel_left, take_left]
  unfold readData
  simp only [hrdata]
  cases d with
  | a v =>
    rw [Rdata.bytes, address_holds]
    rfl
  | aaaa v =>
    rw [Rdata.bytes, address_holds]
    rfl
  | name kind target =>
    have hname := nameWithin_spelled (hpointed target (.head _)) h
    rw [Rdata.bytes, hname]
    cases kind <;> rfl
  | mx preference exchange =>
    have h : Holds body pos (bytes16 preference ++ exchange.bytes) := h
    exact readMx_holds (hpointed exchange (.head _)) h
  | txt strings =>
    rw [Rdata.bytes, characterStrings_bytes hfits.1]
    rfl
  | soa mname rname serial refresh retry expire minimum =>
    exact readSoa_holds (hpointed mname (by simp [Rdata.names])) (hpointed rname (by simp [Rdata.names])) h
  | srv priority weight port target =>
    have h : Holds body pos
        (bytes16 priority ++ (bytes16 weight ++ (bytes16 port ++ target.bytes))) := h
    exact readSrv_holds (hpointed target (.head _)) h
  | caa flags tag value => exact readCaa_bytes hfits.1
  | other kind bytes =>
    obtain ⟨hkind, -⟩ := hfits
    simp only [knownKinds, mem_cons, not_mem_nil, or_false, not_or] at hkind
    simp only [Rdata.kind, hkind, or_self, if_false]
    rfl

theorem Rdata.bytes_length {d : Rdata} (hfits : d.Fits) : d.bytes.length < 2 ^ 16 := by
  cases d with
  | a v => simp [Rdata.bytes]
  | aaaa v => simp [Rdata.bytes]
  | name kind target =>
    have := target.bytes_length
    simp only [Rdata.bytes]
    omega
  | mx preference exchange =>
    have := exchange.bytes_length
    simp only [Rdata.bytes, length_append, bytes16_length]
    omega
  | txt strings =>
    rw [Rdata.bytes, labelsBytes_length]
    exact hfits.2
  | soa mname rname serial refresh retry expire minimum =>
    have hm := mname.bytes_length
    have hr := rname.bytes_length
    simp only [Rdata.bytes, length_append, bytes32_length]
    omega
  | srv priority weight port target =>
    have := target.bytes_length
    simp only [Rdata.bytes, length_append, bytes16_length]
    omega
  | caa flags tag value =>
    have := hfits.2
    simp only [Rdata.bytes, length_append, length_cons]
    omega
  | other kind bytes => exact hfits.2

/-- **A record is read as what it says**, and the message goes on after it. -/
theorem readRecord_holds {r : Answer} (hpointed : ∀ s ∈ r.names, s.Pointed body)
    (h : Holds body pos r.bytes) :
    readRecord body pos = .ok (r.record, pos + r.bytes.length) := by
  rw [Answer.names, forall_mem_cons] at hpointed
  have hname := readName_spelled hpointed.1 h.left
  have hdata := readData_holds r.fits hpointed.2 h.right.right
  have hlen : (UInt16.ofNat r.rdata.bytes.length).toNat = r.rdata.bytes.length := by
    rw [UInt16.toNat_ofNat']
    exact Nat.mod_eq_of_lt (Rdata.bytes_length r.fits)
  have hle := h.right.right.le
  have hkind : word (bytes16 r.rdata.kind ++ (bytes16 r.cls ++ (bytes32 r.ttl ++
      bytes16 (UInt16.ofNat r.rdata.bytes.length)))) 0 = r.rdata.kind := word16_bytes _
  have httl : number (bytes16 r.rdata.kind ++ (bytes16 r.cls ++ (bytes32 r.ttl ++
      bytes16 (UInt16.ofNat r.rdata.bytes.length)))) 4 = r.ttl := word32_bytes _
  have hrest : word (bytes16 r.rdata.kind ++ (bytes16 r.cls ++ (bytes32 r.ttl ++
      bytes16 (UInt16.ofNat r.rdata.bytes.length)))) 8 = UInt16.ofNat r.rdata.bytes.length :=
    word16_bytes _
  refine bind_ok.2 ⟨_, hname, bind_ok.2 ⟨_, range_holds h.right.left, ?_⟩⟩
  simp only [length_append, bytes16_length, bytes32_length] at hle hdata
  rw [hkind, httl, hrest, hlen, if_neg (by omega)]
  refine bind_ok.2 ⟨_, hdata, ?_⟩
  show Except.ok (r.record, _) = _
  congr 2
  simp only [Answer.bytes, length_append, bytes16_length, bytes32_length]
  omega

/-! ## Messages -/

theorem readAnswers_holds {answers : List Answer}
    (hpointed : ∀ r ∈ answers, ∀ s ∈ r.names, s.Pointed body)
    (h : Holds body pos (answers.flatMap Answer.bytes)) :
    readAnswers body answers.length pos =
      .ok (answers.map Answer.record, pos + (answers.flatMap Answer.bytes).length) := by
  induction answers generalizing pos with
  | nil => rfl
  | cons r rest ih =>
    rw [forall_mem_cons] at hpointed
    rw [flatMap_cons] at h ⊢
    refine bind_ok.2 ⟨_, readRecord_holds hpointed.1 h.left,
      bind_ok.2 ⟨_, ih hpointed.2 h.right, ?_⟩⟩
    rw [length_append, ← Nat.add_assoc]
    rfl

theorem readQuestions_holds {questions : List Asked} (first : Option Question)
    (hpointed : ∀ q ∈ questions, q.name.Pointed body)
    (h : Holds body pos (questions.flatMap Asked.bytes)) :
    readQuestions body questions.length first pos =
      .ok (first.or (questions.head?.map Asked.question),
        pos + (questions.flatMap Asked.bytes).length) := by
  induction questions generalizing pos first with
  | nil => simp [readQuestions]
  | cons q rest ih =>
    rw [forall_mem_cons] at hpointed
    rw [flatMap_cons] at h ⊢
    have hname := readName_spelled hpointed.1 h.left.left
    have hkind : word (bytes16 q.kind ++ bytes16 q.cls) 0 = q.kind := word16_bytes _
    have hrest := ih (some (first.getD q.question)) hpointed.2 h.right
    refine bind_ok.2 ⟨_, hname, bind_ok.2 ⟨_, range_holds h.left.right, ?_⟩⟩
    rw [hkind]
    have hlen : pos + q.name.bytes.length + 4 = pos + q.bytes.length := by
      simp only [Asked.bytes, length_append, bytes16_length]
      omega
    rw [hlen]
    refine hrest.trans ?_
    rw [length_append, Nat.add_assoc]
    cases first <;> rfl

theorem Header.flags_lt (h : Header) : h.flags < 2 ^ 16 := by
  have h₁ := h.opcode.isLt
  have h₂ := h.reserved.isLt
  have h₃ := h.rcode.isLt
  have h₄ := h.authoritative.toNat_lt
  have h₅ := h.truncated.toNat_lt
  have h₆ := h.recursionDesired.toNat_lt
  have h₇ := h.recursionAvailable.toNat_lt
  rw [Header.flags]
  omega

/-- Whether a bit of a word is set. -/
theorem and_bit {w : UInt16} {i : ℕ} {b : Bool} (hi : i < 16)
    (h : w.toNat / 2 ^ i % 2 = b.toNat) : (w &&& UInt16.ofNat (2 ^ i) != 0) = b := by
  have hmask : (UInt16.ofNat (2 ^ i)).toNat = 2 ^ i := by
    rw [UInt16.toNat_ofNat']
    exact Nat.mod_eq_of_lt (Nat.pow_lt_pow_right (by decide) hi)
  have hbit : w.toNat.testBit i = b := by
    rw [Nat.testBit_eq_decide_div_mod_eq, h]
    cases b <;> rfl
  have hand : (w &&& UInt16.ofNat (2 ^ i)).toNat = b.toNat * 2 ^ i := by
    rw [UInt16.toNat_and, hmask, ← hbit]
    exact Nat.and_two_pow _ i
  cases b with
  | false =>
    have hzero : w &&& UInt16.ofNat (2 ^ i) = 0 := UInt16.toNat_inj.1 (by simpa using hand)
    rw [hzero]
    rfl
  | true =>
    rw [bne_iff_ne]
    intro hzero
    rw [hzero, Bool.toNat_true, Nat.one_mul] at hand
    exact absurd hand (Nat.pos_iff_ne_zero.1 (Nat.two_pow_pos i)).symm

/-- The flags word read back: the answer bit, the response code and the truncation bit. -/
theorem Header.flags_bits (h : Header) :
    UInt16.ofNat h.flags &&& 0x8000 ≠ 0 ∧
      (UInt16.ofNat h.flags &&& 0x0F).toUInt8 = UInt8.ofNat h.rcode.val ∧
      (UInt16.ofNat h.flags &&& 0x0200 != 0) = h.truncated := by
  have h₁ := h.opcode.isLt
  have h₂ := h.reserved.isLt
  have h₃ := h.rcode.isLt
  have h₄ := h.authoritative.toNat_lt
  have h₅ := h.truncated.toNat_lt
  have h₆ := h.recursionDesired.toNat_lt
  have h₇ := h.recursionAvailable.toNat_lt
  have hflags : (UInt16.ofNat h.flags).toNat = h.flags := by
    rw [UInt16.toNat_ofNat']
    exact Nat.mod_eq_of_lt h.flags_lt
  refine ⟨?_, ?_, ?_⟩
  · have hanswer : (UInt16.ofNat h.flags).toNat / 2 ^ 15 % 2 = true.toNat := by
      rw [hflags, Header.flags, Bool.toNat_true]
      omega
    have hbit := and_bit (by decide) hanswer
    rwa [bne_iff_ne] at hbit
  · apply UInt8.toNat_inj.1
    have hmod : (UInt16.ofNat h.flags &&& 0x0F).toNat = h.flags % 2 ^ 4 := by
      rw [UInt16.toNat_and, hflags]
      exact Nat.and_two_pow_sub_one_eq_mod _ 4
    rw [UInt16.toNat_toUInt8, hmod, UInt8.toNat_ofNat', Header.flags]
    omega
  · have htruncated : (UInt16.ofNat h.flags).toNat / 2 ^ 9 % 2 = h.truncated.toNat := by
      rw [hflags, Header.flags]
      omega
    exact and_bit (by decide) htruncated

/-- A message laid out is read as what it says, whatever follows. -/
theorem parse_pointed (m : Layout) (tail : List UInt8) (h : m.Pointed (m.bytes ++ tail)) :
    parse (m.bytes ++ tail) = .ok (m.answer (extendedErrors (m.bytes ++ tail) m.bytes.length
      m.header.authority m.header.additional)) := by
  have hall : Holds (m.bytes ++ tail) 0 m.bytes := holds_self _ tail
  generalize m.bytes ++ tail = body at h hall
  have hheader := range_holds hall.left
  rw [Nat.zero_add] at hheader
  have hrest := hall.right
  rw [Nat.zero_add] at hrest
  have hquestions : (UInt16.ofNat m.questions.length).toNat = m.questions.length := by
    rw [UInt16.toNat_ofNat']
    exact Nat.mod_eq_of_lt m.questions_fit
  have hanswers : (UInt16.ofNat m.answers.length).toNat = m.answers.length := by
    rw [UInt16.toNat_ofNat']
    exact Nat.mod_eq_of_lt m.answers_fit
  obtain ⟨hanswer, hrcode, htruncated⟩ := m.header.flags_bits
  have hid : word m.headerBytes 0 = m.header.id := word16_bytes _
  have hflags : word m.headerBytes 2 = UInt16.ofNat m.header.flags := word16_bytes _
  have hqd : word m.headerBytes 4 = UInt16.ofNat m.questions.length := word16_bytes _
  have han : word m.headerBytes 6 = UInt16.ofNat m.answers.length := word16_bytes _
  have hns : word m.headerBytes 8 = m.header.authority := word16_bytes _
  have har : word m.headerBytes 10 = m.header.additional := word16_bytes _
  have hfirst := readQuestions_holds none
    (fun q hq ↦ h q.name (mem_append_left _ (mem_map_of_mem hq))) hrest.left
  have hrecords := readAnswers_holds
    (fun r hr s hs ↦ h s (mem_append_right _ (mem_flatMap.2 ⟨r, hr, hs⟩))) hrest.right
  refine bind_ok.2 ⟨m.headerBytes, hheader, ?_⟩
  rw [hflags, if_neg hanswer, hqd, hquestions, han, hanswers]
  refine bind_ok.2 ⟨_, hfirst, bind_ok.2 ⟨_, hrecords, ?_⟩⟩
  simp only [hid, hns, har, hrcode, htruncated, Option.none_or]
  have hlen : m.headerBytes.length + (m.questions.flatMap Asked.bytes).length +
      (m.answers.flatMap Answer.bytes).length = m.bytes.length := by
    rw [Layout.bytes, length_append, length_append, Nat.add_assoc]
  rw [hlen]
  rfl

theorem Rdata.plain_data (d : Rdata) : d.plain.data = d.data := by
  cases d <;> rfl

theorem Rdata.plain_kind (d : Rdata) : d.plain.kind = d.kind := by
  cases d <;> rfl

theorem Rdata.plain_names (d : Rdata) : d.plain.names = d.names.map Spelled.plain := by
  cases d <;> rfl

theorem Answer.plain_record (r : Answer) : r.plain.record = r.record := by
  show Record.mk _ r.rdata.plain.kind _ r.rdata.plain.data = _
  rw [Rdata.plain_data, Rdata.plain_kind]
  rfl

/-- Without compression there are no pointers. -/
theorem Layout.plain_pointed (m : Layout) (body : List UInt8) : m.plain.Pointed body := by
  intro s hs
  obtain ⟨s', rfl⟩ : ∃ s', s = Spelled.plain s' := by
    rcases mem_append.1 hs with hs | hs
    · obtain ⟨q, hq, rfl⟩ := mem_map.1 hs
      obtain ⟨q', -, rfl⟩ := mem_map.1 hq
      exact ⟨q'.name, rfl⟩
    · obtain ⟨r, hr, hs⟩ := mem_flatMap.1 hs
      obtain ⟨r', -, rfl⟩ := mem_map.1 hr
      rcases mem_cons.1 hs with rfl | hs
      · exact ⟨r'.name, rfl⟩
      · rw [show r'.plain.rdata.names = _ from Rdata.plain_names _] at hs
        obtain ⟨s', -, rfl⟩ := mem_map.1 hs
        exact ⟨s', rfl⟩
  exact s'.plain_pointed body

theorem Layout.plain_answer (m : Layout) (errors : List ExtendedError) :
    m.plain.answer errors = m.answer errors := by
  have hquestion : (m.questions.map Asked.plain).head?.map Asked.question =
      m.questions.head?.map Asked.question := by
    rw [head?_map, Option.map_map]
    rfl
  have hanswers : (m.answers.map Answer.plain).map Answer.record =
      m.answers.map Answer.record := by
    rw [map_map]
    exact map_congr_left fun r _ ↦ r.plain_record
  rw [Layout.answer, Layout.answer]
  congr 1

/-- **`parse` undoes the wire form.**  A message laid out without compression, followed by any
bytes, is read as what it says; and so is the message with any of its names cut short by pointers to
uncompressed occurrences of what they leave out. -/
theorem parse_layout (m : Layout) (tail tail' : List UInt8) (h : m.Pointed (m.bytes ++ tail')) :
    parse (m.plain.bytes ++ tail) =
        .ok (m.answer (extendedErrors (m.plain.bytes ++ tail) m.plain.bytes.length
          m.header.authority m.header.additional)) ∧
      parse (m.bytes ++ tail') =
        .ok (m.answer (extendedErrors (m.bytes ++ tail') m.bytes.length
          m.header.authority m.header.additional)) := by
  have hplain := parse_pointed m.plain tail (m.plain_pointed _)
  rw [m.plain_answer] at hplain
  exact ⟨hplain, parse_pointed m tail' h⟩

namespace Sample

def host : Name where
  labels := [[109, 120], [97, 46, 98]]
  sized := by decide
  short := by decide

def zone : Name where
  labels := [[97, 46, 98]]
  sized := by decide
  short := by decide

/-- A mail exchange of a zone, its names but the question's pointing into it. -/
def mail : Layout where
  header := ⟨7, 0, false, true, true, true, 0, 0, 0, 0⟩
  questions := [⟨⟨zone, none⟩, 15, 1⟩]
  answers := [⟨⟨zone, some (0, 12)⟩, 1, 60, .mx 10 ⟨host, some (1, 12)⟩, trivial⟩]
  questions_fit := by decide
  answers_fit := by decide

end Sample

theorem parse_layout_sample :
    parse (Sample.mail.plain.bytes ++ []) =
        .ok (Sample.mail.answer (extendedErrors (Sample.mail.plain.bytes ++ [])
          Sample.mail.plain.bytes.length 0 0)) ∧
      parse (Sample.mail.bytes ++ []) =
        .ok (Sample.mail.answer (extendedErrors (Sample.mail.bytes ++ [])
          Sample.mail.bytes.length 0 0)) := by
  refine parse_layout Sample.mail [] [] fun s hs ↦ ?_
  have hnames : Sample.mail.names =
      [⟨Sample.zone, none⟩, ⟨Sample.zone, some (0, 12)⟩, ⟨Sample.host, some (1, 12)⟩] := rfl
  simp only [hnames, mem_cons, not_mem_nil, or_false] at hs
  rcases hs with rfl | rfl | rfl
  · exact Spelled.plain_pointed _ ⟨Sample.zone, none⟩
  · rintro kept offset hcut
    obtain ⟨rfl, rfl⟩ : 0 = kept ∧ 12 = offset := by simpa using hcut
    decide
  · rintro kept offset hcut
    obtain ⟨rfl, rfl⟩ : 1 = kept ∧ 12 = offset := by simpa using hcut
    decide

end Huntsman.Dns
