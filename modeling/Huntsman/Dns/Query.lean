import Huntsman.Dns.RoundTrip
import Huntsman.Lib.Pieces

/-!
# Asking for a name

`query` writes a message that asks for a name: the header, the name label by label, the type, and an
empty record that says how long an answer may be.  It asks for the names that DNS can carry,
`askableName`, and no others.

It measures a name in the bytes of its text, 253 at most without the dot of the root, and the reader
in the octets of its wire form, 255 at most.  These are one bound.  So what is written is read back
(`question_query`), and as it was asked, unless the name has a byte in it that the reader writes
with a backslash.
-/

set_option autoImplicit false

namespace Huntsman.Dns

open Bytes Except List

/-- The largest answer a query offers to take. -/
def udpPayload : UInt16 := 4096

/-- A name without the dot of the root. -/
def bareName (name : String) : String := (Text.stripSuffix name ".").getD name

/-- What stands between the dots. -/
def nameLabels (bare : String) : List String := (bare.toList.splitOn '.').map String.ofList

/-- Whether DNS can carry `name`. -/
def askableName (name : String) : Bool :=
  let bare := bareName name
  (Text.utf8 bare).length ≤ 253 && (Text.utf8 bare).all (· < 0x80) &&
    (nameLabels bare).all fun label ↦ 1 ≤ (Text.utf8 label).length && (Text.utf8 label).length ≤ 63

/-- A label after its length. -/
def queryLabel (name label : String) : Except WireError (List UInt8) :=
  let length := (Text.utf8 label).length
  if length < 2 ^ 8 ∧ 1 ≤ length ∧ length ≤ 63 then
    .ok (UInt8.ofNat length :: Text.utf8 label)
  else .error (.badQuery name)

/-- A recursive query for `name` and `kind`. -/
def query (id : UInt16) (name : String) (kind : UInt16) : Except WireError (List UInt8) := do
  let bare := bareName name
  if askableName name = false then throw (.badQuery name)
  let labels ← (nameLabels bare).mapM (queryLabel name)
  return bytes16 id ++ ([0x01, 0x00, 0, 1, 0, 0, 0, 0, 0, 1] ++ (labels.flatten ++ ([0] ++
    (bytes16 kind ++ ([0, 1] ++ ([0, 0, 41] ++ (bytes16 udpPayload ++ [0, 0, 0, 0, 0, 0])))))))

/-- The question of any message. -/
def question (body : List UInt8) : Except WireError Question := do
  let header ← range body 0 12
  if word header 4 = 0 then throw .truncated
  let name ← readName body 12
  let kind ← range body name.2 (name.2 + 2)
  return ⟨name.1, word kind 0⟩

/-! ## Names in ASCII -/

theorem utf8EncodeChar_of_lt {c : Char} (h : c.toNat < 128) :
    String.utf8EncodeChar c = [UInt8.ofNat c.toNat] := by
  have hval : c.val.toNat ≤ 127 := Nat.le_of_lt_succ h
  rw [String.utf8EncodeChar]
  exact if_pos hval

/-- A character of more bytes than one has none below 128. -/
theorem lt_of_utf8EncodeChar_lt {c : Char} (h : ∀ b ∈ String.utf8EncodeChar c, b < 0x80) :
    c.toNat < 128 := by
  by_contra hlarge
  have hval : ¬ c.val.toNat ≤ 127 := fun hle ↦ hlarge (Nat.lt_succ_of_le hle)
  have hfirst : ∀ n, UInt8.ofNat n < 0x80 → n % 256 < 128 := fun n hn ↦ by
    rwa [UInt8.lt_iff_toNat_lt, UInt8.toNat_ofNat'] at hn
  unfold String.utf8EncodeChar at h
  simp only [if_neg hval] at h
  split at h
  · have := hfirst _ (h _ (.head _))
    omega
  · split at h
    · have := hfirst _ (h _ (.head _))
      omega
    · have := hfirst _ (h _ (.head _))
      omega

/-- The bytes of an ASCII text are its characters. -/
theorem utf8_of_ascii {s : String} (h : ∀ c ∈ s.toList, c.toNat < 128) :
    Text.utf8 s = s.toList.map fun c ↦ UInt8.ofNat c.toNat := by
  rw [Text.utf8]
  generalize s.toList = chars at h ⊢
  induction chars with
  | nil => rfl
  | cons c rest ih =>
    rw [forall_mem_cons] at h
    rw [flatMap_cons, utf8EncodeChar_of_lt h.1, ih h.2]
    rfl

theorem ascii_of_utf8 {s : String} (h : (Text.utf8 s).all (· < 0x80) = true) :
    ∀ c ∈ s.toList, c.toNat < 128 := by
  intro c hc
  refine lt_of_utf8EncodeChar_lt fun b hb ↦ ?_
  simpa using all_eq_true.1 h b (mem_flatMap.2 ⟨c, hc, hb⟩)

/-! ## What is asked -/

theorem nameLabels_toList (bare : String) :
    ['.'].intercalate ((nameLabels bare).map String.toList) = bare.toList := by
  have hsame : String.toList ∘ String.ofList = id := funext fun _ ↦ String.toList_ofList
  rw [nameLabels, List.map_map, hsame, List.map_id, List.intercalate_splitOn]

theorem mem_nameLabels {bare label : String} (h : label ∈ nameLabels bare) :
    '.' ∉ label.toList ∧ ∀ c ∈ label.toList, c ∈ bare.toList := by
  obtain ⟨piece, hpiece, rfl⟩ := mem_map.1 h
  rw [String.toList_ofList]
  exact ⟨Pieces.not_mem_of_mem_splitOn hpiece, fun c hc ↦ Pieces.mem_of_mem_splitOn hpiece hc⟩

theorem askableName_iff {name : String} : askableName name = true ↔
    (Text.utf8 (bareName name)).length ≤ 253 ∧ (∀ c ∈ (bareName name).toList, c.toNat < 128) ∧
      ∀ label ∈ nameLabels (bareName name),
        1 ≤ (Text.utf8 label).length ∧ (Text.utf8 label).length ≤ 63 := by
  have hascii : (Text.utf8 (bareName name)).all (· < 0x80) = true ↔
      ∀ c ∈ (bareName name).toList, c.toNat < 128 := by
    refine ⟨ascii_of_utf8, fun h ↦ ?_⟩
    rw [utf8_of_ascii h, all_map, all_eq_true]
    intro c hc
    have hlt := h c hc
    simp only [Function.comp_apply, decide_eq_true_eq, UInt8.lt_iff_toNat_lt, UInt8.toNat_ofNat']
    rw [Nat.mod_eq_of_lt (by omega)]
    exact hlt
  simp only [askableName, Bool.and_eq_true, decide_eq_true_eq, all_eq_true, hascii, and_assoc]

/-- The labels of a name fit in a wire form when its text is at most 253 bytes. -/
theorem labels_short {bare : String} (hascii : ∀ c ∈ bare.toList, c.toNat < 128)
    (h : (Text.utf8 bare).length ≤ 253) :
    1 + (((nameLabels bare).map Text.utf8).map fun l ↦ 1 + l.length).sum ≤ maxNameOctets := by
  have hlength : ∀ label ∈ nameLabels bare, (Text.utf8 label).length = label.toList.length := by
    intro label hlabel
    rw [utf8_of_ascii fun c hc ↦ hascii c ((mem_nameLabels hlabel).2 c hc), length_map]
  have hjoined := congrArg length (nameLabels_toList bare)
  rw [Pieces.length_intercalate, map_map] at hjoined
  rw [utf8_of_ascii hascii, length_map, ← hjoined] at h
  have hsum : (((nameLabels bare).map Text.utf8).map fun l ↦ 1 + l.length).sum =
      ((nameLabels bare).map ((fun w ↦ w.length + 1) ∘ String.toList)).sum := by
    rw [map_map]
    refine congrArg sum (map_congr_left fun label hlabel ↦ ?_)
    simp only [Function.comp_apply]
    rw [hlength label hlabel, Nat.add_comm]
  rw [hsum, maxNameOctets]
  omega

/-- An askable name as labels that have a wire form. -/
def wireName {name : String} (h : askableName name = true) : Name where
  labels := (nameLabels (bareName name)).map Text.utf8
  sized := by
    intro l hl
    obtain ⟨label, hlabel, rfl⟩ := List.mem_map.1 hl
    exact (askableName_iff.1 h).2.2 label hlabel
  short := labels_short (askableName_iff.1 h).2.1 (askableName_iff.1 h).1

/-- **A query is a name in its wire form** between a header and the rest, and there is one for every
name that can be asked. -/
theorem query_eq (id : UInt16) {name : String} (kind : UInt16) (h : askableName name = true) :
    query id name kind = .ok (bytes16 id ++ ([0x01, 0x00, 0, 1, 0, 0, 0, 0, 0, 1] ++
      (wholeBytes (wireName h).labels ++ (bytes16 kind ++ ([0, 1] ++ ([0, 0, 41] ++
        (bytes16 udpPayload ++ [0, 0, 0, 0, 0, 0]))))))) := by
  have hlabels : (nameLabels (bareName name)).mapM (queryLabel name) = .ok
      ((nameLabels (bareName name)).map fun label ↦
        UInt8.ofNat (Text.utf8 label).length :: Text.utf8 label) := by
    refine mapM_ok fun label hlabel ↦ ?_
    obtain ⟨hone, hmany⟩ := (askableName_iff.1 h).2.2 label hlabel
    exact if_pos ⟨by omega, hone, hmany⟩
  have hflatten : ((nameLabels (bareName name)).map fun label ↦
      UInt8.ofNat (Text.utf8 label).length :: Text.utf8 label).flatten =
        labelsBytes (wireName h).labels := by
    rw [labelsBytes, wireName, flatMap_map, flatMap_def]
  rw [query, if_neg (by rw [h]; decide)]
  refine bind_ok.2 ⟨_, hlabels, ?_⟩
  rw [hflatten, wholeBytes, append_assoc]
  rfl

/-! ## What is read -/

/-- A byte that the reader writes as it is. -/
def Plain (b : UInt8) : Prop := 0x21 ≤ b ∧ b ≤ 0x7E ∧ b ≠ 0x5C

instance (b : UInt8) : Decidable (Plain b) := inferInstanceAs (Decidable (_ ∧ _))

theorem escape_plain {c : Char} (hascii : c.toNat < 128) (hplain : Plain (UInt8.ofNat c.toNat))
    (hdot : c ≠ '.') : escape (UInt8.ofNat c.toNat) = [c] := by
  have hchar : Char.ofNat (UInt8.ofNat c.toNat).toNat = c := by
    rw [UInt8.toNat_ofNat', Nat.mod_eq_of_lt (by omega), Char.ofNat_toNat]
  have hbyte : UInt8.ofNat c.toNat ≠ 0x2E := fun heq ↦ by
    rw [heq] at hchar
    exact hdot hchar.symm
  obtain ⟨hlow, hhigh, hslash⟩ := hplain
  rw [escape, if_neg (by simp [hbyte, hslash]), if_pos ⟨hlow, hhigh⟩, hchar]

/-- A label of plain bytes is read as it was. -/
theorem labelText_plain {label : String} (hascii : ∀ c ∈ label.toList, c.toNat < 128)
    (hplain : ∀ c ∈ label.toList, Plain (UInt8.ofNat c.toNat)) (hdot : '.' ∉ label.toList) :
    labelText (Text.utf8 label) = label := by
  have hsame : label.toList.flatMap (fun c ↦ escape (UInt8.ofNat c.toNat)) = label.toList := by
    calc label.toList.flatMap (fun c ↦ escape (UInt8.ofNat c.toNat))
        = label.toList.flatMap fun c ↦ [c] := by
          refine flatMap_congr fun c hc ↦ ?_
          exact escape_plain (hascii c hc) (hplain c hc) fun heq ↦ hdot (heq ▸ hc)
      _ = label.toList := flatMap_singleton' _
  rw [labelText, utf8_of_ascii hascii, flatMap_map, hsame, String.ofList_toList]

/-- The labels of a name make the name. -/
theorem nameText_nameLabels (bare : String) : nameText (nameLabels bare) = bare := by
  have hne : nameLabels bare ≠ [] := fun heq ↦
    splitOn_ne_nil '.' bare.toList (map_eq_nil_iff.1 heq)
  rw [nameText, if_neg hne, ← String.toList_inj, String.toList_intercalate]
  exact nameLabels_toList bare

/-- A name without its root dot has no characters of its own. -/
theorem mem_of_mem_bareName {name : String} {c : Char} (h : c ∈ (bareName name).toList) :
    c ∈ name.toList := by
  rw [bareName] at h
  cases hstrip : Text.stripSuffix name "." with
  | none => rwa [hstrip] at h
  | some rest =>
    rw [hstrip] at h
    rw [Text.stripSuffix_eq_some.1 hstrip]
    exact mem_append_left _ h

theorem wireName_text {name : String} (h : askableName name = true)
    (hplain : ∀ b ∈ Text.utf8 name, Plain b) :
    nameText ((wireName h).labels.map labelText) = bareName name := by
  have hascii := (askableName_iff.1 h).2.1
  have hbytes : ∀ c ∈ (bareName name).toList, Plain (UInt8.ofNat c.toNat) := by
    intro c hc
    refine hplain _ (mem_flatMap.2 ⟨c, mem_of_mem_bareName hc, ?_⟩)
    rw [utf8EncodeChar_of_lt (hascii c hc)]
    exact .head _
  have hlabels : (wireName h).labels.map labelText = nameLabels (bareName name) := by
    rw [wireName, map_map]
    refine (map_congr_left fun label hlabel ↦ ?_).trans (map_id _)
    obtain ⟨hdot, hmem⟩ := mem_nameLabels hlabel
    exact labelText_plain (fun c hc ↦ hascii c (hmem c hc)) (fun c hc ↦ hbytes c (hmem c hc)) hdot
  rw [hlabels, nameText_nameLabels]

/-- The question of a message whose first name is written whole. -/
theorem question_whole (id kind : UInt16) (n : Name) (more : List UInt8) :
    question (bytes16 id ++ ([0x01, 0x00, 0, 1, 0, 0, 0, 0, 0, 1] ++ (wholeBytes n.labels ++
      (bytes16 kind ++ more)))) = .ok ⟨nameText (n.labels.map labelText), kind⟩ := by
  set body := bytes16 id ++ ([0x01, 0x00, 0, 1, 0, 0, 0, 0, 0, 1] ++ (wholeBytes n.labels ++
    (bytes16 kind ++ more)))
  have hself : Holds body 0 body := by
    have hall := holds_self body []
    rwa [append_nil] at hall
  have hheader : range body 0 12 = .ok (bytes16 id ++ [0x01, 0x00, 0, 1, 0, 0, 0, 0, 0, 1]) :=
    range_prefix (bytes16 id ++ [0x01, 0x00, 0, 1, 0, 0, 0, 0, 0, 1]) _
  have hname := readName_spelled (Spelled.plain_pointed body ⟨n, none⟩) hself.right.right.left
  have hkind := range_holds hself.right.right.right.left
  refine bind_ok.2 ⟨_, hheader, ?_⟩
  rw [if_neg (by simp [word, bytes16, word16])]
  refine bind_ok.2 ⟨_, hname, bind_ok.2 ⟨_, hkind, ?_⟩⟩
  exact congrArg (fun w ↦ Except.ok (Question.mk _ w)) (word16_bytes kind)

/-- **What is asked is what a reader takes to be asked.**  A query is refused when DNS cannot carry
the name and only then; any other is read back with its type, and with its name when the bytes of
the name are plain. -/
theorem question_query (id : UInt16) (name : String) (kind : UInt16) :
    (askableName name = false → query id name kind = .error (.badQuery name)) ∧
      (askableName name = true → ∃ bytes asked, query id name kind = .ok bytes ∧
        question bytes = .ok asked ∧ asked.kind = kind ∧
          ((∀ b ∈ Text.utf8 name, Plain b) → asked.name = bareName name)) := by
  refine ⟨fun h ↦ ?_, fun h ↦ ?_⟩
  · rw [query, if_pos h]
    rfl
  · exact ⟨_, _, query_eq id kind h, question_whole id kind (wireName h) _, rfl, wireName_text h⟩

theorem question_query_sample : ∃ bytes asked, query 7 "a-b.example." 28 = .ok bytes ∧
    question bytes = .ok asked ∧ asked.kind = 28 ∧ asked.name = "a-b.example" := by
  obtain ⟨bytes, asked, hquery, hquestion, hkind, hname⟩ :=
    (question_query 7 "a-b.example." 28).2 (by decide)
  have hall : ((Text.utf8 "a-b.example.").all fun b ↦ decide (Plain b)) = true := by decide
  have hplain := fun b hb ↦ of_decide_eq_true (all_eq_true.1 hall b hb)
  exact ⟨bytes, asked, hquery, hquestion, hkind, hname hplain⟩

end Huntsman.Dns
