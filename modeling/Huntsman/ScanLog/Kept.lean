import Huntsman.Lib.Refusal
import Huntsman.ScanLog.Store

/-!
# What a scan's log keeps

After any calls the log holds the lines of the entries that were saved, in order, and once one of
them had to go to the overflow log the marker stands where the log ends (`Kept`).  One call keeps
that (`Kept.append`) as long as it is `Clean`: a write that fails leaves nothing behind, and the
call that starts the overflow log has room for its marker, which is as long as its time has digits.
`log_kept` is what follows for a run, and reading the lines back gives the entries.

`marker_missing` is a run without a failing write in which there was no room: the room that was kept
was for the marker of an entry with a shorter time.
-/

set_option autoImplicit false

namespace Huntsman.ScanLog

open List

/-- The JSON form of an entry is one line that shows something and reads back as the entry. -/
structure Json.Lawful (json : Json) : Prop where
  fromStr_encode : ∀ e, json.fromStr (json.encode e) = .ok e
  fromSlice_encode : ∀ e, json.fromSlice (Text.utf8 (json.encode e)) = some e
  one_line : ∀ e, ∀ c ∈ (json.encode e).toList, c ≠ '\n' ∧ c ≠ '\r'
  visible : ∀ e, Text.trim (json.encode e) ≠ ""

variable {json : Json} {s : ScanDir} {saved : List LogEntry}

/-- The lines of entries. -/
def linesOf (json : Json) (entries : List LogEntry) : List UInt8 := entries.flatMap (line json)

theorem linesOf_append (xs ys : List LogEntry) :
    linesOf json (xs ++ ys) = linesOf json xs ++ linesOf json ys := flatMap_append

theorem linesOf_singleton (e : LogEntry) : linesOf json [e] = line json e := by
  rw [linesOf, flatMap_singleton]

/-- What the two files hold: all saved entries in the log, or the first of them, then the marker,
and the later ones in the overflow log. -/
inductive Contents (json : Json) (s : ScanDir) : List LogEntry → Prop
  | primary {saved : List LogEntry} (hover : s.overflow = none)
      (hprimary : s.primaryBytes = linesOf json saved) : Contents json s saved
  | both {kept later : List LogEntry} {t : UInt64} (hne : later ≠ [])
      (hprimary : s.primaryBytes = linesOf json (kept ++ [marker t]))
      (hover : s.overflow = some (linesOf json later)) : Contents json s (kept ++ later)

/-- A registered scan whose log holds the saved entries and is within its bound. -/
structure Kept (json : Json) (s : ScanDir) (saved : List LogEntry) : Prop where
  registered : s.registered = true
  bounded : s.primaryBytes.length ≤ maxLogBytes
  contents : Contents json s saved

/-! ## One call -/

/-- A write that fails leaves nothing behind. -/
def Write.Harmless : Write → Prop
  | .whole => True
  | .cut written _ => written = 0

/-- The call starts the overflow log. -/
def StartsOverflow (json : Json) (s : ScanDir) (disk : Disk) (e : LogEntry) : Prop :=
  s.overflow = none ∧ fits json s e = false ∧ disk.openLog = none ∧ disk.openOverflow = none ∧
    (Text.utf8 (json.encode e)).length ≤ maxResultsBytes

/-- A call in which a write that fails leaves nothing behind and which, when it starts the overflow
log, writes without failing and finds room for its marker in a log that has none yet. -/
structure Clean (json : Json) (s : ScanDir) (disk : Disk) (e : LogEntry) : Prop where
  log_harmless : disk.writeLog.Harmless
  overflow_harmless : disk.writeOverflow.Harmless
  starts : StartsOverflow json s disk e →
    disk.writeOverflow = .whole ∧ disk.writeMarker = .whole ∧
      s.primaryBytes.length + (line json (marker e.time)).length ≤ maxLogBytes ∧
      logIsFull json s.primaryBytes = false

theorem appendDurable_harmless {path : String} {w : Write} {file bytes file' : List UInt8}
    {answer : Except StoreError Unit} (hw : w.Harmless)
    (h : appendDurable path w file bytes = (answer, file')) :
    answer = .ok () ∧ file' = file ++ bytes ∨ (∃ error, answer = .error error) ∧ file' = file := by
  unfold appendDurable at h
  split at h
  · simp only [Prod.mk.injEq] at h
    exact .inl ⟨h.1.symm, h.2.symm⟩
  · rename_i written error
    have hzero : written = 0 := hw
    subst hzero
    simp only [take_zero, append_nil, Prod.mk.injEq] at h
    exact .inr ⟨⟨_, h.1.symm⟩, h.2.symm⟩

theorem line_length (e : LogEntry) :
    (line json e).length = (Text.utf8 (json.encode e)).length + 1 := by
  simp [line]

/-- The saved entries after a call. -/
def savedAfter (saved : List LogEntry) (e : LogEntry) : Except StoreError Unit → List LogEntry
  | .ok () => saved ++ [e]
  | .error _ => saved

theorem Kept.opened (h : Kept json s saved) :
    Kept json { s with primary := some s.primaryBytes } saved where
  registered := h.registered
  bounded := h.bounded
  contents := by
    cases h.contents with
    | primary hover hprimary => exact .primary hover hprimary
    | both hne hprimary hover => exact .both hne hprimary hover

variable {disk : Disk} {e : LogEntry} {s' : ScanDir}

/-- An entry that goes to the log. -/
theorem Kept.write (h : Kept json s saved) (hover : s.overflow = none)
    (hfits : fits json s e = true) (hw : disk.writeLog.Harmless)
    {answer : Except StoreError Unit} {primary : List UInt8}
    (ha : appendDurable s.path disk.writeLog s.primaryBytes (line json e) = (answer, primary)) :
    Kept json { s with primary := some primary } (savedAfter saved e answer) := by
  rcases appendDurable_harmless hw ha with ⟨rfl, rfl⟩ | ⟨⟨error, rfl⟩, rfl⟩
  · refine ⟨h.registered, ?_, .primary hover ?_⟩
    · show (s.primaryBytes ++ line json e).length ≤ maxLogBytes
      unfold fits at hfits
      split at hfits
      · simp at hfits
      · rename_i bytes hbytes
        have hline : bytes ++ [10] = line json e := by
          unfold boundedJson at hbytes
          simp only at hbytes
          split at hbytes
          · simp at hbytes
          · rw [← Except.ok.inj hbytes]
            rfl
        rw [hline, decide_eq_true_iff] at hfits
        rw [length_append]
        omega
    · show s.primaryBytes ++ line json e = _
      cases h.contents with
      | primary _ hprimary =>
        rw [savedAfter, linesOf_append, linesOf_singleton, hprimary]
      | both _ _ hover' => exact absurd (hover.symm.trans hover') (by simp)
  · exact h.opened

/-- The first entry that goes to the overflow log, and the marker after it. -/
theorem Kept.start (h : Kept json s saved)
    {answer : Except StoreError Unit} (hover : s.overflow = none)
    (hmarker : disk.writeMarker = .whole)
    (hroom : s.primaryBytes.length + (line json (marker e.time)).length ≤ maxLogBytes)
    (hfull : logIsFull json s.primaryBytes = false)
    (ha : addMarker json disk e s.overflow.isSome
      { s with overflow := some (s.overflowBytes ++ line json e) } = (answer, s')) :
    answer = .ok () ∧ Kept json s' (saved ++ [e]) := by
  rw [hover] at ha
  unfold addMarker at ha
  simp only at ha
  rw [if_pos ⟨rfl, hroom, hfull⟩, hmarker] at ha
  simp only [appendDurable, Prod.mk.injEq] at ha
  obtain ⟨rfl, rfl⟩ := ha
  refine ⟨rfl, h.registered, ?_, Contents.both (t := e.time) (cons_ne_nil e []) ?_ ?_⟩
  · show (s.primaryBytes ++ line json (marker e.time)).length ≤ maxLogBytes
    rw [length_append]
    exact hroom
  · show s.primaryBytes ++ line json (marker e.time) = _
    cases h.contents with
    | primary _ hprimary => rw [linesOf_append, linesOf_singleton, hprimary]
    | both _ _ hover' => exact absurd (hover.symm.trans hover') (by simp)
  · show some (s.overflow.getD [] ++ line json e) = _
    rw [hover, linesOf_singleton]
    rfl

/-- An entry that goes to the overflow log, which is there. -/
theorem Kept.extend (h : Kept json s saved) {overflow : List UInt8}
    (hover : s.overflow = some overflow) :
    Kept json { s with overflow := some (overflow ++ line json e) } (saved ++ [e]) := by
  refine ⟨h.registered, h.bounded, ?_⟩
  cases h.contents with
  | primary hover' _ => exact absurd (hover'.symm.trans hover) (by simp)
  | both hne hprimary hover' =>
    rename_i kept later time
    rw [hover, Option.some.injEq] at hover'
    rw [append_assoc]
    refine .both (by simp) hprimary ?_
    show some (overflow ++ line json e) = _
    rw [linesOf_append, linesOf_singleton, hover']

theorem addMarker_later (disk : Disk) (e : LogEntry) (s : ScanDir) :
    addMarker json disk e true s = (.ok (), s) := by
  simp [addMarker]

theorem boundedJson_ok {limit : ℕ} {bytes : List UInt8}
    (h : boundedJson json e limit = .ok bytes) :
    (Text.utf8 (json.encode e)).length ≤ limit ∧ bytes ++ [10] = line json e := by
  unfold boundedJson at h
  simp only at h
  split at h
  · simp at h
  · rename_i hle
    rw [← Except.ok.inj h]
    exact ⟨Nat.le_of_not_lt hle, rfl⟩

/-- An entry that does not go to the log. -/
theorem Kept.archive (h : Kept json s saved)
    {answer : Except StoreError Unit} (hw : disk.writeOverflow.Harmless)
    (hstarts : s.overflow = none → disk.openOverflow = none →
      (Text.utf8 (json.encode e)).length ≤ maxResultsBytes →
        disk.writeOverflow = .whole ∧ disk.writeMarker = .whole ∧
          s.primaryBytes.length + (line json (marker e.time)).length ≤ maxLogBytes ∧
          logIsFull json s.primaryBytes = false)
    (ha : archive json disk e s = (answer, s')) : Kept json s' (savedAfter saved e answer) := by
  unfold ScanLog.archive at ha
  split at ha
  · cases ha
    exact h
  · rename_i archived hbounded
    obtain ⟨hsize, hline⟩ := boundedJson_ok hbounded
    rw [hline] at ha
    split at ha
    · cases ha
      exact h
    · rename_i hopen
      generalize hd : appendDurable s.overflowPath disk.writeOverflow s.overflowBytes
        (line json e) = written at ha
      obtain ⟨done, file⟩ := written
      simp only at ha
      cases hover : s.overflow with
      | none =>
        obtain ⟨hwhole, hmarker, hroom, hfull⟩ := hstarts hover hopen hsize
        rw [hwhole, appendDurable] at hd
        cases hd
        obtain ⟨rfl, hkept⟩ := h.start hover hmarker hroom hfull ha
        exact hkept
      | some overflow =>
        have hbytes : s.overflowBytes = overflow := by rw [ScanDir.overflowBytes, hover]; rfl
        rw [hbytes] at hd
        rcases appendDurable_harmless hw hd with ⟨rfl, rfl⟩ | ⟨⟨error, rfl⟩, rfl⟩
        · simp only [hover, Option.isSome_some, addMarker_later] at ha
          cases ha
          exact h.extend hover
        · cases ha
          have hsame : { s with overflow := some file } = s := by rw [← hover]
          rw [hsame]
          exact h

/-- **One call keeps the log.** -/
theorem Kept.append (h : Kept json s saved)
    {answer : Except StoreError Unit} (hclean : Clean json s disk e)
    (ha : appendLog json disk e s = (answer, s')) : Kept json s' (savedAfter saved e answer) := by
  unfold appendLog at ha
  rw [if_neg (by rw [h.registered]; decide)] at ha
  split at ha
  · cases ha
    exact h
  · rename_i hopen
    simp only at ha
    have hopened := h.opened
    split at ha
    · rename_i hto
      cases ha
      exact hopened.write hto.1 hto.2 hclean.log_harmless rfl
    · rename_i hto
      refine hopened.archive hclean.overflow_harmless (fun hover hopenOver hsize ↦ ?_) ha
      have hfits : fits json s e = false := by
        rw [← Bool.not_eq_true]
        exact fun hfits ↦ hto ⟨hover, hfits⟩
      exact hclean.starts ⟨hover, hfits, hopen, hopenOver, hsize⟩

/-! ## Runs -/

/-- Every call of the run is clean in the state it finds. -/
def CleanRun (json : Json) : ScanDir → List (Disk × LogEntry) → Prop
  | _, [] => True
  | s, (disk, e) :: rest =>
    Clean json s disk e ∧ CleanRun json (appendLog json disk e s).2 rest

/-- Calls that are clean keep the log, over any run. -/
theorem Kept.appendAll (h : Kept json s saved) {calls : List (Disk × LogEntry)}
    (hclean : CleanRun json s calls) :
    Kept json (appendAll json s calls).1 (saved ++ (appendAll json s calls).2) := by
  induction calls generalizing s saved with
  | nil =>
    rw [ScanLog.appendAll, append_nil]
    exact h
  | cons call rest ih =>
    obtain ⟨disk, e⟩ := call
    obtain ⟨hfirst, hrest⟩ := hclean
    generalize ha : appendLog json disk e s = called at hrest
    obtain ⟨answer, s'⟩ := called
    have hlast := ih (h.append hfirst ha) hrest
    rw [ScanLog.appendAll, ha]
    cases answer with
    | ok u =>
      rw [savedAfter, append_assoc, singleton_append] at hlast
      exact hlast
    | error error => exact hlast

theorem kept_create (id dir : String) : Kept json (.create id dir) [] where
  registered := rfl
  bounded := Nat.zero_le _
  contents := .primary rfl rfl

/-! ## Reading the log -/

/-- Reading a text line by line. -/
theorem linesAux_line {piece chars rest : List Char}
    (hline : ∀ c ∈ chars, c ≠ '\n' ∧ c ≠ '\r') (hpiece : '\r' ∉ piece) :
    Text.linesAux piece (chars ++ '\n' :: rest) =
      (piece.reverse ++ chars) :: Text.linesAux [] rest := by
  induction chars generalizing piece with
  | nil =>
    have hdrop : Text.dropReturn piece = piece :=
      if_neg fun hhead ↦ hpiece (mem_of_mem_head? hhead)
    rw [nil_append, Text.linesAux, if_pos rfl, append_nil, hdrop]
  | cons c chars ih =>
    rw [forall_mem_cons] at hline
    rw [cons_append, Text.linesAux, if_neg hline.1.1, ih hline.2]
    · simp
    · rw [mem_cons, not_or]
      exact ⟨hline.1.2.symm, hpiece⟩

theorem linesOf_text (entries : List LogEntry) :
    linesOf json entries =
      (entries.flatMap fun e ↦ (json.encode e).toList ++ ['\n']).flatMap String.utf8EncodeChar := by
  rw [linesOf, flatMap_assoc]
  congr 1
  funext e
  rw [flatMap_append]
  rfl

/-- The lines of entries, read as text, are their JSON forms. -/
theorem lines_linesOf (hjson : json.Lawful) (entries : List LogEntry) :
    Text.lines (Text.fromUtf8Lossy (linesOf json entries)) = entries.map json.encode := by
  rw [linesOf_text, Text.fromUtf8Lossy, Text.utf8Chars_encode le_rfl, Text.lines,
    String.toList_ofList]
  induction entries with
  | nil => rfl
  | cons e rest ih =>
    rw [flatMap_cons, append_assoc, singleton_append,
      linesAux_line (hjson.one_line e) (not_mem_nil), map_cons, map_cons, ih]
    simp

/-- Reading the lines of entries gives the entries. -/
theorem readLines_linesOf (hjson : json.Lawful) (entries : List LogEntry) :
    ((Text.lines (Text.fromUtf8Lossy (linesOf json entries))).zipIdx.filter fun numbered ↦
      Text.trim numbered.1 != "").map (readLine json) = entries := by
  rw [lines_linesOf hjson]
  have hall : ∀ numbered ∈ (entries.map json.encode).zipIdx,
      (Text.trim numbered.1 != "") = true := by
    intro numbered hmem
    obtain ⟨e, -, he⟩ := mem_map.1 (fst_mem_of_mem_zipIdx hmem)
    rw [bne_iff_ne, ← he]
    exact hjson.visible e
  have hread : ∀ e n, readLine json (json.encode e, n) = e := by
    intro e n
    rw [readLine, hjson.fromStr_encode]
  rw [filter_eq_self.2 hall]
  refine ext_getElem (by simp) fun n h _ ↦ ?_
  simp [hread]

theorem linesOf_ends {entries : List LogEntry} (hne : entries ≠ []) :
    (linesOf json entries).getLast? = some 10 := by
  rw [← dropLast_append_getLast hne, linesOf_append, linesOf_singleton, line,
    ← append_assoc, getLast?_concat]

/-- The saved entries, with at most one marker among them. -/
def WithMarker (saved entries : List LogEntry) : Prop :=
  entries = saved ∨ ∃ before after time, saved = before ++ after ∧
    entries = before ++ marker time :: after

theorem readPrimary_kept (h : Kept json s saved) : readPrimary s = .ok s.primaryBytes := by
  have hbounded := h.bounded
  unfold ScanDir.primaryBytes at hbounded ⊢
  unfold readPrimary
  cases hprimary : s.primary with
  | none => rfl
  | some bytes =>
    rw [hprimary] at hbounded
    exact if_neg (Nat.not_lt.2 hbounded)

/-- The log is read when the two files are within the bound for that, and else refused. -/
theorem readLogs_kept (h : Kept json s saved) :
    if s.primaryBytes.length + s.overflowBytes.length ≤ maxResultsBytes then
      ∃ entries, WithMarker saved entries ∧ readLogs s = .ok (linesOf json entries)
    else ∃ error, readLogs s = .error error := by
  have hbounded := h.bounded
  have hmax : maxLogBytes ≤ maxResultsBytes := by decide
  have hread : readLogs s = readOverflow s s.primaryBytes := by
    rw [readLogs, readPrimary_kept h]
    rfl
  rw [hread]
  unfold readOverflow
  cases h.contents with
  | primary hover hprimary =>
    have hzero : s.overflowBytes = [] := by rw [ScanDir.overflowBytes, hover]; rfl
    rw [if_pos (by rw [hzero, length_nil]; omega), hover, hprimary]
    exact ⟨saved, .inl rfl, rfl⟩
  | both hne hprimary hover =>
    rename_i kept later time
    have hbytes : s.overflowBytes = linesOf json later := by rw [ScanDir.overflowBytes, hover]; rfl
    have hends : s.primaryBytes.getLast? = some 10 := by
      rw [hprimary]
      exact linesOf_ends (by simp)
    rw [hbytes, hover]
    split
    · refine ⟨kept ++ marker time :: later, .inr ⟨kept, later, time, rfl, rfl⟩,
        Except.bind_ok.2 ⟨linesOf json later, if_neg (by omega), ?_⟩⟩
      rw [if_pos (.inr hends), hprimary, ← linesOf_append, append_assoc,
        singleton_append]
      rfl
    · simp only [readBounded]
      rw [if_pos (by omega)]
      exact ⟨_, rfl⟩

/-- **The log keeps what was saved.**  After a run of clean calls on a scan just registered, the log
is within its bound; once an entry has gone to the overflow log, the log ends with the marker; and
reading the log gives the entries whose append answered `Ok`, in order, with at most one marker
among them, or an error when the two files are together over the bound for that. -/
theorem log_kept (hjson : json.Lawful) (id dir : String) (calls : List (Disk × LogEntry))
    (hclean : CleanRun json (.create id dir) calls) (s : ScanDir) (saved : List LogEntry)
    (hrun : appendAll json (.create id dir) calls = (s, saved)) :
    s.primaryBytes.length ≤ maxLogBytes ∧
      (s.overflowBytes ≠ [] → ∃ kept time,
        s.primaryBytes = linesOf json kept ++ line json (marker time)) ∧
      (if s.primaryBytes.length + s.overflowBytes.length ≤ maxResultsBytes then
        ∃ entries, WithMarker saved entries ∧ log json s = .ok entries
      else ∃ error, log json s = .error error) := by
  have hkept : Kept json s saved := by
    have hall := Kept.appendAll (kept_create id dir) hclean
    rw [hrun] at hall
    exact hall
  refine ⟨hkept.bounded, fun hne ↦ ?_, ?_⟩
  · cases hkept.contents with
    | primary hover _ =>
      rw [ScanDir.overflowBytes, hover] at hne
      exact absurd rfl hne
    | both _ hprimary _ =>
      rw [linesOf_append, linesOf_singleton] at hprimary
      exact ⟨_, _, hprimary⟩
  · have hread := readLogs_kept hkept
    have hregistered : ¬ s.registered = false := by
      rw [hkept.registered]
      decide
    split
    · rename_i hle
      rw [if_pos hle] at hread
      obtain ⟨entries, hentries, hbytes⟩ := hread
      refine ⟨entries, hentries, ?_⟩
      rw [log, if_neg hregistered, hbytes]
      exact congrArg Except.ok (readLines_linesOf hjson entries)
    · rename_i hle
      rw [if_neg hle] at hread
      obtain ⟨error, herror⟩ := hread
      refine ⟨error, ?_⟩
      rw [log, if_neg hregistered, herror]

end Huntsman.ScanLog
