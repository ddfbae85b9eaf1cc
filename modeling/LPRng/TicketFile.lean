import LPRng.Split

/-!
# The file of a job ticket

A queued job lives in its ticket file: `Set_job_ticket_file` writes the lines of the job's
information, with the fields of all data files joined in one of them, and
`Get_job_ticket_file` splits the file again.
-/

namespace LPRng

/-- `struct job`: the lines of its information and of each data file. -/
structure JobLists where
  info : LineList
  datafiles : List LineList
  deriving DecidableEq

namespace JobLists

def hfdatafiles : Bytes := lit "hfdatafiles"
def datafilesKey : Bytes := lit "datafiles"
def updateTime : Bytes := lit "update_time"
def hfName : Bytes := lit "hf_name"
def openname : Bytes := lit "openname"
def otransfername : Bytes := lit "otransfername"
def dftransfername : Bytes := lit "dftransfername"

/-! ## Writing -/

/-- `safeextend3` and `safeextend5`. -/
def extend (s : Option Bytes) (text : Bytes) : Option Bytes := some (s.getD [] ++ text)

/-- The fields of a data file that are not written. -/
def dropsField (s : Bytes) : Bool := openname.isPrefixOf s || otransfername.isPrefixOf s

/-- The variables of `Set_job_ticket_datafile_info`. -/
structure DatafileInfo where
  dataline : Option Bytes
  datafiles : Option Bytes
  dups : LineList

/-- The fields of a data file appended to `dataline`, each with the byte 2 behind it. -/
def addFields (dataline : Option Bytes) (lp : LineList) : Option Bytes :=
  lp.foldl (fun dataline s => if dropsField s then dataline else extend dataline (s ++ [2])) dataline

/-- The name of a data file appended to `datafiles`, unless it stands there already. -/
def addName (st : DatafileInfo) (lp : LineList) : Option Bytes × LineList :=
  match lp.findStrValue dftransfername with
  | none | some [] => (st.datafiles, st.dups)
  | some s =>
      if st.dups.findFlagValue s = 0 then
        match lp.findStrValue openname with
        | some t => (extend st.datafiles (s ++ 61 :: t ++ [32]), st.dups.setFlagValue s 1)
        | none => (extend st.datafiles (s ++ [32]), st.dups.setFlagValue s 1)
      else (st.datafiles, st.dups)

/-- One turn of the loop over the data files. `strlen` is called without a check, so that
there is no result when `dataline` has not been started yet. -/
def addDatafile (st : DatafileInfo) (lp : LineList) : Option DatafileInfo :=
  (addFields st.dataline lp).map fun dataline =>
    { dataline := some (if dataline = [] then [] else dataline.dropLast ++ [1])
      datafiles := (addName st lp).1
      dups := (addName st lp).2 }

def datafileInfo (files : List LineList) : Option DatafileInfo :=
  files.foldlM addDatafile { dataline := none, datafiles := none, dups := [] }

def setDatafileInfo (info : LineList) (st : DatafileInfo) : LineList :=
  (info.setStrValue hfdatafiles st.dataline).setStrValue datafilesKey st.datafiles

def setJobTicketDatafileInfo (job : JobLists) : Option JobLists :=
  (datafileInfo job.datafiles).map fun st => { job with info := setDatafileInfo job.info st }

/-- The lines of the information that `Make_job_ticket_image` writes. -/
def isWritten (s : Bytes) : Bool :=
  s ≠ [] && !s.any lineEnds.contains && foldCase (s.take 8) ≠ foldCase openname

def makeJobTicketImage (job : JobLists) : Option (Bytes × JobLists) :=
  job.setJobTicketDatafileInfo.map fun job =>
    ((job.info.filter isWritten).flatMap (· ++ [10]), job)

/-- `Set_job_ticket_file` when the file can be written: its contents, and the job in
memory. There is no file without an `hf_name`, which is its name. -/
def setJobTicketFile (job : JobLists) (timeStr : Bytes) : Option (Bytes × JobLists) := do
  let job ← job.setJobTicketDatafileInfo
  let job := { job with info := job.info.setStrValue updateTime (some timeStr) }
  let written ← job.makeJobTicketImage
  if written.2.info.findStrValue hfName = none then none else some written

/-! ## Reading -/

/-- `Get_job_ticket_file` for a job about which nothing is known yet. -/
def getJobTicketFile (image : Bytes) : JobLists :=
  let info := split [] image lineEnds true optionValueSep true true true
  let cfLineList := match info.findStrValue hfdatafiles with
    | some s => split [] s [1] false [] false false false
    | none => []
  { info := info
    datafiles := if info = [] then [] else
      cfLineList.map fun s => split [] s [2] true optionValueSep true true true }

/-! ## The line of the data files -/

/-- The fields of a data file that are written. -/
def kept (lp : LineList) : LineList := lp.filter (!dropsField ·)

/-- Fields with the byte 2 between them. -/
def record (lines : List Bytes) : Bytes := (lines.flatMap (· ++ [2])).dropLast

/-- The fields of the data files that have any left, with the byte 1 behind each file. -/
def records (files : List LineList) : Bytes :=
  ((files.map kept).filter (· ≠ [])).flatMap (record · ++ [1])

variable {files : List LineList} {lp : LineList} {st : DatafileInfo} {d : Bytes}

theorem addFields_eq (dataline : Option Bytes) (lp : LineList) :
    addFields dataline lp =
      if kept lp = [] then dataline else extend dataline ((kept lp).flatMap (· ++ [2])) := by
  unfold addFields kept
  induction lp generalizing dataline with
  | nil => rfl
  | cons s lp ih =>
      rw [List.foldl_cons, ih, List.filter_cons]
      cases drops : dropsField s with
      | true => rfl
      | false =>
          rw [if_neg Bool.false_ne_true, Bool.not_false, if_pos rfl, if_neg (List.cons_ne_nil _ _),
            List.flatMap_cons]
          split
          · next none_left => rw [none_left, List.flatMap_nil, List.append_nil]
          · simp only [extend, Option.getD_some, List.append_assoc]

theorem record_append (lines : List Bytes) (line : Bytes) :
    record (lines ++ [line]) = lines.flatMap (· ++ [2]) ++ line := by
  rw [record, List.flatMap_append, List.flatMap_singleton, ← List.append_assoc,
    List.dropLast_concat]

/-- The last byte 2 of what is appended becomes the byte 1. -/
theorem dropLast_extend {lines : List Bytes} (nonempty : lines ≠ []) (d : Bytes) :
    (d ++ lines.flatMap (· ++ [2])).dropLast ++ [1] = d ++ (record lines ++ [1]) := by
  obtain ⟨front, last, rfl⟩ := List.eq_nil_or_concat' lines |>.resolve_left nonempty
  rw [record_append, List.flatMap_append, List.flatMap_singleton, ← List.append_assoc,
    ← List.append_assoc, List.dropLast_concat]
  simp only [List.append_assoc]

/-- A text of data files: nothing, or one with the byte 1 at its end. -/
def Ended (d : Bytes) : Prop := d = [] ∨ ∃ front, d = front ++ [1]

theorem records_cons (lp : LineList) (files : List LineList) :
    records (lp :: files) = records [lp] ++ records files := by
  unfold records
  rw [← List.flatMap_append, ← List.filter_append, ← List.map_append, List.singleton_append]

theorem records_singleton (lp : LineList) :
    records [lp] = if kept lp = [] then [] else record (kept lp) ++ [1] := by
  unfold records
  by_cases empty : kept lp = []
  · simp only [List.map_cons, List.map_nil, List.filter_cons, empty, ne_eq, not_true_eq_false,
      decide_false, Bool.false_eq_true, if_false, List.filter_nil, List.flatMap_nil, if_true]
  · simp only [List.map_cons, List.map_nil, List.filter_cons, empty, ne_eq, not_false_eq_true,
      decide_true, if_true, List.filter_nil, List.flatMap_singleton, if_false]

theorem Ended.append_records (ended : Ended d) (lp : LineList) : Ended (d ++ records [lp]) := by
  rw [records_singleton]
  split
  · rw [List.append_nil]
    exact ended
  · exact .inr ⟨d ++ record (kept lp), (List.append_assoc _ _ _).symm⟩

/-- A data file of which something is written, or one behind others. -/
theorem addDatafile_some (st : DatafileInfo) (lp : LineList) (ended : Ended (st.dataline.getD []))
    (started : st.dataline ≠ none ∨ kept lp ≠ []) :
    ∃ st', addDatafile st lp = some st' ∧
      st'.dataline = some (st.dataline.getD [] ++ records [lp]) := by
  unfold addDatafile
  rw [addFields_eq, records_singleton]
  by_cases empty : kept lp = []
  · obtain ⟨d, line⟩ := Option.ne_none_iff_exists'.mp (started.resolve_right (fun some_ => some_ empty))
    rw [if_pos empty, if_pos empty, line, Option.getD_some, List.append_nil]
    refine ⟨_, rfl, congrArg some ?_⟩
    rw [line, Option.getD_some] at ended
    rcases ended with rfl | ⟨front, rfl⟩
    · rfl
    · rw [if_neg (List.append_ne_nil_of_right_ne_nil _ (List.cons_ne_nil _ _)), List.dropLast_concat]
  · rw [if_neg empty, if_neg empty]
    refine ⟨_, rfl, congrArg some ?_⟩
    have text : st.dataline.getD [] ++ (kept lp).flatMap (· ++ [2]) ≠ [] := by
      cases lines : kept lp with
      | nil => exact absurd lines empty
      | cons line rest => simp
    rw [if_neg text]
    exact dropLast_extend empty _

/-- The data files from the second on. -/
theorem foldlM_addDatafile (files : List LineList) (ended : Ended d)
    (started : st.dataline = some d) :
    ∃ st', files.foldlM addDatafile st = some st' ∧ st'.dataline = some (d ++ records files) := by
  induction files generalizing st d with
  | nil => exact ⟨st, rfl, by rw [started]; exact congrArg some (List.append_nil d).symm⟩
  | cons lp files ih =>
      have open_ : Ended (st.dataline.getD []) := by
        rw [started]
        exact ended
      obtain ⟨st₁, added, line⟩ := addDatafile_some st lp open_ (.inl (by rw [started]; exact nofun))
      rw [started, Option.getD_some] at line
      obtain ⟨st₂, rest, line₂⟩ := ih (ended.append_records lp) line
      refine ⟨st₂, ?_, ?_⟩
      · rw [List.foldlM_cons, added]
        exact rest
      · rw [line₂, List.append_assoc, ← records_cons]

/-- Nothing is written of the first data file: there is no result. -/
theorem datafileInfo_none (empty : kept lp = []) : datafileInfo (lp :: files) = none := by
  have crashed : addDatafile { dataline := none, datafiles := none, dups := [] } lp = none := by
    rw [addDatafile, addFields_eq, if_pos empty]
    rfl
  rw [datafileInfo, List.foldlM_cons, crashed]
  rfl

/-- Else the line has the data files of which something is written. -/
theorem datafileInfo_some (files : List LineList) (nonempty : kept lp ≠ []) :
    ∃ st, datafileInfo (lp :: files) = some st ∧ st.dataline = some (records (lp :: files)) := by
  obtain ⟨st₁, added, line⟩ := addDatafile_some
    { dataline := none, datafiles := none, dups := [] } lp (.inl rfl) (.inr nonempty)
  have ended : Ended (records [lp]) := Ended.append_records (d := []) (.inl rfl) lp
  obtain ⟨st₂, rest, line₂⟩ := foldlM_addDatafile files ended line
  refine ⟨st₂, ?_, ?_⟩
  · rw [datafileInfo, List.foldlM_cons, added]
    exact rest
  · rw [line₂, ← records_cons]

end JobLists

/-! ## Fields -/

/-- A line with a word as key and a value that is not empty, has no line ends and no bytes
1 and 2, and neither starts nor ends with white space. -/
structure IsField (line : Bytes) : Prop where
  parts : ∃ key value, line = key ++ 61 :: value ∧ (∀ d ∈ key, isWordChar d = true) ∧
    value ≠ [] ∧ (∀ d ∈ value, d ≠ 0 ∧ d ≠ 1 ∧ d ≠ 2 ∧ d ∉ lineEnds) ∧
    (∀ d ∈ value.head?, isSpace d = false) ∧ ∀ d ∈ value.getLast?, isSpace d = false

namespace IsField

variable {line : Bytes}

theorem wordLine (field : IsField line) : WordLine line := by
  obtain ⟨key, value, rfl, word, -⟩ := field
  exact ⟨key, value, rfl, word⟩

theorem clean (field : IsField line) : ∀ d ∈ line, d ≠ 1 ∧ d ≠ 2 ∧ d ∉ lineEnds := by
  obtain ⟨key, value, rfl, word, -, clean, -⟩ := field
  intro d member
  rcases List.mem_append.mp member with inKey | rest
  · obtain ⟨-, -, -, line, one, two⟩ := isWordChar_spec (word d inKey)
    exact ⟨one, two, line⟩
  · rcases List.mem_cons.mp rest with rfl | inValue
    · decide
    · exact (clean d inValue).2

theorem trim (field : IsField line) : trimSpace line = line := by
  obtain ⟨key, value, rfl, word, -, -, -, last⟩ := field
  exact WordLine.trimSpace_of_last word last

end IsField

/-- The fields of a job or of a data file, in the order of their keys. -/
structure FieldList where
  lines : LineList
  keyed : lines.Keyed
  fields : ∀ line ∈ lines, IsField line

namespace JobLists

/-! ## Reading the data files -/

variable {lines : List Bytes}

theorem pieces_record (clean : ∀ line ∈ lines, line ≠ [] ∧ 2 ∉ line) (nonempty : lines ≠ []) :
    pieces [2] (record lines) = lines := by
  obtain ⟨front, last, rfl⟩ := (List.eq_nil_or_concat' lines).resolve_left nonempty
  have whole : ∀ line ∈ front ++ [last], ∀ d ∈ line, d ∉ ([2] : Bytes) := by
    intro line member d inside same
    rw [List.mem_singleton] at same
    exact (clean line member).2 (same ▸ inside)
  have inLast : last ∈ front ++ [last] := List.mem_append_right _ List.mem_cons_self
  rw [record_append,
    pieces_flatMap (fun line member => whole line (List.mem_append_left _ member)) List.mem_cons_self,
    pieces_of_whole (whole last inLast) (clean last inLast).1]

/-- The fields of a data file are read as they were written. -/
theorem split_record (keyed : LineList.Keyed lines) (fields : ∀ line ∈ lines, IsField line)
    (nonempty : lines ≠ []) :
    split [] (record lines) [2] true optionValueSep true true true = lines := by
  have clean : ∀ line ∈ lines, line ≠ [] ∧ 2 ∉ line := fun line member =>
    ⟨(fields line member).wordLine.ne_nil, fun two => ((fields line member).clean 2 two).2.1 rfl⟩
  rw [split_eq isSeparator_optionValueSep (pieces_record clean nonempty) (fun line member => (fields line member).wordLine)
    keyed.sorted]
  exact (List.map_congr_left fun line member => (fields line member).trim).trans (List.map_id lines)

theorem record_clean {c : UInt8} (other : c ≠ 2) (clean : ∀ line ∈ lines, c ∉ line) :
    c ∉ record lines := by
  intro member
  obtain ⟨line, within, here⟩ := List.mem_flatMap.mp (List.mem_of_mem_dropLast member)
  rcases List.mem_append.mp here with inLine | two
  · exact clean line within inLine
  · exact other (List.mem_singleton.mp two)

theorem kept_fields {f : FieldList} : (∀ line ∈ kept f.lines, IsField line) ∧
    LineList.Keyed (kept f.lines) := by
  have inside : ∀ line ∈ kept f.lines, line ∈ f.lines := fun line member =>
    (List.mem_filter.mp member).1
  exact ⟨fun line member => f.fields line (inside line member),
    List.Pairwise.filter _ f.keyed.sorted, fun line member => f.keyed.clear line (inside line member)⟩

/-- The data files of which something was written are read as they were written. -/
theorem split_records (files : List FieldList) :
    (split [] (records (files.map FieldList.lines)) [1] false [] false false false).map
        (fun s => split [] s [2] true optionValueSep true true true) =
      ((files.map FieldList.lines).map kept).filter (· ≠ []) := by
  have parts : ∀ lines ∈ ((files.map FieldList.lines).map kept).filter (· ≠ []),
      LineList.Keyed lines ∧ (∀ line ∈ lines, IsField line) ∧ lines ≠ [] := by
    intro lines member
    obtain ⟨written, nonempty⟩ := List.mem_filter.mp member
    obtain ⟨l, within, rfl⟩ := List.mem_map.mp written
    obtain ⟨f, -, rfl⟩ := List.mem_map.mp within
    exact ⟨kept_fields.2, kept_fields.1, of_decide_eq_true nonempty⟩
  unfold records
  generalize ((files.map FieldList.lines).map kept).filter (· ≠ []) = written at parts
  have shape : written.flatMap (record · ++ [1]) = (written.map record).flatMap (· ++ [1]) ++ [] := by
    rw [List.flatMap_map, List.append_nil]
  rw [split_pieces, shape, pieces_flatMap ?_ List.mem_cons_self]
  · rw [pieces, List.append_nil, List.map_map]
    refine (List.map_congr_left fun lines member => ?_).trans (List.map_id written)
    obtain ⟨keyed, fields, nonempty⟩ := parts lines member
    exact split_record keyed fields nonempty
  · intro text member d inside one
    obtain ⟨lines, within, rfl⟩ := List.mem_map.mp member
    obtain rfl := List.mem_singleton.mp one
    refine record_clean (by decide) (fun line here same => ?_) inside
    exact (((parts lines within).2.1 line here).clean 1 same).1 rfl

/-! ## Writing and reading the information -/

/-- The fields that are made anew with each ticket. -/
def isDerived (line : Bytes) : Bool :=
  [hfdatafiles, datafilesKey, updateTime].any (foldCase · = lineKey line)

/-- Lines in order, each with a word as key. -/
structure WordLines (l : LineList) : Prop where
  keyed : l.Keyed
  words : ∀ line ∈ l, WordLine line

variable {l lp : LineList} {key : Bytes} {given : Option Bytes} {st : DatafileInfo}

theorem mem_setStrValue (keyed : l.Keyed) (free : SepFree key) {line : Bytes} :
    line ∈ l.setStrValue key given ↔
      (∃ value, given.filter (· ≠ []) = some value ∧ line = key ++ 61 :: value) ∨
        line ∈ l ∧ lineKey line ≠ foldCase key := by
  rw [keyed.setStrValue free]
  cases given.filter (· ≠ []) with
  | none =>
      rw [mem_eraseKey]
      exact ⟨.inr, fun h => h.resolve_left fun ⟨_, impossible, _⟩ => nomatch impossible⟩
  | some value =>
      rw [mem_insertKey, lineKey_keyValue free]
      refine or_congr ⟨fun same => ⟨value, rfl, same⟩, ?_⟩ Iff.rfl
      rintro ⟨other, same, rfl⟩
      rw [Option.some.inj same]

theorem WordLines.setStrValue (lines : WordLines l) (word : ∀ d ∈ key, isWordChar d = true)
    (given : Option Bytes) : WordLines (l.setStrValue key given) := by
  have free := sepFree_of_word word
  refine ⟨?_, fun line member => ?_⟩
  · rw [lines.keyed.setStrValue free]
    cases given.filter (· ≠ []) with
    | none => exact lines.keyed.erase
    | some value => exact lines.keyed.insert (clear_keyValue free value)
  · rcases (mem_setStrValue lines.keyed free).mp member with ⟨value, -, rfl⟩ | ⟨old, -⟩
    · exact ⟨key, value, rfl, word⟩
    · exact lines.words line old

/-- Setting a derived field does not touch the other fields. -/
theorem WordLines.filter_setStrValue (lines : WordLines l) (word : ∀ d ∈ key, isWordChar d = true)
    (derived : ∀ line, lineKey line = foldCase key → isDerived line = true) :
    (l.setStrValue key given).filter (!isDerived ·) = l.filter (!isDerived ·) := by
  have free := sepFree_of_word word
  have drops : ∀ line, lineKey line = foldCase key → (!isDerived line) = false := fun line same => by
    rw [derived line same]
    rfl
  rw [lines.keyed.setStrValue free]
  cases given.filter (· ≠ []) with
  | none => exact filter_eraseKey drops
  | some value =>
      refine lines.keyed.sorted.filter_insertKey fun line same => drops line ?_
      rw [same, lineKey_keyValue free]

theorem word_hfdatafiles : ∀ d ∈ hfdatafiles, isWordChar d = true := by decide

theorem word_datafilesKey : ∀ d ∈ datafilesKey, isWordChar d = true := by decide

theorem word_updateTime : ∀ d ∈ updateTime, isWordChar d = true := by decide

theorem derived_hfdatafiles (line : Bytes) (same : lineKey line = foldCase hfdatafiles) :
    isDerived line = true := by
  simp [isDerived, same]

theorem derived_datafilesKey (line : Bytes) (same : lineKey line = foldCase datafilesKey) :
    isDerived line = true := by
  simp [isDerived, same]

theorem derived_updateTime (line : Bytes) (same : lineKey line = foldCase updateTime) :
    isDerived line = true := by
  simp [isDerived, same]

theorem WordLines.setDatafileInfo (lines : WordLines l) (st : DatafileInfo) :
    WordLines (setDatafileInfo l st) ∧
      (JobLists.setDatafileInfo l st).filter (!isDerived ·) = l.filter (!isDerived ·) := by
  have first := lines.setStrValue word_hfdatafiles st.dataline
  refine ⟨first.setStrValue word_datafilesKey _, ?_⟩
  rw [JobLists.setDatafileInfo, first.filter_setStrValue word_datafilesKey derived_datafilesKey,
    lines.filter_setStrValue word_hfdatafiles derived_hfdatafiles]

/-- The line of the data files, once it is set. -/
theorem WordLines.mem_setDatafileInfo (lines : WordLines l) (st : DatafileInfo) {line : Bytes} :
    line ∈ JobLists.setDatafileInfo l st ∧ lineKey line = foldCase hfdatafiles ↔
      ∃ value, st.dataline.filter (· ≠ []) = some value ∧ line = hfdatafiles ++ 61 :: value := by
  have free : SepFree hfdatafiles := by decide
  have first := lines.setStrValue word_hfdatafiles st.dataline
  have apart : foldCase datafilesKey ≠ foldCase hfdatafiles := by decide
  rw [JobLists.setDatafileInfo, mem_setStrValue first.keyed (by decide),
    mem_setStrValue lines.keyed free]
  constructor
  · rintro ⟨⟨value, -, rfl⟩ | ⟨set | ⟨-, other⟩, -⟩, same⟩
    · rw [lineKey_keyValue (by decide)] at same
      exact absurd same apart
    · exact set
    · exact absurd same other
  · rintro ⟨value, given, rfl⟩
    have here := lineKey_keyValue free value
    exact ⟨.inr ⟨.inl ⟨value, given, rfl⟩, fun same => apart (same.symm.trans here)⟩, here⟩

/-- The information the ticket is written from. -/
def ticketInfo (info : LineList) (st : DatafileInfo) (timeStr : Bytes) : LineList :=
  setDatafileInfo ((setDatafileInfo info st).setStrValue updateTime (some timeStr)) st

/-- The lines of the ticket. -/
def ticketLines (info : LineList) (st : DatafileInfo) (timeStr : Bytes) : LineList :=
  (ticketInfo info st timeStr).filter isWritten

variable {job : JobLists} {timeStr : Bytes}

theorem setJobTicketFile_eq (timeStr : Bytes) (known : datafileInfo job.datafiles = some st) :
    job.setJobTicketFile timeStr =
      if (ticketInfo job.info st timeStr).findStrValue hfName = none then none
      else some ((ticketLines job.info st timeStr).flatMap (· ++ [10]),
        { job with info := ticketInfo job.info st timeStr }) := by
  unfold setJobTicketFile makeJobTicketImage setJobTicketDatafileInfo
  rw [known]
  dsimp only [Option.map_some, Option.bind_eq_bind, Option.bind_some]
  rw [known]
  rfl

theorem WordLines.ticketInfo (lines : WordLines l) (st : DatafileInfo) (timeStr : Bytes) :
    WordLines (ticketInfo l st timeStr) ∧
      (JobLists.ticketInfo l st timeStr).filter (!isDerived ·) = l.filter (!isDerived ·) := by
  obtain ⟨first, same₁⟩ := lines.setDatafileInfo st
  have second := first.setStrValue word_updateTime (some timeStr)
  obtain ⟨third, same₃⟩ := second.setDatafileInfo st
  refine ⟨third, ?_⟩
  rw [JobLists.ticketInfo, same₃, first.filter_setStrValue word_updateTime derived_updateTime,
    same₁]

/-- A field that is not derived is found in the ticket as in the job. -/
theorem findStrValue_ticketInfo (lines : WordLines l) (st : DatafileInfo) (timeStr : Bytes)
    (other : ∀ line, lineKey line = foldCase key → isDerived line = false) :
    (ticketInfo l st timeStr).findStrValue key = l.findStrValue key := by
  obtain ⟨after, same⟩ := lines.ticketInfo st timeStr
  have keeps : ∀ line, lineKey line = foldCase key → (!isDerived line) = true := fun line here => by
    rw [other line here]
    rfl
  rw [after.keyed.findStrValue, lines.keyed.findStrValue, ← lookupKey_filter_of_keeps keeps, same,
    lookupKey_filter_of_keeps keeps]

theorem pieces_ticketLines :
    pieces lineEnds ((ticketLines l st timeStr).flatMap (· ++ [10])) = ticketLines l st timeStr := by
  have whole : ∀ line ∈ ticketLines l st timeStr, ∀ d ∈ line, d ∉ lineEnds := by
    intro line member d inside ends
    have written := (List.mem_filter.mp member).2
    have broken : line.any lineEnds.contains = true :=
      List.any_eq_true.mpr ⟨d, inside, List.contains_iff_mem.mpr ends⟩
    simp only [isWritten, broken, Bool.not_true, Bool.and_false, Bool.false_and] at written
    cases written
  have parts := pieces_flatMap whole (by decide : (10 : UInt8) ∈ lineEnds) []
  rw [List.append_nil] at parts
  exact parts.trans (List.append_nil _)

/-- The information that is read has the lines of the ticket. -/
theorem info_getJobTicketFile (lines : WordLines l) (st : DatafileInfo) (timeStr : Bytes) :
    (getJobTicketFile ((ticketLines l st timeStr).flatMap (· ++ [10]))).info =
      (ticketLines l st timeStr).map trimSpace := by
  obtain ⟨after, -⟩ := lines.ticketInfo st timeStr
  exact split_eq isSeparator_optionValueSep pieces_ticketLines
    (fun line member => after.words line (List.mem_filter.mp member).1)
    (List.Pairwise.filter _ after.keyed.sorted)

theorem isDerived_trimSpace {line : Bytes} (word : WordLine line) :
    isDerived (trimSpace line) = isDerived line := by
  rw [isDerived, isDerived, word.trim.2]

theorem wordLines_of_fields (info : FieldList) : WordLines info.lines :=
  ⟨info.keyed, fun line member => (info.fields line member).wordLine⟩

/-- What is read of the fields that are not derived. -/
theorem filter_getJobTicketFile (info : FieldList) (st : DatafileInfo) (timeStr : Bytes) :
    (getJobTicketFile ((ticketLines info.lines st timeStr).flatMap (· ++ [10]))).info.filter
        (!isDerived ·) = (info.lines.filter (!isDerived ·)).filter isWritten := by
  have lines := wordLines_of_fields info
  obtain ⟨after, same⟩ := lines.ticketInfo st timeStr
  rw [info_getJobTicketFile lines, List.filter_map]
  have derived : ((ticketLines info.lines st timeStr).filter ((!isDerived ·) ∘ trimSpace)) =
      (info.lines.filter (!isDerived ·)).filter isWritten := by
    rw [← same, ticketLines, List.filter_filter, List.filter_filter]
    refine List.filter_congr fun line member => ?_
    rw [Function.comp_apply, isDerived_trimSpace (after.words line member), Bool.and_comm]
  rw [derived]
  refine (List.map_congr_left fun line member => ?_).trans (List.map_id _)
  exact (info.fields line (List.mem_filter.mp (List.mem_filter.mp member).1).1).trim

/-! ## The round trip -/

theorem ended_records (files : List LineList) : Ended (records files) := by
  induction files with
  | nil => exact .inl rfl
  | cons lp files ih =>
      rw [records_cons]
      rcases ih with none_left | ⟨front, text⟩
      · rw [none_left, List.append_nil]
        exact Ended.append_records (d := []) (.inl rfl) lp
      · exact .inr ⟨records [lp] ++ front, by rw [text, List.append_assoc]⟩

theorem records_clean (files : List FieldList) :
    ∀ d ∈ records (files.map FieldList.lines), d ∉ lineEnds := by
  intro d member ends
  obtain ⟨lines, within, here⟩ := List.mem_flatMap.mp member
  obtain ⟨l, origin, rfl⟩ := List.mem_map.mp (List.mem_filter.mp within).1
  obtain ⟨f, -, rfl⟩ := List.mem_map.mp origin
  have other : d ≠ 2 := by
    rintro rfl
    exact absurd ends (by decide)
  rcases List.mem_append.mp here with inRecord | one
  · exact record_clean other (fun line inside same =>
      ((kept_fields.1 line inside).clean d same).2.2 ends) inRecord
  · rw [List.mem_singleton.mp one] at ends
    exact absurd ends (by decide)

/-- The line of the data files is written, and nothing is trimmed off it. -/
theorem dataline_kept (files : List FieldList)
    (nonempty : records (files.map FieldList.lines) ≠ []) :
    isWritten (hfdatafiles ++ 61 :: records (files.map FieldList.lines)) = true ∧
      trimSpace (hfdatafiles ++ 61 :: records (files.map FieldList.lines)) =
        hfdatafiles ++ 61 :: records (files.map FieldList.lines) := by
  have clean := records_clean files
  obtain ⟨front, text⟩ := (ended_records (files.map FieldList.lines)).resolve_left nonempty
  generalize records (files.map FieldList.lines) = value at *
  constructor
  · have whole : (hfdatafiles ++ 61 :: value).any lineEnds.contains = false := by
      refine List.any_eq_false.mpr fun d member ends => ?_
      have inEnds : d ∈ lineEnds := List.contains_iff_mem.mp ends
      rcases List.mem_append.mp member with inKey | rest
      · exact absurd inEnds ((by decide : ∀ d ∈ hfdatafiles, d ∉ lineEnds) d inKey)
      · rcases List.mem_cons.mp rest with rfl | inValue
        · exact absurd inEnds (by decide)
        · exact clean d inValue inEnds
    have start : (hfdatafiles ++ 61 :: value).take 8 = hfdatafiles.take 8 := rfl
    have differs : foldCase (hfdatafiles.take 8) ≠ foldCase openname := by decide
    rw [isWritten, whole, start, decide_eq_true differs]
    rfl
  · refine trimSpace_of_clean (fun d first => ?_) fun d last => ?_
    · obtain rfl : (104 : UInt8) = d := Option.some.inj first
      decide
    · have shape : hfdatafiles ++ 61 :: value = (hfdatafiles ++ 61 :: front) ++ [1] := by
        rw [text, List.append_assoc]
        rfl
      rw [shape, List.getLast?_concat] at last
      obtain rfl := Option.some.inj last
      decide

/-- The line of the data files in the information that is read. -/
theorem findStrValue_hfdatafiles (info : FieldList) (timeStr : Bytes) {files : List FieldList}
    (known : st.dataline.filter (· ≠ []) =
      if records (files.map FieldList.lines) = [] then none
      else some (records (files.map FieldList.lines))) :
    LineList.findStrValue ((ticketLines info.lines st timeStr).map trimSpace) hfdatafiles =
      if records (files.map FieldList.lines) = [] then none
      else some (records (files.map FieldList.lines)) := by
  have before := ((wordLines_of_fields info).setDatafileInfo st).1.setStrValue word_updateTime
    (some timeStr)
  have after := ((wordLines_of_fields info).ticketInfo st timeStr).1
  have words : ∀ line ∈ ticketLines info.lines st timeStr, WordLine line := fun line member =>
    after.words line (List.mem_filter.mp member).1
  have keyed := keyed_map_trimSpace words (List.Pairwise.filter _ after.keyed.sorted)
  rw [keyed.findStrValue]
  by_cases empty : records (files.map FieldList.lines) = []
  · rw [if_pos empty] at known ⊢
    refine Option.bind_eq_none_iff.mpr fun line found => ?_
    obtain ⟨member, same⟩ := of_lookupKey found
    obtain ⟨whole, origin, rfl⟩ := List.mem_map.mp member
    rw [(words whole origin).trim.2] at same
    obtain ⟨value, given, -⟩ :=
      (before.mem_setDatafileInfo st).mp ⟨(List.mem_filter.mp origin).1, same⟩
    rw [known] at given
    cases given
  · rw [if_neg empty] at known ⊢
    obtain ⟨written, trimmed⟩ := dataline_kept files empty
    have here := (before.mem_setDatafileInfo st).mpr ⟨_, known, rfl⟩
    have member := List.mem_map_of_mem (f := trimSpace) (List.mem_filter.mpr ⟨here.1, written⟩)
    rw [trimmed] at member
    rw [← here.2, keyed.sorted.lookupKey_of_mem member]
    exact valueOf_keyValue (by decide : SepFree hfdatafiles)

/-- The data files of which something was written are read. -/
theorem datafiles_getJobTicketFile (info : FieldList) (timeStr : Bytes) {files : List FieldList}
    (known : st.dataline.filter (· ≠ []) =
      if records (files.map FieldList.lines) = [] then none
      else some (records (files.map FieldList.lines))) :
    (getJobTicketFile ((ticketLines info.lines st timeStr).flatMap (· ++ [10]))).datafiles =
      ((files.map FieldList.lines).map kept).filter (· ≠ []) := by
  have read := info_getJobTicketFile (wordLines_of_fields info) st timeStr
  have found := findStrValue_hfdatafiles info timeStr known
  have written := split_records files
  unfold getJobTicketFile at read ⊢
  dsimp only at read ⊢
  rw [read, found]
  by_cases empty : records (files.map FieldList.lines) = []
  · rw [empty] at written
    rw [if_pos empty, ← written]
    exact ite_self _
  · have some_lines : (ticketLines info.lines st timeStr).map trimSpace ≠ [] := by
      intro none_left
      rw [none_left, if_neg empty, LineList.keyed_nil.findStrValue] at found
      cases found
    rw [if_neg empty, if_neg some_lines]
    exact written

/-- A job whose information and data files are fields. -/
structure FieldJob where
  info : FieldList
  datafiles : List FieldList

def FieldJob.toJobLists (job : FieldJob) : JobLists where
  info := job.info.lines
  datafiles := job.datafiles.map FieldList.lines

/-- The fields with the names files have while they are open. -/
def isTransient (line : Bytes) : Bool :=
  keyOf optionValueSep line = openname || keyOf optionValueSep line = otransfername

/-- The ticket is written, and the job that is read from it has all fields but the derived
ones, and the same data files without their transient fields. -/
def RoundTrips (job : JobLists) (timeStr : Bytes) : Prop :=
  ∃ image after, job.setJobTicketFile timeStr = some (image, after) ∧
    (getJobTicketFile image).info.filter (!isDerived ·) = job.info.filter (!isDerived ·) ∧
    (getJobTicketFile image).datafiles = job.datafiles.map fun lp => lp.filter (!isTransient ·)

/-- The job has a ticket file, no field of its information starts like `openname`, and each
data file has a field that is written and none that is mistaken for a transient one. -/
structure Restorable (job : JobLists) : Prop where
  named : job.info.findStrValue hfName ≠ none
  infoWritten : ∀ line ∈ job.info, isDerived line = false →
    foldCase (line.take 8) ≠ foldCase openname
  filesWritten : ∀ lp ∈ job.datafiles, ∃ line ∈ lp, dropsField line = false
  onlyTransient : ∀ lp ∈ job.datafiles, ∀ line ∈ lp, dropsField line = true → isTransient line = true

theorem kept_ne_nil_iff : kept lp ≠ [] ↔ ∃ line ∈ lp, dropsField line = false := by
  rw [kept, Ne, List.filter_eq_nil_iff]
  simp

/-- A transient field is not written. -/
theorem dropsField_of_isTransient {line : Bytes} (transient : isTransient line = true) :
    dropsField line = true := by
  have start : keyOf optionValueSep line <+: line := List.takeWhile_prefix _
  simp only [isTransient, Bool.or_eq_true, decide_eq_true_eq] at transient
  simp only [dropsField, Bool.or_eq_true, List.isPrefixOf_iff_prefix]
  rcases transient with same | same
  · exact .inl (same ▸ start)
  · exact .inr (same ▸ start)

theorem kept_eq_iff : kept lp = lp.filter (!isTransient ·) ↔
    ∀ line ∈ lp, dropsField line = true → isTransient line = true := by
  constructor
  · intro same line member drops
    by_contra other
    have stays : line ∈ lp.filter (!isTransient ·) :=
      List.mem_filter.mpr ⟨member, by rw [Bool.not_eq_true _ |>.mp other]; rfl⟩
    rw [← same, kept, List.mem_filter, drops] at stays
    cases stays.2
  · intro only
    refine List.filter_congr fun line member => congrArg (!·) ?_
    cases drops : dropsField line with
    | true => exact (only line member drops).symm
    | false =>
        cases transient : isTransient line with
        | false => rfl
        | true => exact absurd (dropsField_of_isTransient transient) (by rw [drops]; exact nofun)

/-- What is left of the data files is all of them with their written fields. -/
theorem kept_files_iff {files : List LineList} :
    (files.map kept).filter (· ≠ []) = files.map (fun lp => lp.filter (!isTransient ·)) ↔
      (∀ lp ∈ files, kept lp ≠ []) ∧ ∀ lp ∈ files, kept lp = lp.filter (!isTransient ·) := by
  have all_left : (∀ lp ∈ files, kept lp ≠ []) ↔
      (files.map kept).filter (· ≠ []) = files.map kept := by
    rw [List.filter_eq_self, List.forall_mem_map]
    simp only [decide_eq_true_eq]
  constructor
  · intro same
    have count : ((files.map kept).filter (· ≠ [])).length = (files.map kept).length := by
      rw [same, List.length_map, List.length_map]
    have left := List.filter_eq_self.mpr (List.length_filter_eq_length_iff.mp count)
    refine ⟨all_left.mpr left, ?_⟩
    rw [left] at same
    exact List.map_inj_left.mp same
  · rintro ⟨left, same⟩
    rw [all_left.mp left]
    exact List.map_inj_left.mpr same

theorem isWritten_iff {line : Bytes} (field : IsField line) :
    isWritten line = true ↔ foldCase (line.take 8) ≠ foldCase openname := by
  have whole : line.any lineEnds.contains = false :=
    List.any_eq_false.mpr fun d member ends =>
      (field.clean d member).2.2 (List.contains_iff_mem.mp ends)
  simp [isWritten, whole, field.wordLine.ne_nil]

/-- Nothing is written of the first data file: nothing has been appended to `dataline` when
its length is taken. -/
theorem setJobTicketFile_none (job : JobLists) (timeStr : Bytes)
    (first : job.datafiles.head? = some lp) (empty : kept lp = []) :
    job.setJobTicketFile timeStr = none := by
  cases files : job.datafiles with
  | nil =>
      rw [files] at first
      cases first
  | cons lp' rest =>
      rw [files] at first
      obtain rfl := Option.some.inj first
      rw [setJobTicketFile, setJobTicketDatafileInfo, files, datafileInfo_none empty]
      rfl

/-- What `Set_job_ticket_datafile_info` finds when something of the first data file is
written. -/
theorem datafileInfo_known (files : List LineList) (written : ∀ lp ∈ files.head?, kept lp ≠ []) :
    ∃ st, datafileInfo files = some st ∧ st.dataline.filter (· ≠ []) =
      if records files = [] then none else some (records files) := by
  cases files with
  | nil => exact ⟨_, rfl, rfl⟩
  | cons lp files =>
      obtain ⟨st, info, line⟩ := datafileInfo_some files (written lp rfl)
      refine ⟨st, info, ?_⟩
      rw [line]
      by_cases empty : records (lp :: files) = []
      · simp [empty]
      · simp [empty]

theorem named_iff (job : FieldJob) (st : DatafileInfo) (timeStr : Bytes) :
    (ticketInfo job.info.lines st timeStr).findStrValue hfName =
      job.info.lines.findStrValue hfName := by
  refine findStrValue_ticketInfo (wordLines_of_fields job.info) st timeStr fun line same => ?_
  rw [isDerived, same]
  decide

/-- The job is written: it comes back exactly if it is restorable. -/
theorem roundTrips_iff_of_known (job : FieldJob) (timeStr : Bytes)
    (info : datafileInfo job.toJobLists.datafiles = some st)
    (known : st.dataline.filter (· ≠ []) =
      if records job.toJobLists.datafiles = [] then none
      else some (records job.toJobLists.datafiles)) :
    job.toJobLists.RoundTrips timeStr ↔ job.toJobLists.Restorable := by
  have written := setJobTicketFile_eq timeStr info
  have readInfo := filter_getJobTicketFile job.info st timeStr
  have readFiles := datafiles_getJobTicketFile job.info timeStr known
  have infoIff : (job.info.lines.filter (!isDerived ·)).filter isWritten =
      job.info.lines.filter (!isDerived ·) ↔ ∀ line ∈ job.info.lines, isDerived line = false →
        foldCase (line.take 8) ≠ foldCase openname := by
    rw [List.filter_eq_self]
    refine ⟨fun all line member other => ?_, fun all line member => ?_⟩
    · exact (isWritten_iff (job.info.fields line member)).mp
        (all line (List.mem_filter.mpr ⟨member, by rw [other]; rfl⟩))
    · obtain ⟨inside, other⟩ := List.mem_filter.mp member
      exact (isWritten_iff (job.info.fields line inside)).mpr
        (all line inside ((Bool.not_eq_true' _).mp other))
  change _ = if LineList.findStrValue (ticketInfo job.info.lines st timeStr) hfName = none then _
    else _ at written
  rw [named_iff] at written
  constructor
  · rintro ⟨image, after, wrote, sameInfo, sameFiles⟩
    rw [written] at wrote
    by_cases named : job.info.lines.findStrValue hfName = none
    · rw [if_pos named] at wrote
      cases wrote
    · rw [if_neg named] at wrote
      obtain ⟨rfl, -⟩ := Prod.mk.inj (Option.some.inj wrote)
      obtain ⟨left, same⟩ := kept_files_iff.mp (readFiles.symm.trans sameFiles)
      exact ⟨named, infoIff.mp (readInfo.symm.trans sameInfo),
        fun lp member => kept_ne_nil_iff.mp (left lp member),
        fun lp member => kept_eq_iff.mp (same lp member)⟩
  · intro restorable
    have named : ¬ job.info.lines.findStrValue hfName = none := restorable.named
    rw [if_neg named] at written
    exact ⟨_, _, written, readInfo.trans (infoIff.mpr restorable.infoWritten),
      readFiles.trans (kept_files_iff.mpr
        ⟨fun lp member => kept_ne_nil_iff.mpr (restorable.filesWritten lp member),
          fun lp member => kept_eq_iff.mpr (restorable.onlyTransient lp member)⟩)⟩

/-- A job comes back from its ticket exactly if it is restorable. -/
theorem roundTrips_iff (job : FieldJob) (timeStr : Bytes) :
    job.toJobLists.RoundTrips timeStr ↔ job.toJobLists.Restorable := by
  cases files : job.toJobLists.datafiles with
  | nil =>
      obtain ⟨st, info, known⟩ := datafileInfo_known job.toJobLists.datafiles
        (by rw [files]; exact nofun)
      exact roundTrips_iff_of_known job timeStr info known
  | cons lp rest =>
      by_cases empty : kept lp = []
      · have crashed := setJobTicketFile_none job.toJobLists timeStr (by rw [files]; rfl) empty
        refine iff_of_false ?_ fun restorable => ?_
        · rintro ⟨image, after, wrote, -⟩
          cases crashed.symm.trans wrote
        · exact kept_ne_nil_iff.mpr
            (restorable.filesWritten lp (files ▸ List.mem_cons_self)) empty
      · obtain ⟨st, info, known⟩ := datafileInfo_known job.toJobLists.datafiles (by
          rw [files]
          rintro _ ⟨⟩
          exact empty)
        exact roundTrips_iff_of_known job timeStr info known

/-! ## A data file of which only the open file is known -/

/-- A list of one field. -/
def single (line : Bytes) (field : IsField line) : FieldList where
  lines := [line]
  keyed := ⟨List.pairwise_singleton _ _, List.forall_mem_singleton.mpr field.wordLine.clear⟩
  fields := List.forall_mem_singleton.mpr field

/-- A job whose only data file has no field but its `openname`. -/
def openedJob : FieldJob where
  info := single (lit "hf_name=hfA001") ⟨lit "hf_name", lit "hfA001", by decide⟩
  datafiles := [single (lit "openname=dfA001") ⟨lit "openname", lit "dfA001", by decide⟩]

/-- There is no ticket to read this job from. -/
theorem openedJob_lost : ¬ ∀ (job : FieldJob) (timeStr : Bytes), job.toJobLists.RoundTrips timeStr := by
  intro claimed
  obtain ⟨image, after, wrote, -⟩ := claimed openedJob (lit "now")
  have crashed : openedJob.toJobLists.setJobTicketFile (lit "now") = none :=
    setJobTicketFile_none openedJob.toJobLists (lit "now") rfl (by decide)
  cases crashed.symm.trans wrote

end JobLists

end LPRng
