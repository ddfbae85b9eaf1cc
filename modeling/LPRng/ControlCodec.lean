import LPRng.ControlText

/-!
# Control files read back

The lines that `Fix_control` and `Generate_control_file` write are read by
`Set_job_ticket_from_cf_info` as the prints they were written for, under other names for the files
and exactly where the names of neighbours agree with the way names are written.
-/

namespace LPRng

open PrintSequence

variable {safe number suffix : Bytes}

/-! ## New names for the data files -/

/-- The first three letters of a new name tell its number. -/
theorem newTransferName_shape {i : Nat} {s : Bytes} (new : newTransferName number suffix i = some s) :
    ∃ a b : Fin 52, 52 * a.val + b.val = i ∧
      s = 100 :: groupLetters.getD a 0 :: offsetLetters.getD b 0 :: (number ++ suffix) := by
  unfold newTransferName at new
  split at new
  · cases new
  next small =>
    exact ⟨⟨i / 52, by omega⟩, ⟨i % 52, by omega⟩, Nat.div_add_mod i 52, (Option.some.inj new).symm⟩

theorem letters_spec : (∀ a b : Fin 52, (groupLetters.getD a 0 = groupLetters.getD b 0 → a = b) ∧
    (offsetLetters.getD a 0 = offsetLetters.getD b 0 → a = b)) ∧
      ∀ a : Fin 52, isAlnum (groupLetters.getD a 0) = true ∧ isAlnum (offsetLetters.getD a 0) = true := by
  decide +kernel

theorem newTransferName_inj {i j : Nat} {s : Bytes} (first : newTransferName number suffix i = some s)
    (second : newTransferName number suffix j = some s) : i = j := by
  obtain ⟨a, b, rfl, shape⟩ := newTransferName_shape first
  obtain ⟨c, d, rfl, shape'⟩ := newTransferName_shape second
  rw [shape, List.cons.injEq, List.cons.injEq, List.cons.injEq] at shape'
  rw [(letters_spec.1 a c).1 shape'.2.1, (letters_spec.1 b d).2 shape'.2.2.1]

/-- The table of new names: different names have different ones, and they are the first `count`. -/
structure NameTable (number suffix : Bytes) (outfiles : LineList) (count : Nat) : Prop where
  sorted : KeySorted LineList.casekeyOf outfiles
  assigned : ∀ n s, outfiles.findCasekeyStrValue n hashValueSep = some s →
    ∃ i < count, newTransferName number suffix i = some s
  distinct : ∀ m n s, outfiles.findCasekeyStrValue m hashValueSep = some s →
    outfiles.findCasekeyStrValue n hashValueSep = some s → m = n

theorem nameTable_nil : NameTable number suffix [] 0 := by
  have nothing : ∀ n s, LineList.findCasekeyStrValue [] n hashValueSep ≠ some s := fun n s found => by
    rw [LineList.findCasekeyStrValue_nil] at found
    cases found
  exact ⟨keySorted_nil, fun n s found => absurd found (nothing n s),
    fun m n s found _ => absurd found (nothing m s)⟩

namespace NameTable

variable {outfiles : LineList} {count : Nat} {name s : Bytes}

theorem newTransferName_ne_nil (new : newTransferName number suffix count = some s) : s ≠ [] := by
  unfold newTransferName at new
  split at new
  · cases new
  · exact Option.some.inj new ▸ List.cons_ne_nil _ _

theorem find_add (table : NameTable number suffix outfiles count) (free : LineList.CasekeyFree name)
    (new : newTransferName number suffix count = some s) (other : Bytes) :
    (outfiles.setCasekeyStrValue name (some s)).findCasekeyStrValue other hashValueSep =
      if other = name then some s else outfiles.findCasekeyStrValue other hashValueSep :=
  LineList.findCasekeyStrValue_set table.sorted free (newTransferName_ne_nil new) other

theorem fresh (table : NameTable number suffix outfiles count)
    (new : newTransferName number suffix count = some s) (n : Bytes) :
    outfiles.findCasekeyStrValue n hashValueSep ≠ some s := by
  intro found
  obtain ⟨i, below, taken⟩ := table.assigned n s found
  have same := newTransferName_inj taken new
  omega

theorem add (table : NameTable number suffix outfiles count) (free : LineList.CasekeyFree name)
    (new : newTransferName number suffix count = some s) :
    NameTable number suffix (outfiles.setCasekeyStrValue name (some s)) (count + 1) := by
  have find := table.find_add free new
  refine ⟨LineList.keySorted_setCasekeyStrValue table.sorted (newTransferName_ne_nil new),
    fun n t found => ?_, fun m n t found found' => ?_⟩
  · rw [find] at found
    split at found
    · exact ⟨count, by omega, Option.some.inj found ▸ new⟩
    · obtain ⟨i, below, taken⟩ := table.assigned n t found
      exact ⟨i, by omega, taken⟩
  · rw [find] at found found'
    split at found <;> split at found'
    · next left right => exact left.trans right.symm
    · next left right =>
        rw [← found] at found'
        exact absurd found' (table.fresh new n)
    · next left right =>
        rw [← found'] at found
        exact absurd found (table.fresh new m)
    · exact table.distinct m n t found found'

end NameTable

/-- The data file is sent under the name the table has for it. -/
structure SentAs (table : LineList) (lp sent : Fields) : Prop where
  name : ∃ s, sent.findStrValue .ntransfername = some s ∧
    table.findCasekeyStrValue (lp.senderName.getD []) hashValueSep = some s
  format : sent.findStrValue .format = lp.findStrValue .format
  copies : sent.findFlagValue .copies = lp.findFlagValue .copies
  title : sent.findStrValue (.letter 78) = lp.findStrValue (.letter 78)

theorem Fields.openAs_of_ne {lp : Fields} {key : Key} (name : key ≠ .ntransfername)
    (opened : key ≠ .openname) (transfername : Option Bytes) : lp.openAs transfername key = lp key := by
  unfold openAs
  split
  · rw [setStrValue_of_ne opened, setStrValue_of_ne name]
  · rw [setStrValue_of_ne name]

theorem sentAs_openAs {table : LineList} {lp : Fields} {n s : Bytes} (named : lp.senderName = some n)
    (given : s ≠ []) (found : table.findCasekeyStrValue n hashValueSep = some s) :
    SentAs table lp ((lp.openAs (some n)).setStrValue .ntransfername (some s)) := by
  have kept : ∀ key : Key, key ≠ .ntransfername → key ≠ .openname →
      (lp.openAs (some n)).setStrValue .ntransfername (some s) key = lp key := fun key name opened =>
    (Fields.setStrValue_of_ne name _).trans (Fields.openAs_of_ne name opened _)
  refine ⟨⟨s, by simp [given], by rw [named]; exact found⟩, kept _ nofun nofun, ?_, kept _ nofun nofun⟩
  exact Fields.findFlagValue_congr (kept _ nofun nofun)

theorem nameDatafiles_spec {files named : List Fields} {outfiles last : LineList} {count total : Nat}
    (table : NameTable number suffix outfiles count)
    (names : ∀ lp ∈ files, ∃ n, lp.senderName = some n ∧ LineList.CasekeyFree n)
    (run : nameDatafiles number suffix outfiles count files = some (named, total, last)) :
    NameTable number suffix last total ∧
      (∀ n s, outfiles.findCasekeyStrValue n hashValueSep = some s →
        last.findCasekeyStrValue n hashValueSep = some s) ∧
      List.Forall₂ (SentAs last) files named := by
  induction files generalizing named outfiles count with
  | nil =>
      cases run
      exact ⟨table, fun _ _ found => found, .nil⟩
  | cons lp files ih =>
      obtain ⟨⟨n, sender, free⟩, later⟩ := List.forall_mem_cons.mp names
      rw [nameDatafiles, sender] at run
      dsimp only [Option.getD_some] at run
      rcases known : outfiles.findCasekeyStrValue n hashValueSep with - | s
      · rw [known] at run
        obtain ⟨s, new, run⟩ := Option.bind_eq_some_iff.mp run
        obtain ⟨⟨done, rest⟩, more, result⟩ := Option.bind_eq_some_iff.mp run
        obtain ⟨rfl, rfl, rfl⟩ := Prod.mk.injEq .. ▸ Option.some.inj result
        obtain ⟨whole, mono, sent⟩ := ih (table.add free new) later more
        have find := table.find_add free new
        refine ⟨whole, fun m t found => mono m t ?_, .cons ?_ sent⟩
        · have differs : m ≠ n := by
            rintro rfl
            rw [known] at found
            cases found
          rw [find, if_neg differs]
          exact found
        · exact sentAs_openAs sender (NameTable.newTransferName_ne_nil new)
            (mono n s (by rw [find, if_pos rfl]))
      · rw [known] at run
        obtain ⟨⟨done, rest⟩, more, result⟩ := Option.bind_eq_some_iff.mp run
        obtain ⟨rfl, rfl, rfl⟩ := Prod.mk.injEq .. ▸ Option.some.inj result
        obtain ⟨whole, mono, sent⟩ := ih table later more
        obtain ⟨i, -, taken⟩ := table.assigned n s known
        exact ⟨whole, mono, .cons (sentAs_openAs sender (NameTable.newTransferName_ne_nil taken)
          (mono n s known)) sent⟩

/-! ## Lines and what they say -/

/-- What is read for the name of a file. -/
def readName (safe s : Bytes) : Bytes := Reading.underscores (cleanMeta safe s)

def SingleLine (s : Bytes) : Prop := ∀ c ∈ s, c ∉ lineEnds

theorem lineEnds_spec : ∀ c ∈ lineEnds, isCntrl c = true ∧ isAlnum c = false ∧ c ≠ 45 := by
  have table : lineEnds.all (fun c => isCntrl c && !isAlnum c && c != 45) = true := rfl
  intro c member
  simpa [and_assoc] using List.all_eq_true.mp table c member

theorem lineOf_cons {c : UInt8} (s : Bytes) (alnum : isAlnum c = true) :
    lineOf safe (c :: s) =
      if isLower c then .file c (readName safe s)
      else if c = 78 then .name (cleanMeta safe s)
      else .other := by
  have clean : cleanMeta safe (c :: s) = c :: cleanMeta safe s := by
    rw [cleanMeta, List.map_cons, cleanChar_of_plainChar (plainChar_of_alnum alnum)]
    rfl
  unfold lineOf
  rw [clean]
  rfl

theorem isAlnum_of_isLower {c : UInt8} (lower : isLower c = true) : isAlnum c = true := by
  unfold isAlnum isAlpha
  rw [lower, Bool.or_true, Bool.true_or]

theorem isAlnum_of_isUpper {c : UInt8} (upper : isUpper c = true) : isAlnum c = true := by
  unfold isAlnum isAlpha
  rw [upper, Bool.true_or, Bool.true_or]

theorem isLower_of_isUpper {c : UInt8} (upper : isUpper c = true) : isLower c = false := by
  unfold isUpper at upper
  unfold isLower
  simp only [Bool.and_eq_true, decide_eq_true_eq, UInt8.le_iff_toNat_le] at upper
  simp only [Bool.and_eq_false_iff, decide_eq_false_iff_not, UInt8.le_iff_toNat_le]
  have low : (90 : UInt8).toNat = 90 ∧ (97 : UInt8).toNat = 97 := ⟨rfl, rfl⟩
  omega

theorem lineOf_file {c : UInt8} (s : Bytes) (lower : isLower c = true) :
    lineOf safe (c :: s) = .file c (readName safe s) := by
  rw [lineOf_cons s (isAlnum_of_isLower lower), if_pos lower]

theorem lineOf_upper {c : UInt8} (s : Bytes) (upper : isUpper c = true) :
    lineOf safe (c :: s) = if c = 78 then .name (cleanMeta safe s) else .other := by
  rw [lineOf_cons s (isAlnum_of_isUpper upper), if_neg (by rw [isLower_of_isUpper upper]; exact Bool.false_ne_true)]

theorem length_readName (s : Bytes) : (readName safe s).length = s.length := by
  rw [readName, Reading.underscores, cleanMeta, List.length_map, List.length_map]

theorem readName_of_plain {s : Bytes} (plain : ∀ c ∈ s, plainChar safe c = true) : readName safe s = s := by
  rw [readName, cleanMeta_of_plain plain]
  refine (List.map_congr_left fun c member => if_neg ?_).trans (List.map_id s)
  rintro (rfl | rfl)
  · exact absurd (isWhite_of_plainChar (plain _ member)) (by decide)
  · exact absurd (isWhite_of_plainChar (plain _ member)) (by decide)

theorem singleLine_of_plain {s : Bytes} (plain : ∀ c ∈ s, plainChar safe c = true) : SingleLine s := by
  intro c member ends
  have control := (lineEnds_spec c ends).1
  have clear := plain c member
  unfold plainChar at clear
  simp [control] at clear

theorem SingleLine.append {s t : Bytes} (left : SingleLine s) (right : SingleLine t) :
    SingleLine (s ++ t) := fun c member =>
  (List.mem_append.mp member).elim (left c) (right c)

theorem SingleLine.cons_letter {c : UInt8} {s : Bytes} (alnum : isAlnum c = true) (rest : SingleLine s) :
    SingleLine (c :: s) := by
  refine List.forall_mem_cons.mpr ⟨fun ends => ?_, rest⟩
  rw [(lineEnds_spec c ends).2.1] at alnum
  exact Bool.false_ne_true alnum

/-! ## Jobs with a control file -/

/-- The name of a data file: no cleaning changes it, and it is the key of a table. -/
structure FileName (safe n : Bytes) : Prop where
  given : n ≠ []
  plain : ∀ c ∈ n, plainChar safe c = true
  free : LineList.CasekeyFree n

/-- The original name of a file, as it was cleaned when the job came in. -/
structure Title (safe t : Bytes) : Prop where
  given : t ≠ []
  clean : cleanMeta safe t = t
  single : SingleLine t

/-- Each data file has a format, a number of copies, the name given and perhaps an original
name, and the job has a number of copies and fields of one line. -/
structure Writable (safe : Bytes) (name : Fields → Option Bytes) (ticket : Ticket) : Prop where
  named : ∀ lp ∈ ticket.datafiles, ∃ n, name lp = some n ∧ FileName safe n
  format : ∀ lp ∈ ticket.datafiles, ∃ c, lp.findStrValue .format = some [c] ∧ isLower c = true
  copies : ∀ lp ∈ ticket.datafiles, 0 ≤ lp.findFlagValue .copies
  jobCopies : 0 ≤ ticket.info.findFlagValue .copies
  title : ∀ lp ∈ ticket.datafiles, ∀ t, lp.findStrValue (.letter 78) = some t → Title safe t
  fields : ∀ key value, ticket.info key = some value → SingleLine value

/-- What is printed with a job: its data files in order, as often as the job has copies. -/
def Ticket.prints (name : Fields → Option Bytes) (ticket : Ticket) : List (Print Bytes UInt8 Bytes) :=
  (List.replicate (timesPrinted (ticket.info.findFlagValue .copies))
    (filePrints name ticket.datafiles)).flatten

/-- The data files of the second list are printed as it says in the first, where the files may have
other names. -/
def SamePrints (prints : List (Print Bytes UInt8 Bytes)) (datafiles : List Fields) : Prop :=
  ∃ f, Distinct f prints ∧ filePrints Fields.otransfername datafiles = prints.map (Print.rename f)

/-! ## The lines of the data files -/

/-- The name that is read for a file of the table. -/
def readFrom (safe : Bytes) (table : LineList) (n : Bytes) : Bytes :=
  readName safe ((table.findCasekeyStrValue n hashValueSep).getD [])

variable {nlineAfterFile : Bool} {table : LineList} {lp sent : Fields}

/-- The line with the original name of a file. -/
theorem map_lineOf_title (title : ∀ t, lp.findStrValue (.letter 78) = some t → Title safe t) :
    ((lp.findStrValue (.letter 78)).toList.map (78 :: ·)).map (lineOf safe) =
      (lp.findStrValue (.letter 78)).toList.map Line.name := by
  rcases given : lp.findStrValue (.letter 78) with - | t
  · rfl
  · rw [Option.toList_some, List.map_singleton, List.map_singleton, List.map_singleton,
      lineOf_upper t (by decide), if_pos rfl, (title t given).clean]

/-- The lines of one copy: the file, with its name before or behind it. -/
theorem copyLines_read (nlineAfterFile : Bool) (sentAs : SentAs table lp sent) {c : UInt8}
    (format : lp.findStrValue .format = some [c]) (lower : isLower c = true)
    (title : ∀ t, lp.findStrValue (.letter 78) = some t → Title safe t) :
    (copyLines nlineAfterFile [] sent).map (lineOf safe) =
      ((lp.print lp.senderName).rename (readFrom safe table)).lines nlineAfterFile := by
  obtain ⟨s, new, found⟩ := sentAs.name
  have nonzero : c ≠ 0 := by
    rintro rfl
    exact absurd lower (by decide)
  have byte : cstr [c] = [c] := cstr_of_noNul (by simpa using nonzero.symm)
  have file : lineOf safe (c :: s) = .file c (readFrom safe table (lp.senderName.getD [])) := by
    rw [lineOf_file s lower, readFrom, found]
    rfl
  have name := map_lineOf_title title
  unfold copyLines Print.lines Print.rename Fields.print
  rw [sentAs.format, sentAs.title, format, new]
  simp only [Option.getD_some, List.headD_cons, translateFormat, byte, List.singleton_append]
  split
  · rw [List.map_cons, file, name]
    rfl
  · rw [List.map_append, List.map_singleton, file, name]
    rfl

theorem fileLines_read (nlineAfterFile : Bool) (sentAs : SentAs table lp sent) {c : UInt8}
    (format : lp.findStrValue .format = some [c]) (lower : isLower c = true)
    (title : ∀ t, lp.findStrValue (.letter 78) = some t → Title safe t) :
    (fileLines nlineAfterFile [] sent).map (lineOf safe) =
      writeAll nlineAfterFile ((List.replicate (timesPrinted (lp.findFlagValue .copies))
        (lp.print lp.senderName)).map (Print.rename (readFrom safe table))) := by
  rw [fileLines, sentAs.copies, List.map_flatten, List.map_replicate,
    copyLines_read nlineAfterFile sentAs format lower title, List.map_replicate, writeAll,
    List.flatMap_replicate]

/-- A line that is read alone, and has something behind its letter. -/
structure TextLine (safe line : Bytes) : Prop where
  single : SingleLine line
  proper : Proper (lineOf safe line)

theorem textLine_title (title : ∀ t, lp.findStrValue (.letter 78) = some t → Title safe t) :
    ∀ line ∈ (lp.findStrValue (.letter 78)).toList.map (78 :: ·), TextLine safe line := by
  intro line member
  obtain ⟨t, known, rfl⟩ := List.mem_map.mp member
  have whole := title t (Option.mem_toList.mp known)
  refine ⟨.cons_letter (by decide) whole.single, ?_⟩
  rw [lineOf_upper t (by decide), if_pos rfl, whole.clean]
  exact whole.given

theorem singleLine_newTransferName (numbers : SingleLine number) (suffixes : SingleLine suffix) {i : Nat}
    {s : Bytes} (new : newTransferName number suffix i = some s) : SingleLine s := by
  obtain ⟨a, b, -, rfl⟩ := newTransferName_shape new
  exact .cons_letter (by decide) (.cons_letter (letters_spec.2 a).1
    (.cons_letter (letters_spec.2 b).2 (numbers.append suffixes)))

theorem textLine_copyLines (sentAs : SentAs table lp sent) {c : UInt8}
    (format : lp.findStrValue .format = some [c]) (lower : isLower c = true)
    (title : ∀ t, lp.findStrValue (.letter 78) = some t → Title safe t)
    (new : ∀ s, sent.findStrValue .ntransfername = some s → s ≠ [] ∧ SingleLine s) :
    ∀ line ∈ copyLines nlineAfterFile [] sent, TextLine safe line := by
  obtain ⟨s, name, -⟩ := sentAs.name
  obtain ⟨given, single⟩ := new s name
  have nonzero : c ≠ 0 := by
    rintro rfl
    exact absurd lower (by decide)
  have byte : cstr [c] = [c] := cstr_of_noNul (by simpa using nonzero.symm)
  have file : TextLine safe (c :: s) := by
    refine ⟨.cons_letter (isAlnum_of_isLower lower) single, ?_⟩
    rw [lineOf_file s lower]
    intro empty
    exact given (List.eq_nil_of_length_eq_zero ((length_readName s).symm.trans (congrArg List.length empty)))
  have titles := textLine_title title
  unfold copyLines
  rw [sentAs.format, sentAs.title, format, name]
  simp only [Option.getD_some, List.headD_cons, translateFormat, byte, List.singleton_append]
  intro line member
  split at member
  · rcases List.mem_cons.mp member with rfl | member
    · exact file
    · exact titles line member
  · rcases List.mem_append.mp member with member | member
    · exact titles line member
    · exact List.mem_singleton.mp member ▸ file

theorem mem_removeLines {outfiles : LineList} {files : List Fields} {line : Bytes}
    (member : line ∈ removeLines outfiles files) :
    ∃ file ∈ files, line = 85 :: (file.findStrValue .ntransfername).getD [] := by
  induction files generalizing outfiles with
  | nil => cases member
  | cons file files ih =>
      rw [removeLines] at member
      split at member
      · obtain ⟨other, later, shape⟩ := ih member
        exact ⟨other, List.mem_cons_of_mem file later, shape⟩
      · rcases List.mem_cons.mp member with rfl | member
        · exact ⟨file, List.mem_cons_self, rfl⟩
        · obtain ⟨other, later, shape⟩ := ih member
          exact ⟨other, List.mem_cons_of_mem file later, shape⟩

/-! ## The lines of the options -/

/-- All values are of one line. -/
def Fields.SingleLines (l : Fields) : Prop := ∀ key value, l key = some value → SingleLine value

theorem Fields.SingleLines.setStrValue {l : Fields} (singles : l.SingleLines) (key : Key)
    {value : Option Bytes} (single : ∀ v, value = some v → SingleLine v) :
    (l.setStrValue key value).SingleLines := by
  intro other v found
  by_cases same : other = key
  · rw [same, setStrValue_self] at found
    exact single v (Option.filter_eq_some_iff.mp found).1
  · rw [setStrValue_of_ne same] at found
    exact singles other v found

structure ControlConfig.SingleLines (config : ControlConfig) : Prop where
  forceQueuename : ∀ name, config.forceQueuename = some name → SingleLine name
  queueName : ∀ name, config.queueName = some name → SingleLine name
  printer : ∀ name, config.printer = some name → SingleLine name
  defaultPriority : ∀ priority, config.defaultPriority = some priority → SingleLine priority
  fqdnHost : SingleLine config.fqdnHost

variable {config : ControlConfig}

theorem optionLine_spec {c : UInt8} {value line : Bytes} (sent : config.optionLine c value = some line) :
    ∃ v, line = c :: v ∧ v <+: value ∧ (value ≠ [] → v ≠ []) := by
  have table : ∀ c : UInt8, ((maxclen.lookup c).getD 0 == 0 || decide (2 ≤ (maxclen.lookup c).getD 0)) = true :=
    forall_byte (by decide +kernel)
  have long : ∀ len, len = 0 ∨ 2 ≤ len →
      (if len ≠ 0 ∧ len < value.length + 1 then value.take (len - 1) else value) <+: value ∧
        (value ≠ [] → (if len ≠ 0 ∧ len < value.length + 1 then value.take (len - 1) else value) ≠ []) := by
    intro len two
    split
    · next cut =>
        refine ⟨List.take_prefix _ _, fun given empty => ?_⟩
        rcases List.take_eq_nil_iff.mp empty with none_left | none_given
        · omega
        · exact given none_given
    · exact ⟨List.prefix_rfl, id⟩
  unfold ControlConfig.optionLine at sent
  split at sent
  · refine ⟨_, (Option.some.inj sent).symm, long _ ?_⟩
    split
    · simpa using table c
    · exact Or.inl rfl
  · cases sent

theorem isUpper_of_mem {c : UInt8} (member : c ∈ upperLetters) : isUpper c = true := by
  have all : upperLetters.all isUpper = true := rfl
  exact List.all_eq_true.mp all c member

theorem mem_optionLines {options : Fields} {line : Bytes} (member : line ∈ config.optionLines options) :
    ∃ c value, isUpper c = true ∧ options (.letter c) = some value ∧ config.optionLine c value = some line := by
  unfold ControlConfig.optionLines at member
  rw [List.mem_mergeSort, List.mem_filterMap] at member
  obtain ⟨c, letter, sent⟩ := member
  obtain ⟨value, found, line_⟩ := Option.bind_eq_some_iff.mp sent
  exact ⟨c, value, isUpper_of_mem letter, found, line_⟩

/-- The values of a control file are of one line, and an `N` line has one. -/
theorem textLine_optionLines {options : Fields} (singles : options.SingleLines)
    (name : ∀ value, options (.letter 78) = some value → value ≠ []) :
    ∀ line ∈ config.optionLines options, TextLine safe line := by
  intro line member
  obtain ⟨c, value, upper, found, sent⟩ := mem_optionLines member
  obtain ⟨v, rfl, front, given⟩ := optionLine_spec sent
  refine ⟨.cons_letter (isAlnum_of_isUpper upper) fun d inside =>
    singles _ _ found d (front.subset inside), ?_⟩
  rw [lineOf_upper v upper]
  split
  · next letter =>
      subst letter
      exact fun empty => given (name value found) (List.map_eq_nil_iff.mp empty)
  · trivial

/-- Of the options, only an `N` line says something about the files. -/
theorem optionLines_tells (options : Fields) :
    ((config.optionLines options).map (lineOf safe)).filter Line.tells =
      ((options (.letter 78)).bind (config.optionLine 78)).toList.map fun line =>
        .name (cleanMeta safe line.tail) := by
  have silent : ∀ letters : List UInt8, (∀ c ∈ letters, isUpper c = true ∧ c ≠ 78) →
      ((letters.filterMap fun c => (options (.letter c)).bind (config.optionLine c)).map
        (lineOf safe)).filter Line.tells = [] := by
    intro letters others
    rw [List.filter_eq_nil_iff]
    intro said member
    obtain ⟨line, origin, rfl⟩ := List.mem_map.mp member
    obtain ⟨c, letter, option⟩ := List.mem_filterMap.mp origin
    obtain ⟨value, -, sent⟩ := Option.bind_eq_some_iff.mp option
    obtain ⟨v, rfl, -⟩ := optionLine_spec sent
    rw [lineOf_upper v (others c letter).1, if_neg (others c letter).2]
    exact Bool.false_ne_true
  have split_ : upperLetters = upperLetters.take 13 ++ 78 :: upperLetters.drop 14 := rfl
  have others : ∀ letters : List UInt8, letters.all (fun c => isUpper c && c != 78) = true →
      ∀ c ∈ letters, isUpper c = true ∧ c ≠ 78 := by
    intro letters table c member
    simpa using List.all_eq_true.mp table c member
  have front := others (upperLetters.take 13) rfl
  have back := others (upperLetters.drop 14) rfl
  have unsorted : ((upperLetters.filterMap fun c => (options (.letter c)).bind (config.optionLine c)).map
      (lineOf safe)).filter Line.tells = ((options (.letter 78)).bind (config.optionLine 78)).toList.map
        fun line => .name (cleanMeta safe line.tail) := by
    rw [split_, List.filterMap_append, List.map_append, List.filter_append, silent _ front,
      List.nil_append, List.filterMap_cons]
    rcases sent : (options (.letter 78)).bind (config.optionLine 78) with - | line
    · exact silent _ back
    · obtain ⟨value, -, shape⟩ := Option.bind_eq_some_iff.mp sent
      obtain ⟨v, rfl, -⟩ := optionLine_spec shape
      dsimp only
      rw [List.map_cons, lineOf_upper v (by decide), if_pos rfl, List.filter_cons_of_pos rfl, silent _ back]
      rfl
  have same : (config.optionLines options).Perm
      (upperLetters.filterMap fun c => (options (.letter c)).bind (config.optionLine c)) :=
    List.mergeSort_perm _ _
  have said := ((same.map (lineOf safe)).filter Line.tells)
  rw [unsorted] at said
  generalize (options (.letter 78)).bind (config.optionLine 78) = routed at said ⊢
  rcases routed with - | line
  · exact said.eq_nil
  · exact said.eq_singleton

/-- The name that a destination puts in front of all files, as it is read. -/
def ControlConfig.routedName (config : ControlConfig) (safe : Bytes) (destination : Option Fields) :
    Option Bytes :=
  (((destination.bind (·.findStrValue (.letter 78))).filter (· ≠ [])).bind (config.optionLine 78)).map
    fun line => cleanMeta safe line.tail

/-- The options as they are before those of the destination. -/
theorem header_eq (config : ControlConfig) (timeStr : Bytes) (start info : Fields)
    (destination : Option Fields) : ∃ options : Fields, options (.letter 78) = none ∧
      (config.SingleLines → SingleLine timeStr → start.SingleLines →
        (∀ s, identifierLine info destination = some s → SingleLine s) → options.SingleLines) ∧
      config.header timeStr start info destination =
        config.optionLines (routeOptions (destination.getD .empty) options) := by
  unfold ControlConfig.header
  extract_lets identified dated queued
  refine ⟨queued, ?_, fun singles time fields identifier => ?_, rfl⟩
  · have first : identified (.letter 78) = none :=
      (Fields.setStrValue_of_ne (show Key.letter 78 ≠ .identifier by decide) _).trans rfl
    have second : dated (.letter 78) = none := by
      unfold dated
      split
      · exact first
      · exact (Fields.setStrValue_of_ne (show Key.letter 78 ≠ .date by decide) _).trans first
    unfold queued
    split
    · exact (Fields.setStrValue_of_ne (show Key.letter 78 ≠ .queuename by decide) _).trans second
    · exact second
  · have options : (config.options start).SingleLines := by
      intro key value found
      unfold ControlConfig.options at found
      split at found
      · split at found
        · exact fields _ value (Option.filter_eq_some_iff.mp found).1
        · cases found
      · cases found
    have first : identified.SingleLines := options.setStrValue _ identifier
    have second : dated.SingleLines := by
      unfold dated
      split
      · exact first
      · exact first.setStrValue _ fun v same => Option.some.inj same ▸ time
    unfold queued
    split
    · refine second.setStrValue _ fun v same => ?_
      rcases Option.or_eq_some_iff.mp same with same | ⟨-, same⟩
      · rcases Option.or_eq_some_iff.mp same with same | ⟨-, same⟩
        · exact singles.forceQueuename v same
        · exact singles.queueName v same
      · exact singles.printer v same
    · exact second

theorem routeOptions_name {destination options : Fields} (unnamed : options (.letter 78) = none) :
    routeOptions destination options (.letter 78) = (destination (.letter 78)).filter (· ≠ []) := by
  rw [routeOptions]
  rcases destination (.letter 78) with - | value
  · exact unnamed
  · exact if_pos (by decide)

theorem Fields.SingleLines.routeOptions {destination options : Fields} (routed : destination.SingleLines)
    (singles : options.SingleLines) : (routeOptions destination options).SingleLines := by
  intro key value found
  unfold LPRng.routeOptions at found
  split at found
  · split at found
    · next sent =>
        split at found
        · exact routed _ value (sent.trans (Option.filter_eq_some_iff.mp found).1)
        · exact singles _ value found
    · exact singles _ value found
  · exact singles _ value found

/-- What is read from the lines in front: nothing but a routed name. -/
theorem header_tells (config : ControlConfig) (timeStr : Bytes) (start info : Fields)
    (destination : Option Fields) :
    ((config.header timeStr start info destination).map (lineOf safe)).filter Line.tells =
      (config.routedName safe destination).toList.map Line.name := by
  obtain ⟨options, unnamed, -, lines⟩ := header_eq config timeStr start info destination
  rw [lines, optionLines_tells, routeOptions_name unnamed, ControlConfig.routedName]
  have name : (destination.getD .empty) (.letter 78) =
      destination.bind (·.findStrValue (.letter 78)) := by
    cases destination <;> rfl
  rw [name]
  generalize ((destination.bind _).filter _).bind _ = routed
  cases routed <;> rfl

/-! ## The fields set before a job is sent -/

theorem SingleLine.of_subset {s t : Bytes} (single : SingleLine s) (inside : t ⊆ s) : SingleLine t :=
  fun c member => single c (inside member)

theorem singleLine_of_digits {s : Bytes} (digits : ∀ c ∈ s, isDigit c = true ∨ c = 45) : SingleLine s := by
  intro c member ends
  obtain ⟨-, letter, minus⟩ := lineEnds_spec c ends
  rcases digits c member with digit | same
  · unfold isAlnum at letter
    rw [digit, Bool.or_true] at letter
    exact Bool.false_ne_true letter.symm
  · exact minus same

theorem singleLine_printInt (n : Int) : SingleLine (printInt n) := by
  refine singleLine_of_digits fun c member => ?_
  unfold printInt at member
  split at member
  · rcases List.mem_cons.mp member with rfl | member
    · exact Or.inr rfl
    · exact Or.inl (isDigit_of_mem_printNat member)
  · exact Or.inl (isDigit_of_mem_printNat member)

theorem singleLine_fixJobNumber (long : Bool) (n : Int) : SingleLine (JobNumber.fixJobNumber long n) := by
  have padded : ∀ width n, SingleLine (JobNumber.printPadded width n) := by
    intro width n
    have left : ∀ width, ∀ c ∈ JobNumber.padLeft width (printNat 10 n.natAbs), isDigit c = true := by
      intro width c member
      rcases List.mem_append.mp member with zero | digit
      · rw [List.eq_of_mem_replicate zero]
        decide
      · exact isDigit_of_mem_printNat digit
    refine singleLine_of_digits fun c member => ?_
    unfold JobNumber.printPadded at member
    split at member
    · rcases List.mem_cons.mp member with rfl | member
      · exact Or.inr rfl
      · exact Or.inl (left _ c member)
    · exact Or.inl (left _ c member)
  unfold JobNumber.fixJobNumber
  split
  · exact padded 6 _
  · exact padded 3 _

/-- The words that are written where a job has no value of its own. -/
theorem singleLine_words : SingleLine (lit "cf") ∧ SingleLine (lit "A") ∧ SingleLine (lit "nobody") ∧
    SingleLine (lit "unknown") := by
  unfold SingleLine
  decide

theorem Fields.SingleLines.getD {l : Fields} (singles : l.SingleLines) (key : Key) {other : Bytes}
    (single : SingleLine other) : SingleLine ((l.findStrValue key).getD other) := by
  rcases found : l.findStrValue key with - | value
  · exact single
  · exact singles key value found

theorem Fields.SingleLines.makeIdentifier {info : Fields} (singles : info.SingleLines) :
    info.makeIdentifier.SingleLines := by
  obtain ⟨-, -, nobody, unknown⟩ := singleLine_words
  have sign : ∀ c : UInt8, lineEnds.contains c = false → SingleLine [c] := by
    intro c outside d member
    rw [List.mem_singleton.mp member]
    simpa using outside
  unfold Fields.makeIdentifier
  split
  · exact singles
  · refine singles.setStrValue _ fun v same => ?_
    have host := (singles.getD .fromhost unknown).of_subset (List.takeWhile_subset (· ≠ 46))
    have text := (singles.getD .logname nobody).append
      ((sign 64 rfl).append (host.append ((sign 43 rfl).append (singleLine_printInt (info.findDecimalValue .number)))))
    simpa [← Option.some.inj same] using text

theorem ControlConfig.fixInfo_copies (config : ControlConfig) (info : Fields) (destination : Option Fields) :
    config.fixInfo info destination .copies = info .copies := by
  have number : config.setNumber info .copies = info .copies :=
    Fields.setStrValue_of_ne (show Key.copies ≠ .number by decide) _
  have host : config.setFileHostname (config.setNumber info) .copies = config.setNumber info .copies :=
    config.setFileHostname_of_ne _ (by decide)
  have name : config.setCfTransferName destination (config.setFileHostname (config.setNumber info)) .copies =
      config.setFileHostname (config.setNumber info) .copies :=
    Fields.setStrValue_of_ne (show Key.copies ≠ .cftransfername by decide) _
  rw [fixInfo, Fields.makeIdentifier_of_ne _ (show Key.copies ≠ .identifier by decide), name, host, number]

theorem ControlConfig.SingleLines.setNumber {info : Fields} (fields : info.SingleLines) :
    (config.setNumber info).SingleLines :=
  fields.setStrValue _ fun _ same => Option.some.inj same ▸ singleLine_fixJobNumber _ _

theorem ControlConfig.SingleLines.setFileHostname (singles : config.SingleLines) {info : Fields}
    (fields : info.SingleLines) : (config.setFileHostname info).SingleLines := by
  unfold ControlConfig.setFileHostname
  split
  · exact fields
  · refine fields.setStrValue _ fun v same => Option.some.inj same ▸ ?_
    rcases given : (info.findStrValue .fromhost).filter (· ≠ []) with - | name
    · exact singles.fqdnHost
    · exact fields _ name (Option.filter_eq_some_iff.mp given).1

theorem ControlConfig.SingleLines.setCfTransferName (singles : config.SingleLines) {info : Fields}
    (fields : info.SingleLines) {destination : Option Fields}
    (routed : ∀ list, destination = some list → list.SingleLines) :
    (config.setCfTransferName destination info).SingleLines := by
  obtain ⟨cf, letter, -, -⟩ := singleLine_words
  have priority : SingleLine ((((destination.bind (·.findStrValue .priority)).or
      (info.findStrValue .priority)).or config.defaultPriority).getD (lit "A")) := by
    rcases given : ((destination.bind (·.findStrValue .priority)).or
      (info.findStrValue .priority)).or config.defaultPriority with - | text
    · exact letter
    · rcases Option.or_eq_some_iff.mp given with given | ⟨-, given⟩
      · rcases Option.or_eq_some_iff.mp given with given | ⟨-, given⟩
        · obtain ⟨list, some_, found⟩ := Option.bind_eq_some_iff.mp given
          exact routed list some_ _ text found
        · exact fields _ text given
      · exact singles.defaultPriority text given
  have host : SingleLine ((info.findStrValue .fileHostname).getD []) := fields.getD _ nofun
  refine fields.setStrValue _ fun v same => Option.some.inj same ▸ ?_
  have number : SingleLine ((info.findStrValue .number).getD []) := fields.getD _ nofun
  refine cf.append ((priority.of_subset (List.take_subset _ _)).append (number.append ?_))
  split
  · exact host.of_subset (List.takeWhile_subset _)
  · exact host

theorem ControlConfig.SingleLines.fixInfo (singles : config.SingleLines) {info : Fields}
    (fields : info.SingleLines) {destination : Option Fields}
    (routed : ∀ list, destination = some list → list.SingleLines) :
    (config.fixInfo info destination).SingleLines :=
  (singles.setCfTransferName (singles.setFileHostname (setNumber fields)) routed).makeIdentifier

/-! ## A job that is sent -/

theorem readName_cons {c : UInt8} (s : Bytes) (alnum : isAlnum c = true) :
    readName safe (c :: s) = c :: readName safe s := by
  have plain : plainChar safe c = true := plainChar_of_alnum alnum
  have black : ¬(c = 32 ∨ c = 9) := by
    rintro (rfl | rfl)
    · exact absurd alnum (by decide)
    · exact absurd alnum (by decide)
  unfold readName Reading.underscores cleanMeta
  rw [List.map_cons, cleanChar_of_plainChar plain, List.map_cons, if_neg black]

theorem newTransferName_readName {i j : Nat} {s t : Bytes} (first : newTransferName number suffix i = some s)
    (second : newTransferName number suffix j = some t) (same : readName safe s = readName safe t) :
    i = j := by
  obtain ⟨a, b, rfl, rfl⟩ := newTransferName_shape first
  obtain ⟨c, d, rfl, rfl⟩ := newTransferName_shape second
  have letter : isAlnum 100 = true := by decide
  rw [readName_cons _ letter, readName_cons _ letter, readName_cons _ (letters_spec.2 a).1,
    readName_cons _ (letters_spec.2 c).1, readName_cons _ (letters_spec.2 b).2,
    readName_cons _ (letters_spec.2 d).2, List.cons.injEq, List.cons.injEq, List.cons.injEq] at same
  rw [(letters_spec.1 a c).1 same.2.1, (letters_spec.1 b d).2 same.2.2.1]

/-- Files that have names in the table keep different names. -/
theorem NameTable.distinct_readFrom {outfiles : LineList} {count : Nat}
    (table : NameTable number suffix outfiles count) {prints : List (Print Bytes UInt8 Bytes)}
    (named : ∀ u ∈ prints, ∃ s, outfiles.findCasekeyStrValue u.file hashValueSep = some s) :
    Distinct (readFrom safe outfiles) prints := by
  intro u member v member' same
  obtain ⟨s, found⟩ := named u member
  obtain ⟨t, found'⟩ := named v member'
  obtain ⟨i, -, new⟩ := table.assigned _ _ found
  obtain ⟨j, -, new'⟩ := table.assigned _ _ found'
  rw [readFrom, readFrom, found, found'] at same
  obtain rfl := newTransferName_readName new new' same
  rw [new] at new'
  exact table.distinct _ _ s found ((Option.some.inj new') ▸ found')

theorem mem_prints {name : Fields → Option Bytes} {ticket : Ticket} {u : Print Bytes UInt8 Bytes}
    (member : u ∈ ticket.prints name) : ∃ lp ∈ ticket.datafiles, u = lp.print (name lp) := by
  obtain ⟨round, copies, member⟩ := List.mem_flatten.mp member
  rw [List.eq_of_mem_replicate copies] at member
  obtain ⟨lp, listed, member⟩ := List.mem_flatMap.mp member
  exact ⟨lp, listed, List.eq_of_mem_replicate member⟩

variable {ticket : Ticket}

/-- The lines of all data files, as they are read. -/
theorem dataLines_read (nlineAfterFile : Bool) {named : List Fields}
    (writable : Writable safe Fields.senderName ticket)
    (sentAs : List.Forall₂ (SentAs table) ticket.datafiles named) :
    ((List.replicate (timesPrinted (ticket.info.findFlagValue .copies))
        (named.flatMap (fileLines nlineAfterFile []))).flatten).map (lineOf safe) =
      writeAll nlineAfterFile
        ((ticket.prints Fields.senderName).map (Print.rename (readFrom safe table))) := by
  have round : (named.flatMap (fileLines nlineAfterFile [])).map (lineOf safe) =
      writeAll nlineAfterFile ((filePrints Fields.senderName ticket.datafiles).map
        (Print.rename (readFrom safe table))) := by
    have formats := writable.format
    have titles := writable.title
    generalize ticket.datafiles = files at sentAs formats titles
    induction sentAs with
    | nil => rfl
    | @cons lp sent files named one rest ih =>
        obtain ⟨⟨c, format, lower⟩, formats⟩ := List.forall_mem_cons.mp formats
        obtain ⟨title, titles⟩ := List.forall_mem_cons.mp titles
        have later := ih formats titles
        unfold writeAll filePrints at later ⊢
        rw [List.flatMap_cons, List.map_append, List.flatMap_cons, List.map_append, List.flatMap_append,
          later, fileLines_read nlineAfterFile one format lower title]
        rfl
  rw [List.map_flatten, List.map_replicate, round, Ticket.prints, List.map_flatten, List.map_replicate,
    writeAll, writeAll, List.flatMap_def, List.flatMap_def, List.map_flatten, List.map_replicate,
    List.flatten_flatten, List.map_replicate]

theorem sentAs_of_mem {files named : List Fields} (sentAs : List.Forall₂ (SentAs table) files named) :
    ∀ sent ∈ named, ∃ lp ∈ files, SentAs table lp sent := by
  induction sentAs with
  | nil => exact nofun
  | @cons lp sent files named one rest ih =>
      refine List.forall_mem_cons.mpr ⟨⟨lp, List.mem_cons_self, one⟩, fun other member => ?_⟩
      obtain ⟨origin, listed, sentAs⟩ := ih other member
      exact ⟨origin, List.mem_cons_of_mem lp listed, sentAs⟩

theorem named_of_mem {files named : List Fields} (sentAs : List.Forall₂ (SentAs table) files named) :
    ∀ lp ∈ files, ∃ s, table.findCasekeyStrValue (lp.senderName.getD []) hashValueSep = some s := by
  induction sentAs with
  | nil => exact nofun
  | @cons lp sent files named one rest ih =>
      obtain ⟨s, -, found⟩ := one.name
      exact List.forall_mem_cons.mpr ⟨⟨s, found⟩, ih⟩

/-- The new name of a data file is that of its table, and one line. -/
theorem SentAs.newName {count : Nat} (sentAs : SentAs table lp sent)
    (whole : NameTable number suffix table count) (numbers : SingleLine number)
    (suffixes : SingleLine suffix) :
    ∀ s, sent.findStrValue .ntransfername = some s → s ≠ [] ∧ SingleLine s := by
  intro s name
  obtain ⟨t, same, found⟩ := sentAs.name
  obtain rfl := Option.some.inj (name.symm.trans same)
  obtain ⟨i, -, new⟩ := whole.assigned _ _ found
  exact ⟨NameTable.newTransferName_ne_nil new, singleLine_newTransferName numbers suffixes new⟩

theorem textLine_dataLines {count : Nat} (nlineAfterFile : Bool) {named : List Fields} (copies : Nat)
    (writable : Writable safe Fields.senderName ticket)
    (sentAs : List.Forall₂ (SentAs table) ticket.datafiles named)
    (whole : NameTable number suffix table count) (numbers : SingleLine number)
    (suffixes : SingleLine suffix) :
    ∀ line ∈ (List.replicate copies (named.flatMap (fileLines nlineAfterFile []))).flatten,
      TextLine safe line := by
  intro line member
  obtain ⟨round, copy, member⟩ := List.mem_flatten.mp member
  rw [List.eq_of_mem_replicate copy] at member
  obtain ⟨sent, listed, member⟩ := List.mem_flatMap.mp member
  obtain ⟨lines, copy, member⟩ := List.mem_flatten.mp member
  rw [List.eq_of_mem_replicate copy] at member
  obtain ⟨lp, origin, sentAs⟩ := sentAs_of_mem sentAs sent listed
  obtain ⟨c, format, lower⟩ := writable.format lp origin
  exact textLine_copyLines sentAs format lower (writable.title lp origin)
    (sentAs.newName whole numbers suffixes) line member

theorem lineOf_remove (s : Bytes) : lineOf safe (85 :: s) = .other := by
  rw [lineOf_upper s (by decide), if_neg (by decide)]

theorem textLine_remove {s : Bytes} (single : SingleLine s) : TextLine safe (85 :: s) := by
  refine ⟨.cons_letter (by decide) single, ?_⟩
  rw [lineOf_remove]
  trivial

theorem textLine_header (singles : config.SingleLines) {timeStr : Bytes} (time : SingleLine timeStr)
    {start info : Fields} (started : start.SingleLines) (fields : info.SingleLines)
    {destination : Option Fields} (routed : ∀ list, destination = some list → list.SingleLines) :
    ∀ line ∈ config.header timeStr start info destination, TextLine safe line := by
  obtain ⟨options, unnamed, single, lines⟩ := header_eq config timeStr start info destination
  have identifier : ∀ s, identifierLine info destination = some s → SingleLine s := by
    rcases destination with - | list
    · exact fields _
    · intro s found
      unfold identifierLine at found
      dsimp only at found
      split at found
      · have copy : SingleLine (67 :: printInt (toInt32 (list.findFlagValue .copyDone + 1))) :=
          .cons_letter (by decide) (singleLine_printInt _)
        exact Option.some.inj found ▸
          ((routed list rfl).getD _ (show SingleLine [] from nofun)).append copy
      · exact routed list rfl _ s found
  have overrides : (destination.getD .empty).SingleLines := by
    rcases destination with - | list
    · exact nofun
    · exact routed list rfl
  rw [lines]
  refine textLine_optionLines (overrides.routeOptions (single singles time started identifier)) ?_
  intro value found
  rw [routeOptions_name unnamed] at found
  simpa using (Option.filter_eq_some_iff.mp found).2

/-- The text of the control file. -/
def Ticket.cfText (ticket : Ticket) : Bytes := (ticket.info.findStrValue .cfOutImage).getD []

theorem cfText_setStrValue (ticket : Ticket) (info : Fields) (text : Bytes) :
    ({ ticket with info := info.setStrValue .cfOutImage (some text) } : Ticket).cfText = text := by
  change ((info.setStrValue .cfOutImage (some text)) .cfOutImage).getD [] = text
  rw [Fields.setStrValue_self]
  cases text <;> rfl

/-- What `Fix_control` wrote: a routed name, if there is one, and the prints under other names. -/
theorem fixControl_lines (singles : config.SingleLines) {timeStr : Bytes} (time : SingleLine timeStr)
    {destination : Option Fields} (routed : ∀ list, destination = some list → list.SingleLines)
    (writable : Writable safe Fields.senderName ticket) {updateDfNames : Bool} {sent : Ticket}
    (run : config.fixControl timeStr ticket destination [] updateDfNames = some sent) :
    ∃ (lines : List Bytes) (f : Bytes → Bytes), sent.cfText = textOf lines ∧
      (∀ line ∈ lines, TextLine safe line) ∧ Distinct f (ticket.prints Fields.senderName) ∧
      (lines.map (lineOf safe)).filter Line.tells =
        (config.routedName safe destination).toList.map Line.name ++
          (writeAll config.nlineAfterFile
            ((ticket.prints Fields.senderName).map (Print.rename f))).filter Line.tells := by
  have fields := singles.fixInfo writable.fields routed
  have numbers : SingleLine (((config.fixInfo ticket.info destination).findStrValue .number).getD []) :=
    fields.getD _ (show SingleLine [] from nofun)
  have suffixes : SingleLine (((config.fixInfo ticket.info destination).findStrValue .fileHostname).getD []) :=
    fields.getD _ (show SingleLine [] from nofun)
  obtain ⟨⟨lines, datafiles, count⟩, data, result⟩ := Option.bind_eq_some_iff.mp run
  obtain ⟨⟨named, total, table⟩, names, parts⟩ := Option.bind_eq_some_iff.mp data
  obtain ⟨whole, -, sentAs⟩ := nameDatafiles_spec nameTable_nil (fun lp member =>
    let ⟨n, sender, file⟩ := writable.named lp member
    ⟨n, sender, file.free⟩) names
  cases parts
  cases result
  have copies : (config.fixInfo ticket.info destination).findFlagValue .copies =
      ticket.info.findFlagValue .copies := Fields.findFlagValue_congr (config.fixInfo_copies _ _)
  refine ⟨config.header timeStr ticket.info (config.fixInfo ticket.info destination) destination ++
    ((List.replicate (timesPrinted ((config.fixInfo ticket.info destination).findFlagValue .copies))
      (named.flatMap (fileLines config.nlineAfterFile []))).flatten ++ removeLines [] named),
    readFrom safe table, cfText_setStrValue ticket _ _, ?_, whole.distinct_readFrom fun u member => ?_, ?_⟩
  · intro line member
    rcases List.mem_append.mp member with header | member
    · exact textLine_header singles time writable.fields fields routed line header
    rcases List.mem_append.mp member with data | remove
    · exact textLine_dataLines _ _ writable sentAs whole numbers suffixes line data
    · obtain ⟨file, listed, rfl⟩ := mem_removeLines remove
      obtain ⟨lp, -, one⟩ := sentAs_of_mem sentAs file listed
      obtain ⟨s, name, -⟩ := one.name
      rw [name]
      exact textLine_remove (one.newName whole numbers suffixes s name).2
  · obtain ⟨lp, listed, rfl⟩ := mem_prints member
    exact named_of_mem sentAs lp listed
  · rw [List.map_append, List.filter_append, header_tells, List.map_append, List.filter_append, copies,
      dataLines_read config.nlineAfterFile writable sentAs]
    have silent : ((removeLines [] named).map (lineOf safe)).filter Line.tells = [] := by
      rw [List.filter_eq_nil_iff]
      intro said member
      obtain ⟨line, remove, rfl⟩ := List.mem_map.mp member
      obtain ⟨file, -, rfl⟩ := mem_removeLines remove
      rw [lineOf_remove]
      exact Bool.false_ne_true
    rw [silent, List.append_nil]

/-- Lines that say a name, if there is one, and then the same as `more`. -/
theorem start_read_tells {routed : Option Bytes} {said more : List (Line Bytes UInt8 Bytes)}
    (same : said.filter Line.tells = routed.toList.map Line.name ++ more.filter Line.tells) :
    (State.start none).read said = (State.start routed).read more := by
  rw [State.read_tells, same, State.read_append, ← State.read_tells]
  refine congrArg (State.read · more) ?_
  rcases routed with - | name
  · rfl
  · exact State.step_name_add (s := State.start none) name (Or.inl rfl)

/-- The prints that are read from lines of a text. -/
theorem Ticket.setJobTicketFromCfInfo_tells {priorities : PriorityConfig} {receiver : Ticket}
    (plain : receiver.info.findFlagValue .hpformat = 0) {text : Bytes} {lines : List Bytes}
    (written : text = textOf lines) (texts : ∀ line ∈ lines, TextLine safe line)
    (fits : (pieces lineEnds text).length < 2 ^ 31) {routed : Option Bytes}
    {more : List (Line Bytes UInt8 Bytes)}
    (same : (lines.map (lineOf safe)).filter Line.tells =
      routed.toList.map Line.name ++ more.filter Line.tells) :
    filePrints Fields.otransfername (receiver.setJobTicketFromCfInfo safe priorities text).datafiles =
      ((State.start routed).read more).prints := by
  have whole : ∀ raw ∈ lines, ∀ c ∈ raw, c ∉ lineEnds := fun raw member => (texts raw member).single
  have parts : pieces lineEnds text = lines := by
    rw [written]
    have both := pieces_flatMap whole (show (10 : UInt8) ∈ lineEnds by decide) []
    rwa [pieces, List.append_nil, List.append_nil] at both
  rw [parts] at fits
  rw [written]
  refine (Ticket.setJobTicketFromCfInfo_prints priorities plain whole
    (fun raw member => (texts raw member).proper) fits).trans ?_
  rw [start_read_tells same]

theorem start_files (routed : Option Bytes) (more : List (Line Bytes UInt8 Bytes)) :
    ((State.start routed).read more).prints.map Print.fileFormat = more.flatMap Line.files :=
  (State.files_read more).trans (List.nil_append _)

/-- The names of the files are known where they are read in order. -/
theorem samePrints_iff {prints : List (Print Bytes UInt8 Bytes)} {datafiles : List Fields}
    {f : Bytes → Bytes} (distinct : Distinct f prints)
    (files : (filePrints Fields.otransfername datafiles).map Print.fileFormat =
      (prints.map (Print.rename f)).map Print.fileFormat) :
    SamePrints prints datafiles ↔
      filePrints Fields.otransfername datafiles = prints.map (Print.rename f) := by
  refine ⟨fun ⟨g, _, same⟩ => ?_, fun same => ⟨f, distinct, same⟩⟩
  rw [same, map_fileFormat_rename, map_fileFormat_rename] at files
  rw [same]
  refine List.map_congr_left fun print member => ?_
  have file : g print.file = f print.file := congrArg Prod.fst (List.map_inj_left.mp files print member)
  unfold Print.rename
  rw [file]

/-- The job is printed as its neighbours allow. -/
def NamesKept (nlineAfterFile : Bool) (routed : Option Bytes) (prints : List (Print Bytes UInt8 Bytes)) :
    Prop :=
  if nlineAfterFile then NamesBehind routed prints else NamesBefore routed prints

theorem samePrints_writeAll_iff {prints : List (Print Bytes UInt8 Bytes)} {datafiles : List Fields}
    {f : Bytes → Bytes} (distinct : Distinct f prints) {nlineAfterFile : Bool} {routed : Option Bytes}
    (read : filePrints Fields.otransfername datafiles =
      ((State.start routed).read (writeAll nlineAfterFile (prints.map (Print.rename f)))).prints) :
    SamePrints prints datafiles ↔ NamesKept nlineAfterFile routed prints := by
  have files : (filePrints Fields.otransfername datafiles).map Print.fileFormat =
      (prints.map (Print.rename f)).map Print.fileFormat := by
    rw [read, start_files, files_writeAll]
  rw [samePrints_iff distinct files, read, NamesKept]
  cases nlineAfterFile with
  | true => exact (State.start_writeAll_behind_iff routed _).trans (namesBehind_rename distinct routed)
  | false => exact (State.start_writeAll_iff routed _).trans (namesBefore_rename distinct routed)

theorem fixControl_samePrints_iff (singles : config.SingleLines) {timeStr : Bytes}
    (time : SingleLine timeStr) {destination : Option Fields}
    (routed : ∀ list, destination = some list → list.SingleLines)
    (writable : Writable safe Fields.senderName ticket) {updateDfNames : Bool} {sent : Ticket}
    (run : config.fixControl timeStr ticket destination [] updateDfNames = some sent)
    (fits : (pieces lineEnds sent.cfText).length < 2 ^ 31) {priorities : PriorityConfig}
    {receiver : Ticket} (plain : receiver.info.findFlagValue .hpformat = 0) :
    SamePrints (ticket.prints Fields.senderName)
        (receiver.setJobTicketFromCfInfo safe priorities sent.cfText).datafiles ↔
      NamesKept config.nlineAfterFile (config.routedName safe destination)
        (ticket.prints Fields.senderName) := by
  obtain ⟨lines, f, written, texts, distinct, told⟩ := fixControl_lines singles time routed writable run
  exact samePrints_writeAll_iff distinct
    (Ticket.setJobTicketFromCfInfo_tells plain written texts fits told)

/-! ## A job for the filters -/

/-- The groups of copies that are written. -/
def Ticket.groups (name : Fields → Option Bytes) (ticket : Ticket) : List (Group Bytes UInt8 Bytes) :=
  ticket.datafiles.map fun lp => lp.group (name lp)

theorem generatedLines_read (writable : Writable safe Fields.generatedName ticket) :
    (ticket.datafiles.flatMap generatedLines).map (lineOf safe) =
        writeGroups (ticket.groups Fields.generatedName) ∧
      ∀ line ∈ ticket.datafiles.flatMap generatedLines, TextLine safe line := by
  have each : ∀ lp ∈ ticket.datafiles, (generatedLines lp).map (lineOf safe) =
      (lp.group lp.generatedName).lines ∧ ∀ line ∈ generatedLines lp, TextLine safe line := by
    intro lp member
    obtain ⟨n, name, file⟩ := writable.named lp member
    obtain ⟨c, format, lower⟩ := writable.format lp member
    have title := writable.title lp member
    have fileLine : lineOf safe (c :: n) = .file c n := by
      rw [lineOf_file n lower, readName_of_plain file.plain]
    unfold generatedLines Group.lines Fields.group Fields.print
    rw [format, name]
    constructor
    · rw [List.map_append, List.map_replicate]
      exact congrArg₂ (· ++ ·) (map_lineOf_title title) (congrArg (List.replicate _) fileLine)
    · intro line inside
      rcases List.mem_append.mp inside with inside | inside
      · exact textLine_title title line inside
      · rw [List.eq_of_mem_replicate inside]
        refine ⟨.cons_letter (isAlnum_of_isLower lower) (singleLine_of_plain file.plain), ?_⟩
        change Proper (lineOf safe (c :: n))
        rw [fileLine]
        exact file.given
  constructor
  · unfold writeGroups Ticket.groups
    rw [List.map_flatMap, List.flatMap_map]
    exact List.flatMap_congr fun lp member => (each lp member).1
  · intro line member
    obtain ⟨lp, listed, inside⟩ := List.mem_flatMap.mp member
    exact (each lp listed).2 line inside

theorem generatedOptions_read {info : Fields} (fields : info.SingleLines) :
    ∀ line ∈ generatedOptions info, TextLine safe line ∧ lineOf safe line = .other := by
  intro line member
  obtain ⟨c, letter, option⟩ := List.mem_filterMap.mp member
  split at option
  · next others =>
      obtain ⟨value, found, rfl⟩ := Option.map_eq_some_iff.mp option
      have upper := isUpper_of_mem letter
      have silent : lineOf safe (c :: value) = .other := by rw [lineOf_upper value upper, if_neg others.1]
      refine ⟨⟨.cons_letter (isAlnum_of_isUpper upper) (fields _ value found), ?_⟩, silent⟩
      rw [silent]
      trivial
  · cases option

theorem generated_remove (writable : Writable safe Fields.generatedName ticket) :
    ∀ line ∈ ticket.datafiles.map fun lp => 85 :: (lp.findStrValue .dftransfername).getD [],
      TextLine safe line ∧ lineOf safe line = .other := by
  intro line member
  obtain ⟨lp, listed, rfl⟩ := List.mem_map.mp member
  obtain ⟨n, name, file⟩ := writable.named lp listed
  refine ⟨textLine_remove ?_, lineOf_remove _⟩
  rcases given : lp.findStrValue .dftransfername with - | m
  · exact nofun
  · rw [Fields.generatedName, given] at name
    exact Option.some.inj name ▸ singleLine_of_plain file.plain

/-- What `Generate_control_file` wrote. -/
theorem generateControlFile_lines (writable : Writable safe Fields.generatedName ticket) :
    ∃ lines : List Bytes, ticket.generateControlFile.cfText = textOf lines ∧
      (∀ line ∈ lines, TextLine safe line) ∧
      (lines.map (lineOf safe)).filter Line.tells =
        (none : Option Bytes).toList.map Line.name ++
          (writeGroups (ticket.groups Fields.generatedName)).filter Line.tells := by
  obtain ⟨read, texts⟩ := generatedLines_read writable
  have options : ∀ line ∈ generatedOptions ticket.info, TextLine safe line ∧ lineOf safe line = .other :=
    generatedOptions_read writable.fields
  have removes := generated_remove writable
  have silent : ∀ lines : List Bytes, (∀ line ∈ lines, TextLine safe line ∧ lineOf safe line = .other) →
      (lines.map (lineOf safe)).filter Line.tells = [] := by
    intro lines others
    rw [List.filter_eq_nil_iff]
    intro told member
    obtain ⟨line, listed, rfl⟩ := List.mem_map.mp member
    rw [(others line listed).2]
    exact Bool.false_ne_true
  refine ⟨generatedOptions ticket.info ++ ticket.datafiles.flatMap generatedLines ++
    ticket.datafiles.map (fun lp => 85 :: (lp.findStrValue .dftransfername).getD []),
    cfText_setStrValue ticket _ _, fun line member => ?_, ?_⟩
  · rcases List.mem_append.mp member with member | remove
    · rcases List.mem_append.mp member with option | data
      · exact (options line option).1
      · exact texts line data
    · exact (removes line remove).1
  · rw [List.map_append, List.map_append, List.filter_append, List.filter_append, silent _ options,
      silent _ removes, read, List.append_nil]
    rfl

theorem distinct_id (prints : List (Print Bytes UInt8 Bytes)) : Distinct id prints :=
  fun _ _ _ _ same => same

/-- One round of the data files is written, with their numbers of copies. -/
theorem samePrints_writeGroups_iff {name : Fields → Option Bytes} (writable : Writable safe name ticket)
    {datafiles : List Fields}
    (read : filePrints Fields.otransfername datafiles =
      ((State.start none).read (writeGroups (ticket.groups name))).prints) :
    SamePrints (filePrints name ticket.datafiles) datafiles ↔
      (∀ lp ∈ ticket.datafiles, lp.findFlagValue .copies ≠ 0) ∧
        NamesBefore none (filePrints name ticket.datafiles) := by
  have round : filePrints name ticket.datafiles =
      ((ticket.groups name).map Group.atLeastOnce).flatMap Group.prints := by
    rw [filePrints_eq writable.copies, Ticket.groups, List.map_map]
    rfl
  have counts : (∀ group ∈ ticket.groups name, group.copies ≠ 0) ↔
      ∀ lp ∈ ticket.datafiles, lp.findFlagValue .copies ≠ 0 := by
    unfold Ticket.groups
    rw [List.forall_mem_map]
    refine forall₂_congr fun lp member => ?_
    have natural := writable.copies lp member
    change (lp.findFlagValue .copies).toNat ≠ 0 ↔ _
    omega
  have whole := State.start_writeGroups_all_iff none (ticket.groups name)
  rw [← round, counts] at whole
  have files := start_files none (writeGroups (ticket.groups name))
  rw [← read] at files
  refine ⟨fun same => ?_, fun both => ?_⟩
  · obtain ⟨f, -, equal⟩ := id same
    have lengths := congrArg List.length files
    rw [equal, List.length_map, List.length_map, round] at lengths
    have counted := (length_writeGroups (ticket.groups name)).2 lengths
    have unchanged : filePrints name ticket.datafiles = (ticket.groups name).flatMap Group.prints := by
      rw [round]
      refine congrArg (List.flatMap Group.prints) ?_
      exact (List.map_congr_left fun group member =>
        Group.atLeastOnce_of_counted (counted group member)).trans (List.map_id _)
    have equal := (samePrints_iff (distinct_id _) (by
      rw [files, files_writeGroups, map_rename_id, unchanged])).mp same
    rw [map_rename_id, read] at equal
    exact whole.mp equal
  · exact ⟨id, distinct_id _, by rw [map_rename_id, read]; exact whole.mpr both⟩

theorem generateControlFile_samePrints_iff (writable : Writable safe Fields.generatedName ticket)
    (fits : (pieces lineEnds ticket.generateControlFile.cfText).length < 2 ^ 31)
    {priorities : PriorityConfig} {receiver : Ticket}
    (plain : receiver.info.findFlagValue .hpformat = 0) :
    SamePrints (ticket.prints Fields.generatedName)
        (receiver.setJobTicketFromCfInfo safe priorities ticket.generateControlFile.cfText).datafiles ↔
      (ticket.datafiles = [] ∨ timesPrinted (ticket.info.findFlagValue .copies) = 1) ∧
        (∀ lp ∈ ticket.datafiles, lp.findFlagValue .copies ≠ 0) ∧
        NamesBefore none (ticket.prints Fields.generatedName) := by
  obtain ⟨lines, written, texts, told⟩ := generateControlFile_lines writable
  have read : filePrints Fields.otransfername
      (receiver.setJobTicketFromCfInfo safe priorities ticket.generateControlFile.cfText).datafiles =
        ((State.start none).read (writeGroups (ticket.groups Fields.generatedName))).prints :=
    Ticket.setJobTicketFromCfInfo_tells plain written texts fits told
  have round := samePrints_writeGroups_iff writable read
  by_cases once : ticket.datafiles = [] ∨ timesPrinted (ticket.info.findFlagValue .copies) = 1
  · have whole : ticket.prints Fields.generatedName = filePrints Fields.generatedName ticket.datafiles := by
      unfold Ticket.prints
      rcases once with empty | one
      · rw [empty, show filePrints Fields.generatedName [] = [] from rfl, List.flatten_replicate_nil]
      · rw [one, List.replicate_one, List.flatten_singleton]
    rw [whole, round]
    exact (and_iff_right once).symm
  · refine iff_of_false (fun ⟨f, _, equal⟩ => once ?_) fun both => once both.1
    have lengths := congrArg List.length (start_files none (writeGroups (ticket.groups Fields.generatedName)))
    have written_ := (length_writeGroups (ticket.groups Fields.generatedName)).1
    have rounds : ((ticket.groups Fields.generatedName).map Group.atLeastOnce).flatMap Group.prints =
        filePrints Fields.generatedName ticket.datafiles := by
      rw [filePrints_eq writable.copies, Ticket.groups, List.map_map]
      rfl
    rw [← read, equal, List.length_map, List.length_map, Ticket.prints, List.length_flatten,
      List.map_replicate, List.sum_replicate_nat] at lengths
    rw [rounds, ← lengths] at written_
    have natural := writable.jobCopies
    rcases files : ticket.datafiles with - | ⟨lp, rest⟩
    · exact Or.inl rfl
    · refine Or.inr ?_
      have printed : 0 < (filePrints Fields.generatedName ticket.datafiles).length := by
        rw [files, filePrints, List.flatMap_cons, List.length_append, List.length_replicate]
        have copies := writable.copies lp (by rw [files]; exact List.mem_cons_self)
        unfold timesPrinted
        split <;> omega
      have few : timesPrinted (ticket.info.findFlagValue .copies) ≤ 1 :=
        Nat.le_of_mul_le_mul_right (by rw [Nat.one_mul]; exact written_) printed
      unfold timesPrinted at few ⊢
      by_cases zero : ticket.info.findFlagValue .copies = 0
      · rw [if_pos zero]
      · rw [if_neg zero] at few ⊢
        omega

/-! ## Both control files -/

/-- Either control file is read back as the prints of its job exactly where no name is lost or given
away: with names before the files, a print without a name is not followed by one with a name, nor one
with a name by another copy without; with names behind the files, copies agree on their name, which
then stays. A control file for the filters has the copies of its data files, but not of the job, and
no data file without a number of copies. -/
theorem controlFile_samePrints_iff (safe : Bytes) (priorities : PriorityConfig) (receiver : Ticket)
    (plain : receiver.info.findFlagValue .hpformat = 0) :
    (∀ (config : ControlConfig) (timeStr : Bytes) (ticket : Ticket) (destination : Option Fields)
      (updateDfNames : Bool) (sent : Ticket), config.SingleLines → SingleLine timeStr →
      (∀ list, destination = some list → list.SingleLines) → Writable safe Fields.senderName ticket →
      config.fixControl timeStr ticket destination [] updateDfNames = some sent →
      (pieces lineEnds sent.cfText).length < 2 ^ 31 →
      (SamePrints (ticket.prints Fields.senderName)
          (receiver.setJobTicketFromCfInfo safe priorities sent.cfText).datafiles ↔
        NamesKept config.nlineAfterFile (config.routedName safe destination)
          (ticket.prints Fields.senderName))) ∧
    (∀ ticket : Ticket, Writable safe Fields.generatedName ticket →
      (pieces lineEnds ticket.generateControlFile.cfText).length < 2 ^ 31 →
      (SamePrints (ticket.prints Fields.generatedName)
          (receiver.setJobTicketFromCfInfo safe priorities ticket.generateControlFile.cfText).datafiles ↔
        (ticket.datafiles = [] ∨ timesPrinted (ticket.info.findFlagValue .copies) = 1) ∧
          (∀ lp ∈ ticket.datafiles, lp.findFlagValue .copies ≠ 0) ∧
          NamesBefore none (ticket.prints Fields.generatedName))) :=
  ⟨fun _ _ _ _ _ _ singles time routed writable run fits =>
      fixControl_samePrints_iff singles time routed writable run fits plain,
    fun _ writable fits => generateControlFile_samePrints_iff writable fits plain⟩

/-- A data file for one copy, perhaps with an original name. -/
def oneCopy (transfername : Bytes) (name : Option Bytes) : Fields :=
  (((Fields.empty.setStrValue .format (some (lit "f"))).setStrValue .copies (some (lit "1"))).setStrValue
    .otransfername (some transfername)).setStrValue (.letter 78) name

def plainTicket (datafiles : List Fields) : Ticket := ⟨.empty, fun _ => none, datafiles⟩

/-- The settings of a server that sends jobs as they are. -/
def plainControl : ControlConfig where
  nlineAfterFile := false
  backwardsCompatible := false
  longNumber := false
  useShorthost := false
  suppressHeader := false
  alwaysBanner := false
  useQueuename := false
  forceQueuename := none
  queueName := none
  printer := none
  controlFileLineOrder := none
  defaultPriority := none
  fqdnHost := lit "papa"

/-- The texts of the jobs below are as the callers leave them. -/
theorem papa_texts : SingleLine (lit "papa") ∧ FileName [] (lit "dfA001papa") ∧ FileName [] (lit "dfB001papa") ∧
    Title [] (lit "report") ∧ lit "f" = [102] ∧ flagOfText (lit "1") = 1 := by
  have facts : (∀ c ∈ lit "papa", c ∉ lineEnds) ∧
      ((∀ c ∈ lit "dfA001papa", plainChar [] c = true) ∧ ∀ c ∈ lit "dfA001papa", hashValueSep.contains c = false) ∧
      ((∀ c ∈ lit "dfB001papa", plainChar [] c = true) ∧ ∀ c ∈ lit "dfB001papa", hashValueSep.contains c = false) ∧
      (cleanMeta [] (lit "report") = lit "report" ∧ ∀ c ∈ lit "report", c ∉ lineEnds) ∧
      (lit "dfA001papa" ≠ [] ∧ lit "dfB001papa" ≠ [] ∧ lit "report" ≠ []) ∧
      lit "f" = [102] ∧ flagOfText (lit "1") = 1 := by decide
  obtain ⟨papa, first, second, title, given, format, one⟩ := facts
  exact ⟨papa, ⟨given.1, first.1, first.2⟩, ⟨given.2.1, second.1, second.2⟩, ⟨given.2.2, title.1, title.2⟩,
    format, one⟩

theorem plainControl_singleLines : plainControl.SingleLines :=
  ⟨nofun, nofun, nofun, nofun, papa_texts.1⟩

theorem writable_plainTicket {files : List (Bytes × Option Bytes)}
    (fileNames : ∀ file ∈ files, FileName [] file.1)
    (titles : ∀ file ∈ files, ∀ t, file.2 = some t → Title [] t) :
    Writable [] Fields.senderName (plainTicket (files.map fun file => oneCopy file.1 file.2)) := by
  have each : ∀ lp ∈ files.map fun file => oneCopy file.1 file.2, ∃ file ∈ files, lp = oneCopy file.1 file.2 :=
    fun lp member => let ⟨file, listed, same⟩ := List.mem_map.mp member; ⟨file, listed, same.symm⟩
  have none_given : (0 : Int) ≤ Fields.empty.findFlagValue .copies := by decide
  refine ⟨fun lp member => ?_, fun lp member => ?_, fun lp member => ?_, none_given,
    fun lp member t title => ?_, nofun⟩
  · obtain ⟨file, listed, rfl⟩ := each lp member
    have name := fileNames file listed
    exact ⟨file.1, by simp [Fields.senderName, oneCopy, name.given], name⟩
  · obtain ⟨file, listed, rfl⟩ := each lp member
    obtain ⟨-, -, -, -, format, -⟩ := papa_texts
    exact ⟨102, by simp [oneCopy, format], by decide⟩
  · obtain ⟨file, listed, rfl⟩ := each lp member
    obtain ⟨-, -, -, -, -, one⟩ := papa_texts
    have given : lit "1" ≠ [] := by
      intro empty
      rw [empty] at one
      exact absurd one (by decide)
    have copies : (oneCopy file.1 file.2) .copies = some (lit "1") := by simp [oneCopy, given]
    have once : (oneCopy file.1 file.2).findFlagValue .copies = 1 := by
      rw [Fields.findFlagValue, copies]
      exact one
    omega
  · obtain ⟨file, listed, rfl⟩ := each lp member
    rw [oneCopy, Fields.findStrValue, Fields.setStrValue_self] at title
    exact titles file listed t (Option.filter_eq_some_iff.mp title).1

theorem singleLine_nil : SingleLine [] := List.forall_mem_nil _

theorem noDestination : ∀ list : Fields, (none : Option Fields) = some list → list.SingleLines := by
  intro list given
  cases given

/-- A printed file without a name, and another with one. -/
def unnamedThenNamed : Ticket :=
  plainTicket ([(lit "dfA001papa", none), (lit "dfB001papa", some (lit "report"))].map
    fun file => oneCopy file.1 file.2)

/-- The name of the second file is read as the name of the first. -/
theorem unnamedThenNamed_loses :
    ∃ sent : Ticket, plainControl.fixControl [] unnamedThenNamed none [] false = some sent ∧
      ¬SamePrints (unnamedThenNamed.prints Fields.senderName)
        ((plainTicket []).setJobTicketFromCfInfo [] ⟨false, false, none⟩ sent.cfText).datafiles := by
  obtain ⟨-, first, second, title, -⟩ := papa_texts
  have writable : Writable [] Fields.senderName unnamedThenNamed :=
    writable_plainTicket (by simp [first, second]) (by simp [title])
  have evaluated : ((plainControl.fixControl [] unnamedThenNamed none [] false).map fun sent =>
      decide ((pieces lineEnds sent.cfText).length < 2 ^ 31)) = some true ∧
      unnamedThenNamed.prints Fields.senderName =
        [⟨lit "dfA001papa", 102, none⟩, ⟨lit "dfB001papa", 102, some (lit "report")⟩] := by decide +kernel
  obtain ⟨run, prints⟩ := evaluated
  obtain ⟨sent, run, fits⟩ := Option.map_eq_some_iff.mp run
  refine ⟨sent, run, fun same => ?_⟩
  have names := (fixControl_samePrints_iff plainControl_singleLines singleLine_nil noDestination writable
    run (of_decide_eq_true fits) rfl).mp same
  rw [prints] at names
  exact (List.isChain_cons_cons.mp names.2).1.named (Option.some_ne_none _) rfl

/-- A printed file with a name, and another one without. -/
def namedThenUnnamed : Ticket :=
  plainTicket ([(lit "dfA001papa", some (lit "report")), (lit "dfB001papa", none)].map
    fun file => oneCopy file.1 file.2)

theorem namedThenUnnamed_kept :
    ∃ sent : Ticket, plainControl.fixControl [] namedThenUnnamed none [] false = some sent ∧
      SamePrints (namedThenUnnamed.prints Fields.senderName)
        ((plainTicket []).setJobTicketFromCfInfo [] ⟨false, false, none⟩ sent.cfText).datafiles := by
  obtain ⟨-, first, second, title, -⟩ := papa_texts
  have writable : Writable [] Fields.senderName namedThenUnnamed :=
    writable_plainTicket (by simp [first, second]) (by simp [title])
  have evaluated : ((plainControl.fixControl [] namedThenUnnamed none [] false).map fun sent =>
      decide ((pieces lineEnds sent.cfText).length < 2 ^ 31)) = some true ∧
      namedThenUnnamed.prints Fields.senderName =
        [⟨lit "dfA001papa", 102, some (lit "report")⟩, ⟨lit "dfB001papa", 102, none⟩] ∧
      lit "dfA001papa" ≠ lit "dfB001papa" := by decide +kernel
  obtain ⟨run, prints, differ⟩ := evaluated
  obtain ⟨sent, run, fits⟩ := Option.map_eq_some_iff.mp run
  refine ⟨sent, run, ((controlFile_samePrints_iff [] ⟨false, false, none⟩ (plainTicket [])
    rfl).1 plainControl [] namedThenUnnamed none false sent plainControl_singleLines
    singleLine_nil noDestination writable run (of_decide_eq_true fits)).mpr ?_⟩
  have follows : Follows (⟨lit "dfA001papa", 102, some (lit "report")⟩ : Print Bytes UInt8 Bytes)
      ⟨lit "dfB001papa", 102, none⟩ :=
    ⟨fun named => absurd rfl named, fun _ _ same => differ same.1⟩
  rw [prints]
  exact ⟨fun routed => absurd rfl routed, List.isChain_pair.mpr follows⟩

end LPRng
