import LPRng.DestinationList
import LPRng.IncludeFiles
import LPRng.LineSearch

/-!
# The cache of status reports

A queue keeps the reports it has sent in files, and a file with a line for each of them: the key of the
request, which is made of its format and its arguments, and the name of the file. A request whose key
is found there gets the text of the file, if this is not too old. Each other request is answered with
a new report, which takes the place of an old one.
-/

namespace LPRng

namespace StatusCache

/-! ## Requests -/

def argSep : Bytes := lit ",;"

def reqDshort : Int := 3
def reqDlong : Int := 4

/-- What the configuration says of the host a request comes from: whether it is in `Reverse_lpq_status`
and in `Return_short_status`, and the key of the first list of `Force_lpq_status` that it is in. -/
structure RemoteHost where
  reversed : Bool
  forced : Option Bytes
  shortened : Bool

/-- A request as it comes from a host, and the name of the queue in the printcap, for a request to all. -/
structure Request where
  input : Bytes
  host : RemoteHost
  listed : Bytes

/-- What `Get_queue_status` is called with. -/
structure Query where
  name : Bytes
  displayformat : Int
  statusLines : Int
  tokens : LineList
  hashKey : Bytes

/-- A character of a text as a number. -/
def signedChar (c : UInt8) : Int := if c < 128 then c.toNat else c.toNat - 256

def RemoteHost.displayformat (host : RemoteHost) (format : Int) : Int :=
  let format := if host.reversed && (format = reqDshort || format = reqDlong) then
      if format = reqDshort then reqDlong else reqDshort
    else format
  match host.forced with
  | some s =>
      if strcasecmp s (lit "s") = .eq then reqDshort
      else if strcasecmp s (lit "l") = .eq then reqDlong
      else format
  | none => format

/-- The limit of lines that the host gives, with the `Short_status_length`. -/
def RemoteHost.statusLines (host : RemoteHost) (format shortLength : Int) : Int :=
  if host.forced.isSome || (host.shortened && format = reqDlong) then shortLength else 0

/-- `Is_clean_name`. -/
def isCleanName (s : Bytes) : Bool := s.all fun c => isAlnum c || (lit "-_.").contains c

/-- `Join_line_list_with_sep` with a blank or line end replaced by `_`. -/
def hashKey (l : LineList) : Bytes :=
  ((l.joinLineList [95]).getD []).dropLast.map fun c => if IncludeFiles.whitespace.contains c then 95 else c

/-- The arguments that are left after an option, and the limit of lines that it sets. -/
def options (args : LineList) (statusLines : Int) : LineList × Int :=
  match args with
  | (45 :: s) :: rest =>
      let n := (split [] s argSep true hashValueSep true true false).findFlagValue (lit "lines")
      (rest, if n ≠ 0 then n else statusLines)
  | _ => (args, statusLines)

/-- `Job_status`, up to the call of `Get_queue_status`. -/
def jobStatus (shortLength : Int) (request : Request) : Option Query :=
  match request.input.takeWhile (· ≠ 10) with
  | [] => none
  | c :: input =>
      let displayformat := request.host.displayformat (signedChar c)
      match split [] input IncludeFiles.whitespace false [] false false false with
      | [] => none
      | name :: args =>
          if isCleanName name then
            let (tokens, statusLines) := options args (request.host.statusLines displayformat shortLength)
            some
              { name := if strcasecmp name (lit "all") = .eq then request.listed else name
                displayformat := displayformat
                statusLines := statusLines
                tokens := tokens
                hashKey := hashKey (printInt displayformat :: args) }
          else none

/-! ## Reports -/

/-- A queue: how it is called, where it keeps its cache, and what it reports. -/
structure Queue where
  printer : Bytes
  reportServerAs : Bytes
  serves : Bool
  lpqStatusFile : Option Bytes
  lpqStatusCached : Int
  lpqStatusStale : Int
  lpqStatusInterval : Int
  /-- The report of a format, with the jobs that the arguments select and the given number of lines from
  the status files, behind the header. -/
  report : Int → LineList → Int → Bytes → Bytes

/-- The name that a request shows, if it is not that of the queue. -/
def Queue.originally (q : Queue) (name : Bytes) : Option Bytes :=
  let buffer := name.take 511
  if strcasecmp buffer q.printer = .eq then none else some buffer

def Queue.header (q : Queue) (displayformat : Int) (name : Bytes) : Bytes :=
  let header := if displayformat ≠ reqDshort then
      plpSnprintf 10240 ((if q.serves then lit "Server Printer" else lit "Printer") ++ lit ": ")
    else []
  let header := header ++ plpSnprintf (10240 - header.length) (fmtString q.printer ++ 64 :: fmtString q.reportServerAs)
  match q.originally name with
  | some buffer => header ++ plpSnprintf (10240 - header.length) (lit " (originally " ++ fmtString buffer ++ [41])
  | none => header

/-- The text that is sent for a request when nothing is cached. -/
def Queue.text (q : Queue) (query : Query) : Bytes :=
  q.report query.displayformat query.tokens query.statusLines (q.header query.displayformat query.name)

/-! ## The cache -/

def filenames : Bytes := lit "filenames"
def queueStatusFile : Bytes := lit "queue_status_file"
def prstatus : Bytes := lit "prstatus"

structure File where
  modified : Int
  text : Bytes

/-- The file with the lines of the cache, and the regular files by their names. -/
structure Disk where
  cache : Bytes
  files : Bytes → Option File

/-- When a request is served, and when the two status files of the queue were modified. -/
structure Moment where
  now : Int
  queueStatus : Option Int
  filterStatus : Option Int

/-- The lines of the cache. A slot that is not used is empty. -/
def Queue.cacheLines (q : Queue) (disk : Disk) : LineList :=
  let cache := split [] disk.cache lineEnds false [] false false false
  cache ++ List.replicate (q.lpqStatusCached.toNat - cache.length) []

def findSlot (cache : LineList) (hashKey : Bytes) : Option Nat :=
  cache.findIdx? fun s => s.contains 61 && s.takeWhile (· ≠ 61) = hashKey

def cacheInfo (s : Bytes) : LineList :=
  split [] (s.dropWhile (· ≠ 61)).tail argSep true hashValueSep true true false

/-- Whether the text in a file is used. The time of a missing status file is the one before it. -/
def Queue.usable (q : Queue) (moment : Moment) (info : LineList) (file : File) : Bool :=
  let delta := toInt32 (moment.now - file.modified)
  let queueModified := moment.queueStatus.getD 0
  let queueDelta := toInt32 (queueModified - info.findFlagValue queueStatusFile)
  let filterDelta := toInt32 (moment.filterStatus.getD queueModified - info.findFlagValue prstatus)
  !(q.lpqStatusStale ≠ 0 && delta > q.lpqStatusStale) && queueDelta ≤ q.lpqStatusInterval &&
    filterDelta ≤ q.lpqStatusInterval

/-- The text that is found in a slot. -/
def Queue.cached (q : Queue) (disk : Disk) (moment : Moment) (s : Bytes) : Option Bytes :=
  let info := cacheInfo s
  (info.findStrValue filenames).bind fun file =>
    (disk.files file).bind fun file => if q.usable moment info file then some file.text else none

/-- The slot that a new report goes to: the first without a file, or else the one with the oldest. -/
def freeSlot (files : Bytes → Option File) : LineList → Nat → Int → Option Nat → Option Nat
  | [], _, _, nx => nx
  | s :: cache, ix, modified, nx =>
      if s.contains 61 then
        match ((cacheInfo s).findStrValue filenames).bind files with
        | none => some ix
        | some file =>
            if modified = 0 || file.modified < modified then freeSlot files cache (ix + 1) file.modified (some ix)
            else freeSlot files cache (ix + 1) modified nx
      else some ix

/-- The file of a slot. -/
def slotFile (path : Bytes) (slot : Nat) : Bytes := plpSnprintf 512 (fmtString path ++ 46 :: printInt slot)

/-- The line of a slot, with the times of the status files. -/
def slotLine (path hashKey : Bytes) (moment : Moment) (slot : Nat) : Bytes :=
  let info := LineList.setStrValue [] filenames (some (slotFile path slot))
  let info := info.setFlagValue queueStatusFile (moment.queueStatus.getD 0)
  let info := info.setFlagValue prstatus (moment.filterStatus.getD 0)
  hashKey ++ 61 :: (info.joinLineList [44]).getD []

/-- What is left on the disk when a report is put into a slot. -/
def Disk.store (disk : Disk) (path : Bytes) (cache : LineList) (query : Query) (moment : Moment) (text : Bytes)
    (slot : Nat) : Disk where
  cache := (LineList.joinLineList (cache.set slot (slotLine path query.hashKey moment slot)) [10]).getD []
  files := Function.update disk.files (slotFile path slot) (some ⟨moment.now, text⟩)

/-- `Get_queue_status` for a queue: what is on the disk afterwards, and the text that is sent. -/
def Queue.getQueueStatus (q : Queue) (disk : Disk) (query : Query) (moment : Moment) : Disk × Bytes :=
  match q.lpqStatusFile with
  | some path =>
      if 0 < q.lpqStatusCached then
        let cache := q.cacheLines disk
        let found := findSlot cache query.hashKey
        match found.bind fun ix => q.cached disk moment (cache.getD ix []) with
        | some text => (disk, text)
        | none =>
            match found.or (freeSlot disk.files cache 0 0 none) with
            | some ix => (disk.store path cache query moment (q.text query) ix, q.text query)
            | none => (disk, q.text query)
      else (disk, q.text query)
  | none => (disk, q.text query)

/-- The texts that are sent for requests one after the other. -/
def Queue.replies (q : Queue) (disk : Disk) : List (Query × Moment) → List Bytes
  | [] => []
  | (query, moment) :: rest =>
      let (disk, text) := q.getQueueStatus disk query moment
      text :: q.replies disk rest

/-- Whether a key with a `=` has a `filenames` behind it, which its line would be read with. -/
def namesFile (key : Bytes) : Bool :=
  key.contains 61 && (pieces argSep ((key.dropWhile (· ≠ 61)).tail ++ [61])).any fun s =>
    LineList.hasKey filenames optionValueSep (trimSpace s)

/-! ## Lines -/

/-- What the line of a slot tells. -/
def infoLines (file : Bytes) (moment : Moment) : LineList :=
  [filenames ++ 61 :: file, prstatus ++ 61 :: printHex (moment.filterStatus.getD 0),
    queueStatusFile ++ 61 :: printHex (moment.queueStatus.getD 0)]

theorem words : (∀ d ∈ filenames, isWordChar d = true) ∧ (∀ d ∈ prstatus, isWordChar d = true) ∧
    ∀ d ∈ queueStatusFile, isWordChar d = true := by
  have table : filenames.all isWordChar && prstatus.all isWordChar && queueStatusFile.all isWordChar := by rfl
  simpa [and_assoc] using table

theorem wordLine_infoLines (file : Bytes) (moment : Moment) : ∀ line ∈ infoLines file moment, WordLine line := by
  intro line member
  rcases words with ⟨name, filter, queue⟩
  simp only [infoLines, List.mem_cons, List.not_mem_nil, or_false] at member
  rcases member with rfl | rfl | rfl
  · exact ⟨_, _, rfl, name⟩
  · exact ⟨_, _, rfl, filter⟩
  · exact ⟨_, _, rfl, queue⟩

theorem keys_infoLines (file : Bytes) (moment : Moment) :
    (infoLines file moment).map lineKey = [foldCase filenames, foldCase prstatus, foldCase queueStatusFile] := by
  rcases words with ⟨name, filter, queue⟩
  rw [infoLines, List.map_cons, List.map_cons, List.map_cons, List.map_nil, lineKey_keyValue (sepFree_of_word name),
    lineKey_keyValue (sepFree_of_word filter), lineKey_keyValue (sepFree_of_word queue)]

theorem keyed_infoLines (file : Bytes) (moment : Moment) : (infoLines file moment).Keyed := by
  refine ⟨List.pairwise_map.mp ?_, fun line member => (wordLine_infoLines file moment line member).clear⟩
  rw [keys_infoLines]
  decide

theorem keys_apart : foldCase filenames < foldCase prstatus ∧ foldCase prstatus < foldCase queueStatusFile ∧
    foldCase filenames < foldCase queueStatusFile := by
  decide

/-- The fields of a slot, in the order in which they are set. -/
theorem fields_eq {file : Bytes} (named : file ≠ []) (moment : Moment) :
    ((LineList.setStrValue [] filenames (some file)).setFlagValue queueStatusFile
      (moment.queueStatus.getD 0)).setFlagValue prstatus (moment.filterStatus.getD 0) = infoLines file moment := by
  rcases words with ⟨name, filter, queue⟩
  rcases keys_apart with ⟨first, second, both⟩
  have fileKey : lineKey (filenames ++ 61 :: file) = foldCase filenames := lineKey_keyValue (sepFree_of_word name) _
  have filterKey : ∀ n, lineKey (prstatus ++ 61 :: printHex n) = foldCase prstatus := fun n =>
    lineKey_keyValue (sepFree_of_word filter) _
  have queueKey : ∀ n, lineKey (queueStatusFile ++ 61 :: printHex n) = foldCase queueStatusFile := fun n =>
    lineKey_keyValue (sepFree_of_word queue) _
  have one : LineList.setStrValue [] filenames (some file) = [filenames ++ 61 :: file] := by
    rw [LineList.keyed_nil.setStrValue (sepFree_of_word name), Option.filter_some, if_pos (decide_eq_true named)]
    rfl
  have keyed : LineList.Keyed [filenames ++ 61 :: file] :=
    LineList.keyed_nil.insert (clear_keyValue (sepFree_of_word name) _)
  have two : insertKey lineKey (queueStatusFile ++ 61 :: printHex (moment.queueStatus.getD 0)) [filenames ++ 61 :: file] =
      [filenames ++ 61 :: file, queueStatusFile ++ 61 :: printHex (moment.queueStatus.getD 0)] := by
    refine insertKey_of_above fun line member => ?_
    rw [List.mem_singleton.mp member, fileKey, queueKey]
    exact both
  have more := keyed.insert (clear_keyValue (sepFree_of_word queue) (printHex (moment.queueStatus.getD 0)))
  have between : Around lineKey (lineKey (prstatus ++ 61 :: printHex (moment.filterStatus.getD 0)))
      [filenames ++ 61 :: file, queueStatusFile ++ 61 :: printHex (moment.queueStatus.getD 0)]
      [filenames ++ 61 :: file] none [queueStatusFile ++ 61 :: printHex (moment.queueStatus.getD 0)] := by
    refine ⟨rfl, fun line member => ?_, fun _ => nofun, fun line member => ?_⟩
    · rw [List.mem_singleton.mp member, fileKey, filterKey]
      exact first
    · rw [List.mem_singleton.mp member, filterKey, queueKey]
      exact second
  rw [one, LineList.Keyed.setFlagValue keyed queue (by decide), LineList.Keyed.setFlagValue more filter (by decide), two]
  exact between.insertKey_eq

theorem findStrValue_infoLines (file : Bytes) (moment : Moment) :
    (infoLines file moment).findStrValue filenames = some file := by
  have free := sepFree_of_word words.1
  have first : lookupKey lineKey (foldCase filenames) (infoLines file moment) = some (filenames ++ 61 :: file) :=
    List.find?_cons_of_pos (decide_eq_true (lineKey_keyValue free file))
  rw [(keyed_infoLines file moment).findStrValue, first]
  exact valueOf_keyValue free

/-! ## Slots -/

/-- The names of the files of a cache are told apart, and stand in its lines as they are. -/
structure Readable (path : Bytes) (slots : Int) : Prop where
  clean : ∀ c ∈ fmtString path, c ∉ argSep ∧ c ∉ lineEnds
  fits : ∀ slot : Nat, slot < slots → (fmtString path ++ 46 :: printInt slot).length < 512

/-- A character of a word separates nothing. -/
theorem clean_of_word {c : UInt8} (word : isWordChar c = true) : c ∉ argSep ∧ c ∉ lineEnds ∧ isSpace c = false := by
  have table : ∀ c : UInt8, (!isWordChar c || !argSep.contains c) = true := forall_byte (by decide +kernel)
  have row := table c
  rcases isWordChar_spec word with ⟨space, -, -, inside, -⟩
  rw [word] at row
  exact ⟨by simpa using row, inside, space⟩

theorem isWordChar_of_mem_printInt {slot : Nat} {c : UInt8} (member : c ∈ printInt slot) : isWordChar c = true := by
  rw [printInt_natCast] at member
  rw [isWordChar, isAlnum, isDigit_of_mem_printNat member, Bool.or_true, Bool.true_or]

section

variable {path key file : Bytes} {slots : Int} {slot : Nat} {moment : Moment}

namespace Readable

theorem slotFile_eq (readable : Readable path slots) (below : slot < slots) :
    slotFile path slot = fmtString path ++ 46 :: printInt slot := by
  have short := readable.fits slot below
  exact List.take_of_length_le (by omega)

theorem slotFile_injective (readable : Readable path slots) {other : Nat} (below : slot < slots) (below' : other < slots)
    (same : slotFile path slot = slotFile path other) : slot = other := by
  rw [readable.slotFile_eq below, readable.slotFile_eq below'] at same
  have digits := (List.cons.inj (List.append_cancel_left same)).2
  exact Int.ofNat_inj.mp (printInt_injective digits)

theorem slotFile_ne_nil (readable : Readable path slots) (below : slot < slots) : slotFile path slot ≠ [] := by
  rw [readable.slotFile_eq below]
  exact List.append_ne_nil_of_right_ne_nil _ (List.cons_ne_nil _ _)

theorem slotFile_clean (readable : Readable path slots) (below : slot < slots) :
    ∀ c ∈ slotFile path slot, c ∉ argSep ∧ c ∉ lineEnds := by
  intro c member
  rw [readable.slotFile_eq below] at member
  rcases List.mem_append.mp member with inPath | rest
  · exact readable.clean c inPath
  · rcases List.mem_cons.mp rest with rfl | digit
    · decide
    · rcases clean_of_word (isWordChar_of_mem_printInt digit) with ⟨apart, inside, -⟩
      exact ⟨apart, inside⟩

theorem slotFile_last (readable : Readable path slots) (below : slot < slots) :
    ∀ d ∈ (slotFile path slot).getLast?, isSpace d = false := by
  intro d last
  have digits := printInt_ne_nil slot
  rw [readable.slotFile_eq below, List.getLast?_append_of_ne_nil _ (List.cons_ne_nil _ _),
    List.getLast?_cons_of_ne_nil digits] at last
  exact (clean_of_word (isWordChar_of_mem_printInt (List.mem_of_mem_getLast? last))).2.2

end Readable

/-- A file name that the lines of a cache can hold. -/
structure CleanFile (file : Bytes) : Prop where
  clean : ∀ c ∈ file, c ∉ argSep ∧ c ∉ lineEnds
  last : ∀ d ∈ file.getLast?, isSpace d = false

theorem CleanFile.lines_clean (clean : CleanFile file) (moment : Moment) :
    ∀ line ∈ infoLines file moment, (∀ c ∈ line, c ∉ argSep ∧ c ∉ lineEnds) ∧ trimSpace line = line := by
  rcases words with ⟨name, filter, queue⟩
  have field : ∀ {key value : Bytes}, (∀ d ∈ key, isWordChar d = true) → (∀ c ∈ value, c ∉ argSep ∧ c ∉ lineEnds) →
      (∀ d ∈ value.getLast?, isSpace d = false) →
      (∀ c ∈ key ++ 61 :: value, c ∉ argSep ∧ c ∉ lineEnds) ∧ trimSpace (key ++ 61 :: value) = key ++ 61 :: value := by
    intro key value word inside last
    refine ⟨fun c member => ?_, WordLine.trimSpace_of_last word last⟩
    rcases List.mem_append.mp member with inKey | rest
    · exact ⟨(clean_of_word (word c inKey)).1, (clean_of_word (word c inKey)).2.1⟩
    · rcases List.mem_cons.mp rest with rfl | inValue
      · decide
      · exact inside c inValue
  have flag : ∀ n, ∀ c ∈ printHex n, c ∉ argSep ∧ c ∉ lineEnds ∧ isSpace c = false := fun n c member =>
    clean_of_word (isWordChar_of_isAlnum (LineList.isAlnum_of_mem_printHex member))
  have flagField : ∀ {key : Bytes}, (∀ d ∈ key, isWordChar d = true) → ∀ n,
      (∀ c ∈ key ++ 61 :: printHex n, c ∉ argSep ∧ c ∉ lineEnds) ∧
        trimSpace (key ++ 61 :: printHex n) = key ++ 61 :: printHex n := fun word n =>
    field word (fun c member => ⟨(flag n c member).1, (flag n c member).2.1⟩)
      fun d last => (flag n d (List.mem_of_mem_getLast? last)).2.2
  intro line member
  simp only [infoLines, List.mem_cons, List.not_mem_nil, or_false] at member
  rcases member with rfl | rfl | rfl
  · exact field name clean.clean clean.last
  · exact flagField filter _
  · exact flagField queue _

theorem Readable.cleanFile (readable : Readable path slots) (below : slot < slots) : CleanFile (slotFile path slot) :=
  ⟨readable.slotFile_clean below, readable.slotFile_last below⟩

/-- What a slot tells, as text. -/
def infoText (file : Bytes) (moment : Moment) : Bytes := (infoLines file moment).flatMap (· ++ [44])

theorem slotLine_eq (readable : Readable path slots) (below : slot < slots) :
    slotLine path key moment slot = key ++ 61 :: infoText (slotFile path slot) moment := by
  have shown : ∀ line ∈ infoLines (slotFile path slot) moment, line ≠ [] := fun line member =>
    (wordLine_infoLines _ moment line member).ne_nil
  simp only [slotLine]
  rw [fields_eq (readable.slotFile_ne_nil below), getD_joinLineList shown, infoText]

theorem CleanFile.pieces_infoText (clean : CleanFile file) : pieces argSep (infoText file moment) = infoLines file moment := by
  have whole : ∀ line ∈ infoLines file moment, ∀ d ∈ line, d ∉ argSep := fun line member d inside =>
    ((clean.lines_clean moment line member).1 d inside).1
  have parts := pieces_flatMap whole (by decide : (44 : UInt8) ∈ argSep) []
  rwa [List.append_nil, pieces, List.append_nil] at parts

/-- The fields of a line are read as they were set. -/
theorem CleanFile.split_infoText (clean : CleanFile file) :
    split [] (infoText file moment) argSep true hashValueSep true true false = infoLines file moment := by
  have parts : pieces argSep (infoText file moment) = infoLines file moment := clean.pieces_infoText
  have trimmed := List.map_congr_left fun line member => (clean.lines_clean moment line member).2
  rw [split_eq isSeparator_hashValueSep parts (wordLine_infoLines file moment) (keyed_infoLines file moment).sorted, trimmed,
    List.map_id']

theorem cacheInfo_slotLine (readable : Readable path slots) (below : slot < slots) (plain : 61 ∉ key) :
    cacheInfo (slotLine path key moment slot) = infoLines (slotFile path slot) moment := by
  have inside : ∀ d ∈ key, decide (d ≠ 61) = true := fun d member => decide_eq_true fun same => plain (same ▸ member)
  rw [slotLine_eq readable below, cacheInfo, List.dropWhile_append_of_pos inside]
  exact (readable.cleanFile below).split_infoText

/-- The key of a line, as it is compared. -/
theorem takeWhile_slotLine (readable : Readable path slots) (below : slot < slots) :
    (slotLine path key moment slot).takeWhile (· ≠ 61) = key.takeWhile (· ≠ 61) := by
  rw [slotLine_eq readable below]
  induction key with
  | nil => rfl
  | cons c key ih =>
      rw [List.cons_append, List.takeWhile_cons, List.takeWhile_cons, ih]

/-! ## Keys with a `=` -/

/-- What stands behind a `=` is not in the key of a line. -/
theorem lineKey_through (t x : Bytes) : lineKey (trimSpace (t ++ 61 :: x)) = lineKey (trimSpace (t ++ [61])) := by
  have key : ∀ s x : Bytes, keyOf optionValueSep (s ++ 61 :: x) = keyOf optionValueSep (s ++ [61]) := by
    intro s x
    induction s with
    | nil => rfl
    | cons c s ih =>
        have step : ∀ rest : Bytes, keyOf optionValueSep (c :: rest) =
            if (!optionValueSep.contains c) = true then c :: keyOf optionValueSep rest else [] := fun rest =>
          List.takeWhile_cons
        rw [List.cons_append, List.cons_append, step, step, ih]
  rw [trimSpace_through, trimSpace_through]
  exact congrArg foldCase ((key _ _).trans (key _ _).symm)

/-- A key with a `=` that names no file, for which none is found in its line. -/
theorem findStrValue_named (readable : Readable path slots) (below : slot < slots) (equals : 61 ∈ key)
    (unnamed : namesFile key = false) : (cacheInfo (slotLine path key moment slot)).findStrValue filenames = none := by
  have clean := readable.cleanFile below
  have behind : ((slotLine path key moment slot).dropWhile (· ≠ 61)).tail =
      (key.dropWhile (· ≠ 61)).tail ++ 61 :: infoText (slotFile path slot) moment := by
    rw [slotLine_eq readable below]
    clear unnamed
    induction key with
    | nil => exact absurd equals List.not_mem_nil
    | cons c key ih =>
        rw [List.cons_append, List.dropWhile_cons, List.dropWhile_cons]
        split
        · next other =>
            refine ih ((List.mem_cons.mp equals).resolve_left fun same => ?_)
            exact of_decide_eq_true other same.symm
        · rfl
  have others : ∀ s ∈ pieces argSep ((key.dropWhile (· ≠ 61)).tail ++ [61]), lineKey (trimSpace s) ≠ foldCase filenames := by
    intro s member same
    have named : namesFile key = true := by
      rw [namesFile, List.contains_iff_mem.mpr equals, Bool.true_and]
      exact List.any_eq_true.mpr ⟨s, member, LineList.hasKey_iff.mpr same⟩
    exact Bool.false_ne_true (unnamed.symm.trans named)
  refine Option.eq_none_iff_forall_not_mem.mpr fun value found => ?_
  rcases LineList.exists_of_findStrValue found with ⟨line, member, same, -⟩
  rcases mem_split member with ⟨piece, part, rfl⟩
  rw [behind] at part
  rcases pieces_through (by decide : (61 : UInt8) ∉ argSep) (key.dropWhile (· ≠ 61)).tail
    (infoText (slotFile path slot) moment) with ⟨front, t, short, long⟩
  rw [short] at others
  rw [long, clean.pieces_infoText] at part
  rcases List.mem_append.mp part with before | rest
  · exact others piece (List.mem_append_left _ before) same
  · rcases List.mem_cons.mp rest with rfl | flag
    · rw [lineKey_through] at same
      exact others (t ++ [61]) (List.mem_append_right _ List.mem_cons_self) same
    · have plain := (clean.lines_clean moment piece (List.mem_of_mem_tail flag)).2
      have key : lineKey piece ∈ ((infoLines (slotFile path slot) moment).map lineKey).tail := by
        rw [← List.map_tail]
        exact List.mem_map_of_mem flag
      rw [keys_infoLines, List.tail_cons, ← plain, same] at key
      rcases keys_apart with ⟨filter, -, queue⟩
      rcases List.mem_cons.mp key with equal | last
      · exact filter.ne equal
      · exact queue.ne (List.mem_singleton.mp last)

end

/-! ## What is kept -/

/-- The lines of a cache with these requests in its slots. -/
def slotLines (path : Bytes) (entries : List (Query × Moment)) : LineList :=
  entries.mapIdx fun slot e => slotLine path e.1.hashKey e.2 slot

/-- The cache holds these requests: the line of a slot is that of its request, and the file has its text. -/
structure Holds (q : Queue) (path : Bytes) (disk : Disk) (entries : List (Query × Moment)) : Prop where
  few : entries.length ≤ q.lpqStatusCached.toNat
  cache : disk.cache = (slotLines path entries).flatMap (· ++ [10])
  files : ∀ slot e, entries[slot]? = some e →
    ∃ file, disk.files (slotFile path slot) = some file ∧ file.text = q.text e.1

section

variable {q : Queue} {path key : Bytes} {disk : Disk} {entries : List (Query × Moment)} {slot : Nat}

theorem getElem?_slotLines : (slotLines path entries)[slot]? =
    (entries[slot]?).map fun e => slotLine path e.1.hashKey e.2 slot := List.getElem?_mapIdx

theorem length_slotLines : (slotLines path entries).length = entries.length := List.length_mapIdx

theorem mem_slotLines {line : Bytes} (member : line ∈ slotLines path entries) :
    ∃ slot e, entries[slot]? = some e ∧ line = slotLine path e.1.hashKey e.2 slot := by
  rcases List.mem_iff_getElem?.mp member with ⟨slot, entry⟩
  rw [getElem?_slotLines] at entry
  rcases Option.map_eq_some_iff.mp entry with ⟨e, found, rfl⟩
  exact ⟨slot, e, found, rfl⟩

theorem Holds.below (holds : Holds q path disk entries) {e : Query × Moment} (found : entries[slot]? = some e) :
    slot < q.lpqStatusCached := by
  have inside := (List.getElem?_eq_some_iff.mp found).1
  have few := holds.few
  omega

theorem Holds.cacheLines (holds : Holds q path disk entries) (readable : Readable path q.lpqStatusCached)
    (whole : ∀ e ∈ entries, ∀ c ∈ e.1.hashKey, c ∉ lineEnds) :
    q.cacheLines disk = slotLines path entries ++ List.replicate (q.lpqStatusCached.toNat - entries.length) [] := by
  have lines : ∀ line ∈ slotLines path entries, ∀ c ∈ line, c ∉ lineEnds := by
    intro line member c inside
    rcases mem_slotLines member with ⟨slot, e, found, rfl⟩
    have below := holds.below found
    rw [slotLine_eq readable below] at inside
    rcases List.mem_append.mp inside with inKey | rest
    · exact whole e (List.mem_of_getElem? found) c inKey
    · rcases List.mem_cons.mp rest with rfl | inInfo
      · decide
      · rcases List.mem_flatMap.mp inInfo with ⟨field, known, here⟩
        rcases List.mem_append.mp here with inField | comma
        · exact (((readable.cleanFile below).lines_clean e.2 field known).1 c inField).2
        · rw [List.mem_singleton.mp comma]
          decide
  have parts := pieces_flatMap lines (by decide : (10 : UInt8) ∈ lineEnds) []
  rw [List.append_nil, pieces, List.append_nil] at parts
  rw [Queue.cacheLines, split_pieces, holds.cache, parts, length_slotLines]

/-- A line that is found is that of a request with the key, up to a `=`. -/
theorem findSlot_spec (readable : Readable path q.lpqStatusCached) (few : entries.length ≤ q.lpqStatusCached.toNat) {n : Nat}
    (found : findSlot (slotLines path entries ++ List.replicate n []) key = some slot) :
    ∃ e, entries[slot]? = some e ∧ e.1.hashKey.takeWhile (· ≠ 61) = key ∧
      (slotLines path entries ++ List.replicate n []).getD slot [] = slotLine path e.1.hashKey e.2 slot := by
  rcases List.findIdx?_eq_some_iff_getElem.mp found with ⟨inside, hit, -⟩
  rw [Bool.and_eq_true, decide_eq_true_iff] at hit
  have entry : (slotLines path entries ++ List.replicate n [])[slot]? =
      some (slotLines path entries ++ List.replicate n [])[slot] := List.getElem?_eq_getElem inside
  rcases Nat.lt_or_ge slot (slotLines path entries).length with front | behind
  · have within : slot < entries.length := length_slotLines ▸ front
    have line : (slotLines path entries ++ List.replicate n [])[slot] =
        slotLine path entries[slot].1.hashKey entries[slot].2 slot := by
      have shown : (slotLines path entries)[slot]? = (entries[slot]?).map fun e => slotLine path e.1.hashKey e.2 slot :=
        getElem?_slotLines
      rw [List.getElem?_eq_getElem within, ← List.getElem?_append_left front, entry] at shown
      exact Option.some.inj shown
    refine ⟨entries[slot], List.getElem?_eq_getElem within, ?_, ?_⟩
    · rw [← hit.2, line]
      exact (takeWhile_slotLine readable (by omega)).symm
    · rw [List.getD_eq_getElem?_getD, entry, Option.getD_some, line]
  · rw [List.getElem_append_right behind, List.getElem_replicate] at hit
    exact absurd hit.1 (by decide)

/-- A new line goes to a slot that is used, or to the first that is not. -/
theorem freeSlot_spec {files : Bytes → Option File} {lines : LineList} {n ix i : Nat} {modified : Int} {nx : Option Nat}
    (free : freeSlot files (lines ++ List.replicate n []) ix modified nx = some i) :
    nx = some i ∨ (ix ≤ i ∧ i ≤ ix + lines.length ∧ i < ix + lines.length + n) := by
  induction lines generalizing ix modified nx with
  | nil =>
      cases n with
      | zero => exact .inl free
      | succ n =>
          have here : ix = i := Option.some.inj free
          exact .inr (by simp only [List.length_nil]; omega)
  | cons s lines ih =>
      have later : ∀ {modified nx}, freeSlot files (lines ++ List.replicate n []) (ix + 1) modified nx = some i →
          nx = some i ∨ (ix ≤ i ∧ i ≤ ix + (s :: lines).length ∧ i < ix + (s :: lines).length + n) := by
        intro modified nx rest
        rw [List.length_cons]
        exact (ih rest).imp_right fun _ => by omega
      have here : ix = i → nx = some i ∨ (ix ≤ i ∧ i ≤ ix + (s :: lines).length ∧ i < ix + (s :: lines).length + n) := by
        intro same
        rw [List.length_cons]
        exact .inr (by omega)
      rw [List.cons_append, freeSlot] at free
      split at free
      · split at free
        · exact here (Option.some.inj free)
        · split at free
          · exact (later free).elim (fun same => here (Option.some.inj same)) .inr
          · exact later free
      · exact here (Option.some.inj free)

/-- What is found in a slot is the text of its request, whose key has no `=`. -/
theorem Holds.cached (holds : Holds q path disk entries) (readable : Readable path q.lpqStatusCached) {moment : Moment}
    {e : Query × Moment} (found : entries[slot]? = some e) (unnamed : namesFile e.1.hashKey = false) {text : Bytes}
    (given : q.cached disk moment (slotLine path e.1.hashKey e.2 slot) = some text) :
    text = q.text e.1 ∧ 61 ∉ e.1.hashKey := by
  have below := holds.below found
  by_cases equals : 61 ∈ e.1.hashKey
  · simp only [Queue.cached] at given
    rw [findStrValue_named readable below equals unnamed] at given
    cases given
  · rcases holds.files slot e found with ⟨file, onDisk, same⟩
    simp only [Queue.cached] at given
    rw [cacheInfo_slotLine readable below equals, findStrValue_infoLines, Option.bind_some, onDisk, Option.bind_some] at given
    split at given
    · exact ⟨(Option.some.inj given).symm.trans same, equals⟩
    · cases given

/-- The requests of the slots when one is put into a slot. -/
def put (entries : List (Query × Moment)) (slot : Nat) (e : Query × Moment) : List (Query × Moment) :=
  entries.take slot ++ e :: entries.drop (slot + 1)

theorem getElem?_put (within : slot ≤ entries.length) (e : Query × Moment) (i : Nat) :
    (put entries slot e)[i]? = if i = slot then some e else entries[i]? := by
  have front : (entries.take slot).length = slot := List.length_take_of_le within
  rcases Nat.lt_trichotomy i slot with less | rfl | more
  · rw [put, List.getElem?_append_left (by omega), List.getElem?_take, if_pos less, if_neg less.ne]
  · rw [put, List.getElem?_append_right (by omega), front, Nat.sub_self, if_pos rfl]
    rfl
  · rw [put, List.getElem?_append_right (by omega), front, if_neg more.ne']
    have behind : i - slot = (i - slot - 1) + 1 := by omega
    rw [behind, List.getElem?_cons_succ, List.getElem?_drop]
    congr 1
    omega

theorem length_put (within : slot ≤ entries.length) (e : Query × Moment) :
    (put entries slot e).length = max entries.length (slot + 1) := by
  rw [put, List.length_append, List.length_cons, List.length_take_of_le within, List.length_drop]
  omega

theorem set_slotLines (within : slot ≤ entries.length) (e : Query × Moment) {n : Nat} (room : slot < entries.length + n) :
    ∃ m, (slotLines path entries ++ List.replicate n []).set slot (slotLine path e.1.hashKey e.2 slot) =
      slotLines path (put entries slot e) ++ List.replicate m [] := by
  refine ⟨entries.length + n - max entries.length (slot + 1), List.ext_getElem? fun i => ?_⟩
  have length : (slotLines path entries ++ List.replicate n []).length = entries.length + n := by
    rw [List.length_append, length_slotLines, List.length_replicate]
  have longer : (slotLines path (put entries slot e)).length = max entries.length (slot + 1) := by
    rw [length_slotLines, length_put within]
  rw [List.getElem?_set, length]
  by_cases here : slot = i
  · subst here
    rw [if_pos rfl, if_pos room, List.getElem?_append_left (by omega), getElem?_slotLines, getElem?_put within, if_pos rfl]
    rfl
  · rw [if_neg here]
    rcases Nat.lt_or_ge i entries.length with front | behind
    · rw [List.getElem?_append_left (by rw [length_slotLines]; exact front), List.getElem?_append_left (by omega),
        getElem?_slotLines, getElem?_slotLines, getElem?_put within, if_neg (Ne.symm here)]
    · rw [List.getElem?_append_right (by rw [length_slotLines]; exact behind), List.getElem?_append_right (by omega),
        List.getElem?_replicate, List.getElem?_replicate, length_slotLines, longer]
      congr 1
      rw [eq_iff_iff]
      omega

/-- A new text goes to its slot, and the others keep theirs. -/
theorem Holds.store (holds : Holds q path disk entries) (readable : Readable path q.lpqStatusCached)
    (within : slot ≤ entries.length) (below : slot < q.lpqStatusCached) (query : Query) (moment : Moment) :
    Holds q path (disk.store path (slotLines path entries ++
      List.replicate (q.lpqStatusCached.toNat - entries.length) []) query moment (q.text query) slot)
      (put entries slot (query, moment)) := by
  have few := holds.few
  refine ⟨by rw [length_put within]; omega, ?_, fun i e found => ?_⟩
  · have room : slot < entries.length + (q.lpqStatusCached.toNat - entries.length) := by omega
    have lines : ∃ m, (slotLines path entries ++ List.replicate (q.lpqStatusCached.toNat - entries.length) []).set slot
        (slotLine path query.hashKey moment slot) =
          slotLines path (put entries slot (query, moment)) ++ List.replicate m [] :=
      set_slotLines within (query, moment) room
    rcases lines with ⟨m, lines⟩
    have shown : ∀ line ∈ slotLines path (put entries slot (query, moment)), line ≠ [] := by
      intro line member
      rcases mem_slotLines member with ⟨i, e, found, rfl⟩
      exact List.append_ne_nil_of_right_ne_nil _ (List.cons_ne_nil _ _)
    rw [Disk.store, lines, ← getD_joinLineList shown]
    simp [LineList.joinLineList]
  · rw [getElem?_put within] at found
    split at found
    · next here =>
        cases found
        subst here
        exact ⟨_, Function.update_self .., rfl⟩
    · next other =>
        rcases holds.files i e found with ⟨file, onDisk, same⟩
        refine ⟨file, (Function.update_of_ne (fun name => other ?_) ..).trans onDisk, same⟩
        exact readable.slotFile_injective (holds.below found) below name

end

/-! ## Keys -/

theorem takeWhile_hashKey (n : Int) (args : LineList) :
    (hashKey (printInt n :: args)).takeWhile (· ≠ 95) = printInt n := by
  have digit : ∀ c ∈ printInt n, c ≠ 95 ∧ c ∉ IncludeFiles.whitespace := by
    intro c member
    rcases digit_of_mem_printInt member with digit | rfl
    · have table : ∀ c : UInt8, (!isDigit c || (c != 95 && !IncludeFiles.whitespace.contains c)) = true :=
        forall_byte (by decide +kernel)
      have row := table c
      rw [digit] at row
      simpa using row
    · decide
  have joined : ∃ rest, (LineList.joinLineList (printInt n :: args) [95]).getD [] = printInt n ++ 95 :: rest := by
    refine ⟨(args.filter (· ≠ [])).flatMap (· ++ [95]), ?_⟩
    simp [LineList.joinLineList, printInt_ne_nil]
  rcases joined with ⟨rest, joined⟩
  have kept : (printInt n).map (fun c => if IncludeFiles.whitespace.contains c then 95 else c) = printInt n := by
    refine (List.map_congr_left fun c member => ?_).trans (List.map_id _)
    exact if_neg (by simpa using (digit c member).2)
  have front : ∀ c ∈ printInt n, decide (c ≠ 95) = true := fun c member => decide_eq_true (digit c member).1
  rw [hashKey, joined, List.dropLast_append_cons, List.map_append, kept, List.takeWhile_append_of_pos front]
  cases rest with
  | nil => exact List.append_nil _
  | cons c rest => exact List.append_nil _

/-- The key of a request begins with its format. -/
theorem displayformat_of_hashKey {shortLength : Int} {r s : Request} {a b : Query} (left : jobStatus shortLength r = some a)
    (right : jobStatus shortLength s = some b) (same : a.hashKey = b.hashKey) : a.displayformat = b.displayformat := by
  have shape : ∀ {r : Request} {a : Query}, jobStatus shortLength r = some a →
      ∃ args, a.hashKey = hashKey (printInt a.displayformat :: args) := by
    intro r a given
    unfold jobStatus at given
    split at given
    · cases given
    · dsimp only at given
      split at given
      · cases given
      · split at given
        · cases given
          exact ⟨_, rfl⟩
        · cases given
  rcases shape left with ⟨args, key⟩
  rcases shape right with ⟨args', key'⟩
  rw [key, key'] at same
  refine printInt_injective ?_
  rw [← takeWhile_hashKey a.displayformat args, same, takeWhile_hashKey]

theorem Queue.text_congr {q : Queue} {a b : Query} (displayformat : a.displayformat = b.displayformat)
    (tokens : a.tokens = b.tokens) (statusLines : a.statusLines = b.statusLines)
    (originally : q.originally a.name = q.originally b.name) : q.text a = q.text b := by
  rw [Queue.text, Queue.text, Queue.header, Queue.header, displayformat, tokens, statusLines, originally]

/-! ## Runs -/

/-- What is passed on for requests, at the times they come. -/
def queries (shortLength : Int) (requests : List (Request × Moment)) : List (Query × Moment) :=
  requests.filterMap fun r => (jobStatus shortLength r.1).map (·, r.2)

/-- Each request has a key of its own. -/
structure Distinct (q : Queue) (queries : List (Query × Moment)) : Prop where
  /-- A key is a single line. -/
  lines : ∀ a ∈ queries, ∀ c ∈ a.1.hashKey, c ∉ lineEnds
  /-- What stands behind a `=` names no file for another. -/
  named : ∀ a ∈ queries, ∀ b ∈ queries, a.1.hashKey.takeWhile (· ≠ 61) = b.1.hashKey → namesFile a.1.hashKey = false
  /-- A key stands for the same jobs, as many lines, and the same name that is shown. -/
  same : ∀ a ∈ queries, ∀ b ∈ queries, a.1.hashKey = b.1.hashKey → 61 ∉ a.1.hashKey →
    a.1.tokens = b.1.tokens ∧ a.1.statusLines = b.1.statusLines ∧ q.originally a.1.name = q.originally b.1.name

section

variable {q : Queue} {path : Bytes} {shortLength : Int} {requests : List (Request × Moment)} {disk : Disk}
  {entries : List (Query × Moment)} {a b : Query × Moment}

theorem Distinct.text_eq (distinct : Distinct q (queries shortLength requests)) (left : a ∈ queries shortLength requests)
    (right : b ∈ queries shortLength requests) (same : a.1.hashKey = b.1.hashKey) (plain : 61 ∉ a.1.hashKey) :
    q.text a.1 = q.text b.1 := by
  have request : ∀ {a}, a ∈ queries shortLength requests → ∃ r, jobStatus shortLength r = some a.1 := by
    intro a member
    rcases List.mem_filterMap.mp member with ⟨r, -, given⟩
    rcases Option.map_eq_some_iff.mp given with ⟨query, status, rfl⟩
    exact ⟨r.1, status⟩
  rcases request left with ⟨r, given⟩
  rcases request right with ⟨s, given'⟩
  rcases distinct.same a left b right same plain with ⟨tokens, statusLines, originally⟩
  exact Queue.text_congr (displayformat_of_hashKey given given' same) tokens statusLines originally

/-- A request is answered with its own text, and the cache still holds requests that were made. -/
theorem Holds.getQueueStatus (holds : Holds q path disk entries) (readable : Readable path q.lpqStatusCached)
    (kept : q.lpqStatusFile = some path) (cached : 0 < q.lpqStatusCached)
    (distinct : Distinct q (queries shortLength requests)) (made : ∀ e ∈ entries, e ∈ queries shortLength requests)
    (member : a ∈ queries shortLength requests) :
    (q.getQueueStatus disk a.1 a.2).2 = q.text a.1 ∧
      ∃ entries, Holds q path (q.getQueueStatus disk a.1 a.2).1 entries ∧ ∀ e ∈ entries, e ∈ queries shortLength requests := by
  have few := holds.few
  have lines := holds.cacheLines readable fun e inside => distinct.lines e (made e inside)
  have store : ∀ slot, slot ≤ entries.length → slot < q.lpqStatusCached →
      ∃ next, Holds q path (disk.store path (slotLines path entries ++
        List.replicate (q.lpqStatusCached.toNat - entries.length) []) a.1 a.2 (q.text a.1) slot) next ∧
        ∀ e ∈ next, e ∈ queries shortLength requests := by
    intro slot within below
    refine ⟨_, holds.store readable within below a.1 a.2, fun e inside => ?_⟩
    rcases List.mem_append.mp inside with before | rest
    · exact made e (List.mem_of_mem_take before)
    · rcases List.mem_cons.mp rest with rfl | behind
      · exact member
      · exact made e (List.mem_of_mem_drop behind)
  simp only [Queue.getQueueStatus, kept, if_pos cached, lines]
  split
  · next text given =>
      rcases Option.bind_eq_some_iff.mp given with ⟨slot, found, given⟩
      rcases findSlot_spec readable few found with ⟨e, entry, key, line⟩
      rw [line] at given
      have known := made e (List.mem_of_getElem? entry)
      have unnamed := distinct.named e known a member key
      rcases holds.cached readable entry unnamed given with ⟨same, plain⟩
      have whole : e.1.hashKey.takeWhile (· ≠ 61) = e.1.hashKey :=
        List.takeWhile_eq_self_iff.mpr fun c inside => decide_eq_true fun equals => plain (equals ▸ inside)
      exact ⟨same.trans (distinct.text_eq known member (whole.symm.trans key) plain), entries, holds, made⟩
  · split
    · next slot chosen =>
        have within : slot ≤ entries.length ∧ slot < q.lpqStatusCached := by
          rcases Option.or_eq_some_iff.mp chosen with found | ⟨-, free⟩
          · rcases findSlot_spec readable few found with ⟨e, entry, -, -⟩
            exact ⟨(List.getElem?_eq_some_iff.mp entry).1.le, holds.below entry⟩
          · have place := (freeSlot_spec free).resolve_left nofun
            rw [length_slotLines] at place
            omega
        exact ⟨rfl, store slot within.1 within.2⟩
    · exact ⟨rfl, entries, holds, made⟩

/-- The texts are those that are sent without a cache. -/
theorem Holds.replies (holds : Holds q path disk entries) (readable : Readable path q.lpqStatusCached)
    (kept : q.lpqStatusFile = some path) (cached : 0 < q.lpqStatusCached)
    (distinct : Distinct q (queries shortLength requests)) (made : ∀ e ∈ entries, e ∈ queries shortLength requests)
    {later : List (Query × Moment)} (members : ∀ a ∈ later, a ∈ queries shortLength requests) :
    q.replies disk later = later.map fun a => q.text a.1 := by
  induction later generalizing disk entries with
  | nil => rfl
  | cons a later ih =>
      rcases holds.getQueueStatus readable kept cached distinct made (members a List.mem_cons_self) with
        ⟨text, next, holds, made⟩
      have rest := ih holds made fun b member => members b (List.mem_cons_of_mem a member)
      show (q.getQueueStatus disk a.1 a.2).2 :: q.replies (q.getQueueStatus disk a.1 a.2).1 later = _
      rw [text, rest]
      rfl

theorem replies_uncached (q : Queue) (disk : Disk) (later : List (Query × Moment))
    (off : ∀ path ∈ q.lpqStatusFile, q.lpqStatusCached ≤ 0) : q.replies disk later = later.map fun a => q.text a.1 := by
  induction later with
  | nil => rfl
  | cons a later ih =>
      have plain : q.getQueueStatus disk a.1 a.2 = (disk, q.text a.1) := by
        rw [Queue.getQueueStatus]
        split
        · next path kept => exact if_neg (not_lt.mpr (off path kept))
        · rfl
      rw [Queue.replies, plain, List.map_cons, ← ih]

/-- Within a cache that is empty at first, requests with keys of their own are answered as without one. -/
theorem replies_cached (q : Queue) (readable : ∀ path ∈ q.lpqStatusFile, Readable path q.lpqStatusCached)
    (shortLength : Int) (requests : List (Request × Moment)) (files : Bytes → Option File)
    (distinct : Distinct q (queries shortLength requests)) :
    q.replies ⟨[], files⟩ (queries shortLength requests) =
      Queue.replies { q with lpqStatusCached := 0 } ⟨[], files⟩ (queries shortLength requests) := by
  rw [replies_uncached { q with lpqStatusCached := 0 } _ _ fun _ _ => le_refl _]
  cases kept : q.lpqStatusFile with
  | none => exact replies_uncached q _ _ (by simp [kept])
  | some path =>
      rcases le_or_gt q.lpqStatusCached 0 with off | on
      · exact replies_uncached q _ _ fun _ _ => off
      · have start : Holds q path ⟨[], files⟩ [] := ⟨Nat.zero_le _, rfl, fun _ _ => nofun⟩
        exact start.replies (readable path kept) kept on distinct (fun _ => nofun) fun _ => id

/-! ## An idle queue -/

/-- A queue without jobs, of which the short status is asked for. -/
def idleQueue : Queue where
  printer := lit "lp"
  reportServerAs := lit "host"
  serves := false
  lpqStatusFile := some (lit "/var/spool/lp/lpq_cache")
  lpqStatusCached := 2
  lpqStatusStale := 60
  lpqStatusInterval := 10
  report := fun _ _ _ header => header ++ lit " 0 jobs\n"

def anyHost : RemoteHost := ⟨false, none, false⟩

def asked (text : Bytes) : Request × Moment := (⟨3 :: text ++ [10], anyHost, lit "lp"⟩, ⟨1000, some 900, some 900⟩)

theorem asked_twice :
    idleQueue.replies ⟨[], fun _ => none⟩ (queries 2 [asked (lit "lp"), asked (lit "lp 12"), asked (lit "lp")]) =
      Queue.replies { idleQueue with lpqStatusCached := 0 } ⟨[], fun _ => none⟩
        (queries 2 [asked (lit "lp"), asked (lit "lp 12"), asked (lit "lp")]) := by
  refine replies_cached idleQueue (fun path kept => ?_) 2 _ _ ⟨by decide, by decide, by decide⟩
  cases kept
  refine ⟨by decide, fun slot below => ?_⟩
  have slots : slot = 0 ∨ slot = 1 := by
    have bound : (slot : Int) < 2 := below
    omega
  rcases slots with rfl | rfl
  · decide
  · decide

/-- The text for the name of a queue is sent for an alias. -/
theorem alias_cached :
    idleQueue.replies ⟨[], fun _ => none⟩ (queries 2 [asked (lit "lp"), asked (lit "alias")]) =
        [lit "lp@host 0 jobs\n", lit "lp@host 0 jobs\n"] ∧
      Queue.replies { idleQueue with lpqStatusCached := 0 } ⟨[], fun _ => none⟩
          (queries 2 [asked (lit "lp"), asked (lit "alias")]) =
        [lit "lp@host 0 jobs\n", lit "lp@host (originally alias) 0 jobs\n"] := by
  decide +kernel

end

end StatusCache

end LPRng
