import LPRng.Job
import LPRng.Split
import LPRng.PrintSequence

/-!
# Reading a control file

`Set_job_ticket_from_cf_info` makes the data file list of a job from the lines of its control
file. It is a reader of print sequences: lower case letters are formats with the names of files
behind them, `N` lines are names, and everything else goes to the fields of the job.
-/

namespace LPRng

open PrintSequence

def toUpper (c : UInt8) : UInt8 := if isLower c then c - 32 else c

/-- The settings for the priority of a job. -/
structure PriorityConfig where
  ignoreRequestedUserPriority : Bool
  breakClassnamePriorityLink : Bool
  defaultPriority : Option Bytes

/-- `Append_Z_value`. -/
def Fields.appendZValue (info : Fields) (s : Bytes) : Fields :=
  if s = [] then info
  else
    match (info.findStrValue (.letter 90)).filter (· ≠ []) with
    | some t => info.setStrValue (.letter 90) (some (t ++ 44 :: s))
    | none => info.setStrValue (.letter 90) (some s)

/-- What `Set_job_ticket_from_cf_info` keeps from line to line. -/
structure Reading where
  info : Fields
  datafiles : List Fields
  datafile : Fields
  fileFound : Option Bytes
  copies : Nat
  lastFormat : UInt8
  names : Option Bytes

namespace Reading

def start (info : Fields) : Reading := ⟨info, [], .empty, none, 0, 0, none⟩

/-- The data file goes to the list, and a new one is begun. -/
def nextFile (r : Reading) : Reading :=
  { r with datafiles := r.datafiles ++ [r.datafile], datafile := .empty, fileFound := none, copies := 0 }

/-- White space in the name of a file. -/
def underscores (s : Bytes) : Bytes := s.map fun c => if c = 32 ∨ c = 9 then 95 else c

/-- One more copy of the file. -/
def addFile (r : Reading) (c : UInt8) (name : Bytes) : Reading :=
  let copies := r.copies + 1
  let datafile := ((r.datafile.setStrValue .format (some [c])).setFlagValue .copies copies).setStrValue
    .otransfername (some name)
  { r with
    lastFormat := c, copies := copies, datafile := datafile
    fileFound := datafile.findStrValue .otransfername }

def fileLine (r : Reading) (c : UInt8) (name : Bytes) : Reading :=
  if r.fileFound.any (fun found => found ≠ name ∨ r.lastFormat ≠ c) then r.nextFile.addFile c name
  else r.addFile c name

def addName (r : Reading) (name : Bytes) : Reading :=
  { r with
    datafile := r.datafile.setStrValue (.letter 78) (some name)
    names := some (match r.names with
      | none => name
      | some names => names ++ 44 :: name) }

def nameLine (r : Reading) (name : Bytes) : Reading :=
  if r.fileFound.isSome && (r.datafile.findStrValue (.letter 78)).isSome then r.nextFile.addName name
  else r.addName name

/-- The options of the HP format behind `N` and a blank. -/
def hpOption (r : Reading) : Bytes → Reading
  | 66 :: text => if text = [] then r else { r with info := r.info.setStrValue (.letter 84) (some text) }
  | 79 :: text => { r with info := r.info.appendZValue (text.map fun c => if c = 32 then 44 else c) }
  | _ => r

/-- The priority of the HP format, a number. -/
def hpPriority (r : Reading) (text : Bytes) : Reading :=
  let n := toInt32 (strtol 10 text).1
  if 0 ≤ n ∧ n ≤ 10 then
    { r with info := r.info.setStrValue .priority (some [UInt8.ofNat (65 + n.toNat)]) }
  else r

/-- One line of the control file. -/
def line (safe : Bytes) (hpformat : Bool) (r : Reading) (s : Bytes) : Reading :=
  match cleanMeta safe s with
  | [] => r
  | c :: s =>
      if isLower c then r.fileLine c (underscores s)
      else if c = 78 then
        match hpformat, s with
        | true, 32 :: option => r.hpOption option
        | _, _ => r.nameLine s
      else if c = 85 then r
      else if hpformat ∧ c = 90 then { r with info := r.info.appendZValue s }
      else if hpformat ∧ c = 82 then { r with info := r.info.setStrValue (.letter 77) (some s) }
      else if hpformat ∧ c = 65 then r.hpPriority s
      else if isUpper c then { r with info := r.info.setStrValue (.letter c) (some s) }
      else r

/-- The data files, with the last one if a line for it was found. -/
def files (r : Reading) : List Fields :=
  if r.fileFound.isSome then r.datafiles ++ [r.datafile] else r.datafiles

end Reading

/-- `PRIORITY`, and `CLASS` if there is none. -/
def Fields.setPriority (config : PriorityConfig) (info : Fields) : Fields :=
  let requested :=
    if !config.ignoreRequestedUserPriority && !config.breakClassnamePriorityLink then
      info.findStrValue .cls
    else none
  let priority :=
    ((requested.filter (· ≠ [])).or (config.defaultPriority.filter (· ≠ []))).getD (lit "A")
  let c := toUpper (priority.headD 0)
  let priority := if isUpper c then [c] else lit "A"
  let info := info.setStrValue .priority (some priority)
  if (info.findStrValue .cls).isSome then info
  else info.setStrValue .cls (info.findStrValue .priority)

/-- `Set_job_ticket_from_cf_info`, with the lines of the control file. -/
def Ticket.setFromCfLines (safe : Bytes) (config : PriorityConfig) (ticket : Ticket)
    (lines : LineList) : Ticket :=
  let r := lines.foldl (Reading.line safe (ticket.info.findFlagValue .hpformat ≠ 0))
    (.start ticket.info)
  { ticket with
    info := (r.info.setStrValue .filenames r.names).setPriority config
    datafiles := r.files }

/-- `Set_job_ticket_from_cf_info`, with the text of the control file. -/
def Ticket.setJobTicketFromCfInfo (safe : Bytes) (config : PriorityConfig) (ticket : Ticket)
    (cfFileImage : Bytes) : Ticket :=
  ticket.setFromCfLines safe config (split [] cfFileImage lineEnds false [] false false false)

/-! ## The reader of a print sequence -/

/-- The number of times something with a number of copies is printed, which is 1 for 0. -/
def timesPrinted (copies : Int) : Nat := if copies = 0 then 1 else copies.toNat

/-- A data file as it is printed, under the name given. -/
def Fields.print (name : Option Bytes) (file : Fields) : Print Bytes UInt8 Bytes where
  file := name.getD []
  format := ((file.findStrValue .format).bind List.head?).getD 102
  name := file.findStrValue (.letter 78)

/-- What is printed with the data files listed. -/
def filePrints (name : Fields → Option Bytes) (files : List Fields) : List (Print Bytes UInt8 Bytes) :=
  files.flatMap fun file =>
    List.replicate (timesPrinted (file.findFlagValue .copies)) (file.print (name file))

/-- A data file as it is listed. -/
def Fields.group (name : Option Bytes) (file : Fields) : Group Bytes UInt8 Bytes :=
  ⟨file.print name, (file.findFlagValue .copies).toNat⟩

theorem Fields.group_prints {name : Option Bytes} {file : Fields}
    (natural : 0 ≤ file.findFlagValue .copies) :
    List.replicate (timesPrinted (file.findFlagValue .copies)) (file.print name) =
      (file.group name).atLeastOnce.prints := by
  have times : timesPrinted (file.findFlagValue .copies) = (file.group name).atLeastOnce.copies := by
    unfold timesPrinted Group.atLeastOnce Fields.group
    dsimp only
    split <;> split <;> omega
  rw [times]
  rfl

theorem filePrints_eq {name : Fields → Option Bytes} {files : List Fields}
    (natural : ∀ file ∈ files, 0 ≤ file.findFlagValue .copies) :
    filePrints name files =
      (files.map fun file => (file.group (name file)).atLeastOnce).flatMap Group.prints := by
  unfold filePrints
  rw [List.flatMap_map]
  exact List.flatMap_congr fun file member => Fields.group_prints (natural file member)

/-- The name of a data file as its control file has it. -/
def Fields.otransfername (file : Fields) : Option Bytes := file.findStrValue .otransfername

/-- What a line of a control file says about the prints. -/
def lineOf (safe s : Bytes) : Line Bytes UInt8 Bytes :=
  match cleanMeta safe s with
  | [] => .other
  | c :: s =>
      if isLower c then .file c (Reading.underscores s)
      else if c = 78 then .name s
      else .other

/-- A line for a file or a name has something behind its letter. -/
def Proper : Line Bytes UInt8 Bytes → Prop
  | .file _ name | .name name => name ≠ []
  | .other => True

namespace Reading

/-- The reading stands where the reader of print sequences does, after at most `n` lines. -/
structure Shows (r : Reading) (s : State Bytes UInt8 Bytes) (n : Nat) : Prop where
  closed : r.datafiles.map (fun file => file.group file.otransfername) = s.closed
  name : r.datafile.findStrValue (.letter 78) = s.name
  current : s.current = r.fileFound.map fun found => (found, r.lastFormat, r.copies)
  found : r.datafile.otransfername = r.fileFound
  format : r.fileFound ≠ none → r.datafile.findStrValue .format = some [r.lastFormat]
  copies : r.fileFound ≠ none → r.datafile.findFlagValue .copies = r.copies
  fresh : r.fileFound = none → r.copies = 0
  bound : r.copies ≤ n

variable {r : Reading} {s : State Bytes UInt8 Bytes} {n : Nat}

theorem Shows.group_datafile (shows_ : r.Shows s n) {found : Bytes} (given : r.fileFound = some found) :
    r.datafile.group r.datafile.otransfername = ⟨⟨found, r.lastFormat, s.name⟩, r.copies⟩ := by
  have some_ : r.fileFound ≠ none := by rw [given]; exact Option.some_ne_none found
  rw [shows_.found, given, Fields.group, Fields.print, shows_.format some_, shows_.copies some_, shows_.name]
  rfl

theorem Shows.nextFile (shows_ : r.Shows s n) (given : r.fileFound ≠ none) :
    r.nextFile.Shows s.close n ∧ s.close.current = none ∧ s.close.name = none := by
  obtain ⟨found, some_⟩ := Option.ne_none_iff_exists'.mp given
  have current : s.current = some (found, r.lastFormat, r.copies) := by rw [shows_.current, some_]; rfl
  have closed : s.close = ⟨s.closed ++ [⟨⟨found, r.lastFormat, s.name⟩, r.copies⟩], none, none⟩ := by
    rw [State.close, current]
  rw [closed]
  refine ⟨⟨?_, rfl, rfl, rfl, absurd rfl, absurd rfl, fun _ => rfl, Nat.zero_le n⟩, rfl, rfl⟩
  change (r.datafiles ++ [r.datafile]).map _ = _
  rw [List.map_append, shows_.closed, List.map_singleton, shows_.group_datafile some_]

theorem Shows.addFile (shows_ : r.Shows s n) (small : n + 1 < 2 ^ 31) {c : UInt8} {name : Bytes}
    (given : name ≠ []) :
    (r.addFile c name).Shows { s with current := some (name, c, r.copies + 1) } (n + 1) := by
  have found : (r.addFile c name).fileFound = some name := by
    simp [Reading.addFile, given]
  have count : (r.addFile c name).datafile.findFlagValue .copies = ((r.copies + 1 : Nat) : Int) := by
    have bound := shows_.bound
    simp only [Reading.addFile, ne_eq, reduceCtorEq, not_false_eq_true,
      Fields.findFlagValue_setStrValue_of_ne]
    exact (Fields.findFlagValue_setFlagValue (n := r.copies + 1) (by omega)).trans
      (toInt32_of_small (by omega))
  have name_ : (r.addFile c name).datafile.findStrValue (.letter 78) = s.name := by
    simp [Reading.addFile, ← shows_.name]
  refine ⟨shows_.closed, name_, ?_, rfl, fun _ => ?_, fun _ => count, fun none_found => ?_,
    Nat.succ_le_succ shows_.bound⟩
  · rw [found]
    rfl
  · simp [Reading.addFile]
  · rw [found] at none_found
    cases none_found

theorem Shows.addName (shows_ : r.Shows s n) {name : Bytes} (given : name ≠ []) :
    (r.addName name).Shows { s with name := some name } (n + 1) := by
  refine ⟨shows_.closed, by simp [Reading.addName, given], shows_.current, ?_, fun some_ => ?_,
    fun some_ => ?_, shows_.fresh, Nat.le_succ_of_le shows_.bound⟩
  · simpa [Reading.addName, Fields.otransfername] using shows_.found
  · simpa [Reading.addName] using shows_.format some_
  · simpa [Reading.addName] using shows_.copies some_

theorem Shows.fileLine (shows_ : r.Shows s n) (small : n + 1 < 2 ^ 31) {c : UInt8} {name : Bytes}
    (given : name ≠ []) : (r.fileLine c name).Shows (s.step (.file c name)) (n + 1) := by
  unfold Reading.fileLine
  rcases found : r.fileFound with - | other
  · have none_read : s.current = none := by rw [shows_.current, found]; rfl
    have added := shows_.addFile small given (c := c)
    rw [shows_.fresh found] at added
    rw [State.step_file_none none_read]
    exact added
  · have read : s.current = some (other, r.lastFormat, r.copies) := by rw [shows_.current, found]; rfl
    by_cases same : other = name ∧ r.lastFormat = c
    · have unchanged : (some other).any (fun found => found ≠ name ∨ r.lastFormat ≠ c) = false := by
        simp [same.1, same.2]
      rw [unchanged, if_neg Bool.false_ne_true]
      have added := shows_.addFile small given (c := c)
      rw [same.1, same.2] at read
      rw [State.step_file_again read]
      exact added
    · have changed : (some other).any (fun found => found ≠ name ∨ r.lastFormat ≠ c) = true := by
        rw [Option.any_some, decide_eq_true_eq]
        exact not_and_or.mp same
      rw [changed, if_pos rfl, State.step_file_next read same]
      obtain ⟨next, -, -⟩ := shows_.nextFile (by rw [found]; exact Option.some_ne_none other)
      exact next.addFile small given

theorem Shows.nameLine (shows_ : r.Shows s n) {name : Bytes} (given : name ≠ []) :
    (r.nameLine name).Shows (s.step (.name name)) (n + 1) := by
  unfold Reading.nameLine
  have read : s.current.isSome = r.fileFound.isSome := by rw [shows_.current, Option.isSome_map]
  rw [← read, shows_.name]
  by_cases both : (s.current.isSome && s.name.isSome) = true
  · rw [if_pos both, State.step, if_pos both]
    rw [Bool.and_eq_true, read] at both
    exact (shows_.nextFile (Option.isSome_iff_ne_none.mp both.1)).1.addName given
  · rw [if_neg both, State.step, if_neg both]
    exact shows_.addName given

theorem Shows.weaken (shows_ : r.Shows s n) : r.Shows s (n + 1) :=
  { shows_ with bound := Nat.le_succ_of_le shows_.bound }

/-- One line is read as the reader of print sequences reads it. -/
theorem Shows.line (shows_ : r.Shows s n) (small : n + 1 < 2 ^ 31) {safe raw : Bytes}
    (proper : Proper (lineOf safe raw)) :
    (r.line safe false raw).Shows (s.step (lineOf safe raw)) (n + 1) := by
  unfold Reading.line
  unfold lineOf at proper ⊢
  generalize cleanMeta safe raw = cleaned at proper ⊢
  rcases cleaned with - | ⟨c, text⟩
  · exact shows_.weaken
  dsimp only at proper ⊢
  by_cases lower : isLower c = true
  · rw [if_pos lower] at proper ⊢
    rw [if_pos lower]
    exact shows_.fileLine small proper
  rw [if_neg lower] at proper ⊢
  rw [if_neg lower]
  by_cases name : c = 78
  · rw [if_pos name] at proper ⊢
    rw [if_pos name]
    exact shows_.nameLine proper
  · rw [if_neg name, if_neg name]
    simp only [Bool.false_eq_true, false_and, if_false]
    split
    · exact shows_.weaken
    · split
      · exact { shows_.weaken with }
      · exact shows_.weaken

theorem Shows.lines (shows_ : r.Shows s n) {safe : Bytes} {lines : List Bytes}
    (small : n + lines.length < 2 ^ 31) (proper : ∀ raw ∈ lines, Proper (lineOf safe raw)) :
    (lines.foldl (Reading.line safe false) r).Shows (s.read (lines.map (lineOf safe)))
      (n + lines.length) := by
  induction lines generalizing r s n with
  | nil => exact shows_
  | cons raw lines ih =>
      obtain ⟨first, rest⟩ := List.forall_mem_cons.mp proper
      rw [List.length_cons] at small
      have added := ih (shows_.line (by omega) first) (by omega) rest
      rw [List.length_cons, Nat.add_comm lines.length 1, ← Nat.add_assoc]
      exact added

theorem shows_start (info : Fields) : (start info).Shows (.start none) 0 :=
  ⟨rfl, rfl, rfl, rfl, absurd rfl, absurd rfl, fun _ => rfl, Nat.le_refl 0⟩

theorem counted_start (routed : Option Bytes) :
    (State.start routed : State Bytes UInt8 Bytes).Counted := ⟨nofun, nofun⟩

/-- The data files listed are printed as they were read. -/
theorem Shows.filePrints (shows_ : r.Shows s n) (counted : s.Counted) :
    filePrints Fields.otransfername r.files = s.prints := by
  have groups : r.files.map (fun file => file.group file.otransfername) = s.groups := by
    unfold Reading.files State.groups State.close
    rw [shows_.current]
    rcases found : r.fileFound with - | name
    · exact shows_.closed
    · rw [Option.isSome_some, if_pos rfl, List.map_append, shows_.closed, List.map_singleton,
        shows_.group_datafile found]
      rfl
  have counts : ∀ file ∈ r.files, (file.group file.otransfername).copies ≠ 0 := fun file member =>
    counted.groups _ (groups ▸ List.mem_map_of_mem member)
  rw [filePrints_eq fun file member => by
      have positive : (file.findFlagValue .copies).toNat ≠ 0 := counts file member
      omega,
    ← State.groups_prints, ← groups]
  refine congrArg (List.flatMap Group.prints) (List.map_congr_left fun file member => ?_)
  exact Group.atLeastOnce_of_counted (counts file member)

end Reading

/-- The data file list made from a text of lines. -/
theorem Ticket.setJobTicketFromCfInfo_prints {safe : Bytes} (config : PriorityConfig) {ticket : Ticket}
    {lines : List Bytes} (plain : ticket.info.findFlagValue .hpformat = 0)
    (whole : ∀ raw ∈ lines, ∀ c ∈ raw, c ∉ lineEnds) (proper : ∀ raw ∈ lines, Proper (lineOf safe raw))
    (small : lines.length < 2 ^ 31) :
    filePrints Fields.otransfername
        (ticket.setJobTicketFromCfInfo safe config (lines.flatMap (· ++ [10]))).datafiles =
      ((State.start none).read (lines.map (lineOf safe))).prints := by
  have parts : pieces lineEnds (lines.flatMap (· ++ [10])) = lines := by
    have both := pieces_flatMap whole (show (10 : UInt8) ∈ lineEnds by decide) []
    rwa [pieces, List.append_nil, List.append_nil] at both
  have split_ : split [] (lines.flatMap (· ++ [10])) lineEnds false [] false false false = lines := by
    unfold split
    rw [parts]
    simp only [Bool.false_eq_true, if_false, Bool.false_and, LineList.addLineList]
    exact (List.foldl_append_eq_append ..).trans (List.flatMap_singleton' lines)
  unfold setJobTicketFromCfInfo setFromCfLines
  rw [split_, plain]
  have shows_ := (Reading.shows_start ticket.info).lines (by omega) proper
  exact shows_.filePrints ((Reading.counted_start none).read _)

end LPRng
