import LPRng.Bytes
import Mathlib.Logic.Function.Basic

/-!
# Keyed lists and jobs

A job ticket, the list of one destination of a job and the control file of a queue
are all keyed lists: lines `key=value` with at most one line for a key. `Fields` is
such a list seen through its keys. The routines `Find_str_value`, `Set_str_value`,
`Find_flag_value`, `Set_flag_value` and their relatives keep their source names; every
later module reads and writes fields through them and the lemmas stated here.

The fields `DESTk`, which hold the escaped list of one destination each, are kept apart
from the other fields of a job as the lists they stand for.
-/

namespace LPRng

/-- The keys of job tickets, destination lists, data file lists and control files.
`letter c` is a control file option; `other` stands for every key no routine names. -/
inductive Key where
  | letter (c : UInt8)
  | attempt | cftransfername | copies | copyDone | dest | destination | destinations | doneTime
  | error | errorTime | fileHostname | filenames | formatError | held | hfName
  | holdClass | holdTime | hpformat | incomingPid | incomingTime | jobTime
  | jobTimeUsec | move | moveCount | moveDest | newDest | number | openname | printable
  | priority | priorityTime | prstatus | remotehost | removeTime | sequence | server | size
  | startTime | updateTime
  | format | otransfername | dftransfername | ntransfername
  | change | debug | forwarding | holdAll | msg | printer | printingAborted
  | printingDisabled | queueControlFile | serverOrder | spooldir | spoolingDisabled
  | other (name : Bytes)
  deriving DecidableEq, Repr

namespace Key

/-- `IDENTIFIER`, `"A"`. -/
abbrev identifier : Key := letter 65
/-- `CLASS`, `"C"`. -/
abbrev cls : Key := letter 67
/-- `FROMHOST`, `"H"`. -/
abbrev fromhost : Key := letter 72
/-- `LOGNAME`, `"P"`. -/
abbrev logname : Key := letter 80

end Key

/-- A keyed list, as the values found under its keys. -/
abbrev Fields := Key → Option Bytes

/-- The value of a number: what `strtol` reads with base ten, or else as of a flag. -/
def decimalOfText (s : Bytes) : Int :=
  if (strtol 10 s).2 = [] then toInt32 (strtol 10 s).1 else flagOfText s

namespace Fields

/-- A list without lines. -/
def empty : Fields := fun _ => none

abbrev findStrValue (l : Fields) (key : Key) : Option Bytes := l key

/-- An empty value removes the line. -/
def setStrValue (l : Fields) (key : Key) (value : Option Bytes) : Fields :=
  Function.update l key (value.filter (· ≠ []))

/-- A missing line has the value 0. -/
def findFlagValue (l : Fields) (key : Key) : Int :=
  match l key with
  | none => 0
  | some text => flagOfText text

def findDecimalValue (l : Fields) (key : Key) : Int :=
  match l.findStrValue key with
  | none => 0
  | some text => decimalOfText text

def setFlagValue (l : Fields) (key : Key) (value : Int) : Fields :=
  Function.update l key (some (printHex value))

def setDecimalValue (l : Fields) (key : Key) (value : Int) : Fields :=
  Function.update l key (some (printInt value))

/-- Sets the flag only where it is 0 so far. -/
def setNzFlagValue (l : Fields) (key : Key) (value : Int) : Fields :=
  if l.findFlagValue key = 0 then l.setFlagValue key value else l

/-- `Merge_line_list` with sort and uniq set: the lines of `src` replace those of `dest`. -/
def mergeLineList (dest src : Fields) : Fields := fun key => (src key).or (dest key)

/-! ## What a write leaves under every key -/

variable (l : Fields) (key other : Key)

@[simp] theorem empty_apply : empty key = none := rfl

@[simp] theorem setStrValue_self (value : Option Bytes) :
    l.setStrValue key value key = value.filter (· ≠ []) := Function.update_self ..

@[simp] theorem setFlagValue_self (value : Int) :
    l.setFlagValue key value key = some (printHex value) := Function.update_self ..

@[simp] theorem setDecimalValue_self (value : Int) :
    l.setDecimalValue key value key = some (printInt value) := Function.update_self ..

variable {l key other}

@[simp] theorem setStrValue_of_ne (different : other ≠ key) (value : Option Bytes) :
    l.setStrValue key value other = l other := Function.update_of_ne different ..

@[simp] theorem setFlagValue_of_ne (different : other ≠ key) (value : Int) :
    l.setFlagValue key value other = l other := Function.update_of_ne different ..

@[simp] theorem setDecimalValue_of_ne (different : other ≠ key) (value : Int) :
    l.setDecimalValue key value other = l other := Function.update_of_ne different ..

@[simp] theorem setNzFlagValue_of_ne (different : other ≠ key) (value : Int) :
    l.setNzFlagValue key value other = l other := by
  rw [setNzFlagValue]
  split
  · exact setFlagValue_of_ne different value
  · rfl

theorem findFlagValue_congr {l₁ l₂ : Fields} (same : l₁ key = l₂ key) :
    l₁.findFlagValue key = l₂.findFlagValue key := by
  rw [findFlagValue, findFlagValue, same]

@[simp] theorem findFlagValue_setStrValue_of_ne (different : other ≠ key)
    (value : Option Bytes) :
    (l.setStrValue key value).findFlagValue other = l.findFlagValue other :=
  findFlagValue_congr (setStrValue_of_ne different value)

@[simp] theorem findFlagValue_setFlagValue_of_ne (different : other ≠ key) (value : Int) :
    (l.setFlagValue key value).findFlagValue other = l.findFlagValue other :=
  findFlagValue_congr (setFlagValue_of_ne different value)

@[simp] theorem findFlagValue_setDecimalValue_of_ne (different : other ≠ key) (value : Int) :
    (l.setDecimalValue key value).findFlagValue other = l.findFlagValue other :=
  findFlagValue_congr (setDecimalValue_of_ne different value)

/-- Writing a value that stands there already changes nothing. -/
theorem setStrValue_eq_self {value : Option Bytes}
    (present : l key = value.filter (· ≠ [])) : l.setStrValue key value = l :=
  Function.update_eq_self_iff.mpr present.symm

theorem setFlagValue_eq_self_iff {value : Int} :
    l.setFlagValue key value = l ↔ l key = some (printHex value) :=
  Function.update_eq_self_iff.trans eq_comm

theorem setDecimalValue_eq_self_iff {value : Int} :
    l.setDecimalValue key value = l ↔ l key = some (printInt value) :=
  Function.update_eq_self_iff.trans eq_comm

end Fields

/-! ## The clock and process numbers -/

/-- A value of `time(0)`: a `long` that keeps a nonzero low word, so that a time flag
read back as an `int` still counts as set. -/
structure Time where
  val : Nat
  fits : val < 2 ^ 63
  marks : val % 2 ^ 32 ≠ 0

/-- A process number, which fits an `int`. -/
structure Pid where
  val : Nat
  fits : val < 2 ^ 31
  positive : 0 < val
  deriving DecidableEq

theorem Time.toInt32_ne_zero (now : Time) : toInt32 now.val ≠ 0 := by
  intro zero
  have multiple : ((2 ^ 32 : Nat) : Int) ∣ (now.val : Int) :=
    Int.dvd_of_bmod_eq_zero zero
  exact now.marks (Nat.mod_eq_zero_of_dvd (Int.natCast_dvd_natCast.mp multiple))

namespace Fields

variable {l : Fields} {key : Key}

/-- A flag set to a `long` is read back as its `int`. -/
theorem findFlagValue_setFlagValue {n : Nat} (fits : n < 2 ^ 63) :
    (l.setFlagValue key n).findFlagValue key = toInt32 n := by
  rw [findFlagValue, setFlagValue_self]
  exact flagOfText_printHex fits

@[simp] theorem findFlagValue_setFlagValue_zero :
    (l.setFlagValue key 0).findFlagValue key = 0 := by
  rw [findFlagValue, setFlagValue_self]
  decide

@[simp] theorem findFlagValue_setDecimalValue_zero :
    (l.setDecimalValue key 0).findFlagValue key = 0 := by
  rw [findFlagValue, setDecimalValue_self]
  decide

theorem findFlagValue_setDecimalValue {n : Nat} (fits : n < 2 ^ 31) :
    (l.setDecimalValue key n).findFlagValue key = n := by
  rw [findFlagValue, setDecimalValue_self]
  change flagOfText (printInt n) = n
  rw [printInt_natCast, flagOfText_printNat (by omega), toInt32_of_small fits]

theorem findFlagValue_setDecimalValue_pid (pid : Pid) :
    (l.setDecimalValue key pid.val).findFlagValue key ≠ 0 := by
  rw [findFlagValue_setDecimalValue pid.fits]
  exact Int.natCast_ne_zero.mpr (Nat.pos_iff_ne_zero.mp pid.positive)

theorem findFlagValue_setFlagValue_time (now : Time) :
    (l.setFlagValue key now.val).findFlagValue key ≠ 0 := by
  rw [findFlagValue_setFlagValue now.fits]
  exact now.toInt32_ne_zero

theorem findFlagValue_setNzFlagValue_time (now : Time) :
    (l.setNzFlagValue key now.val).findFlagValue key ≠ 0 := by
  rw [setNzFlagValue]
  split
  · exact findFlagValue_setFlagValue_time now
  · assumption

end Fields

/-! ## Jobs and tickets -/

/-- A job ticket: the fields of the job, its destination lists under the names of
their `DESTk` fields, and its data files in order. -/
structure Ticket where
  info : Fields
  dests : Bytes → Option Fields
  datafiles : List Fields

/-- A job in memory: its ticket and the destination list unpacked last. -/
structure Job extends Ticket where
  destination : Fields

/-- The job as `Get_job_ticket_file` leaves it after `Free_job`. -/
def Ticket.toJob (ticket : Ticket) : Job := { ticket with destination := .empty }

/-- The field name `DEST%d`. -/
def destName (id : Int) : Bytes := lit "DEST" ++ printInt id

theorem destName_injective {i j : Nat} (same : destName i = destName j) : i = j := by
  have texts : printNat 10 i = printNat 10 j := by
    rw [← printInt_natCast, ← printInt_natCast]
    exact List.append_cancel_left same
  have read := fun n => scanNat_printNat (b := 10) (by decide) (by decide) n (stopsDigits_nil 10)
  have left := read i
  rw [texts, read j] at left
  exact (Prod.ext_iff.mp left).1.symm

namespace Job

/-- `Update_destination`: the destination list goes back to the field that its own
`DESTINATION` flag names. -/
def updateDestination (job : Job) : Job :=
  { job with
    dests := Function.update job.dests
      (destName (job.destination.findFlagValue .destination)) (some job.destination) }

/-- `Get_destination`; the second component is false where there is no such field. -/
def getDestination (job : Job) (n : Int) : Job × Bool :=
  match job.dests (destName n) with
  | some list => ({ job with destination := list }, true)
  | none => ({ job with destination := .empty }, false)

/-- `Get_destination_by_name`. -/
def getDestinationByName (job : Job) (name : Option Bytes) : Job × Bool :=
  match name.bind job.dests with
  | some list => ({ job with destination := list }, true)
  | none => ({ job with destination := .empty }, false)

/-- A write to one field of the job. -/
def setInfo (job : Job) (change : Fields → Fields) : Job :=
  { job with info := change job.info }

/-- A write to one field of the unpacked destination list. -/
def setDestination (job : Job) (change : Fields → Fields) : Job :=
  { job with destination := change job.destination }

variable (job : Job) (change : Fields → Fields)

@[simp] theorem setInfo_info : (job.setInfo change).info = change job.info := rfl
@[simp] theorem setInfo_dests : (job.setInfo change).dests = job.dests := rfl
@[simp] theorem setInfo_datafiles : (job.setInfo change).datafiles = job.datafiles := rfl
@[simp] theorem setInfo_destination : (job.setInfo change).destination = job.destination := rfl
@[simp] theorem setDestination_info : (job.setDestination change).info = job.info := rfl
@[simp] theorem setDestination_dests : (job.setDestination change).dests = job.dests := rfl
@[simp] theorem setDestination_datafiles :
    (job.setDestination change).datafiles = job.datafiles := rfl
@[simp] theorem setDestination_destination :
    (job.setDestination change).destination = change job.destination := rfl
@[simp] theorem updateDestination_info : job.updateDestination.info = job.info := rfl
@[simp] theorem updateDestination_datafiles :
    job.updateDestination.datafiles = job.datafiles := rfl
@[simp] theorem updateDestination_destination :
    job.updateDestination.destination = job.destination := rfl

@[simp] theorem getDestination_info (n : Int) : (job.getDestination n).1.info = job.info := by
  rw [getDestination]
  split <;> rfl

@[simp] theorem getDestination_dests (n : Int) : (job.getDestination n).1.dests = job.dests := by
  rw [getDestination]
  split <;> rfl

@[simp] theorem getDestinationByName_dests (name : Option Bytes) :
    (job.getDestinationByName name).1.dests = job.dests := by
  rw [getDestinationByName]
  split <;> rfl

end Job

end LPRng
