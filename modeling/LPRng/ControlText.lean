import LPRng.CaseKeys
import LPRng.ControlFile
import LPRng.JobNumber

/-!
# Writing a control file

`Fix_control` writes the control file a job is sent with and gives its data files the names they
are sent under; `Generate_control_file` writes one for the filters of a job that was received.
Both write what is printed as a sequence of lines, and read back by `Set_job_ticket_from_cf_info`
it is the same sequence under a condition on the names of neighbours.
-/

namespace LPRng

open PrintSequence

/-- The settings for the control file of a job that is sent. -/
structure ControlConfig where
  nlineAfterFile : Bool
  backwardsCompatible : Bool
  longNumber : Bool
  useShorthost : Bool
  suppressHeader : Bool
  alwaysBanner : Bool
  useQueuename : Bool
  forceQueuename : Option Bytes
  queueName : Option Bytes
  printer : Option Bytes
  controlFileLineOrder : Option Bytes
  defaultPriority : Option Bytes
  fqdnHost : Bytes

namespace Key

abbrev date : Key := letter 68
abbrev queuename : Key := letter 81
abbrev cfOutImage : Key := other (lit "cf_out_image")
abbrev datafileCount : Key := other (lit "datafile_count")
abbrev datafiles : Key := other (lit "datafiles")

end Key

/-! ## The names data files are sent under -/

def groupLetters : Bytes := lit "fghijklmnopqrstuvwxyzabcdeABCDEFGHIJKLMNOPQRSTUVWXYZ"

def offsetLetters : Bytes := lit "ABCDEFGHIJKLMNOPQRSTUVWXYZabcdefghijklmnopqrstuvwxyz"

/-- The name of one more data file, or a fatal error if there are too many. -/
def newTransferName (number suffix : Bytes) (count : Nat) : Option Bytes :=
  if 52 ≤ count / 52 then none
  else some (100 :: groupLetters.getD (count / 52) 0 :: offsetLetters.getD (count % 52) 0 ::
    (number ++ suffix))

/-- The name of a data file before it is sent. -/
def Fields.senderName (lp : Fields) : Option Bytes :=
  (lp.findStrValue .otransfername).or (lp.findStrValue .dftransfername)

/-- A data file that has no `OPENNAME` is opened under the name it was sent under. -/
def Fields.openAs (lp : Fields) (transfername : Option Bytes) : Fields :=
  let lp := lp.setStrValue .ntransfername transfername
  if (lp.findStrValue .openname).filter (· ≠ []) = none then lp.setStrValue .openname transfername
  else lp

/-- The first loop of `Fix_datafile_infox`: equal names are changed to equal names. The result has
the number of different names and the table of their changes besides the data files. -/
def nameDatafiles (number suffix : Bytes) :
    LineList → Nat → List Fields → Option (List Fields × Nat × LineList)
  | outfiles, count, [] => some ([], count, outfiles)
  | outfiles, count, lp :: rest =>
      let transfername := lp.senderName
      let lp := lp.openAs transfername
      match outfiles.findCasekeyStrValue (transfername.getD []) hashValueSep with
      | some s => do
          let (done, last) ← nameDatafiles number suffix outfiles count rest
          return (lp.setStrValue .ntransfername (some s) :: done, last)
      | none => do
          let s ← newTransferName number suffix count
          let outfiles :=
            match transfername with
            | some name => outfiles.setCasekeyStrValue name (some s)
            | none => outfiles
          let (done, last) ← nameDatafiles number suffix outfiles (count + 1) rest
          return (lp.setStrValue .ntransfername (some s) :: done, last)

/-- The format a file is sent with: the first pair that fits is taken. -/
def translateFormat : Bytes → UInt8 → UInt8
  | a :: b :: rest, fmt => if a = fmt ∨ a = 42 then b else translateFormat rest fmt
  | _, fmt => fmt

/-- The lines of one copy of a data file. -/
def copyLines (nlineAfterFile : Bool) (xlateFormat : Bytes) (lp : Fields) : List Bytes :=
  let fmt := translateFormat xlateFormat (((lp.findStrValue .format).getD (lit "f")).headD 0)
  let file := cstr [fmt] ++ (lp.findStrValue .ntransfername).getD []
  let name := (lp.findStrValue (.letter 78)).toList.map (78 :: ·)
  if nlineAfterFile then file :: name else name ++ [file]

def fileLines (nlineAfterFile : Bool) (xlateFormat : Bytes) (lp : Fields) : List Bytes :=
  (List.replicate (timesPrinted (lp.findFlagValue .copies)) (copyLines nlineAfterFile xlateFormat lp)).flatten

/-- The `U` lines, one for each name. -/
def removeLines : LineList → List Fields → List Bytes
  | _, [] => []
  | outfiles, lp :: rest =>
      let transfername := (lp.findStrValue .ntransfername).getD []
      if (outfiles.findCasekeyStrValue transfername hashValueSep).isSome then removeLines outfiles rest
      else (85 :: transfername) ::
        removeLines (outfiles.setCasekeyStrValue transfername (some (lit "YES"))) rest

/-- `Fix_datafile_infox`: the lines for the data files, the data files and their number. -/
def fixDatafileInfox (nlineAfterFile : Bool) (number suffix xlateFormat : Bytes) (updateDfNames : Bool)
    (info : Fields) (datafiles : List Fields) : Option (List Bytes × List Fields × Nat) := do
  let (named, count, _) ← nameDatafiles number suffix [] 0 datafiles
  let lines := (List.replicate (timesPrinted (info.findFlagValue .copies))
    (named.flatMap (fileLines nlineAfterFile xlateFormat))).flatten
  let update := fun lp : Fields =>
    let lp :=
      if updateDfNames then
        (lp.setStrValue .dftransfername (lp.findStrValue .ntransfername)).setStrValue .otransfername none
      else lp
    lp.setStrValue .ntransfername none
  return (lines ++ removeLines [] named, named.map update, count)

/-! ## The lines in front -/

/-- The control file letters, in order. -/
def upperLetters : List UInt8 :=
  [65, 66, 67, 68, 69, 70, 71, 72, 73, 74, 75, 76, 77, 78, 79, 80, 81, 82, 83, 84, 85, 86, 87, 88, 89, 90]

/-- `maxclen`. -/
def maxclen : List (UInt8 × Nat) :=
  [(65, 131), (67, 31), (68, 1024), (72, 31), (73, 31), (74, 99), (76, 31), (78, 131), (77, 131),
   (78, 131), (80, 31), (81, 131), (82, 131), (83, 131), (84, 79), (85, 131), (87, 31), (90, 1024),
   (49, 131), (50, 131), (51, 131), (52, 131)]

/-- The options of a job that go to the control file. A banner that is suppressed does not. -/
def ControlConfig.options (config : ControlConfig) (info : Fields) : Fields
  | .letter c =>
      if isUpper c ∧ c ≠ 78 ∧ c ≠ 85 ∧ ¬(c = 76 ∧ config.suppressHeader ∧ ¬config.alwaysBanner) then
        (info (.letter c)).filter (· ≠ [])
      else none
  | _ => none

/-- `Make_identifier`. -/
def Fields.makeIdentifier (info : Fields) : Fields :=
  if (info.findStrValue .identifier).isSome then info
  else
    let user := (info.findStrValue .logname).getD (lit "nobody")
    let host := ((info.findStrValue .fromhost).getD (lit "unknown")).takeWhile (· ≠ 46)
    info.setStrValue .identifier
      (some (user ++ 64 :: host ++ 43 :: printInt (info.findDecimalValue .number)))

theorem Fields.makeIdentifier_of_ne (info : Fields) {key : Key} (other : key ≠ .identifier) :
    info.makeIdentifier key = info key := by
  unfold makeIdentifier
  split
  · rfl
  · exact setStrValue_of_ne other _

/-- The identifier of a job, or of one copy for a destination. -/
def identifierLine (info : Fields) : Option Fields → Option Bytes
  | none => info.findStrValue .identifier
  | some destination =>
      if 1 < destination.findFlagValue .copies then
        some ((destination.findStrValue .identifier).getD [] ++
          67 :: printInt (toInt32 (destination.findFlagValue .copyDone + 1)))
      else destination.findStrValue .identifier

/-- Options of a destination replace those of the job. -/
def routeOptions (destination : Fields) (options : Fields) : Fields
  | .letter c =>
      match destination (.letter c) with
      | some value => if isUpper c then (some value).filter (· ≠ []) else options (.letter c)
      | none => options (.letter c)
  | key => options key

def ControlConfig.order (config : ControlConfig) : Bytes :=
  match config.controlFileLineOrder with
  | some order => order
  | none => if config.backwardsCompatible then lit "HPJCLIMWT1234" else lit "HPJCLIMWT1234*"

/-- The place of a letter in the order of lines. -/
def orderPlace (order : Bytes) (c : UInt8) : Nat :=
  if order.contains c then order.idxOf c else order.length

/-- The value of an option as it is sent, if it is: an option that is not in the order is dropped,
and a long one is cut. -/
def ControlConfig.optionLine (config : ControlConfig) (c : UInt8) (value : Bytes) : Option Bytes :=
  if config.order.contains c ∨ config.order.contains 42 then
    let len := if config.backwardsCompatible then ((maxclen.lookup c).getD 0) else 0
    some (c :: if len ≠ 0 ∧ len < value.length + 1 then value.take (len - 1) else value)
  else none

/-- The lines of the options, in order. -/
def ControlConfig.optionLines (config : ControlConfig) (options : Fields) : List Bytes :=
  (upperLetters.filterMap fun c => (options (.letter c)).bind (config.optionLine c)).mergeSort
    fun s t => orderPlace config.order (s.headD 0) ≤ orderPlace config.order (t.headD 0)

/-- What `Fix_control` writes in front of the lines for the data files, for the fields it started
with and the fields as it set them. -/
def ControlConfig.header (config : ControlConfig) (timeStr : Bytes) (start info : Fields)
    (destination : Option Fields) : List Bytes :=
  let options := (config.options start).setStrValue .identifier (identifierLine info destination)
  let options :=
    if (options.findStrValue .date).isSome then options else options.setStrValue .date (some timeStr)
  let options :=
    if (config.useQueuename || config.forceQueuename.isSome) &&
        (options.findStrValue .queuename).isNone then
      options.setStrValue .queuename ((config.forceQueuename.or config.queueName).or config.printer)
    else options
  config.optionLines (routeOptions (destination.getD .empty) options)

/-- Lines as a text. -/
def textOf (lines : List Bytes) : Bytes := lines.flatMap (· ++ [10])

/-- `NUMBER`, printed anew. -/
def ControlConfig.setNumber (config : ControlConfig) (info : Fields) : Fields :=
  let n := toInt32 (info.findDecimalValue .number + info.findDecimalValue .sequence)
  info.setStrValue .number (some (JobNumber.fixJobNumber (config.longNumber && !config.backwardsCompatible)
    (if n = 0 then info.findDecimalValue .number else n)))

/-- `FILE_HOSTNAME`, if there is none. -/
def ControlConfig.setFileHostname (config : ControlConfig) (info : Fields) : Fields :=
  if (info.findStrValue .fileHostname).isSome then info
  else info.setStrValue .fileHostname
    (some (((info.findStrValue .fromhost).filter (· ≠ [])).getD config.fqdnHost))

theorem ControlConfig.setFileHostname_of_ne (config : ControlConfig) (info : Fields) {key : Key}
    (other : key ≠ .fileHostname) : config.setFileHostname info key = info key := by
  unfold setFileHostname
  split
  · rfl
  · exact Fields.setStrValue_of_ne other _

/-- The name of the control file. -/
def ControlConfig.setCfTransferName (config : ControlConfig) (destination : Option Fields)
    (info : Fields) : Fields :=
  let priority := (((destination.bind (·.findStrValue .priority)).or
    (info.findStrValue .priority)).or config.defaultPriority).getD (lit "A")
  let host := (info.findStrValue .fileHostname).getD []
  let host := if config.backwardsCompatible || config.useShorthost then host.takeWhile (· ≠ 46) else host
  info.setStrValue .cftransfername
    (some (lit "cf" ++ (priority.take 1 ++ ((info.findStrValue .number).getD [] ++ host))))

/-- The fields of the job as `Fix_control` sets them before it writes. -/
def ControlConfig.fixInfo (config : ControlConfig) (info : Fields) (destination : Option Fields) :
    Fields :=
  (config.setCfTransferName destination (config.setFileHostname (config.setNumber info))).makeIdentifier

/-- `Fix_control` without a filter. The job has a destination list if `destination` is one. -/
def ControlConfig.fixControl (config : ControlConfig) (timeStr : Bytes) (ticket : Ticket)
    (destination : Option Fields) (xlateFormat : Bytes) (updateDfNames : Bool) : Option Ticket := do
  let info := config.fixInfo ticket.info destination
  let (lines, datafiles, count) ← fixDatafileInfox config.nlineAfterFile
    ((info.findStrValue .number).getD []) ((info.findStrValue .fileHostname).getD []) xlateFormat
    updateDfNames info ticket.datafiles
  return { ticket with
    info := (info.setDecimalValue .datafileCount count).setStrValue .cfOutImage
      (some (textOf (config.header timeStr ticket.info info destination ++ lines)))
    datafiles := datafiles }

/-! ## The control file for the filters -/

/-- The name `Generate_control_file` has for a data file. -/
def Fields.generatedName (lp : Fields) : Option Bytes :=
  (lp.findStrValue .dftransfername).or (lp.findStrValue .openname)

/-- The lines `Generate_control_file` writes for the options. -/
def generatedOptions (info : Fields) : List Bytes :=
  upperLetters.filterMap fun c =>
    if c ≠ 78 ∧ c ≠ 85 then (info (.letter c)).map (c :: ·) else none

/-- The lines for one data file: the name once, and the file for every copy. -/
def generatedLines (lp : Fields) : List Bytes :=
  (lp.findStrValue (.letter 78)).toList.map (78 :: ·) ++
    List.replicate (lp.findFlagValue .copies).toNat
      ((lp.findStrValue .format).getD [] ++ lp.generatedName.getD [])

/-- `Generate_control_file`. -/
def Ticket.generateControlFile (ticket : Ticket) : Ticket :=
  let removes := ticket.datafiles.map fun lp => 85 :: (lp.findStrValue .dftransfername).getD []
  let datafiles := ticket.datafiles.flatMap fun lp =>
    (lp.findStrValue .dftransfername).getD [] ++
      (match lp.findStrValue .openname with
      | some openname => 61 :: openname
      | none => []) ++ [32]
  { ticket with
    info := (ticket.info.setStrValue .datafiles (some datafiles)).setStrValue .cfOutImage
      (some (textOf (generatedOptions ticket.info ++ ticket.datafiles.flatMap generatedLines ++ removes))) }

end LPRng
