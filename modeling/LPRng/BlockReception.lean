import LPRng.BlockFraming
import LPRng.CaseKeys
import LPRng.TransferName

/-!
# Receiving a block of jobs

`Scan_block_file` takes the control files and the data files out of a stream and makes jobs of
them: a control file that finds data files is the last file of its job, else it waits for them, up
to the next control file or the end of the stream. `Receive_block_job` answers the sender with
what comes out.
-/

namespace LPRng

namespace BlockReception

/-! ## One job -/

/-- What the checks of a job come to besides its files: the job is stored, it is refused with a
text, or the control filter removes it without one. -/
inductive Verdict where
  | stored | refused | removed
  deriving DecidableEq

/-- The names of the data files that a control file has, in its order. -/
def controlNames (safe : Bytes) (hpformat : Bool) (content : Bytes) : List Bytes :=
  ((split [] content lineEnds false [] false false false).foldl (Reading.line safe hpformat)
    (.start .empty)).files.filterMap (·.findStrValue .otransfername)

/-- A table of names, as `Set_casekey_str_value` makes it. -/
def casekeyTable (names : List Bytes) (opened : List Bytes) : LineList :=
  (names.zip opened).foldl (fun table pair => table.setCasekeyStrValue pair.1 (some pair.2)) []

/-- The names of the files that the data files of a job are in, if each one arrived and there
are no others. A job that names no files has all of them. -/
def matchFiles (files : LineList) (names : List Bytes) : Option (List Bytes) :=
  let names := if names = [] then files.map (keyOf hashValueSep) else names
  match names.mapM (files.findCasekeyStrValue · hashValueSep) with
  | none => none
  | some opened => if files.length = (casekeyTable names opened).length then some opened else none

/-- `Check_for_missing_files`, where `admits` stands for everything but the names of the files. -/
def checkForMissingFiles (admits : Verdict) (files : LineList) (names : List Bytes) : Verdict :=
  match matchFiles files names with
  | none => .refused
  | some _ => admits

/-! ## The files of a stream -/

/-- The limits on the size of a job, in kilobytes. -/
structure Limits where
  maxJobSize : Int
  discardLargeJobs : Bool

/-- How it goes with one job: what the checks come to, and whether its ticket is written when it
is too large. -/
structure Ending where
  admits : Verdict
  writes : Bool

/-- How it goes with one file: whether it is copied, and for a control file the job it ends, its own
ticket, and its own job where that ends at once. -/
structure Turn where
  copied : Bool
  ends : Ending
  setUp : Bool
  completes : Ending

/-- The variables of `Scan_block_file`. A job is there from its control file on, with the names of its
data files. The files waiting are those that belong to no stored job. -/
structure ScanState where
  job : Option (List Bytes)
  files : LineList
  jobsize : Int
  discarding : Bool
  error : Bool
  waiting : List Scanned

def ScanState.start : ScanState := ⟨none, [], 0, false, false, []⟩

/-- The end of a loop or a function: the status, whether there is a text, and the files of no
stored job. -/
structure Stop where
  status : Bool
  error : Bool
  waiting : List Scanned

/-- What a receiver has besides the stream. The temporary files are numbered. -/
structure Receiver where
  safe : Bytes
  longNumber : Bool
  garbled : Bytes
  limits : Limits
  temp : Nat → Bytes
  turn : Nat → Turn
  last : Ending

section

variable (receiver : Receiver)

/-- The size of one more file. -/
def addSize (σ : ScanState) (len : Int) : ScanState :=
  let jobsize := σ.jobsize + len
  if 0 < receiver.limits.maxJobSize ∧ receiver.limits.maxJobSize * 1024 < jobsize ∧ receiver.limits.discardLargeJobs then
    { σ with jobsize := jobsize, discarding := true, error := true }
  else { σ with jobsize := jobsize }

/-- The end of a job: its ticket is written with an error if it is too large, else it is checked. The status
of the loop is nonzero before. -/
def endJob (ending : Ending) (σ : ScanState) (names : List Bytes) : Except Stop ScanState :=
  if σ.discarding then
    if ending.writes then .ok { σ with job := none, files := [], jobsize := 0, error := false, waiting := [] }
    else .error ⟨true, true, σ.waiting⟩
  else
    match checkForMissingFiles ending.admits σ.files names with
    | .stored => .ok { σ with job := none, files := [], jobsize := 0, waiting := [] }
    | .refused => .error ⟨true, true, σ.waiting⟩
    | .removed => .error ⟨true, σ.error, σ.waiting⟩

/-- The names in the control file of a new job. Nothing is read of one that is discarded. -/
def newNames (σ : ScanState) (name content : Bytes) : List Bytes :=
  if σ.discarding then []
  else
    let hpformat := (TransferName.checkFormat receiver.longNumber receiver.garbled .controlFile name .empty).1.findFlagValue .hpformat
    controlNames receiver.safe (hpformat ≠ 0) content

/-- The job of a new control file. -/
def newJob (turn : Turn) (status : Bool) (σ : ScanState) (name content : Bytes) : Except Stop ScanState :=
  if turn.setUp then
    if σ.files = [] then .ok { σ with job := some (newNames receiver σ name content) }
    else endJob turn.completes σ (newNames receiver σ name content)
  else .error ⟨status, true, σ.waiting⟩

/-- A control file. Behind a job that was ended as too large the status is 0. -/
def controlFile (turn : Turn) (σ : ScanState) (file : Scanned) (name content : Bytes) : Except Stop ScanState :=
  match σ.job with
  | none => newJob receiver turn true { σ with waiting := σ.waiting ++ [file] } name content
  | some names => (endJob turn.ends σ names).bind fun σ =>
      newJob receiver turn (!σ.discarding) { σ with waiting := σ.waiting ++ [file] } name content

/-- A data file. One that is discarded takes its name out of the table. -/
def dataFile (n : Nat) (σ : ScanState) (file : Scanned) (name : Bytes) : ScanState :=
  { σ with
    files := σ.files.setStrValue name (if σ.discarding then none else some (receiver.temp n))
    waiting := σ.waiting ++ [file] }

/-- One file of the stream. -/
def takeFile (n : Nat) (σ : ScanState) (type : FileType) (name : Bytes) (len : Int) (content : Bytes) :
    Except Stop ScanState :=
  let σ := addSize receiver σ len
  let file := Scanned.file type name len content
  if (receiver.turn n).copied then
    match type with
    | .control => controlFile receiver (receiver.turn n) σ file name content
    | .data => .ok (dataFile receiver n σ file name)
  else .error ⟨true, true, σ.waiting ++ [file]⟩

/-- The loop of `Scan_block_file` over the parts of a stream. -/
def takeFiles : List Scanned → ScanState → Except Stop ScanState
  | [], σ => .ok σ
  | .skipped _ :: parts, σ => takeFiles parts σ
  | .file type name len content :: parts, σ =>
      (takeFile receiver parts.length σ type name len content).bind (takeFiles parts)

/-- What is done at the end of the stream, where the status is 0. There is no end where the ticket of a
job without a control file is to be written, which is fatal. -/
def endStream (σ : ScanState) : Option Stop :=
  if σ.files = [] then some ⟨false, σ.error, σ.waiting⟩
  else if σ.discarding then
    if σ.job = none then none
    else if receiver.last.writes then some ⟨false, false, []⟩
    else some ⟨true, true, σ.waiting⟩
  else
    match checkForMissingFiles receiver.last.admits σ.files (σ.job.getD []) with
    | .stored => if σ.job = none then none else some ⟨false, σ.error, []⟩
    | .refused => some ⟨false, true, σ.waiting⟩
    | .removed => some ⟨false, σ.error, σ.waiting⟩

/-- `Scan_block_file`. -/
def scanBlockFile (stream : Bytes) : Option Stop :=
  let (parts, ends) := scan receiver.safe stream
  match takeFiles receiver parts .start with
  | .error stop => some stop
  | .ok σ =>
      match ends with
      | .eof _ => endStream receiver σ
      | .badLength _ | .shortRead => some ⟨true, true, σ.waiting⟩

/-- What the sender gets after a stream, and the files that belong to no stored job. -/
structure Received where
  status : Bool
  answer : Option UInt8
  waiting : List Scanned

/-- `Receive_block_job` from the answer on that the stream may be sent, where a transfer that fails gives
no stream. Without a text there is no answer but the end of the connection. -/
def receiveBlockJob (stream : Option Bytes) : Option Received :=
  match stream with
  | none => some ⟨true, some 3, []⟩
  | some stream => (scanBlockFile receiver stream).map fun stop =>
      if stop.status then ⟨true, if stop.error then some 3 else none, stop.waiting⟩
      else ⟨false, some 0, stop.waiting⟩

end

/-! ## What is expected -/

section

variable (receiver : Receiver)

/-- All files that are announced belong to jobs that were stored, or the sender gets to know that they do
not: the status is nonzero, and so is the answer. -/
def Reports (stream : Option Bytes) : Prop :=
  ∃ received, receiveBlockJob receiver stream = some received ∧
    (received.waiting = [] ∨ received.status = true ∧ ∃ ack ≠ 0, received.answer = some ack)

/-- A control file that loses nothing: no job is removed at it without a text, and behind a job that was
ended as too large it gets its own ticket. -/
structure TurnSettled (turn : Turn) (σ : ScanState) (name content : Bytes) : Prop where
  ends : ∀ names, σ.job = some names → σ.discarding = false →
    checkForMissingFiles turn.ends.admits σ.files names ≠ .removed
  follows : σ.job ≠ none → σ.discarding = true → turn.ends.writes = true → turn.setUp = true
  completes : σ.job = none → σ.discarding = false → turn.setUp = true → σ.files ≠ [] →
    checkForMissingFiles turn.completes.admits σ.files (newNames receiver σ name content) ≠ .removed

/-- A file that loses nothing. -/
def FileSettled (n : Nat) (σ : ScanState) (type : FileType) (len : Int) (name content : Bytes) : Prop :=
  type = .control → (receiver.turn n).copied = true →
    TurnSettled receiver (receiver.turn n) (addSize receiver σ len) name content

/-- An end of the stream that loses nothing: no control file waits and the last file was no data file, or a
control file and data files wait, and the job is too large or passes its checks. -/
def EndSettled (last : Option FileType) (σ : ScanState) : Prop :=
  σ.job = none ∧ last ≠ some .data ∨
    σ.job ≠ none ∧ σ.files ≠ [] ∧
      (σ.discarding = true ∨ checkForMissingFiles receiver.last.admits σ.files (σ.job.getD []) = .stored)

/-- A stream of which no turn that is reached loses something, nor its end if that is reached. -/
def Settled (ends : ScanEnd) : List Scanned → Option FileType → ScanState → Prop
  | [], last, σ => (∃ left, ends = .eof left) → EndSettled receiver last σ
  | .skipped _ :: parts, last, σ => Settled ends parts last σ
  | .file type name len content :: parts, _, σ =>
      FileSettled receiver parts.length σ type len name content ∧
        ∀ σ', takeFile receiver parts.length σ type name len content = .ok σ' → Settled ends parts (some type) σ'

end

/-! ## One turn -/

variable {receiver : Receiver} {σ σ' : ScanState} {last : Option FileType} {names : List Bytes} {ending : Ending}
  {turn : Turn} {file : Scanned} {name content : Bytes} {stop : Stop} {n : Nat} {type : FileType} {len : Int}

/-- What the variables of the loop have to do with each other. -/
structure Consistent (last : Option FileType) (σ : ScanState) : Prop where
  waiting : σ.waiting = [] ↔ σ.job = none ∧ last ≠ some .data
  files : σ.files ≠ [] → σ.job = none → last = some .data
  error : σ.error = true → σ.discarding = true

theorem consistent_start : Consistent none .start where
  waiting := ⟨fun _ => ⟨rfl, nofun⟩, fun _ => rfl⟩
  files some_ := absurd rfl some_
  error := nofun

theorem Consistent.addSize (consistent : Consistent last σ) (receiver : Receiver) (len : Int) :
    Consistent last (addSize receiver σ len) := by
  unfold BlockReception.addSize
  dsimp only
  split
  · exact ⟨consistent.waiting, consistent.files, fun _ => rfl⟩
  · exact ⟨consistent.waiting, consistent.files, consistent.error⟩

/-- What is known at a stop: the sender gets to know of it. -/
def Stop.reports (stop : Stop) : Prop := stop.waiting = [] ∨ stop.status = true ∧ stop.error = true

/-- A job that is ended is gone with its files, and there is no text. -/
structure Ended (σ σ' : ScanState) : Prop where
  job : σ'.job = none
  files : σ'.files = []
  discarding : σ'.discarding = σ.discarding
  error : σ'.error = false
  waiting : σ'.waiting = []

theorem endJob_ok (consistent : σ.error = true → σ.discarding = true) (ended : endJob ending σ names = .ok σ') :
    Ended σ σ' ∧ (σ.discarding = true → ending.writes = true) ∧
      (σ.discarding = false → checkForMissingFiles ending.admits σ.files names ≠ .removed) := by
  unfold endJob at ended
  cases large : σ.discarding with
  | true =>
      rw [large, if_pos rfl] at ended
      split at ended
      next writes =>
          cases ended
          exact ⟨⟨rfl, rfl, large.symm, rfl, rfl⟩, fun _ => writes, nofun⟩
      next => cases ended
  | false =>
      rw [large, if_neg Bool.false_ne_true] at ended
      split at ended
      next stored =>
          cases ended
          refine ⟨⟨rfl, rfl, large.symm, ?_, rfl⟩, nofun, fun _ removed => ?_⟩
          · cases text : σ.error with
            | false => rfl
            | true => cases large.symm.trans (consistent text)
          · cases stored.symm.trans removed
      next => cases ended
      next => cases ended

/-- A job that is not ended is reported unless it is removed without a text. -/
theorem endJob_error (consistent : σ.error = true → σ.discarding = true) (waits : σ.waiting ≠ [])
    (failed : endJob ending σ names = .error stop) :
    (stop.reports ↔ (σ.discarding = false → checkForMissingFiles ending.admits σ.files names ≠ .removed)) ∧
      (σ.discarding = true → ending.writes = false) := by
  unfold endJob at failed
  cases large : σ.discarding with
  | true =>
      rw [large, if_pos rfl] at failed
      split at failed
      next => cases failed
      next writes =>
          cases failed
          exact ⟨⟨fun _ => nofun, fun _ => .inr ⟨rfl, rfl⟩⟩, fun _ => Bool.eq_false_iff.mpr writes⟩
  | false =>
      rw [large, if_neg Bool.false_ne_true] at failed
      split at failed
      next => cases failed
      next refused =>
          cases failed
          refine ⟨⟨fun _ _ removed => ?_, fun _ => .inr ⟨rfl, rfl⟩⟩, nofun⟩
          cases refused.symm.trans removed
      next removed =>
          cases failed
          refine ⟨⟨fun reported => ?_, fun settled => absurd removed (settled rfl)⟩, nofun⟩
          rcases reported with none | ⟨-, text⟩
          · exact absurd none waits
          · cases large.symm.trans (consistent text)

/-- What is left to say of the job of a new control file. -/
theorem newJob_ok {status : Bool} (consistent : σ.error = true → σ.discarding = true) (waits : σ.waiting ≠ [])
    (started : newJob receiver turn status σ name content = .ok σ') :
    Consistent (some .control) σ' ∧ turn.setUp = true ∧ (σ.discarding = false → σ.files ≠ [] →
      checkForMissingFiles turn.completes.admits σ.files (newNames receiver σ name content) ≠ .removed) := by
  unfold newJob at started
  split at started
  next set_ =>
      split at started
      next none =>
          cases started
          refine ⟨⟨⟨fun done => absurd done waits, fun both => ?_⟩, fun _ => nofun, consistent⟩, set_, fun _ some_ => absurd none some_⟩
          cases both.1
      next =>
          rcases endJob_ok consistent started with ⟨ended, -, settled⟩
          refine ⟨⟨⟨fun _ => ⟨ended.job, nofun⟩, fun _ => ended.waiting⟩, fun some_ => absurd ended.files some_, fun text => ?_⟩,
            set_, fun small _ => settled small⟩
          cases ended.error.symm.trans text
  next => cases started

theorem newJob_error {status : Bool} (consistent : σ.error = true → σ.discarding = true) (waits : σ.waiting ≠ [])
    (failed : newJob receiver turn status σ name content = .error stop) :
    stop.reports ↔ (turn.setUp = false → status = true) ∧ (turn.setUp = true → σ.discarding = false → σ.files ≠ [] →
      checkForMissingFiles turn.completes.admits σ.files (newNames receiver σ name content) ≠ .removed) := by
  unfold newJob at failed
  split at failed
  next set_ =>
      split at failed
      next => cases failed
      next some_ =>
          rw [(endJob_error consistent waits failed).1, set_]
          exact ⟨fun settled => ⟨nofun, fun _ small _ => settled small⟩, fun both small => both.2 rfl small some_⟩
  next unset =>
      cases failed
      rw [Bool.not_eq_true] at unset
      rw [unset]
      constructor
      · intro reported
        rcases reported with none | ⟨nonzero, -⟩
        · exact absurd none waits
        · exact ⟨fun _ => nonzero, nofun⟩
      · exact fun both => .inr ⟨both.1 rfl, rfl⟩

theorem controlFile_ok (consistent : Consistent last σ)
    (done : controlFile receiver turn σ file name content = .ok σ') :
    Consistent (some .control) σ' ∧ TurnSettled receiver turn σ name content := by
  have snoc (waiting : List Scanned) : waiting ++ [file] ≠ [] := List.append_ne_nil_of_right_ne_nil _ (List.cons_ne_nil _ _)
  unfold controlFile at done
  split at done
  next idle =>
      rcases newJob_ok (σ := { σ with waiting := σ.waiting ++ [file] }) consistent.error (snoc _) done with
        ⟨after, -, settled⟩
      refine ⟨after, ?_, ?_, ?_⟩
      · intro names pending
        cases idle.symm.trans pending
      · exact fun pending => absurd idle pending
      · exact fun _ small _ => settled small
  next names pending =>
      cases ended : endJob turn.ends σ names with
      | error stop =>
          rw [ended] at done
          cases done
      | ok middle =>
          rw [ended] at done
          rcases endJob_ok consistent.error ended with ⟨gone, -, settled⟩
          have silent : middle.error = true → middle.discarding = true := fun text => nomatch gone.error.symm.trans text
          rcases newJob_ok (σ := { middle with waiting := middle.waiting ++ [file] }) silent (snoc _) done with ⟨after, set_, -⟩
          refine ⟨after, ?_, ?_, ?_⟩
          · intro others same small
            cases pending.symm.trans same
            exact settled small
          · exact fun _ _ _ => set_
          · exact fun idle => nomatch pending.symm.trans idle

theorem controlFile_error (consistent : Consistent last σ)
    (failed : controlFile receiver turn σ file name content = .error stop) :
    stop.reports ↔ TurnSettled receiver turn σ name content := by
  have snoc (waiting : List Scanned) : waiting ++ [file] ≠ [] := List.append_ne_nil_of_right_ne_nil _ (List.cons_ne_nil _ _)
  unfold controlFile at failed
  split at failed
  next idle =>
      rw [newJob_error (σ := { σ with waiting := σ.waiting ++ [file] }) consistent.error (snoc _) failed]
      constructor
      · intro both
        refine ⟨?_, fun pending => absurd idle pending, fun _ small set_ => both.2 set_ small⟩
        intro names pending
        cases idle.symm.trans pending
      · exact fun settled => ⟨fun _ => rfl, fun set_ small => settled.completes idle small set_⟩
  next names pending =>
      have waits : σ.waiting ≠ [] := by
        intro none
        cases pending.symm.trans (consistent.waiting.mp none).1
      cases ended : endJob turn.ends σ names with
      | error other =>
          rw [ended] at failed
          cases failed
          rcases endJob_error consistent.error waits ended with ⟨reported, unwritten⟩
          rw [reported]
          constructor
          · intro settled
            refine ⟨?_, ?_, fun idle => nomatch pending.symm.trans idle⟩
            · intro others same small
              cases pending.symm.trans same
              exact settled small
            · exact fun _ large writes => nomatch (unwritten large).symm.trans writes
          · exact fun settled => settled.ends names pending
      | ok middle =>
          rw [ended] at failed
          rcases endJob_ok consistent.error ended with ⟨gone, wrote, settled⟩
          have silent : middle.error = true → middle.discarding = true := fun text => nomatch gone.error.symm.trans text
          rw [newJob_error (σ := { middle with waiting := middle.waiting ++ [file] }) silent (snoc _) failed]
          constructor
          · intro both
            refine ⟨?_, ?_, fun idle => nomatch pending.symm.trans idle⟩
            · intro others same small
              cases pending.symm.trans same
              exact settled small
            · intro _ large _
              by_contra unset
              have status := both.1 (Bool.eq_false_iff.mpr unset)
              rw [gone.discarding, large] at status
              cases status
          · intro turnSettled
            refine ⟨fun unset => ?_, fun _ _ some_ => absurd gone.files some_⟩
            rw [gone.discarding, Bool.not_eq_true']
            by_contra large
            rw [Bool.not_eq_false] at large
            have pending' : σ.job ≠ none := fun idle => nomatch pending.symm.trans idle
            cases unset.symm.trans (turnSettled.follows pending' large (wrote large))

theorem dataFile_consistent (consistent : Consistent last σ) (n : Nat) (file : Scanned) (name : Bytes) :
    Consistent (some .data) (dataFile receiver n σ file name) where
  waiting := by
    constructor
    · exact fun none => absurd none (List.append_ne_nil_of_right_ne_nil _ (List.cons_ne_nil _ _))
    · exact fun both => absurd rfl both.2
  files _ _ := rfl
  error := consistent.error

theorem takeFile_ok (consistent : Consistent last σ) (done : takeFile receiver n σ type name len content = .ok σ') :
    Consistent (some type) σ' ∧ FileSettled receiver n σ type len name content := by
  unfold takeFile at done
  dsimp only at done
  split at done
  next copied =>
      cases type with
      | control =>
          rcases controlFile_ok (consistent.addSize receiver len) done with ⟨after, settled⟩
          exact ⟨after, fun _ _ => settled⟩
      | data =>
          cases done
          exact ⟨dataFile_consistent (consistent.addSize receiver len) n _ name, nofun⟩
  next => cases done

theorem takeFile_error (consistent : Consistent last σ)
    (failed : takeFile receiver n σ type name len content = .error stop) :
    stop.reports ↔ FileSettled receiver n σ type len name content := by
  unfold takeFile at failed
  dsimp only at failed
  split at failed
  next copied =>
      cases type with
      | control =>
          rw [controlFile_error (consistent.addSize receiver len) failed]
          exact ⟨fun settled _ _ => settled, fun settled => settled rfl copied⟩
      | data => cases failed
  next uncopied =>
      cases failed
      exact ⟨fun _ _ copied => absurd copied uncopied, fun _ => .inr ⟨rfl, rfl⟩⟩

/-! ## The end of the stream -/

theorem endStream_reports (consistent : Consistent last σ) :
    (∃ stop, endStream receiver σ = some stop ∧ stop.reports) ↔ EndSettled receiver last σ := by
  have waits (stop : Stop) (unset : stop.status = false) (same : stop.waiting = σ.waiting) :
      (∃ other, some stop = some other ∧ other.reports) ↔ σ.job = none ∧ last ≠ some .data := by
    rw [← consistent.waiting, ← same]
    constructor
    · intro reported
      rcases reported with ⟨other, here, none | ⟨nonzero, -⟩⟩ <;> cases here
      · exact none
      · cases unset.symm.trans nonzero
    · exact fun none => ⟨stop, rfl, .inl none⟩
  unfold endStream EndSettled
  by_cases none : σ.files = []
  · rw [if_pos none, waits _ rfl rfl]
    exact ⟨.inl, fun either => either.resolve_right fun pending => pending.2.1 none⟩
  have busy : ¬ (σ.job = Option.none ∧ last ≠ some .data) := fun both => both.2 (consistent.files none both.1)
  rw [if_neg none, or_iff_right busy]
  by_cases idle : σ.job = Option.none
  · have fatal : ∀ stop : Option Stop, stop = Option.none → ¬ ∃ other, stop = some other ∧ other.reports := by
      intro stop absent reported
      rcases reported with ⟨other, here, -⟩
      cases absent.symm.trans here
    refine iff_of_false ?_ fun pending => pending.1 idle
    split
    · exact fatal _ rfl
    · split
      · exact fatal _ rfl
      · rw [waits _ rfl rfl]
        exact busy
      · rw [waits _ rfl rfl]
        exact busy
  · cases large : σ.discarding with
    | true =>
        rw [if_pos rfl, if_neg idle]
        refine iff_of_true ?_ ⟨idle, none, .inl rfl⟩
        split
        · exact ⟨_, rfl, .inl rfl⟩
        · exact ⟨_, rfl, .inr ⟨rfl, rfl⟩⟩
    | false =>
        rw [if_neg Bool.false_ne_true]
        cases verdict : checkForMissingFiles receiver.last.admits σ.files (σ.job.getD []) with
        | stored =>
            rw [if_neg idle]
            exact iff_of_true ⟨_, rfl, .inl rfl⟩ ⟨idle, none, .inr rfl⟩
        | refused =>
            rw [waits _ rfl rfl]
            refine iff_of_false busy fun pending => ?_
            rcases pending.2.2 with discarded | stored
            · cases discarded
            · cases stored
        | removed =>
            rw [waits _ rfl rfl]
            refine iff_of_false busy fun pending => ?_
            rcases pending.2.2 with discarded | stored
            · cases discarded
            · cases stored

/-! ## A stream -/

/-- The end of a scan whose parts were taken. -/
def endOf (receiver : Receiver) (ends : ScanEnd) : Except Stop ScanState → Option Stop
  | .error stop => some stop
  | .ok σ =>
      match ends with
      | .eof _ => endStream receiver σ
      | .badLength _ | .shortRead => some ⟨true, true, σ.waiting⟩

theorem takeFiles_reports (receiver : Receiver) (ends : ScanEnd) (parts : List Scanned) (consistent : Consistent last σ) :
    (∃ stop, endOf receiver ends (takeFiles receiver parts σ) = some stop ∧ stop.reports) ↔
      Settled receiver ends parts last σ := by
  induction parts generalizing last σ with
  | nil =>
      unfold takeFiles Settled
      cases ends with
      | eof left =>
          rw [endOf, endStream_reports consistent]
          exact ⟨fun settled _ => settled, fun settled => settled ⟨left, rfl⟩⟩
      | badLength line => exact iff_of_true ⟨_, rfl, .inr ⟨rfl, rfl⟩⟩ fun eof => nomatch eof
      | shortRead => exact iff_of_true ⟨_, rfl, .inr ⟨rfl, rfl⟩⟩ fun eof => nomatch eof
  | cons part parts ih =>
      cases part with
      | skipped line =>
          unfold takeFiles Settled
          exact ih consistent
      | file type name len content =>
          unfold takeFiles Settled
          cases taken : takeFile receiver parts.length σ type name len content with
          | error stop =>
              have reported := takeFile_error consistent taken
              constructor
              · intro some_
                rcases some_ with ⟨other, same, reports⟩
                cases same
                exact ⟨reported.mp reports, nofun⟩
              · exact fun settled => ⟨stop, rfl, reported.mpr settled.1⟩
          | ok σ' =>
              rcases takeFile_ok consistent taken with ⟨after, settled⟩
              have rest := ih after
              constructor
              · intro reports
                refine ⟨settled, fun σ'' same => ?_⟩
                cases same
                exact rest.mp reports
              · exact fun both => rest.mpr (both.2 σ' rfl)

/-- A control file and the data file it names. -/
def oneJob : Bytes :=
  2 :: lit "9 cfA001h\nfdfA001h\n" ++ 3 :: lit "1 dfA001h\nx"

/-- A receiver that refuses the last job. -/
def refusing : Receiver where
  safe := []
  longNumber := false
  garbled := []
  limits := ⟨0, false⟩
  temp _ := lit "bfAtemp"
  turn _ := ⟨true, ⟨.stored, true⟩, true, ⟨.stored, true⟩⟩
  last := ⟨.refused, true⟩

end BlockReception

end LPRng
