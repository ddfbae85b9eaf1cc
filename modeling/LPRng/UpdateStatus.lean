import LPRng.Job

/-!
# Recording the outcome of a job

`Update_status` settles what becomes of a job once the process that served it has
exited. It works on the job read from the ticket, on the list of the destination the
process served, if the job is routed, and on the files of the spool directory.
A call that ends in `fatal` yields no state.
-/

namespace LPRng

/-- The exit status of a subserver. -/
inductive Status where
  | jsucc | jfail | jabort | jremove | jhold | jfailnoretry | jtimeout
  | other (code : Int)
  deriving DecidableEq, Repr

/-- The configuration a queue server consults. -/
structure Config where
  maxMoveCount : Int
  sendTry : Int
  sendFailureAction : Option Bytes
  saveWhenDone : Bool
  saveOnError : Bool
  doneJobs : Int
  doneJobsMaxAge : Int
  stopOnAbort : Bool

def Config.keepsDone (config : Config) : Bool :=
  config.saveWhenDone || config.doneJobs ≠ 0 || config.doneJobsMaxAge ≠ 0

def Config.keepsErrors (config : Config) : Bool :=
  config.saveOnError || config.doneJobs ≠ 0 || config.doneJobsMaxAge ≠ 0

/-- What a call takes from outside the spool directory: the clock, its text for
`UPDATE_TIME`, and the exit status of the failure action, if that is a filter. -/
structure Moment where
  now : Time
  timeStr : Bytes
  filterExit : Status

/-- The server's view of one job: the job in memory, its ticket file, the other files
of the spool directory, and the control information in memory and on file. -/
structure Server where
  job : Job
  ticket : Option Ticket
  files : Bytes → Bool
  spoolControl : Fields
  queueControlFile : Fields
  doneCount : Nat
  doneTime : Nat

/-! ## Tickets on disk -/

/-- `Make_job_ticket_image`: names under which files are open now are not written. -/
def Job.ticketImage (job : Job) : Ticket where
  info := Function.update job.info .openname none
  dests := job.dests
  datafiles := job.datafiles.map fun datafile =>
    Function.update (Function.update datafile .openname none) .otransfername none

namespace Server

/-- A write to the job in memory. -/
def mapJob (s : Server) (change : Job → Job) : Server := { s with job := change s.job }

@[simp] theorem mapJob_job (s : Server) (change : Job → Job) :
    (s.mapJob change).job = change s.job := rfl

@[simp] theorem mapJob_ticket (s : Server) (change : Job → Job) :
    (s.mapJob change).ticket = s.ticket := rfl

/-- `Set_job_ticket_file` on an open ticket; a job without `HF_NAME` is fatal. -/
def setJobTicketFile (moment : Moment) (s : Server) : Option Server :=
  let job := s.job.setInfo (·.setStrValue .updateTime moment.timeStr)
  if job.info.findStrValue .hfName = none then none
  else some { s with job := job, ticket := some job.ticketImage }

/-- What a write of the ticket leaves in memory and on disk. -/
theorem setJobTicketFile_some {moment : Moment} {s s' : Server}
    (wrote : s.setJobTicketFile moment = some s') :
    s'.job = s.job.setInfo (·.setStrValue .updateTime moment.timeStr) ∧
      s'.ticket = some s'.job.ticketImage := by
  rw [setJobTicketFile] at wrote
  split at wrote
  · cases wrote
  · obtain rfl := Option.some.inj wrote
    exact ⟨rfl, rfl⟩

/-- The files `Remove_job` unlinks besides the ticket. -/
def jobFiles (job : Job) : List Bytes :=
  (job.datafiles.flatMap fun datafile =>
      (datafile.findStrValue .openname).toList ++ (datafile.findStrValue .dftransfername).toList)
    ++ (job.info.findStrValue .openname).toList

/-- `Remove_job`. -/
def removeJob (s : Server) : Server :=
  { s with
    ticket := if s.job.info.findStrValue .hfName = none then s.ticket else none
    files := fun name => s.files name && name ∉ jobFiles s.job }

/-- The end of a job that is over: it is kept for a while or removed at once. -/
def saveOrRemove (keeps : Bool) (moment : Moment) (s : Server) : Server :=
  if keeps then
    { s with
      doneCount := s.doneCount + 1
      doneTime := if s.doneTime = 0 then moment.now.val else s.doneTime }
  else s.removeJob

/-- `Set_spool_control` of the control information in memory. -/
def setSpoolControl (s : Server) : Server := { s with queueControlFile := s.spoolControl }

end Server

/-! ## The cases of `Update_status` -/

/-- An error text and time for a list that has none. -/
def Fields.noteError (text : Bytes) (moment : Moment) (l : Fields) : Fields :=
  let l := if l.findStrValue .error = none then l.setStrValue .error text else l
  if l.findFlagValue .errorTime = 0 then l.setNzFlagValue .errorTime moment.now.val else l

/-- One more attempt. -/
def Fields.nextAttempt (l : Fields) : Int := l.findFlagValue .attempt + 1

def Fields.countAttempt (l : Fields) : Fields := l.setFlagValue .attempt l.nextAttempt

/-- The error is withdrawn for another try. -/
def Fields.clearError (l : Fields) : Fields :=
  ((l.setStrValue .error none).setFlagValue .errorTime 0).setStrValue .prstatus none

/-- One more copy; the time is set with the last copy. The second component says
whether it was the last one. -/
def Fields.countCopy (copies : Int) (moment : Moment) (l : Fields) : Fields × Bool :=
  let copy := l.findFlagValue .copyDone + 1
  let l := l.setFlagValue .copyDone copy
  if copy ≥ copies then (l.setFlagValue .doneTime moment.now.val, true) else (l, false)

namespace Server

variable (config : Config) (moment : Moment) (hasDest : Bool) (s : Server)

def holdJob : Option Server :=
  if hasDest then
    (s.mapJob fun job =>
        (job.setDestination (·.setFlagValue .holdTime moment.now.val)).updateDestination)
      |>.setJobTicketFile moment
  else
    (s.mapJob fun job =>
        job.setInfo fun info =>
          (info.setFlagValue .holdTime moment.now.val).setFlagValue .priorityTime 0)
      |>.setJobTicketFile moment

/-- The label `done_job`. -/
def doneJob : Option Server :=
  if s.job.info.findStrValue .hfName = none then some s
  else
    ((s.mapJob (·.setInfo (·.setFlagValue .removeTime moment.now.val))).setJobTicketFile moment).map
      (saveOrRemove config.keepsDone moment)

/-- The end of one destination: its list, whether it is done, and the number that is
compared with the number of destinations. -/
def finishDestination (destination : Fields) : Fields × Bool × Int :=
  let copies := destination.findFlagValue .copies
  let n := destination.findFlagValue .destination
  if destination.findStrValue .move ≠ none then
    (destination.setFlagValue .doneTime moment.now.val, true, n)
  else
    let counted := destination.countCopy copies moment
    (counted.1, counted.2, if counted.2 then n + 1 else n)

/-- `JSUCC` for a destination. -/
def succeedDestination (destinations : Int) : Option Server :=
  let finished := finishDestination moment s.job.destination
  let s := s.mapJob fun job =>
    ((job.setInfo fun info =>
        info.setFlagValue .sequence (info.findFlagValue .sequence + 1)).setDestination
      fun _ => finished.1).updateDestination
  if finished.2.1 ∧ finished.2.2 ≥ destinations then
    (s.mapJob (·.setInfo (·.setFlagValue .doneTime moment.now.val))).doneJob config moment
  else s.setJobTicketFile moment

/-- `JSUCC` for a job without destinations. -/
def succeedJob : Option Server :=
  if s.job.info.findStrValue .move ≠ none then
    (s.mapJob (·.setInfo (·.setFlagValue .doneTime moment.now.val))).doneJob config moment
  else
    let counted := s.job.info.countCopy (s.job.info.findFlagValue .copies) moment
    let s := s.mapJob (·.setInfo fun _ => counted.1)
    if counted.2 then s.doneJob config moment else s.setJobTicketFile moment

/-- A job that ended in error: it is written with its removal time and then kept
or removed. -/
def endInError : Option Server :=
  ((s.mapJob (·.setInfo (·.setNzFlagValue .removeTime moment.now.val))).setJobTicketFile moment).map
    (saveOrRemove config.keepsErrors moment)

def failNoRetry : Option Server :=
  if hasDest then
    (s.mapJob fun job => (job.setDestination fun l =>
        (l.noteError (lit "failed, no retry") moment).setFlagValue .attempt
          l.nextAttempt).updateDestination)
      |>.setJobTicketFile moment
  else
    (s.mapJob (·.setInfo (·.countAttempt.noteError (lit "failed, no retry") moment))).endInError
      config moment

def stopOnAbort : Server :=
  if config.stopOnAbort then
    setSpoolControl { s with spoolControl := s.spoolControl.setFlagValue .printingAborted 1 }
  else s

/-- `JABORT`, and every status without a case of its own. With a destination the
ticket is not written. -/
def abortJob : Option Server :=
  let s := s.mapJob (·.setInfo (·.setFlagValue .priorityTime 0))
  if hasDest then
    some <| (s.mapJob fun job => (job.setDestination
        (·.noteError (lit "aborting operations") moment)).updateDestination).stopOnAbort config
  else
    ((s.mapJob (·.setInfo (·.noteError (lit "aborting operations") moment))).endInError
      config moment).map (stopOnAbort config)

def removeFailedJob : Option Server :=
  if hasDest then
    (s.mapJob fun job => (job.setDestination
        (·.noteError (lit "removing destination due to errors") moment)).updateDestination)
      |>.setJobTicketFile moment
  else
    (s.mapJob (·.setInfo (·.noteError (lit "too many errors") moment))).endInError config moment

/-- The attempt of a failed job is counted in the list it belongs to, and written. -/
def countFailure : Option Server :=
  (s.mapJob fun job =>
      if hasDest then (job.setDestination Fields.countAttempt).updateDestination
      else job.setInfo Fields.countAttempt)
    |>.setJobTicketFile moment

/-- The retry of a failed job. With a destination its field `DESTk` is not set again. -/
def retryJob : Option Server :=
  (s.mapJob fun job =>
      if hasDest then job.setDestination Fields.clearError else job.setInfo Fields.clearError)
    |>.setJobTicketFile moment

end Server

/-! ## The failure action -/

def eqNocase (a b : Bytes) : Bool := a.map toLower = b.map toLower

def failureKeys : List (Bytes × Status) :=
  [(lit "succ", .jsucc), (lit "jsucc", .jsucc), (lit "success", .jsucc), (lit "jsuccess", .jsucc),
    (lit "abort", .jabort), (lit "jabort", .jabort), (lit "hold", .jhold), (lit "jhold", .jhold),
    (lit "remove", .jremove), (lit "jremove", .jremove)]

/-- `Decode_transfer_failure`. The output of a filter is read and trimmed, but only its
exit status counts. -/
def decodeTransferFailure (config : Config) (moment : Moment) : Status :=
  match config.sendFailureAction with
  | none => .jremove
  | some action =>
      let text := action.dropWhile isSpace
      if text.head? = some 124 then
        if moment.filterExit = .jsucc then .jremove else moment.filterExit
      else
        match failureKeys.find? fun entry => eqNocase entry.1 text with
        | some entry => entry.2
        | none => .jremove

/-- The status a failed job goes on with, `JFAIL` for a retry. -/
def failureStatus (config : Config) (moment : Moment) (attempt : Int) : Status :=
  if config.sendTry > 0 ∧ attempt ≥ config.sendTry then
    match decodeTransferFailure config moment with
    | .jtimeout | .other _ => .jabort
    | status => status
  else .jfail

namespace Server

variable (config : Config) (moment : Moment)

/-- The cases other than `JFAIL`, also reached by `goto again`. -/
def settle (destinations : Int) (hasDest : Bool) (status : Status) (s : Server) : Option Server :=
  match status with
  | .jhold => s.holdJob moment hasDest
  | .jsucc => if hasDest then s.succeedDestination config moment destinations
      else s.succeedJob config moment
  | .jfailnoretry => s.failNoRetry config moment hasDest
  | .jremove => s.removeFailedJob config moment hasDest
  | .jabort | .jfail | .jtimeout | .other _ => s.abortJob config moment hasDest

/-- What follows once the attempt is counted. -/
def resumeFailed (destinations : Int) (hasDest : Bool) (status : Status) (s : Server) :
    Option Server :=
  if status = .jfail then s.retryJob moment hasDest
  else s.settle config moment destinations hasDest status

def failJob (destinations : Int) (hasDest : Bool) (s : Server) : Option Server :=
  let list := if hasDest then s.job.destination else s.job.info
  (s.countFailure moment hasDest).bind
    (resumeFailed config moment destinations hasDest (failureStatus config moment list.nextAttempt))

/-- The job with its `SERVER` field cleared and its destination unpacked; the second
component says whether it has one. -/
def openJob (job : Job) : Job × Bool :=
  let job := job.setInfo (·.setDecimalValue .server 0)
  if job.info.findFlagValue .destinations = 0 then (job, false)
  else
    let (job, found) := job.getDestinationByName (job.info.findStrValue .destination)
    if found then (job.setDestination (·.setDecimalValue .server 0), true) else (job, false)

/-- `Update_status`. -/
def updateStatus (status : Status) (s : Server) : Option Server :=
  if s.job.info.findStrValue .identifier = none then
    some (s.mapJob (·.setInfo (·.setDecimalValue .server 0)))
  else
    let (job, hasDest) := openJob s.job
    let destinations := job.info.findFlagValue .destinations
    let s := s.mapJob fun _ => job
    if status = .jfail ∨ status = .jtimeout then s.failJob config moment destinations hasDest
    else s.settle config moment destinations hasDest status

end Server

end LPRng
