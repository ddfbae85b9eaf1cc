import LPRng.UpdateStatus

/-!
# The job commands of lpc

`Do_job_ticket_file` reads a job ticket under its lock, changes it as the command says
and writes it back. A command that selects a destination changes the job and the list
of that destination.
-/

namespace LPRng

/-- A word of a command line. -/
abbrev Word := { text : Bytes // text ≠ [] }

inductive JobAction where
  | hold | topq | move (dest : Word) | release | redo
  deriving DecidableEq, Repr

namespace JobAction

/-- What the command does to the fields of the job. -/
def onInfo (now : Time) : JobAction → Fields → Fields
  | hold, info => info.setFlagValue .holdTime now.val
  | topq, info => (info.setFlagValue .holdTime 0).setFlagValue .priorityTime now.val
  | move dest, info =>
      ((((((info.setStrValue .move (some dest.val)).setFlagValue .holdTime 0).setFlagValue
        .priorityTime 0).setFlagValue .doneTime 0).setFlagValue .removeTime 0).setFlagValue
        .errorTime 0).setStrValue .error none
  | release, info => (info.setFlagValue .holdTime 0).setFlagValue .attempt 0
  | redo, info =>
      (((info.setFlagValue .holdTime 0).setFlagValue .attempt 0).setFlagValue
        .doneTime 0).setFlagValue .removeTime 0

/-- What it does to the list of a selected destination. -/
def onDestination (now : Time) : JobAction → Fields → Fields
  | hold, l => l.setFlagValue .holdTime now.val
  | topq, l => l.setFlagValue .holdTime 0
  | move _, l => l
  | release, l => (l.setFlagValue .holdTime 0).setFlagValue .attempt 0
  | redo, l =>
      (((l.setFlagValue .holdTime 0).setFlagValue .attempt 0).setFlagValue
        .doneTime 0).setFlagValue .copyDone 0

/-- One selection of a job, or of one of its destinations. -/
def apply (action : JobAction) (now : Time) (selected : Option Nat) (job : Job) : Job :=
  let job := match selected with
    | none => job.setInfo (action.onInfo now)
    | some n => (((job.getDestination n).1.setInfo (action.onInfo now)).setDestination
        (action.onDestination now)).updateDestination
  job.setInfo fun info => (info.setStrValue .error none).setFlagValue .errorTime 0

/-- The fields of the job a command sets or clears. -/
def sets : JobAction → List Key
  | hold => [.holdTime, .error, .errorTime]
  | topq => [.holdTime, .priorityTime, .error, .errorTime]
  | move _ => [.move, .holdTime, .priorityTime, .doneTime, .removeTime, .error, .errorTime]
  | release => [.holdTime, .attempt, .error, .errorTime]
  | redo => [.holdTime, .attempt, .doneTime, .removeTime, .error, .errorTime]

/-- The fields it sets in the list of a selected destination. -/
def setsDestination : JobAction → List Key
  | hold | topq => [.holdTime]
  | move _ => []
  | release => [.holdTime, .attempt]
  | redo => [.holdTime, .attempt, .doneTime, .copyDone]

/-- The commands that take back the end of a job. -/
def reopens : JobAction → Bool
  | move _ | redo => true
  | hold | topq | release => false

variable {action : JobAction} {now : Time} {selected : Option Nat} {job : Job} {key : Key}

theorem onInfo_of_not_mem {info : Fields} (untouched : key ∉ action.sets) :
    action.onInfo now info key = info key := by
  cases action <;> simp only [sets, List.mem_cons, not_or] at untouched <;>
    simp [onInfo, untouched]

theorem onDestination_of_not_mem {l : Fields} (untouched : key ∉ action.setsDestination) :
    action.onDestination now l key = l key := by
  cases action <;> simp only [setsDestination, List.mem_cons, not_or] at untouched <;>
    simp [onDestination, untouched]

theorem onDestination_of_ne {l : Fields} (notHold : key ≠ .holdTime) (notAttempt : key ≠ .attempt)
    (notDone : key ≠ .doneTime) (notCopy : key ≠ .copyDone) :
    action.onDestination now l key = l key :=
  onDestination_of_not_mem (by cases action <;> simp [setsDestination, *])

/-- A command gives values to the fields it sets, besides the error it takes back. -/
theorem onInfo_sets (now : Time) (info : Fields) :
    ∀ key ∈ action.sets, key = .error ∨ key = .errorTime ∨ action.onInfo now info key ≠ none := by
  cases action with
  | move dest => simp [sets, onInfo, dest.property]
  | _ => simp [sets, onInfo]

theorem onDestination_sets (now : Time) (l : Fields) :
    ∀ key ∈ action.setsDestination, action.onDestination now l key ≠ none := by
  cases action <;> simp [setsDestination, onDestination]

/-- A command leaves the fields alone that it does not set. -/
theorem apply_info_of_not_mem (now : Time) (selected : Option Nat) (job : Job)
    (untouched : key ∉ action.sets) :
    (action.apply now selected job).info key = job.info key := by
  have notError : key ≠ .error := by rintro rfl; cases action <;> simp [sets] at untouched
  have notTime : key ≠ .errorTime := by rintro rfl; cases action <;> simp [sets] at untouched
  cases selected with
  | none => simp [apply, notError, notTime, onInfo_of_not_mem untouched]
  | some n => simp [apply, notError, notTime, onInfo_of_not_mem untouched]

end JobAction

/-- The name of a job, without which the job commands pass it over. -/
def Fields.jobIdentifier (info : Fields) : Option Bytes :=
  (info.findStrValue .identifier).or (info.findStrValue .cftransfername)

/-- `Do_job_ticket_file` for a job the command selects. A job that is still coming in,
or has no name, is passed over. -/
def Server.doJobTicketFile (moment : Moment) (action : JobAction) (selected : Option Nat)
    (s : Server) : Option Server :=
  match s.ticket with
  | none => some s
  | some ticket =>
      if ticket.info.findFlagValue .incomingTime ≠ 0 ∨
          ticket.info.jobIdentifier = none then some s
      else ({ s with job := action.apply moment.now selected ticket.toJob }).setJobTicketFile moment

end LPRng
