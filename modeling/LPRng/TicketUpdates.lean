import LPRng.LpcJob
import LPRng.Outcome
import LPRng.Promise
import LPRng.Routing
import LPRng.Transition

/-!
# Updates of a job ticket

The queue server, the worker of a job and the job commands of lpc all write the ticket of
the job as a whole. The commands, the server and `Remote_job` read it under its lock right
before they write it; the worker keeps the copy it has read when it took the job over.
What a command has set is promised until a step comes whose own task is to set it.
-/

namespace LPRng

/-- A field of a ticket, of the job or of the list of one of its destinations. -/
structure Place where
  dest : Option Bytes
  key : Key
  deriving DecidableEq

namespace Ticket

/-- The list of a destination; one that is not there has no fields. -/
def list (ticket : Ticket) (name : Bytes) : Fields := (ticket.dests name).getD .empty

def lookup (ticket : Ticket) (place : Place) : Option Bytes :=
  match place.dest with
  | none => ticket.info place.key
  | some name => ticket.list name place.key

/-- A job with `d` destinations, whose lists carry the numbers of their fields, and which
is at one of them if at any. -/
structure Indexed (d : Nat) (ticket : Ticket) : Prop where
  destinations : ticket.info.findFlagValue .destinations = d
  numbered : ∀ k < d, (ticket.list (destName k)).findFlagValue .destination = k
  current : ∀ name, ticket.info .destination = some name → ∃ k < d, name = destName k

end Ticket

/-! ## The worker -/

/-- `Server_status`. -/
def serverStatus : Status → Bytes
  | .jsucc => lit "JSUCC"
  | .jfail => lit "JFAIL"
  | .jabort => lit "JABORT"
  | .jremove => lit "JREMOVE"
  | .jhold => lit "JHOLD"
  | .jfailnoretry => lit "JFAILNORETRY"
  | .jtimeout => lit "JTIMEOUT"
  | .other 38 => lit "JNOSPOOL"
  | .other 39 => lit "JNOPRINT"
  | .other 40 => lit "JSIGNAL"
  | .other 42 => lit "JSUSP"
  | .other 44 => lit "JWRERR"
  | .other 45 => lit "JRDERR"
  | .other 46 => lit "JCHILD"
  | .other 47 => lit "JNOWAIT"
  | .other code => lit "UNKNOWN STATUS '" ++ printInt code ++ lit "'"

/-- How `Send_job` ends; `failed` stands for every status without a case of its own. -/
inductive SendStatus where
  | jsucc | jabort | jfail | jremove | ackFail | permFail | failed
  deriving DecidableEq

namespace Server

/-- `Service_worker` takes the job over; what it has written is its copy of the job. -/
def takeOver (moment : Moment) (pid : Pid) (newDest moveDest : Option Bytes) (s : Server) :
    Option (Server × Option Job) :=
  match s.ticket with
  | none => some (s, none)
  | some ticket =>
      (({ s with
        job := ticket.toJob.setInfo fun info =>
          ((info.setStrValue .newDest newDest).setStrValue .moveDest moveDest).setDecimalValue
            .server pid.val } : Server).setJobTicketFile moment).map fun s => (s, some s.job)

end Server

/-- What `Local_job` and `Remote_job` do first, in memory. -/
def Fields.clearStatus (info : Fields) : Fields :=
  ((info.setStrValue .prstatus none).setStrValue .error none).setFlagValue .errorTime 0

/-- An accounting check that failed. -/
def Fields.noteAccounting (status : Status) (moment : Moment) (info : Fields) : Fields :=
  (info.setStrValue .error
    (some (lit "accounting check failed '" ++ serverStatus status ++ lit "'"))).setNzFlagValue
    .errorTime moment.now.val

namespace Server

/-- A write of the worker's copy, if the ticket is still there. -/
def writeCopy (moment : Moment) (copy : Job) (s : Server) : Option Server :=
  match s.ticket with
  | none => some s
  | some _ => { s with job := copy }.setJobTicketFile moment

/-- The statuses of an accounting check after which `Local_job` writes its copy. -/
def writesAccounting : Status → Bool
  | .jsucc | .jfail | .jhold | .jremove => false
  | .jabort | .jfailnoretry | .jtimeout | .other _ => true

/-- `Local_job`: the accounting check at the start comes back. The copy is written without
reading the ticket again. Whatever follows in `Local_job` does not write the ticket. -/
def localAccounting (moment : Moment) (status : Status) (copy : Job) (s : Server) :
    Option Server :=
  if writesAccounting status then
    s.writeCopy moment (copy.setInfo fun info => info.clearStatus.noteAccounting status moment)
  else some s

/-- The worker's copy, with the ticket read over it. -/
def mergeTicket (copy : Job) (ticket : Ticket) : Job where
  info := copy.info.mergeLineList ticket.info
  dests := fun name => (ticket.dests name).or (copy.dests name)
  datafiles := ticket.datafiles
  destination := copy.destination

/-- The ticket is read over the copy and written back under one lock. -/
def updateMerged (moment : Moment) (change : Fields → Fields) (copy : Job) (s : Server) :
    Option Server :=
  match s.ticket with
  | none => some s
  | some ticket =>
      { s with
        job := (mergeTicket (copy.setInfo Fields.clearStatus) ticket).setInfo change
        }.setJobTicketFile moment

/-- `Remote_job`: the accounting check at the start comes back. -/
def remoteAccounting (moment : Moment) (status : Status) (copy : Job) (s : Server) :
    Option Server :=
  match status with
  | .jsucc => some s
  | .jhold => s.updateMerged moment (·.setFlagValue .holdTime moment.now.val) copy
  | .jremove => s.updateMerged moment (·.setFlagValue .removeTime moment.now.val) copy
  | status => s.updateMerged moment (·.noteAccounting status moment) copy

/-- The status `Remote_job` ends with, and the text for a failure of its own. -/
def sentStatus (id : Bytes) : SendStatus → Status × Option Bytes
  | .jsucc => (.jsucc, none)
  | .jabort => (.jabort, none)
  | .jfail => (.jfail, none)
  | .jremove => (.jremove, none)
  | .ackFail => (.jfail, some (lit "link failure while sending job '" ++ id ++ lit "'"))
  | .permFail => (.jremove, some (lit "no permission to spool job '" ++ id ++ lit "'"))
  | .failed => (.jfail, some (lit "failed to send job '" ++ id ++ lit "'"))

/-- A transfer that failed without saying why. -/
def noteMystery (moment : Moment) (sent : SendStatus) (copyHasError : Bool) (info : Fields) :
    Fields :=
  if sent ≠ .jsucc ∧ ¬ copyHasError then
    (info.setStrValue .error (some (lit "Mystery error from Send_job"))).setNzFlagValue
      .errorTime moment.now.val
  else info

/-- The failure of the transfer itself. -/
def noteFailure (moment : Moment) (text : Option Bytes) (info : Fields) : Fields :=
  match text with
  | none => info
  | some text => info.noteError text moment

/-- What the end of a transfer leaves in the job. -/
def noteSent (moment : Moment) (sent : SendStatus) (id : Bytes) (copyHasError : Bool)
    (info : Fields) : Fields :=
  (noteFailure moment (sentStatus id sent).2 (noteMystery moment sent copyHasError info)).setStrValue
    .prstatus (some (serverStatus (sentStatus id sent).1))

/-- `Remote_job`: the transfer is over. -/
def remoteDone (moment : Moment) (sent : SendStatus) (id : Bytes) (copyHasError : Bool)
    (copy : Job) (s : Server) : Option Server :=
  s.updateMerged moment (noteSent moment sent id copyHasError) copy

/-- The printer a chooser has named for the job. -/
def noteNewDest (newDest : Option Bytes) (job : Job) : Job :=
  if newDest = none then job else job.setInfo (·.setStrValue .newDest newDest)

/-- `Do_queue_jobs` marks the job. -/
def markJob (config : Config) (moment : Moment) (around : Surroundings) (pid : Pid)
    (n : Option Nat) (newDest : Option Bytes) (s : Server) : Option Server :=
  match s.ticket with
  | none => some s
  | some ticket =>
      if ticket.info.findFlagValue .server ≠ 0 then some s
      else
        { s with job := noteNewDest newDest (jobPrintable around ticket.toJob).1 }.startJob config
          moment pid n

end Server

/-! ## The life of a ticket -/

/-- The places touched by a step, given the destinations it is about. -/
def Touch.Owns (touch : Touch) (names : Bytes → Prop) (place : Place) : Prop :=
  match place.dest with
  | none => place.key ∈ touch.stamped.info
  | some name => names name ∧ place.key ∈ touch.stamped.dest

/-- The places a command sets. -/
def JobAction.Sets (action : JobAction) (selected : Option Nat) (place : Place) : Prop :=
  match place.dest with
  | none => place.key ∈ action.sets
  | some name => (∃ n ∈ selected, name = destName n) ∧ place.key ∈ action.setsDestination

/-- A ticket the commands do not pass over. -/
def Ticket.Selectable (ticket : Ticket) : Prop :=
  ticket.info.findFlagValue .incomingTime = 0 ∧ ticket.info.jobIdentifier ≠ none

inductive TicketEvent where
  | lpc (moment : Moment) (action : JobAction) (selected : Option Nat)
  | mark (moment : Moment) (around : Surroundings) (pid : Pid) (n : Option Nat)
      (newDest : Option Bytes)
  | takeOver (moment : Moment) (pid : Pid) (newDest moveDest : Option Bytes)
  | localAccounting (moment : Moment) (status : Status)
  | remoteAccounting (moment : Moment) (status : Status)
  | remoteDone (moment : Moment) (sent : SendStatus) (id : Bytes) (copyHasError : Bool)
  | exit (moment : Moment) (status : Status)

namespace TicketEvent

/-- What a command sets in the ticket on disk. No other step sets anything for others. -/
def Sets (disk : Option Ticket) : TicketEvent → Place → Prop
  | lpc _ action selected => fun place =>
      (∃ ticket ∈ disk, ticket.Selectable) ∧ action.Sets selected place
  | _ => fun _ => False

/-- The places a step is there to change. -/
def Owns (config : Config) (disk : Option Ticket) : TicketEvent → Place → Prop
  | lpc .. => Touch.Owns ⟨[], []⟩ fun _ => False
  | mark .. => Touch.Owns ⟨[.prstatus, .printable, .held, .newDest, .destination, .startTime],
      [.prstatus, .printable, .held]⟩ fun _ => True
  | takeOver .. => Touch.Owns ⟨[.newDest, .moveDest], []⟩ fun _ => False
  | localAccounting .. | remoteDone .. =>
      Touch.Owns ⟨[.prstatus, .error, .errorTime], []⟩ fun _ => False
  | remoteAccounting _ status => Touch.Owns
      ⟨.prstatus :: .error :: .errorTime ::
        (match status with | .jhold => [.holdTime] | .jremove => [.removeTime] | _ => []), []⟩
      fun _ => False
  | exit moment status => fun place => ∃ ticket ∈ disk,
      (outcomeTouch config moment status ticket.toJob).Owns
        (fun name => ticket.info .destination = some name) place

end TicketEvent

/-- The ticket of a job in the hands of the server, the copy its worker has, and what the
commands have set. -/
structure TicketLife where
  server : Server
  worker : Option Job
  promises : Promises Place (Option Bytes)

/-- What stands in the ticket file. -/
def Server.onDisk (s : Server) (place : Place) : Option Bytes := s.ticket.bind (·.lookup place)

namespace TicketLife

/-- What a step does to the ticket and to the copy of the worker. -/
def act (config : Config) (d : Nat) (s : TicketLife) : TicketEvent → Option (Server × Option Job)
  | .lpc moment action selected =>
      if ∀ n ∈ selected, n < d then
        (s.server.doJobTicketFile moment action selected).map (·, s.worker)
      else none
  | .mark moment around pid n newDest =>
      if ∀ k ∈ n, k < d then
        (s.server.markJob config moment around pid n newDest).map (·, s.worker)
      else none
  | .takeOver moment pid newDest moveDest => s.server.takeOver moment pid newDest moveDest
  | .localAccounting moment status =>
      s.worker.bind fun copy =>
        (s.server.localAccounting moment status copy).map (·, some copy)
  | .remoteAccounting moment status =>
      s.worker.bind fun copy =>
        (s.server.remoteAccounting moment status copy).map (·, some copy)
  | .remoteDone moment sent id copyHasError =>
      s.worker.bind fun copy =>
        (s.server.remoteDone moment sent id copyHasError copy).map (·, some copy)
  | .exit moment status => (s.server.waitForSubserver config moment status).map (·, none)

def next (config : Config) (d : Nat) (s : TicketLife) (e : TicketEvent) : Option TicketLife :=
  (s.act config d e).map fun after =>
    { server := after.1
      worker := after.2
      promises := s.promises.afterWrite (e.Sets s.server.ticket) (e.Owns config s.server.ticket)
        after.1.onDisk }

/-- A job in the queue that nobody works on, and no command so far. -/
def Fresh (d : Nat) (s : TicketLife) : Prop :=
  (∀ ticket, s.server.ticket = some ticket → ticket.Indexed d) ∧ s.worker = none ∧
    s.promises = fun _ _ => False

end TicketLife

/-- The runs of a job with `d` destinations. -/
def ticketLife (config : Config) (d : Nat) : System TicketLife TicketEvent :=
  .ofNext (TicketLife.Fresh d) (TicketLife.next config d)

/-! ## What a write leaves in the places of a ticket -/

namespace Ticket

variable {d : Nat} {ticket ticket' : Ticket}

/-- Whether a ticket is indexed shows in the places that say so. -/
theorem Indexed.of_lookup (indexed : ticket.Indexed d)
    (agrees : ∀ place : Place, place.key = .destinations ∨ place.key = .destination →
      ticket'.lookup place = ticket.lookup place) : ticket'.Indexed d := by
  refine ⟨?_, fun k below => ?_, fun name at' => ?_⟩
  · exact (Fields.findFlagValue_congr (agrees ⟨none, .destinations⟩ (Or.inl rfl))).trans
      indexed.destinations
  · exact (Fields.findFlagValue_congr (agrees ⟨some (destName k), .destination⟩ (Or.inr rfl))).trans
      (indexed.numbered k below)
  · exact indexed.current name ((agrees ⟨none, .destination⟩ (Or.inr rfl)).symm.trans at')

theorem list_of_dests {name : Bytes} {l : Fields} (present : ticket.dests name = some l) :
    ticket.list name = l := by
  rw [list, present, Option.getD_some]

end Ticket

/-- A write touches no place but the stamps. -/
abbrev stamps : Place → Prop := Touch.Owns ⟨[], []⟩ fun _ => False

theorem Touch.owns_stamps {touch : Touch} {names : Bytes → Prop} {place : Place}
    (stamp : stamps place) : touch.Owns names place := by
  unfold stamps Touch.Owns at *
  split at stamp
  · simp only [Touch.stamped, List.mem_cons] at stamp ⊢
    tauto
  · exact stamp.1.elim

/-- A step that has nothing to do with where a job is to go. -/
structure Touch.IndexFree (touch : Touch) : Prop where
  destinations : Key.destinations ∉ touch.info ++ touch.dest
  destination : Key.destination ∉ touch.info ++ touch.dest

theorem Touch.IndexFree.not_owns {touch : Touch} (free : touch.IndexFree) {names : Bytes → Prop}
    {place : Place} (index : place.key = .destinations ∨ place.key = .destination) :
    ¬ touch.Owns names place := by
  obtain ⟨count, current⟩ := free
  simp only [List.mem_append, not_or] at count current
  intro own
  unfold Touch.Owns at own
  split at own
  · rcases index with key | key <;> simp [Touch.stamped, key, count, current] at own
  · rcases index with key | key <;> simp [Touch.stamped, key, count, current] at own

theorem Touch.owns_of_stamps {touch : Touch} {names : Bytes → Prop} {place : Place}
    (foreign : ¬ touch.Owns names place) : ¬ stamps place :=
  fun stamp => foreign (Touch.owns_stamps stamp)

namespace Server

variable {config : Config} {moment : Moment} {s s' : Server}

theorem setJobTicketFile_lookup (wrote : s' ∈ s.setJobTicketFile moment) :
    (∃ t, s'.ticket = some t ∧
      ∀ place, ¬ stamps place → t.lookup place = s.job.toTicket.lookup place) ∧
    ∀ place, ¬ stamps place → s'.job.toTicket.lookup place = s.job.toTicket.lookup place := by
  obtain ⟨job, image⟩ := setJobTicketFile_some wrote
  have written : ∀ place, ¬ stamps place →
      s'.job.toTicket.lookup place = s.job.toTicket.lookup place := by
    rintro ⟨_ | name, key⟩ foreign
    · rw [job]
      exact Fields.setStrValue_of_ne (by rintro rfl; exact foreign (by simp [Touch.Owns, Touch.stamped])) _
    · rw [job]
      rfl
  refine ⟨⟨_, image, fun place foreign => ?_⟩, written⟩
  rw [← written place foreign]
  rcases place with ⟨_ | name, key⟩
  · exact Job.ticketImage_info_of_ne (by rintro rfl; exact foreign (by simp [Touch.Owns, Touch.stamped]))
  · rfl

/-- A job that agrees with a ticket outside some places, written over it. -/
theorem setJobTicketFile_agrees {d : Nat} (touch : Touch) (names : Bytes → Prop) {t : Ticket}
    (free : touch.IndexFree) (indexed : t.Indexed d)
    (agrees : ∀ place, ¬ touch.Owns names place → s.job.toTicket.lookup place = t.lookup place)
    (wrote : s' ∈ s.setJobTicketFile moment) :
    s'.job.toTicket.Indexed d ∧ ∀ t', s'.ticket = some t' → t'.Indexed d ∧
      ∀ place, ¬ touch.Owns names place → t'.lookup place = t.lookup place := by
  obtain ⟨⟨ticket, image, lookup⟩, memory⟩ := setJobTicketFile_lookup wrote
  have kept : ∀ place, ¬ touch.Owns names place → ticket.lookup place = t.lookup place :=
    fun place foreign => (lookup place (Touch.owns_of_stamps foreign)).trans (agrees place foreign)
  have copied : ∀ place, ¬ touch.Owns names place →
      s'.job.toTicket.lookup place = t.lookup place :=
    fun place foreign => (memory place (Touch.owns_of_stamps foreign)).trans (agrees place foreign)
  refine ⟨indexed.of_lookup fun place index => copied place (free.not_owns index), fun t' present => ?_⟩
  obtain rfl := Option.some.inj (image.symm.trans present)
  exact ⟨indexed.of_lookup fun place index => kept place (free.not_owns index), kept⟩

end Server

/-! ## The commands -/

namespace JobAction

variable {action : JobAction} {now : Time} {selected : Option Nat} {job : Job} {d : Nat}

theorem getDestination_destination (n : Int) :
    (job.getDestination n).1.destination = job.toTicket.list (destName n) := by
  rw [Job.getDestination, Ticket.list]
  split <;> simp [*]

/-- A selected destination goes back to its own field. -/
theorem apply_list (indexed : job.toTicket.Indexed d) (below : ∀ n ∈ selected, n < d)
    (name : Bytes) :
    (action.apply now selected job).toTicket.list name =
      if ∃ n ∈ selected, name = destName n then action.onDestination now (job.toTicket.list name)
      else job.toTicket.list name := by
  cases selected with
  | none => simp [apply, Ticket.list]
  | some n =>
      have number : (action.onDestination now (job.toTicket.list (destName n))).findFlagValue
          .destination = n := by
        rw [Fields.findFlagValue_congr
          (onDestination_of_ne (by decide) (by decide) (by decide) (by decide))]
        exact indexed.numbered n (below n rfl)
      have put : (action.apply now (some n) job).dests = Function.update job.dests (destName n)
          (some (action.onDestination now (job.toTicket.list (destName n)))) := by
        simp only [apply, Job.setInfo_dests, Job.updateDestination, Job.setDestination_dests,
          Job.getDestination_dests, Job.setDestination_destination, Job.setInfo_destination,
          getDestination_destination, number]
      rcases eq_or_ne name (destName n) with rfl | different
      · rw [if_pos ⟨n, rfl, rfl⟩]
        exact Ticket.list_of_dests (by rw [put, Function.update_self])
      · rw [if_neg (by simpa using different), Ticket.list, put, Function.update_of_ne different]
        rfl

/-- A command leaves the places alone that it does not set. -/
theorem apply_lookup (indexed : job.toTicket.Indexed d) (below : ∀ n ∈ selected, n < d)
    {place : Place} (unset : ¬ action.Sets selected place) :
    (action.apply now selected job).toTicket.lookup place = job.toTicket.lookup place := by
  rcases place with ⟨_ | name, key⟩
  · exact apply_info_of_not_mem now selected job unset
  · change (action.apply now selected job).toTicket.list name key = job.toTicket.list name key
    rw [apply_list indexed below]
    split
    · next chosen =>
        exact onDestination_of_not_mem fun member => unset ⟨chosen, member⟩
    · rfl

/-- The only field a command clears is the error of the job. -/
theorem apply_sets_some (indexed : job.toTicket.Indexed d) (below : ∀ n ∈ selected, n < d)
    {place : Place} (set : action.Sets selected place)
    (missing : (action.apply now selected job).toTicket.lookup place = none) :
    place = ⟨none, .error⟩ := by
  rcases place with ⟨_ | name, key⟩
  · have info : (action.apply now selected job).info = ((action.onInfo now job.info).setStrValue
        .error none).setFlagValue .errorTime 0 := by
      cases selected <;> simp [apply]
    change (action.apply now selected job).info key = none at missing
    rw [info] at missing
    rcases onInfo_sets now job.info key set with rfl | rfl | present
    · rfl
    · cases (Fields.setFlagValue_self ..).symm.trans missing
    · by_cases error : key = .error
      · rw [error]
      · by_cases time : key = .errorTime
        · rw [time, Fields.setFlagValue_self] at missing
          cases missing
        · rw [Fields.setFlagValue_of_ne time, Fields.setStrValue_of_ne error] at missing
          exact absurd missing present
  · have chosen : (action.apply now selected job).toTicket.list name =
        action.onDestination now (job.toTicket.list name) := by
      rw [apply_list indexed below, if_pos set.1]
    change (action.apply now selected job).toTicket.list name key = none at missing
    rw [chosen] at missing
    exact absurd missing (onDestination_sets now _ key set.2)

end JobAction

namespace Server

variable {config : Config} {moment : Moment} {s s' : Server} {d : Nat} {t' : Ticket}

/-- A command sets its own places in the ticket it selects, and clears only an error. -/
theorem doJobTicketFile_keeps {action : JobAction} {selected : Option Nat} {t : Ticket}
    (old : s.ticket = some t) (indexed : t.Indexed d) (below : ∀ n ∈ selected, n < d)
    (ran : s' ∈ s.doJobTicketFile moment action selected) :
    ∃ t', s'.ticket = some t' ∧ t'.Indexed d ∧
      (t.Selectable → ∀ place, action.Sets selected place → t'.lookup place = none →
        place = ⟨none, .error⟩) ∧
      ∀ place, ¬ (t.Selectable ∧ action.Sets selected place) → ¬ stamps place →
        t'.lookup place = t.lookup place := by
  simp only [doJobTicketFile, old] at ran
  split at ran
  · next passed =>
      obtain rfl := Option.some.inj ran
      refine ⟨t, old, indexed, fun selectable => ?_, fun _ _ _ => rfl⟩
      rcases passed with incoming | unnamed
      · exact absurd selectable.1 incoming
      · exact absurd unnamed selectable.2
  · next taken =>
      have selectable : t.Selectable :=
        ⟨not_not.mp fun incoming => taken (Or.inl incoming), fun unnamed => taken (Or.inr unnamed)⟩
      obtain ⟨⟨written, image, lookup⟩, _⟩ := setJobTicketFile_lookup ran
      have applied : ∀ place, ¬ action.Sets selected place →
          (action.apply moment.now selected t.toJob).toTicket.lookup place = t.lookup place :=
        fun place => JobAction.apply_lookup indexed below
      have index : ∀ place, action.Sets selected place →
          ¬ (place.key = .destinations ∨ place.key = .destination) := by
        rintro ⟨_ | name, key⟩ set (rfl | rfl) <;> cases action <;>
          simp [JobAction.Sets, JobAction.sets, JobAction.setsDestination] at set
      have unstamped : ∀ place, action.Sets selected place → ¬ stamps place := by
        rintro ⟨_ | name, key⟩ set stamp
        · simp only [Touch.Owns, Touch.stamped, List.mem_cons, List.not_mem_nil, or_false] at stamp
          rcases stamp with rfl | rfl | rfl <;> cases action <;>
            simp [JobAction.Sets, JobAction.sets] at set
        · exact stamp.1
      have free : Touch.IndexFree ⟨[], []⟩ := ⟨by decide, by decide⟩
      refine ⟨written, image, indexed.of_lookup fun place at' => ?_,
        fun _ place set missing => ?_, fun place unset foreign => ?_⟩
      · exact (lookup place (free.not_owns at')).trans (applied place fun set => index place set at')
      · rw [lookup place (unstamped place set)] at missing
        exact JobAction.apply_sets_some indexed below set missing
      · exact (lookup place foreign).trans (applied place fun set => unset ⟨selectable, set⟩)

/-- `Service_worker` changes its own fields, and its copy is what it has written. -/
theorem takeOver_keeps {pid : Pid} {newDest moveDest : Option Bytes} {copy : Option Job}
    (indexed : ∀ t, s.ticket = some t → t.Indexed d)
    (ran : (s', copy) ∈ s.takeOver moment pid newDest moveDest) :
    (∀ job, copy = some job → job.toTicket.Indexed d) ∧
      ∀ t', s'.ticket = some t' → ∃ t, s.ticket = some t ∧ t'.Indexed d ∧
        ∀ place, ¬ Touch.Owns ⟨[.newDest, .moveDest], []⟩ (fun _ => False) place →
          t'.lookup place = t.lookup place := by
  rw [takeOver] at ran
  split at ran
  · next gone =>
      obtain ⟨rfl, rfl⟩ := Prod.mk.inj (Option.some.inj ran)
      exact ⟨fun _ impossible => (nomatch impossible),
        fun t' present => nomatch gone.symm.trans present⟩
  · next t old =>
      obtain ⟨written, wrote, pair⟩ := Option.map_eq_some_iff.mp ran
      obtain ⟨rfl, rfl⟩ := Prod.mk.inj pair
      obtain ⟨memory, disk⟩ := setJobTicketFile_agrees ⟨[.newDest, .moveDest], []⟩
        (fun _ => False) ⟨by decide, by decide⟩ (indexed t old) (fun place foreign => by
          rcases place with ⟨_ | name, key⟩
          · simp only [Touch.Owns, Touch.stamped, List.mem_cons, not_or] at foreign
            simp [Ticket.lookup, foreign, Ticket.toJob]
          · rfl) wrote
      refine ⟨fun job same => Option.some.inj same ▸ memory, fun t' present => ?_⟩
      obtain ⟨indexed', kept⟩ := disk t' present
      exact ⟨t, old, indexed', kept⟩

/-- The places `Local_job` and `Remote_job` set in the ticket. -/
abbrev statusPlaces : Place → Prop := Touch.Owns ⟨[.prstatus, .error, .errorTime], []⟩ fun _ => False

/-- `Local_job` writes a copy that agrees with the ticket outside its own places. -/
theorem localAccounting_keeps {status : Status} {copy : Job}
    (indexed : ∀ t, s.ticket = some t → t.Indexed d)
    (fresh : writesAccounting status = true → ∀ t, s.ticket = some t →
      ∀ place, ¬ statusPlaces place → copy.toTicket.lookup place = t.lookup place)
    (ran : s' ∈ s.localAccounting moment status copy) (present : s'.ticket = some t') :
    ∃ t, s.ticket = some t ∧ t'.Indexed d ∧
      ∀ place, ¬ statusPlaces place → t'.lookup place = t.lookup place := by
  rw [localAccounting] at ran
  split at ran
  · next writes =>
      rw [writeCopy] at ran
      split at ran
      · next gone =>
          obtain rfl := Option.some.inj ran
          cases gone.symm.trans present
      · next t old =>
          obtain ⟨_, disk⟩ := setJobTicketFile_agrees ⟨[.prstatus, .error, .errorTime], []⟩
            (fun _ => False) ⟨by decide, by decide⟩ (indexed t old) (fun place foreign => by
              rw [← fresh writes t old place foreign]
              rcases place with ⟨_ | name, key⟩
              · simp only [Touch.Owns, Touch.stamped, List.mem_cons, not_or] at foreign
                simp [Ticket.lookup, foreign, Fields.noteAccounting, Fields.clearStatus]
              · rfl) ran
          obtain ⟨indexed', kept⟩ := disk t' present
          exact ⟨t, old, indexed', kept⟩
  · obtain rfl := Option.some.inj ran
    exact ⟨t', present, indexed t' present, fun _ _ => rfl⟩

/-- What is in the ticket stays when the ticket is read over a copy. -/
theorem mergeTicket_lookup {copy : Job} {t : Ticket} {place : Place} {value : Bytes}
    (present : t.lookup place = some value) :
    (mergeTicket copy t).toTicket.lookup place = some value := by
  rcases place with ⟨_ | name, key⟩
  · change (t.info key).or _ = _
    rw [show t.info key = some value from present, Option.some_or]
  · change (((t.dests name).or (copy.dests name)).getD .empty) key = some value
    cases there : t.dests name with
    | some l =>
        rw [Option.some_or, Option.getD_some, ← Ticket.list_of_dests there]
        exact present
    | none =>
        change (t.dests name).getD .empty key = some value at present
        rw [there] at present
        cases present

theorem mergeTicket_indexed {copy : Job} {t : Ticket} (copied : copy.toTicket.Indexed d)
    (indexed : t.Indexed d) : (mergeTicket copy t).toTicket.Indexed d := by
  refine ⟨?_, fun k below => ?_, fun name at' => ?_⟩
  · have merged : (mergeTicket copy t).info .destinations =
        (t.info .destinations).or (copy.info .destinations) := rfl
    cases there : t.info .destinations with
    | none =>
        rw [there, Option.none_or] at merged
        exact (Fields.findFlagValue_congr merged).trans copied.destinations
    | some text =>
        rw [there, Option.some_or, ← there] at merged
        exact (Fields.findFlagValue_congr merged).trans indexed.destinations
  · have merged : (mergeTicket copy t).dests (destName k) =
        (t.dests (destName k)).or (copy.dests (destName k)) := rfl
    cases there : t.dests (destName k) with
    | none =>
        rw [there, Option.none_or] at merged
        rw [Ticket.list, merged]
        exact copied.numbered k below
    | some l =>
        rw [there, Option.some_or, ← there] at merged
        rw [Ticket.list, merged]
        exact indexed.numbered k below
  · change (t.info .destination).or (copy.info .destination) = some name at at'
    rcases Option.or_eq_some_iff.mp at' with here | ⟨_, here⟩
    · exact indexed.current name here
    · exact copied.current name here

/-- `Remote_job` keeps what it finds in the ticket outside its own places. What is missing
there can come back from its copy. -/
theorem updateMerged_keeps (touch : Touch) {change : Fields → Fields} {copy : Job}
    (free : touch.IndexFree) (indexed : ∀ t, s.ticket = some t → t.Indexed d)
    (copied : copy.toTicket.Indexed d)
    (keeps : ∀ l key, key ∉ touch.info → change l key = l key)
    (ran : s' ∈ s.updateMerged moment change copy) (present : s'.ticket = some t') :
    ∃ t, s.ticket = some t ∧ t'.Indexed d ∧ ∀ place value,
      ¬ touch.Owns (fun _ => False) place → t.lookup place = some value →
        t'.lookup place = some value := by
  rw [updateMerged] at ran
  split at ran
  · next gone =>
      obtain rfl := Option.some.inj ran
      cases gone.symm.trans present
  · next t old =>
      have cleared : (copy.setInfo Fields.clearStatus).toTicket.Indexed d := by
        refine copied.of_lookup ?_
        rintro ⟨_ | name, key⟩ (rfl | rfl) <;> rfl
      obtain ⟨_, disk⟩ := setJobTicketFile_agrees touch (fun _ => False) free
        (mergeTicket_indexed cleared (indexed t old)) (fun place foreign => by
          rcases place with ⟨_ | name, key⟩
          · simp only [Touch.Owns, Touch.stamped, List.mem_cons, not_or] at foreign
            exact keeps _ key foreign.2.2.2
          · rfl) ran
      obtain ⟨indexed', kept⟩ := disk t' present
      exact ⟨t, old, indexed', fun place value foreign there =>
        (kept place foreign).trans (mergeTicket_lookup there)⟩

theorem noteAccounting_of_ne {status : Status} {l : Fields} {key : Key} (notError : key ≠ .error)
    (notTime : key ≠ .errorTime) : l.noteAccounting status moment key = l key := by
  simp [Fields.noteAccounting, notError, notTime]

theorem noteSent_of_ne {sent : SendStatus} {id : Bytes} {copyHasError : Bool} {l : Fields}
    {key : Key} (notStatus : key ≠ .prstatus) (notError : key ≠ .error)
    (notTime : key ≠ .errorTime) : noteSent moment sent id copyHasError l key = l key := by
  have mystery : noteMystery moment sent copyHasError l key = l key := by
    rw [noteMystery]
    split <;> simp [notError, notTime]
  rw [noteSent, Fields.setStrValue_of_ne notStatus]
  cases (sentStatus id sent).2 with
  | none => exact mystery
  | some text => exact (Fields.noteError_of_ne notError notTime).trans mystery

theorem remoteDone_keeps {sent : SendStatus} {id : Bytes} {copyHasError : Bool} {copy : Job}
    (indexed : ∀ t, s.ticket = some t → t.Indexed d) (copied : copy.toTicket.Indexed d)
    (ran : s' ∈ s.remoteDone moment sent id copyHasError copy) (present : s'.ticket = some t') :
    ∃ t, s.ticket = some t ∧ t'.Indexed d ∧ ∀ place value, ¬ statusPlaces place →
      t.lookup place = some value → t'.lookup place = some value := by
  refine updateMerged_keeps _ ⟨by decide, by decide⟩ indexed copied (fun l key foreign => ?_) ran present
  simp only [List.mem_cons, not_or] at foreign
  exact noteSent_of_ne foreign.1 foreign.2.1 foreign.2.2.1

theorem remoteAccounting_keeps {status : Status} {copy : Job}
    (indexed : ∀ t, s.ticket = some t → t.Indexed d) (copied : copy.toTicket.Indexed d)
    (ran : s' ∈ s.remoteAccounting moment status copy) (present : s'.ticket = some t') :
    ∃ t, s.ticket = some t ∧ t'.Indexed d ∧ ∀ place value,
      ¬ Touch.Owns ⟨.prstatus :: .error :: .errorTime ::
        (match status with | .jhold => [.holdTime] | .jremove => [.removeTime] | _ => []), []⟩
        (fun _ => False) place →
      t.lookup place = some value → t'.lookup place = some value := by
  cases status with
  | jsucc =>
      obtain rfl := Option.some.inj ran
      exact ⟨t', present, indexed t' present, fun _ _ _ there => there⟩
  | jhold =>
      refine updateMerged_keeps _ ⟨by decide, by decide⟩ indexed copied (fun l key foreign => ?_) ran present
      simp only [List.mem_cons, not_or] at foreign
      exact Fields.setFlagValue_of_ne foreign.2.2.2.1 _
  | jremove =>
      refine updateMerged_keeps _ ⟨by decide, by decide⟩ indexed copied (fun l key foreign => ?_) ran present
      simp only [List.mem_cons, not_or] at foreign
      exact Fields.setFlagValue_of_ne foreign.2.2.2.1 _
  | _ =>
      refine updateMerged_keeps _ ⟨by simp, by simp⟩ indexed copied (fun l key foreign => ?_) ran present
      simp only [List.mem_cons, not_or] at foreign
      exact noteAccounting_of_ne foreign.2.1 foreign.2.2.1

/-! ## The server -/

/-- The fields `Job_printable` notes in every list. -/
def notedKeys : List Key := [.prstatus, .printable, .held]

theorem markDestination_lookup (around : Surroundings) {state : Job × Counts} {n : Nat}
    (indexed : state.1.toTicket.Indexed d) (below : n < d) (place : Place)
    (foreign : place.key ∉ notedKeys) :
    (markDestination around state n).1.toTicket.lookup place = state.1.toTicket.lookup place := by
  simp only [notedKeys, List.mem_cons, List.not_mem_nil, or_false, not_or] at foreign
  rcases place with ⟨_ | name, key⟩
  · change ((state.1.getDestination n).1.info) key = _
    rw [Job.getDestination_info]
    rfl
  · have number : ∀ text counts, ((state.1.toTicket.list (destName n)).noteStatus text
        counts).findFlagValue .destination = n := by
      intro text counts
      exact (Fields.findFlagValue_congr (Fields.noteStatus_of_ne (by decide) (by decide)
        (by decide))).trans (indexed.numbered n below)
    change (markDestination around state n).1.toTicket.list name key = state.1.toTicket.list name key
    have put : ∃ text counts, (markDestination around state n).1.dests =
        Function.update state.1.dests (destName n)
          (some ((state.1.toTicket.list (destName n)).noteStatus text counts)) := by
      refine ⟨(destinationStatus around (state.1.getDestination n).1.destination).1,
        state.2.add (destinationStatus around (state.1.getDestination n).1.destination).2, ?_⟩
      simp only [markDestination, Job.updateDestination, Job.setDestination_dests,
        Job.getDestination_dests, Job.setDestination_destination,
        JobAction.getDestination_destination, number]
    obtain ⟨text, counts, put⟩ := put
    rcases eq_or_ne name (destName n) with rfl | different
    · have noted : (markDestination around state n).1.toTicket.list (destName n) =
          (state.1.toTicket.list (destName n)).noteStatus text counts :=
        Ticket.list_of_dests (by rw [put, Function.update_self])
      rw [noted]
      exact Fields.noteStatus_of_ne foreign.1 foreign.2.1 foreign.2.2
    · have kept : (markDestination around state n).1.toTicket.list name =
          state.1.toTicket.list name := by
        rw [Ticket.list, put, Function.update_of_ne different]
        rfl
      rw [kept]

theorem foldl_markDestination_lookup (around : Surroundings) (ns : List Nat)
    (below : ∀ n ∈ ns, n < d) {state : Job × Counts} (indexed : state.1.toTicket.Indexed d)
    (place : Place) (foreign : place.key ∉ notedKeys) :
    (ns.foldl (markDestination around) state).1.toTicket.lookup place =
      state.1.toTicket.lookup place := by
  induction ns generalizing state with
  | nil => rfl
  | cons n ns ih =>
      have first := markDestination_lookup around indexed (below n List.mem_cons_self)
      have indexed' : (markDestination around state n).1.toTicket.Indexed d :=
        indexed.of_lookup fun place index => first place (by
          rcases index with key | key <;> rw [key] <;> decide)
      exact (ih (fun m member => below m (List.mem_cons_of_mem n member)) indexed').trans
        (first place foreign)

theorem jobPrintable_lookup (around : Surroundings) {job : Job} (indexed : job.toTicket.Indexed d)
    (place : Place) (foreign : place.key ∉ notedKeys) :
    (jobPrintable around job).1.toTicket.lookup place = job.toTicket.lookup place := by
  have noted : ∀ (job' : Job) text counts,
      (job'.setInfo (·.noteStatus text counts)).toTicket.lookup place = job'.toTicket.lookup place := by
    intro job' text counts
    simp only [notedKeys, List.mem_cons, List.not_mem_nil, or_false, not_or] at foreign
    rcases place with ⟨_ | name, key⟩
    · exact Fields.noteStatus_of_ne foreign.1 foreign.2.1 foreign.2.2
    · rfl
  rw [jobPrintable]
  split
  · exact noted ..
  · refine (noted ..).trans (foldl_markDestination_lookup around _ (fun n member => ?_) indexed
      place foreign)
    simpa [indexed.destinations] using member

/-- The places `Do_queue_jobs` sets when it marks a job. -/
abbrev markPlaces : Place → Prop :=
  Touch.Owns ⟨[.prstatus, .printable, .held, .newDest, .destination, .startTime],
    [.prstatus, .printable, .held]⟩ fun _ => True

theorem markJob_cases {around : Surroundings} {pid : Pid} {n : Option Nat}
    {newDest : Option Bytes} (ran : s' ∈ s.markJob config moment around pid n newDest) :
    s' = s ∨ ∃ t, s.ticket = some t ∧
      s' ∈ (s.mapJob fun _ => (noteNewDest newDest (jobPrintable around t.toJob).1).setInfo
        (markStarted moment pid n)).setJobTicketFile moment := by
  rw [markJob] at ran
  split at ran
  · exact Or.inl (Option.some.inj ran).symm
  · next t old =>
      by_cases marked : t.info.findFlagValue .server ≠ 0
      · rw [if_pos marked] at ran
        exact Or.inl (Option.some.inj ran).symm
      · rw [if_neg marked, startJob] at ran
        split at ran
        · cases ran
        · exact Or.inr ⟨t, old, ran⟩

theorem markStarted_of_ne {pid : Pid} {n : Option Nat} {l : Fields} {key : Key}
    (notDestination : key ≠ .destination) (notServer : key ≠ .server)
    (notStart : key ≠ .startTime) : markStarted moment pid n l key = l key := by
  cases n <;> simp [markStarted, notDestination, notServer, notStart]

theorem markJob_keeps {around : Surroundings} {pid : Pid} {n : Option Nat}
    {newDest : Option Bytes} (indexed : ∀ t, s.ticket = some t → t.Indexed d)
    (below : ∀ k ∈ n, k < d) (ran : s' ∈ s.markJob config moment around pid n newDest)
    (present : s'.ticket = some t') :
    ∃ t, s.ticket = some t ∧ t'.Indexed d ∧
      ∀ place, ¬ markPlaces place → t'.lookup place = t.lookup place := by
  rcases markJob_cases ran with rfl | ⟨t, old, wrote⟩
  · exact ⟨t', present, indexed t' present, fun _ _ => rfl⟩
  · obtain ⟨⟨ticket, image, lookup⟩, _⟩ := setJobTicketFile_lookup wrote
    obtain rfl := Option.some.inj (image.symm.trans present)
    have noted : ∀ place : Place, place.key ∉ notedKeys →
        (place.dest = none → place.key ≠ .newDest) →
        (noteNewDest newDest (jobPrintable around t.toJob).1).toTicket.lookup place =
          t.lookup place := by
      rintro ⟨dest, key⟩ foreign notNew
      have printable : (jobPrintable around t.toJob).1.toTicket.lookup ⟨dest, key⟩ =
          t.lookup ⟨dest, key⟩ := jobPrintable_lookup around (indexed t old) ⟨dest, key⟩ foreign
      rw [noteNewDest, ← printable]
      split
      · rfl
      · cases dest with
        | none => exact Fields.setStrValue_of_ne (notNew rfl) _
        | some name => rfl
    have free : ∀ place : Place, place.key = .destinations ∨ place.dest.isSome ∧
        place.key = .destination → ¬ markPlaces place := by
      rintro ⟨_ | name, key⟩ (rfl | ⟨named, rfl⟩) own
      · simp [Touch.Owns, Touch.stamped] at own
      · cases named
      · simp [Touch.Owns, Touch.stamped] at own
      · simp [Touch.Owns, Touch.stamped] at own
    have kept : ∀ place, ¬ markPlaces place → ticket.lookup place = t.lookup place := by
      rintro ⟨_ | name, key⟩ foreign
      · rw [lookup _ (Touch.owns_of_stamps foreign)]
        simp only [Touch.Owns, Touch.stamped, List.mem_cons, List.not_mem_nil, or_false,
          not_or] at foreign
        refine (markStarted_of_ne ?_ ?_ ?_).trans (noted ⟨none, key⟩ ?_ fun _ => ?_)
        all_goals simp [foreign, notedKeys]
      · rw [lookup _ (Touch.owns_of_stamps foreign)]
        simp only [Touch.Owns, Touch.stamped, List.mem_cons, List.not_mem_nil, or_false, true_and,
          not_or] at foreign
        exact noted ⟨some name, key⟩ (by simp [notedKeys, foreign]) fun named => by cases named
    refine ⟨t, old, ⟨?_, fun k inside => ?_, fun name at' => ?_⟩, kept⟩
    · exact (Fields.findFlagValue_congr (kept ⟨none, .destinations⟩ (free _ (Or.inl rfl)))).trans
        (indexed t old).destinations
    · exact (Fields.findFlagValue_congr (kept ⟨some (destName k), .destination⟩
        (free _ (Or.inr ⟨rfl, rfl⟩)))).trans ((indexed t old).numbered k inside)
    · have current := lookup ⟨none, .destination⟩ (by simp [Touch.Owns, Touch.stamped])
      cases n with
      | none =>
          have same : (markStarted moment pid none
              (noteNewDest newDest (jobPrintable around t.toJob).1).info) .destination =
              t.info .destination :=
            ((Fields.setFlagValue_of_ne (by decide) _).trans
              (Fields.setDecimalValue_of_ne (by decide) _)).trans
              (noted ⟨none, .destination⟩ (by decide) fun _ => by decide)
          exact (indexed t old).current name (same.symm.trans (current.symm.trans at'))
      | some n =>
          refine ⟨n, below n rfl, ?_⟩
          have set : (markStarted moment pid (some n)
              (noteNewDest newDest (jobPrintable around t.toJob).1).info) .destination =
              some (destName n) := by
            simp [markStarted, destName, lit]
          exact Option.some.inj ((at'.symm.trans current).trans set)

theorem outcomeTouch_indexFree (status : Status) (job : Job) :
    (outcomeTouch config moment status job).IndexFree := by
  have outside : ∀ key ∉ outcomeKeys, key ∉ (outcomeTouch config moment status job).info ++
      (outcomeTouch config moment status job).dest := by
    intro key foreign member
    obtain ⟨info, dest⟩ := outcomeTouch_outside config moment status job foreign
    simp only [Touch.stamped, List.mem_cons, not_or] at info dest
    exact (List.mem_append.mp member).elim info.2.2.2 dest.2
  exact ⟨outside _ (by decide), outside _ (by decide)⟩

/-- The current destination of an indexed job goes back to its own field. -/
theorem currentHand_of_indexed {t : Ticket} (indexed : t.Indexed d) {name : Bytes} {l : Fields}
    (hand : t.toJob.currentHand = some (name, l)) :
    t.info .destination = some name ∧ t.list name = l := by
  obtain ⟨destination, routed, pair⟩ := Option.map_eq_some_iff.mp hand
  obtain ⟨rfl, rfl⟩ := Prod.mk.inj pair
  rw [Job.currentDestination] at routed
  split at routed
  · cases routed
  · obtain ⟨at', current, there⟩ := Option.bind_eq_some_iff.mp routed
    obtain ⟨k, below, rfl⟩ := indexed.current at' current
    have listed : t.list (destName k) = destination := Ticket.list_of_dests there
    have number := indexed.numbered k below
    rw [listed] at number
    rw [number]
    exact ⟨current, listed⟩

/-- The outcome of a job changes the places of its case, in the job and in its current
destination. -/
theorem waitForSubserver_keeps {status : Status} (indexed : ∀ t, s.ticket = some t → t.Indexed d)
    (ran : s' ∈ s.waitForSubserver config moment status) (present : s'.ticket = some t') :
    ∃ t, s.ticket = some t ∧ t'.Indexed d ∧ ∀ place,
      ¬ (outcomeTouch config moment status t.toJob).Owns
        (fun name => t.info .destination = some name) place →
      t'.lookup place = t.lookup place := by
  rw [waitForSubserver] at ran
  split at ran
  · next gone =>
      obtain rfl := Option.some.inj ran
      cases gone.symm.trans present
  · next t old =>
      have kept : ∀ place, ¬ (outcomeTouch config moment status t.toJob).Owns
          (fun name => t.info .destination = some name) place →
          t'.lookup place = t.lookup place := by
        rcases updateStatus_frame ran t' present with same | agrees
        · obtain rfl := Option.some.inj (old.symm.trans same)
          exact fun _ _ => rfl
        · rintro ⟨_ | name, key⟩ foreign
          · exact agrees.info key foreign
          · change t'.list name key = t.list name key
            rcases agrees.dests name with same | ⟨l, l', hand, put, kept⟩
            · rw [Ticket.list, same]
              rfl
            · obtain ⟨current, listed⟩ := currentHand_of_indexed (indexed t old) hand
              rw [listed, Ticket.list_of_dests put]
              exact kept key fun member => foreign ⟨current, member⟩
      exact ⟨t, old, (indexed t old).of_lookup fun place index =>
        kept place ((outcomeTouch_indexFree status t.toJob).not_owns index), kept⟩

end Server

/-! ## Runs -/

namespace TicketLife

/-- The promises are kept, the commands clear nothing but errors, and the ticket and the
copy of the worker are indexed. -/
structure Invariant (d : Nat) (s : TicketLife) : Prop where
  kept : ∀ t, s.server.ticket = some t → s.promises.Kept t.lookup
  cleared : ∀ place, s.promises place none → place = ⟨none, .error⟩
  indexed : ∀ t, s.server.ticket = some t → t.Indexed d
  copied : ∀ copy, s.worker = some copy → copy.toTicket.Indexed d

/-- When `Local_job` writes its copy, the copy agrees with the ticket outside the fields
`Local_job` sets. -/
def Meets (s : TicketLife) : TicketEvent → Prop
  | .localAccounting _ status => Server.writesAccounting status = true →
      ∀ copy, s.worker = some copy → ∀ t, s.server.ticket = some t →
        ∀ place, ¬ Server.statusPlaces place → copy.toTicket.lookup place = t.lookup place
  | _ => True

variable {config : Config} {d : Nat} {s : TicketLife} {e : TicketEvent} {server : Server}
  {worker : Option Job}

theorem onDisk_some {t : Ticket} (present : server.ticket = some t) : server.onDisk = t.lookup := by
  funext place
  rw [Server.onDisk, present, Option.bind_some]

/-- A step that sets nothing for others and keeps what is promised outside its places. -/
theorem Invariant.afterStep (invariant : s.Invariant d) (sets : ∀ place, ¬ e.Sets s.server.ticket place)
    (copied : ∀ copy, worker = some copy → copy.toTicket.Indexed d)
    (keeps : ∀ t', server.ticket = some t' → ∃ t, s.server.ticket = some t ∧ t'.Indexed d ∧
      ∀ place value, s.promises place value → ¬ e.Owns config s.server.ticket place →
        t.lookup place = value → t'.lookup place = value) :
    Invariant d ⟨server, worker, s.promises.afterWrite (e.Sets s.server.ticket)
      (e.Owns config s.server.ticket) server.onDisk⟩ := by
  refine ⟨fun t' present => ?_, fun place promised => ?_, fun t' present => ?_, copied⟩
  · obtain ⟨t, old, _, kept⟩ := keeps t' present
    rw [onDisk_some present]
    exact Promises.kept_afterWrite fun place value _ foreign promised =>
      kept place value promised foreign (invariant.kept t old place value promised)
  · rcases promised with ⟨set, _⟩ | ⟨_, _, promised⟩
    · exact absurd set (sets place)
    · exact invariant.cleared place promised
  · obtain ⟨_, _, indexed, _⟩ := keeps t' present
    exact indexed

/-- A step that agrees with the ticket outside its places. -/
theorem Invariant.afterAgreeing (invariant : s.Invariant d)
    (sets : ∀ place, ¬ e.Sets s.server.ticket place)
    (copied : ∀ copy, worker = some copy → copy.toTicket.Indexed d)
    (keeps : ∀ t', server.ticket = some t' → ∃ t, s.server.ticket = some t ∧ t'.Indexed d ∧
      ∀ place, ¬ e.Owns config s.server.ticket place → t'.lookup place = t.lookup place) :
    Invariant d ⟨server, worker, s.promises.afterWrite (e.Sets s.server.ticket)
      (e.Owns config s.server.ticket) server.onDisk⟩ := by
  refine invariant.afterStep sets copied fun t' present => ?_
  obtain ⟨t, old, indexed, agrees⟩ := keeps t' present
  exact ⟨t, old, indexed, fun place value _ foreign there => (agrees place foreign).trans there⟩

/-- A step of `Remote_job`, which owns the error of the job. -/
theorem Invariant.afterMerge (invariant : s.Invariant d)
    (sets : ∀ place, ¬ e.Sets s.server.ticket place)
    (copied : ∀ copy, worker = some copy → copy.toTicket.Indexed d)
    (error : e.Owns config s.server.ticket ⟨none, .error⟩)
    (keeps : ∀ t', server.ticket = some t' → ∃ t, s.server.ticket = some t ∧ t'.Indexed d ∧
      ∀ place value, ¬ e.Owns config s.server.ticket place → t.lookup place = some value →
        t'.lookup place = some value) :
    Invariant d ⟨server, worker, s.promises.afterWrite (e.Sets s.server.ticket)
      (e.Owns config s.server.ticket) server.onDisk⟩ := by
  refine invariant.afterStep sets copied fun t' present => ?_
  obtain ⟨t, old, indexed, kept⟩ := keeps t' present
  refine ⟨t, old, indexed, fun place value promised foreign there => ?_⟩
  cases value with
  | none => exact absurd (invariant.cleared place promised ▸ error) foreign
  | some value => exact kept place value foreign there

theorem lpc_invariant (invariant : s.Invariant d) {moment : Moment} {action : JobAction}
    {selected : Option Nat} (below : ∀ n ∈ selected, n < d)
    (ran : server ∈ s.server.doJobTicketFile moment action selected) :
    Invariant d ⟨server, s.worker, s.promises.afterWrite
      ((TicketEvent.lpc moment action selected).Sets s.server.ticket)
      ((TicketEvent.lpc moment action selected).Owns config s.server.ticket) server.onDisk⟩ := by
  cases old : s.server.ticket with
  | none =>
      simp only [Server.doJobTicketFile, old] at ran
      obtain rfl := Option.some.inj ran
      have gone : ∀ t', s.server.ticket ≠ some t' := by simp [old]
      refine ⟨fun t' present => absurd present (gone t'), ?_,
        fun t' present => absurd present (gone t'), invariant.copied⟩
      rintro place (⟨⟨⟨t, present, _⟩, _⟩, _⟩ | ⟨_, _, promised⟩)
      · cases present
      · exact invariant.cleared place promised
  | some t =>
      obtain ⟨t', present, indexed, cleared, agrees⟩ :=
        Server.doJobTicketFile_keeps old (invariant.indexed t old) below ran
      have kept : (s.promises.afterWrite
          ((TicketEvent.lpc moment action selected).Sets (some t))
          ((TicketEvent.lpc moment action selected).Owns config (some t)) t'.lookup).Kept
            t'.lookup := by
        refine (invariant.kept t old).afterWrite fun place unset foreign => ?_
        exact agrees place (fun set => unset ⟨⟨t, rfl, set.1⟩, set.2⟩) foreign
      refine ⟨fun t'' present' => ?_, ?_, fun t'' present' => ?_, invariant.copied⟩
      · obtain rfl := Option.some.inj (present.symm.trans present')
        rw [onDisk_some present]
        exact kept
      · rintro place (⟨⟨⟨t'', same, selectable⟩, set⟩, missing⟩ | ⟨_, _, promised⟩)
        · obtain rfl := Option.some.inj same
          rw [onDisk_some present] at missing
          exact cleared selectable place set missing.symm
        · exact invariant.cleared place promised
      · obtain rfl := Option.some.inj (present.symm.trans present')
        exact indexed

theorem next_invariant (invariant : s.Invariant d) (meets : s.Meets e) {s' : TicketLife}
    (step : s.next config d e = some s') : s'.Invariant d := by
  obtain ⟨⟨server, worker⟩, acted, rfl⟩ := Option.map_eq_some_iff.mp step
  cases e with
  | lpc moment action selected =>
      simp only [act] at acted
      split at acted
      · next below =>
          obtain ⟨_, ran, pair⟩ := Option.map_eq_some_iff.mp acted
          obtain ⟨rfl, rfl⟩ := Prod.mk.inj pair
          exact lpc_invariant invariant below ran
      · cases acted
  | mark moment around pid n newDest =>
      simp only [act] at acted
      split at acted
      · next below =>
          obtain ⟨_, ran, pair⟩ := Option.map_eq_some_iff.mp acted
          obtain ⟨rfl, rfl⟩ := Prod.mk.inj pair
          exact invariant.afterAgreeing (fun _ => id) invariant.copied fun t' =>
            Server.markJob_keeps invariant.indexed below ran
      · cases acted
  | takeOver moment pid newDest moveDest =>
      obtain ⟨copied, keeps⟩ := Server.takeOver_keeps invariant.indexed acted
      exact invariant.afterAgreeing (fun _ => id) copied keeps
  | localAccounting moment status =>
      obtain ⟨copy, taken, mapped⟩ := Option.bind_eq_some_iff.mp acted
      obtain ⟨_, ran, pair⟩ := Option.map_eq_some_iff.mp mapped
      obtain ⟨rfl, rfl⟩ := Prod.mk.inj pair
      exact invariant.afterAgreeing (fun _ => id) (taken ▸ invariant.copied) fun t' =>
        Server.localAccounting_keeps invariant.indexed
          (fun writes t old => meets writes copy taken t old) ran
  | remoteAccounting moment status =>
      obtain ⟨copy, taken, mapped⟩ := Option.bind_eq_some_iff.mp acted
      obtain ⟨_, ran, pair⟩ := Option.map_eq_some_iff.mp mapped
      obtain ⟨rfl, rfl⟩ := Prod.mk.inj pair
      exact invariant.afterMerge (fun _ => id) (taken ▸ invariant.copied)
        (by simp [TicketEvent.Owns, Touch.Owns, Touch.stamped]) fun t' =>
          Server.remoteAccounting_keeps invariant.indexed (invariant.copied copy taken) ran
  | remoteDone moment sent id copyHasError =>
      obtain ⟨copy, taken, mapped⟩ := Option.bind_eq_some_iff.mp acted
      obtain ⟨_, ran, pair⟩ := Option.map_eq_some_iff.mp mapped
      obtain ⟨rfl, rfl⟩ := Prod.mk.inj pair
      exact invariant.afterMerge (fun _ => False.elim) (taken ▸ invariant.copied)
        (by simp [TicketEvent.Owns, Touch.Owns, Touch.stamped]) fun t' =>
          Server.remoteDone_keeps invariant.indexed (invariant.copied copy taken) ran
  | exit moment status =>
      obtain ⟨_, ran, pair⟩ := Option.map_eq_some_iff.mp acted
      obtain ⟨rfl, rfl⟩ := Prod.mk.inj pair
      refine invariant.afterAgreeing (fun _ => id) (fun _ none_ => by cases none_)
        fun t' present => ?_
      obtain ⟨t, old, indexed, kept⟩ :=
        Server.waitForSubserver_keeps invariant.indexed ran present
      exact ⟨t, old, indexed, fun place foreign => kept place fun own => foreign ⟨t, old, own⟩⟩

/-- In every run in which `Local_job` never writes an outdated copy, what a command has set
stays in the ticket until a step whose own task is to set it. -/
theorem promises_kept (reached : (ticketLife config d).Reachable Meets s) {t : Ticket}
    (present : s.server.ticket = some t) : s.promises.Kept t.lookup := by
  have invariant : s.Invariant d := by
    refine reached.invariant (fun s fresh => ?_) fun _ _ _ invariant meets step =>
      next_invariant invariant meets step
    obtain ⟨indexed, idle, promises⟩ := fresh
    refine ⟨fun _ _ => ?_, fun place promised => ?_, indexed, fun copy taken => ?_⟩
    · rw [promises]
      exact fun _ _ impossible => impossible.elim
    · rw [promises] at promised
      exact promised.elim
    · cases idle.symm.trans taken
  exact invariant.kept t present

/-! ## Two runs -/

/-- A job at its only destination, before its worker has taken it over. -/
def printingLife : TicketLife where
  server := Server.printingServer
  worker := none
  promises := fun _ _ => False

theorem printingLife_fresh : printingLife.Fresh 1 := by
  refine ⟨fun t present => ?_, rfl, rfl⟩
  obtain rfl := Option.some.inj present
  refine ⟨by decide, fun k below => ?_, fun name at' => ⟨0, by decide, ?_⟩⟩
  · obtain rfl : k = 0 := by omega
    rfl
  · exact (Option.some.inj at').symm

def takeOverEvent : TicketEvent :=
  .takeOver Server.someMoment ⟨4712, by decide, by decide⟩ none none

def holdEvent : TicketEvent := .lpc Server.someMoment .hold none

/-- The job is held while its worker runs, and stays held. -/
theorem promises_kept_hold : ∃ s : TicketLife, ∃ t, s.server.ticket = some t ∧
    t.lookup ⟨none, .holdTime⟩ = some (printHex 1) := by
  obtain ⟨s₁, taken⟩ : ∃ s₁, next Server.plainConfig 1 printingLife takeOverEvent = some s₁ :=
    ⟨_, rfl⟩
  obtain ⟨s₂, held⟩ : ∃ s₂, next Server.plainConfig 1 s₁ holdEvent = some s₂ := by
    obtain rfl := Option.some.inj taken
    exact ⟨_, rfl⟩
  have first : printingLife.Meets takeOverEvent := trivial
  have second : s₁.Meets holdEvent := trivial
  have reached : (ticketLife Server.plainConfig 1).Reachable Meets s₂ :=
    .step (.step (.init printingLife_fresh) first taken) second held
  have kept : ∀ t, s₂.server.ticket = some t → s₂.promises.Kept t.lookup :=
    fun _ present => promises_kept reached present
  refine ⟨s₂, ?_⟩
  obtain rfl := Option.some.inj taken
  obtain rfl := Option.some.inj held
  refine ⟨_, rfl, kept _ rfl ⟨none, .holdTime⟩ _ (Or.inl ⟨⟨⟨_, rfl, ?_⟩, ?_⟩, rfl⟩)⟩
  · exact ⟨by decide, by decide⟩
  · show Key.holdTime ∈ JobAction.hold.sets
    decide

/-- The job is held while its worker runs; the accounting check fails, and the worker writes
the job back as it was before. -/
theorem hold_lost : ¬ ∀ (config : Config) (d : Nat) (s : TicketLife),
    (ticketLife config d).Reachable (fun _ _ => True) s →
    ∀ t, s.server.ticket = some t → s.promises.Kept t.lookup := by
  intro claimed
  obtain ⟨s₁, taken⟩ : ∃ s₁, next Server.plainConfig 1 printingLife takeOverEvent = some s₁ :=
    ⟨_, rfl⟩
  obtain ⟨s₂, held⟩ : ∃ s₂, next Server.plainConfig 1 s₁ holdEvent = some s₂ := by
    obtain rfl := Option.some.inj taken
    exact ⟨_, rfl⟩
  obtain ⟨s₃, written⟩ : ∃ s₃, next Server.plainConfig 1 s₂
      (.localAccounting Server.someMoment .jabort) = some s₃ := by
    obtain rfl := Option.some.inj taken
    obtain rfl := Option.some.inj held
    exact ⟨_, rfl⟩
  have kept := claimed Server.plainConfig 1 s₃
    (.step (.step (.step (.init printingLife_fresh) trivial taken) trivial held) trivial written)
  obtain rfl := Option.some.inj taken
  obtain rfl := Option.some.inj held
  obtain rfl := Option.some.inj written
  have set : JobAction.hold.Sets none ⟨none, .holdTime⟩ := by
    show Key.holdTime ∈ JobAction.hold.sets
    decide
  have foreign : ¬ Server.statusPlaces ⟨none, .holdTime⟩ := by
    show Key.holdTime ∉ _
    decide
  have lost : none = some (printHex 1) := kept _ rfl ⟨none, .holdTime⟩ _
    (Or.inr ⟨id, foreign, Or.inl ⟨⟨⟨_, rfl, ⟨by decide, by decide⟩⟩, set⟩, rfl⟩⟩)
  cases lost

end TicketLife

end LPRng
