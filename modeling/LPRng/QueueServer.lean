import LPRng.Routing
import LPRng.Transition

/-!
# The queue server

The main loop of `Do_queue_jobs`: it clears the marks a former server has left, looks for
a job it can serve, marks its ticket as active and starts a worker for it, moves it to
another queue, or moves it to the queue of a subserver; and it waits for its children and
records how they ended. What the outside world contributes to one pass of the loop comes
in a `Pass`.
-/

namespace LPRng

/-- The ticket file of this name holds the ticket. -/
def Ticket.Names (ticket : Ticket) (name : Bytes) : Prop :=
  name ≠ [] ∧ ticket.info .hfName = some name

/-- The spool directory of a queue with the server's control information. -/
structure Spool where
  tickets : Bytes → Option Ticket
  files : Bytes → Bool
  spoolControl : Fields
  queueControlFile : Fields
  doneCount : Nat
  doneTime : Nat

namespace Spool

/-- One job of the queue, with its ticket file open. -/
def openJob (spool : Spool) (name : Bytes) (job : Job) : Server where
  job := job
  ticket := spool.tickets name
  files := spool.files
  spoolControl := spool.spoolControl
  queueControlFile := spool.queueControlFile
  doneCount := spool.doneCount
  doneTime := spool.doneTime

def closeJob (spool : Spool) (name : Bytes) (s : Server) : Spool where
  tickets := Function.update spool.tickets name s.ticket
  files := s.files
  spoolControl := s.spoolControl
  queueControlFile := s.queueControlFile
  doneCount := s.doneCount
  doneTime := s.doneTime

variable {spool : Spool} {name other : Bytes} {s : Server}

@[simp] theorem openJob_ticket {job : Job} :
    (spool.openJob name job).ticket = spool.tickets name := rfl

@[simp] theorem openJob_job {job : Job} : (spool.openJob name job).job = job := rfl

@[simp] theorem closeJob_tickets_self : (spool.closeJob name s).tickets name = s.ticket :=
  Function.update_self ..

@[simp] theorem closeJob_tickets_of_ne (different : other ≠ name) :
    (spool.closeJob name s).tickets other = spool.tickets other :=
  Function.update_of_ne different ..

end Spool

/-- A queue server: `servers.list[0]`, which stands for the queue itself, the subservers
behind it, and the children it has not waited for yet. It is `looping` once the start of
`Do_queue_jobs` is behind it. -/
structure QueueServer where
  spool : Spool
  master : Fields
  subservers : List Fields
  running : List Pid
  looping : Bool

/-- What is fixed for a queue server; it `balances` when the queue has subservers. -/
structure QueueSetup where
  printer : Bytes
  config : Config
  balances : Bool
  chooser : Bool

/-- What a chooser comes back with. -/
inductive ChooserAnswer where
  | nothing
  | status (status : Status)
  | printer (index : Nat)
  | route (dest : Bytes)

/-- What the outside world contributes when the loop comes to a job: the clock, the
processes and classes, the server's own process number, whether the job is refused, what
the chooser says, how a fork, the setup of another printer and the copying of a job end,
and what a worker that is waited for leaves of the ticket. -/
structure Pass where
  moment : Moment
  around : Surroundings
  serverHolds : Fields → Fields → Bool
  self : Pid
  refusal : Option Bytes
  chooser : ChooserAnswer
  fork : Option Pid
  setupError : Option Bytes
  moveError : Option (Option Bytes)
  left : Option Ticket
  exit : Status

/-! ## The start of `Do_queue_jobs` -/

namespace Server

/-- The mark of the job, cleared; the second component says whether there is anything to
write. -/
def cleanMark (job : Job) : Job × Bool :=
  if job.info.findFlagValue .server ≠ 0 then (job.setInfo (·.setDecimalValue .server 0), true)
  else (job, false)

/-- The destination a routed job was at, forgotten. -/
def cleanCurrent (state : Job × Bool) : Job × Bool :=
  if state.1.info.findStrValue .destination ≠ none then
    (state.1.setInfo (·.setStrValue .destination none), true)
  else state

/-- The mark of one destination, cleared. -/
def cleanDestination (state : Job × Bool) (n : Nat) : Job × Bool :=
  let job := (state.1.getDestination n).1
  if job.destination.findFlagValue .server ≠ 0 then
    ((job.setDestination (·.setDecimalValue .server 0)).updateDestination, true)
  else (job, state.2)

/-- What a former server has left in a job, cleared. -/
def cleanJob (job : Job) : Job × Bool :=
  let state := cleanMark job
  let destinations := state.1.info.findFlagValue .destinations
  if destinations = 0 then state
  else (List.range destinations.toNat).foldl cleanDestination (cleanCurrent state)

end Server

/-- The jobs `Scan_queue` lists for a queue server. -/
def listed (around : Surroundings) (ticket : Ticket) : Bool :=
  let counts := (jobPrintable around ticket.toJob).2
  counts.printable ≠ 0 || counts.move ≠ 0 || counts.error ≠ 0 || counts.done ≠ 0

/-- A ticket after the start of the server. -/
def startTicket (moment : Moment) (around : Surroundings) (ticket : Ticket) : Ticket :=
  if listed around ticket then
    let cleaned := Server.cleanJob ticket.toJob
    if cleaned.2 then
      (cleaned.1.setInfo (·.setStrValue .updateTime moment.timeStr)).ticketImage
    else ticket
  else ticket

/-! ## Servers -/

/-- `Fork_subserver`, as far as the entry of the server goes. -/
def forkSubserver (fork : Option Pid) (sp : Fields) : Fields :=
  let sp := (sp.setStrValue .prstatus none).setDecimalValue .server 0
  match fork with
  | some pid => sp.setDecimalValue .server pid.val
  | none => sp

/-- `Update_spool_info`: the entry keeps who it is and what it does, and takes the rest
from the control file. -/
def updateSpoolInfo (file sp : Fields) : Fields := fun key =>
  if key = .spooldir ∨ key = .printer ∨ key = .queueControlFile ∨ key = .hfName ∨
      key = .identifier ∨ key = .server ∨ key = .doneTime then (sp key).or (file key)
  else file key

/-- `cmp_server`. -/
def sortServers (servers : List Fields) : List Fields :=
  servers.mergeSort fun l r => l.findFlagValue .doneTime ≤ r.findFlagValue .doneTime

namespace QueueServer

def servers (q : QueueServer) : List Fields := q.master :: q.subservers

/-- The number of servers at work. -/
def working (q : QueueServer) : Nat :=
  (q.servers.filter fun sp => sp.findFlagValue .server ≠ 0).length

def usable (pass : Pass) (info sp : Fields) : Bool :=
  sp.findFlagValue .printingDisabled = 0 && sp.findFlagValue .printingAborted = 0 &&
    sp.findFlagValue .spoolingDisabled = 0 && sp.findFlagValue .server = 0 &&
    !pass.serverHolds info sp

/-- The servers a job can go to now. A queue with subservers prints nothing itself. -/
def candidates (setup : QueueSetup) (pass : Pass) (info : Fields) (q : QueueServer) : List Nat :=
  (List.range q.servers.length).filter fun i =>
    (if setup.balances then 1 else 0) ≤ i && (q.servers[i]?).any (usable pass info)

/-! ## What to do with a job -/

/-- What a job is started for. -/
inductive Task where
  | worker (newDest : Option Bytes)
  | subserver (index : Nat)
  | move (dest : Bytes)

/-- What the loop does with a job. -/
inductive Plan where
  | pass
  | die
  | refuse (text : Bytes)
  | record (status : Status)
  | start (n : Option Nat) (task : Task)

def Task.at : Nat → Task
  | 0 => worker none
  | index => subserver index

/-- The choice of a server for a job that is to be printed. -/
def assign (setup : QueueSetup) (pass : Pass) (n : Option Nat) (info : Fields)
    (q : QueueServer) : Plan :=
  let candidates := q.candidates setup pass info
  if ¬ setup.chooser then
    match candidates.head? with
    | some i => .start n (.at i)
    | none => .pass
  else if q.working ≠ 0 ∧ ¬ setup.balances then .pass
  else if q.servers.length > 1 ∧ candidates = [] then .pass
  else match pass.chooser with
    | .nothing | .status .jsucc | .status .jfail => .pass
    | .status .jabort => .die
    | .status status => .record status
    | .printer i => if i ∈ candidates then .start n (.at i) else .pass
    | .route dest => .start n (.worker dest)

/-- The destination of the job that is to be served, if it has any, and where the job is
to be moved. -/
inductive Target where
  | wait
  | allDone
  | serve (n : Option Nat) (moveDest : Option Bytes)

def target (s : Server) : Target :=
  if s.job.info.findFlagValue .destinations = 0 then
    .serve none ((s.job.info.findStrValue .move).or (s.spoolControl.findStrValue .forwarding))
  else match chooseDestination s.printingEnabled s.job with
    | .wait => .wait
    | .allDone => .allDone
    | .serve n => .serve n ((s.job.getDestination n).1.destination.findStrValue .move)

def plan (setup : QueueSetup) (pass : Pass) (counts : Counts) (s : Server) (q : QueueServer) :
    Plan :=
  if ¬ s.processable counts then .pass
  else match pass.refusal with
    | some text => .refuse text
    | none =>
        match target s with
        | .wait => .pass
        | .allDone => .record .jsucc
        | .serve n (some dest) => .start n (.move dest)
        | .serve n none =>
            if s.printingEnabled ∧ counts.printable ≠ 0 then q.assign setup pass n s.job.info
            else .pass

/-! ## Doing it -/

def closeJob (name : Bytes) (s : Server) (q : QueueServer) : QueueServer :=
  { q with spool := q.spool.closeJob name s }

variable (setup : QueueSetup) (pass : Pass) (name : Bytes)

/-- `Move_job`, as far as the old queue goes. -/
def moveJob (s : Server) : Option Server :=
  match pass.moveError with
  | none => s.updateStatus setup.config pass.moment .jsucc
  | some text =>
      (s.mapJob (·.setInfo fun info =>
          (match text with
            | some text => info.setStrValue .error (some text)
            | none => info).setNzFlagValue .errorTime pass.moment.now.val)).updateStatus
        setup.config pass.moment .jfail

/-- A worker for the job, started as `servers.list[0]`. -/
def startWorker (s : Server) (q : QueueServer) : QueueServer :=
  let sp := (q.master.setStrValue .hfName (s.job.info.findStrValue .hfName)).setStrValue
    .identifier (s.job.info.findStrValue .identifier)
  let forked := forkSubserver pass.fork sp
  { q.closeJob name s with
    master := if pass.fork.isSome then forked
      else (forked.setStrValue .hfName none).setStrValue .identifier none
    running := pass.fork.toList ++ q.running }

/-- A subserver that gets the job into its own queue. -/
def startSubserver (index : Nat) (s : Server) (q : QueueServer) : Option QueueServer :=
  (moveJob setup pass s).map fun moved =>
    if pass.moveError.isSome then q.closeJob name moved
    else
      { q.closeJob name moved with
        subservers := q.subservers.modify (index - 1) fun sp =>
          forkSubserver pass.fork
            (sp.setStrValue .identifier (s.job.info.findStrValue .identifier))
        running := pass.fork.toList ++ q.running }

/-- A worker that sends the job to another host, and is waited for. The entry of the
queue is put back afterwards. -/
def sendAway (s : Server) (q : QueueServer) : Option QueueServer :=
  match pass.fork with
  | none => some (q.closeJob name s)
  | some _ =>
      match pass.left with
      | none => some (q.closeJob name { s with ticket := none })
      | some ticket =>
          (({ s with job := ticket.toJob, ticket := some ticket } : Server).updateStatus
            setup.config pass.moment pass.exit).map fun s =>
              q.closeJob name { s with spoolControl := s.queueControlFile }

/-- An error of the job itself, written. -/
def failStart (text : Bytes) (s : Server) : Option Server :=
  (s.mapJob (·.setInfo fun info => (info.setStrValue .error (some text)).setNzFlagValue .errorTime
    pass.moment.now.val)).setJobTicketFile pass.moment

/-- A job that goes to another queue. -/
def moveAway (dest : Bytes) (s : Server) (q : QueueServer) : Option QueueServer :=
  if 64 ∈ dest then sendAway setup pass name s q
  else match pass.setupError with
    | some message =>
        (failStart pass (lit "dest '" ++ dest ++ lit "' setup failed - " ++ message ++ lit "'")
          s).map (q.closeJob name)
    | none =>
        if dest = setup.printer then
          (failStart pass (lit "loop moving '" ++ dest ++ lit "' to '" ++ setup.printer ++ lit "'")
            s).map (q.closeJob name)
        else (moveJob setup pass s).map (q.closeJob name)

/-- A job refused for good. -/
def refuse (text : Bytes) (s : Server) (q : QueueServer) : Option QueueServer :=
  (failStart pass text s).map fun s =>
    q.closeJob name (if setup.config.keepsErrors then s else s.removeJob)

/-- The job as its ticket is marked: the chooser may have named another printer. -/
def Task.prepare : Task → Server → Server
  | worker (some dest), s => s.mapJob (·.setInfo (·.setStrValue .newDest (some dest)))
  | _, s => s

def Task.run (task : Task) (s : Server) (q : QueueServer) : Option QueueServer :=
  match task with
  | worker _ => some (startWorker pass name s q)
  | subserver index => startSubserver setup pass name index s q
  | move dest => moveAway setup pass name dest s q

def carryOut (s : Server) (q : QueueServer) : Plan → Option QueueServer
  | .pass => some q
  | .die => none
  | .refuse text => refuse setup pass name text s q
  | .record status =>
      (s.updateStatus setup.config pass.moment status).map (q.closeJob name)
  | .start n task =>
      ((task.prepare s).startJob setup.config pass.moment pass.self n).bind fun s =>
        task.run setup pass name s q

/-- The job as the loop has it in hand, and the plan for it. A job that is marked is
passed over. -/
def planFor (ticket : Ticket) (q : QueueServer) : Server × Plan :=
  let printable := jobPrintable pass.around ticket.toJob
  let s := q.spool.openJob name printable.1
  (s, if ticket.info.findFlagValue .server ≠ 0 then .pass else q.plan setup pass printable.2 s)

/-- The main loop comes to the job in the ticket file `name`. -/
def serveJob (q : QueueServer) : Option QueueServer :=
  match q.spool.tickets name with
  | none => some q
  | some ticket =>
      carryOut setup pass name (q.planFor setup pass name ticket).1 q
        (q.planFor setup pass name ticket).2

/-! ## Waiting for a child -/

/-- A server entry whose process has ended, and the job it served. -/
def settleServer (moment : Moment) (status : Status) (sp : Fields) (spool : Spool) :
    Option (Fields × Spool) :=
  let sp := (sp.setDecimalValue .server 0).setFlagValue .doneTime moment.now.val
  match sp.findStrValue .hfName with
  | none => some (sp, spool)
  | some name =>
      match spool.tickets name with
      | none => some (sp, spool)
      | some ticket =>
          ((spool.openJob name ticket.toJob).updateStatus setup.config moment status).map fun s =>
            (updateSpoolInfo s.queueControlFile
              ((sp.setStrValue .hfName none).setStrValue .identifier none), spool.closeJob name s)

/-- `Wait_for_subserver` collects the child `pid`. -/
def collect (moment : Moment) (status : Status) (pid : Pid) (q : QueueServer) :
    Option QueueServer :=
  let q := { q with running := q.running.erase pid }
  if q.master.findFlagValue .server = (pid.val : Int) then
    (settleServer setup moment status q.master q.spool).map fun settled =>
      { q with
        master := settled.1
        spool := { settled.2 with spoolControl := settled.2.queueControlFile }
        subservers := sortServers q.subservers }
  else
    match q.subservers.findIdx? fun sp => sp.findFlagValue .server = (pid.val : Int) with
    | none => some { q with subservers := sortServers q.subservers }
    | some i =>
        (settleServer setup moment status (q.subservers.getD i .empty) q.spool).map fun settled =>
          { q with
            spool := settled.2
            subservers := sortServers (q.subservers.set i settled.1) }

/-! ## Runs -/

/-- What can happen to a queue server. `write` stands for every other process: lpc, lpr,
lprm and the worker of a job. -/
inductive Event where
  | start (moment : Moment) (around : Surroundings)
  | serve (name : Bytes) (pass : Pass)
  | collect (pid : Pid) (moment : Moment) (status : Status)
  | subserver (index : Nat) (fork : Option Pid)
  | rescan (file : Fields) (files : Fields → Fields)
  | write (name : Bytes) (ticket : Option Ticket)

/-- The process recorded in a server entry is running for the job. -/
def RunsFor (q : QueueServer) (name : Bytes) (sp : Fields) : Prop :=
  sp.findStrValue .hfName = some name ∧ ∃ pid ∈ q.running, sp.findFlagValue .server = pid.val

/-- What another process may write: a ticket under its own name. It is marked only if it
was marked before, or the process is the worker of the job. -/
def MayWrite (q : QueueServer) (name : Bytes) (ticket : Ticket) : Prop :=
  ticket.Names name ∧
    (ticket.info.findFlagValue .server ≠ 0 → ticket.info .identifier ≠ none ∧
      (q.RunsFor name q.master ∨
        ∃ old, q.spool.tickets name = some old ∧ old.info.findFlagValue .server ≠ 0))

/-- The steps of a queue server. A fork yields a process number no child has, and a worker
that is waited for leaves the ticket its names. -/
inductive Step (setup : QueueSetup) : QueueServer → Event → QueueServer → Prop
  | start {q : QueueServer} {moment : Moment} {around : Surroundings} :
      q.looping = false →
      Step setup q (.start moment around)
        { q with
          spool := { q.spool with
            tickets := fun name => (q.spool.tickets name).map (startTicket moment around) }
          looping := true }
  | serve {q q' : QueueServer} {name : Bytes} {pass : Pass} :
      q.looping = true → (∀ pid ∈ pass.fork, pid ∉ q.running) →
      (∀ left ∈ pass.left, left.Names name ∧ left.info .identifier ≠ none) →
      q.serveJob setup pass name = some q' → Step setup q (.serve name pass) q'
  | collect {q q' : QueueServer} {pid : Pid} {moment : Moment} {status : Status} :
      q.looping = true → pid ∈ q.running →
      q.collect setup moment status pid = some q' → Step setup q (.collect pid moment status) q'
  | subserver {q : QueueServer} {index : Nat} {fork : Option Pid} :
      (∀ pid ∈ fork, pid ∉ q.running) →
      (∀ sp ∈ q.subservers[index]?, sp.findFlagValue .server = 0) →
      Step setup q (.subserver index fork)
        { q with
          subservers := q.subservers.modify index (forkSubserver fork)
          running := fork.toList ++ q.running }
  | rescan {q : QueueServer} {file : Fields} {files : Fields → Fields} :
      q.looping = true →
      Step setup q (.rescan file files)
        { q with
          spool := { q.spool with spoolControl := file, queueControlFile := file }
          master := updateSpoolInfo file q.master
          subservers := q.subservers.map fun sp => updateSpoolInfo (files sp) sp }
  | write {q : QueueServer} {name : Bytes} {ticket : Option Ticket} :
      (∀ written ∈ ticket, q.MayWrite name written) →
      Step setup q (.write name ticket)
        { q with spool := { q.spool with tickets := Function.update q.spool.tickets name ticket } }

end QueueServer

/-- The runs of a queue server: it starts over any queue without children of its own. Every
ticket names its own file. -/
def queueServer (setup : QueueSetup) : System QueueServer QueueServer.Event where
  init := fun q => q.looping = false ∧ q.running = [] ∧
    ∀ name ticket, q.spool.tickets name = some ticket → ticket.Names name
  step := QueueServer.Step setup

end LPRng
