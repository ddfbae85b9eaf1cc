import LPRng.LastWrite
import LPRng.Outcome
import LPRng.Transition

/-!
# The control file of a queue

Stopping and starting, enabling and disabling, holding and redirecting are lines of one
control file for each queue. `Get_spool_control` reads the whole file into the memory of a
process and `Set_spool_control` replaces it by what that process has in memory. Commands
of lpc, receivers of jobs and the server of the queue all work so, each from the copy it
read when it turned to the queue; no lock covers the time from the read to the write.
-/

namespace LPRng

/-! ## The commands of lpc -/

/-- The commands that end in a write of the control file. Those with arguments have all
tokens of the command line. -/
inductive Command where
  | stop | start | disable | enable | abort | kill | up | down | holdall | noholdall
  | release | redo | topq | hold | move | lprm | flush
  | msg (tokens : List Bytes)
  | redirect (tokens : List Bytes)
  | cls (tokens : List Bytes)
  | debug (tokens : List Bytes)
  deriving DecidableEq, Repr

/-- `Join_line_list_with_sep`; empty lines are left out. -/
def joinLineList (sep : UInt8) (l : List Bytes) : Option Bytes :=
  match l.filter (· ≠ []) with
  | [] => none
  | kept => some (List.intercalate [sep] kept)

/-- The common form of `Do_control_redirect`, `Do_control_class` and `Do_control_debug`.
With three or four tokens they only report. Another wrong number is an error that the
caller does not see. -/
def controlOption (key : Key) (tokens : List Bytes) (l : Fields) : Option Fields :=
  match tokens with
  | [_, _, _] | [_, _, _, _] => none
  | [_, _, _, _, s] => some (l.setStrValue key (if eqNocase s (lit "off") then none else some s))
  | _ => some l

def doControlRedirect : List Bytes → Fields → Option Fields := controlOption .forwarding
def doControlClass : List Bytes → Fields → Option Fields := controlOption .cls
def doControlDebug : List Bytes → Fields → Option Fields := controlOption .debug

/-- The configuration of a queue as far as its control file depends on it: the queues it
is the master of, the queue it is a subserver of, and what an aborted job leads to. -/
structure QueueRole where
  serverNames : Option Bytes
  serverQueueName : Option Bytes
  stopOnAbort : Bool

/-- The switch of `Do_queue_control`, on the control information in memory. -/
def Command.change (l : Fields) : Command → Option Fields
  | stop => some (l.setFlagValue .printingDisabled 1)
  | start => some ((l.setFlagValue .printingDisabled 0).setFlagValue .printingAborted 0)
  | disable => some (l.setFlagValue .spoolingDisabled 1)
  | enable => some (l.setFlagValue .spoolingDisabled 0)
  | abort => some (l.setFlagValue .printingAborted 1)
  | up => some (((l.setFlagValue .printingAborted 0).setFlagValue
      .printingDisabled 0).setFlagValue .spoolingDisabled 0)
  | down => some ((l.setFlagValue .printingDisabled 1).setFlagValue .spoolingDisabled 1)
  | holdall => some (l.setFlagValue .holdAll 1)
  | noholdall => some (l.setFlagValue .holdAll 0)
  | release | redo | topq =>
      some ((l.setFlagValue .printingAborted 0).setFlagValue .printingDisabled 0)
  | kill | hold | move | lprm | flush => some l
  | msg tokens => some (l.setStrValue .msg (joinLineList 32 (tokens.drop 4)))
  | redirect tokens => doControlRedirect tokens l
  | cls tokens => doControlClass tokens l
  | debug tokens => doControlDebug tokens l

/-- What `Do_queue_control` writes to the control file; `none` if it ends before. -/
def QueueRole.doQueueControl (role : QueueRole) (action : Command) (l : Fields) : Option Fields :=
  (action.change l).map fun l =>
    if role.serverQueueName = none then l else l.setFlagValue .change 1

/-! ## The operations on the control file -/

/-- What a process writes the control file for. -/
inductive Operation where
  | lpc (action : Command)
  | jobReceived
  | changeTaken
  | printingAborted
  | orderSaved (names : List Bytes)
  deriving DecidableEq, Repr

namespace Operation

variable (role : QueueRole)

/-- The changed copy that is written. -/
def apply (l : Fields) : Operation → Option Fields
  | lpc action => role.doQueueControl action l
  | jobReceived => some (l.setFlagValue .change 1)
  | changeTaken => some (l.setFlagValue .change 0)
  | printingAborted => some (l.setFlagValue .printingAborted 1)
  | orderSaved names => some (l.setStrValue .serverOrder (joinLineList 44 names))

end Operation

/-- A flag as it stands in a list. -/
def flag (value : Int) : Option Bytes := some (printHex value)

/-- What the common form of the option commands sets. -/
def optionTable (key : Key) : List Bytes → List (Key × Option Bytes)
  | [_, _, _, _, s] =>
      [(key, (if eqNocase s (lit "off") then none else some s : Option Bytes).filter (· ≠ []))]
  | _ => []

/-- What a command is to set. -/
def Command.table : Command → List (Key × Option Bytes)
  | stop => [(.printingDisabled, flag 1)]
  | start => [(.printingAborted, flag 0), (.printingDisabled, flag 0)]
  | disable => [(.spoolingDisabled, flag 1)]
  | enable => [(.spoolingDisabled, flag 0)]
  | abort => [(.printingAborted, flag 1)]
  | up => [(.spoolingDisabled, flag 0), (.printingDisabled, flag 0), (.printingAborted, flag 0)]
  | down => [(.spoolingDisabled, flag 1), (.printingDisabled, flag 1)]
  | holdall => [(.holdAll, flag 1)]
  | noholdall => [(.holdAll, flag 0)]
  | release | redo | topq => [(.printingDisabled, flag 0), (.printingAborted, flag 0)]
  | kill | hold | move | lprm | flush => []
  | msg tokens => [(.msg, (joinLineList 32 (tokens.drop 4)).filter (· ≠ []))]
  | redirect tokens => optionTable .forwarding tokens
  | cls tokens => optionTable .cls tokens
  | debug tokens => optionTable .debug tokens

/-- A command for a subserver queue also marks a change for the master. -/
def QueueRole.changeTable (role : QueueRole) : List (Key × Option Bytes) :=
  if role.serverQueueName = none then [] else [(.change, flag 1)]

/-- The keys an operation sets, and the values it sets them to. -/
def Operation.sets (role : QueueRole) : Operation → Assignment Key (Option Bytes)
  | lpc action => .ofTable (role.changeTable ++ action.table)
  | jobReceived => .ofTable [(.change, flag 1)]
  | changeTaken => .ofTable [(.change, flag 0)]
  | printingAborted => .ofTable [(.printingAborted, flag 1)]
  | orderSaved names => .ofTable [(.serverOrder, (joinLineList 44 names).filter (· ≠ []))]

open Assignment (ofTable)

variable {role : QueueRole}

theorem controlOption_eq {key : Key} {tokens : List Bytes} {l l' : Fields}
    (accepted : controlOption key tokens l = some l') :
    l' = (ofTable (optionTable key tokens)).apply l := by
  unfold controlOption at accepted
  unfold optionTable
  split at accepted
  · cases accepted
  · cases accepted
  · obtain rfl := Option.some.inj accepted
    simp only [Assignment.ofTable_cons_apply, Assignment.ofTable_nil_apply]
    rfl
  · obtain rfl := Option.some.inj accepted
    split
    · next other => exact (other _ _ _ _ _ rfl).elim
    · rfl

/-- A command sets what it is to set, and nothing else. -/
theorem Command.change_eq {action : Command} {l l' : Fields}
    (accepted : action.change l = some l') : l' = (ofTable action.table).apply l := by
  cases action with
  | redirect | cls | debug => exact controlOption_eq accepted
  | kill | hold | move | lprm | flush => exact (Option.some.inj accepted).symm
  | _ =>
      obtain rfl := Option.some.inj accepted
      simp only [Command.table, Assignment.ofTable_cons_apply, Assignment.ofTable_nil_apply]
      rfl

theorem QueueRole.doQueueControl_eq {action : Command} {l l' : Fields}
    (accepted : role.doQueueControl action l = some l') :
    l' = (ofTable (role.changeTable ++ action.table)).apply l := by
  obtain ⟨changed, change, rfl⟩ := Option.map_eq_some_iff.mp accepted
  obtain rfl := Command.change_eq change
  unfold changeTable
  split
  · rfl
  · rw [List.singleton_append, Assignment.ofTable_cons_apply]
    rfl

/-- So does every operation. -/
theorem Operation.apply_eq {op : Operation} {l l' : Fields} (wrote : op.apply role l = some l') :
    l' = (op.sets role).apply l := by
  cases op with
  | lpc action => exact QueueRole.doQueueControl_eq wrote
  | _ =>
      obtain rfl := Option.some.inj wrote
      simp only [sets, Assignment.ofTable_cons_apply, Assignment.ofTable_nil_apply]
      rfl

/-! ## Processes at work on a queue -/

/-- What a process with a copy of the control file is: a command or a receiver that is to
write once; or a server that waits for the lock file of the queue, that serves the queue,
or that has given the lock back. -/
inductive Phase where
  | client | waiting | serving | leaving
  deriving DecidableEq, Repr

/-- What a process does next. The result of `Update_status` counts only as far as it ends
in its abort case; a server that leaves knows the order of its subservers. -/
inductive Act where
  | setupClient | setupServer
  | command (action : Command) | jobReceived
  | serve | reread | outcome (aborted : Bool) | finish (names : List Bytes) | again
  | gone
  deriving DecidableEq, Repr

/-- A process and what it does. -/
structure ControlEvent where
  process : Nat
  act : Act

/-- The control file of a queue, the copies that processes hold, and who has locked the
lock file of the queue; besides, for the record, the file at the start and the
operations that have written it, the last one first. -/
structure QueueControl where
  queueControlFile : Fields
  processes : Nat → Option (Phase × Fields)
  lock : Option Nat
  start : Fields
  log : List Operation

/-- The phase a process goes to, `some none` if it ends. A queue that has subservers and
is one itself is a fatal error. -/
def QueueRole.phaseAfter (role : QueueRole) : Option Phase → Act → Option (Option Phase)
  | none, .setupClient => some (some .client)
  | none, .setupServer => some (some .waiting)
  | some .client, .command _ => some none
  | some .client, .jobReceived => some none
  | some .waiting, .serve =>
      if role.serverNames.any (· ≠ []) ∧ role.serverQueueName ≠ none then some none
      else some (some .serving)
  | some .serving, .reread => some (some .serving)
  | some .serving, .outcome _ => some (some .serving)
  | some .serving, .finish _ => some (some .leaving)
  | some .leaving, .again => some (some .waiting)
  | some _, .gone => some none
  | _, _ => none

/-- The operation, if any, that an act carries out on the control file. -/
def QueueRole.operation (role : QueueRole) (copy : Fields) : Act → Option Operation
  | .command action => some (.lpc action)
  | .jobReceived => some .jobReceived
  | .serve => if copy.findFlagValue .change = 0 then none else some .changeTaken
  | .outcome aborted => if aborted && role.stopOnAbort then some .printingAborted else none
  | .finish names => if role.serverNames = none then none else some (.orderSaved names)
  | .setupClient | .setupServer | .reread | .again | .gone => none

/-- The operation together with the changed copy. -/
def QueueRole.write (role : QueueRole) (copy : Fields) (act : Act) : Option (Operation × Fields) :=
  (role.operation copy act).bind fun op => (op.apply role copy).map fun l => (op, l)

theorem QueueRole.write_eq {copy l : Fields} {act : Act} {op : Operation}
    (written : role.write copy act = some (op, l)) : l = (op.sets role).apply copy := by
  obtain ⟨op', -, mapped⟩ := Option.bind_eq_some_iff.mp written
  obtain ⟨l', applied, same⟩ := Option.map_eq_some_iff.mp mapped
  obtain ⟨rfl, rfl⟩ := Prod.mk.inj same
  exact Operation.apply_eq applied

namespace QueueControl

/-- The copy a process works on: the file itself where it reads it. -/
def copy (q : QueueControl) (e : ControlEvent) : Fields :=
  match q.processes e.process with
  | none => q.queueControlFile
  | some (_, copy) => if e.act = .reread then q.queueControlFile else copy

def next (role : QueueRole) (q : QueueControl) (e : ControlEvent) : Option QueueControl :=
  if e.act = .serve ∧ q.lock ≠ none then none
  else (role.phaseAfter ((q.processes e.process).map (·.1)) e.act).map fun after =>
    let written := role.write (q.copy e) e.act
    let copy := (written.map (·.2)).getD (q.copy e)
    { q with
      queueControlFile := (written.map (·.2)).getD q.queueControlFile
      processes := Function.update q.processes e.process (after.map fun phase => (phase, copy))
      lock := if after = some .serving then some e.process
        else if q.lock = some e.process then none else q.lock
      log := (written.map (·.1)).toList ++ q.log }

/-- Nobody is at work on the queue. -/
def Init (q : QueueControl) : Prop :=
  (∀ i, q.processes i = none) ∧ q.lock = none ∧ q.start = q.queueControlFile ∧ q.log = []

/-- Everybody is done. -/
def Finished (q : QueueControl) : Prop := ∀ i, q.processes i = none

/-- Every key has the value set by the last operation that sets it. -/
def HoldsLastValues (role : QueueRole) (q : QueueControl) : Prop :=
  ∀ key, q.queueControlFile key =
    Assignment.lastValue (q.log.map (Operation.sets role)) q.start key

/-- If the event writes the control file, then from a copy that agrees with the file at
every key the operation does not set. -/
def UpToDate (role : QueueRole) (q : QueueControl) (e : ControlEvent) : Prop :=
  ∀ op l, role.write (q.copy e) e.act = some (op, l) →
    ∀ key, op.sets role key = none → q.copy e key = q.queueControlFile key

/-- The processes at work on the control file of a queue. -/
def system (role : QueueRole) : System QueueControl ControlEvent := .ofNext Init (next role)

variable {q q' : QueueControl} {e : ControlEvent}

/-- What an event leaves of the file and the log. -/
theorem next_log (took : q.next role e = some q') :
    q'.start = q.start ∧
      match role.write (q.copy e) e.act with
      | none => q'.queueControlFile = q.queueControlFile ∧ q'.log = q.log
      | some (op, l) => q'.queueControlFile = l ∧ q'.log = op :: q.log := by
  unfold next at took
  split at took
  · cases took
  · obtain ⟨after, -, rfl⟩ := Option.map_eq_some_iff.mp took
    refine ⟨rfl, ?_⟩
    cases written : role.write (q.copy e) e.act with
    | none => exact ⟨rfl, rfl⟩
    | some wrote => exact ⟨rfl, rfl⟩

/-- A write that is due keeps the last values exactly if the copy is up to date. -/
theorem next_keeps_iff (kept : q.HoldsLastValues role) (took : q.next role e = some q') :
    q'.HoldsLastValues role ↔ q.UpToDate role e := by
  obtain ⟨start, effect⟩ := next_log took
  unfold UpToDate
  cases written : role.write (q.copy e) e.act with
  | none =>
      rw [written] at effect
      obtain ⟨file, log⟩ := effect
      simp only [HoldsLastValues, file, log, start]
      exact iff_of_true kept fun _ _ impossible => nomatch impossible
  | some wrote =>
      obtain ⟨op, l⟩ := wrote
      rw [written] at effect
      obtain ⟨file, log⟩ := effect
      have changed : q'.HoldsLastValues role ↔ (op.sets role).apply (q.copy e) =
          Assignment.lastValue (op.sets role :: q.log.map (Operation.sets role)) q.start := by
        rw [HoldsLastValues, file, log, start, List.map_cons, QueueRole.write_eq written]
        exact funext_iff.symm
      rw [changed, Assignment.write_keeps_iff (funext kept)]
      constructor
      · intro agrees op' l' same
        obtain ⟨rfl, -⟩ := Prod.mk.inj (Option.some.inj same)
        exact agrees
      · exact fun agrees => agrees op l rfl

/-- In a run whose writes are all done from copies up to date, the control file has for
every key the value set by the last operation that sets that key. -/
theorem holds_last_values (role : QueueRole) {q : QueueControl}
    (reached : (system role).Reachable (UpToDate role) q) (key : Key) :
    q.queueControlFile key =
      Assignment.lastValue (q.log.map (Operation.sets role)) q.start key := by
  have kept : q.HoldsLastValues role := by
    refine reached.invariant (fun q init key => ?_) fun q e q' kept upToDate took =>
      (next_keeps_iff kept took).mpr upToDate
    obtain ⟨-, -, start, log⟩ := init
    rw [log, start, List.map_nil, Assignment.lastValue_nil]
  exact kept key

end QueueControl

/-! ## The abort case of `Update_status` -/

namespace Server

/-- The control information in memory and on file. -/
def control (s : Server) : Fields × Fields := (s.spoolControl, s.queueControlFile)

/-- The control information marked as aborted. -/
def markedControl (s : Server) : Fields × Fields :=
  (s.spoolControl.setFlagValue .printingAborted 1, s.spoolControl.setFlagValue .printingAborted 1)

variable {config : Config} {moment : Moment} {hasDest : Bool} {s s' : Server}

theorem mapJob_control (change : Job → Job) : (s.mapJob change).control = s.control := rfl

theorem setJobTicketFile_control (wrote : s.setJobTicketFile moment = some s') :
    s'.control = s.control := by
  rw [setJobTicketFile] at wrote
  split at wrote
  · cases wrote
  · obtain rfl := Option.some.inj wrote
    rfl

theorem saveOrRemove_control {keeps : Bool} : (s.saveOrRemove keeps moment).control = s.control := by
  cases keeps <;> rfl

theorem written_control {keeps : Bool}
    (ended : (s.setJobTicketFile moment).map (saveOrRemove keeps moment) = some s') :
    s'.control = s.control := by
  obtain ⟨written, wrote, rfl⟩ := Option.map_eq_some_iff.mp ended
  exact saveOrRemove_control.trans (setJobTicketFile_control wrote)

theorem doneJob_control (ended : s.doneJob config moment = some s') : s'.control = s.control := by
  rw [doneJob] at ended
  split at ended
  · exact congrArg control (Option.some.inj ended).symm
  · exact (written_control ended).trans (mapJob_control _)

theorem succeedDestination_control {destinations : Int}
    (ended : s.succeedDestination config moment destinations = some s') :
    s'.control = s.control := by
  rw [succeedDestination] at ended
  by_cases isOver : (finishDestination moment s.job.destination).2.1 ∧
      (finishDestination moment s.job.destination).2.2 ≥ destinations
  · rw [if_pos isOver] at ended
    exact (doneJob_control ended).trans (mapJob_control _)
  · rw [if_neg isOver] at ended
    exact (setJobTicketFile_control ended).trans (mapJob_control _)

theorem succeedJob_control (ended : s.succeedJob config moment = some s') :
    s'.control = s.control := by
  rw [succeedJob] at ended
  by_cases moved : s.job.info.findStrValue .move ≠ none
  · rw [if_pos moved] at ended
    exact (doneJob_control ended).trans (mapJob_control _)
  · rw [if_neg moved] at ended
    by_cases last : (s.job.info.countCopy (s.job.info.findFlagValue .copies) moment).2 = true
    · rw [if_pos last] at ended
      exact (doneJob_control ended).trans (mapJob_control _)
    · rw [if_neg last] at ended
      exact (setJobTicketFile_control ended).trans (mapJob_control _)

theorem endInError_control (ended : s.endInError config moment = some s') :
    s'.control = s.control :=
  (written_control ended).trans (mapJob_control _)

theorem stopOnAbort_control : (s.stopOnAbort config).control =
    if config.stopOnAbort then s.markedControl else s.control := by
  rw [stopOnAbort]
  split <;> rfl

theorem markedControl_congr (same : s'.control = s.control) :
    s'.markedControl = s.markedControl := by
  rw [markedControl, markedControl,
    show s'.spoolControl = s.spoolControl from congrArg Prod.fst same]

/-- The abort case may stop printing. -/
theorem abortJob_control (ended : s.abortJob config moment hasDest = some s') :
    s'.control = if config.stopOnAbort then s.markedControl else s.control := by
  rw [abortJob] at ended
  cases hasDest with
  | true =>
      obtain rfl := Option.some.inj ended
      exact stopOnAbort_control
  | false =>
      obtain ⟨aborted, wrote, rfl⟩ := Option.map_eq_some_iff.mp ended
      have same : aborted.control = s.control :=
        (endInError_control wrote).trans (mapJob_control _)
      rw [stopOnAbort_control, same, markedControl_congr same]

/-- Every other case leaves the control information alone. -/
theorem settle_control {destinations : Int} {status : Status}
    (ended : s.settle config moment destinations hasDest status = some s') :
    ∃ aborted : Bool, s'.control =
      if aborted && config.stopOnAbort then s.markedControl else s.control := by
  cases status with
  | jabort | jfail | jtimeout | other => exact ⟨true, abortJob_control ended⟩
  | jhold =>
      simp only [settle, holdJob] at ended
      split at ended <;>
        exact ⟨false, (setJobTicketFile_control ended).trans (mapJob_control _)⟩
  | jsucc =>
      simp only [settle] at ended
      split at ended
      · exact ⟨false, succeedDestination_control ended⟩
      · exact ⟨false, succeedJob_control ended⟩
  | jfailnoretry =>
      simp only [settle, failNoRetry] at ended
      split at ended
      · exact ⟨false, (setJobTicketFile_control ended).trans (mapJob_control _)⟩
      · exact ⟨false, (endInError_control ended).trans (mapJob_control _)⟩
  | jremove =>
      simp only [settle, removeFailedJob] at ended
      split at ended
      · exact ⟨false, (setJobTicketFile_control ended).trans (mapJob_control _)⟩
      · exact ⟨false, (endInError_control ended).trans (mapJob_control _)⟩

theorem resumeFailed_control {destinations : Int} {status : Status}
    (ended : s.resumeFailed config moment destinations hasDest status = some s') :
    ∃ aborted : Bool, s'.control =
      if aborted && config.stopOnAbort then s.markedControl else s.control := by
  rw [resumeFailed] at ended
  split at ended
  · exact ⟨false, (setJobTicketFile_control ended).trans (mapJob_control _)⟩
  · exact settle_control ended

theorem failJob_control {destinations : Int}
    (ended : s.failJob config moment destinations hasDest = some s') :
    ∃ aborted : Bool, s'.control =
      if aborted && config.stopOnAbort then s.markedControl else s.control := by
  obtain ⟨counted, count, resumed⟩ := Option.bind_eq_some_iff.mp ended
  have same : counted.control = s.control :=
    (setJobTicketFile_control count).trans (mapJob_control _)
  obtain ⟨aborted, effect⟩ := resumeFailed_control resumed
  exact ⟨aborted, by rw [effect, same, markedControl_congr same]⟩

/-- `Update_status` leaves the control information alone, or it ends in its abort case. -/
theorem updateStatus_control {status : Status}
    (ended : s.updateStatus config moment status = some s') :
    ∃ aborted : Bool, s'.control =
      if aborted && config.stopOnAbort then s.markedControl else s.control := by
  by_cases identified : s.job.info .identifier = none
  · rw [updateStatus, if_pos identified] at ended
    obtain rfl := Option.some.inj ended
    exact ⟨false, mapJob_control _⟩
  · rw [updateStatus_eq config moment identified] at ended
    by_cases fails : status = .jfail ∨ status = .jtimeout
    · rw [if_pos fails] at ended
      obtain ⟨aborted, effect⟩ := failJob_control ended
      rw [markedControl_congr (mapJob_control _), mapJob_control] at effect
      exact ⟨aborted, effect⟩
    · rw [if_neg fails] at ended
      obtain ⟨aborted, effect⟩ := settle_control ended
      rw [markedControl_congr (mapJob_control _), mapJob_control] at effect
      exact ⟨aborted, effect⟩

end Server

namespace QueueControl

variable {q : QueueControl}

/-- A job that comes back without aborting leaves the control information alone. -/
theorem next_outcome_false {copy : Fields} {i : Nat} {aborted : Bool}
    (serving : q.processes i = some (.serving, copy))
    (goesOn : (aborted && role.stopOnAbort) = false) :
    q.next role ⟨i, .outcome aborted⟩ = some { q with
      processes := Function.update q.processes i (some (.serving, copy))
      lock := some i } := by
  simp [next, serving, QueueRole.phaseAfter, QueueRole.write, QueueRole.operation, goesOn,
    QueueControl.copy]

/-- A job that aborts marks the control information and writes it. -/
theorem next_outcome_true {copy : Fields} {i : Nat} {aborted : Bool}
    (serving : q.processes i = some (.serving, copy))
    (stops : (aborted && role.stopOnAbort) = true) :
    q.next role ⟨i, .outcome aborted⟩ = some { q with
      queueControlFile := copy.setFlagValue .printingAborted 1
      processes := Function.update q.processes i
        (some (.serving, copy.setFlagValue .printingAborted 1))
      lock := some i
      log := .printingAborted :: q.log } := by
  have written : role.operation copy (.outcome aborted) = some .printingAborted := if_pos stops
  simp [next, serving, QueueRole.phaseAfter, QueueRole.write, written, QueueControl.copy,
    Operation.apply]

/-- The server's `Update_status` is the event `outcome`: it leaves the same control file
and the same copy in its memory. -/
theorem outcome_refines {config : Config} {moment : Moment} {status : Status}
    {s s' : Server} {i : Nat} (same : config.stopOnAbort = role.stopOnAbort)
    (serving : q.processes i = some (.serving, s.spoolControl))
    (file : q.queueControlFile = s.queueControlFile)
    (ended : s.updateStatus config moment status = some s') :
    ∃ (aborted : Bool) (q' : QueueControl), q.next role ⟨i, .outcome aborted⟩ = some q' ∧
      q'.processes i = some (.serving, s'.spoolControl) ∧
      q'.queueControlFile = s'.queueControlFile := by
  obtain ⟨aborted, effect⟩ := Server.updateStatus_control ended
  rw [same] at effect
  cases stops : aborted && role.stopOnAbort with
  | false =>
      rw [stops, if_neg Bool.false_ne_true] at effect
      obtain ⟨memory, written⟩ := Prod.mk.inj effect
      refine ⟨aborted, _, next_outcome_false serving stops, ?_, ?_⟩
      · rw [memory]
        exact Function.update_self ..
      · rw [written]
        exact file
  | true =>
      rw [stops, if_pos rfl] at effect
      obtain ⟨memory, written⟩ := Prod.mk.inj effect
      refine ⟨aborted, _, next_outcome_true serving stops, ?_, written.symm⟩
      rw [memory]
      exact Function.update_self ..

/-! ## Runs on a queue without subservers -/

/-- An ordinary queue whose printing stops when a job is aborted. -/
def plainRole : QueueRole where
  serverNames := none
  serverQueueName := none
  stopOnAbort := true

/-- Nobody is at work, and the control file has no lines. -/
def idle : QueueControl where
  queueControlFile := .empty
  processes := fun _ => none
  lock := none
  start := .empty
  log := []

theorem idle_reached (allowed : QueueControl → ControlEvent → Prop) :
    (system plainRole).Reachable allowed idle :=
  .init ⟨fun _ => rfl, rfl, rfl, rfl⟩

/-- An operator stops the queue. -/
theorem holds_last_values_stop : ∃ q : QueueControl,
    (system plainRole).Reachable (UpToDate plainRole) q ∧
      q.log = [.lpc .stop] ∧ ∀ key, q.queueControlFile key =
        Assignment.lastValue (q.log.map (Operation.sets plainRole)) q.start key := by
  obtain ⟨q₁, read⟩ : ∃ q₁, idle.next plainRole ⟨1, .setupClient⟩ = some q₁ := ⟨_, rfl⟩
  obtain ⟨q₂, wrote⟩ : ∃ q₂, q₁.next plainRole ⟨1, .command .stop⟩ = some q₂ := by
    obtain rfl := Option.some.inj read
    exact ⟨_, rfl⟩
  have reached : (system plainRole).Reachable (UpToDate plainRole) q₂ := by
    refine .step (.step (idle_reached _) ?_ read) ?_ wrote
    · rintro op l written
      cases written
    · obtain rfl := Option.some.inj read
      exact fun op l written key unset => rfl
  refine ⟨q₂, reached, ?_, holds_last_values plainRole reached⟩
  obtain rfl := Option.some.inj read
  obtain rfl := Option.some.inj wrote
  rfl

/-- The server reads the control file, an operator stops the queue, and the job that was
printing aborts: the server writes its copy, and the queue is not stopped any more. -/
theorem stop_undone :
    ¬ ∀ (role : QueueRole) (q : QueueControl), (system role).Reachable (fun _ _ => True) q →
      q.Finished → q.HoldsLastValues role := by
  intro claimed
  obtain ⟨q, ran, finished, file, log, start⟩ : ∃ q : QueueControl,
      [⟨0, .setupServer⟩, ⟨0, .serve⟩, ⟨1, .setupClient⟩, ⟨1, .command .stop⟩,
        ⟨0, .outcome true⟩, ⟨0, .gone⟩].foldlM (next plainRole) idle = some q ∧ q.Finished ∧
      q.queueControlFile .printingDisabled = none ∧
      q.log = [.printingAborted, .lpc .stop] ∧ q.start = .empty :=
    ⟨_, rfl, fun | 0 => rfl | 1 => rfl | _ + 2 => rfl, rfl, rfl, rfl⟩
  have reached : (system plainRole).Reachable (fun _ _ => True) q :=
    System.reachable_foldlM (idle_reached _) (fun _ _ _ => trivial) ran
  have lost := claimed plainRole q reached finished .printingDisabled
  rw [file, log, start] at lost
  cases lost

end QueueControl

end LPRng
