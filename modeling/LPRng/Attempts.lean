import LPRng.Outcome
import LPRng.Routing
import LPRng.Transition
import Mathlib.Data.List.DropRight

/-!
# Copies and attempts

`Update_status` counts the copies of a job and its attempts in two fields of the ticket, and reads
them again for the next result of a subserver. A job without destinations is done with its last
copy; with the last attempt allowed, it is up to the failure action what becomes of it.
-/

namespace LPRng

namespace Attempts

/-! ## What the results prescribe -/

/-- The copies printed and the attempts counted. -/
structure Progress where
  copies : Nat
  attempts : Nat

inductive Verdict where
  | again
  | done
  | ended (action : Status)

/-- The result of a subserver, and what a failure action that is a filter prints. -/
structure Result where
  moment : Moment
  status : Status
  printed : Bytes

def keywordAction (text : Bytes) : Status :=
  match failureKeys.find? fun entry => eqNocase entry.1 text with
  | some entry => entry.2
  | none => .jremove

/-- What is read of the output of a filter, without the white space at its ends. -/
def trimmedOutput (printed : Bytes) : Bytes :=
  let blank (c : UInt8) : Bool := (lit " \t\n\x0c").contains c
  ((cstr (printed.take 511)).dropWhile blank).rdropWhile blank

def isFilter (action : Bytes) : Bool := (action.dropWhile isSpace).head? = some 124

/-- The failure action that is configured: the keyword, or for a filter its exit status or else the
keyword it prints. A status that is no action aborts. -/
def configuredAction (config : Config) (result : Result) : Status :=
  match config.sendFailureAction with
  | none => .jremove
  | some action =>
      if isFilter action then
        match result.moment.filterExit with
        | .jsucc => keywordAction (trimmedOutput result.printed)
        | .jtimeout | .other _ => .jabort
        | status => status
      else keywordAction (action.dropWhile isSpace)

namespace Progress

def addCopy (p : Progress) : Progress := { p with copies := p.copies + 1 }

def addAttempt (p : Progress) : Progress := { p with attempts := p.attempts + 1 }

/-- A success of a job with `c` copies. -/
def succeed (c : Int) (p : Progress) : Progress × Verdict :=
  (p.addCopy, if max 1 c ≤ p.addCopy.copies then .done else .again)

/-- What a job is settled with. -/
def settle (c : Int) (p : Progress) : Status → Progress × Verdict
  | .jsucc => p.succeed c
  | .jfail => (p, .again)
  | action => (p, .ended action)

/-- What a result prescribes for a job with `c` copies. -/
def record (config : Config) (c : Int) (p : Progress) (result : Result) : Progress × Verdict :=
  match result.status with
  | .jfail | .jtimeout =>
      if 0 < config.sendTry ∧ config.sendTry ≤ p.addAttempt.attempts then
        p.addAttempt.settle c (configuredAction config result)
      else (p.addAttempt, .again)
  | .jfailnoretry => (p.addAttempt, .ended .jfailnoretry)
  | status => p.settle c status

end Progress

/-! ## What the job shows -/

/-- The fields of a job with `c` copies and no destinations, which is not moved and has the given
progress. -/
structure Counts (c : Int) (p : Progress) (info : Fields) : Prop where
  identified : info .identifier ≠ none
  named : info .hfName ≠ none
  plain : info.findFlagValue .destinations = 0
  stays : info .move = none
  copies : info.findFlagValue .copies = c
  copyDone : info.findFlagValue .copyDone = p.copies
  attempt : info.findFlagValue .attempt = p.attempts

def Undone (info : Fields) : Prop := info.findFlagValue .doneTime = 0

structure InError (info : Fields) : Prop where
  error : info .error ≠ none
  errorTime : info.findFlagValue .errorTime ≠ 0
  removeTime : info.findFlagValue .removeTime ≠ 0

/-- The action that ended a job, as the server shows it. -/
def Taken (config : Config) (s : Server) : Status → Prop
  | .jhold => s.job.info.findFlagValue .holdTime ≠ 0
  | .jremove | .jfailnoretry => InError s.job.info
  | _ => InError s.job.info ∧
      (config.stopOnAbort = true → s.queueControlFile.findFlagValue .printingAborted ≠ 0)

/-- What a verdict says of a job in memory and on disk. -/
def Verdict.Holds (config : Config) (s : Server) : Verdict → Prop
  | .again => Undone s.job.info ∧ ∃ ticket, s.ticket = some ticket ∧ Undone ticket.info
  | .done => ¬ Undone s.job.info ∧ ∀ ticket, s.ticket = some ticket → ¬ Undone ticket.info
  | .ended action => Undone s.job.info ∧ Taken config s action

/-- A job has the given progress, and the verdict holds of it. -/
structure Shows (config : Config) (c : Int) (p : Progress) (v : Verdict) (s : Server) : Prop where
  counts : Counts c p s.job.info
  ticket : ∀ ticket, s.ticket = some ticket → Counts c p ticket.info
  verdict : v.Holds config s

variable {config : Config} {moment : Moment} {c : Int} {p : Progress} {info info' : Fields}
  {s : Server}

/-! ## Writes that leave the counts alone -/

def countKeys : List Key := [.identifier, .hfName, .destinations, .move, .copies, .copyDone, .attempt]

theorem Counts.congr (counts : Counts c p info) (same : ∀ key ∈ countKeys, info' key = info key) :
    Counts c p info' where
  identified := same .identifier (by decide) ▸ counts.identified
  named := same .hfName (by decide) ▸ counts.named
  plain := (Fields.findFlagValue_congr (same _ (by decide))).trans counts.plain
  stays := (same _ (by decide)).trans counts.stays
  copies := (Fields.findFlagValue_congr (same _ (by decide))).trans counts.copies
  copyDone := (Fields.findFlagValue_congr (same _ (by decide))).trans counts.copyDone
  attempt := (Fields.findFlagValue_congr (same _ (by decide))).trans counts.attempt

theorem ne_of_counted {key other : Key} (member : key ∈ countKeys) (outside : other ∉ countKeys) :
    key ≠ other := fun same => outside (same ▸ member)

section Writes

variable {key : Key} (outside : key ∉ countKeys)

include outside

theorem Counts.setFlagValue (counts : Counts c p info) (value : Int) :
    Counts c p (info.setFlagValue key value) :=
  counts.congr fun _ member => Fields.setFlagValue_of_ne (ne_of_counted member outside) value

theorem Counts.setNzFlagValue (counts : Counts c p info) (value : Int) :
    Counts c p (info.setNzFlagValue key value) :=
  counts.congr fun _ member => Fields.setNzFlagValue_of_ne (ne_of_counted member outside) value

theorem Counts.setDecimalValue (counts : Counts c p info) (value : Int) :
    Counts c p (info.setDecimalValue key value) :=
  counts.congr fun _ member => Fields.setDecimalValue_of_ne (ne_of_counted member outside) value

theorem Counts.setStrValue (counts : Counts c p info) (value : Option Bytes) :
    Counts c p (info.setStrValue key value) :=
  counts.congr fun _ member => Fields.setStrValue_of_ne (ne_of_counted member outside) value

end Writes

theorem Counts.noteError (counts : Counts c p info) (text : Bytes) :
    Counts c p (info.noteError text moment) := by
  unfold Fields.noteError
  have errors : Key.error ∉ countKeys ∧ Key.errorTime ∉ countKeys := by decide
  split
  · dsimp only
    split
    · exact (counts.setStrValue errors.1 _).setNzFlagValue errors.2 _
    · exact counts.setStrValue errors.1 _
  · dsimp only
    split
    · exact counts.setNzFlagValue errors.2 _
    · exact counts

theorem Counts.ticketImage {job : Job} (counts : Counts c p job.info) :
    Counts c p job.ticketImage.info :=
  counts.congr fun _ member => Function.update_of_ne (ne_of_counted member (by decide)) ..

/-! ## The counts themselves -/

theorem findFlagValue_counted {key : Key} {n : Nat} (fits : n < 2 ^ 31) :
    (info.setFlagValue key n).findFlagValue key = n := by
  rw [Fields.findFlagValue_setFlagValue (by omega), toInt32_of_small fits]

theorem Counts.addCopy (counts : Counts c p info) (fits : p.copies + 1 < 2 ^ 31) :
    Counts c p.addCopy (info.setFlagValue .copyDone (info.findFlagValue .copyDone + 1)) := by
  have next : info.findFlagValue .copyDone + 1 = (p.copies + 1 : Nat) := by
    rw [counts.copyDone]
    rfl
  rw [next]
  obtain ⟨identified, named, plain, stays, copies, -, attempt⟩ := counts
  refine ⟨?_, ?_, ?_, ?_, ?_, findFlagValue_counted fits, ?_⟩
  all_goals simpa [Progress.addCopy]

theorem Counts.addAttempt (counts : Counts c p info) (fits : p.attempts + 1 < 2 ^ 31) :
    Counts c p.addAttempt info.countAttempt := by
  have next : info.nextAttempt = (p.attempts + 1 : Nat) := by
    rw [Fields.nextAttempt, counts.attempt]
    rfl
  rw [Fields.countAttempt, next]
  obtain ⟨identified, named, plain, stays, copies, copyDone, -⟩ := counts
  refine ⟨?_, ?_, ?_, ?_, ?_, ?_, findFlagValue_counted fits⟩
  all_goals simpa [Progress.addAttempt]

/-! ## Writing the ticket -/

/-- The server behind a write of the ticket. -/
def written (moment : Moment) (s : Server) : Server :=
  let job := s.job.setInfo (·.setStrValue .updateTime moment.timeStr)
  { s with job := job, ticket := some job.ticketImage }

theorem setJobTicketFile_eq (named : s.job.info .hfName ≠ none) :
    s.setJobTicketFile moment = some (written moment s) := by
  have named' : (s.job.setInfo (·.setStrValue .updateTime moment.timeStr)).info .hfName ≠ none := by
    simpa using named
  exact if_neg named'

theorem Counts.written (counts : Counts c p s.job.info) :
    Counts c p (written moment s).job.info :=
  counts.setStrValue (by decide) _

/-- What stands in memory under a key is written, except for the name under which a file is open. -/
theorem written_apply {key : Key} (notTime : key ≠ .updateTime) (notOpen : key ≠ .openname) :
    (written moment s).job.info key = s.job.info key ∧
      ∀ ticket, (written moment s).ticket = some ticket → ticket.info key = s.job.info key := by
  have stamped : (written moment s).job.info key = s.job.info key :=
    Fields.setStrValue_of_ne notTime _
  refine ⟨stamped, fun ticket present => ?_⟩
  obtain rfl := Option.some.inj present
  exact (Function.update_of_ne notOpen ..).trans stamped

theorem written_flag {key : Key} (notTime : key ≠ .updateTime) (notOpen : key ≠ .openname) :
    (written moment s).job.info.findFlagValue key = s.job.info.findFlagValue key :=
  Fields.findFlagValue_congr (written_apply notTime notOpen).1

theorem undone_written :
    (Undone (written moment s).job.info ↔ Undone s.job.info) ∧
      ∀ ticket, (written moment s).ticket = some ticket → (Undone ticket.info ↔ Undone s.job.info) := by
  have doneTime : (written moment s).job.info .doneTime = s.job.info .doneTime ∧ _ :=
    written_apply (by decide) (by decide)
  refine ⟨?_, fun ticket present => ?_⟩
  · rw [Undone, Undone, Fields.findFlagValue_congr doneTime.1]
  · rw [Undone, Undone, Fields.findFlagValue_congr (doneTime.2 ticket present)]

theorem Counts.written_ticket (counts : Counts c p s.job.info) {ticket : Ticket}
    (present : (Attempts.written moment s).ticket = some ticket) : Counts c p ticket.info := by
  obtain rfl := Option.some.inj present
  exact (counts.setStrValue (by decide) _).ticketImage

/-! ## The end of a job -/

theorem saveOrRemove_job (keeps : Bool) : (s.saveOrRemove keeps moment).job = s.job := by
  unfold Server.saveOrRemove
  split <;> rfl

theorem saveOrRemove_ticket {keeps : Bool} {ticket : Ticket}
    (present : (s.saveOrRemove keeps moment).ticket = some ticket) : s.ticket = some ticket := by
  unfold Server.saveOrRemove at present
  split at present
  · exact present
  · change (if s.job.info.findStrValue .hfName = none then s.ticket else none) = some ticket at present
    split at present
    · exact present
    · cases present

theorem again_shows (counts : Counts c p s.job.info) (undone : Undone s.job.info) :
    Shows config c p .again (written moment s) where
  counts := counts.written
  ticket _ present := counts.written_ticket present
  verdict := ⟨undone_written.1.mpr undone, _, rfl, (undone_written.2 _ rfl).mpr undone⟩

theorem doneJob_shows (counts : Counts c p s.job.info) (done : ¬ Undone s.job.info) :
    ∃ s', s.doneJob config moment = some s' ∧ Shows config c p .done s' := by
  generalize marked : s.mapJob (·.setInfo (·.setFlagValue .removeTime moment.now.val)) = s₁
  have counted : Counts c p s₁.job.info := marked ▸ counts.setFlagValue (by decide) _
  have done' : ¬ Undone s₁.job.info := by
    rw [← marked]
    exact fun undone => done ((Fields.findFlagValue_setFlagValue_of_ne (by decide) _).symm.trans undone)
  refine ⟨(written moment s₁).saveOrRemove config.keepsDone moment, ?_, ?_, ?_, ?_, ?_⟩
  · rw [Server.doneJob, if_neg counts.named, marked, setJobTicketFile_eq counted.named]
    rfl
  · rw [saveOrRemove_job]
    exact counted.written
  · exact fun ticket present => counted.written_ticket (saveOrRemove_ticket present)
  · rw [saveOrRemove_job]
    exact fun undone => done' (undone_written.1.mp undone)
  · exact fun ticket present undone =>
      done' ((undone_written.2 ticket (saveOrRemove_ticket present)).mp undone)

/-- A copy more. The job is done with the last one. -/
theorem succeedJob_shows (counts : Counts c p s.job.info) (undone : Undone s.job.info)
    (fits : p.copies + 1 < 2 ^ 31) :
    ∃ s', s.succeedJob config moment = some s' ∧
      Shows config c (p.succeed c).1 (p.succeed c).2 s' := by
  have counted := counts.addCopy fits
  have last : s.job.info.findFlagValue .copyDone + 1 ≥ s.job.info.findFlagValue .copies ↔
      max 1 c ≤ (p.addCopy.copies : Int) := by
    rw [counts.copyDone, counts.copies, Progress.addCopy]
    push_cast
    omega
  unfold Server.succeedJob Progress.succeed Fields.countCopy
  rw [if_neg (not_not_intro counts.stays)]
  by_cases printed : max 1 c ≤ (p.addCopy.copies : Int)
  · rw [if_pos (last.mpr printed), if_pos printed]
    refine doneJob_shows (counted.setFlagValue (by decide) _) ?_
    exact Fields.findFlagValue_setFlagValue_time moment.now
  · rw [if_neg (mt last.mp printed), if_neg printed]
    refine ⟨_, setJobTicketFile_eq counted.named, again_shows counted ?_⟩
    exact (Fields.findFlagValue_setFlagValue_of_ne (by decide) _).trans undone

theorem holdJob_shows (counts : Counts c p s.job.info) (undone : Undone s.job.info) :
    ∃ s', s.holdJob moment false = some s' ∧ Shows config c p (.ended .jhold) s' := by
  have counted := (counts.setFlagValue (show Key.holdTime ∉ _ by decide) moment.now.val).setFlagValue
    (show Key.priorityTime ∉ _ by decide) 0
  refine ⟨_, setJobTicketFile_eq counted.named, counted.written, fun _ => counted.written_ticket, ?_, ?_⟩
  · refine undone_written.1.mpr ?_
    simpa [Undone] using undone
  · have time : (s.job.info.setFlagValue .holdTime moment.now.val).findFlagValue .holdTime ≠ 0 :=
      Fields.findFlagValue_setFlagValue_time moment.now
    refine fun zero => time ?_
    rw [written_flag (by decide) (by decide)] at zero
    exact (Fields.findFlagValue_setFlagValue_of_ne (by decide) 0).symm.trans zero

theorem noteError_error {text : Bytes} (some_ : text ≠ []) (info : Fields) :
    info.noteError text moment .error ≠ none ∧
      (info.noteError text moment).findFlagValue .errorTime ≠ 0 := by
  have timed : ∀ l : Fields, (if l.findFlagValue .errorTime = 0 then
      l.setNzFlagValue .errorTime moment.now.val else l).findFlagValue .errorTime ≠ 0 := by
    intro l
    split
    · exact Fields.findFlagValue_setNzFlagValue_time moment.now
    · assumption
  have stands : ∀ l : Fields, l .error ≠ none → (if l.findFlagValue .errorTime = 0 then
      l.setNzFlagValue .errorTime moment.now.val else l) .error ≠ none := by
    intro l present
    split
    · rwa [Fields.setNzFlagValue_of_ne (show Key.error ≠ .errorTime by decide)]
    · exact present
  refine ⟨stands _ ?_, timed _⟩
  split
  · rw [Fields.setStrValue_self, Option.filter_some, if_pos (by simpa using some_)]
    exact Option.some_ne_none text
  · assumption

/-- The error that ends a job is written. -/
theorem endInError_shows (counts : Counts c p s.job.info) (undone : Undone s.job.info)
    (error : s.job.info .error ≠ none) (errorTime : s.job.info.findFlagValue .errorTime ≠ 0) :
    ∃ s', s.endInError config moment = some s' ∧ Counts c p s'.job.info ∧
      (∀ ticket, s'.ticket = some ticket → Counts c p ticket.info) ∧ Undone s'.job.info ∧
      InError s'.job.info := by
  generalize marked : s.mapJob (·.setInfo (·.setNzFlagValue .removeTime moment.now.val)) = s₁
  have counted : Counts c p s₁.job.info := marked ▸ counts.setNzFlagValue (by decide) _
  refine ⟨(written moment s₁).saveOrRemove config.keepsErrors moment, ?_, ?_, ?_, ?_, ?_⟩
  · rw [Server.endInError, marked, setJobTicketFile_eq counted.named]
    rfl
  · rw [saveOrRemove_job]
    exact counted.written
  · exact fun ticket present => counted.written_ticket (saveOrRemove_ticket present)
  · rw [saveOrRemove_job]
    refine undone_written.1.mpr ?_
    rw [← marked]
    exact (Fields.findFlagValue_congr (Fields.setNzFlagValue_of_ne (by decide) _)).trans undone
  · rw [saveOrRemove_job]
    refine ⟨?_, ?_, ?_⟩
    · rw [(written_apply (by decide) (by decide)).1, ← marked]
      rwa [Server.mapJob_job, Job.setInfo_info,
        Fields.setNzFlagValue_of_ne (show Key.error ≠ .removeTime by decide)]
    · rw [written_flag (by decide) (by decide), ← marked]
      exact fun zero => errorTime
        ((Fields.findFlagValue_congr (Fields.setNzFlagValue_of_ne (by decide) _)).symm.trans zero)
    · rw [written_flag (by decide) (by decide), ← marked]
      exact Fields.findFlagValue_setNzFlagValue_time moment.now

/-- An error is noted and ends the job. -/
theorem noteAndEnd_shows (config : Config) (moment : Moment) (s : Server) (g : Fields → Fields)
    (text : Bytes) (some_ : text ≠ []) (counts : Counts c p (g s.job.info)) (undone : Undone (g s.job.info)) :
    ∃ s', (s.mapJob (·.setInfo fun info => (g info).noteError text moment)).endInError config moment =
        some s' ∧ Counts c p s'.job.info ∧
      (∀ ticket, s'.ticket = some ticket → Counts c p ticket.info) ∧ Undone s'.job.info ∧
      InError s'.job.info := by
  obtain ⟨error, errorTime⟩ : (g s.job.info).noteError text moment .error ≠ none ∧ _ :=
    noteError_error some_ (g s.job.info)
  refine endInError_shows (counts.noteError text) ?_ error errorTime
  exact (Fields.findFlagValue_congr (Fields.noteError_of_ne (by decide) (by decide))).trans undone

theorem stopOnAbort_job : (s.stopOnAbort config).job = s.job := by
  unfold Server.stopOnAbort
  split <;> rfl

theorem stopOnAbort_ticket : (s.stopOnAbort config).ticket = s.ticket := by
  unfold Server.stopOnAbort
  split <;> rfl

theorem stopOnAbort_stops (stops : config.stopOnAbort = true) :
    (s.stopOnAbort config).queueControlFile.findFlagValue .printingAborted ≠ 0 := by
  have one : (s.spoolControl.setFlagValue .printingAborted (1 : Nat)).findFlagValue .printingAborted =
      (1 : Nat) := findFlagValue_counted (by decide)
  rw [Server.stopOnAbort, if_pos stops]
  exact fun zero => absurd (one.symm.trans zero) (by decide)

theorem abortJob_shows {status : Status} (counts : Counts c p s.job.info) (undone : Undone s.job.info)
    (aborts : ∀ s, Taken config s status ↔ InError s.job.info ∧ (config.stopOnAbort = true →
      s.queueControlFile.findFlagValue .printingAborted ≠ 0)) :
    ∃ s', s.abortJob config moment false = some s' ∧ Shows config c p (.ended status) s' := by
  have counted : Counts c p (s.job.info.setFlagValue .priorityTime 0) :=
    counts.setFlagValue (by decide) 0
  have undone' : Undone (s.job.info.setFlagValue .priorityTime 0) :=
    (Fields.findFlagValue_setFlagValue_of_ne (by decide) 0).trans undone
  obtain ⟨s', ended, counts', tickets, undone', inError⟩ :=
    noteAndEnd_shows config moment (s.mapJob (·.setInfo (·.setFlagValue .priorityTime 0))) id
      (lit "aborting operations") (by decide) counted undone'
  refine ⟨s'.stopOnAbort config, ?_, ?_, ?_, ?_, ?_⟩
  · exact congrArg (Option.map (Server.stopOnAbort config)) ended
  · rwa [stopOnAbort_job]
  · rwa [stopOnAbort_ticket]
  · rwa [stopOnAbort_job]
  · rw [aborts, stopOnAbort_job]
    exact ⟨inError, stopOnAbort_stops⟩

theorem settle_shows (counts : Counts c p s.job.info) (undone : Undone s.job.info)
    (fits : p.copies + 1 < 2 ^ 31) (destinations : Int) {status : Status} (settles : status ≠ .jfail)
    (once : status ≠ .jfailnoretry) :
    ∃ s', s.settle config moment destinations false status = some s' ∧
      Shows config c (p.settle c status).1 (p.settle c status).2 s' := by
  cases status with
  | jsucc => exact succeedJob_shows counts undone fits
  | jfail => exact absurd rfl settles
  | jfailnoretry => exact absurd rfl once
  | jhold => exact holdJob_shows counts undone
  | jremove =>
      obtain ⟨s', ended, counts', tickets, undone', inError⟩ :=
        noteAndEnd_shows config moment s id (lit "too many errors") (by decide) counts undone
      exact ⟨s', ended, counts', tickets, undone', inError⟩
  | jabort => exact abortJob_shows counts undone fun _ => Iff.rfl
  | jtimeout => exact abortJob_shows counts undone fun _ => Iff.rfl
  | other code => exact abortJob_shows counts undone fun _ => Iff.rfl

theorem failNoRetry_shows (counts : Counts c p s.job.info) (undone : Undone s.job.info)
    (fits : p.attempts + 1 < 2 ^ 31) :
    ∃ s', s.failNoRetry config moment false = some s' ∧
      Shows config c p.addAttempt (.ended .jfailnoretry) s' := by
  have undone' : Undone s.job.info.countAttempt :=
    (Fields.findFlagValue_setFlagValue_of_ne (by decide) _).trans undone
  obtain ⟨s', ended, counts', tickets, undone'', inError⟩ :=
    noteAndEnd_shows config moment s Fields.countAttempt (lit "failed, no retry") (by decide)
      (counts.addAttempt fits) undone'
  exact ⟨s', ended, counts', tickets, undone'', inError⟩

/-! ## Failures -/

/-- A failure action that is a filter does what it stands for: it exits with a status that is not
the one for a failure without retry, and if it exits with 0 it prints what removes the job. -/
def FilterMeets (config : Config) (result : Result) : Prop :=
  ∀ action, config.sendFailureAction = some action → isFilter action = true →
    result.moment.filterExit ≠ .jfailnoretry ∧
      (result.moment.filterExit = .jsucc → keywordAction (trimmedOutput result.printed) = .jremove)

theorem keywordAction_is (text : Bytes) :
    keywordAction text ∈ [Status.jsucc, .jabort, .jhold, .jremove] := by
  have keys : ∀ entry ∈ failureKeys, entry.2 ∈ [Status.jsucc, .jabort, .jhold, .jremove] := by decide
  unfold keywordAction
  split
  · next entry found => exact keys _ (List.mem_of_find?_eq_some found)
  · decide

theorem decodeTransferFailure_of_keyword {moment : Moment} {action : Bytes} (given : config.sendFailureAction = some action)
    (keyword : ¬ isFilter action = true) :
    decodeTransferFailure config moment = keywordAction (action.dropWhile isSpace) := by
  have plain : ¬ (action.dropWhile isSpace).head? = some 124 := fun bar => keyword (decide_eq_true bar)
  rw [decodeTransferFailure, given]
  exact if_neg plain

theorem configuredAction_of_keyword {result : Result} {action : Bytes} (given : config.sendFailureAction = some action)
    (keyword : ¬ isFilter action = true) :
    configuredAction config result = keywordAction (action.dropWhile isSpace) := by
  rw [configuredAction, given]
  exact if_neg keyword

/-- The action that is taken at the limit. -/
theorem failureStatus_eq {result : Result} (meets : FilterMeets config result) {attempt : Int}
    (limit : 0 < config.sendTry ∧ config.sendTry ≤ attempt) :
    failureStatus config result.moment attempt = configuredAction config result ∧
      configuredAction config result ≠ .jfailnoretry := by
  unfold failureStatus
  rw [if_pos ⟨limit.1, limit.2⟩]
  rcases given : config.sendFailureAction with - | action
  · rw [decodeTransferFailure, configuredAction, given]
    exact ⟨rfl, by simp⟩
  · by_cases filter : isFilter action = true
    · obtain ⟨once, printed⟩ := meets action given filter
      rw [decodeTransferFailure, configuredAction, given]
      dsimp only
      rw [if_pos filter, if_pos (of_decide_eq_true filter)]
      rcases exit : result.moment.filterExit with - | - | - | - | - | - | - | code
      · rw [if_pos rfl, printed exit]
        exact ⟨rfl, by simp⟩
      · exact ⟨rfl, by simp⟩
      · exact ⟨rfl, by simp⟩
      · exact ⟨rfl, by simp⟩
      · exact ⟨rfl, by simp⟩
      · exact absurd exit once
      · exact ⟨rfl, by simp⟩
      · exact ⟨rfl, by simp⟩
    · rw [decodeTransferFailure_of_keyword given filter, configuredAction_of_keyword given filter]
      have known := keywordAction_is (action.dropWhile isSpace)
      generalize keywordAction (action.dropWhile isSpace) = status at known
      simp only [List.mem_cons, List.not_mem_nil, or_false] at known
      rcases known with rfl | rfl | rfl | rfl
      all_goals exact ⟨rfl, by simp⟩

/-- Another try: the error is withdrawn. -/
theorem retryJob_shows (counts : Counts c p s.job.info) (undone : Undone s.job.info) :
    ∃ s', s.retryJob moment false = some s' ∧ Shows config c p .again s' := by
  have counted : Counts c p s.job.info.clearError := by
    have outside : Key.error ∉ countKeys ∧ Key.errorTime ∉ countKeys ∧ Key.prstatus ∉ countKeys := by
      decide
    exact ((counts.setStrValue outside.1 none).setFlagValue outside.2.1 0).setStrValue outside.2.2 none
  have undone' : Undone s.job.info.clearError :=
    (Fields.findFlagValue_congr
      (Fields.clearError_of_ne (by decide) (by decide) (by decide))).trans undone
  exact ⟨_, setJobTicketFile_eq counted.named, again_shows counted undone'⟩

theorem failJob_shows {result : Result} (counts : Counts c p s.job.info) (undone : Undone s.job.info)
    (fits : p.copies + 1 < 2 ^ 31) (fits' : p.attempts + 1 < 2 ^ 31)
    (meets : 0 < config.sendTry ∧ config.sendTry ≤ p.addAttempt.attempts → FilterMeets config result)
    (destinations : Int) :
    ∃ s' r, s.failJob config result.moment destinations false = some s' ∧
      r = (if 0 < config.sendTry ∧ config.sendTry ≤ p.addAttempt.attempts then
        p.addAttempt.settle c (configuredAction config result) else (p.addAttempt, .again)) ∧
      Shows config c r.1 r.2 s' := by
  generalize counting : s.mapJob (·.setInfo Fields.countAttempt) = s₁
  have counted : Counts c p.addAttempt s₁.job.info := counting ▸ counts.addAttempt fits'
  have undone' : Undone s₁.job.info :=
    counting ▸ (Fields.findFlagValue_setFlagValue_of_ne (by decide) _).trans undone
  have counted' : Counts c p.addAttempt (written result.moment s₁).job.info := counted.written
  have undone'' : Undone (written result.moment s₁).job.info := undone_written.1.mpr undone'
  have next : s.job.info.nextAttempt = (p.addAttempt.attempts : Int) := by
    rw [Fields.nextAttempt, counts.attempt]
    rfl
  have wrote : s.countFailure result.moment false = some (written result.moment s₁) := by
    rw [← setJobTicketFile_eq counted.named, ← counting]
    rfl
  unfold Server.failJob
  rw [wrote, Option.bind_some]
  simp only [Bool.false_eq_true, if_false, next]
  unfold Server.resumeFailed
  by_cases limit : 0 < config.sendTry ∧ config.sendTry ≤ p.addAttempt.attempts
  · obtain ⟨taken, once⟩ := failureStatus_eq (meets limit) limit
    rw [taken, if_pos limit]
    by_cases retries : configuredAction config result = .jfail
    · rw [if_pos retries, retries]
      obtain ⟨s', ended, shows⟩ := retryJob_shows counted' undone''
      exact ⟨s', _, ended, rfl, shows⟩
    · rw [if_neg retries]
      obtain ⟨s', ended, shows⟩ := settle_shows counted' undone'' fits destinations retries once
      exact ⟨s', _, ended, rfl, shows⟩
  · have retries : failureStatus config result.moment p.addAttempt.attempts = .jfail := if_neg limit
    rw [if_pos retries, if_neg limit]
    obtain ⟨s', ended, shows⟩ := retryJob_shows counted' undone''
    exact ⟨s', _, ended, rfl, shows⟩

/-! ## Results one after another -/

theorem Counts.copies_lt (counts : Counts c p info) : c < 2 ^ 31 := by
  rw [← counts.copies, Fields.findFlagValue]
  split
  · decide
  · unfold flagOfText
    split
    · exact toInt32_lt _
    · decide

def Fails (status : Status) : Prop := status = .jfail ∨ status = .jtimeout

/-- The attempts fit an `int`, and the failure action does what it stands for. -/
structure Meets (config : Config) (p : Progress) (result : Result) : Prop where
  fits : Fails result.status ∨ result.status = .jfailnoretry → p.attempts + 1 < 2 ^ 31
  filter : Fails result.status → 0 < config.sendTry ∧ config.sendTry ≤ p.addAttempt.attempts →
    FilterMeets config result

/-- What a result prescribes is what the job shows. -/
theorem updateStatus_shows {result : Result} (counts : Counts c p s.job.info)
    (undone : Undone s.job.info) (left : (p.copies : Int) < max 1 c) (meets : Meets config p result) :
    ∃ s', s.updateStatus config result.moment result.status = some s' ∧
      Shows config c (p.record config c result).1 (p.record config c result).2 s' := by
  have fits : p.copies + 1 < 2 ^ 31 := by
    have := counts.copies_lt
    omega
  have unrouted : s.job.currentDestination = none := by
    rw [Job.currentDestination, if_pos counts.plain]
  obtain ⟨single, opened⟩ := Server.openJob_none unrouted
  rw [Server.updateStatus_eq _ _ counts.identified, single]
  generalize (Server.openJob s.job).1.info.findFlagValue .destinations = d
  generalize opening : s.mapJob (fun _ => (Server.openJob s.job).1) = s₁
  have info : s₁.job.info = s.job.info.setDecimalValue .server 0 := opening ▸ opened
  have counted : Counts c p s₁.job.info := info ▸ counts.setDecimalValue (by decide) 0
  have undone' : Undone s₁.job.info := by
    rw [info]
    exact (Fields.findFlagValue_setDecimalValue_of_ne (by decide) 0).trans undone
  by_cases fails : result.status = .jfail ∨ result.status = .jtimeout
  · obtain ⟨s', r, ended, prescribed, shows⟩ := failJob_shows counted undone' fits
      (meets.fits (.inl fails)) (meets.filter fails) d
    have recorded : p.record config c result = r := by
      rw [prescribed]
      unfold Progress.record
      rcases fails with status | status <;> rw [status]
    rw [if_pos fails, recorded]
    exact ⟨s', ended, shows⟩
  · rw [if_neg fails]
    by_cases once : result.status = .jfailnoretry
    · obtain ⟨s', ended, shows⟩ := failNoRetry_shows counted undone' (meets.fits (.inr once))
      unfold Progress.record
      rw [once]
      exact ⟨s', ended, shows⟩
    · obtain ⟨settles, notLate⟩ := not_or.mp fails
      have recorded : p.record config c result = p.settle c result.status := by
        unfold Progress.record
        rcases status : result.status with - | - | - | - | - | - | - | code
        all_goals first | rfl | exact absurd status ‹_›
      rw [recorded]
      exact settle_shows counted undone' fits d settles once

/-- A job that is served until it is done or ended, with what the results so far prescribe. -/
structure Served where
  server : Server
  progress : Progress
  verdict : Verdict

/-- The server takes the next result of a subserver while there is another copy or try. -/
def Served.next (config : Config) (c : Int) (q : Served) (result : Result) : Option Served :=
  match q.verdict with
  | .again => (q.server.waitForSubserver config result.moment result.status).map fun s =>
      ⟨s, (q.progress.record config c result).1, (q.progress.record config c result).2⟩
  | _ => none

/-- A ticket on disk with the counts, which says that copies are left to be printed. -/
structure Served.Waits (c : Int) (q : Served) : Prop where
  ticket : ∃ ticket, q.server.ticket = some ticket ∧ Counts c q.progress ticket.info ∧
    Undone ticket.info
  left : (q.progress.copies : Int) < max 1 c

/-- A job with counters that were set at the start or reset, and copies left. -/
structure Served.Fresh (c : Int) (q : Served) : Prop extends q.Waits c where
  again : q.verdict = .again

/-- The runs of the results of subservers for a job with `c` copies. -/
def served (config : Config) (c : Int) : System Served Result :=
  System.ofNext (Served.Fresh c) (Served.next config c)

/-- The job waits with its counts on disk; or it shows them, and is done with the last copy or
ended by an action. -/
def Served.Right (config : Config) (c : Int) (q : Served) : Prop :=
  match q.verdict with
  | .again => q.Waits c
  | .done => Shows config c q.progress .done q.server ∧ q.progress.copies = max 1 c
  | .ended action => Shows config c q.progress (.ended action) q.server ∧ q.progress.copies < max 1 c

/-- All copies are printed exactly if the job is done. -/
def Tallies (c : Int) (r : Progress × Verdict) : Prop :=
  match r.2 with
  | .done => (r.1.copies : Int) = max 1 c
  | _ => (r.1.copies : Int) < max 1 c

theorem settle_tallies (left : (p.copies : Int) < max 1 c) (status : Status) :
    Tallies c (p.settle c status) := by
  cases status with
  | jsucc =>
      unfold Progress.settle Progress.succeed Tallies
      by_cases last : max 1 c ≤ (p.addCopy.copies : Int)
      · rw [if_pos last]
        unfold Progress.addCopy at last ⊢
        push_cast at last ⊢
        omega
      · rw [if_neg last]
        exact Int.not_le.mp last
  | _ => exact left

theorem record_tallies (left : (p.copies : Int) < max 1 c) (result : Result) :
    Tallies c (p.record config c result) := by
  have failed : Tallies c (if 0 < config.sendTry ∧ config.sendTry ≤ p.addAttempt.attempts then
      p.addAttempt.settle c (configuredAction config result) else (p.addAttempt, .again)) := by
    have left' : (p.addAttempt.copies : Int) < max 1 c := left
    split
    · exact settle_tallies left' _
    · exact left'
  unfold Progress.record
  rcases result.status with - | - | - | - | - | - | - | code
  · exact settle_tallies left .jsucc
  · exact failed
  · exact left
  · exact left
  · exact left
  · exact left
  · exact failed
  · exact left

/-- One result: what it prescribes comes true. -/
theorem Served.next_right {q q' : Served} {result : Result} (right : q.Right config c)
    (meets : Meets config q.progress result) (step : q.next config c result = some q') :
    q'.Right config c := by
  rcases q with ⟨s, p, verdict⟩
  rcases verdict with - | - | action
  · obtain ⟨⟨ticket, present, counts, undone⟩, left⟩ := right
    have tallies : Tallies c (p.record config c result) := record_tallies left result
    have waited : s.waitForSubserver config result.moment result.status =
        { s with job := ticket.toJob }.updateStatus config result.moment result.status := by
      rw [Server.waitForSubserver, present]
    obtain ⟨s', ended, shows⟩ : ∃ s', { s with job := ticket.toJob }.updateStatus config result.moment
        result.status = some s' ∧ _ := updateStatus_shows counts undone left meets
    unfold Served.next at step
    dsimp only at step
    rw [waited, ended] at step
    obtain rfl := Option.some.inj step
    unfold Served.Right
    unfold Tallies at tallies
    dsimp only
    generalize p.record config c result = r at shows tallies
    rcases r with ⟨p', - | - | action⟩
    · obtain ⟨ticket', present', undone'⟩ := shows.verdict.2
      exact ⟨⟨ticket', present', shows.ticket ticket' present', undone'⟩, tallies⟩
    · exact ⟨shows, tallies⟩
    · exact ⟨shows, tallies⟩
  · cases step
  · cases step

/-- In every run of results that meet the condition, the job shows what they prescribe. -/
theorem served_right {q : Served}
    (reached : (served config c).Reachable (fun q result => Meets config q.progress result) q) :
    q.Right config c := by
  refine reached.invariant (fun q fresh => ?_) fun q result q' right meets step =>
    Served.next_right right meets step
  unfold Served.Right
  rw [fresh.again]
  exact fresh.toWaits

/-! ### One job -/

/-- A ticket with one copy to be printed. -/
def freshTicket : Ticket :=
  ⟨(Fields.empty.setStrValue .identifier (some (lit "A1"))).setStrValue .hfName (some (lit "hfA001")),
    fun _ => none, []⟩

def freshServed : Served :=
  ⟨⟨freshTicket.toJob, some freshTicket, fun _ => false, .empty, .empty, 0, 0⟩, ⟨0, 0⟩, .again⟩

theorem freshServed_fresh : freshServed.Fresh 0 where
  ticket := ⟨freshTicket, rfl, ⟨by decide, by decide, rfl, rfl, rfl, rfl, rfl⟩, rfl⟩
  left := by decide
  again := rfl

/-- The server gives up at the first failure, and asks a filter what to do then. -/
def filterConfig : Config := ⟨0, 1, some (lit "|decide"), false, true, 0, 0, false⟩

def noon : Moment := ⟨⟨43200, by decide, by decide⟩, lit "12:00", .jsucc⟩

theorem printed_right :
    ∃ q, Served.next filterConfig 0 freshServed ⟨noon, .jsucc, []⟩ = some q ∧
      q.Right filterConfig 0 := by
  have meets : Meets filterConfig freshServed.progress ⟨noon, .jsucc, []⟩ :=
    ⟨fun fails => by simp [Fails] at fails, fun fails => by simp [Fails] at fails⟩
  exact ⟨_, rfl, served_right (.step (.init freshServed_fresh) meets rfl)⟩

/-- A filter that prints `hold` and exits with 0 does not hold the job. -/
theorem held_lost :
    ¬∀ (config : Config) (c : Int) (q : Served), (served config c).Reachable
        (fun q _ => q.progress.attempts + 1 < 2 ^ 31) q → q.Right config c := by
  intro always
  have right := always filterConfig 0 _
    (.step (.init freshServed_fresh) (by decide) (e := ⟨noon, .jfail, lit "hold\n"⟩) rfl)
  have held : Taken filterConfig _ .jhold := right.1.verdict.2
  exact held rfl

end Attempts

end LPRng
