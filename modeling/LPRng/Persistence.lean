import LPRng.UpdateStatus

/-!
# What a recorded outcome leaves on disk

`Update_status` changes the job and its destination list in memory and writes the
ticket on its own in each of its cases. `Server.Persisted` says that nothing of this is
left in memory only. Every case of a job without a current destination, and every case
that writes last, keeps it; `Server.updateStatus_persisted_iff` says when the remaining
ones do.
-/

namespace LPRng

/-! ## Tickets that hold the job -/

/-- The job with its destination list back in the field it came from. -/
def Job.encoded (hasDest : Bool) (job : Job) : Job :=
  if hasDest then job.updateDestination else job

/-- The field of the current destination holds the list in memory. -/
def Job.Packed (hasDest : Bool) (job : Job) : Prop :=
  hasDest = true →
    job.dests (destName (job.destination.findFlagValue .destination)) = some job.destination

namespace Job

theorem updateDestination_eq_self_iff {job : Job} :
    job.updateDestination = job ↔ job.Packed true := by
  rw [Packed]
  constructor
  · intro same _
    rw [← congrArg (fun changed : Job => changed.dests _) same]
    exact Function.update_self ..
  · intro packed
    rw [updateDestination, Function.update_eq_self_iff.mpr (packed rfl).symm]

theorem Packed.encoded {job : Job} {hasDest : Bool} (packed : job.Packed hasDest) :
    job.encoded hasDest = job := by
  cases hasDest with
  | false => rfl
  | true => exact updateDestination_eq_self_iff.mpr packed

theorem packed_false (job : Job) : job.Packed false := fun impossible => nomatch impossible

theorem packed_updateDestination (job : Job) (hasDest : Bool) :
    job.updateDestination.Packed hasDest := fun _ => Function.update_self ..

theorem Packed.setInfo {job : Job} {hasDest : Bool} (packed : job.Packed hasDest)
    (change : Fields → Fields) : (job.setInfo change).Packed hasDest := packed

@[simp] theorem ticketImage_info_of_ne {job : Job} {key : Key} (written : key ≠ .openname) :
    job.ticketImage.info key = job.info key := Function.update_of_ne written ..

@[simp] theorem ticketImage_info_openname {job : Job} :
    job.ticketImage.info .openname = none := by simp [ticketImage]

@[simp] theorem ticketImage_dests {job : Job} : job.ticketImage.dests = job.dests := rfl

/-- Two jobs with the same data files are written alike when they agree on their
written fields and their destinations. -/
theorem ticketImage_eq_iff (job job' : Job) (sameFiles : job.datafiles = job'.datafiles) :
    job.ticketImage = job'.ticketImage ↔
      (∀ key, key ≠ .openname → job.info key = job'.info key) ∧ job.dests = job'.dests := by
  constructor
  · intro same
    refine ⟨fun key written => ?_, congrArg (·.dests) same⟩
    rw [← ticketImage_info_of_ne written, same, ticketImage_info_of_ne written]
  · rintro ⟨sameInfo, sameDests⟩
    have info : job.ticketImage.info = job'.ticketImage.info := by
      funext key
      rcases eq_or_ne key .openname with rfl | written
      · rw [ticketImage_info_openname, ticketImage_info_openname]
      · rw [ticketImage_info_of_ne written, ticketImage_info_of_ne written, sameInfo key written]
    simp only [ticketImage, Ticket.mk.injEq] at info ⊢
    exact ⟨info, sameDests, by rw [sameFiles]⟩

end Job

namespace Fields

variable {l : Fields} {key : Key} {text : Bytes} {moment : Moment}

@[simp] theorem noteError_of_ne (notError : key ≠ .error) (notTime : key ≠ .errorTime) :
    l.noteError text moment key = l key := by
  rw [noteError]
  split <;> split <;> simp [notError, notTime]

@[simp] theorem countAttempt_of_ne (different : key ≠ .attempt) : l.countAttempt key = l key :=
  setFlagValue_of_ne different _

@[simp] theorem clearError_of_ne (notError : key ≠ .error) (notTime : key ≠ .errorTime)
    (notStatus : key ≠ .prstatus) : l.clearError key = l key := by
  simp [clearError, notError, notTime, notStatus]

/-- A list with an error already keeps it, and only such a list does. -/
theorem noteError_eq_self_iff (moment : Moment) (nonempty : text ≠ []) :
    l.noteError text moment = l ↔ l .error ≠ none ∧ l.findFlagValue .errorTime ≠ 0 := by
  constructor
  · intro same
    have error : l.noteError text moment .error ≠ none := by
      rw [noteError]
      split <;> split <;> simp_all
    have timed : ∀ l : Fields, (if l.findFlagValue .errorTime = 0 then
        l.setNzFlagValue .errorTime moment.now.val else l).findFlagValue .errorTime ≠ 0 := by
      intro l
      split
      · exact findFlagValue_setNzFlagValue_time moment.now
      · assumption
    have time : (l.noteError text moment).findFlagValue .errorTime ≠ 0 := timed _
    rw [same] at error time
    exact ⟨error, time⟩
  · rintro ⟨error, time⟩
    rw [noteError, if_neg error, if_neg time]

theorem noteError_setDecimalValue_eq_self_iff (nonempty : text ≠ []) {value : Int} :
    (l.setDecimalValue .server value).noteError text moment = l ↔
      l .server = some (printInt value) ∧ l .error ≠ none ∧ l.findFlagValue .errorTime ≠ 0 := by
  rw [← setDecimalValue_eq_self_iff, ← noteError_eq_self_iff moment nonempty]
  constructor
  · intro same
    have server : l.setDecimalValue .server value = l := by
      have line := congrFun same .server
      rw [noteError_of_ne (by decide) (by decide), setDecimalValue_self] at line
      exact setDecimalValue_eq_self_iff.mpr line.symm
    refine ⟨server, ?_⟩
    rwa [server] at same
  · rintro ⟨server, same⟩
    rw [server, same]

/-- Withdrawing an error changes nothing only where no line of it stands. -/
theorem clearError_eq_self_iff :
    l.clearError = l ↔
      l .error = none ∧ l .errorTime = some (printHex 0) ∧ l .prstatus = none := by
  constructor
  · intro same
    have error := congrFun same .error
    have time := congrFun same .errorTime
    have status := congrFun same .prstatus
    simp only [clearError] at error time status
    simp at error time status
    exact ⟨error.symm, time.symm, status.symm⟩
  · rintro ⟨error, time, status⟩
    rw [clearError, setStrValue_eq_self (l := l) (by simpa using error),
      setFlagValue_eq_self_iff.mpr time, setStrValue_eq_self (by simpa using status)]

end Fields

namespace Server

/-- The files of the job are gone, or its ticket holds the job in memory, with the list
of its current destination encoded again and the `SERVER` field cleared. -/
def Persisted (hasDest : Bool) (s : Server) : Prop :=
  (s.ticket = none ∧ ∀ name ∈ jobFiles s.job, s.files name = false) ∨
    (s.ticket = some (s.job.encoded hasDest).ticketImage ∧ s.job.info.findFlagValue .server = 0)

/-- What every case starts from: a ticket that can be written, and `SERVER` cleared. -/
structure Opened (s : Server) : Prop where
  named : s.job.info .hfName ≠ none
  cleared : s.job.info.findFlagValue .server = 0

/-- What every write of the ticket ends with. -/
structure Written (hasDest : Bool) (s : Server) : Prop extends Opened s where
  packed : s.job.Packed hasDest
  image : s.ticket = some s.job.ticketImage

variable (config : Config) (moment : Moment) {hasDest : Bool} {s : Server}

theorem Written.persisted (written : s.Written hasDest) : s.Persisted hasDest :=
  Or.inr ⟨by rw [written.packed.encoded, written.image], written.cleared⟩

theorem Opened.mapJob {f : Job → Job} (opened : s.Opened)
    (name : (f s.job).info .hfName = s.job.info .hfName)
    (server : (f s.job).info .server = s.job.info .server) : (s.mapJob f).Opened :=
  ⟨name ▸ opened.named, (Fields.findFlagValue_congr server).trans opened.cleared⟩

/-- `Set_job_ticket_file` writes the job in memory as it stands then. -/
theorem setJobTicketFile_written (opened : s.Opened) (packed : s.job.Packed hasDest) :
    ∃ s' ∈ s.setJobTicketFile moment, s'.Written hasDest ∧
      s'.job = s.job.setInfo (·.setStrValue .updateTime moment.timeStr) := by
  have named : (s.job.setInfo (·.setStrValue .updateTime moment.timeStr)).info .hfName ≠ none := by
    rw [Job.setInfo_info, Fields.setStrValue_of_ne (by decide)]
    exact opened.named
  refine ⟨_, if_neg named, ⟨⟨named, ?_⟩, packed.setInfo _, rfl⟩, rfl⟩
  exact (Fields.findFlagValue_congr (Fields.setStrValue_of_ne (by decide) _)).trans opened.cleared

/-- A job over and done with is either kept as it was written or has no files left. -/
theorem Written.saveOrRemove {keeps : Bool} (written : s.Written hasDest) :
    (s.saveOrRemove keeps moment).Persisted hasDest := by
  cases keeps with
  | true => exact written.persisted
  | false =>
      refine Or.inl ⟨if_neg written.named, fun name member => ?_⟩
      exact Bool.and_eq_false_imp.mpr fun _ => decide_eq_false (not_not_intro member)

theorem exists_mem_map {o : Option Server} {f : Server → Server} {P : Server → Prop}
    (ends : ∃ s ∈ o, P (f s)) : ∃ s ∈ o.map f, P s := by
  obtain ⟨s, member, holds⟩ := ends
  exact ⟨f s, Option.mem_map_of_mem f member, holds⟩

/-! ## The cases that write last -/

theorem setJobTicketFile_persisted (opened : s.Opened) (packed : s.job.Packed hasDest) :
    ∃ s' ∈ s.setJobTicketFile moment, s'.Persisted hasDest := by
  obtain ⟨s', wrote, written, _⟩ := setJobTicketFile_written moment opened packed
  exact ⟨s', wrote, written.persisted⟩

theorem doneJob_persisted (opened : s.Opened) (packed : s.job.Packed hasDest) :
    ∃ s' ∈ s.doneJob config moment, s'.Persisted hasDest := by
  rw [doneJob, if_neg opened.named]
  have marked := opened.mapJob
    (f := (·.setInfo (·.setFlagValue .removeTime moment.now.val))) (by simp) (by simp)
  obtain ⟨s', wrote, written, _⟩ := setJobTicketFile_written moment marked (packed.setInfo _)
  exact exists_mem_map ⟨s', wrote, written.saveOrRemove moment⟩

theorem endInError_persisted (opened : s.Opened) (packed : s.job.Packed hasDest) :
    ∃ s' ∈ s.endInError config moment, s'.Persisted hasDest := by
  have marked := opened.mapJob
    (f := (·.setInfo (·.setNzFlagValue .removeTime moment.now.val))) (by simp) (by simp)
  obtain ⟨s', wrote, written, _⟩ := setJobTicketFile_written moment marked (packed.setInfo _)
  exact exists_mem_map ⟨s', wrote, written.saveOrRemove moment⟩

/-! ## The cases of `Update_status` -/

theorem holdJob_persisted (opened : s.Opened) :
    ∃ s' ∈ s.holdJob moment hasDest, s'.Persisted hasDest := by
  cases hasDest with
  | false => exact setJobTicketFile_persisted moment (opened.mapJob (by simp) (by simp)) (Job.packed_false _)
  | true =>
      exact setJobTicketFile_persisted moment (opened.mapJob rfl rfl) (Job.packed_updateDestination _ _)

theorem succeedDestination_persisted (opened : s.Opened) (destinations : Int) :
    ∃ s' ∈ s.succeedDestination config moment destinations, s'.Persisted true := by
  have counted := opened.mapJob (f := fun job =>
    ((job.setInfo fun info =>
        info.setFlagValue .sequence (info.findFlagValue .sequence + 1)).setDestination
      fun _ => (finishDestination moment s.job.destination).1).updateDestination)
    (by simp) (by simp)
  have packed := Job.packed_updateDestination
    ((s.job.setInfo fun info =>
        info.setFlagValue .sequence (info.findFlagValue .sequence + 1)).setDestination
      fun _ => (finishDestination moment s.job.destination).1) true
  rw [succeedDestination]
  split
  · exact doneJob_persisted config moment (counted.mapJob (by simp) (by simp)) (packed.setInfo _)
  · exact setJobTicketFile_persisted moment counted packed

theorem succeedJob_persisted (opened : s.Opened) :
    ∃ s' ∈ s.succeedJob config moment, s'.Persisted false := by
  have copied : ∀ key, key ≠ .copyDone → key ≠ .doneTime →
      (s.job.info.countCopy (s.job.info.findFlagValue .copies) moment).1 key = s.job.info key := by
    intro key notCopy notDone
    rw [Fields.countCopy]
    split <;> simp [notCopy, notDone]
  rw [succeedJob]
  split
  · exact doneJob_persisted config moment (opened.mapJob (by simp) (by simp)) (Job.packed_false _)
  · have counted := opened.mapJob (f := (·.setInfo fun _ =>
        (s.job.info.countCopy (s.job.info.findFlagValue .copies) moment).1))
      (copied _ (by decide) (by decide)) (copied _ (by decide) (by decide))
    dsimp only
    split
    · exact doneJob_persisted config moment counted (Job.packed_false _)
    · exact setJobTicketFile_persisted moment counted (Job.packed_false _)

theorem failNoRetry_persisted (opened : s.Opened) :
    ∃ s' ∈ s.failNoRetry config moment hasDest, s'.Persisted hasDest := by
  cases hasDest with
  | false => exact endInError_persisted config moment (opened.mapJob (by simp) (by simp)) (Job.packed_false _)
  | true =>
      exact setJobTicketFile_persisted moment (opened.mapJob rfl rfl) (Job.packed_updateDestination _ _)

theorem removeFailedJob_persisted (opened : s.Opened) :
    ∃ s' ∈ s.removeFailedJob config moment hasDest, s'.Persisted hasDest := by
  cases hasDest with
  | false => exact endInError_persisted config moment (opened.mapJob (by simp) (by simp)) (Job.packed_false _)
  | true =>
      exact setJobTicketFile_persisted moment (opened.mapJob rfl rfl) (Job.packed_updateDestination _ _)

theorem Persisted.stopOnAbort (persisted : s.Persisted hasDest) :
    (s.stopOnAbort config).Persisted hasDest := by
  rw [Server.stopOnAbort]
  split <;> exact persisted

theorem abortJob_persisted (opened : s.Opened) :
    ∃ s' ∈ s.abortJob config moment false, s'.Persisted false := by
  obtain ⟨s', ended, persisted⟩ := endInError_persisted config moment
    (s := (s.mapJob (·.setInfo (·.setFlagValue .priorityTime 0))).mapJob
      (·.setInfo (·.noteError (lit "aborting operations") moment)))
    ((opened.mapJob (by simp) (by simp)).mapJob (by simp) (by simp)) (Job.packed_false _)
  exact exists_mem_map ⟨s', ended, persisted.stopOnAbort config⟩

theorem countFailure_written (hasDest : Bool) (opened : s.Opened) :
    ∃ s' ∈ s.countFailure moment hasDest, s'.Written hasDest ∧
      s'.job.destination = (if hasDest then s.job.destination.countAttempt else s.job.destination) ∧
      (hasDest = true → s'.job.info = s.job.info.setStrValue .updateTime moment.timeStr) := by
  cases hasDest with
  | false =>
      obtain ⟨s', wrote, written, job⟩ := setJobTicketFile_written moment
        (opened.mapJob (f := (·.setInfo Fields.countAttempt)) (by simp) (by simp))
        (Job.packed_false _)
      exact ⟨s', wrote, written, by rw [job]; rfl, fun impossible => nomatch impossible⟩
  | true =>
      obtain ⟨s', wrote, written, job⟩ := setJobTicketFile_written moment
        (opened.mapJob (f := fun job =>
          (job.setDestination Fields.countAttempt).updateDestination) rfl rfl)
        (Job.packed_updateDestination _ true)
      exact ⟨s', wrote, written, by rw [job]; rfl, fun _ => by rw [job]; rfl⟩

theorem retryJob_persisted (opened : s.Opened) :
    ∃ s' ∈ s.retryJob moment false, s'.Persisted false :=
  setJobTicketFile_persisted moment (opened.mapJob (by simp) (by simp)) (Job.packed_false _)

/-- After a write the ticket holds the current destination only if the field of its
number held its list before. -/
theorem Written.persisted_iff (written : s.Written false) :
    s.Persisted true ↔ s.job.Packed true := by
  rw [Persisted, written.image]
  constructor
  · rintro (⟨absent, _⟩ | ⟨image, _⟩)
    · cases absent
    · have dests := ((Job.ticketImage_eq_iff s.job s.job.updateDestination rfl).mp (Option.some.inj image)).2
      intro _
      rw [dests]
      exact Function.update_self ..
  · intro packed
    exact Or.inr ⟨by rw [packed.encoded], written.cleared⟩

/-- A retry of a destination is written only where nothing is withdrawn from its list. -/
theorem retryJob_persisted_iff (written : s.Written true) :
    ∃ s' ∈ s.retryJob moment true, (s'.Persisted true ↔
      s.job.destination .error = none ∧ s.job.destination .errorTime = some (printHex 0) ∧
        s.job.destination .prstatus = none) := by
  obtain ⟨s', wrote, stored, job⟩ := setJobTicketFile_written moment
    (written.toOpened.mapJob (f := (·.setDestination Fields.clearError)) rfl rfl)
    (Job.packed_false _)
  refine ⟨s', wrote, ?_⟩
  have number : s.job.destination.clearError.findFlagValue .destination =
      s.job.destination.findFlagValue .destination :=
    Fields.findFlagValue_congr (Fields.clearError_of_ne (by decide) (by decide) (by decide))
  have packed : s'.job.Packed true ↔ s.job.destination.clearError = s.job.destination := by
    have held := written.packed rfl
    simp only [Job.Packed, job, mapJob, Job.setInfo_dests, Job.setInfo_destination,
      Job.setDestination_dests, Job.setDestination_destination, number, held, forall_const,
      Option.some.injEq]
    exact eq_comm
  rw [stored.persisted_iff, packed, Fields.clearError_eq_self_iff]

/-- An abort of a destination is on disk only where the ticket says the same before. -/
theorem abortJob_persisted_iff (opened : s.Opened) {job : Job}
    (image : s.ticket = some job.ticketImage) (sameFiles : job.datafiles = s.job.datafiles) :
    ∃ s' ∈ s.abortJob config moment true, (s'.Persisted true ↔
      (∀ key, key ≠ .openname →
        job.info key = s.job.info.setFlagValue .priorityTime 0 key) ∧
      job.dests = Function.update s.job.dests
        (destName ((s.job.destination.noteError (lit "aborting operations") moment).findFlagValue
          .destination))
        (some (s.job.destination.noteError (lit "aborting operations") moment))) := by
  let aborted := ((s.job.setInfo (·.setFlagValue .priorityTime 0)).setDestination
    (·.noteError (lit "aborting operations") moment)).updateDestination
  refine ⟨(s.mapJob fun _ => aborted).stopOnAbort config, rfl, ?_⟩
  have persisted : ((s.mapJob fun _ => aborted).stopOnAbort config).Persisted true ↔
      (s.mapJob fun _ => aborted).Persisted true := by
    rw [stopOnAbort]
    split <;> rfl
  have packed : aborted.encoded true = aborted := (Job.packed_updateDestination _ true).encoded
  have cleared : aborted.info.findFlagValue .server = 0 :=
    (opened.mapJob (f := fun _ => aborted) (by simp [aborted]) (by simp [aborted])).cleared
  rw [persisted, Persisted]
  change (s.ticket = none ∧ _) ∨ (s.ticket = some (aborted.encoded true).ticketImage ∧
    aborted.info.findFlagValue .server = 0) ↔ _
  rw [packed, image, Option.some_inj, Job.ticketImage_eq_iff job aborted sameFiles]
  constructor
  · rintro (⟨absent, _⟩ | ⟨same, _⟩)
    · cases absent
    · exact same
  · intro same
    exact Or.inr ⟨same, cleared⟩

theorem settle_persisted (opened : s.Opened) (destinations : Int) {status : Status}
    (writes : hasDest = false ∨ status = .jsucc ∨ status = .jhold ∨ status = .jfailnoretry ∨
      status = .jremove) :
    ∃ s' ∈ s.settle config moment destinations hasDest status, s'.Persisted hasDest := by
  cases status with
  | jhold => exact holdJob_persisted moment opened
  | jfailnoretry => exact failNoRetry_persisted config moment opened
  | jremove => exact removeFailedJob_persisted config moment opened
  | jsucc =>
      cases hasDest with
      | false => exact succeedJob_persisted config moment opened
      | true => exact succeedDestination_persisted config moment opened destinations
  | jfail | jabort | jtimeout | other =>
      obtain rfl : hasDest = false := by simpa using writes
      exact abortJob_persisted config moment opened

theorem failJob_persisted (opened : s.Opened) (destinations : Int) :
    ∃ s' ∈ s.failJob config moment destinations false, s'.Persisted false := by
  obtain ⟨s₁, wrote, written, _⟩ := countFailure_written moment false opened
  have ends : ∀ status, ∃ s' ∈ s₁.resumeFailed config moment destinations false status,
      s'.Persisted false := by
    intro status
    rw [resumeFailed]
    split
    · exact retryJob_persisted moment written.toOpened
    · exact settle_persisted config moment written.toOpened destinations (Or.inl rfl)
  obtain ⟨s', ended, persisted⟩ := ends (failureStatus config moment s.job.info.nextAttempt)
  exact ⟨s', Option.bind_eq_some_iff.mpr ⟨s₁, wrote, ended⟩, persisted⟩

end Server

/-! ## When the outcome is on disk -/

/-- The list of the destination a routed job is at, as its ticket has it. -/
def Job.currentDestination (job : Job) : Option Fields :=
  if job.info.findFlagValue .destinations = 0 then none
  else (job.info .destination).bind job.dests

/-- What an abort finds written already. -/
def AbortSilent (info destination : Fields) : Prop :=
  info .priorityTime = some (printHex 0) ∧
    destination .error ≠ none ∧ destination.findFlagValue .errorTime ≠ 0

/-- When the failure of a destination is on disk: a retry that has no error to withdraw,
an abort that has nothing to add, or any other failure action. -/
def FailureKept (config : Config) (moment : Moment) (info destination : Fields) : Prop :=
  match failureStatus config moment destination.nextAttempt with
  | .jfail => destination .error = none ∧ destination .errorTime = some (printHex 0) ∧
      destination .prstatus = none
  | .jabort | .jtimeout | .other _ => AbortSilent info destination
  | .jsucc | .jremove | .jhold | .jfailnoretry => True

/-- When the outcome of a job is on disk. -/
def OutcomeKept (config : Config) (moment : Moment) (status : Status) (job : Job) : Prop :=
  ∀ destination, job.currentDestination = some destination →
    match status with
    | .jabort | .other _ => job.info .server = some (printInt 0) ∧
        destination .server = some (printInt 0) ∧ AbortSilent job.info destination
    | .jfail | .jtimeout => FailureKept config moment job.info destination
    | .jsucc | .jremove | .jhold | .jfailnoretry => True

namespace Server

variable (config : Config) (moment : Moment) {hasDest : Bool} {s : Server}

/-- A write of `PRIORITY_TIME` and of the error of an unpacked destination list is on
disk already only where both stand there. -/
theorem abortSilent_iff {job : Job} (packed : job.Packed true) :
    ((∀ key, key ≠ .openname → job.info key = job.info.setFlagValue .priorityTime 0 key) ∧
      job.dests = Function.update job.dests
        (destName ((job.destination.noteError (lit "aborting operations") moment).findFlagValue
          .destination))
        (some (job.destination.noteError (lit "aborting operations") moment))) ↔
      AbortSilent job.info job.destination := by
  have number : (job.destination.noteError (lit "aborting operations") moment).findFlagValue
      .destination = job.destination.findFlagValue .destination :=
    Fields.findFlagValue_congr (Fields.noteError_of_ne (by decide) (by decide))
  have fields : (∀ key, key ≠ .openname →
      job.info key = job.info.setFlagValue .priorityTime 0 key) ↔
      job.info .priorityTime = some (printHex 0) := by
    constructor
    · intro same
      exact (same .priorityTime (by decide)).trans (Fields.setFlagValue_self ..)
    · intro present key _
      rw [Fields.setFlagValue_eq_self_iff.mpr present]
  rw [AbortSilent, fields, number, eq_comm (a := job.dests),
    Function.update_eq_self_iff, packed rfl,
    Option.some_inj, Fields.noteError_eq_self_iff _ (by decide)]

theorem failJob_persisted_iff (opened : s.Opened) (destinations : Int) :
    ∃ s' ∈ s.failJob config moment destinations true, (s'.Persisted true ↔
      FailureKept config moment s.job.info s.job.destination) := by
  obtain ⟨s₁, wrote, written, destination, info⟩ :=
    countFailure_written moment true opened
  specialize info rfl
  rw [if_pos rfl] at destination
  have line : ∀ key, key ≠ .updateTime → s₁.job.info key = s.job.info key := fun key different => by
    rw [info, Fields.setStrValue_of_ne different]
  have sameError : s₁.job.destination .error = s.job.destination .error := by simp [destination]
  have sameTime : s₁.job.destination .errorTime = s.job.destination .errorTime := by
    simp [destination]
  have sameStatus : s₁.job.destination .prstatus = s.job.destination .prstatus := by
    simp [destination]
  have aborts : ∃ s' ∈ s₁.abortJob config moment true,
      (s'.Persisted true ↔ AbortSilent s.job.info s.job.destination) := by
    obtain ⟨s', ended, iff⟩ := abortJob_persisted_iff config moment
      written.toOpened written.image rfl
    refine ⟨s', ended, iff.trans ?_⟩
    rw [abortSilent_iff moment written.packed, AbortSilent, AbortSilent, line _ (by decide),
      sameError, Fields.findFlagValue_congr sameTime]
  have settled : ∀ status : Status, (true = false ∨ status = .jsucc ∨ status = .jhold ∨
      status = .jfailnoretry ∨ status = .jremove) →
      ∃ s' ∈ s₁.settle config moment destinations true status, (s'.Persisted true ↔ True) := by
    intro status writes
    obtain ⟨s', ended, persisted⟩ := settle_persisted config moment
      written.toOpened destinations writes
    exact ⟨s', ended, iff_true_intro persisted⟩
  have ends : ∃ s' ∈ s₁.resumeFailed config moment destinations true
      (failureStatus config moment s.job.destination.nextAttempt),
      (s'.Persisted true ↔ FailureKept config moment s.job.info s.job.destination) := by
    rw [resumeFailed, FailureKept]
    cases failureStatus config moment s.job.destination.nextAttempt with
    | jfail =>
        obtain ⟨s', ended, iff⟩ := retryJob_persisted_iff moment written
        rw [sameError, sameTime, sameStatus] at iff
        exact ⟨s', ended, iff⟩
    | jabort | jtimeout | other => exact aborts
    | jsucc => exact settled .jsucc (by simp)
    | jremove => exact settled .jremove (by simp)
    | jhold => exact settled .jhold (by simp)
    | jfailnoretry => exact settled .jfailnoretry (by simp)
  obtain ⟨s', ended, iff⟩ := ends
  exact ⟨s', Option.bind_eq_some_iff.mpr ⟨s₁, wrote, ended⟩, iff⟩

end Server

/-! ## `Update_status` -/

namespace Server

theorem openJob_none {job : Job} (routed : job.currentDestination = none) :
    (openJob job).2 = false ∧ (openJob job).1.info = job.info.setDecimalValue .server 0 := by
  have flag : (job.info.setDecimalValue .server 0).findFlagValue .destinations =
      job.info.findFlagValue .destinations := Fields.findFlagValue_setDecimalValue_of_ne (by decide) 0
  rw [Job.currentDestination] at routed
  split at routed
  · next zero => simp [openJob, flag, zero]
  · next nonzero => simp [openJob, flag, nonzero, Job.getDestinationByName, routed]

theorem openJob_some {job : Job} {destination : Fields}
    (routed : job.currentDestination = some destination) :
    openJob job = ((job.setInfo (·.setDecimalValue .server 0)).setDestination
      fun _ => destination.setDecimalValue .server 0, true) := by
  have flag : (job.info.setDecimalValue .server 0).findFlagValue .destinations =
      job.info.findFlagValue .destinations := Fields.findFlagValue_setDecimalValue_of_ne (by decide) 0
  rw [Job.currentDestination] at routed
  split at routed
  · cases routed
  · next nonzero =>
      simp [openJob, flag, nonzero, Job.getDestinationByName, routed]
      rfl

variable (config : Config) (moment : Moment) {s : Server}

theorem openJob_opened (named : s.job.info .hfName ≠ none) :
    (s.mapJob fun _ => (openJob s.job).1).Opened := by
  have info : (openJob s.job).1.info = s.job.info.setDecimalValue .server 0 := by
    cases routed : s.job.currentDestination with
    | none => exact (openJob_none routed).2
    | some destination => rw [openJob_some routed]; rfl
  constructor
  · change (openJob s.job).1.info .hfName ≠ none
    rwa [info, Fields.setDecimalValue_of_ne (by decide)]
  · change (openJob s.job).1.info.findFlagValue .server = 0
    rw [info, Fields.findFlagValue_setDecimalValue_zero]

/-- `Update_status` of an identified job, with the job opened. -/
theorem updateStatus_eq (identified : s.job.info .identifier ≠ none) (status : Status) :
    s.updateStatus config moment status =
      if status = .jfail ∨ status = .jtimeout then
        (s.mapJob fun _ => (openJob s.job).1).failJob config moment
          ((openJob s.job).1.info.findFlagValue .destinations) (openJob s.job).2
      else
        (s.mapJob fun _ => (openJob s.job).1).settle config moment
          ((openJob s.job).1.info.findFlagValue .destinations) (openJob s.job).2 status :=
  if_neg identified

theorem updateStatus_unrouted_persisted (identified : s.job.info .identifier ≠ none)
    (named : s.job.info .hfName ≠ none) (unrouted : s.job.currentDestination = none)
    (status : Status) :
    ∃ s' ∈ s.updateStatus config moment status, s'.Persisted false := by
  rw [updateStatus_eq config moment identified, (openJob_none unrouted).1]
  split
  · exact failJob_persisted config moment (openJob_opened named) _
  · exact settle_persisted config moment (openJob_opened named) _ (Or.inl rfl)

/-- The abort of a routed job. -/
theorem updateStatus_abort_persisted_iff (identified : s.job.info .identifier ≠ none)
    (named : s.job.info .hfName ≠ none) (synced : s.ticket = some s.job.ticketImage)
    {destination : Fields} (routed : s.job.currentDestination = some destination)
    (numbered : s.job.dests (destName (destination.findFlagValue .destination)) =
      some destination)
    (status : Status) (aborts : ∀ destinations s, settle config moment destinations true status s =
      s.abortJob config moment true)
    (settles : ¬ (status = .jfail ∨ status = .jtimeout)) :
    ∃ s' ∈ s.updateStatus config moment status, (s'.Persisted true ↔
      s.job.info .server = some (printInt 0) ∧ destination .server = some (printInt 0) ∧
        AbortSilent s.job.info destination) := by
  rw [updateStatus_eq config moment identified, if_neg settles, openJob_some routed, aborts]
  have opened := openJob_opened named
  rw [openJob_some routed] at opened
  obtain ⟨s', ended, iff⟩ := abortJob_persisted_iff config moment
    opened synced rfl
  have number : ((destination.setDecimalValue .server 0).noteError (lit "aborting operations")
      moment).findFlagValue .destination = destination.findFlagValue .destination :=
    Fields.findFlagValue_congr <| (Fields.noteError_of_ne (by decide) (by decide)).trans
      (Fields.setDecimalValue_of_ne (by decide) _)
  have fields : (∀ key, key ≠ .openname → s.job.info key =
        (s.job.info.setDecimalValue .server 0).setFlagValue .priorityTime 0 key) ↔
      s.job.info .server = some (printInt 0) ∧ s.job.info .priorityTime = some (printHex 0) := by
    constructor
    · intro same
      exact ⟨by rw [same .server (by decide)]; simp, by rw [same .priorityTime (by decide)]; simp⟩
    · rintro ⟨server, priority⟩ key _
      rw [Fields.setDecimalValue_eq_self_iff.mpr server, Fields.setFlagValue_eq_self_iff.mpr priority]
  have dests : (s.job.dests = Function.update s.job.dests
        (destName (((destination.setDecimalValue .server 0).noteError (lit "aborting operations")
          moment).findFlagValue .destination))
        (some ((destination.setDecimalValue .server 0).noteError (lit "aborting operations")
          moment))) ↔
      destination .server = some (printInt 0) ∧ destination .error ≠ none ∧
        destination.findFlagValue .errorTime ≠ 0 := by
    rw [number, eq_comm, Function.update_eq_self_iff, numbered, Option.some_inj,
      Fields.noteError_setDecimalValue_eq_self_iff (by decide)]
  refine ⟨s', ended, iff.trans ((and_congr fields dests).trans ?_)⟩
  rw [AbortSilent]
  tauto

/-- Opening the job does not touch what a failure looks at. -/
theorem failureKept_opened {info destination : Fields} :
    FailureKept config moment (info.setDecimalValue .server 0)
        (destination.setDecimalValue .server 0) ↔
      FailureKept config moment info destination := by
  have attempt : (destination.setDecimalValue .server 0).nextAttempt = destination.nextAttempt := by
    rw [Fields.nextAttempt, Fields.nextAttempt,
      Fields.findFlagValue_congr (Fields.setDecimalValue_of_ne (by decide) _)]
  have time : (destination.setDecimalValue .server 0).findFlagValue .errorTime =
      destination.findFlagValue .errorTime :=
    Fields.findFlagValue_congr (Fields.setDecimalValue_of_ne (by decide) _)
  simp [FailureKept, AbortSilent, attempt, time]

theorem updateStatus_fail_persisted_iff (identified : s.job.info .identifier ≠ none)
    (named : s.job.info .hfName ≠ none) {destination : Fields}
    (routed : s.job.currentDestination = some destination) {status : Status}
    (fails : status = .jfail ∨ status = .jtimeout) :
    ∃ s' ∈ s.updateStatus config moment status,
      (s'.Persisted true ↔ FailureKept config moment s.job.info destination) := by
  rw [updateStatus_eq config moment identified, if_pos fails, openJob_some routed, ← failureKept_opened config moment]
  have opened := openJob_opened named
  rw [openJob_some routed] at opened
  exact failJob_persisted_iff config moment opened _

theorem updateStatus_write_persisted (identified : s.job.info .identifier ≠ none)
    (named : s.job.info .hfName ≠ none) {destination : Fields}
    (routed : s.job.currentDestination = some destination) {status : Status}
    (writes : status = .jsucc ∨ status = .jhold ∨ status = .jfailnoretry ∨ status = .jremove) :
    ∃ s' ∈ s.updateStatus config moment status, s'.Persisted true := by
  have settles : ¬ (status = .jfail ∨ status = .jtimeout) := by
    rcases writes with rfl | rfl | rfl | rfl <;> decide
  rw [updateStatus_eq config moment identified, if_neg settles, openJob_some routed]
  have opened := openJob_opened named
  rw [openJob_some routed] at opened
  exact settle_persisted config moment opened _ (Or.inr writes)

/-- The outcome of a job is on disk when `Update_status` returns, for every status,
exactly if the job is not at a destination or its case writes last: the abort of a
destination is never written, and the error a retry withdraws from a destination is
withdrawn in memory only. -/
theorem updateStatus_persisted_iff (identified : s.job.info .identifier ≠ none)
    (named : s.job.info .hfName ≠ none) (synced : s.ticket = some s.job.ticketImage)
    (numbered : ∀ destination, s.job.currentDestination = some destination →
      s.job.dests (destName (destination.findFlagValue .destination)) = some destination)
    (status : Status) :
    ∃ s' ∈ s.updateStatus config moment status,
      (s'.Persisted s.job.currentDestination.isSome ↔
        OutcomeKept config moment status s.job) := by
  cases routed : s.job.currentDestination with
  | none =>
      obtain ⟨s', ended, persisted⟩ := updateStatus_unrouted_persisted config moment identified named routed status
      exact ⟨s', ended, iff_of_true persisted fun _ impossible => nomatch routed ▸ impossible⟩
  | some destination =>
      have kept : OutcomeKept config moment status s.job ↔ match status with
          | .jabort | .other _ => s.job.info .server = some (printInt 0) ∧
              destination .server = some (printInt 0) ∧ AbortSilent s.job.info destination
          | .jfail | .jtimeout => FailureKept config moment s.job.info destination
          | .jsucc | .jremove | .jhold | .jfailnoretry => True := by
        rw [OutcomeKept, routed]
        simp
      have wrote : (status = .jsucc ∨ status = .jhold ∨ status = .jfailnoretry ∨
          status = .jremove) → ∃ s' ∈ s.updateStatus config moment status,
            (s'.Persisted true ↔ True) := by
        intro writes
        obtain ⟨s', ended, persisted⟩ := updateStatus_write_persisted config moment identified named routed writes
        exact ⟨s', ended, iff_true_intro persisted⟩
      rw [kept]
      cases status with
      | jsucc => exact wrote (by decide)
      | jhold => exact wrote (by decide)
      | jfailnoretry => exact wrote (by decide)
      | jremove => exact wrote (by decide)
      | jfail => exact updateStatus_fail_persisted_iff config moment identified named routed (by decide)
      | jtimeout => exact updateStatus_fail_persisted_iff config moment identified named routed (by decide)
      | jabort =>
          exact updateStatus_abort_persisted_iff config moment identified named synced routed
            (numbered destination routed) _ (fun _ _ => rfl) (by decide)
      | other code =>
          exact updateStatus_abort_persisted_iff config moment identified named synced routed
            (numbered destination routed) _ (fun _ _ => rfl) (by simp)

/-- A job being printed at its only destination. -/
def printingJob : Job where
  info := Fields.empty
    |>.setStrValue .identifier (some (lit "job@host+17"))
    |>.setStrValue .hfName (some (lit "hfA017"))
    |>.setFlagValue .destinations 1
    |>.setStrValue .destination (some (lit "DEST0"))
    |>.setDecimalValue .server 4711
  dests := Function.update (fun _ => none) (lit "DEST0")
    (some (Fields.empty.setFlagValue .destination 0))
  datafiles := []
  destination := .empty

def printingServer : Server where
  job := printingJob
  ticket := some printingJob.ticketImage
  files := fun _ => false
  spoolControl := .empty
  queueControlFile := .empty
  doneCount := 0
  doneTime := 0

def plainConfig : Config where
  maxMoveCount := 0
  sendTry := 3
  sendFailureAction := none
  saveWhenDone := false
  saveOnError := false
  doneJobs := 0
  doneJobsMaxAge := 0
  stopOnAbort := false

def someMoment : Moment where
  now := ⟨1, by decide, by decide⟩
  timeStr := lit "2003-04-16-10:00:00.000"
  filterExit := .jsucc

theorem printingJob_numbered {destination : Fields}
    (routed : printingJob.currentDestination = some destination) :
    printingJob.dests (destName (destination.findFlagValue .destination)) = some destination := by
  obtain rfl : Fields.empty.setFlagValue .destination 0 = destination := Option.some.inj routed
  rfl

/-- The success of that job is on disk, or the job is gone. -/
theorem updateStatus_persisted_iff_printingJob :
    ∃ s' ∈ printingServer.updateStatus plainConfig someMoment .jsucc, s'.Persisted true := by
  obtain ⟨s', ended, iff⟩ := updateStatus_persisted_iff plainConfig someMoment (s := printingServer) (by decide) (by decide) rfl
    (fun _ routed => printingJob_numbered routed) .jsucc
  exact ⟨s', ended, iff.mpr fun _ _ => trivial⟩

/-- The subserver of that job has aborted: the job is no longer at work in memory, but
it is on disk. -/
theorem abort_not_persisted :
    ¬ ∀ (config : Config) (moment : Moment) (status : Status) (s : Server),
      s.job.info .identifier ≠ none → s.job.info .hfName ≠ none →
      s.ticket = some s.job.ticketImage →
      (∀ destination, s.job.currentDestination = some destination →
        s.job.dests (destName (destination.findFlagValue .destination)) = some destination) →
      ∃ s' ∈ s.updateStatus config moment status,
        s'.Persisted s.job.currentDestination.isSome := by
  intro claimed
  obtain ⟨s', ended, persisted⟩ := claimed plainConfig someMoment .jabort printingServer
    (by decide) (by decide) rfl (fun _ routed => printingJob_numbered routed)
  obtain ⟨s'', ended', iff⟩ := updateStatus_abort_persisted_iff plainConfig someMoment
    (s := printingServer) (by decide) (by decide) rfl
    (show _ = some (Fields.empty.setFlagValue .destination 0) from rfl) rfl .jabort
    (fun _ _ => rfl) (by decide)
  obtain rfl := Option.mem_unique ended ended'
  exact absurd (iff.mp persisted).1 (by decide)

end Server

end LPRng
