import LPRng.QueueServer
import LPRng.Outcome

/-!
# The active mark

A job is marked as active in its ticket before there is a worker for it, and the main
loop of `Do_queue_jobs` passes over every job that is marked. The mark must therefore be
taken back on every way in which a worker can fail to start or can end. Runs in which it
is taken back keep the mark truthful: whoever is marked is served.
-/

namespace LPRng

/-- The status of a subserver that is recorded in memory only, because the job is at one
of its destinations. -/
def AbortsDestination (status : Status) (job : Job) : Prop :=
  job.currentDestination ≠ none ∧
    match status with
    | .jabort | .other _ => True
    | .jsucc | .jfail | .jremove | .jhold | .jfailnoretry | .jtimeout => False

namespace Server

/-- The ticket is gone, or it is in its place and not marked. -/
def Idle (name : Bytes) (s : Server) : Prop :=
  ∀ t, s.ticket = some t → t.Names name ∧ t.info.findFlagValue .server = 0

/-- The ticket is not marked. -/
def Unmarked (s : Server) : Prop := ∀ t, s.ticket = some t → t.info.findFlagValue .server = 0

variable {config : Config} {moment : Moment} {hasDest : Bool} {s s' : Server} {name : Bytes}

theorem ticketImage_unmarked (job : Job) (cleared : job.info.findFlagValue .server = 0)
    (image : s.ticket = some job.ticketImage) : s.Unmarked := by
  intro t present
  obtain rfl := Option.some.inj (image.symm.trans present)
  exact (Fields.findFlagValue_congr (Job.ticketImage_info_of_ne (by decide))).trans cleared

theorem Persisted.unmarked (persisted : s.Persisted hasDest) : s.Unmarked := by
  rcases persisted with ⟨gone, _⟩ | ⟨image, cleared⟩
  · intro t present
    cases gone.symm.trans present
  · refine ticketImage_unmarked (s.job.encoded hasDest) ?_ image
    cases hasDest <;> exact cleared

theorem Written.unmarked (written : s.Written hasDest) : s.Unmarked :=
  ticketImage_unmarked s.job written.cleared written.image

/-- A failure is counted on disk, so that even an abort that follows finds the mark gone. -/
theorem failJob_unmarked {destinations : Int} (opened : s.Opened)
    (ended : s' ∈ s.failJob config moment destinations hasDest) : s'.Unmarked := by
  obtain ⟨s₁, counted, resumed⟩ := Option.bind_eq_some_iff.mp ended
  obtain ⟨_, counted', written, _⟩ := countFailure_written moment hasDest opened
  obtain rfl := Option.mem_unique counted counted'
  generalize failureStatus config moment _ = status at resumed
  rw [resumeFailed] at resumed
  split at resumed
  · have cleared : (s₁.mapJob fun job => if hasDest then job.setDestination Fields.clearError
        else job.setInfo Fields.clearError).Opened := by
      cases hasDest <;> exact written.toOpened.mapJob (by simp [Fields.clearError]) (by simp [Fields.clearError])
    obtain ⟨_, wrote, again, _⟩ := setJobTicketFile_written moment cleared (Job.packed_false _)
    exact Option.mem_unique resumed wrote ▸ again.unmarked
  · by_cases writes : hasDest = false ∨ status = .jsucc ∨ status = .jhold ∨
        status = .jfailnoretry ∨ status = .jremove
    · obtain ⟨_, wrote, persisted⟩ := settle_persisted config moment written.toOpened destinations writes
      exact Option.mem_unique resumed wrote ▸ persisted.unmarked
    · obtain rfl : hasDest = true := by
        cases hasDest with
        | true => rfl
        | false => exact absurd (Or.inl rfl) writes
      have aborted : s' ∈ s₁.abortJob config moment true := by
        cases status with
        | jsucc | jhold | jfailnoretry | jremove => simp at writes
        | jfail | jabort | jtimeout | other => exact resumed
      obtain rfl := Option.some.inj aborted
      intro t present
      refine written.unmarked t ?_
      rw [stopOnAbort] at present
      split at present <;> exact present

/-- `Update_status` takes back the mark of a job, unless it aborts a destination. -/
theorem updateStatus_unmarked {status : Status} (identified : s.job.info .identifier ≠ none)
    (named : s.job.info .hfName ≠ none) (ended : s' ∈ s.updateStatus config moment status) :
    s'.Unmarked ∨ (AbortsDestination status s.job ∧ s'.ticket = s.ticket) := by
  cases routed : s.job.currentDestination with
  | none =>
      obtain ⟨_, ended', persisted⟩ :=
        updateStatus_unrouted_persisted config moment identified named routed status
      exact Or.inl (Option.mem_unique ended ended' ▸ persisted.unmarked)
  | some destination =>
      have wrote (writes : status = .jsucc ∨ status = .jhold ∨ status = .jfailnoretry ∨
          status = .jremove) : s'.Unmarked := by
        obtain ⟨_, ended', persisted⟩ :=
          updateStatus_write_persisted config moment identified named routed writes
        exact Option.mem_unique ended ended' ▸ persisted.unmarked
      have opened := openJob_opened named
      rw [updateStatus_eq config moment identified, openJob_some routed] at ended
      rw [openJob_some routed] at opened
      cases status with
      | jsucc | jhold | jfailnoretry | jremove => exact Or.inl (wrote (by decide))
      | jfail | jtimeout => exact Or.inl (failJob_unmarked opened ended)
      | jabort | other =>
          refine Or.inr ⟨⟨by simp [routed], trivial⟩, ?_⟩
          obtain rfl := Option.some.inj ended
          rw [stopOnAbort]
          split <;> rfl

/-- What `Update_status` leaves of a ticket that names its file. -/
theorem updateStatus_idle {status : Status} (identified : s.job.info .identifier ≠ none)
    (names : s.job.toTicket.Names name) (disk : ∀ t, s.ticket = some t → t.Names name)
    (settles : AbortsDestination status s.job → s.Unmarked)
    (ended : s' ∈ s.updateStatus config moment status) : s'.Idle name := by
  intro t present
  constructor
  · rcases updateStatus_frame ended t present with kept | agrees
    · exact disk t kept
    · exact ⟨names.1, (agrees.info _ (outcomeTouch_outside _ _ _ _ (by decide)).1).trans names.2⟩
  · have named : s.job.info .hfName ≠ none := by simp [names.2]
    rcases updateStatus_unmarked identified named ended with unmarked | ⟨aborts, kept⟩
    · exact unmarked t present
    · exact settles aborts t (kept ▸ present)

end Server

/-! ## The condition on the steps -/

namespace QueueServer

/-- The task is started in a way that takes the mark back if nobody serves the job. -/
def StartsWell (setup : QueueSetup) (pass : Pass) (q : QueueServer) : Task → Prop
  | .worker _ => q.master.findFlagValue .server = 0 ∧ pass.fork ≠ none
  | .subserver _ => True
  | .move dest =>
      if 64 ∈ dest then
        pass.fork ≠ none ∧ ∀ left ∈ pass.left, ¬ AbortsDestination pass.exit left.toJob
      else pass.setupError = none ∧ dest ≠ setup.printer

/-- The server finds every mark at its start; the tasks it starts start well; and no
worker it collects aborts a destination. -/
def Meets (setup : QueueSetup) (q : QueueServer) : Event → Prop
  | .start _ around => ∀ name ticket, q.spool.tickets name = some ticket →
      ticket.info.findFlagValue .server ≠ 0 → listed around ticket
  | .serve name pass => ∀ ticket, q.spool.tickets name = some ticket → ∀ n task,
      (q.planFor setup pass name ticket).2 = .start n task → q.StartsWell setup pass task
  | .collect pid _ status => ∀ name ticket, q.master .hfName = some name →
      q.master.findFlagValue .server = pid.val → q.spool.tickets name = some ticket →
      ¬ AbortsDestination status ticket.toJob
  | .subserver .. | .rescan .. | .write .. => True

/-! ## The invariant -/

/-- Every ticket names its file, and behind every marked ticket stands a running worker
of an identified job. -/
structure Invariant (q : QueueServer) : Prop where
  names : ∀ name ticket, q.spool.tickets name = some ticket → ticket.Names name
  served : q.looping = true → ∀ name ticket, q.spool.tickets name = some ticket →
    ticket.info.findFlagValue .server ≠ 0 →
      ticket.info .identifier ≠ none ∧ q.RunsFor name q.master

variable {setup : QueueSetup} {q q' : QueueServer} {name : Bytes} {s : Server}

/-- The workers that keep running keep serving. -/
theorem Invariant.of_tickets (invariant : q.Invariant) (looping : q.looping = true)
    (names : ∀ t, q'.spool.tickets name = some t → t.Names name)
    (others : ∀ other, other ≠ name → q'.spool.tickets other = q.spool.tickets other)
    (served : ∀ t, q'.spool.tickets name = some t → t.info.findFlagValue .server ≠ 0 →
      t.info .identifier ≠ none ∧ q'.RunsFor name q'.master)
    (keeps : ∀ other, other ≠ name → q.RunsFor other q.master → q'.RunsFor other q'.master) :
    q'.Invariant := by
  refine ⟨fun other t present => ?_, fun _ other t present marked => ?_⟩
  · rcases eq_or_ne other name with rfl | different
    · exact names t present
    · exact invariant.names other t (others other different ▸ present)
  · rcases eq_or_ne other name with rfl | different
    · exact served t present marked
    · obtain ⟨identified, runs⟩ :=
        invariant.served looping other t (others other different ▸ present) marked
      exact ⟨identified, keeps other different runs⟩

/-- A queue in which nobody is marked. -/
theorem Invariant.of_idle (idle : ∀ name t, q'.spool.tickets name = some t →
    t.Names name ∧ t.info.findFlagValue .server = 0) : q'.Invariant :=
  ⟨fun name t present => (idle name t present).1,
    fun _ name t present marked => absurd (idle name t present).2 marked⟩

/-- A job put back without a mark. -/
theorem Invariant.closeIdle (invariant : q.Invariant) (looping : q.looping = true)
    (idle : s.Idle name) (tickets : q'.spool.tickets = (q.spool.closeJob name s).tickets)
    (master : q'.master = q.master) (running : ∀ pid ∈ q.running, pid ∈ q'.running) :
    q'.Invariant := by
  have own : q'.spool.tickets name = s.ticket := by rw [tickets, Spool.closeJob_tickets_self]
  refine invariant.of_tickets looping (fun t present => (idle t (own ▸ present)).1)
    (fun other different => by rw [tickets, Spool.closeJob_tickets_of_ne different])
    (fun t present marked => absurd (idle t (own ▸ present)).2 marked) ?_
  rintro other - ⟨sp, pid, member, flag⟩
  exact ⟨master ▸ sp, pid, running pid member, master ▸ flag⟩

/-! ## Starting a job -/

/-- A job whose ticket has just been marked. -/
structure Started (name : Bytes) (s : Server) : Prop where
  names : s.job.toTicket.Names name
  identified : s.job.info .identifier ≠ none
  image : s.ticket = some s.job.ticketImage

variable {pass : Pass} {s' : Server}

theorem Started.disk (started : Started name s) : ∀ t, s.ticket = some t → t.Names name := by
  intro t present
  obtain rfl := Option.some.inj (started.image.symm.trans present)
  exact ⟨started.names.1, (Job.ticketImage_info_of_ne (by decide)).trans started.names.2⟩

theorem startJob_started {n : Option Nat} {config : Config} {moment : Moment} {pid : Pid}
    (names : s.job.toTicket.Names name) (started : s' ∈ s.startJob config moment pid n) :
    Started name s' := by
  rw [Server.startJob] at started
  split at started
  · cases started
  · next fits =>
      obtain ⟨job, image⟩ := Server.setJobTicketFile_some started
      have kept : ∀ key, key ≠ .destination → key ≠ .server → key ≠ .startTime →
          key ≠ .updateTime → s'.job.info key = s.job.info key := by
        intro key a b c d
        rw [job]
        cases n <;> simp [Server.markStarted, a, b, c, d]
      refine ⟨⟨names.1, (kept _ (by decide) (by decide) (by decide) (by decide)).trans names.2⟩, ?_, image⟩
      rw [kept _ (by decide) (by decide) (by decide) (by decide)]
      exact fun missing => fits (Or.inl missing)

theorem Started.updateStatus_idle (started : Started name s) {config : Config} {moment : Moment}
    {status : Status} (settles : ¬ AbortsDestination status s.job)
    (ended : s' ∈ s.updateStatus config moment status) : s'.Idle name :=
  Server.updateStatus_idle started.identified started.names started.disk
    (fun aborts => absurd aborts settles) ended

theorem moveJob_idle (started : Started name s) (moved : s' ∈ moveJob setup pass s) :
    s'.Idle name := by
  rw [moveJob] at moved
  split at moved
  · exact started.updateStatus_idle (fun aborts => aborts.2) moved
  · next text _ =>
      refine Server.updateStatus_idle (s := s.mapJob _) ?_ ⟨started.names.1, ?_⟩ started.disk
        (fun aborts => False.elim aborts.2) moved
      all_goals cases text <;> simp
      · exact started.identified
      · exact started.identified
      · exact started.names.2
      · exact started.names.2

/-- A worker that was started serves the job. -/
theorem startWorker_invariant (invariant : q.Invariant) (looping : q.looping = true)
    (started : Started name s) (free : q.master.findFlagValue .server = 0)
    (forks : pass.fork ≠ none) : (startWorker pass name s q).Invariant := by
  obtain ⟨pid, forked⟩ := Option.ne_none_iff_exists'.mp forks
  have own : (startWorker pass name s q).spool.tickets name = s.ticket :=
    Spool.closeJob_tickets_self
  refine invariant.of_tickets looping (fun t present => started.disk t (own ▸ present))
    (fun other different => Spool.closeJob_tickets_of_ne different) ?_ ?_
  · intro t present _
    obtain rfl := Option.some.inj (started.image.symm.trans (own ▸ present))
    refine ⟨?_, ?_, pid, by simp [startWorker, forked], ?_⟩
    · rw [Job.ticketImage_info_of_ne (by decide)]
      exact started.identified
    · simp [startWorker, forked, forkSubserver, started.names.2, started.names.1]
    · simp only [startWorker, forked, forkSubserver, Option.isSome_some, if_true]
      exact Fields.findFlagValue_setDecimalValue pid.fits
  · rintro other - ⟨_, other, _, flag⟩
    exact absurd (flag.symm.trans free) (Int.natCast_ne_zero.mpr other.positive.ne')

theorem startSubserver_invariant (invariant : q.Invariant) (looping : q.looping = true)
    (started : Started name s) {index : Nat}
    (ran : q' ∈ startSubserver setup pass name index s q) : q'.Invariant := by
  obtain ⟨moved, done, rfl⟩ := Option.map_eq_some_iff.mp ran
  have idle := moveJob_idle started done
  split
  · exact invariant.closeIdle looping idle rfl rfl fun _ member => member
  · exact invariant.closeIdle looping idle rfl rfl fun _ member =>
      List.mem_append_right _ member

theorem sendAway_invariant (invariant : q.Invariant) (looping : q.looping = true)
    (left : ∀ left ∈ pass.left, left.Names name ∧ left.info .identifier ≠ none)
    (forks : pass.fork ≠ none)
    (settles : ∀ left ∈ pass.left, ¬ AbortsDestination pass.exit left.toJob)
    (ran : q' ∈ sendAway setup pass name s q) : q'.Invariant := by
  rw [sendAway] at ran
  split at ran
  · contradiction
  · split at ran
    · obtain rfl := Option.some.inj ran
      exact invariant.closeIdle (s := { s with ticket := none }) looping
        (fun _ gone => nomatch gone) rfl rfl fun _ member => member
    · next ticket present =>
        obtain ⟨s', ended, rfl⟩ := Option.map_eq_some_iff.mp ran
        obtain ⟨names, identified⟩ := left ticket present
        have idle := Server.updateStatus_idle identified names
          (fun t found => by obtain rfl := Option.some.inj found; exact names)
          (fun aborts => absurd aborts (settles ticket present)) ended
        exact invariant.closeIdle (s := { s' with spoolControl := s'.queueControlFile })
          looping idle rfl rfl fun _ member => member

theorem run_invariant (invariant : q.Invariant) (looping : q.looping = true)
    (started : Started name s)
    (left : ∀ left ∈ pass.left, left.Names name ∧ left.info .identifier ≠ none) {task : Task}
    (well : q.StartsWell setup pass task) (ran : q' ∈ task.run setup pass name s q) :
    q'.Invariant := by
  cases task with
  | worker newDest =>
      obtain rfl := Option.some.inj ran
      exact startWorker_invariant invariant looping started well.1 well.2
  | subserver index => exact startSubserver_invariant invariant looping started ran
  | move dest =>
      simp only [Task.run, moveAway] at ran
      simp only [StartsWell] at well
      split at ran
      · next remote =>
          rw [if_pos remote] at well
          exact sendAway_invariant invariant looping left well.1 well.2 ran
      · next home =>
          rw [if_neg home] at well
          rw [well.1] at ran
          simp only [well.2, if_false] at ran
          obtain ⟨s', moved, rfl⟩ := Option.map_eq_some_iff.mp ran
          exact invariant.closeIdle looping (moveJob_idle started moved) rfl rfl
            fun _ member => member

/-! ## A job the loop comes to -/

/-- A job in hand whose ticket is not marked. -/
structure InHand (name : Bytes) (s : Server) : Prop where
  names : s.job.toTicket.Names name
  idle : s.Idle name
  cleared : s.job.info.findFlagValue .server = 0

theorem planFor_inHand (around : Surroundings) {ticket : Ticket}
    (present : q.spool.tickets name = some ticket) (names : ticket.Names name)
    (cleared : ticket.info.findFlagValue .server = 0) :
    InHand name (q.spool.openJob name (jobPrintable around ticket.toJob).1) := by
  have noted {key : Key} (a : key ≠ .prstatus) (b : key ≠ .printable) (c : key ≠ .held) :
      (jobPrintable around ticket.toJob).1.info key = ticket.info key :=
    jobPrintable_info_of_ne around ticket.toJob a b c
  refine ⟨⟨names.1, ?_⟩, fun t found => ?_, ?_⟩
  · exact (noted (by decide) (by decide) (by decide)).trans names.2
  · obtain rfl := Option.some.inj (present.symm.trans found)
    exact ⟨names, cleared⟩
  · exact (Fields.findFlagValue_congr
      (noted (by decide) (by decide) (by decide))).trans cleared

/-- An error of a job in hand is written without a mark. -/
theorem failStart_idle {text : Bytes} (inHand : InHand name s) (failed : s' ∈ failStart pass text s) :
    s'.Idle name := by
  obtain ⟨job, image⟩ := Server.setJobTicketFile_some failed
  have kept : ∀ key, key ≠ .error → key ≠ .errorTime → key ≠ .updateTime →
      s'.job.info key = s.job.info key := by
    intro key a b c
    rw [job]
    simp [a, b, c]
  intro t present
  obtain rfl := Option.some.inj (image.symm.trans present)
  refine ⟨⟨inHand.names.1, ?_⟩, ?_⟩
  · rw [Job.ticketImage_info_of_ne (by decide), kept _ (by decide) (by decide) (by decide)]
    exact inHand.names.2
  · refine (Fields.findFlagValue_congr ?_).trans inHand.cleared
    rw [Job.ticketImage_info_of_ne (by decide), kept _ (by decide) (by decide) (by decide)]

theorem removeJob_idle (idle : s.Idle name) : s.removeJob.Idle name := by
  intro t present
  simp only [Server.removeJob] at present
  split at present
  · exact idle t present
  · cases present

theorem record_idle (inHand : InHand name s) {config : Config} {moment : Moment} {status : Status}
    (ended : s' ∈ s.updateStatus config moment status) : s'.Idle name := by
  by_cases identified : s.job.info .identifier = none
  · obtain rfl := Option.some.inj ((if_pos identified).symm.trans ended)
    exact inHand.idle
  · exact Server.updateStatus_idle identified inHand.names (fun t present => (inHand.idle t present).1)
      (fun _ t present => (inHand.idle t present).2) ended

theorem carryOut_invariant (invariant : q.Invariant) (looping : q.looping = true)
    (inHand : InHand name s)
    (left : ∀ left ∈ pass.left, left.Names name ∧ left.info .identifier ≠ none) {plan : Plan}
    (well : ∀ n task, plan = .start n task → q.StartsWell setup pass task)
    (ran : q' ∈ carryOut setup pass name s q plan) : q'.Invariant := by
  cases plan with
  | pass => exact Option.some.inj ran ▸ invariant
  | die => cases ran
  | refuse text =>
      obtain ⟨failed, wrote, rfl⟩ := Option.map_eq_some_iff.mp ran
      have idle := failStart_idle inHand wrote
      refine invariant.closeIdle looping ?_ rfl rfl fun _ member => member
      split
      · exact idle
      · exact removeJob_idle idle
  | record status =>
      obtain ⟨recorded, ended, rfl⟩ := Option.map_eq_some_iff.mp ran
      exact invariant.closeIdle looping (record_idle inHand ended) rfl rfl fun _ member => member
  | start n task =>
      obtain ⟨marked, started, ran⟩ := Option.bind_eq_some_iff.mp ran
      have names : (task.prepare s).job.toTicket.Names name := by
        cases task with
        | worker newDest =>
            cases newDest with
            | none => exact inHand.names
            | some dest =>
                exact ⟨inHand.names.1, by simpa [Task.prepare] using inHand.names.2⟩
        | subserver | move => exact inHand.names
      exact run_invariant invariant looping (startJob_started names started) left
        (well n task rfl) ran

theorem serve_invariant (invariant : q.Invariant) (looping : q.looping = true)
    (left : ∀ left ∈ pass.left, left.Names name ∧ left.info .identifier ≠ none)
    (meets : Meets setup q (.serve name pass)) (ran : q.serveJob setup pass name = some q') :
    q'.Invariant := by
  rw [serveJob] at ran
  split at ran
  · exact Option.some.inj ran ▸ invariant
  · next ticket present =>
      by_cases cleared : ticket.info.findFlagValue .server = 0
      · exact carryOut_invariant invariant looping
          (planFor_inHand pass.around present (invariant.names name ticket present) cleared) left
          (meets ticket present) ran
      · have passes : (q.planFor setup pass name ticket).2 = .pass := if_pos cleared
        rw [passes] at ran
        exact Option.some.inj ran ▸ invariant

/-! ## The other steps -/

/-- A job whose mark was taken back, unless there was none. -/
structure Cleaned (job : Job) (state : Job × Bool) : Prop where
  name : state.1.info .hfName = job.info .hfName
  cleared : state.1.info.findFlagValue .server = 0
  unchanged : state.2 = false → job.info.findFlagValue .server = 0

theorem cleanMark_cleaned (job : Job) : Cleaned job (Server.cleanMark job) := by
  rw [Server.cleanMark]
  split
  · exact ⟨by simp, by simp, fun impossible => nomatch impossible⟩
  · next unmarked => exact ⟨rfl, not_not.mp unmarked, fun _ => not_not.mp unmarked⟩

theorem Cleaned.current {job : Job} {state : Job × Bool} (cleaned : Cleaned job state) :
    Cleaned job (Server.cleanCurrent state) := by
  rw [Server.cleanCurrent]
  split
  · exact ⟨by simpa using cleaned.name, by simpa using cleaned.cleared,
      fun impossible => nomatch impossible⟩
  · exact cleaned

theorem Cleaned.destination {job : Job} {state : Job × Bool} (cleaned : Cleaned job state)
    (n : Nat) : Cleaned job (Server.cleanDestination state n) := by
  simp only [Server.cleanDestination]
  split
  · exact ⟨by simpa using cleaned.name, by simpa using cleaned.cleared,
      fun impossible => nomatch impossible⟩
  · exact ⟨by simpa using cleaned.name, by simpa using cleaned.cleared, cleaned.unchanged⟩

theorem cleanJob_cleaned (job : Job) : Cleaned job (Server.cleanJob job) := by
  have loop : ∀ (ns : List Nat) (state : Job × Bool), Cleaned job state →
      Cleaned job (ns.foldl Server.cleanDestination state) := by
    intro ns
    induction ns with
    | nil => exact fun _ cleaned => cleaned
    | cons n ns ih => exact fun state cleaned => ih _ (cleaned.destination n)
  simp only [Server.cleanJob]
  split
  · exact cleanMark_cleaned job
  · exact loop _ _ (cleanMark_cleaned job).current

/-- A listed ticket carries no mark once the server has started. -/
theorem startTicket_idle {moment : Moment} {around : Surroundings} {ticket : Ticket}
    (names : ticket.Names name)
    (found : ticket.info.findFlagValue .server ≠ 0 → listed around ticket) :
    (startTicket moment around ticket).Names name ∧
      (startTicket moment around ticket).info.findFlagValue .server = 0 := by
  have cleaned := cleanJob_cleaned ticket.toJob
  rw [startTicket]
  split
  · dsimp only
    split
    · refine ⟨⟨names.1, ?_⟩, ?_⟩
      · rw [Job.ticketImage_info_of_ne (by decide), Job.setInfo_info,
          Fields.setStrValue_of_ne (by decide)]
        exact cleaned.name.trans names.2
      · refine (Fields.findFlagValue_congr ?_).trans cleaned.cleared
        rw [Job.ticketImage_info_of_ne (by decide), Job.setInfo_info,
          Fields.setStrValue_of_ne (by decide)]
    · next unchanged => exact ⟨names, cleaned.unchanged (by simpa using unchanged)⟩
  · next unlisted => exact ⟨names, by_contra fun marked => unlisted (found marked)⟩

theorem start_invariant (invariant : q.Invariant) {moment : Moment} {around : Surroundings}
    (meets : Meets setup q (.start moment around))
    (tickets : q'.spool.tickets =
      fun name => (q.spool.tickets name).map (startTicket moment around)) : q'.Invariant := by
  refine .of_idle fun name t present => ?_
  rw [tickets] at present
  obtain ⟨ticket, old, rfl⟩ := Option.map_eq_some_iff.mp present
  exact startTicket_idle (invariant.names name ticket old) (meets name ticket old)

/-- A ticket written by another process. -/
theorem write_invariant (invariant : q.Invariant) (ticket : Option Ticket)
    (may : ∀ written ∈ ticket, q.MayWrite name written)
    (tickets : q'.spool.tickets = Function.update q.spool.tickets name ticket)
    (looping : q'.looping = q.looping)
    (runs : ∀ other, q.RunsFor other q.master → q'.RunsFor other q'.master) : q'.Invariant := by
  have place : ∀ other t, q'.spool.tickets other = some t →
      (other = name ∧ ticket = some t) ∨ q.spool.tickets other = some t := by
    intro other t present
    rw [tickets] at present
    rcases eq_or_ne other name with rfl | different
    · rw [Function.update_self] at present
      exact Or.inl ⟨rfl, present⟩
    · rw [Function.update_of_ne different] at present
      exact Or.inr present
  refine ⟨fun other t present => ?_, fun loops other t present marked => ?_⟩
  · rcases place other t present with ⟨rfl, written⟩ | old
    · exact (may t written).1
    · exact invariant.names other t old
  · have served := invariant.served (looping.symm.trans loops)
    rcases place other t present with ⟨rfl, written⟩ | old
    · obtain ⟨identified, worker | ⟨ticket', old, marked'⟩⟩ := (may t written).2 marked
      · exact ⟨identified, runs other worker⟩
      · exact ⟨identified, runs other (served other ticket' old marked').2⟩
    · obtain ⟨identified, worker⟩ := served other t old marked
      exact ⟨identified, runs other worker⟩

/-- A server entry whose process has ended names no job that is there, or its job is
settled. -/
theorem settleServer_cases {moment : Moment} {status : Status} {sp sp' : Fields}
    {spool spool' : Spool}
    (settled : settleServer setup moment status sp spool = some (sp', spool')) :
    (spool' = spool ∧ ∀ name, sp .hfName = some name → spool.tickets name = none) ∨
      ∃ name ticket s, sp .hfName = some name ∧ spool.tickets name = some ticket ∧
        s ∈ (spool.openJob name ticket.toJob).updateStatus setup.config moment status ∧
        spool' = spool.closeJob name s := by
  have kept : ((sp.setDecimalValue .server 0).setFlagValue .doneTime moment.now.val).findStrValue
      .hfName = sp .hfName := by simp
  simp only [settleServer, kept] at settled
  split at settled
  · next unnamed =>
      obtain ⟨-, rfl⟩ := Prod.ext_iff.mp (Option.some.inj settled)
      exact Or.inl ⟨rfl, fun name named => nomatch unnamed.symm.trans named⟩
  · next name named =>
      split at settled
      · next gone =>
          obtain ⟨-, rfl⟩ := Prod.ext_iff.mp (Option.some.inj settled)
          refine Or.inl ⟨rfl, fun other named' => ?_⟩
          obtain rfl := Option.some.inj (named.symm.trans named')
          exact gone
      · next ticket old =>
          obtain ⟨s, ended, rest⟩ := Option.map_eq_some_iff.mp settled
          obtain ⟨-, rfl⟩ := Prod.ext_iff.mp rest
          exact Or.inr ⟨name, ticket, s, named, old, ended, rfl⟩

/-- What the outcome of a collected process leaves of a ticket: its names, and a mark only
where there was one already and the outcome is not written. -/
theorem collected_ticket {spool : Spool} {ticket : Ticket} (old : spool.tickets name = some ticket)
    (names : ticket.Names name) {config : Config} {moment : Moment} {status : Status}
    (ended : s ∈ (spool.openJob name ticket.toJob).updateStatus config moment status) :
    (∀ t, s.ticket = some t → t.Names name) ∧
      (s.Unmarked ∨ s.ticket = some ticket ∧
        (ticket.info .identifier ≠ none → AbortsDestination status ticket.toJob)) := by
  have disk : ∀ t, (spool.openJob name ticket.toJob).ticket = some t → t.Names name :=
    fun t present => Option.some.inj (old.symm.trans present) ▸ names
  constructor
  · intro t present
    rcases Server.updateStatus_frame ended t present with kept | agrees
    · exact disk t kept
    · exact ⟨names.1, (agrees.info _ (Server.outcomeTouch_outside _ _ _ _ (by decide)).1).trans names.2⟩
  · by_cases identified : ticket.info .identifier = none
    · obtain rfl := Option.some.inj ((if_pos identified).symm.trans ended)
      exact Or.inr ⟨old, fun impossible => absurd identified impossible⟩
    · have named : ticket.info .hfName ≠ none := by simp [names.2]
      rcases Server.updateStatus_unmarked (s := spool.openJob name ticket.toJob) identified named
        ended with unmarked | ⟨aborts, kept⟩
      · exact Or.inl unmarked
      · exact Or.inr ⟨kept.trans old, fun _ => aborts⟩

/-- The worker of `servers.list[0]` is collected: nobody is marked any more. -/
theorem collectMaster_invariant (invariant : q.Invariant) (looping : q.looping = true) {pid : Pid}
    {moment : Moment} {status : Status} {sp : Fields} {spool : Spool}
    (meets : Meets setup q (.collect pid moment status))
    (own : q.master.findFlagValue .server = pid.val)
    (settled : settleServer setup moment status q.master q.spool = some (sp, spool))
    (tickets : q'.spool.tickets = spool.tickets) : q'.Invariant := by
  have served := invariant.served looping
  refine .of_idle fun other t present => ?_
  rw [tickets] at present
  rcases settleServer_cases settled with ⟨rfl, gone⟩ | ⟨name, ticket, s, named, old, ended, rfl⟩
  · refine ⟨invariant.names other t present, by_contra fun marked => ?_⟩
    have named := (served other t present marked).2.1
    cases (gone other named).symm.trans present
  · rcases eq_or_ne other name with rfl | different
    · rw [Spool.closeJob_tickets_self] at present
      obtain ⟨names, unmarked | ⟨kept, aborts⟩⟩ :=
        collected_ticket old (invariant.names _ _ old) ended
      · exact ⟨names t present, unmarked t present⟩
      · refine ⟨names t present, by_contra fun marked => ?_⟩
        obtain rfl := Option.some.inj (kept.symm.trans present)
        exact meets other ticket named own old (aborts (served other ticket old marked).1)
    · rw [Spool.closeJob_tickets_of_ne different] at present
      refine ⟨invariant.names other t present, by_contra fun marked => different ?_⟩
      exact Option.some.inj ((served other t present marked).2.1.symm.trans named)

/-- A queue whose tickets are as they were. -/
theorem Invariant.of_same (invariant : q.Invariant) (looping : q'.looping = q.looping)
    (tickets : q'.spool.tickets = q.spool.tickets)
    (runs : ∀ other, q.RunsFor other q.master → q'.RunsFor other q'.master) : q'.Invariant := by
  refine ⟨fun name t present => invariant.names name t (tickets ▸ present),
    fun loops name t present marked => ?_⟩
  obtain ⟨identified, worker⟩ :=
    invariant.served (looping.symm.trans loops) name t (tickets ▸ present) marked
  exact ⟨identified, runs name worker⟩

/-- A child other than the worker of `servers.list[0]` is collected: the worker goes on. -/
theorem runsFor_erase {pid : Pid} (different : q.master.findFlagValue .server ≠ pid.val)
    (master : q'.master = q.master) (running : q'.running = q.running.erase pid)
    (runs : q.RunsFor name q.master) : q'.RunsFor name q'.master := by
  obtain ⟨named, worker, member, flag⟩ := runs
  rw [RunsFor, master, running]
  refine ⟨named, worker, (List.mem_erase_of_ne ?_).mpr member, flag⟩
  rintro rfl
  exact different flag

theorem collectSubserver_invariant (invariant : q.Invariant) (looping : q.looping = true)
    {moment : Moment} {status : Status} {entry sp : Fields} {spool : Spool}
    (settled : settleServer setup moment status entry q.spool = some (sp, spool))
    (tickets : q'.spool.tickets = spool.tickets) (loops : q'.looping = q.looping)
    (runs : ∀ other, q.RunsFor other q.master → q'.RunsFor other q'.master) : q'.Invariant := by
  rcases settleServer_cases settled with ⟨rfl, -⟩ | ⟨name, ticket, s, -, old, ended, rfl⟩
  · exact invariant.of_same loops tickets runs
  · obtain ⟨names, unmarked | ⟨kept, -⟩⟩ := collected_ticket old (invariant.names _ _ old) ended
    · exact write_invariant invariant s.ticket (fun t present =>
        ⟨names t present, fun marked => absurd (unmarked t present) marked⟩) tickets loops runs
    · refine write_invariant invariant s.ticket (fun t present => ?_) tickets loops runs
      obtain rfl := Option.some.inj (kept.symm.trans present)
      exact ⟨names ticket present, fun marked =>
        ⟨(invariant.served looping name ticket old marked).1, Or.inr ⟨ticket, old, marked⟩⟩⟩

theorem collect_invariant (invariant : q.Invariant) (looping : q.looping = true) {pid : Pid}
    {moment : Moment} {status : Status} (meets : Meets setup q (.collect pid moment status))
    (ran : q.collect setup moment status pid = some q') : q'.Invariant := by
  simp only [collect] at ran
  split at ran
  · next own =>
      obtain ⟨⟨sp, spool⟩, settled, rfl⟩ := Option.map_eq_some_iff.mp ran
      exact collectMaster_invariant invariant looping meets own settled rfl
  · next different =>
      split at ran
      · obtain rfl := Option.some.inj ran
        exact invariant.of_same rfl rfl fun _ => runsFor_erase different rfl rfl
      · obtain ⟨⟨sp, spool⟩, settled, rfl⟩ := Option.map_eq_some_iff.mp ran
        exact collectSubserver_invariant invariant looping settled rfl rfl
          fun _ => runsFor_erase different rfl rfl

/-! ## Runs -/

theorem step_invariant (invariant : q.Invariant) {e : Event} (meets : Meets setup q e)
    (step : Step setup q e q') : q'.Invariant := by
  cases step with
  | start starts => exact start_invariant invariant meets rfl
  | serve looping fresh left ran => exact serve_invariant invariant looping left meets ran
  | collect looping child ran => exact collect_invariant invariant looping meets ran
  | subserver fresh free =>
      refine invariant.of_same rfl rfl fun other runs => ?_
      obtain ⟨named, worker, member, flag⟩ := runs
      exact ⟨named, worker, List.mem_append_right _ member, flag⟩
  | rescan looping =>
      refine invariant.of_same rfl rfl fun other runs => ?_
      obtain ⟨named, worker, member, flag⟩ := runs
      have marked : q.master .server ≠ none := by
        intro missing
        rw [Fields.findFlagValue, missing] at flag
        exact absurd flag.symm (Int.natCast_ne_zero.mpr worker.positive.ne')
      obtain ⟨text, server⟩ := Option.ne_none_iff_exists'.mp marked
      refine ⟨by simp [updateSpoolInfo, named], worker, member, ?_⟩
      exact (Fields.findFlagValue_congr (by simp [updateSpoolInfo, server])).trans flag
  | write may => exact write_invariant invariant _ may rfl rfl fun _ runs => runs

/-- A ticket is marked only if a process recorded in the servers list runs for its job. -/
def MarksServed (q : QueueServer) : Prop :=
  ∀ name ticket, q.spool.tickets name = some ticket → ticket.info.findFlagValue .server ≠ 0 →
    ∃ sp ∈ q.servers, q.RunsFor name sp

/-- In every run in which the server finds the marks at its start, starts well what it
starts, and collects no worker that aborts a destination, whoever is marked when the main
loop looks for the next job is served. -/
theorem marks_served (reached : (queueServer setup).Reachable (Meets setup) q)
    (looping : q.looping = true) : q.MarksServed := by
  have invariant : q.Invariant := by
    refine reached.invariant (fun q start => ?_)
      fun _ _ _ invariant meets step => step_invariant invariant meets step
    exact ⟨start.2.2, fun loops => absurd (start.1.symm.trans loops) (by decide)⟩
  intro name ticket present marked
  exact ⟨q.master, List.mem_cons_self, (invariant.served looping name ticket present marked).2⟩

/-! ## Two runs -/

/-- The ticket of a plain job. -/
def waitingTicket : Ticket where
  info := Fields.empty
    |>.setStrValue .identifier (some (lit "job@host+17"))
    |>.setStrValue .hfName (some (lit "hfA017"))
  dests := fun _ => none
  datafiles := []

/-- A queue with that job in it. -/
def waitingQueue : QueueServer where
  spool :=
    { tickets := fun name => if name = lit "hfA017" then some waitingTicket else none
      files := fun _ => false, spoolControl := .empty, queueControlFile := .empty
      doneCount := 0, doneTime := 0 }
  master := .empty
  subservers := []
  running := []
  looping := false

def plainSetup : QueueSetup where
  printer := lit "lp"
  config := Server.plainConfig
  balances := false
  chooser := false

/-- The loop comes to a job that nothing speaks against. -/
def plainPass (fork : Option Pid) : Pass where
  moment := Server.someMoment
  around := ⟨fun _ => false, fun _ => false, fun _ => []⟩
  serverHolds := fun _ _ => false
  self := ⟨4713, by decide, by decide⟩
  refusal := none
  chooser := .nothing
  fork := fork
  setupError := none
  moveError := none
  left := none
  exit := .jsucc

def startEvent : Event := .start Server.someMoment ⟨fun _ => false, fun _ => false, fun _ => []⟩

theorem waitingQueue_init : (queueServer plainSetup).init waitingQueue := by
  refine ⟨rfl, rfl, fun name ticket present => ?_⟩
  simp only [waitingQueue] at present
  split at present
  · next named =>
      obtain rfl := Option.some.inj present
      exact named ▸ ⟨by decide, rfl⟩
  · cases present

def startedQueue : QueueServer :=
  { waitingQueue with
    spool := { waitingQueue.spool with
      tickets := fun name => (waitingQueue.spool.tickets name).map
        (startTicket Server.someMoment ⟨fun _ => false, fun _ => false, fun _ => []⟩) }
    looping := true }

theorem startedQueue_step : Step plainSetup waitingQueue startEvent startedQueue := .start rfl

/-- The worker of the job is forked, and the mark stands for it. -/
theorem marks_served_plainPass : ∃ q : QueueServer, q.looping = true ∧
    (∃ ticket, q.spool.tickets (lit "hfA017") = some ticket ∧
      ticket.info.findFlagValue .server ≠ 0) ∧ q.MarksServed := by
  let pass := plainPass (some ⟨4712, by decide, by decide⟩)
  obtain ⟨q, ran⟩ : ∃ q, startedQueue.serveJob plainSetup pass (lit "hfA017") = some q := ⟨_, rfl⟩
  have starts : Meets plainSetup waitingQueue startEvent := by
    intro name ticket present marked
    simp only [waitingQueue] at present
    split at present
    · obtain rfl := Option.some.inj present
      exact absurd rfl marked
    · cases present
  have serves : Meets plainSetup startedQueue (.serve (lit "hfA017") pass) := by
    intro ticket present n task planned
    obtain rfl : waitingTicket = ticket := Option.some.inj present
    obtain ⟨-, rfl⟩ := Plan.start.inj ((show _ = Plan.start none (.worker none) from rfl).symm.trans planned)
    exact ⟨rfl, by simp [pass, plainPass]⟩
  have reached : (queueServer plainSetup).Reachable (Meets plainSetup) q :=
    .step (.step (.init waitingQueue_init) starts startedQueue_step) serves
      (.serve rfl (fun _ _ => List.not_mem_nil) (by simp [pass, plainPass]) ran)
  have looping : q.looping = true := by
    obtain rfl := Option.some.inj ran
    rfl
  refine ⟨q, looping, ?_, marks_served reached looping⟩
  obtain rfl := Option.some.inj ran
  exact ⟨_, rfl, by decide⟩

/-- The fork of a worker fails, and the job stays marked while nobody serves it. -/
theorem mark_without_worker :
    ¬ ∀ (setup : QueueSetup) (q : QueueServer),
      (queueServer setup).Reachable (fun _ _ => True) q → q.looping = true → q.MarksServed := by
  intro claimed
  have summary : (startedQueue.serveJob plainSetup (plainPass none) (lit "hfA017")).bind
      (fun q => (q.spool.tickets (lit "hfA017")).map fun ticket =>
        (q.looping, q.running, decide (ticket.info.findFlagValue .server ≠ 0))) =
      some (true, [], true) := by rfl
  obtain ⟨q, ran, summary⟩ := Option.bind_eq_some_iff.mp summary
  obtain ⟨ticket, present, summary⟩ := Option.map_eq_some_iff.mp summary
  obtain ⟨looping, rest⟩ := Prod.mk.inj summary
  obtain ⟨running, marked⟩ := Prod.mk.inj rest
  have reached : (queueServer plainSetup).Reachable (fun _ _ => True) q :=
    .step (.step (.init waitingQueue_init) trivial startedQueue_step) trivial
      (.serve rfl (by simp [plainPass]) (by simp [plainPass]) ran)
  obtain ⟨sp, -, -, worker, member, -⟩ :=
    claimed plainSetup q reached looping _ _ present (of_decide_eq_true marked)
  rw [running] at member
  cases member

end QueueServer

end LPRng
