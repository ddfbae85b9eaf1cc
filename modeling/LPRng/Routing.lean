import LPRng.LpcJob

/-!
# Choosing a destination

`Do_queue_jobs` goes over the tickets of a queue, asks `Job_printable` for the state of
each job, and takes the first destination of a routed job that can be served. The
destination is named in the ticket before the job is handed to a worker.
-/

namespace LPRng

/-- What `Job_printable` learns from outside the ticket: which processes run, which
classes the queue holds, and the text for a list that is being served. -/
structure Surroundings where
  alive : Int → Bool
  holdClass : Fields → Bool
  activeText : Fields → Bytes

/-- What `Job_printable` counts: the destinations, or the job, in each state, and the
error and done times of the job if it has got that far. -/
structure Counts where
  printable : Int
  held : Int
  move : Int
  error : Int
  done : Int

/-- The state of one destination: its text and what it adds to the counters. -/
def destinationStatus (around : Surroundings) (l : Fields) : Bytes × Counts :=
  if l.findFlagValue .errorTime ≠ 0 then (lit "error", ⟨0, 0, 0, 0, 0⟩)
  else if l.findFlagValue .holdTime ≠ 0 then (lit "hold", ⟨0, 1, 0, 0, 0⟩)
  else if l.findFlagValue .doneTime ≠ 0 then (lit "done", ⟨0, 0, 0, 0, 0⟩)
  else if l.findFlagValue .server ≠ 0 ∧ around.alive (l.findFlagValue .server) then
    (around.activeText l, ⟨1, 0, 0, 0, 0⟩)
  else match l.findStrValue .move with
    | some dest => (lit "moved->" ++ dest, ⟨0, 0, 1, 0, 0⟩)
    | none => if around.holdClass l then (lit "holdclass", ⟨0, 1, 0, 0, 0⟩) else ([], ⟨1, 0, 0, 0, 0⟩)

/-- The state of the job as a whole; destinations come on top of it. -/
def jobStatus (around : Surroundings) (info : Fields) : Bytes × Counts :=
  if info.findFlagValue .incomingTime ≠ 0 then
    if info.findFlagValue .incomingPid = 0 ∨ ¬ around.alive (info.findFlagValue .incomingPid) then
      (lit "incoming (orphan)", ⟨0, 0, 0, 0, 0⟩)
    else (lit "incoming", ⟨0, 0, 0, 0, 0⟩)
  else if info.findFlagValue .errorTime ≠ 0 then
    (lit "error", ⟨0, 0, 0, info.findFlagValue .errorTime, 0⟩)
  else if info.findFlagValue .holdTime ≠ 0 then (lit "hold", ⟨0, 1, 0, 0, 0⟩)
  else if info.findFlagValue .doneTime ≠ 0 then
    (lit "done", ⟨0, 0, 0, 0, info.findFlagValue .doneTime⟩)
  else if info.findFlagValue .server ≠ 0 ∧ around.alive (info.findFlagValue .server) then
    (around.activeText info, ⟨1, 0, 0, 0, 0⟩)
  else match info.findStrValue .move with
    | some dest => (lit "moved->" ++ dest, ⟨0, 0, 1, 0, 0⟩)
    | none => if around.holdClass info then (lit "holdclass", ⟨0, 1, 0, 0, 0⟩) else ([], ⟨1, 0, 0, 0, 0⟩)

def Counts.add (c c' : Counts) : Counts :=
  ⟨c.printable + c'.printable, c.held + c'.held, c.move + c'.move, c.error + c'.error,
    c.done + c'.done⟩

/-- The state of a list, noted in the list. -/
def Fields.noteStatus (text : Bytes) (counts : Counts) (l : Fields) : Fields :=
  ((l.setStrValue .prstatus (some text)).setFlagValue .printable counts.printable).setFlagValue
    .held counts.held

/-- One turn of the loop of `Job_printable`. -/
def markDestination (around : Surroundings) (state : Job × Counts) (n : Nat) : Job × Counts :=
  let job := (state.1.getDestination n).1
  let counts := state.2.add (destinationStatus around job.destination).2
  ((job.setDestination
      (·.noteStatus (destinationStatus around job.destination).1 counts)).updateDestination, counts)

/-- `Job_printable`, for a job that is there. -/
def jobPrintable (around : Surroundings) (job : Job) : Job × Counts :=
  let status := jobStatus around job.info
  let destinations := job.info.findFlagValue .destinations
  let marked := if destinations = 0 then (job, status.2)
    else (List.range destinations.toNat).foldl (markDestination around)
      (job, { status.2 with printable := 0 })
  (marked.1.setInfo (·.noteStatus status.1 marked.2), marked.2)

/-- What the loop over the destinations comes to. -/
inductive Choice where
  | wait
  | allDone
  | serve (n : Nat)
  deriving DecidableEq, Repr

/-- The loop over the destinations from `n` on, and the number of those passed that are
done. It stops at a destination that is being served. -/
def scanDestinations (printingEnabled : Bool) (job : Job) : List Nat → Option Nat × Nat
  | [] => (none, 0)
  | n :: rest =>
      let l := (job.getDestination n).1.destination
      if l.findFlagValue .server ≠ 0 then (none, 0)
      else if l.findFlagValue .doneTime ≠ 0 then
        ((scanDestinations printingEnabled job rest).1,
          (scanDestinations printingEnabled job rest).2 + 1)
      else if l.findFlagValue .errorTime ≠ 0 ∨ l.findFlagValue .holdTime ≠ 0 then
        scanDestinations printingEnabled job rest
      else if l.findStrValue .move ≠ none then (some n, 0)
      else if l.findFlagValue .printable ≠ 0 ∧ printingEnabled then
        (if l.findStrValue .dest = none then none else some n, 0)
      else scanDestinations printingEnabled job rest

/-- The choice `Do_queue_jobs` makes for a routed job. -/
def chooseDestination (printingEnabled : Bool) (job : Job) : Choice :=
  let destinations := (job.info.findFlagValue .destinations).toNat
  match scanDestinations printingEnabled job (List.range destinations) with
  | (some n, _) => .serve n
  | (none, done) => if done = destinations then .allDone else .wait

/-- What became of a job when `Do_queue_jobs` came to it. -/
inductive Progress where
  | passed | started | recorded
  deriving DecidableEq, Repr

namespace Server

/-- Printing is neither disabled nor aborted. -/
def printingEnabled (s : Server) : Bool :=
  s.spoolControl.findFlagValue .printingDisabled = 0 &&
    s.spoolControl.findFlagValue .printingAborted = 0

/-- The job can be worked on as `Job_printable` has counted it. -/
def processable (s : Server) (counts : Counts) : Bool :=
  ((counts.printable ≠ 0 && (s.printingEnabled || (s.spoolControl.findStrValue .forwarding).isSome))
    || counts.move ≠ 0) && counts.held = 0

/-- The fields that mark a job for the process that will serve it, at destination `n` if
it has one. -/
def markStarted (moment : Moment) (pid : Pid) (n : Option Nat) (info : Fields) : Fields :=
  let info := match n with
    | some n => info.setStrValue .destination (some (destName n))
    | none => info
  (info.setDecimalValue .server pid.val).setFlagValue .startTime moment.now.val

/-- The ticket is marked for the process that will serve the job. A job that has no
identifier, or has been forwarded too often, is fatal. -/
def startJob (config : Config) (moment : Moment) (pid : Pid) (n : Option Nat) (s : Server) :
    Option Server :=
  if s.job.info.findStrValue .identifier = none ∨
      (config.maxMoveCount > 0 ∧ s.job.info.findFlagValue .moveCount > config.maxMoveCount) then
    none
  else (s.mapJob (·.setInfo (markStarted moment pid n))).setJobTicketFile moment

/-- `Do_queue_jobs` comes to a routed job while a server is free; the second component
says what it has done. -/
def queueJob (config : Config) (moment : Moment) (around : Surroundings) (pid : Pid) (s : Server) :
    Option (Server × Progress) :=
  match s.ticket with
  | none => some (s, .passed)
  | some ticket =>
      if ticket.info.findFlagValue .server ≠ 0 then some (s, .passed)
      else
        let printable := jobPrintable around ticket.toJob
        let s := { s with job := printable.1 }
        if ¬ s.processable printable.2 then some (s, .passed)
        else match chooseDestination s.printingEnabled s.job with
          | .wait => some (s, .passed)
          | .allDone => (s.updateStatus config moment .jsucc).map (·, .recorded)
          | .serve n => (s.startJob config moment pid (some n)).map (·, .started)

/-- `Wait_for_subserver` reads the ticket again and records the exit status. -/
def waitForSubserver (config : Config) (moment : Moment) (status : Status) (s : Server) :
    Option Server :=
  match s.ticket with
  | none => some s
  | some ticket => { s with job := ticket.toJob }.updateStatus config moment status

end Server

/-! ## What `Job_printable` leaves alone -/

/-- The tickets have the same destinations up to the fields that note a state. -/
def Ticket.NotedFrom (d : Nat) (ticket ticket' : Ticket) : Prop :=
  ∀ k < d, ∀ l, ticket.dests (destName k) = some l → ∃ l', ticket'.dests (destName k) = some l' ∧
    ∀ key, key ≠ .prstatus → key ≠ .printable → key ≠ .held → l' key = l key

theorem Fields.noteStatus_of_ne {text : Bytes} {counts : Counts} {l : Fields} {key : Key}
    (notStatus : key ≠ .prstatus) (notPrintable : key ≠ .printable) (notHeld : key ≠ .held) :
    l.noteStatus text counts key = l key := by
  simp [noteStatus, notStatus, notPrintable, notHeld]

theorem Ticket.NotedFrom.refl (d : Nat) (ticket : Ticket) : ticket.NotedFrom d ticket :=
  fun _ _ l present => ⟨l, present, fun _ _ _ _ => rfl⟩

/-- The destinations below `d` carry the numbers of their fields. -/
def Ticket.Numbered (d : Nat) (ticket : Ticket) : Prop :=
  ∀ k < d, ∃ l, ticket.dests (destName k) = some l ∧ l.findFlagValue .destination = k

theorem Ticket.NotedFrom.numbered {d : Nat} {ticket ticket' : Ticket}
    (noted : ticket.NotedFrom d ticket') (numbered : ticket.Numbered d) : ticket'.Numbered d := by
  intro k below
  obtain ⟨l, present, number⟩ := numbered k below
  obtain ⟨l', present', same⟩ := noted k below l present
  exact ⟨l', present', (Fields.findFlagValue_congr
    (same _ (by decide) (by decide) (by decide))).trans number⟩

theorem Ticket.NotedFrom.trans {d : Nat} {t₁ t₂ t₃ : Ticket} (first : t₁.NotedFrom d t₂)
    (second : t₂.NotedFrom d t₃) : t₁.NotedFrom d t₃ := by
  intro k below l present
  obtain ⟨l', present', same⟩ := first k below l present
  obtain ⟨l'', present'', same'⟩ := second k below l' present'
  exact ⟨l'', present'', fun key a b c => (same' key a b c).trans (same key a b c)⟩

variable (around : Surroundings) {d : Nat}

theorem markDestination_noted {state : Job × Counts} (numbered : state.1.Numbered d) {n : Nat}
    (below : n < d) :
    (markDestination around state n).1.info = state.1.info ∧
      state.1.NotedFrom d (markDestination around state n).1.toTicket := by
  obtain ⟨l, present, number⟩ := numbered n below
  have unpacked : state.1.getDestination n =
      ({ state.1 with destination := l }, true) := by
    rw [Job.getDestination, present]
  simp only [markDestination, unpacked]
  refine ⟨rfl, fun k _ l' present' => ?_⟩
  have own : ∀ text counts, (l.noteStatus text counts).findFlagValue .destination = n :=
    fun text counts => (Fields.findFlagValue_congr
      (Fields.noteStatus_of_ne (by decide) (by decide) (by decide))).trans number
  rw [Job.updateDestination]
  simp only [Job.setDestination_destination, Job.setDestination_dests, own]
  rcases eq_or_ne k n with rfl | different
  · obtain rfl := Option.some.inj (present.symm.trans present')
    exact ⟨_, Function.update_self .., fun key a b c => Fields.noteStatus_of_ne a b c⟩
  · refine ⟨l', ?_, fun _ _ _ _ => rfl⟩
    rw [Function.update_of_ne fun same => different (destName_injective same)]
    exact present'

/-- The loop of `Job_printable` only notes states. -/
theorem foldl_markDestination_noted (ns : List Nat) (below : ∀ n ∈ ns, n < d)
    (state : Job × Counts) (numbered : state.1.Numbered d) :
    (ns.foldl (markDestination around) state).1.info = state.1.info ∧
      state.1.NotedFrom d (ns.foldl (markDestination around) state).1.toTicket := by
  induction ns generalizing state with
  | nil => exact ⟨rfl, .refl d _⟩
  | cons n ns ih =>
      obtain ⟨info, noted⟩ := markDestination_noted around numbered
        (below n List.mem_cons_self)
      obtain ⟨info', noted'⟩ := ih (fun m member => below m (List.mem_cons_of_mem n member)) _
        (noted.numbered numbered)
      exact ⟨info'.trans info, noted.trans noted'⟩

theorem jobPrintable_noted (job : Job) (numbered : job.Numbered d)
    (destinations : job.info.findFlagValue .destinations = d) :
    (∀ key, key ≠ .prstatus → key ≠ .printable → key ≠ .held →
      (jobPrintable around job).1.info key = job.info key) ∧
      job.NotedFrom d (jobPrintable around job).1.toTicket := by
  have loop := foldl_markDestination_noted around (List.range d) (by simp)
    (job, { (jobStatus around job.info).2 with printable := 0 }) numbered
  rw [jobPrintable, destinations]
  split
  · exact ⟨fun key a b c => Fields.noteStatus_of_ne a b c, .refl d _⟩
  · refine ⟨fun key a b c => ?_, loop.2⟩
    exact (Fields.noteStatus_of_ne a b c).trans (congrFun loop.1 key)

/-- `Job_printable` notes its findings and leaves every other field of the job alone. -/
theorem jobPrintable_info_of_ne (job : Job) {key : Key} (notStatus : key ≠ .prstatus)
    (notPrintable : key ≠ .printable) (notHeld : key ≠ .held) :
    (jobPrintable around job).1.info key = job.info key := by
  have loop : ∀ (ns : List Nat) (state : Job × Counts),
      (ns.foldl (markDestination around) state).1.info = state.1.info := by
    intro ns
    induction ns with
    | nil => exact fun _ => rfl
    | cons n ns ih => exact fun state => (ih _).trans (Job.getDestination_info ..)
  rw [jobPrintable]
  split
  · exact Fields.noteStatus_of_ne notStatus notPrintable notHeld
  · exact (Fields.noteStatus_of_ne notStatus notPrintable notHeld).trans
      (congrFun (loop _ _) key)

/-! ## The rule of the choice -/

/-- The destination the scan stops at is neither done, in error nor held. -/
theorem scanDestinations_some {enabled : Bool} {job : Job} {ns : List Nat} {n : Nat}
    (found : (scanDestinations enabled job ns).1 = some n) :
    n ∈ ns ∧ (job.getDestination n).1.destination.findFlagValue .doneTime = 0 ∧
      (job.getDestination n).1.destination.findFlagValue .errorTime = 0 ∧
      (job.getDestination n).1.destination.findFlagValue .holdTime = 0 := by
  induction ns with
  | nil => cases found
  | cons m rest ih =>
      simp only [scanDestinations] at found
      have later : (scanDestinations enabled job rest).1 = some n → n ∈ m :: rest ∧ _ :=
        fun found => (ih found).imp_left (List.mem_cons_of_mem m)
      split at found
      · cases found
      split at found
      · exact later found
      next notDone =>
      split at found
      · exact later found
      next free =>
      have chosen : m ∈ m :: rest ∧ (job.getDestination m).1.destination.findFlagValue .doneTime = 0 ∧
          (job.getDestination m).1.destination.findFlagValue .errorTime = 0 ∧
          (job.getDestination m).1.destination.findFlagValue .holdTime = 0 := by
        exact ⟨List.mem_cons_self, not_not.mp notDone, not_not.mp (not_or.mp free).1,
          not_not.mp (not_or.mp free).2⟩
      split at found
      · exact Option.some.inj found ▸ chosen
      split at found
      · split at found
        · cases found
        · exact Option.some.inj found ▸ chosen
      · exact later found

theorem scanDestinations_count_le (enabled : Bool) (job : Job) (ns : List Nat) :
    (scanDestinations enabled job ns).2 ≤ ns.length := by
  induction ns with
  | nil => exact Nat.le_refl 0
  | cons m rest ih =>
      simp only [scanDestinations, List.length_cons]
      split_ifs <;> first | exact Nat.zero_le _ | exact Nat.succ_le_succ ih | exact Nat.le_succ_of_le ih

/-- The scan counts every destination only if each is done. -/
theorem scanDestinations_all (enabled : Bool) (job : Job) (ns : List Nat)
    (all : (scanDestinations enabled job ns).2 = ns.length) :
    ∀ n ∈ ns, (job.getDestination n).1.destination.findFlagValue .doneTime ≠ 0 := by
  induction ns with
  | nil => exact fun n member => nomatch member
  | cons m rest ih =>
      have bound := scanDestinations_count_le enabled job rest
      simp only [scanDestinations, List.length_cons] at all
      split_ifs at all with _ done
      · intro n member
        rcases List.mem_cons.mp member with rfl | later
        · exact done
        · exact ih (Nat.succ.inj all) n later
      all_goals omega

end LPRng
