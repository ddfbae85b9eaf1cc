import LPRng.Persistence
import LPRng.Routing
import LPRng.Transition

/-!
# Completion of routed jobs

A routed job is over once its ticket says so or is gone; it should be over exactly when
each of its destinations is done. `Server.updateStatus_atDestination` says what one
call of `Update_status` does to both, and the runs of a queue server are taken from there.
-/

namespace LPRng

namespace Ticket

/-- Destination `k` has its `DONE_TIME`. -/
def Done (ticket : Ticket) (k : Nat) : Prop :=
  ∃ l, ticket.dests (destName k) = some l ∧ l.findFlagValue .doneTime ≠ 0

def AllDone (d : Nat) (ticket : Ticket) : Prop := ∀ k < d, ticket.Done k

/-- The job as a whole has its `DONE_TIME` or its `REMOVE_TIME`. -/
def Marked (ticket : Ticket) : Prop :=
  ticket.info.findFlagValue .doneTime ≠ 0 ∨ ticket.info.findFlagValue .removeTime ≠ 0

/-- A ticket with `d` destinations as `Get_route` numbers them. -/
structure Routed (d : Nat) (ticket : Ticket) : Prop where
  named : ticket.info .hfName ≠ none
  identified : ticket.info .identifier ≠ none
  destinations : ticket.info.findFlagValue .destinations = d
  numbered : ticket.Numbered d

variable {d j : Nat} {ticket ticket' : Ticket}

theorem Done.congr {k : Nat} (same : ticket'.dests (destName k) = ticket.dests (destName k)) :
    ticket'.Done k ↔ ticket.Done k := by
  rw [Done, Done, same]

theorem done_iff {k : Nat} {l : Fields} (present : ticket.dests (destName k) = some l) :
    ticket.Done k ↔ l.findFlagValue .doneTime ≠ 0 := by
  rw [Done, present]
  simp

theorem Marked.congr (done : ticket'.info .doneTime = ticket.info .doneTime)
    (remove : ticket'.info .removeTime = ticket.info .removeTime) :
    ticket'.Marked ↔ ticket.Marked := by
  rw [Marked, Marked, Fields.findFlagValue_congr done, Fields.findFlagValue_congr remove]

theorem Routed.of_same (routed : ticket.Routed d)
    (named : ticket'.info .hfName = ticket.info .hfName)
    (identified : ticket'.info .identifier = ticket.info .identifier)
    (destinations : ticket'.info .destinations = ticket.info .destinations)
    (numbered : ticket'.Numbered d) : ticket'.Routed d :=
  ⟨named ▸ routed.named, identified ▸ routed.identified,
    (Fields.findFlagValue_congr destinations).trans routed.destinations, numbered⟩

end Ticket

namespace Job

variable {d j : Nat} {job : Job}

theorem ticketImage_done {k : Nat} : job.ticketImage.Done k ↔ job.Done k :=
  Ticket.Done.congr rfl

theorem ticketImage_marked : job.ticketImage.Marked ↔ job.Marked :=
  Ticket.Marked.congr (ticketImage_info_of_ne (by decide)) (ticketImage_info_of_ne (by decide))

theorem ticketImage_routed (routed : job.Routed d) : job.ticketImage.Routed d :=
  routed.of_same (ticketImage_info_of_ne (by decide)) (ticketImage_info_of_ne (by decide))
    (ticketImage_info_of_ne (by decide)) routed.numbered

end Job

namespace Server

/-- The ticket of the job, or what it was before the job was removed. -/
def lastTicket (s : Server) : Ticket := s.ticket.getD s.job.toTicket

/-- The job as a whole is done, to be removed, or gone. -/
def JobOver (s : Server) : Prop := ∀ ticket, s.ticket = some ticket → ticket.Marked

def AllDone (d : Nat) (s : Server) : Prop := s.lastTicket.AllDone d

/-- A job in memory at its destination `j`. -/
structure AtDestination (d j : Nat) (job : Job) : Prop where
  routed : job.Routed d
  below : j < d
  current : job.info .destination = some (destName j)
  number : job.destination.findFlagValue .destination = j
  list : job.Done j ↔ job.destination.findFlagValue .doneTime ≠ 0

/-- A ticket on disk that agrees with a job in memory on what is done. -/
structure InStep (d : Nat) (job : Job) (ticket : Ticket) : Prop where
  routed : ticket.Routed d
  current : ticket.info .destination = job.info .destination
  done : ∀ k < d, (ticket.Done k ↔ job.Done k)
  marked : ticket.Marked ↔ job.Marked

variable (config : Config) (moment : Moment) {d j : Nat} {s : Server}

theorem InStep.image {job : Job} (routed : job.Routed d) : InStep d job job.ticketImage :=
  ⟨Job.ticketImage_routed routed, Job.ticketImage_info_of_ne (by decide),
    fun _ _ => Job.ticketImage_done, Job.ticketImage_marked⟩

/-- Putting a list back under its own number. -/
theorem AtDestination.put {job : Job} (position : AtDestination d j job) {g f : Fields → Fields}
    (keeps : ∀ key ∈ [Key.hfName, .identifier, .destinations, .destination],
      g job.info key = job.info key)
    (number : f job.destination .destination = job.destination .destination) :
    AtDestination d j ((job.setInfo g).setDestination f).updateDestination ∧
      ∀ k, k ≠ j → (((job.setInfo g).setDestination f).updateDestination.Done k ↔ job.Done k) := by
  have kept : (f job.destination).findFlagValue .destination = j :=
    (Fields.findFlagValue_congr number).trans position.number
  have here : ((job.setInfo g).setDestination f).updateDestination.dests (destName j) =
      some (f job.destination) := by
    rw [← kept]
    exact Function.update_self ..
  have elsewhere : ∀ k, k ≠ j →
      ((job.setInfo g).setDestination f).updateDestination.dests (destName k) =
        job.dests (destName k) := by
    intro k different
    refine Function.update_of_ne ?_ _ _
    rw [Job.setDestination_destination, Job.setInfo_destination, kept]
    exact fun same => different (destName_injective same)
  refine ⟨⟨position.routed.of_same (keeps _ (by simp)) (keeps _ (by simp)) (keeps _ (by simp)) ?_,
    position.below, (keeps _ (by simp)).trans position.current, kept, ?_⟩, fun k different =>
      Ticket.Done.congr (elsewhere k different)⟩
  · intro k below
    rcases eq_or_ne k j with rfl | different
    · exact ⟨_, here, kept⟩
    · obtain ⟨l, present, own⟩ := position.routed.numbered k below
      exact ⟨l, (elsewhere k different).trans present, own⟩
  · exact Ticket.done_iff here

theorem AtDestination.setInfo {job : Job} (position : AtDestination d j job) {g : Fields → Fields}
    (keeps : ∀ key ∈ [Key.hfName, .identifier, .destinations, .destination],
      g job.info key = job.info key) : AtDestination d j (job.setInfo g) :=
  ⟨position.routed.of_same (keeps _ (by simp)) (keeps _ (by simp)) (keeps _ (by simp))
    position.routed.numbered, position.below, (keeps _ (by simp)).trans position.current,
    position.number, position.list⟩

/-- A server at work on destination `j`, with a ticket on disk that is in step. -/
structure Serving (d j : Nat) (s : Server) : Prop where
  position : AtDestination d j s.job
  disk : ∃ ticket, s.ticket = some ticket ∧ InStep d s.job ticket

/-- What a call of `Update_status` comes to: the destinations done before, and the current
one if it was closed; the job over as before, or ended with this destination. -/
structure Recorded (d j : Nat) (closed ends : Prop) (s s' : Server) : Prop where
  routed : s'.lastTicket.Routed d
  current : s'.lastTicket.info .destination = some (destName j)
  done : ∀ k < d, (s'.lastTicket.Done k ↔ s.job.Done k ∨ (k = j ∧ closed))
  isOver : s'.JobOver ↔ s.job.Marked ∨ (closed ∧ ends)

theorem jobOver_some {ticket : Ticket} (present : s.ticket = some ticket) :
    s.JobOver ↔ ticket.Marked := by
  rw [JobOver, present]
  simp

theorem lastTicket_some {ticket : Ticket} (present : s.ticket = some ticket) :
    s.lastTicket = ticket := by
  rw [lastTicket, present, Option.getD_some]

/-- A server still at work, whose job has the given destinations done and marks. -/
theorem Serving.recorded {s' : Server} {closed ends : Prop} (serving : Serving d j s')
    (done : ∀ k < d, (s'.job.Done k ↔ s.job.Done k ∨ (k = j ∧ closed)))
    (marked : s'.job.Marked ↔ s.job.Marked ∨ (closed ∧ ends)) :
    Recorded d j closed ends s s' := by
  obtain ⟨ticket, present, inStep⟩ := serving.disk
  refine ⟨?_, ?_, fun k below => ?_, ?_⟩
  · exact lastTicket_some present ▸ inStep.routed
  · rw [lastTicket_some present, inStep.current, serving.position.current]
  · rw [lastTicket_some present, inStep.done k below, done k below]
  · rw [jobOver_some present, inStep.marked, marked]

theorem setJobTicketFile_serving (position : AtDestination d j s.job) :
    ∃ s' ∈ s.setJobTicketFile moment, Serving d j s' ∧
      s'.job = s.job.setInfo (·.setStrValue .updateTime moment.timeStr) := by
  have stamped : AtDestination d j (s.job.setInfo (·.setStrValue .updateTime moment.timeStr)) :=
    position.setInfo (by simp)
  exact ⟨_, if_neg stamped.routed.named, ⟨stamped, _, rfl, .image stamped.routed⟩, rfl⟩

/-- A change of the job and its current destination, encoded and written. -/
theorem putAndWrite (position : AtDestination d j s.job) {g f : Fields → Fields}
    (keeps : ∀ key ∈ [Key.hfName, .identifier, .destinations, .destination, .doneTime, .removeTime],
      g s.job.info key = s.job.info key)
    (number : f s.job.destination .destination = s.job.destination .destination) :
    ∃ s' ∈ (s.mapJob fun job =>
        ((job.setInfo g).setDestination f).updateDestination).setJobTicketFile moment,
      Serving d j s' ∧ (∀ k, k ≠ j → (s'.job.Done k ↔ s.job.Done k)) ∧
        (s'.job.Done j ↔ (f s.job.destination).findFlagValue .doneTime ≠ 0) ∧
        (s'.job.Marked ↔ s.job.Marked) ∧ s'.job.destination = f s.job.destination := by
  obtain ⟨placed, elsewhere⟩ := position.put (g := g)
    (fun key member => keeps key (by simp at member ⊢; tauto)) number
  obtain ⟨s', wrote, serving, job⟩ := setJobTicketFile_serving moment
    (s := s.mapJob fun job => ((job.setInfo g).setDestination f).updateDestination) placed
  refine ⟨s', wrote, serving, fun k different => ?_, ?_, ?_, by rw [job]; rfl⟩
  · rw [← elsewhere k different, job]
    exact Ticket.Done.congr rfl
  · rw [job]
    exact placed.list
  · rw [job]
    refine Ticket.Marked.congr ?_ ?_
    · simpa using keeps .doneTime (by simp)
    · simpa using keeps .removeTime (by simp)

/-- A write of the current destination that leaves its `DONE_TIME` alone. -/
theorem writeDestination_recorded (position : AtDestination d j s.job) {f : Fields → Fields}
    (number : f s.job.destination .destination = s.job.destination .destination)
    (time : f s.job.destination .doneTime = s.job.destination .doneTime)
    {closed ends : Prop} (notClosed : ¬ closed) :
    ∃ s' ∈ (s.mapJob fun job =>
        (job.setDestination f).updateDestination).setJobTicketFile moment,
      Recorded d j closed ends s s' := by
  obtain ⟨s', wrote, serving, elsewhere, here, marked, _⟩ :=
    putAndWrite moment position (g := id) (fun _ _ => rfl) number
  refine ⟨s', wrote, serving.recorded (fun k _ => ?_) (by simp [marked, notClosed])⟩
  rcases eq_or_ne k j with rfl | different
  · rw [here, Fields.findFlagValue_congr time, position.list]
    simp [notClosed]
  · simp [elsewhere k different, different]

/-- The end of a job: it is over, and its destinations stay as they are. -/
theorem doneJob_atDestination (position : AtDestination d j s.job) :
    ∃ s' ∈ s.doneJob config moment, s'.lastTicket.Routed d ∧
      s'.lastTicket.info .destination = some (destName j) ∧
      (∀ k < d, (s'.lastTicket.Done k ↔ s.job.Done k)) ∧ s'.JobOver := by
  rw [doneJob, if_neg position.routed.named]
  have marked : AtDestination d j
      (s.job.setInfo (·.setFlagValue .removeTime moment.now.val)) := position.setInfo (by simp)
  obtain ⟨s₁, wrote, serving, job⟩ := setJobTicketFile_serving moment
    (s := s.mapJob (·.setInfo (·.setFlagValue .removeTime moment.now.val))) marked
  have same : ∀ k, (s₁.job.Done k ↔ s.job.Done k) := fun k => job ▸ Ticket.Done.congr rfl
  have isOver : s₁.job.Marked := by
    refine Or.inr ?_
    rw [job]
    simp [Fields.findFlagValue_setFlagValue_time moment.now]
  refine exists_mem_map ⟨s₁, wrote, ?_⟩
  rw [saveOrRemove]
  split
  · obtain ⟨ticket, present, inStep⟩ := serving.disk
    have last := lastTicket_some (s := { s₁ with
      doneCount := s₁.doneCount + 1
      doneTime := if s₁.doneTime = 0 then moment.now.val else s₁.doneTime }) present
    refine ⟨last ▸ inStep.routed, ?_, fun k below => ?_, (jobOver_some present).mpr ?_⟩
    · rw [last, inStep.current, serving.position.current]
    · rw [last, inStep.done k below, same]
    · exact inStep.marked.mpr isOver
  · have gone : s₁.removeJob.ticket = none := if_neg serving.position.routed.named
    have last : s₁.removeJob.lastTicket = s₁.job.toTicket := by rw [lastTicket, gone]; rfl
    refine ⟨last ▸ serving.position.routed, last ▸ serving.position.current,
      fun k _ => by rw [last, same], fun ticket present => ?_⟩
    cases gone.symm.trans present

/-! ## Closing a destination -/

/-- A success closes the destination: it is moved, or this is its last copy. -/
def Closes (l : Fields) : Prop :=
  l .move ≠ none ∨ l.findFlagValue .copies ≤ l.findFlagValue .copyDone + 1

/-- The destination whose end the code takes for the end of the job. -/
def Ends (d j : Nat) (l : Fields) : Prop := l .move = none ∧ d ≤ j + 1

theorem finishDestination_destination (l : Fields) :
    (finishDestination moment l).1 .destination = l .destination := by
  rw [finishDestination]
  split
  · simp
  · simp only [Fields.countCopy]
    split <;> simp

theorem finishDestination_closes (l : Fields) :
    (finishDestination moment l).2.1 = true ↔ Closes l := by
  rw [finishDestination, Closes]
  split
  · next moved => simp [moved]
  · next unmoved =>
      simp only [Fields.countCopy]
      split
      · next last => simpa [unmoved] using last
      · next more => simpa [unmoved] using more

theorem finishDestination_done (l : Fields) :
    (finishDestination moment l).1.findFlagValue .doneTime ≠ 0 ↔
      l.findFlagValue .doneTime ≠ 0 ∨ Closes l := by
  rw [← finishDestination_closes moment, finishDestination]
  split
  · simp [Fields.findFlagValue_setFlagValue_time moment.now]
  · simp only [Fields.countCopy]
    split
    · simp [Fields.findFlagValue_setFlagValue_time moment.now]
    · simp [Fields.findFlagValue]

theorem finishDestination_ends {l : Fields} (number : l.findFlagValue .destination = j)
    (below : j < d) (closes : Closes l) :
    (finishDestination moment l).2.2 ≥ d ↔ Ends d j l := by
  rw [← finishDestination_closes moment, finishDestination] at closes
  rw [finishDestination, Ends]
  split
  · next moved => simp [moved, number]; omega
  · next unmoved =>
      rw [if_neg unmoved] at closes
      have closed : (Fields.countCopy (l.findFlagValue .copies) moment l).2 = true := closes
      simp only [closed, if_true, number]
      simp at unmoved
      simp [unmoved]
      omega

theorem succeedDestination_recorded (position : AtDestination d j s.job) :
    ∃ s' ∈ s.succeedDestination config moment d,
      Recorded d j (Closes s.job.destination) (Ends d j s.job.destination) s s' := by
  let counted := s.mapJob fun job =>
    ((job.setInfo fun info =>
        info.setFlagValue .sequence (info.findFlagValue .sequence + 1)).setDestination
      fun _ => (finishDestination moment s.job.destination).1).updateDestination
  have number := finishDestination_destination moment s.job.destination
  obtain ⟨placed, elsewhere⟩ := position.put
    (g := fun info => info.setFlagValue .sequence (info.findFlagValue .sequence + 1))
    (f := fun _ => (finishDestination moment s.job.destination).1) (by simp) number
  have done : ∀ k, (counted.job.Done k ↔ s.job.Done k ∨ (k = j ∧ Closes s.job.destination)) := by
    intro k
    rcases eq_or_ne k j with rfl | different
    · have here : counted.job.Done k ↔ _ :=
        placed.list.trans (finishDestination_done moment s.job.destination)
      simpa [position.list] using here
    · have there : counted.job.Done k ↔ s.job.Done k := elsewhere k different
      simp [there, different]
  by_cases closed : Closes s.job.destination ∧ Ends d j s.job.destination
  · obtain ⟨s', ended, routed, current, kept, isOver⟩ := doneJob_atDestination config moment (s := counted.mapJob (·.setInfo (·.setFlagValue .doneTime moment.now.val)))
      (placed.setInfo (g := (·.setFlagValue .doneTime moment.now.val)) (by simp))
    refine ⟨s', ?_, routed, current, fun k below => ?_, iff_of_true isOver (Or.inr closed)⟩
    · rw [succeedDestination, if_pos ⟨(finishDestination_closes moment _).mpr closed.1,
        (finishDestination_ends moment position.number position.below closed.1).mpr closed.2⟩]
      exact ended
    · rw [kept k below, ← done k]
      exact Ticket.Done.congr rfl
  · obtain ⟨s', wrote, serving, job⟩ := setJobTicketFile_serving moment
      (s := counted) placed
    refine ⟨s', ?_, serving.recorded (fun k _ => ?_) ?_⟩
    · rw [succeedDestination, if_neg]
      · exact wrote
      · rintro ⟨done, ended⟩
        have closes := (finishDestination_closes moment _).mp done
        exact closed ⟨closes, (finishDestination_ends moment position.number position.below closes).mp ended⟩
    · rw [← done k, job]
      exact Ticket.Done.congr rfl
    · have same : s'.job.Marked ↔ s.job.Marked := by
        rw [job]
        exact Ticket.Marked.congr (by simp [counted]) (by simp [counted])
      simp [same, closed]

/-- An abort changes the list in memory; the ticket stays what it was. -/
theorem abortJob_recorded (serving : Serving d j s) {closed ends : Prop} (notClosed : ¬ closed) :
    ∃ s' ∈ s.abortJob config moment true, Recorded d j closed ends s s' := by
  obtain ⟨ticket, present, inStep⟩ := serving.disk
  refine ⟨_, rfl, ?_⟩
  have kept : ∀ s' : Server, s'.ticket = s.ticket → Recorded d j closed ends s s' := by
    intro s' same
    have there := same.trans present
    refine ⟨?_, ?_, fun k below => ?_, ?_⟩
    · exact lastTicket_some there ▸ inStep.routed
    · rw [lastTicket_some there, inStep.current, serving.position.current]
    · rw [lastTicket_some there, inStep.done k below]
      simp [notClosed]
    · rw [jobOver_some there, inStep.marked]
      simp [notClosed]
  refine kept _ ?_
  rw [stopOnAbort]
  split <;> rfl

theorem settle_recorded (serving : Serving d j s) (status : Status) :
    ∃ s' ∈ s.settle config moment d true status,
      Recorded d j (status = .jsucc ∧ Closes s.job.destination) (Ends d j s.job.destination) s s' := by
  cases status with
  | jsucc =>
      obtain ⟨s', ended, recorded⟩ := succeedDestination_recorded config moment serving.position
      exact ⟨s', ended, by simpa using recorded⟩
  | jhold => exact writeDestination_recorded moment serving.position (by simp) (by simp) (by simp)
  | jfailnoretry => exact writeDestination_recorded moment serving.position (by simp) (by simp) (by simp)
  | jremove => exact writeDestination_recorded moment serving.position (by simp) (by simp) (by simp)
  | jabort => exact abortJob_recorded config moment serving (by simp)
  | jfail => exact abortJob_recorded config moment serving (by simp)
  | jtimeout => exact abortJob_recorded config moment serving (by simp)
  | other code => exact abortJob_recorded config moment serving (by simp)

/-- The status counts as a success of the destination, at once or as failure action. -/
def Succeeds (config : Config) (moment : Moment) (status : Status) (l : Fields) : Prop :=
  status = .jsucc ∨
    ((status = .jfail ∨ status = .jtimeout) ∧ failureStatus config moment l.nextAttempt = .jsucc)

theorem Recorded.congr {closed closed' ends : Prop} {s₁ s' : Server}
    (recorded : Recorded d j closed ends s₁ s') (same : closed ↔ closed')
    (done : ∀ k < d, (s₁.job.Done k ↔ s.job.Done k)) (marked : s₁.job.Marked ↔ s.job.Marked) :
    Recorded d j closed' ends s s' := by
  obtain rfl := propext same
  exact ⟨recorded.routed, recorded.current,
    fun k below => (recorded.done k below).trans (or_congr_left (done k below)),
    recorded.isOver.trans (or_congr_left marked)⟩

/-- A retry withdraws the error in memory and writes the job once more. -/
theorem retryJob_recorded (serving : Serving d j s) (closed ends : Prop) (notClosed : ¬ closed) :
    ∃ s' ∈ s.retryJob moment true, Recorded d j closed ends s s' := by
  have position := serving.position
  have time : s.job.destination.clearError.findFlagValue .doneTime =
      s.job.destination.findFlagValue .doneTime := Fields.findFlagValue_congr (by simp)
  have number : s.job.destination.clearError.findFlagValue .destination =
      s.job.destination.findFlagValue .destination := Fields.findFlagValue_congr (by simp)
  have cleared : AtDestination d j (s.job.setDestination Fields.clearError) :=
    ⟨position.routed, position.below, position.current, number.trans position.number, by
      rw [Job.setDestination_destination, time]
      exact position.list⟩
  obtain ⟨s', wrote, serving, job⟩ := setJobTicketFile_serving moment
    (s := s.mapJob (·.setDestination Fields.clearError)) cleared
  refine ⟨s', wrote, serving.recorded (fun k _ => ?_) ?_⟩
  · have same : s'.job.Done k ↔ s.job.Done k := job ▸ Ticket.Done.congr rfl
    simp [same, notClosed]
  · have same : s'.job.Marked ↔ s.job.Marked := by
      rw [job]
      exact Ticket.Marked.congr (by simp) (by simp)
    simp [same, notClosed]

theorem failJob_recorded (serving : Serving d j s) :
    ∃ s' ∈ s.failJob config moment d true,
      Recorded d j (failureStatus config moment s.job.destination.nextAttempt = .jsucc ∧
        Closes s.job.destination) (Ends d j s.job.destination) s s' := by
  obtain ⟨s₁, wrote, counting, elsewhere, here, marked, destination⟩ :=
    putAndWrite moment serving.position (g := id) (f := Fields.countAttempt)
      (fun _ _ => rfl) (by simp)
  have done : ∀ k, (s₁.job.Done k ↔ s.job.Done k) := by
    intro k
    rcases eq_or_ne k j with rfl | different
    · have time : s.job.destination.countAttempt.findFlagValue .doneTime =
          s.job.destination.findFlagValue .doneTime := Fields.findFlagValue_congr (by simp)
      rw [here, serving.position.list, time]
    · exact elsewhere k different
  have closes : Closes s₁.job.destination ↔ Closes s.job.destination := by
    simp [Closes, destination, Fields.countAttempt]
  have ends : Ends d j s₁.job.destination ↔ Ends d j s.job.destination := by
    simp [Ends, destination]
  have ends' : ∀ status, ∃ s' ∈ s₁.resumeFailed config moment d true status,
      Recorded d j (status = .jsucc ∧ Closes s.job.destination) (Ends d j s.job.destination) s s' := by
    intro status
    rw [← propext ends, resumeFailed]
    split
    · next retry =>
        obtain ⟨s', ended, recorded⟩ := retryJob_recorded moment counting
          (status = .jsucc ∧ Closes s.job.destination) (Ends d j s₁.job.destination)
          (by simp [retry])
        exact ⟨s', ended, recorded.congr Iff.rfl (fun k _ => done k) marked⟩
    · obtain ⟨s', ended, recorded⟩ := settle_recorded config moment
        counting status
      exact ⟨s', ended, recorded.congr (and_congr_right fun _ => closes) (fun k _ => done k) marked⟩
  obtain ⟨s', ended, recorded⟩ := ends' (failureStatus config moment s.job.destination.nextAttempt)
  exact ⟨s', Option.bind_eq_some_iff.mpr ⟨s₁, wrote, ended⟩, recorded⟩

/-- `Update_status` of a job whose ticket names its destination `j`. -/
theorem updateStatus_recorded (routed : s.job.Routed d) (below : j < d)
    (current : s.job.info .destination = some (destName j)) {ticket : Ticket}
    (present : s.ticket = some ticket) (inStep : InStep d s.job ticket) {l : Fields}
    (list : s.job.dests (destName j) = some l) (status : Status) :
    ∃ s' ∈ s.updateStatus config moment status,
      Recorded d j (Succeeds config moment status l ∧ Closes l) (Ends d j l) s s' := by
  obtain ⟨l', list', number⟩ := routed.numbered j below
  obtain rfl := Option.some.inj (list.symm.trans list')
  have at_ : s.job.currentDestination = some l := by
    rw [Job.currentDestination, if_neg (by rw [routed.destinations]; omega), current]
    exact list
  have count : (s.job.info.setDecimalValue .server 0).findFlagValue .destinations = d := by
    rw [Fields.findFlagValue_setDecimalValue_of_ne (by decide), routed.destinations]
  have opened : Serving d j (s.mapJob fun _ => (s.job.setInfo
      (·.setDecimalValue .server 0)).setDestination fun _ => l.setDecimalValue .server 0) := by
    refine ⟨⟨routed.of_same (by simp) (by simp) (by simp) routed.numbered, below, ?_, ?_, ?_⟩,
      ticket, present, inStep.routed, ?_, fun k below => (inStep.done k below).trans ?_,
      inStep.marked.trans ?_⟩
    · simpa using current
    · simpa using number
    · rw [mapJob_job, Job.setDestination_destination,
        Fields.findFlagValue_setDecimalValue_of_ne (by decide)]
      exact Ticket.done_iff list
    · simpa using inStep.current
    · exact Ticket.Done.congr rfl
    · exact Ticket.Marked.congr (by simp) (by simp)
  have done : ∀ k < d, ((s.mapJob fun _ => (s.job.setInfo
      (·.setDecimalValue .server 0)).setDestination fun _ =>
        l.setDecimalValue .server 0).job.Done k ↔ s.job.Done k) := fun _ _ => Ticket.Done.congr rfl
  have marked : (s.mapJob fun _ => (s.job.setInfo
      (·.setDecimalValue .server 0)).setDestination fun _ =>
        l.setDecimalValue .server 0).job.Marked ↔ s.job.Marked :=
    Ticket.Marked.congr (by simp) (by simp)
  have closes : Closes (l.setDecimalValue .server 0) ↔ Closes l := by simp [Closes]
  have ends : Ends d j (l.setDecimalValue .server 0) ↔ Ends d j l := by simp [Ends]
  have attempt : (l.setDecimalValue .server 0).nextAttempt = l.nextAttempt := by
    simp [Fields.nextAttempt]
  rw [updateStatus_eq config moment routed.identified, openJob_some at_, ← propext ends]
  dsimp only [Job.setDestination_info, Job.setInfo_info]
  rw [count]
  split
  · next fails =>
      obtain ⟨s', ended, recorded⟩ := failJob_recorded config moment opened
      refine ⟨s', ended, recorded.congr ?_ done marked⟩
      have notDone : status ≠ .jsucc := by rcases fails with rfl | rfl <;> decide
      simp [Succeeds, attempt, fails, notDone, closes]
  · next settles =>
      obtain ⟨s', ended, recorded⟩ := settle_recorded config moment
        opened status
      refine ⟨s', ended, recorded.congr ?_ done marked⟩
      simp [Succeeds, settles, closes]

end Server

/-! ## Runs of the queue server -/

/-- A queue server and one routed job. The job is `reopened` while a command of lpc has
taken back the end of it and no outcome has been recorded since. -/
structure RoutedQueue where
  server : Server
  working : Bool
  reopened : Bool

inductive QueueEvent where
  | queue (moment : Moment) (around : Surroundings) (pid : Pid)
  | exit (moment : Moment) (status : Status)
  | lpc (moment : Moment) (action : JobAction) (selected : Option Nat)

open Server

/-- What becomes of the queue and the job when an event happens, if it can. -/
def RoutedQueue.next (config : Config) (d : Nat) (q : RoutedQueue) : QueueEvent → Option RoutedQueue
  | .queue moment around pid =>
      (q.server.queueJob config moment around pid).map fun result =>
        ⟨result.1, q.working || result.2 = .started, q.reopened && result.2 ≠ .recorded⟩
  | .exit moment status =>
      if q.working then
        (q.server.waitForSubserver config moment status).map fun s => ⟨s, false, false⟩
      else none
  | .lpc moment action selected =>
      if ∀ n ∈ selected, n < d then
        (q.server.doJobTicketFile moment action selected).map fun s =>
          ⟨s, q.working, q.reopened || action.reopens⟩
      else none

/-- A job as `Get_route` leaves it, with `d` destinations of any kind. -/
structure RoutedQueue.Fresh (d : Nat) (q : RoutedQueue) : Prop where
  some_ : 0 < d
  idle : q.working = false
  present : ∃ ticket, q.server.ticket = some ticket ∧ ticket.Routed d ∧
    ticket.info .destination = none ∧ ¬ ticket.Marked ∧ ∀ k < d, ¬ ticket.Done k

/-- The runs of a queue server over a job with `d` destinations. -/
def routedQueue (config : Config) (d : Nat) : System RoutedQueue QueueEvent :=
  System.ofNext (RoutedQueue.Fresh d) (RoutedQueue.next config d)

namespace JobAction

variable (action : JobAction) (now : Time) {selected : Option Nat} {d : Nat} {job : Job}

theorem apply_dests {n k : Nat} (numbered : job.Numbered d) (below : n < d) :
    (k ≠ n → (action.apply now (some n) job).dests (destName k) = job.dests (destName k)) ∧
      ∃ l, job.dests (destName n) = some l ∧
        (action.apply now (some n) job).dests (destName n) =
          some (action.onDestination now l) := by
  obtain ⟨l, present, number⟩ := numbered n below
  have unpacked : job.getDestination n = ({ job with destination := l }, true) := by
    rw [Job.getDestination, present]
  have own : (action.onDestination now l).findFlagValue .destination = n :=
    (Fields.findFlagValue_congr (onDestination_of_ne (by decide) (by decide) (by decide)
      (by decide))).trans number
  have dests : (action.apply now (some n) job).dests =
      Function.update job.dests (destName n) (some (action.onDestination now l)) := by
    rw [apply, unpacked, ← own]
    rfl
  rw [dests]
  exact ⟨fun different => Function.update_of_ne
    (fun same => different (destName_injective same)) _ _, l, present, Function.update_self ..⟩

theorem apply_numbered (selects : ∀ n ∈ selected, n < d) (numbered : job.Numbered d) :
    (action.apply now selected job).Numbered d := by
  intro k below
  cases selected with
  | none => exact numbered k below
  | some n =>
      obtain ⟨elsewhere, l, present, changed⟩ :=
        apply_dests action now (k := k) numbered (selects n rfl)
      rcases eq_or_ne k n with rfl | different
      · obtain ⟨l', present', number⟩ := numbered k below
        obtain rfl := Option.some.inj (present.symm.trans present')
        exact ⟨_, changed, (Fields.findFlagValue_congr (onDestination_of_ne (by decide) (by decide)
          (by decide) (by decide))).trans number⟩
      · rw [elsewhere different]
        exact numbered k below

theorem apply_done (selects : ∀ n ∈ selected, n < d) (numbered : job.Numbered d) {k : Nat}
    (done : (action.apply now selected job).Done k) : job.Done k := by
  cases selected with
  | none => exact done
  | some n =>
      obtain ⟨elsewhere, l, present, changed⟩ :=
        apply_dests action now (k := k) numbered (selects n rfl)
      rcases eq_or_ne k n with rfl | different
      · rw [Ticket.done_iff changed] at done
        rw [Ticket.done_iff present]
        cases action <;> simp [onDestination] at done <;> exact done
      · exact (Ticket.Done.congr (elsewhere different)).mp done

theorem apply_done_of_not_reopens (selects : ∀ n ∈ selected, n < d) (numbered : job.Numbered d)
    (keeps : action.reopens = false) {k : Nat} (done : job.Done k) :
    (action.apply now selected job).Done k := by
  cases selected with
  | none => exact done
  | some n =>
      obtain ⟨elsewhere, l, present, changed⟩ :=
        apply_dests action now (k := k) numbered (selects n rfl)
      rcases eq_or_ne k n with rfl | different
      · rw [Ticket.done_iff present] at done
        rw [Ticket.done_iff changed]
        cases action <;> simp [reopens] at keeps <;> simpa [onDestination] using done
      · exact (Ticket.Done.congr (elsewhere different)).mpr done

theorem apply_marked_iff (keeps : action.reopens = false) :
    (action.apply now selected job).Marked ↔ job.Marked := by
  have untouched : ∀ key, key = .doneTime ∨ key = .removeTime → key ∉ action.sets := by
    rintro key (rfl | rfl) <;> cases action <;> simp [reopens] at keeps <;> simp [sets]
  exact Ticket.Marked.congr (apply_info_of_not_mem _ _ _ (untouched _ (Or.inl rfl)))
    (apply_info_of_not_mem _ _ _ (untouched _ (Or.inr rfl)))

theorem apply_not_marked (reopens : action.reopens = true) :
    ¬ (action.apply now selected job).Marked := by
  have cleared : ∀ info : Fields, (action.onInfo now info).findFlagValue .doneTime = 0 ∧
      (action.onInfo now info).findFlagValue .removeTime = 0 := by
    intro info
    cases action <;> simp [JobAction.reopens] at reopens <;> simp [onInfo]
  rintro (done | remove)
  · refine done ?_
    cases selected <;> simpa [apply] using (cleared _).1
  · refine remove ?_
    cases selected <;> simpa [apply] using (cleared _).2

end JobAction

namespace RoutedQueue

variable {config : Config} {d : Nat} {q q' : RoutedQueue}

/-- What holds between any two steps. -/
structure Invariant (d : Nat) (q : RoutedQueue) : Prop where
  some_ : 0 < d
  routed : q.server.lastTicket.Routed d
  named : (q.server.lastTicket.info .destination = none ∧
      ∀ k < d, ¬ q.server.lastTicket.Done k) ∨
    ∃ j < d, q.server.lastTicket.info .destination = some (destName j)
  working : q.working = true → q.server.ticket ≠ none → ∃ j < d,
    q.server.lastTicket.info .destination = some (destName j) ∧ ¬ q.server.lastTicket.Done j
  isOver : q.server.JobOver → q.server.AllDone d
  closed : q.reopened = false → q.server.AllDone d → q.server.JobOver

theorem Fresh.invariant (fresh : q.Fresh d) : q.Invariant d := by
  obtain ⟨ticket, present, routed, unnamed, unmarked, notDone⟩ := fresh.present
  have last : q.server.lastTicket = ticket := lastTicket_some present
  refine ⟨fresh.some_, last ▸ routed, Or.inl (last ▸ ⟨unnamed, notDone⟩), fun working => ?_,
    fun isOver => ?_, fun _ allDone => ?_⟩
  · cases working.symm.trans fresh.idle
  · exact absurd ((jobOver_some present).mp isOver) unmarked
  · have first := allDone 0 fresh.some_
    rw [last] at first
    exact absurd first (notDone 0 fresh.some_)

/-- When a step may go the way the code means it to. A destination that closes must be
the last-numbered one, not moved, exactly if all the others are done; and when all are
done, the one served last must be the last-numbered one, not moved, with all its copies. -/
def Meets (config : Config) (d : Nat) (q : RoutedQueue) : QueueEvent → Prop
  | .exit moment status => ∀ ticket j l, q.server.ticket = some ticket → j < d →
      ticket.info .destination = some (destName (j : Nat)) → ticket.dests (destName j) = some l →
      Succeeds config moment status l → Closes l →
      ((∀ k < d, k ≠ j → ticket.Done k) ↔ Ends d j l)
  | .queue .. => ∀ ticket j l, q.server.ticket = some ticket → j < d →
      ticket.info .destination = some (destName (j : Nat)) → ticket.dests (destName j) = some l →
      ticket.AllDone d → Closes l ∧ Ends d j l
  | .lpc .. => True

theorem Invariant.gone (invariant : q.Invariant d) (gone : q.server.ticket = none)
    (same : q'.server = q.server) : q'.Invariant d :=
  ⟨invariant.some_, same ▸ invariant.routed, same ▸ invariant.named,
    fun _ present => absurd (same ▸ gone) present, same ▸ invariant.isOver,
    fun _ _ _ present => nomatch (same ▸ gone : q'.server.ticket = none).symm.trans present⟩

theorem Invariant.passed (invariant : q.Invariant d) {ticket : Ticket}
    (present : q.server.ticket = some ticket) (same : q'.server.ticket = some ticket)
    (working : q'.working = q.working) (reopened : q'.reopened = false → q.reopened = false) :
    q'.Invariant d := by
  have last : q'.server.lastTicket = q.server.lastTicket :=
    (lastTicket_some same).trans (lastTicket_some present).symm
  have isOver : q'.server.JobOver ↔ q.server.JobOver :=
    (jobOver_some same).trans (jobOver_some present).symm
  refine ⟨invariant.some_, last ▸ invariant.routed, last ▸ invariant.named, ?_, ?_, ?_⟩
  · rw [working, last, same, ← present]
    exact invariant.working
  · rw [isOver, AllDone, last]
    exact invariant.isOver
  · rw [isOver, AllDone, last]
    exact fun closed => invariant.closed (reopened closed)

theorem lpc_invariant (invariant : q.Invariant d) {moment : Moment} {action : JobAction}
    {selected : Option Nat} {s : Server} (selects : ∀ n ∈ selected, n < d)
    (step : q.server.doJobTicketFile moment action selected = some s) :
    (⟨s, q.working, q.reopened || action.reopens⟩ : RoutedQueue).Invariant d := by
  have weaker : (q.reopened || action.reopens) = false → q.reopened = false :=
    fun closed => (Bool.or_eq_false_iff.mp closed).1
  rw [doJobTicketFile] at step
  cases present : q.server.ticket with
  | none =>
      rw [present] at step
      exact invariant.gone present (Option.some.inj step).symm
  | some ticket =>
      rw [present] at step
      dsimp only at step
      split at step
      · exact invariant.passed present (Option.some.inj step ▸ present) rfl weaker
      have last : q.server.lastTicket = ticket := lastTicket_some present
      have routed : ticket.toJob.Routed d := last ▸ invariant.routed
      let job := action.apply moment.now selected ticket.toJob
      have kept : ∀ key ∈ [Key.hfName, .identifier, .destinations, .destination],
          job.info key = ticket.info key := by
        intro key member
        refine JobAction.apply_info_of_not_mem moment.now selected ticket.toJob ?_
        cases action <;> simp at member <;> rcases member with rfl | rfl | rfl | rfl <;>
          simp [JobAction.sets]
      have changed : job.Routed d := routed.of_same (kept _ (by simp)) (kept _ (by simp))
        (kept _ (by simp)) (JobAction.apply_numbered _ _ selects routed.numbered)
      let stamped := job.setInfo (·.setStrValue .updateTime moment.timeStr)
      have stampedRouted : stamped.Routed d := changed.of_same (by simp [stamped])
        (by simp [stamped]) (by simp [stamped]) changed.numbered
      have wrote : s.ticket = some stamped.ticketImage := by
        obtain ⟨same, image⟩ := setJobTicketFile_some step
        rw [image, same]
      have last' : s.lastTicket = stamped.ticketImage := lastTicket_some wrote
      have name : s.lastTicket.info .destination = ticket.info .destination := by
        rw [last', Job.ticketImage_info_of_ne (by decide)]
        simpa [stamped] using kept .destination (by simp)
      have done : ∀ k, s.lastTicket.Done k → ticket.Done k := by
        intro k done
        rw [last', Job.ticketImage_done] at done
        exact JobAction.apply_done _ _ selects routed.numbered done
      have done' : action.reopens = false → ∀ k, ticket.Done k → s.lastTicket.Done k := by
        intro keeps k done
        rw [last', Job.ticketImage_done]
        exact JobAction.apply_done_of_not_reopens _ _ selects routed.numbered keeps done
      have marked : s.JobOver ↔ job.Marked := by
        rw [jobOver_some wrote, Job.ticketImage_marked]
        exact Ticket.Marked.congr (by simp [stamped]) (by simp [stamped])
      have isOver : q.server.JobOver ↔ ticket.Marked := jobOver_some present
      have allDone : q.server.AllDone d ↔ ticket.AllDone d := by rw [AllDone, last]
      refine ⟨invariant.some_, last' ▸ Job.ticketImage_routed stampedRouted, ?_, ?_, ?_, ?_⟩
      · rw [name]
        have named := invariant.named
        rw [last] at named
        exact named.imp_left fun before => ⟨before.1, fun k below later => before.2 k below (done k later)⟩
      · intro working _
        obtain ⟨j, below, current, notDone⟩ := invariant.working working (by simp [present])
        rw [last] at current notDone
        exact ⟨j, below, name.trans current, fun later => notDone (done j later)⟩
      · intro ended
        rw [marked] at ended
        cases keeps : action.reopens with
        | true => exact absurd ended (JobAction.apply_not_marked _ _ keeps)
        | false =>
            have before := isOver.mpr ((JobAction.apply_marked_iff _ _ keeps).mp ended)
            exact fun k below => done' keeps k (allDone.mp (invariant.isOver before) k below)
      · intro closed every
        obtain ⟨closed, keeps⟩ := Bool.or_eq_false_iff.mp closed
        have before := allDone.mpr fun k below => done k (every k below)
        rw [marked]
        exact (JobAction.apply_marked_iff _ _ keeps).mpr (isOver.mp (invariant.closed closed before))

theorem exit_invariant (invariant : q.Invariant d) {moment : Moment} {status : Status} {s : Server}
    (meets : Meets config d q (.exit moment status)) (working : q.working = true)
    (step : q.server.waitForSubserver config moment status = some s) :
    (⟨s, false, false⟩ : RoutedQueue).Invariant d := by
  rw [waitForSubserver] at step
  split at step
  · next gone => exact invariant.gone gone (Option.some.inj step).symm
  · next ticket present =>
      have last : q.server.lastTicket = ticket := lastTicket_some present
      have routed : ticket.Routed d := last ▸ invariant.routed
      obtain ⟨j, below, current, notDone⟩ := invariant.working working (by simp [present])
      rw [last] at current notDone
      obtain ⟨l, list, number⟩ := routed.numbered j below
      obtain ⟨s', ended, recorded⟩ := updateStatus_recorded config moment
        (s := { q.server with job := ticket.toJob }) routed below current present
        ⟨routed, rfl, fun _ _ => Iff.rfl, Iff.rfl⟩ list status
      obtain rfl : s = s' := Option.some.inj (step.symm.trans ended)
      have isOver : ticket.Marked → ticket.AllDone d := fun marked =>
        last ▸ invariant.isOver ((jobOver_some present).mpr marked)
      have notAll : ¬ ticket.AllDone d := fun all => notDone (all j below)
      have exactly_ := fun closed : Succeeds config moment status l ∧ Closes l =>
        meets ticket j l present below current list closed.1 closed.2
      have done : ∀ k < d, (s.lastTicket.Done k ↔
          ticket.Done k ∨ (k = j ∧ Succeeds config moment status l ∧ Closes l)) := recorded.done
      refine ⟨invariant.some_, recorded.routed, Or.inr ⟨j, below, recorded.current⟩,
        fun impossible => Bool.noConfusion impossible, fun ended k inside => ?_,
        fun _ every => ?_⟩
      · rw [done k inside]
        rcases recorded.isOver.mp ended with marked | ⟨closed, ends⟩
        · exact absurd (isOver marked) notAll
        · rcases eq_or_ne k j with rfl | different
          · exact Or.inr ⟨rfl, closed⟩
          · exact Or.inl ((exactly_ closed).mpr ends k inside different)
      · rw [recorded.isOver]
        have closed : Succeeds config moment status l ∧ Closes l :=
          (((done j below).mp (every j below)).resolve_left notDone).2
        refine Or.inr ⟨closed, (exactly_ closed).mp fun k inside different => ?_⟩
        exact ((done k inside).mp (every k inside)).resolve_right fun same => different same.1

/-- The job as `Job_printable` leaves it is in step with its ticket. -/
theorem jobPrintable_inStep (around : Surroundings) {ticket : Ticket} (routed : ticket.Routed d) :
    (jobPrintable around ticket.toJob).1.Routed d ∧
      InStep d (jobPrintable around ticket.toJob).1 ticket ∧
      ∀ k < d, ∀ l, ticket.dests (destName k) = some l →
        ∃ l', (jobPrintable around ticket.toJob).1.dests (destName k) = some l' ∧
          ∀ key, key ≠ .prstatus → key ≠ .printable → key ≠ .held → l' key = l key := by
  obtain ⟨info, noted⟩ := jobPrintable_noted around ticket.toJob
    routed.numbered routed.destinations
  have same : ∀ k < d, (ticket.Done k ↔ (jobPrintable around ticket.toJob).1.Done k) := by
    intro k below
    obtain ⟨l, present, _⟩ := routed.numbered k below
    obtain ⟨l', present', same⟩ := noted k below l present
    rw [Ticket.done_iff present, Ticket.done_iff present',
      Fields.findFlagValue_congr (same .doneTime (by decide) (by decide) (by decide))]
  refine ⟨?_, ⟨routed, ?_, same, ?_⟩, noted⟩
  · exact routed.of_same (info _ (by decide) (by decide) (by decide))
      (info _ (by decide) (by decide) (by decide)) (info _ (by decide) (by decide) (by decide))
      (noted.numbered routed.numbered)
  · exact (info .destination (by decide) (by decide) (by decide)).symm
  · exact (Ticket.Marked.congr (info _ (by decide) (by decide) (by decide))
      (info _ (by decide) (by decide) (by decide))).symm

theorem getDestination_done {job : Job} (routed : job.Routed d) {k : Nat} (below : k < d) :
    (job.getDestination k).1.destination.findFlagValue .doneTime ≠ 0 ↔ job.Done k := by
  obtain ⟨l, present, _⟩ := routed.numbered k below
  rw [Ticket.done_iff present, Job.getDestination, present]

theorem chooseDestination_serve {enabled : Bool} {job : Job} (routed : job.Routed d) {n : Nat}
    (chosen : chooseDestination enabled job = .serve n) : n < d ∧ ¬ job.Done n := by
  rw [chooseDestination] at chosen
  split at chosen
  · next found =>
      obtain rfl := Choice.serve.inj chosen
      have found' := scanDestinations_some (congrArg Prod.fst found)
      rw [routed.destinations] at found'
      have below := List.mem_range.mp found'.1
      exact ⟨below, fun done => (getDestination_done routed below).mpr done found'.2.1⟩
  · split at chosen <;> cases chosen

theorem chooseDestination_allDone {enabled : Bool} {job : Job} (routed : job.Routed d)
    (chosen : chooseDestination enabled job = .allDone) : job.AllDone d := by
  rw [chooseDestination] at chosen
  split at chosen
  · cases chosen
  · next found =>
      split at chosen
      · next count =>
          intro k below
          have all := scanDestinations_all enabled job
            (List.range (job.info.findFlagValue .destinations).toNat)
            (by rw [found, List.length_range]; exact count)
          refine (getDestination_done routed below).mp (all k (List.mem_range.mpr ?_))
          rw [routed.destinations]
          exact below
      · cases chosen

/-- The last outcome of a job whose destinations are all done. -/
theorem allDone_invariant (invariant : q.Invariant d) {moment : Moment} {around : Surroundings}
    {pid : Pid} (meets : Meets config d q (.queue moment around pid)) {ticket : Ticket}
    (present : q.server.ticket = some ticket) (every : ticket.AllDone d) {s : Server}
    (step : ({ q.server with job := (jobPrintable around ticket.toJob).1 } :
      Server).updateStatus config moment .jsucc = some s) :
    (⟨s, q.working, false⟩ : RoutedQueue).Invariant d := by
  have last : q.server.lastTicket = ticket := lastTicket_some present
  have routed : ticket.Routed d := last ▸ invariant.routed
  have named := invariant.named
  rw [last] at named
  rcases named with ⟨_, notDone⟩ | ⟨j, below, current⟩
  · exact absurd (every 0 invariant.some_) (notDone 0 invariant.some_)
  obtain ⟨l, list, _⟩ := routed.numbered j below
  obtain ⟨printable, inStep, noted⟩ := jobPrintable_inStep around routed
  obtain ⟨l', list', same⟩ := noted j below l list
  obtain ⟨s', ended, recorded⟩ := updateStatus_recorded config moment
    (s := { q.server with job := (jobPrintable around ticket.toJob).1 }) printable below
    (inStep.current ▸ current) present inStep list' .jsucc
  obtain rfl : s = s' := Option.some.inj (step.symm.trans ended)
  have all : s.AllDone d := fun k inside =>
    (recorded.done k inside).mpr (Or.inl ((inStep.done k inside).mp (every k inside)))
  have isOver : s.JobOver := by
    obtain ⟨closes, ends⟩ := meets ticket j l present below current list every
    have closes' : Closes l' := by
      rw [Closes, same .move (by decide) (by decide) (by decide),
        Fields.findFlagValue_congr (same .copies (by decide) (by decide) (by decide)),
        Fields.findFlagValue_congr (same .copyDone (by decide) (by decide) (by decide))]
      exact closes
    have ends' : Ends d j l' := by
      rw [Ends, same .move (by decide) (by decide) (by decide)]
      exact ends
    exact recorded.isOver.mpr (Or.inr ⟨⟨Or.inl rfl, closes'⟩, ends'⟩)
  refine ⟨invariant.some_, recorded.routed, Or.inr ⟨j, below, recorded.current⟩,
    fun working _ => ?_, fun _ => all, fun _ _ => isOver⟩
  obtain ⟨k, inside, _, notDone⟩ := invariant.working working (by simp [present])
  rw [last] at notDone
  exact absurd (every k inside) notDone

/-- The start of a worker for destination `n`. -/
theorem serve_invariant (invariant : q.Invariant d) {moment : Moment} {around : Surroundings}
    {pid : Pid} {ticket : Ticket} (present : q.server.ticket = some ticket) {n : Nat}
    (below : n < d) (notDone : ¬ (jobPrintable around ticket.toJob).1.Done n) {s : Server}
    (step : ({ q.server with job := (jobPrintable around ticket.toJob).1 } :
      Server).startJob config moment pid (some n) = some s) :
    (⟨s, true, q.reopened⟩ : RoutedQueue).Invariant d := by
  have last : q.server.lastTicket = ticket := lastTicket_some present
  have routed : ticket.Routed d := last ▸ invariant.routed
  obtain ⟨printable, inStep, _⟩ := jobPrintable_inStep around routed
  let started := ((jobPrintable around ticket.toJob).1.setInfo
    (markStarted moment pid (some n))).setInfo (·.setStrValue .updateTime moment.timeStr)
  have startedRouted : started.Routed d := printable.of_same (by simp [started, markStarted])
    (by simp [started, markStarted]) (by simp [started, markStarted]) printable.numbered
  have wrote : s.ticket = some started.ticketImage := by
    rw [startJob] at step
    split at step
    · cases step
    · obtain ⟨job, image⟩ := setJobTicketFile_some step
      rw [image, job]
      rfl
  have last' : s.lastTicket = started.ticketImage := lastTicket_some wrote
  have done : ∀ k < d, (s.lastTicket.Done k ↔ ticket.Done k) := by
    intro k inside
    rw [last', Job.ticketImage_done, inStep.done k inside]
    exact Ticket.Done.congr rfl
  have isOver : s.JobOver ↔ ticket.Marked := by
    rw [jobOver_some wrote, Job.ticketImage_marked, inStep.marked]
    exact Ticket.Marked.congr (by simp [started, markStarted]) (by simp [started, markStarted])
  have named : s.lastTicket.info .destination = some (destName n) := by
    rw [last', Job.ticketImage_info_of_ne (by decide)]
    simp [started, markStarted, destName, lit]
  have before : q.server.JobOver ↔ ticket.Marked := jobOver_some present
  refine ⟨invariant.some_, last' ▸ Job.ticketImage_routed startedRouted,
    Or.inr ⟨n, below, named⟩, fun _ _ => ⟨n, below, named, ?_⟩, fun ended k inside => ?_,
    fun _ every => ?_⟩
  · rw [done n below, inStep.done n below]
    exact notDone
  · have all := invariant.isOver (before.mpr (isOver.mp ended)) k inside
    rw [last] at all
    exact (done k inside).mpr all
  · have finished := (done n below).mp (every n below)
    exact absurd ((inStep.done n below).mp finished) notDone

theorem queue_invariant (invariant : q.Invariant d) {moment : Moment} {around : Surroundings}
    {pid : Pid} (meets : Meets config d q (.queue moment around pid)) {s : Server}
    {progress : Progress} (step : q.server.queueJob config moment around pid = some (s, progress)) :
    (⟨s, q.working || progress = .started, q.reopened && progress ≠ .recorded⟩ :
      RoutedQueue).Invariant d := by
  rw [queueJob] at step
  split at step
  · next gone =>
      obtain ⟨rfl, rfl⟩ := Prod.mk.inj (Option.some.inj step)
      exact invariant.gone gone rfl
  next ticket present =>
  have passes : ∀ s' : Server, s'.ticket = some ticket → (s', Progress.passed) = (s, progress) →
      (⟨s, q.working || progress = .started, q.reopened && progress ≠ .recorded⟩ :
        RoutedQueue).Invariant d := by
    rintro s' same pair
    obtain ⟨rfl, rfl⟩ := Prod.mk.inj pair
    exact invariant.passed present same (by simp) (by simp)
  have routed : ticket.Routed d := lastTicket_some present ▸ invariant.routed
  obtain ⟨printable, inStep, _⟩ := jobPrintable_inStep around routed
  split at step
  · exact passes _ present (Option.some.inj step)
  dsimp only at step
  split at step
  · exact passes (q.server.mapJob fun _ => (jobPrintable around ticket.toJob).1) present
      (Option.some.inj step)
  split at step
  · exact passes (q.server.mapJob fun _ => (jobPrintable around ticket.toJob).1) present
      (Option.some.inj step)
  · next chosen =>
      obtain ⟨s', ended, pair⟩ := Option.map_eq_some_iff.mp step
      obtain ⟨rfl, rfl⟩ := Prod.mk.inj pair
      have every : ticket.AllDone d := fun k below =>
        (inStep.done k below).mpr (chooseDestination_allDone printable chosen k below)
      simpa using allDone_invariant invariant meets present every ended
  · next n chosen =>
      obtain ⟨s', ended, pair⟩ := Option.map_eq_some_iff.mp step
      obtain ⟨rfl, rfl⟩ := Prod.mk.inj pair
      obtain ⟨below, notDone⟩ := chooseDestination_serve printable chosen
      simpa using serve_invariant invariant present below notDone ended

theorem next_invariant (invariant : q.Invariant d) {e : QueueEvent} (meets : Meets config d q e)
    (step : q.next config d e = some q') : q'.Invariant d := by
  cases e with
  | queue moment around pid =>
      obtain ⟨⟨s, progress⟩, ended, rfl⟩ := Option.map_eq_some_iff.mp step
      exact queue_invariant invariant meets ended
  | exit moment status =>
      rw [next] at step
      split at step
      · next working =>
          obtain ⟨s, ended, rfl⟩ := Option.map_eq_some_iff.mp step
          exact exit_invariant invariant meets working ended
      · cases step
  | lpc moment action selected =>
      rw [next] at step
      split at step
      · next selects =>
          obtain ⟨s, ended, rfl⟩ := Option.map_eq_some_iff.mp step
          exact lpc_invariant invariant selects ended
      · cases step

/-- In every run of a queue server whose steps meet the condition, a routed job is over
exactly if every one of its destinations is done; only a command that takes back the end
of the job comes between the two. -/
theorem over_iff_allDone (reached : (routedQueue config d).Reachable (Meets config d) q) :
    (q.server.JobOver → q.server.AllDone d) ∧
      (q.reopened = false → (q.server.JobOver ↔ q.server.AllDone d)) := by
  have invariant : q.Invariant d :=
    reached.invariant (fun q (fresh : q.Fresh d) => fresh.invariant)
      fun q e q' invariant meets step => next_invariant invariant meets step
  exact ⟨invariant.isOver, fun closed => ⟨invariant.isOver, invariant.closed closed⟩⟩

/-! ## Two runs -/

/-- The ticket of a job with destinations 0 and 1, one copy each. -/
def twoDestinations : Ticket where
  info := Fields.empty
    |>.setStrValue .identifier (some (lit "job@host+17"))
    |>.setStrValue .hfName (some (lit "hfA017"))
    |>.setFlagValue .destinations 2
  dests := fun name =>
    if name = lit "DEST0" then
      some ((Fields.empty.setFlagValue .destination 0).setStrValue .dest (some (lit "lp0")))
    else if name = lit "DEST1" then
      some ((Fields.empty.setFlagValue .destination 1).setStrValue .dest (some (lit "lp1")))
    else none
  datafiles := []

/-- A queue server that keeps done jobs comes to that job. -/
def twoDestinationsQueue : RoutedQueue where
  server :=
    { job := twoDestinations.toJob, ticket := some twoDestinations, files := fun _ => false,
      spoolControl := .empty, queueControlFile := .empty, doneCount := 0, doneTime := 0 }
  working := false
  reopened := false

theorem twoDestinationsQueue_fresh : twoDestinationsQueue.Fresh 2 := by
  refine ⟨by decide, rfl, twoDestinations, rfl, ⟨by decide, by decide, rfl, ?_⟩, rfl, ?_, ?_⟩
  · rintro (_ | _ | k) below
    · exact ⟨_, rfl, rfl⟩
    · exact ⟨_, rfl, rfl⟩
    · omega
  · rintro (done | remove)
    · exact done rfl
    · exact remove rfl
  · rintro (_ | _ | k) below ⟨l, present, done⟩
    · exact done (Option.some.inj present ▸ rfl)
    · exact done (Option.some.inj present ▸ rfl)
    · omega

def savingConfig : Config := { plainConfig with saveWhenDone := true }

def quiet : Surroundings where
  alive := fun _ => false
  holdClass := fun _ => false
  activeText := fun _ => []

def queueEvent : QueueEvent := .queue someMoment quiet ⟨4711, by decide, by decide⟩

/-- The first destination fails for good, the second is printed, and the job is over. -/
theorem over_before_allDone :
    ¬ ∀ (config : Config) (d : Nat) (q : RoutedQueue),
      (routedQueue config d).Reachable (fun _ _ => True) q →
      (q.server.JobOver → q.server.AllDone d) ∧
        (q.reopened = false → (q.server.JobOver ↔ q.server.AllDone d)) := by
  intro claimed
  let events : List QueueEvent :=
    [queueEvent, .exit someMoment .jremove, queueEvent, .exit someMoment .jsucc]
  let outcome := events.foldlM (next savingConfig 2) twoDestinationsQueue
  have summary : outcome.bind (fun q => q.server.ticket.map fun ticket =>
      (decide (ticket.info.findFlagValue .doneTime ≠ 0),
        (ticket.dests (destName 0)).map (·.findFlagValue .doneTime))) =
      some (true, some 0) := by rfl
  obtain ⟨q, ran, summary⟩ := Option.bind_eq_some_iff.mp summary
  obtain ⟨ticket, present, summary⟩ := Option.map_eq_some_iff.mp summary
  obtain ⟨done, first⟩ := Prod.mk.inj summary
  have reached : (routedQueue savingConfig 2).Reachable (fun _ _ => True) q :=
    System.reachable_foldlM (.init twoDestinationsQueue_fresh) (fun _ _ _ => trivial) ran
  have isOver : q.server.JobOver := (jobOver_some present).mpr (Or.inl (of_decide_eq_true done))
  obtain ⟨l, list, finished⟩ := (claimed savingConfig 2 q reached).1 isOver 0 (by decide)
  rw [lastTicket_some present] at list
  obtain ⟨l', list', unfinished⟩ := Option.map_eq_some_iff.mp first
  obtain rfl := Option.some.inj (list.symm.trans list')
  exact finished unfinished

/-- The job with its first destination only. -/
def oneDestination : Ticket :=
  { twoDestinations with info := twoDestinations.info.setFlagValue .destinations 1 }

def oneDestinationQueue : RoutedQueue :=
  { twoDestinationsQueue with
    server := { twoDestinationsQueue.server with
      job := oneDestination.toJob, ticket := some oneDestination } }

/-- The destination is served and printed, and the job is over with it. -/
theorem over_iff_allDone_oneDestination : ∃ q : RoutedQueue,
    (routedQueue savingConfig 1).Reachable (Meets savingConfig 1) q ∧
      q.server.JobOver ∧ q.server.AllDone 1 := by
  have fresh : oneDestinationQueue.Fresh 1 := by
    refine ⟨by decide, rfl, oneDestination, rfl, ⟨by decide, by decide, rfl, ?_⟩, rfl, ?_, ?_⟩
    · rintro (_ | k) below
      · exact ⟨_, rfl, rfl⟩
      · omega
    · rintro (done | remove)
      · exact done rfl
      · exact remove rfl
    · rintro (_ | k) below ⟨l, present, done⟩
      · exact done (Option.some.inj present ▸ rfl)
      · omega
  obtain ⟨q₁, served⟩ : ∃ q₁, next savingConfig 1 oneDestinationQueue queueEvent = some q₁ :=
    ⟨_, rfl⟩
  obtain ⟨q₂, printed⟩ : ∃ q₂, next savingConfig 1 q₁ (.exit someMoment .jsucc) = some q₂ := by
    obtain rfl := Option.some.inj served
    exact ⟨_, rfl⟩
  have first : Meets savingConfig 1 oneDestinationQueue queueEvent := by
    rintro ticket j l present below - - every
    obtain rfl := Option.some.inj present
    obtain ⟨l', list, done⟩ := every 0 (by decide)
    exact absurd (Option.some.inj list ▸ rfl) done
  have second : Meets savingConfig 1 q₁ (.exit someMoment .jsucc) := by
    obtain rfl := Option.some.inj served
    rintro ticket j l present below - list - -
    obtain rfl := Option.some.inj present
    obtain rfl : j = 0 := by omega
    obtain rfl := Option.some.inj list
    exact iff_of_true (fun k inside different => absurd inside (by omega)) ⟨rfl, by decide⟩
  have reached : (routedQueue savingConfig 1).Reachable (Meets savingConfig 1) q₂ :=
    .step (.step (.init fresh) first served) second printed
  have isOver : q₂.server.JobOver := by
    obtain rfl := Option.some.inj served
    obtain rfl := Option.some.inj printed
    rintro ticket present
    obtain rfl := Option.some.inj present
    exact Or.inl (by decide)
  exact ⟨q₂, reached, isOver, (over_iff_allDone reached).1 isOver⟩

end RoutedQueue

end LPRng
