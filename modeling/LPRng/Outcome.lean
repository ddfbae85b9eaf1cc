import LPRng.Persistence

/-!
# What recording an outcome leaves alone

Every case of `Update_status` has its own fields to set, in the job or in the list of
the destination that was served. All other fields stay as they were read, in memory and
in the ticket it writes.
-/

namespace LPRng

/-- Fields of a job and fields of one of its destinations. -/
structure Touch where
  info : List Key
  dest : List Key

namespace Touch

/-- What every write of the ticket touches besides. -/
def stamped (touch : Touch) : Touch where
  info := .server :: .updateTime :: .openname :: touch.info
  dest := .server :: touch.dest

def append (touch touch' : Touch) : Touch := ⟨touch.info ++ touch'.info, touch.dest ++ touch'.dest⟩

end Touch

/-- The tickets agree outside the touched fields. Where a list was put, it agrees with the
list at hand. -/
structure Ticket.AgreesOutside (touch : Touch) (hand : Option (Bytes × Fields)) (t t' : Ticket) :
    Prop where
  info : ∀ key ∉ touch.stamped.info, t'.info key = t.info key
  dests : ∀ name, t'.dests name = t.dests name ∨ ∃ l l', hand = some (name, l) ∧
    t'.dests name = some l' ∧ ∀ key ∉ touch.stamped.dest, l' key = l key

theorem ne_of_outside {key other : Key} {keys : List Key} (outside : key ∉ keys)
    (member : other ∈ keys) : key ≠ other := fun same => outside (same ▸ member)

namespace Ticket.AgreesOutside

variable {touch touch' : Touch} {hand : Option (Bytes × Fields)} {t₁ t₂ t₃ : Ticket}

theorem refl (t : Ticket) : AgreesOutside touch hand t t := ⟨fun _ _ => rfl, fun _ => Or.inl rfl⟩

theorem trans {hand' : Option (Bytes × Fields)} (first : AgreesOutside touch hand t₁ t₂)
    (second : AgreesOutside touch hand' t₂ t₃)
    (same : ∀ name l', hand' = some (name, l') → ∃ l, hand = some (name, l) ∧
      ∀ key ∉ touch.stamped.dest, l' key = l key) : AgreesOutside touch hand t₁ t₃ := by
  refine ⟨fun key outside => (second.info key outside).trans (first.info key outside),
    fun name => ?_⟩
  rcases second.dests name with kept | ⟨l', l'', at', put, agrees⟩
  · rw [kept]
    exact first.dests name
  · obtain ⟨l, at', agrees'⟩ := same name l' at'
    exact Or.inr ⟨l, l'', at', put, fun key outside =>
      (agrees key outside).trans (agrees' key outside)⟩

theorem mono (agrees : AgreesOutside touch hand t₁ t₂) (info : touch.info ⊆ touch'.info)
    (dest : touch.dest ⊆ touch'.dest) : AgreesOutside touch' hand t₁ t₂ := by
  have infos : touch.stamped.info ⊆ touch'.stamped.info :=
    List.cons_subset_cons _ (List.cons_subset_cons _ (List.cons_subset_cons _ info))
  have dests : touch.stamped.dest ⊆ touch'.stamped.dest := List.cons_subset_cons _ dest
  refine ⟨fun key outside => agrees.info key fun member => outside (infos member),
    fun name => (agrees.dests name).imp_right ?_⟩
  rintro ⟨l, l', at', put, same⟩
  exact ⟨l, l', at', put, fun key outside => same key fun member => outside (dests member)⟩

end Ticket.AgreesOutside

namespace Server

/-- The unpacked list, and the field it goes back to. -/
def hand (hasDest : Bool) (s : Server) : Option (Bytes × Fields) :=
  if hasDest then some (destName (s.job.destination.findFlagValue .destination), s.job.destination)
  else none

/-- What a part of `Update_status` leaves alone: in memory, in the unpacked list, and in a
ticket that was written. -/
structure Frame (touch : Touch) (hasDest : Bool) (s s' : Server) : Prop where
  job : s.job.toTicket.AgreesOutside touch (s.hand hasDest) s'.job.toTicket
  list : ∀ key ∉ touch.stamped.dest, s'.job.destination key = s.job.destination key
  number : s'.job.destination .destination = s.job.destination .destination
  ticket : ∀ t, s'.ticket = some t →
    s.ticket = some t ∨ s.job.toTicket.AgreesOutside touch (s.hand hasDest) t

variable {config : Config} {moment : Moment} {hasDest : Bool} {touch touch' : Touch}
  {s s₁ s₂ s' : Server}

theorem Frame.refl (s : Server) : Frame touch hasDest s s :=
  ⟨.refl _, fun _ _ => rfl, rfl, fun _ present => Or.inl present⟩

theorem Frame.trans (first : Frame touch hasDest s s₁) (second : Frame touch hasDest s₁ s₂) :
    Frame touch hasDest s s₂ := by
  have hands : ∀ name l', s₁.hand hasDest = some (name, l') → ∃ l,
      s.hand hasDest = some (name, l) ∧ ∀ key ∉ touch.stamped.dest, l' key = l key := by
    intro name l' held
    cases hasDest with
    | false => cases held
    | true =>
        obtain ⟨rfl, rfl⟩ := Prod.mk.inj (Option.some.inj held)
        exact ⟨s.job.destination,
          by rw [Fields.findFlagValue_congr first.number]; rfl, first.list⟩
  refine ⟨first.job.trans second.job hands,
    fun key outside => (second.list key outside).trans (first.list key outside),
    second.number.trans first.number, fun t present => ?_⟩
  rcases second.ticket t present with kept | written
  · exact first.ticket t kept
  · exact Or.inr (first.job.trans written hands)

theorem Frame.mono (frame : Frame touch hasDest s s') (info : touch.info ⊆ touch'.info)
    (dest : touch.dest ⊆ touch'.dest) : Frame touch' hasDest s s' := by
  have dests : touch.stamped.dest ⊆ touch'.stamped.dest := List.cons_subset_cons _ dest
  exact ⟨frame.job.mono info dest, fun key outside => frame.list key fun member =>
    outside (dests member), frame.number, fun t present =>
      (frame.ticket t present).imp_right (·.mono info dest)⟩

/-- A change of touched fields of the job. -/
theorem frame_setInfo {g : Fields → Fields}
    (keeps : ∀ key ∉ touch.stamped.info, g s.job.info key = s.job.info key) :
    Frame touch hasDest s (s.mapJob (·.setInfo g)) :=
  ⟨⟨keeps, fun _ => Or.inl rfl⟩, fun _ _ => rfl, rfl, fun _ present => Or.inl present⟩

theorem frame_setFlag {key : Key} (member : key ∈ touch.stamped.info) (value : Int) :
    Frame touch hasDest s (s.mapJob (·.setInfo (·.setFlagValue key value))) :=
  frame_setInfo fun _ outside => Fields.setFlagValue_of_ne (ne_of_outside outside member) value

/-- A change of touched fields of the unpacked list. -/
theorem frame_setDestination {f : Fields → Fields}
    (keeps : ∀ key ∉ touch.stamped.dest, f s.job.destination key = s.job.destination key)
    (number : f s.job.destination .destination = s.job.destination .destination) :
    Frame touch hasDest s (s.mapJob (·.setDestination f)) :=
  ⟨.refl _, keeps, number, fun _ present => Or.inl present⟩

/-- A changed list put back under its own number. -/
theorem frame_put {f : Fields → Fields}
    (keeps : ∀ key ∉ touch.stamped.dest, f s.job.destination key = s.job.destination key)
    (number : f s.job.destination .destination = s.job.destination .destination) :
    Frame touch true s (s.mapJob fun job => (job.setDestination f).updateDestination) := by
  have name : destName ((f s.job.destination).findFlagValue .destination) =
      destName (s.job.destination.findFlagValue .destination) :=
    congrArg destName (Fields.findFlagValue_congr number)
  refine ⟨⟨fun _ _ => rfl, fun other => ?_⟩, keeps, number, fun _ present => Or.inl present⟩
  rcases eq_or_ne other (destName (s.job.destination.findFlagValue .destination)) with rfl | differs
  · refine Or.inr ⟨s.job.destination, f s.job.destination, rfl, ?_, keeps⟩
    rw [← name]
    exact Function.update_self ..
  · exact Or.inl (Function.update_of_ne (name ▸ differs) ..)

theorem setJobTicketFile_frame (wrote : s' ∈ s.setJobTicketFile moment) :
    Frame touch hasDest s s' := by
  obtain ⟨job, image⟩ := setJobTicketFile_some wrote
  have stamped : s.job.toTicket.AgreesOutside touch (s.hand hasDest) s'.job.toTicket := by
    rw [job]
    exact ⟨fun key outside => Fields.setStrValue_of_ne
      (ne_of_outside outside (by simp [Touch.stamped])) _, fun _ => Or.inl rfl⟩
  have imaged : s'.job.toTicket.AgreesOutside touch none s'.job.ticketImage :=
    ⟨fun key outside => Job.ticketImage_info_of_ne
      (ne_of_outside outside (by simp [Touch.stamped])), fun _ => Or.inl rfl⟩
  refine ⟨stamped, fun _ _ => by rw [job]; rfl, by rw [job]; rfl, fun t present => Or.inr ?_⟩
  obtain rfl := Option.some.inj (image.symm.trans present)
  exact stamped.trans imaged fun _ _ impossible => nomatch impossible

theorem saveOrRemove_frame {keeps : Bool} : Frame touch hasDest s (s.saveOrRemove keeps moment) := by
  cases keeps with
  | true => exact ⟨.refl _, fun _ _ => rfl, rfl, fun _ present => Or.inl present⟩
  | false =>
      refine ⟨.refl _, fun _ _ => rfl, rfl, fun t present => ?_⟩
      simp only [saveOrRemove, removeJob, Bool.false_eq_true, if_false] at present
      split at present
      · exact Or.inl present
      · cases present

theorem stopOnAbort_frame : Frame touch hasDest s (s.stopOnAbort config) := by
  rw [stopOnAbort]
  split <;> exact ⟨.refl _, fun _ _ => rfl, rfl, fun _ present => Or.inl present⟩

end Server

/-! ## The cases of `Update_status` -/

/-- What the cases other than the first look at a failure touch; `JFAIL` stands for the
retry of a failed job. -/
def Status.touches (hasDest : Bool) : Status → Touch
  | .jhold => if hasDest then ⟨[], [.holdTime]⟩ else ⟨[.holdTime, .priorityTime], []⟩
  | .jsucc =>
      if hasDest then ⟨[.sequence, .doneTime, .removeTime], [.copyDone, .doneTime]⟩
      else ⟨[.copyDone, .doneTime, .removeTime], []⟩
  | .jfailnoretry =>
      if hasDest then ⟨[], [.attempt, .error, .errorTime]⟩
      else ⟨[.attempt, .error, .errorTime, .removeTime], []⟩
  | .jremove =>
      if hasDest then ⟨[], [.error, .errorTime]⟩ else ⟨[.error, .errorTime, .removeTime], []⟩
  | .jfail =>
      if hasDest then ⟨[], [.error, .errorTime, .prstatus]⟩
      else ⟨[.error, .errorTime, .prstatus], []⟩
  | .jabort | .jtimeout | .other _ =>
      if hasDest then ⟨[.priorityTime], [.error, .errorTime]⟩
      else ⟨[.priorityTime, .error, .errorTime, .removeTime], []⟩

/-- The count of a failed attempt. -/
def attemptTouch (hasDest : Bool) : Touch :=
  if hasDest then ⟨[], [.attempt]⟩ else ⟨[.attempt], []⟩

namespace Server

variable {config : Config} {moment : Moment} {hasDest : Bool} {touch : Touch} {s s' : Server}

theorem noteError_outside {text : Bytes} {l : Fields} {key : Key} {keys : List Key}
    (outside : key ∉ keys) (error : Key.error ∈ keys) (time : Key.errorTime ∈ keys) :
    l.noteError text moment key = l key :=
  Fields.noteError_of_ne (ne_of_outside outside error) (ne_of_outside outside time)

theorem holdJob_frame (ended : s' ∈ s.holdJob moment hasDest) :
    Frame (Status.jhold.touches hasDest) hasDest s s' := by
  cases hasDest with
  | true =>
      refine (frame_put (fun key outside => ?_) (by simp)).trans (setJobTicketFile_frame ended)
      exact Fields.setFlagValue_of_ne (ne_of_outside outside (by decide)) _
  | false =>
      exact ((frame_setFlag (by decide) _).trans (frame_setFlag (by decide) 0)).trans
        (setJobTicketFile_frame ended)

theorem doneJob_frame (member : Key.removeTime ∈ touch.stamped.info)
    (ended : s' ∈ s.doneJob config moment) : Frame touch hasDest s s' := by
  rw [doneJob] at ended
  split at ended
  · exact Option.some.inj ended ▸ Frame.refl s
  · obtain ⟨s₁, wrote, rfl⟩ := Option.map_eq_some_iff.mp ended
    exact ((frame_setFlag member _).trans (setJobTicketFile_frame wrote)).trans saveOrRemove_frame

theorem endInError_frame (member : Key.removeTime ∈ touch.stamped.info)
    (ended : s' ∈ s.endInError config moment) : Frame touch hasDest s s' := by
  obtain ⟨s₁, wrote, rfl⟩ := Option.map_eq_some_iff.mp ended
  refine ((frame_setInfo fun key outside => ?_).trans (setJobTicketFile_frame wrote)).trans
    saveOrRemove_frame
  exact Fields.setNzFlagValue_of_ne (ne_of_outside outside member) _

theorem countCopy_of_ne {copies : Int} {l : Fields} {key : Key} (notCopy : key ≠ .copyDone)
    (notDone : key ≠ .doneTime) : (l.countCopy copies moment).1 key = l key := by
  rw [Fields.countCopy]
  split <;> simp [notCopy, notDone]

theorem finishDestination_of_ne {l : Fields} {key : Key} (notCopy : key ≠ .copyDone)
    (notDone : key ≠ .doneTime) : (finishDestination moment l).1 key = l key := by
  rw [finishDestination]
  split
  · simp [notDone]
  · exact countCopy_of_ne notCopy notDone

theorem succeedDestination_frame {destinations : Int}
    (ended : s' ∈ s.succeedDestination config moment destinations) :
    Frame (Status.jsucc.touches true) true s s' := by
  have counted : Frame (Status.jsucc.touches true) true s (s.mapJob fun job =>
      ((job.setInfo fun info =>
        info.setFlagValue .sequence (info.findFlagValue .sequence + 1)).setDestination
          fun _ => (finishDestination moment s.job.destination).1).updateDestination) := by
    have counted : Frame (Status.jsucc.touches true) true s (s.mapJob (·.setInfo fun info =>
        info.setFlagValue .sequence (info.findFlagValue .sequence + 1))) :=
      frame_setInfo fun _ outside =>
        Fields.setFlagValue_of_ne (ne_of_outside outside (by decide)) _
    refine counted.trans (frame_put (fun key outside => ?_) ?_)
    · exact finishDestination_of_ne (ne_of_outside outside (by decide))
        (ne_of_outside outside (by decide))
    · exact finishDestination_of_ne (by decide) (by decide)
  simp only [succeedDestination] at ended
  split at ended
  · exact (counted.trans (frame_setFlag (by decide) _)).trans (doneJob_frame (by decide) ended)
  · exact counted.trans (setJobTicketFile_frame ended)

theorem succeedJob_frame (ended : s' ∈ s.succeedJob config moment) :
    Frame (Status.jsucc.touches false) false s s' := by
  simp only [succeedJob] at ended
  split at ended
  · exact (frame_setFlag (by decide) _).trans (doneJob_frame (by decide) ended)
  · have counted : Frame (Status.jsucc.touches false) false s (s.mapJob (·.setInfo fun _ =>
        (s.job.info.countCopy (s.job.info.findFlagValue .copies) moment).1)) :=
      frame_setInfo fun _ outside => countCopy_of_ne (ne_of_outside outside (by decide))
        (ne_of_outside outside (by decide))
    split at ended
    · exact counted.trans (doneJob_frame (by decide) ended)
    · exact counted.trans (setJobTicketFile_frame ended)

theorem failNoRetry_frame (ended : s' ∈ s.failNoRetry config moment hasDest) :
    Frame (Status.jfailnoretry.touches hasDest) hasDest s s' := by
  cases hasDest with
  | true =>
      refine (frame_put (fun key outside => ?_) (by simp)).trans (setJobTicketFile_frame ended)
      rw [Fields.setFlagValue_of_ne (ne_of_outside outside (by decide)),
        noteError_outside outside (by decide) (by decide)]
  | false =>
      refine (frame_setInfo fun key outside => ?_).trans (endInError_frame (by decide) ended)
      rw [noteError_outside outside (by decide) (by decide),
        Fields.countAttempt_of_ne (ne_of_outside outside (by decide))]

theorem removeFailedJob_frame (ended : s' ∈ s.removeFailedJob config moment hasDest) :
    Frame (Status.jremove.touches hasDest) hasDest s s' := by
  cases hasDest with
  | true =>
      refine (frame_put (fun key outside => ?_) (by simp)).trans (setJobTicketFile_frame ended)
      exact noteError_outside outside (by decide) (by decide)
  | false =>
      refine (frame_setInfo fun key outside => ?_).trans (endInError_frame (by decide) ended)
      exact noteError_outside outside (by decide) (by decide)

theorem abortJob_frame (ended : s' ∈ s.abortJob config moment hasDest) :
    Frame (Status.jabort.touches hasDest) hasDest s s' := by
  have lowered : Frame (Status.jabort.touches hasDest) hasDest s
      (s.mapJob (·.setInfo (·.setFlagValue .priorityTime 0))) := by
    cases hasDest <;> exact frame_setFlag (by decide) 0
  cases hasDest with
  | true =>
      obtain rfl := Option.some.inj ended
      refine (lowered.trans (frame_put (fun key outside => ?_) (by simp))).trans stopOnAbort_frame
      exact noteError_outside outside (by decide) (by decide)
  | false =>
      obtain ⟨s₁, wrote, rfl⟩ := Option.map_eq_some_iff.mp ended
      refine ((lowered.trans (frame_setInfo fun key outside => ?_)).trans
        (endInError_frame (by decide) wrote)).trans stopOnAbort_frame
      exact noteError_outside outside (by decide) (by decide)

theorem countFailure_frame (ended : s' ∈ s.countFailure moment hasDest) :
    Frame (attemptTouch hasDest) hasDest s s' := by
  cases hasDest with
  | true =>
      refine (frame_put (fun key outside => ?_) (by simp)).trans (setJobTicketFile_frame ended)
      exact Fields.countAttempt_of_ne (ne_of_outside outside (by decide))
  | false => exact (frame_setFlag (by decide) _).trans (setJobTicketFile_frame ended)

theorem clearError_outside {l : Fields} {key : Key} {keys : List Key} (outside : key ∉ keys)
    (error : Key.error ∈ keys) (time : Key.errorTime ∈ keys) (status : Key.prstatus ∈ keys) :
    l.clearError key = l key := by
  rw [Fields.clearError, Fields.setStrValue_of_ne (ne_of_outside outside status),
    Fields.setFlagValue_of_ne (ne_of_outside outside time),
    Fields.setStrValue_of_ne (ne_of_outside outside error)]

theorem retryJob_frame (ended : s' ∈ s.retryJob moment hasDest) :
    Frame (Status.jfail.touches hasDest) hasDest s s' := by
  cases hasDest with
  | true =>
      refine (frame_setDestination (fun key outside => ?_) (by simp [Fields.clearError])).trans
        (setJobTicketFile_frame ended)
      exact clearError_outside outside (by decide) (by decide) (by decide)
  | false =>
      refine (frame_setInfo fun key outside => ?_).trans (setJobTicketFile_frame ended)
      exact clearError_outside outside (by decide) (by decide) (by decide)

theorem settle_frame {destinations : Int} {status : Status} (settles : status ≠ .jfail)
    (ended : s' ∈ s.settle config moment destinations hasDest status) :
    Frame (status.touches hasDest) hasDest s s' := by
  cases status with
  | jfail => exact absurd rfl settles
  | jhold => exact holdJob_frame ended
  | jfailnoretry => exact failNoRetry_frame ended
  | jremove => exact removeFailedJob_frame ended
  | jsucc =>
      cases hasDest with
      | false => exact succeedJob_frame ended
      | true => exact succeedDestination_frame ended
  | jabort | jtimeout | other => exact abortJob_frame ended

theorem resumeFailed_frame {destinations : Int} {status : Status}
    (ended : s' ∈ s.resumeFailed config moment destinations hasDest status) :
    Frame (status.touches hasDest) hasDest s s' := by
  rw [resumeFailed] at ended
  split at ended
  · next retries => exact retries ▸ retryJob_frame ended
  · next settles => exact settle_frame settles ended

theorem failJob_frame {destinations : Int}
    (ended : s' ∈ s.failJob config moment destinations hasDest) :
    Frame ((attemptTouch hasDest).append ((failureStatus config moment
      (if hasDest then s.job.destination else s.job.info).nextAttempt).touches hasDest))
      hasDest s s' := by
  obtain ⟨s₁, counted, resumed⟩ := Option.bind_eq_some_iff.mp ended
  exact ((countFailure_frame counted).mono (List.subset_append_left ..)
    (List.subset_append_left ..)).trans ((resumeFailed_frame resumed).mono
      (List.subset_append_right ..) (List.subset_append_right ..))

end Server

/-! ## `Update_status` -/

/-- The list of the destination a routed job is at, and the field it goes back to. -/
def Job.currentHand (job : Job) : Option (Bytes × Fields) :=
  job.currentDestination.map fun l => (destName (l.findFlagValue .destination), l)

/-- The fields `Update_status` is there to set, for the given status. -/
def outcomeTouch (config : Config) (moment : Moment) (status : Status) (job : Job) : Touch :=
  let hasDest := job.currentDestination.isSome
  if status = .jfail ∨ status = .jtimeout then
    (attemptTouch hasDest).append ((failureStatus config moment
      (job.currentDestination.getD job.info).nextAttempt).touches hasDest)
  else status.touches hasDest

namespace Server

variable {config : Config} {moment : Moment} {s s' : Server}

theorem openJob_dests (job : Job) : (openJob job).1.dests = job.dests := by
  simp only [openJob]
  split
  · rfl
  · split <;> exact Job.getDestinationByName_dests _ _

/-- What `Update_status` starts from: the mark cleared, the current destination unpacked. -/
theorem openJob_agrees (touch : Touch) (s : Server) :
    s.job.toTicket.AgreesOutside touch s.job.currentHand (openJob s.job).1.toTicket ∧
      ∀ name l', (s.mapJob fun _ => (openJob s.job).1).hand (openJob s.job).2 = some (name, l') →
        ∃ l, s.job.currentHand = some (name, l) ∧
          ∀ key ∉ touch.stamped.dest, l' key = l key := by
  have agrees (info : (openJob s.job).1.info = s.job.info.setDecimalValue .server 0) :
      s.job.toTicket.AgreesOutside touch s.job.currentHand (openJob s.job).1.toTicket := by
    refine ⟨fun key outside => ?_, fun name => Or.inl (by rw [openJob_dests])⟩
    rw [info]
    exact Fields.setDecimalValue_of_ne (ne_of_outside outside (by simp [Touch.stamped])) _
  cases routed : s.job.currentDestination with
  | none =>
      obtain ⟨unrouted, info⟩ := openJob_none routed
      refine ⟨agrees info, fun name l' held => ?_⟩
      rw [hand, unrouted] at held
      cases held
  | some destination =>
      have opened := openJob_some routed
      refine ⟨agrees (by rw [opened]; rfl), fun name l' held => ?_⟩
      rw [hand, mapJob_job, opened] at held
      obtain ⟨rfl, rfl⟩ := Prod.mk.inj (Option.some.inj held)
      refine ⟨destination, ?_, fun key outside =>
        Fields.setDecimalValue_of_ne (ne_of_outside outside (by simp [Touch.stamped])) _⟩
      rw [Job.currentHand, routed, Job.setDestination_destination,
        Fields.findFlagValue_setDecimalValue_of_ne (by decide)]
      rfl

theorem outcomeTouch_opened (status : Status) :
    outcomeTouch config moment status s.job =
      if status = .jfail ∨ status = .jtimeout then
        (attemptTouch (openJob s.job).2).append ((failureStatus config moment
          (if (openJob s.job).2 then (openJob s.job).1.destination
            else (openJob s.job).1.info).nextAttempt).touches (openJob s.job).2)
      else status.touches (openJob s.job).2 := by
  have attempt : ∀ l : Fields, (l.setDecimalValue .server 0).nextAttempt = l.nextAttempt :=
    fun l => congrArg (· + 1) (Fields.findFlagValue_setDecimalValue_of_ne (by decide) _)
  cases routed : s.job.currentDestination with
  | none =>
      obtain ⟨unrouted, info⟩ := openJob_none routed
      simp [outcomeTouch, routed, unrouted, info, attempt]
  | some destination => simp [outcomeTouch, routed, openJob_some routed, attempt]

/-- The fields an outcome can have to do with. -/
def outcomeKeys : List Key :=
  [.server, .updateTime, .openname, .holdTime, .priorityTime, .sequence, .copyDone, .doneTime,
    .removeTime, .attempt, .error, .errorTime, .prstatus]

theorem outcomeTouch_outside (config : Config) (moment : Moment) (status : Status) (job : Job)
    {key : Key} (outside : key ∉ outcomeKeys) :
    key ∉ (outcomeTouch config moment status job).stamped.info ∧
      key ∉ (outcomeTouch config moment status job).stamped.dest := by
  simp only [outcomeKeys, List.mem_cons, not_or] at outside
  have settled : ∀ hasDest status', key ∉ (Status.touches hasDest status').info ∧
      key ∉ (Status.touches hasDest status').dest := by
    intro hasDest status'
    cases hasDest <;> cases status' <;> simp [Status.touches, outside]
  have counted : ∀ hasDest, key ∉ (attemptTouch hasDest).info ∧
      key ∉ (attemptTouch hasDest).dest := by
    intro hasDest
    cases hasDest <;> simp [attemptTouch, outside]
  have touched : key ∉ (outcomeTouch config moment status job).info ∧
      key ∉ (outcomeTouch config moment status job).dest := by
    rw [outcomeTouch]
    split
    · exact ⟨fun member => (List.mem_append.mp member).elim (counted _).1 (settled _ _).1,
        fun member => (List.mem_append.mp member).elim (counted _).2 (settled _ _).2⟩
    · exact settled _ _
  simp [Touch.stamped, outside, touched]

/-- `Update_status` leaves alone what its case is not there to set. -/
theorem updateStatus_frame {status : Status} (ended : s' ∈ s.updateStatus config moment status) :
    ∀ t, s'.ticket = some t → s.ticket = some t ∨
      s.job.toTicket.AgreesOutside (outcomeTouch config moment status s.job)
        s.job.currentHand t := by
  by_cases identified : s.job.info .identifier = none
  · obtain rfl := Option.some.inj ((if_pos identified).symm.trans ended)
    exact fun _ present => Or.inl present
  · obtain ⟨opened, hands⟩ := openJob_agrees (outcomeTouch config moment status s.job) s
    have settled : Frame (outcomeTouch config moment status s.job) (openJob s.job).2
        (s.mapJob fun _ => (openJob s.job).1) s' := by
      rw [outcomeTouch_opened]
      rw [updateStatus_eq config moment identified] at ended
      by_cases fails : status = .jfail ∨ status = .jtimeout
      · rw [if_pos fails] at ended ⊢
        have frame := failJob_frame ended
        rw [mapJob_job] at frame
        exact frame
      · rw [if_neg fails] at ended ⊢
        exact settle_frame (fun retries => fails (Or.inl retries)) ended
    intro t present
    exact (settled.ticket t present).imp_right fun written => opened.trans written hands

end Server

end LPRng
