import LPRng.LpcJob
import LPRng.PermissionTests

/-!
# The jobs an lpc command selects

`Do_job_ticket_file` goes over the jobs of a queue in their order. A job, or else each of
its destinations, is compared with the words of the command by `Patselect`, and the tickets
of the jobs selected are changed and written. Without a word the first job is taken.
-/

namespace LPRng

open Permission (globPattern)

/-! ## Selection -/

/-- Whether a word selects a job or a destination: it is `all`, the job number, or a pattern
for the name of the user or for the identifier. -/
def wordSelects (behind : Bytes) (cf : Fields) (key : Bytes) : Bool :=
  strcasecmp key (lit "all") = .eq ||
    if (strtol 10 key).2 = [] then toInt32 (strtol 10 key).1 = cf.findDecimalValue .number
    else [Key.logname, .identifier].any fun field =>
      match cf.findStrValue field with
      | some s => !globPattern behind key s
      | none => false

/-- `Patselect`, which answers 0 if there is a match. -/
def patselect (behind : Bytes) (token : List Bytes) (cf : Fields) (starting : Nat) : Bool :=
  (token.drop starting).all (!wordSelects behind cf ·)

/-! ## The command -/

/-- What a command takes from outside the queue: what stands in memory behind a text that is
compared with a pattern, and whether the permissions reject the command for a job of a
user from a host. -/
structure LpcEnv where
  behind : Bytes
  rejects : Option Bytes → Option Bytes → Bool

/-- `Set_job_ticket_file`: the job in memory behind the write. -/
def Job.setJobTicketFile (moment : Moment) (job : Job) : Option Job :=
  let job := job.setInfo (·.setStrValue .updateTime moment.timeStr)
  if job.info.findStrValue .hfName = none then none else some job

/-- One selection of a job or a destination, with the write of the ticket. -/
def JobAction.command (action : JobAction) (moment : Moment) (selected : Option Nat) (job : Job) :
    Option Job :=
  (action.apply moment.now selected job).setJobTicketFile moment

/-- The write of a ticket the server is at has the same effect on the job. -/
theorem Server.setJobTicketFile_job (moment : Moment) (s : Server) :
    (s.setJobTicketFile moment).map (·.job) = s.job.setJobTicketFile moment := by
  unfold Server.setJobTicketFile Job.setJobTicketFile
  dsimp only
  split_ifs <;> rfl

section Command

variable (env : LpcEnv) (tokens : List Bytes) (action : JobAction)

/-- The loop over the destinations `ns` of a job that is not selected itself. The second
component says whether the ticket was written. The jump back to `next_dest` compares the job
itself again, which has the same result, see `patselect_commanded`. -/
def commandDestinations (clock : Option Nat → Moment) : List Nat → Job → Option (Job × Bool)
  | [], job => some (job, false)
  | n :: ns, job =>
      let job := (job.getDestination n).1
      if patselect env.behind tokens job.destination 3 then commandDestinations clock ns job
      else do
        let job ← action.command (clock (some n)) (some n) job
        let (job, _) ← commandDestinations clock ns job
        some (job, true)

/-- The number of destinations of a job. -/
def Ticket.destinationCount (ticket : Ticket) : Nat :=
  (ticket.info.findFlagValue .destinations).toNat

/-- Whether a job is passed over: it is still coming in, has no name, or the command is not
permitted for it. -/
def Ticket.passedOver (ticket : Ticket) : Bool :=
  ticket.info.findFlagValue .incomingTime ≠ 0 || ticket.info.jobIdentifier = none ||
    env.rejects (ticket.info.findStrValue .logname) (ticket.info.findStrValue .fromhost)

/-- One turn of the loop over the jobs: the ticket behind it, and whether the loop ends. -/
def commandTicket (clock : Option Nat → Moment) (ticket : Ticket) : Option (Ticket × Bool) :=
  if ticket.passedOver env then some (ticket, false)
  else if tokens.length > 4 then
    if patselect env.behind tokens ticket.info 4 then do
      let (job, wrote) ← commandDestinations env tokens action clock
        (List.range ticket.destinationCount) ticket.toJob
      some (if wrote then job.ticketImage else ticket, false)
    else do
      let job ← action.command (clock none) none ticket.toJob
      some (job.ticketImage, false)
  else do
    let job ← action.command (clock none) none ticket.toJob
    some (job.ticketImage, true)

/-- `Do_job_ticket_file`. -/
def LpcEnv.doJobTicketFile (clock : Nat → Option Nat → Moment) : List Ticket → Option (List Ticket)
  | [] => some []
  | ticket :: queue => do
      let (ticket, status) ← commandTicket env tokens action (clock queue.length) ticket
      if status then some (ticket :: queue)
      else (doJobTicketFile clock queue).map (ticket :: ·)

end Command

/-! ## What a command is to do -/

/-- A command line: where the request was sent, the user, the command, the printer, and the
words that select jobs. -/
structure CommandLine where
  queue : Bytes
  user : Bytes
  operation : Bytes
  printer : Bytes
  selectors : List Bytes

def CommandLine.tokens (line : CommandLine) : List Bytes :=
  line.queue :: line.user :: line.operation :: line.printer :: line.selectors

/-- A ticket as the spooler makes it: it has the name of its file, and each of its
destinations has a list with the number of the destination. -/
structure QueueTicket extends Ticket where
  named : info .hfName ≠ none
  routed : ∀ n < toTicket.destinationCount, ∃ l, dests (destName n) = some l ∧
    l.findFlagValue .destination = n

/-- The fields of a job behind one selection. -/
def JobAction.info (action : JobAction) (now : Time) (info : Fields) : Fields :=
  ((action.onInfo now info).setStrValue .error none).setFlagValue .errorTime 0

/-- The fields of a job behind a command, besides those that every write changes. -/
def JobAction.Commanded (action : JobAction) (before after : Fields) : Prop :=
  ∃ now : Time, ∀ key, key ≠ .updateTime → key ≠ .openname → after key = action.info now before key

section Obeys

variable (behind : Bytes) (selectors : List Bytes)

/-- Whether a word selects the list of a job or a destination. -/
def selects (cf : Fields) : Bool := selectors.any (wordSelects behind cf)

/-- Whether a word selects destination `n`. -/
def selectsDestination (ticket : Ticket) (n : Nat) : Bool :=
  (ticket.dests (destName n)).any (selects behind selectors)

/-- What becomes of the ticket of a job the command is permitted for: a job that is selected is
changed, and its destinations are not. Else the destinations that are selected are changed,
and the job with them. -/
structure Obeys (action : JobAction) (before after : Ticket) : Prop where
  job : selects behind selectors before.info = true →
    action.Commanded before.info after.info ∧ after.dests = before.dests
  destination : selects behind selectors before.info = false → ∀ n < before.destinationCount,
    selectsDestination behind selectors before n = true →
      action.Commanded before.info after.info ∧ ∃ l now, before.dests (destName n) = some l ∧
        after.dests (destName n) = some (action.onDestination now l)
  other : ∀ name, (selects behind selectors before.info = false → ∀ n < before.destinationCount,
    selectsDestination behind selectors before n = true → name ≠ destName n) →
      after.dests name = before.dests name
  untouched : selects behind selectors before.info = false →
    (∀ n < before.destinationCount, selectsDestination behind selectors before n = false) →
      after = before

end Obeys

/-! ## One selection -/

namespace JobAction

variable {action : JobAction} {now : Time} {job : Job} {key : Key}

theorem apply_info (now : Time) (selected : Option Nat) (job : Job) :
    (action.apply now selected job).info = action.info now job.info := by
  cases selected with
  | none => rfl
  | some n => simp [apply, info]

theorem info_of_not_mem (untouched : key ∉ action.sets) (now : Time) (l : Fields) :
    action.info now l key = l key := by
  have same := apply_info_of_not_mem now none ⟨⟨l, fun _ => none, []⟩, .empty⟩ untouched
  rwa [apply_info] at same

/-- What a command sets does not depend on what was there. -/
theorem info_of_mem (now : Time) (l m : Fields) :
    ∀ key ∈ action.sets, action.info now l key = action.info now m key := by
  cases action <;> simp [sets, info, onInfo]

theorem apply_dests_routed {n : Nat} {l : Fields} (list : job.dests (destName n) = some l)
    (number : l.findFlagValue .destination = n) (now : Time) :
    (action.apply now (some n) job).dests =
      Function.update job.dests (destName n) (some (action.onDestination now l)) := by
  have kept : (action.onDestination now l).findFlagValue .destination = n := by
    rw [Fields.findFlagValue_congr (onDestination_of_ne (by decide) (by decide) (by decide) (by decide)),
      number]
  have loaded : (job.getDestination n).1.destination = l := by
    rw [Job.getDestination, list]
  simp only [apply, Job.setInfo_dests, Job.updateDestination, Job.setDestination_dests,
    Job.setDestination_destination, Job.setInfo_destination, Job.getDestination_dests, loaded, kept]

theorem Commanded.trans {a b c : Fields} (first : action.Commanded a b)
    (second : action.Commanded b c) : action.Commanded a c := by
  obtain ⟨_, before⟩ := first
  obtain ⟨now, after⟩ := second
  refine ⟨now, fun key noTime noName => (after key noTime noName).trans ?_⟩
  by_cases set : key ∈ action.sets
  · exact info_of_mem now b a key set
  · rw [info_of_not_mem set, info_of_not_mem set, before key noTime noName, info_of_not_mem set]

theorem not_mem_sets (kept : key ∈ [Key.hfName, .logname, .identifier, .number, .destinations]) :
    key ∉ action.sets := by
  simp only [List.mem_cons, List.not_mem_nil, or_false] at kept
  rcases kept with rfl | rfl | rfl | rfl | rfl <;> cases action <;> simp [sets]

/-- A command is written, as the ticket has the name of its file. -/
theorem command_spec (action : JobAction) (moment : Moment) (selected : Option Nat)
    (named : job.info .hfName ≠ none) :
    ∃ job', action.command moment selected job = some job' ∧
      action.Commanded job.info job'.info ∧ job'.info .hfName ≠ none ∧
      job'.dests = (action.apply moment.now selected job).dests := by
  have name : (action.info moment.now job.info) .hfName ≠ none := by
    rwa [info_of_not_mem (not_mem_sets (by decide))]
  refine ⟨(action.apply moment.now selected job).setInfo
    (·.setStrValue .updateTime moment.timeStr), ?_, ⟨moment.now, fun key noTime _ => ?_⟩, ?_, rfl⟩
  · unfold command Job.setJobTicketFile
    rw [if_neg]
    rw [Job.setInfo_info, apply_info]
    simpa using name
  · rw [Job.setInfo_info, Fields.setStrValue_of_ne noTime, apply_info]
  · rw [Job.setInfo_info, apply_info]
    simpa using name

end JobAction

/-! ## Words and lists -/

section Selection

variable {behind : Bytes} {cf cf' : Fields}

theorem wordSelects_congr (same : ∀ key ∈ [Key.logname, .identifier, .number], cf key = cf' key)
    (word : Bytes) : wordSelects behind cf word = wordSelects behind cf' word := by
  have number : cf.findDecimalValue .number = cf'.findDecimalValue .number := by
    unfold Fields.findDecimalValue Fields.findStrValue
    rw [same .number (by simp)]
  unfold wordSelects Fields.findStrValue
  rw [number]
  simp only [List.any_cons, List.any_nil]
  rw [same .logname (by simp), same .identifier (by simp)]

/-- A command does not change what selects the job. -/
theorem wordSelects_commanded {action : JobAction} (commanded : action.Commanded cf cf')
    (word : Bytes) : wordSelects behind cf' word = wordSelects behind cf word := by
  obtain ⟨now, after⟩ := commanded
  refine wordSelects_congr (fun key member => ?_) word
  have kept : key ∈ [Key.hfName, .logname, .identifier, .number, .destinations] := by
    simp only [List.mem_cons, List.not_mem_nil, or_false] at member
    rcases member with rfl | rfl | rfl <;> simp
  have plain : key ≠ .updateTime ∧ key ≠ .openname := by
    simp only [List.mem_cons, List.not_mem_nil, or_false] at member
    rcases member with rfl | rfl | rfl <;> simp
  rw [after key plain.1 plain.2, JobAction.info_of_not_mem (JobAction.not_mem_sets kept)]

theorem patselect_commanded {action : JobAction} (commanded : action.Commanded cf cf')
    (tokens : List Bytes) (starting : Nat) :
    patselect behind tokens cf' starting = patselect behind tokens cf starting := by
  unfold patselect
  simp only [wordSelects_commanded commanded]

theorem patselect_job (line : CommandLine) (cf : Fields) :
    patselect behind line.tokens cf 4 = !selects behind line.selectors cf := by
  change line.selectors.all _ = _
  rw [selects, List.all_eq_not_any_not]
  simp only [Bool.not_not]

/-- For a destination the name of the printer is compared too. -/
theorem patselect_destination (line : CommandLine) (cf : Fields) :
    patselect behind line.tokens cf 3 =
      !(wordSelects behind cf line.printer || selects behind line.selectors cf) := by
  change (line.printer :: line.selectors).all _ = _
  rw [List.all_cons, selects, List.all_eq_not_any_not]
  simp only [Bool.not_not, Bool.not_or]

end Selection

/-! ## The destinations of a job -/

section Destinations

variable (env : LpcEnv) (line : CommandLine) (action : JobAction) (clock : Option Nat → Moment)

/-- What the loop over destinations `ns` does, if their lists are in order and the name of the
printer selects none of them. -/
theorem commandDestinations_spec {ns : List Nat} (nodup : ns.Nodup) {job : Job}
    (named : job.info .hfName ≠ none)
    (routed : ∀ n ∈ ns, ∃ l, job.dests (destName n) = some l ∧ l.findFlagValue .destination = n ∧
      wordSelects env.behind l line.printer = false) :
    ∃ job' wrote, commandDestinations env line.tokens action clock ns job = some (job', wrote) ∧
      wrote = ns.any (selectsDestination env.behind line.selectors job.toTicket) ∧
      (wrote = true → action.Commanded job.info job'.info) ∧
      (wrote = false → job'.info = job.info) ∧
      (∀ n ∈ ns, selectsDestination env.behind line.selectors job.toTicket n = true →
        ∃ l now, job.dests (destName n) = some l ∧
          job'.dests (destName n) = some (action.onDestination now l)) ∧
      (∀ name, (∀ n ∈ ns, selectsDestination env.behind line.selectors job.toTicket n = true →
        name ≠ destName n) → job'.dests name = job.dests name) := by
  induction ns generalizing job with
  | nil =>
      refine ⟨job, false, rfl, rfl, fun wrote => ?_, fun _ => rfl, fun n member => ?_, fun _ _ => rfl⟩
      · cases wrote
      · cases member
  | cons n ns ih =>
      obtain ⟨fresh, nodup⟩ := List.nodup_cons.mp nodup
      obtain ⟨l, list, number, quiet⟩ := routed n List.mem_cons_self
      have loaded : (job.getDestination n).1 = { job with destination := l } := by
        rw [Job.getDestination, list]
      have selected : selectsDestination env.behind line.selectors job.toTicket n =
          selects env.behind line.selectors l := by
        rw [selectsDestination, list]
        rfl
      rw [commandDestinations, loaded]
      dsimp only
      rw [patselect_destination, quiet, Bool.false_or, List.any_cons, selected]
      cases chosen : selects env.behind line.selectors l with
      | false =>
          have kept : Ticket.info { job with destination := l }.toTicket .hfName ≠ none := named
          obtain ⟨job', wrote, ran, any, commanded, still, changed, others⟩ :=
            ih nodup kept fun k member => routed k (List.mem_cons_of_mem n member)
          refine ⟨job', wrote, ran, any, commanded, still, fun k member hit => ?_, fun name apart => ?_⟩
          · rcases List.mem_cons.mp member with rfl | member
            · cases (selected.trans chosen).symm.trans hit
            · exact changed k member hit
          · exact others name fun k member hit => apart k (List.mem_cons_of_mem n member) hit
      | true =>
          have kept : Ticket.info { job with destination := l }.toTicket .hfName ≠ none := named
          obtain ⟨job₁, written, first, named₁, dests⟩ :=
            JobAction.command_spec action (clock (some n)) (some n) kept
          have list' : Ticket.dests { job with destination := l }.toTicket (destName n) = some l := list
          rw [JobAction.apply_dests_routed list' number] at dests
          have apart : ∀ k ∈ ns, job₁.dests (destName k) = job.dests (destName k) := by
            intro k member
            have differ : destName k ≠ destName n := by
              intro same
              have equal : k = n := destName_injective same
              exact fresh (equal ▸ member)
            rw [dests]
            exact Function.update_of_ne differ _ _
          have same : ∀ k ∈ ns, selectsDestination env.behind line.selectors job₁.toTicket k =
              selectsDestination env.behind line.selectors job.toTicket k := by
            intro k member
            rw [selectsDestination, apart k member]
            rfl
          have routed₁ : ∀ k ∈ ns, ∃ l, job₁.dests (destName k) = some l ∧
              l.findFlagValue .destination = k ∧ wordSelects env.behind l line.printer = false := by
            intro k member
            obtain ⟨m, found⟩ := routed k (List.mem_cons_of_mem n member)
            exact ⟨m, (apart k member).trans found.1, found.2⟩
          obtain ⟨job', wrote, ran, any, commanded, still, changed, others⟩ :=
            ih nodup named₁ routed₁
          refine ⟨job', true, ?_, rfl, fun _ => ?_, fun unwritten => (Bool.noConfusion unwritten), fun k member hit => ?_, fun name differ => ?_⟩
          · simp only [Bool.not_true, Bool.false_eq_true, if_false, written, ran, Option.bind_eq_bind,
              Option.bind_some]
          · cases wrote with
            | true => exact first.trans (commanded rfl)
            | false => exact (still rfl) ▸ first
          · rcases List.mem_cons.mp member with rfl | member
            · refine ⟨l, (clock (some k)).now, list, ?_⟩
              rw [others (destName k) fun m inside _ equal => ?_, dests]
              · exact Function.update_self _ _ _
              · have equal : k = m := destName_injective equal
                exact fresh (equal ▸ inside)
            · obtain ⟨m, now, found, set⟩ := changed k member ((same k member).trans hit)
              exact ⟨m, now, (apart k member).symm.trans found, set⟩
          · rw [others name fun k member hit => differ k (List.mem_cons_of_mem n member)
              ((same k member).symm.trans hit), dests]
            exact Function.update_of_ne (differ n List.mem_cons_self (selected.trans chosen)) _ _

end Destinations

/-! ## The jobs of the queue -/

section Queue

variable {env : LpcEnv} {line : CommandLine} {action : JobAction} {clock : Option Nat → Moment}

/-- The name of the printer selects no destination of the job. -/
def Ticket.Quiet (behind printer : Bytes) (ticket : Ticket) : Prop :=
  ∀ n < ticket.destinationCount, ∀ l, ticket.dests (destName n) = some l →
    wordSelects behind l printer = false

theorem length_tokens (line : CommandLine) : line.tokens.length = line.selectors.length + 4 := rfl

theorem commandTicket_passedOver {tokens : List Bytes} {ticket : Ticket}
    (passed : ticket.passedOver env = true) :
    commandTicket env tokens action clock ticket = some (ticket, false) := if_pos passed

/-- The ticket that is written has the fields and the lists of the job in memory. -/
theorem commanded_ticketImage {info : Fields} {job : Job} (commanded : action.Commanded info job.info) :
    action.Commanded info job.ticketImage.info := by
  obtain ⟨now, after⟩ := commanded
  refine ⟨now, fun key noTime noName => ?_⟩
  exact (Function.update_of_ne noName _ _).trans (after key noTime noName)

theorem commandTicket_obeys (clock : Option Nat → Moment) (words : line.selectors ≠ [])
    (ticket : QueueTicket)
    (permitted : ticket.passedOver env = false)
    (quiet : ticket.toTicket.Quiet env.behind line.printer) :
    ∃ after, commandTicket env line.tokens action clock ticket.toTicket = some (after, false) ∧
      Obeys env.behind line.selectors action ticket.toTicket after := by
  have many : line.tokens.length > 4 := by
    rw [length_tokens]
    have some_word := List.length_pos_iff.mpr words
    omega
  have named : ticket.toTicket.toJob.info .hfName ≠ none := ticket.named
  unfold commandTicket
  rw [permitted, if_neg Bool.false_ne_true, if_pos many, patselect_job]
  cases chosen : selects env.behind line.selectors ticket.info with
  | true =>
      obtain ⟨job, written, commanded, -, dests⟩ :=
        JobAction.command_spec action (clock none) none named
      refine ⟨job.ticketImage, ?_, fun _ => ⟨commanded_ticketImage commanded, dests⟩, ?_, ?_, ?_⟩
      · simp only [Bool.not_true, Bool.false_eq_true, if_false, written, Option.bind_eq_bind,
          Option.bind_some]
      · exact fun other => nomatch chosen.symm.trans other
      · exact fun name _ => congrFun dests name
      · exact fun other => nomatch chosen.symm.trans other
  | false =>
      have routed : ∀ n ∈ List.range ticket.destinationCount, ∃ l,
          ticket.toTicket.toJob.dests (destName n) = some l ∧ l.findFlagValue .destination = n ∧
            wordSelects env.behind l line.printer = false := by
        intro n member
        obtain ⟨l, list, number⟩ := ticket.routed n (List.mem_range.mp member)
        exact ⟨l, list, number, quiet n (List.mem_range.mp member) l list⟩
      obtain ⟨job, wrote, ran, any, commanded, -, changed, others⟩ :=
        commandDestinations_spec env line action clock List.nodup_range
          named routed
      refine ⟨if wrote then job.ticketImage else ticket.toTicket, ?_, ?_, ?_, ?_, ?_⟩
      · simp only [Bool.not_false, if_true, ran, Option.bind_eq_bind, Option.bind_some]
      · exact fun other => nomatch chosen.symm.trans other
      · intro _ n below hit
        have written : wrote = true :=
          any.trans (List.any_eq_true.mpr ⟨n, List.mem_range.mpr below, hit⟩)
        rw [if_pos written]
        exact ⟨commanded_ticketImage (commanded written), changed n (List.mem_range.mpr below) hit⟩
      · intro name apart
        cases wrote with
        | false => rfl
        | true => exact others name fun n member hit => apart chosen n (List.mem_range.mp member) hit
      · intro _ none_selected
        have unwritten : wrote = false := by
          rw [any, List.any_eq_false]
          intro n member
          exact fun hit => nomatch (none_selected n (List.mem_range.mp member)).symm.trans hit
        rw [unwritten]
        rfl

theorem commandTicket_first (action : JobAction) (clock : Option Nat → Moment)
    (none_given : line.selectors = []) (ticket : QueueTicket)
    (permitted : ticket.passedOver env = false) :
    ∃ after, commandTicket env line.tokens action clock ticket.toTicket = some (after, true) ∧
      action.Commanded ticket.info after.info ∧ after.dests = ticket.dests := by
  have few : ¬ line.tokens.length > 4 := by
    rw [length_tokens, none_given]
    decide
  have named : ticket.toTicket.toJob.info .hfName ≠ none := ticket.named
  obtain ⟨job, written, commanded, -, dests⟩ := JobAction.command_spec action (clock none) none named
  refine ⟨job.ticketImage, ?_, commanded_ticketImage commanded, dests⟩
  unfold commandTicket
  rw [permitted, if_neg Bool.false_ne_true, if_neg few]
  simp only [written, Option.bind_eq_bind, Option.bind_some]

/-- Only the first job that is not passed over is changed. -/
structure FirstOnly (env : LpcEnv) (action : JobAction) (before after : List Ticket) : Prop where
  none_left : (∀ ticket ∈ before, ticket.passedOver env = true) → after = before
  first : ∀ front ticket back, before = front ++ ticket :: back →
    (∀ earlier ∈ front, earlier.passedOver env = true) → ticket.passedOver env = false →
      ∃ changed, after = front ++ changed :: back ∧ action.Commanded ticket.info changed.info ∧
        changed.dests = ticket.dests

theorem FirstOnly.cons {ticket : Ticket} {before after : List Ticket}
    (passed : ticket.passedOver env = true) (rest : FirstOnly env action before after) :
    FirstOnly env action (ticket :: before) (ticket :: after) := by
  refine ⟨fun all => ?_, fun front other back parts earlier permitted => ?_⟩
  · rw [rest.none_left fun other member => all other (List.mem_cons_of_mem ticket member)]
  · cases front with
    | nil =>
        cases parts
        cases passed.symm.trans permitted
    | cons head front =>
        cases parts
        obtain ⟨changed, whole, kept⟩ := rest.first front other back rfl
          (fun one member => earlier one (List.mem_cons_of_mem _ member)) permitted
        exact ⟨changed, congrArg (_ :: ·) whole, kept⟩

theorem doJobTicketFile_words {clock : Nat → Option Nat → Moment} (words : line.selectors ≠ [])
    (queue : List QueueTicket)
    (quiet : ∀ ticket ∈ queue, ticket.toTicket.Quiet env.behind line.printer) :
    ∃ after, env.doJobTicketFile line.tokens action clock (queue.map QueueTicket.toTicket) = some after ∧
      List.Forall₂ (fun before after => if before.passedOver env then after = before
        else Obeys env.behind line.selectors action before after)
        (queue.map QueueTicket.toTicket) after := by
  induction queue with
  | nil => exact ⟨[], rfl, .nil⟩
  | cons ticket queue ih =>
      obtain ⟨rest, ran, obeys⟩ := ih fun other member => quiet other (List.mem_cons_of_mem ticket member)
      rw [List.map_cons, LpcEnv.doJobTicketFile]
      cases passed : ticket.passedOver env with
      | true =>
          refine ⟨ticket.toTicket :: rest, ?_, .cons (by rw [if_pos passed]) obeys⟩
          simp only [commandTicket_passedOver passed, Option.bind_eq_bind, Option.bind_some,
            Bool.false_eq_true, if_false, ran, Option.map_some]
      | false =>
          obtain ⟨after, commanded, obeyed⟩ :=
            commandTicket_obeys (clock (queue.map QueueTicket.toTicket).length) words ticket passed
              (quiet ticket List.mem_cons_self)
          refine ⟨after :: rest, ?_, .cons (by rwa [if_neg (Bool.eq_false_iff.mp passed)]) obeys⟩
          simp only [commanded, Option.bind_eq_bind, Option.bind_some, Bool.false_eq_true, if_false, ran,
            Option.map_some]

theorem doJobTicketFile_first {clock : Nat → Option Nat → Moment} (none_given : line.selectors = [])
    (queue : List QueueTicket) :
    ∃ after, env.doJobTicketFile line.tokens action clock (queue.map QueueTicket.toTicket) = some after ∧
      FirstOnly env action (queue.map QueueTicket.toTicket) after := by
  induction queue with
  | nil =>
      refine ⟨[], rfl, fun _ => rfl, fun front ticket back parts => ?_⟩
      exact absurd parts.symm (List.append_ne_nil_of_right_ne_nil front (List.cons_ne_nil ticket back))
  | cons ticket queue ih =>
      rw [List.map_cons, LpcEnv.doJobTicketFile]
      cases passed : ticket.passedOver env with
      | true =>
          obtain ⟨rest, ran, only⟩ := ih
          refine ⟨ticket.toTicket :: rest, ?_, only.cons passed⟩
          simp only [commandTicket_passedOver passed, Option.bind_eq_bind, Option.bind_some,
            Bool.false_eq_true, if_false, ran, Option.map_some]
      | false =>
          obtain ⟨after, commanded, change⟩ :=
            commandTicket_first action (clock (queue.map QueueTicket.toTicket).length)
              none_given ticket passed
          refine ⟨after :: queue.map QueueTicket.toTicket, ?_, fun all => ?_, ?_⟩
          · simp only [commanded, Option.bind_eq_bind, Option.bind_some, if_true]
          · cases passed.symm.trans (all _ List.mem_cons_self)
          · intro front other back parts earlier _
            cases front with
            | nil =>
                obtain ⟨rfl, rfl⟩ := List.cons.inj parts
                exact ⟨after, rfl, change⟩
            | cons head front =>
                obtain ⟨rfl, -⟩ := List.cons.inj parts
                cases passed.symm.trans (earlier _ List.mem_cons_self)

/-- With words, each job that is not passed over obeys them, provided that the name of the
printer selects none of its destinations. Without words the first such job is taken. -/
theorem doJobTicketFile_obeys (env : LpcEnv) (line : CommandLine) (action : JobAction)
    (clock : Nat → Option Nat → Moment) (queue : List QueueTicket)
    (quiet : line.selectors ≠ [] → ∀ ticket ∈ queue, ticket.toTicket.Quiet env.behind line.printer) :
    ∃ after, env.doJobTicketFile line.tokens action clock (queue.map QueueTicket.toTicket) = some after ∧
      (line.selectors ≠ [] →
        List.Forall₂ (fun before after => if before.passedOver env then after = before
          else Obeys env.behind line.selectors action before after)
          (queue.map QueueTicket.toTicket) after) ∧
      (line.selectors = [] → FirstOnly env action (queue.map QueueTicket.toTicket) after) := by
  by_cases words : line.selectors = []
  · obtain ⟨after, ran, first⟩ := doJobTicketFile_first words queue
    exact ⟨after, ran, fun other => absurd words other, fun _ => first⟩
  · obtain ⟨after, ran, obeys⟩ := doJobTicketFile_words words queue (quiet words)
    exact ⟨after, ran, fun _ => obeys, fun none_given => absurd none_given words⟩

def printedAtLp0 : Fields := Fields.empty.setStrValue .dest (some (lit "lp0"))

/-- Job 1 of `papa`, with one destination. -/
def routedTicket : QueueTicket where
  info := Fields.empty
    |>.setStrValue .hfName (some (lit "hfA001"))
    |>.setStrValue .identifier (some (lit "papa@host+1"))
    |>.setStrValue .logname (some (lit "papa"))
    |>.setStrValue .number (some (lit "1"))
    |>.setFlagValue .destinations 1
  dests := fun name => if name = destName 0 then some printedAtLp0 else none
  datafiles := []
  named := by decide
  routed := by
    intro n below
    have one : n < 1 := lt_of_lt_of_eq below (by decide)
    obtain rfl : n = 0 := by omega
    exact ⟨printedAtLp0, if_pos rfl, by decide⟩

/-- The hold command for a printer, with the words given. -/
def holdLine (printer : Bytes) (selectors : List Bytes) : CommandLine :=
  ⟨printer, lit "papa", lit "hold", printer, selectors⟩

def permissiveEnv : LpcEnv := ⟨[], fun _ _ => false⟩

def noon : Moment := ⟨⟨7, by decide, by decide⟩, lit "noon", .jsucc⟩

theorem doJobTicketFile_obeys_papa :
    ∃ after, permissiveEnv.doJobTicketFile (holdLine (lit "lp") [lit "papa"]).tokens .hold
        (fun _ _ => noon) [routedTicket.toTicket] = some after ∧
      List.Forall₂ (fun before after => if before.passedOver permissiveEnv then after = before
        else Obeys [] [lit "papa"] .hold before after) [routedTicket.toTicket] after := by
  have quiet : routedTicket.toTicket.Quiet [] (lit "lp") := by
    intro n below l list
    have one : n < 1 := lt_of_lt_of_eq below (by decide)
    obtain rfl : n = 0 := by omega
    change (if destName 0 = destName 0 then some printedAtLp0 else none) = some l at list
    obtain rfl : printedAtLp0 = l := Option.some.inj ((if_pos rfl).symm.trans list)
    decide
  obtain ⟨after, ran, obeys, -⟩ := doJobTicketFile_obeys permissiveEnv
    (holdLine (lit "lp") [lit "papa"]) .hold (fun _ _ => noon) [routedTicket]
    fun _ ticket member => List.mem_singleton.mp member ▸ quiet
  exact ⟨after, ran, obeys (List.cons_ne_nil _ _)⟩

/-- The command changes a job although no word selects the job or a destination. -/
def HoldsUnselected (line : CommandLine) (ticket : QueueTicket) : Prop :=
  (∃ after, permissiveEnv.doJobTicketFile line.tokens .hold (fun _ _ => noon) [ticket.toTicket] =
    some [after] ∧ after.info .holdTime ≠ ticket.info .holdTime) ∧
  selects [] line.selectors ticket.info = false ∧
  ∀ n < ticket.destinationCount, selectsDestination [] line.selectors ticket.toTicket n = false

/-- Without words the first job is held. The printer name `all` selects a destination. -/
theorem holds_unselected : HoldsUnselected (holdLine (lit "lp") []) routedTicket ∧
    HoldsUnselected (holdLine (lit "all") [lit "2"]) routedTicket := by
  have held : ∀ line : CommandLine, (permissiveEnv.doJobTicketFile line.tokens .hold (fun _ _ => noon)
      [routedTicket.toTicket]).map (·.map (·.info .holdTime)) = some [some (lit "0x7")] →
      ∃ after, permissiveEnv.doJobTicketFile line.tokens .hold (fun _ _ => noon)
        [routedTicket.toTicket] = some [after] ∧
        after.info .holdTime ≠ routedTicket.info .holdTime := by
    intro line held
    obtain ⟨queue, ran, times⟩ := Option.map_eq_some_iff.mp held
    obtain ⟨after, rfl, time⟩ := List.map_eq_singleton_iff.mp times
    exact ⟨after, ran, fun same => absurd (time.symm.trans same) (by decide)⟩
  exact ⟨⟨held _ (by decide), by decide, by decide⟩,
    ⟨held _ (by decide), by decide, by decide⟩⟩

end Queue

end LPRng
