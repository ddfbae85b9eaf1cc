import LPRng.FileTransfer
import LPRng.JobSession

/-!
# Jobs that are transferred file by file

The files that `Send_normal` sends and `Receive_job` acknowledges make a session of one job. Where the control file comes
last, its job is stored before the last answer; where it comes first, its job waits for the end of the connection, when the
sender does not listen any more.
-/

namespace LPRng

namespace JobTransfer

open FileTransfer JobSession LinkReads StopAndWait

/-! ## The receiver -/

/-- The receiver of a connection, with its session. -/
structure JobReception where
  reception : Receiving
  session : Session

/-- An answer to a file is sent when the session has taken it. -/
inductive JobAgrees (receiver : BlockReception.Receiver) (maxJobSize : Nat) : JobReception → JobReception → Prop
  | line {r r' : Receiving} {σ : Session} : Agrees receiver.safe maxJobSize r r' → r'.accepted = r.accepted →
      JobAgrees receiver maxJobSize ⟨r, σ⟩ ⟨r', σ⟩
  | file {type : FileType} {len : Nat} {name got : Bytes} {accepted : List Item} {r' : Receiving} {σ σ' : Session} :
      Agrees receiver.safe maxJobSize ⟨.file type len name (.whole got), accepted⟩ r' →
      takeFile receiver accepted.length σ ⟨⟨type, name, got⟩, len⟩ = .ok σ' →
      JobAgrees receiver maxJobSize ⟨⟨.file type len name (.whole got), accepted⟩, σ⟩ ⟨r', σ'⟩

/-- `Receive_job`, with the jobs it makes. A file that is refused ends no other job where only one is sent. -/
def receiveJobs (receiver : BlockReception.Receiver) (maxJobSize : Nat) : Receiver JobReception UInt8 where
  read r s r' := (receiveJob receiver.safe maxJobSize).read r.reception s r'.reception ∧ r'.session = r.session
  agree := JobAgrees receiver maxJobSize
  refuse r r' := r'.session = r.session
  quit _ := True
  done _ := False
  goOn r r' := (receiveJob receiver.safe maxJobSize).goOn r.reception r'.reception ∧ r'.session = r.session
  finish r r' := (receiveJob receiver.safe maxJobSize).finish r.reception r'.reception ∧ r'.session = r.session

/-- The files of a job, with their lengths announced. -/
def arrivalsOf (items : List Item) : List Arrival := items.map fun item => ⟨item, item.content.length⟩

/-- The session is that of the files that were acknowledged. -/
def InSession (receiver : BlockReception.Receiver) (r : JobReception) : Prop :=
  takeFiles receiver 0 .start (arrivalsOf r.reception.accepted) = .ok r.session

variable {receiver : BlockReception.Receiver} {maxJobSize : Nat} {printer : Bytes} {items : List Item}

/-- The files that were acknowledged change with an answer only. -/
theorem accepted_of_reads {safe s : Bytes} {r r' : Receiving} (reads : Reads safe r s r') : r'.accepted = r.accepted := by
  cases reads <;> rfl

theorem accepted_of_goesOn {r r' : Receiving} (goes : GoesOn r r') : r'.accepted = r.accepted := by
  cases goes
  rfl

theorem arrivalsOf_snoc (items : List Item) (item : Item) :
    arrivalsOf (items ++ [item]) = arrivalsOf items ++ [⟨item, item.content.length⟩] := by
  rw [arrivalsOf, List.map_append, List.map_singleton, ← arrivalsOf]

/-- The session of the files that were acknowledged goes on with the next one. -/
theorem inSession_file {accepted : List Item} {item : Item} {r : Receiving} {σ σ' : Session}
    (before : InSession receiver ⟨r, σ⟩) (same : r.accepted = accepted)
    (taken : takeFile receiver accepted.length σ ⟨item, item.content.length⟩ = .ok σ') {r' : Receiving}
    (after : r'.accepted = accepted ++ [item]) : InSession receiver ⟨r', σ'⟩ := by
  unfold InSession at before ⊢
  dsimp only at before ⊢
  rw [same] at before
  rw [after, arrivalsOf_snoc, takeFiles_append, before, arrivalsOf, List.length_map, Nat.zero_add]
  dsimp only [Except.bind]
  rw [takeFiles, taken]
  rfl

theorem refines : Refines (receiveJobs receiver maxJobSize) (receiveJob receiver.safe maxJobSize) (At printer items)
    JobReception.reception (InSession receiver) JobReception.session where
  read here session reads := by
    obtain ⟨read, same⟩ := reads
    refine ⟨read, ?_⟩
    unfold InSession at session ⊢
    rw [accepted_of_reads read, same]
    exact session
  agree here session agrees := by
    cases agrees with
    | line agree accepted =>
        refine ⟨agree, ?_⟩
        unfold InSession at session ⊢
        rw [accepted]
        exact session
    | @file type len name got accepted r' σ σ' agree taken =>
        refine ⟨agree, ?_⟩
        cases here with
        | file split inside =>
            obtain ⟨-, rfl⟩ := inside.of_whole
            refine inSession_file session rfl taken ?_
            cases agree
            rfl
  refuse refuses := refuses
  done done := done
  goOn here session goes := by
    obtain ⟨go, same⟩ := goes
    refine ⟨go, ?_⟩
    unfold InSession at session ⊢
    rw [accepted_of_goesOn go, same]
    exact session
  finish finishes := finishes.2

/-! ## Both ends -/

section

variable {dataFirst : Bool} {job : SendJob} {kinds : List Kind} {s : Link JobReception UInt8}

theorem follows_jobs (maxJobSize : Nat) (queue : Queue receiver.safe printer)
    (carried : ∀ item ∈ sentItems dataFirst job, Carried receiver.safe item) :
    Follows (receiveJobs receiver maxJobSize) (sendNormal printer dataFirst job) ⟨⟨.request [], []⟩, .start⟩
      (fun k c r => At printer (sentItems dataFirst job) k c r.reception ∧ InSession receiver r) JobReception.session := by
  have follow : Follows (receiveJob receiver.safe maxJobSize) (sendNormal printer dataFirst job)
      (JobReception.reception ⟨⟨.request [], []⟩, .start⟩) (At printer (sentItems dataFirst job)) Receiving.accepted :=
    (serves_sendNormal maxJobSize queue carried).toFollows
  exact follow.refine refines rfl

/-- When `Send_normal` has succeeded, the session is that of the files of the job. -/
theorem session_of_success (queue : Queue receiver.safe printer)
    (carried : ∀ item ∈ sentItems dataFirst job, Carried receiver.safe item)
    (run : Run (receiveJobs receiver maxJobSize) (start (sendNormal printer dataFirst job) ⟨⟨.request [], []⟩, .start⟩) kinds s)
    (success : s.sender = .finished true) :
    takeFiles receiver 0 .start (arrivalsOf (sentItems dataFirst job)) = .ok s.receiver.session := by
  obtain ⟨r, ⟨here, session⟩, held⟩ := run.agreement (follows_jobs maxJobSize queue carried) success
  rw [sendNormal_eq queue dataFirst job carried] at here
  unfold InSession at session
  rw [here.all] at session
  rw [held]
  exact session

/-- Where the session takes all files of a job, it takes each of them behind those before it. -/
theorem takeFile_of_takes {done later : List Item} {item : Item} {σ all : Session}
    (takes : takeFiles receiver 0 .start (arrivalsOf (done ++ item :: later)) = .ok all)
    (before : takeFiles receiver 0 .start (arrivalsOf done) = .ok σ) :
    ∃ σ', takeFile receiver done.length σ ⟨item, item.content.length⟩ = .ok σ' := by
  have parts : arrivalsOf (done ++ item :: later) = arrivalsOf done ++ ⟨item, item.content.length⟩ :: arrivalsOf later := by
    rw [arrivalsOf, List.map_append, List.map_cons, ← arrivalsOf, ← arrivalsOf]
  rw [parts, takeFiles_append, before, arrivalsOf, List.length_map, Nat.zero_add] at takes
  obtain ⟨first, same, takes⟩ := of_bind_ok takes
  cases same
  obtain ⟨σ', taken, -⟩ := of_bind_ok takes
  exact ⟨σ', taken⟩

theorem serves_jobs (maxJobSize : Nat) (queue : Queue receiver.safe printer)
    (carried : ∀ item ∈ sentItems dataFirst job, Carried receiver.safe item) {σ : Session}
    (takes : takeFiles receiver 0 .start (arrivalsOf (sentItems dataFirst job)) = .ok σ) :
    Serves (receiveJobs receiver maxJobSize) (sendNormal printer dataFirst job) ⟨⟨.request [], []⟩, .start⟩
      (fun k c r => At printer (sentItems dataFirst job) k c r.reception ∧ InSession receiver r) JobReception.session where
  toFollows := follows_jobs maxJobSize queue carried
  reads {_ _ r _ _} here next arrived := by
    obtain ⟨front, back, r', parts, some, read⟩ := (serves_sendNormal maxJobSize queue carried).reads here.1 next arrived
    exact ⟨front, back, ⟨r', r.session⟩, parts, some, read, rfl⟩
  agrees {_ _ r} here next := by
    obtain ⟨r', agree⟩ := (serves_sendNormal maxJobSize queue carried).agrees here.1 next
    obtain ⟨here, session⟩ := here
    obtain ⟨reception, σ'⟩ := r
    unfold InSession at session
    dsimp only at here session agree
    cases agree with
    | request word => exact ⟨_, JobAgrees.line (Agrees.request word) rfl⟩
    | offered => exact ⟨_, JobAgrees.line Agrees.offered rfl⟩
    | file some whole =>
        cases here with
        | @file done later item _ _ split inside =>
            obtain ⟨-, rfl⟩ := inside.of_whole
            rw [split] at takes
            obtain ⟨σ'', taken⟩ := takeFile_of_takes takes session
            exact ⟨_, JobAgrees.file (Agrees.file some whole) taken⟩
  ends {_ _ r} here part := by
    rcases (serves_sendNormal maxJobSize queue carried).ends here.1 part with ⟨r', goes⟩ | ⟨r', finishes⟩ | done
    · exact Or.inl ⟨⟨r', r.session⟩, goes, rfl⟩
    · exact Or.inr (Or.inl ⟨⟨r', r.session⟩, finishes, rfl⟩)
    · exact done.elim

/-- The files of a job as they come. -/
def groupOf (dataFirst : Bool) (job : SendJob) : Group :=
  let control : Item := ⟨.control, job.transfername.val, job.image.val⟩
  let data := arrivalsOf (job.datafiles.map fun file : SendFile => (⟨.data, file.transfername.val, file.content⟩ : Item))
  if dataFirst then ⟨data.zipIdx, (⟨control, control.content.length⟩, data.length), []⟩
  else ⟨[], (⟨control, control.content.length⟩, 0), data.zipIdx 1⟩

theorem sentItems_first (job : SendJob) : sentItems true job =
    (job.datafiles.map fun file : SendFile => (⟨.data, file.transfername.val, file.content⟩ : Item)) ++
      [⟨.control, job.transfername.val, job.image.val⟩] := rfl

theorem types_of_data (job : SendJob) : ∀ arrival ∈ arrivalsOf (job.datafiles.map fun file : SendFile =>
    (⟨.data, file.transfername.val, file.content⟩ : Item)), arrival.item.type = .data := by
  intro arrival member
  obtain ⟨item, inside, rfl⟩ := List.mem_map.mp member
  obtain ⟨file, -, rfl⟩ := List.mem_map.mp inside
  rfl

/-- The data files that are sent have the names of those of the job. -/
theorem free_of_sent (free : ∀ file ∈ job.datafiles, LineList.CasekeyFree file.transfername.val) :
    ∀ arrival ∈ arrivalsOf (sentItems dataFirst job), arrival.item.type = .data →
      LineList.CasekeyFree arrival.item.name := by
  intro arrival member type
  obtain ⟨item, inside, rfl⟩ := List.mem_map.mp member
  have data : item ∈ job.datafiles.map fun file : SendFile => (⟨.data, file.transfername.val, file.content⟩ : Item) := by
    unfold sentItems at inside
    split at inside
    · rcases List.mem_append.mp inside with data | control
      · exact data
      · rw [List.mem_singleton.mp control] at type
        cases type
    · rcases List.mem_cons.mp inside with rfl | data
      · cases type
      · exact data
  obtain ⟨file, sent, rfl⟩ := List.mem_map.mp data
  exact free file sent

theorem takes_plainJob : ∃ σ,
    takeFiles admitting 0 .start (arrivalsOf (sentItems true (plainJob [0, 10, 65] (by decide)))) = .ok σ := by
  have taken : (takeFiles admitting 0 .start
      (arrivalsOf (sentItems true (plainJob [0, 10, 65] (by decide))))).toOption.isSome = true := by decide +kernel
  cases run : takeFiles admitting 0 .start (arrivalsOf (sentItems true (plainJob [0, 10, 65] (by decide)))) with
  | error outcome =>
      rw [run] at taken
      cases taken
  | ok σ => exact ⟨σ, rfl⟩

theorem free_plainJob : ∀ file ∈ (plainJob [0, 10, 65] (by decide)).datafiles, LineList.CasekeyFree file.transfername.val := by
  intro file member
  rw [List.mem_singleton.mp member]
  have free : (lit "dfA007host").all (fun c => !hashValueSep.contains c) = true := by decide
  exact fun c inside => (Bool.not_eq_true' _).mp (List.all_eq_true.mp free c inside)

end

end JobTransfer

end LPRng
