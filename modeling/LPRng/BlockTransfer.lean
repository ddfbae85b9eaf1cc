import LPRng.BlockReception
import LPRng.FileTransfer

/-!
# The transfer of a job as one block

`Send_block` asks for a queue with the size of the block that was put together, and sends the block as one file.
`Receive_block_job` takes the block apart when it has all of it, and answers with what comes out.
-/

namespace LPRng

namespace BlockTransfer

open FileTransfer LinkReads StopAndWait
open BlockReception hiding Receiver

/-! ## Receiving -/

inductive Phase where
  | request (got : Bytes)
  | requested (line : Bytes)
  | file (file : FileRead)
  | ended

/-- The receiver, with the block that it has said to have received. -/
structure Receiving where
  phase : Phase
  accepted : Option Bytes

/-- `REQ_BLOCK`. -/
def reqBlock : UInt8 := 6

def requestPhase : LineRead → Phase
  | .more got => .request got
  | .whole line => if isRequest reqBlock line then .requested line else .ended
  | .tooLong => .ended

inductive Reads : Receiving → Bytes → Receiving → Prop
  | request {got : Bytes} {accepted : Option Bytes} (c : UInt8) :
      Reads ⟨.request got, accepted⟩ [c] ⟨requestPhase (lineByte requestRoom got c), accepted⟩
  | file {s : Bytes} {file file' : FileRead} {accepted : Option Bytes} :
      FileReads file s file' → Reads ⟨.file file, accepted⟩ s ⟨.file file', accepted⟩

/-- Whether a block is answered with a 0. -/
def Answers (receiver : BlockReception.Receiver) (block : Bytes) : Prop :=
  ∃ received, receiveBlockJob receiver (some block) = some received ∧ received.answer = some 0

/-- Where the receiver sends a 0. A size that is no number is 0. -/
inductive Agrees (receiver : BlockReception.Receiver) : Receiving → Receiving → Prop
  | request {line queue size : Bytes} {accepted : Option Bytes} :
      splitWords (cleanMeta receiver.safe (cstr line.tail)) = [queue, size] →
      Agrees receiver ⟨.requested line, accepted⟩ ⟨.file (fileRead (((strtod size).map Prod.fst).getD 0)), accepted⟩
  | file {got : Bytes} {accepted : Option Bytes} : Answers receiver got →
      Agrees receiver ⟨.file (.whole got), accepted⟩ ⟨.ended, some got⟩

inductive GoesOn : Receiving → Receiving → Prop
  | file {got : Bytes} {file : FileRead} {accepted : Option Bytes} :
      FileEnds file (.whole got) → GoesOn ⟨.file file, accepted⟩ ⟨.file (.whole got), accepted⟩

inductive Finishes : Receiving → Receiving → Prop
  | request {got : Bytes} {accepted : Option Bytes} : Finishes ⟨.request got, accepted⟩ ⟨.ended, accepted⟩
  | file {file : FileRead} {accepted : Option Bytes} : FileEnds file .failed →
      Finishes ⟨.file file, accepted⟩ ⟨.ended, accepted⟩

/-- `Receive_block_job`. Whatever it checks may fail, and so may a read or a write: it refuses then, or closes the connection
without an answer. It closes it behind its last answer, too. -/
def receiveBlock (receiver : BlockReception.Receiver) : Receiver Receiving UInt8 where
  read := Reads
  agree := Agrees receiver
  refuse r r' := r'.accepted = r.accepted
  quit _ := True
  done r := r.phase = .ended
  goOn := GoesOn
  finish := Finishes

/-! ## Sending -/

/-- What `Send_block` writes, and waits for an answer to, when the block was put together. -/
def sendMessages (printer block : Bytes) : List Bytes :=
  [plpSnprintf smallBuffer (reqBlock :: (fmtString printer ++ 32 :: printNat 10 (toDouble block.length) ++ [10])),
    block ++ [0]]

/-- A queue and a block whose request line arrives as it is meant. -/
structure Asked (safe printer block : Bytes) : Prop where
  named : printer ≠ []
  plain : ∀ c ∈ printer, plainChar safe c = true
  small : block.length < 2 ^ 53
  short : printer.length + (printNat 10 block.length).length + 2 < requestRoom

def requestText (printer block : Bytes) : Bytes := reqBlock :: (printer ++ 32 :: printNat 10 block.length)

def messages (printer block : Bytes) : List Bytes := [requestText printer block ++ [10], block ++ [0]]

variable {safe printer block : Bytes} {c : UInt8} {receiver : BlockReception.Receiver}

theorem plain_of_mem_printer (asked : Asked safe printer block) (member : c ∈ printer ++ 32 :: printNat 10 block.length) :
    plainChar safe c = true ∨ c = 32 := by
  rcases List.mem_append.mp member with name | member
  · exact Or.inl (asked.plain c name)
  · rcases List.mem_cons.mp member with rfl | digit
    · exact Or.inr rfl
    · exact Or.inl (plain_of_mem_printNat digit)

theorem solid_of_mem_requestText (asked : Asked safe printer block) (member : c ∈ requestText printer block) : Solid c := by
  rcases List.mem_cons.mp member with rfl | member
  · exact ⟨by decide, by decide, by decide⟩
  · rcases plain_of_mem_printer asked member with plain | rfl
    · exact solid_of_plain plain
    · exact ⟨by decide, by decide, by decide⟩

theorem length_requestText (asked : Asked safe printer block) : (requestText printer block).length < requestRoom := by
  have short := asked.short
  simp only [requestText, List.length_cons, List.length_append]
  omega

theorem requestPhase_whole (asked : Asked safe printer block) :
    requestPhase (.whole (requestText printer block)) = .requested (requestText printer block) :=
  if_pos (isRequest_cons (List.append_ne_nil_of_left_ne_nil asked.named _) reqBlock)

/-- The receiver finds the name and the size in the request. -/
theorem splitWords_requestText (asked : Asked safe printer block) :
    splitWords (cleanMeta safe (cstr (requestText printer block).tail)) = [printer, printNat 10 block.length] := by
  have noNul : 0 ∉ printer ++ 32 :: printNat 10 block.length := fun member =>
    (solid_of_mem_requestText asked (List.mem_cons_of_mem _ member)).2.2 rfl
  have clean : cleanMeta safe (printer ++ 32 :: printNat 10 block.length) = printer ++ 32 :: printNat 10 block.length := by
    have name : cleanMeta safe printer = printer := cleanMeta_of_plain asked.plain
    have digits : cleanMeta safe (printNat 10 block.length) = printNat 10 block.length :=
      cleanMeta_of_plain fun c member => plain_of_mem_printNat member
    unfold cleanMeta at name digits ⊢
    rw [List.map_append, List.map_cons, name, digits]
    rfl
  rw [requestText, List.tail_cons, cstr_of_noNul noNul, clean,
    splitWords_append fun c member => isWhite_of_plainChar (asked.plain c member),
    splitWords_word (fun c member => isWhite_of_plainChar (plain_of_mem_printNat member : plainChar safe c = true))
      (printNat_ne_nil (by decide) _)]

theorem strtod_size (asked : Asked safe printer block) :
    ((strtod (printNat 10 block.length)).map Prod.fst).getD 0 = block.length := by
  have stops : StopsDigits 10 [] := fun c head => (by cases head)
  have read := strtod_printNat asked.small stops
  rw [List.append_nil] at read
  rw [read]
  rfl

theorem sendMessages_eq (asked : Asked safe printer block) : sendMessages printer block = messages printer block := by
  have short := asked.short
  have line : plpSnprintf smallBuffer
      (reqBlock :: (fmtString printer ++ 32 :: printNat 10 (toDouble block.length) ++ [10])) =
        requestText printer block ++ [10] := by
    unfold plpSnprintf
    rw [Segment.fmtString_of_plain asked.plain, toDouble_of_lt asked.small]
    refine List.take_of_length_le ?_
    simp only [List.length_cons, List.length_append, List.length_nil]
    have room : requestRoom + 2 ≤ smallBuffer - 1 := by decide
    omega
  rw [sendMessages, line]
  rfl

/-! ## The receiver follows the messages -/

/-- The receiver when it has agreed to a number of messages and has read a part of the next one. -/
inductive At (receiver : BlockReception.Receiver) (printer block : Bytes) : Nat → Bytes → Receiving → Prop
  | request {c t : Bytes} : c ++ t = requestText printer block ++ [10] → t ≠ [] →
      At receiver printer block 0 c ⟨.request c, none⟩
  | requested : At receiver printer block 0 (requestText printer block ++ [10]) ⟨.requested (requestText printer block), none⟩
  | file {c : Bytes} {file : FileRead} : file.At block c → At receiver printer block 1 c ⟨.file file, none⟩
  | ended : Answers receiver block → At receiver printer block 2 [] ⟨.ended, some block⟩

section

variable {k : Nat} {c s rest : Bytes} {r r' : Receiving}

theorem At.reads (asked : Asked safe printer block) (here : At receiver printer block k c r) (read : Reads r s r')
    (next : (messages printer block)[k]? = some (c ++ s ++ rest)) : At receiver printer block k (c ++ s) r' := by
  cases here with
  | request whole some =>
      cases read with
      | request ch =>
          have same : c ++ [ch] ++ rest = requestText printer block ++ [10] := (Option.some.inj next).symm
          rcases lineByte_text (fun d member => solid_of_mem_requestText asked member) (length_requestText asked) same with
            ⟨rfl, -, line⟩ | ⟨some, line⟩
          · rw [List.append_nil] at same
            rw [line, requestPhase_whole asked, same]
            exact At.requested
          · rw [line]
            exact At.request same some
  | requested => cases read
  | file inside =>
      cases read with
      | file read => exact At.file (inside.reads read (Option.some.inj next).symm)
  | ended answers => cases next

theorem At.canRead (here : At receiver printer block k c r) {f : Bytes}
    (next : (messages printer block)[k]? = some (c ++ f ++ rest)) (arrived : f ≠ []) :
    ∃ s t r', f = s ++ t ∧ s ≠ [] ∧ Reads r s r' := by
  cases here with
  | request whole some =>
      obtain ⟨ch, f', rfl⟩ := List.exists_cons_of_ne_nil arrived
      exact ⟨[ch], f', _, rfl, List.cons_ne_nil _ _, Reads.request ch⟩
  | requested =>
      have same := Option.some.inj next
      rw [List.append_assoc _ f] at same
      exact absurd (List.append_eq_nil_iff.mp (List.self_eq_append_right.mp same)).1 arrived
  | file inside =>
      obtain ⟨front, back, file', parts, some, read⟩ := inside.canRead (Option.some.inj next).symm arrived
      exact ⟨front, back, _, parts, some, Reads.file read⟩
  | ended answers => cases next

theorem At.agrees (asked : Asked receiver.safe printer block) (filled : block ≠ []) (here : At receiver printer block k c r)
    (agree : Agrees receiver r r') :
    (messages printer block)[k]? = some c ∧ At receiver printer block (k + 1) [] r' := by
  cases here with
  | request whole some => cases agree
  | requested =>
      cases agree with
      | request words =>
          rw [splitWords_requestText asked] at words
          cases words
          rw [strtod_size asked]
          exact ⟨rfl, At.file (FileRead.at_fileRead filled)⟩
  | file inside =>
      cases agree with
      | file answers =>
          obtain ⟨rfl, rfl⟩ := inside.of_whole
          exact ⟨rfl, At.ended answers⟩
  | ended answers => cases agree

theorem At.canAgree (asked : Asked receiver.safe printer block) (answers : Answers receiver block)
    (here : At receiver printer block k c r) (next : (messages printer block)[k]? = some c) :
    ∃ r', Agrees receiver r r' := by
  cases here with
  | request whole some => exact absurd (Option.some.inj next).symm (part_ne whole some)
  | requested => exact ⟨_, Agrees.request (splitWords_requestText asked)⟩
  | file inside =>
      cases next
      obtain rfl := inside.of_all
      exact ⟨_, Agrees.file answers⟩
  | ended answers => cases next

theorem At.goesOn (here : At receiver printer block k c r) (goes : GoesOn r r') :
    ∃ m, (messages printer block)[k]? = some m ∧ c.length < m.length ∧ At receiver printer block k m r' := by
  cases here with
  | request whole some => cases goes
  | requested => cases goes
  | file inside =>
      cases goes with
      | file ends =>
          rcases inside.ends ends with ⟨rfl, whole⟩ | ⟨failed, -⟩
          · rw [whole]
            exact ⟨_, rfl, by rw [List.length_append, List.length_singleton]; omega, At.file FileRead.At.whole⟩
          · cases failed
  | ended answers => cases goes

theorem At.ends (here : At receiver printer block k c r) (part : (messages printer block)[k]? ≠ some c) :
    (∃ r', GoesOn r r') ∨ (∃ r', Finishes r r') ∨ r.phase = .ended := by
  cases here with
  | request whole some => exact Or.inr (Or.inl ⟨_, Finishes.request⟩)
  | requested => exact absurd rfl part
  | file inside =>
      obtain ⟨file', ends⟩ := inside.canEnd fun whole => part (whole ▸ rfl)
      rcases inside.ends ends with ⟨-, rfl⟩ | ⟨rfl, -⟩
      · exact Or.inl ⟨_, GoesOn.file ends⟩
      · exact Or.inr (Or.inl ⟨_, Finishes.file ends⟩)
  | ended answers => exact Or.inr (Or.inr rfl)

theorem follows (asked : Asked receiver.safe printer block) (filled : block ≠ []) :
    Follows (receiveBlock receiver) (messages printer block) ⟨.request [], none⟩ (At receiver printer block)
      Receiving.accepted where
  start := At.request rfl (by simp)
  nonempty m member := by
    rcases List.mem_cons.mp member with rfl | member
    · simp
    · rw [List.mem_singleton.mp member]
      simp
  read here read next := here.reads asked read next
  agree here agree := here.agrees asked filled agree
  refuse _ refuses := refuses
  done here done := by
    cases here with
    | request whole some => cases done
    | requested => cases done
    | file inside => cases done
    | ended answers => exact Nat.le_refl _
  goOn here goes := here.goesOn goes
  finish _ finishes := by cases finishes <;> rfl

theorem serves (asked : Asked receiver.safe printer block) (filled : block ≠ []) (answers : Answers receiver block) :
    Serves (receiveBlock receiver) (messages printer block) ⟨.request [], none⟩ (At receiver printer block)
      Receiving.accepted where
  toFollows := follows asked filled
  reads here next arrived := here.canRead next arrived
  agrees here next := here.canAgree asked answers next
  ends here part := here.ends part

end

/-! ## Both ends -/

section

variable {job : SendJob} {room : Nat} {file : TempFile}

/-- A block begins with the header line of the control file. -/
theorem block_ne_nil (sent : sendBlock job room = .ok file) : file.bytes ≠ [] := by
  obtain ⟨segments, items, bytes⟩ := sendBlock_segments sent
  cases segments with
  | nil => cases items
  | cons segment segments =>
      rw [bytes, List.flatMap_cons]
      refine List.append_ne_nil_of_left_ne_nil (List.append_ne_nil_of_left_ne_nil ?_ _) _
      exact fun empty => absurd (congrArg List.length empty) (Nat.ne_of_gt (Nat.succ_pos _))

/-- The files of a job come out of its block. -/
theorem scan_block (sent : sendBlock job room = .ok file) (fits : ∀ item ∈ job.items, item.Fits safe) :
    scan safe file.bytes = (job.items.map Item.scanned, .eof []) := by
  obtain ⟨segments, items, bytes⟩ := sendBlock_segments sent
  rw [← items] at fits
  rw [bytes, ← items, List.map_map]
  exact (scan_segments_iff segments).mpr (List.forall_mem_map.mp fits)

/-- Of a block that is answered with a 0, all files belong to stored jobs if nothing is lost on the way. -/
theorem stored_of_settled {received : Received} (run : receiveBlockJob receiver (some block) = some received)
    (answer : received.answer = some 0)
    (settled : Settled receiver (scan receiver.safe block).2 (scan receiver.safe block).1 none .start) :
    received.waiting = [] := by
  obtain ⟨stop, ends, reports⟩ := (takeFiles_reports receiver _ _ consistent_start).mpr settled
  have scanned : scanBlockFile receiver block = some stop := ends
  rw [receiveBlockJob, scanned, Option.map_some] at run
  cases run
  rcases reports with none | ⟨nonzero, text⟩
  · cases status : stop.status with
    | true => exact none
    | false => exact none
  · rw [nonzero, text] at answer
    cases answer

theorem follows_sendMessages (asked : Asked receiver.safe printer file.bytes) (sent : sendBlock job room = .ok file) :
    Follows (receiveBlock receiver) (sendMessages printer file.bytes) ⟨.request [], none⟩ (At receiver printer file.bytes)
      Receiving.accepted :=
  sendMessages_eq asked ▸ follows asked (block_ne_nil sent)

theorem serves_sendMessages (asked : Asked receiver.safe printer file.bytes) (sent : sendBlock job room = .ok file)
    (answers : Answers receiver file.bytes) :
    Serves (receiveBlock receiver) (sendMessages printer file.bytes) ⟨.request [], none⟩ (At receiver printer file.bytes)
      Receiving.accepted :=
  sendMessages_eq asked ▸ serves asked (block_ne_nil sent) answers

variable {kinds : List Kind} {s : Link Receiving UInt8}

/-- A job with the control file and the data file of a block. -/
def smallJob : SendJob where
  transfername := ⟨lit "cfA001h", by decide⟩
  image := ⟨lit "fdfA001h\n", by decide⟩
  datafiles := [⟨⟨lit "dfA001h", by decide⟩, true, [lit "x"], by decide⟩]

theorem smallJob_sent : ∃ file, sendBlock smallJob 64 = .ok file ∧ file.bytes = oneJob := by
  have bytes : (sendBlock smallJob 64).toOption.map TempFile.bytes = some oneJob := by decide +kernel
  cases sent : sendBlock smallJob 64 with
  | error status =>
      rw [sent] at bytes
      cases bytes
  | ok file =>
      rw [sent] at bytes
      exact ⟨file, rfl, Option.some.inj bytes⟩

theorem smallJob_fits : ∀ item ∈ smallJob.items, item.Fits [] := by
  intro item member
  rcases List.mem_cons.mp member with rfl | member
  · exact ⟨by decide, by decide, by decide, by decide⟩
  · rw [List.mem_singleton.mp member]
    exact ⟨by decide, by decide, by decide, by decide⟩

theorem asked_oneJob : Asked [] (lit "lp") oneJob := ⟨by decide, by decide, by decide, by decide⟩

/-- A receiver that stores the last job. -/
def storing : BlockReception.Receiver := { refusing with last := ⟨.stored, true⟩ }

theorem answers_storing : Answers storing oneJob := by
  have answered : ((receiveBlockJob storing (some oneJob)).any fun received => received.answer = some 0) = true := by
    decide +kernel
  obtain ⟨received, run, answer⟩ := (Option.any_eq_true _ _).mp answered
  exact ⟨received, run, of_decide_eq_true answer⟩

end

end BlockTransfer

end LPRng
