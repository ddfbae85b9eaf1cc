import LPRng.LinkReads
import LPRng.StopAndWait

/-!
# The transfer of a job file by file

`Send_normal` asks for a queue and sends the control file and the data files of a job, each behind a header line, and waits
for an answer to every line and every file. `Receive_job` reads the lines and the files with the reads that the connection
allows, and may find fault at any point. What it makes of the files that it has received is not part of this module.
-/

namespace LPRng

namespace FileTransfer

open LinkReads StopAndWait

/-! ## Receiving -/

/-- `strtod`, for whole numbers in decimal digits. -/
def strtod (s : Bytes) : Option (Int × Bytes) :=
  let t := s.dropWhile isSpace
  let negative := t.head? = some 45
  let u := if negative ∨ t.head? = some 43 then t.tail else t
  if ∃ c ∈ u.head?, isDigit c = true then
    let read := scanNat 10 0 u
    some (if negative then -(toDouble read.1 : Int) else toDouble read.1, read.2)
  else none

/-- What `Receive_job` makes of a line: the end of the files, nothing, a fault, or the announcement of a file. -/
inductive Announcement where
  | ends
  | again
  | bad
  | file (type : FileType) (len : Nat) (name : Bytes)

def announcement (safe line : Bytes) : Announcement :=
  match fileType line with
  | none => .ends
  | some type =>
      match strtod (cleanMeta safe (cstr line.tail)) with
      | none => .again
      | some (len, rest) =>
          let name := (cleanMeta safe (rest.dropWhile isSpace)).map fun c => if c = 32 ∨ c = 9 then 95 else c
          if len < 0 ∨ name = [] ∨ (len = 0 ∧ type = .control) then .bad else .file type len.toNat name

/-- What `Receive_job` does: it reads a line, has one to answer, or reads a file; or it has found a fault, or the end of the
files. -/
inductive Phase where
  | request (got : Bytes)
  | requested (line : Bytes)
  | line (got : Bytes)
  | offered (type : FileType) (len : Nat) (name : Bytes)
  | file (type : FileType) (len : Nat) (name : Bytes) (file : FileRead)
  | fault
  | ended

/-- The receiver, with the files that it has said to have received. -/
structure Receiving where
  phase : Phase
  accepted : List Item

/-- `REQ_RECV`. -/
def reqRecv : UInt8 := 2

def requestPhase : LineRead → Phase
  | .more got => .request got
  | .whole line => if isRequest reqRecv line then .requested line else .ended
  | .tooLong => .ended

def linePhase (safe : Bytes) : LineRead → Phase
  | .more got => .line got
  | .whole line =>
      match announcement safe line with
      | .ends => .ended
      | .again => .line []
      | .bad => .fault
      | .file type len name => .offered type len name
  | .tooLong => .ended

/-- How much is read of a file: its length, or what a job may have where the length is not known. -/
def readLimit (maxJobSize len : Nat) : Int := if len = 0 then toInt32 (maxJobSize * 1024) else len

inductive Reads (safe : Bytes) : Receiving → Bytes → Receiving → Prop
  | request {got : Bytes} {accepted : List Item} (c : UInt8) :
      Reads safe ⟨.request got, accepted⟩ [c] ⟨requestPhase (lineByte requestRoom got c), accepted⟩
  | line {got : Bytes} {accepted : List Item} (c : UInt8) :
      Reads safe ⟨.line got, accepted⟩ [c] ⟨linePhase safe (lineByte lineRoom got c), accepted⟩
  | file {type : FileType} {len : Nat} {name s : Bytes} {file file' : FileRead} {accepted : List Item} :
      FileReads file s file' → Reads safe ⟨.file type len name file, accepted⟩ s ⟨.file type len name file', accepted⟩

/-- Where the receiver sends a 0. The name of the queue is one word, and a file has as many bytes as were announced, or some
if their number was not known. -/
inductive Agrees (safe : Bytes) (maxJobSize : Nat) : Receiving → Receiving → Prop
  | request {line : Bytes} {accepted : List Item} : (splitWords (cleanMeta safe (cstr line.tail))).length = 1 →
      Agrees safe maxJobSize ⟨.requested line, accepted⟩ ⟨.line [], accepted⟩
  | offered {type : FileType} {len : Nat} {name : Bytes} {accepted : List Item} :
      Agrees safe maxJobSize ⟨.offered type len name, accepted⟩
        ⟨.file type len name (fileRead (readLimit maxJobSize len)), accepted⟩
  | file {type : FileType} {len : Nat} {name got : Bytes} {accepted : List Item} :
      ¬ (len = 0 ∧ got.length = 0) → ¬ (len ≠ 0 ∧ len ≠ got.length) →
      Agrees safe maxJobSize ⟨.file type len name (.whole got), accepted⟩ ⟨.line [], accepted ++ [⟨type, name, got⟩]⟩

/-- It goes on with a file that the end of the input has made whole. -/
inductive GoesOn : Receiving → Receiving → Prop
  | file {type : FileType} {len : Nat} {name got : Bytes} {file : FileRead} {accepted : List Item} :
      FileEnds file (.whole got) → GoesOn ⟨.file type len name file, accepted⟩ ⟨.file type len name (.whole got), accepted⟩

/-- It closes the connection at the end of the input, in a line or in a file that is not whole. -/
inductive Finishes : Receiving → Receiving → Prop
  | request {got : Bytes} {accepted : List Item} : Finishes ⟨.request got, accepted⟩ ⟨.ended, accepted⟩
  | line {got : Bytes} {accepted : List Item} : Finishes ⟨.line got, accepted⟩ ⟨.ended, accepted⟩
  | file {type : FileType} {len : Nat} {name : Bytes} {file : FileRead} {accepted : List Item} : FileEnds file .failed →
      Finishes ⟨.file type len name file, accepted⟩ ⟨.fault, accepted⟩

/-- `Receive_job`. Whatever it checks may fail, and so may a read or a write: it refuses then, or closes the connection
without an answer. -/
def receiveJob (safe : Bytes) (maxJobSize : Nat) : Receiver Receiving UInt8 where
  read := Reads safe
  agree := Agrees safe maxJobSize
  refuse r r' := r'.accepted = r.accepted
  quit _ := True
  done _ := False
  goOn := GoesOn
  finish := Finishes

/-! ## Sending -/

/-- A regular data file and a control file are sent as they are, with a 0 behind them. A data file that cannot be opened or
is empty makes the sender fail before its header line. -/
def controlMessages (job : SendJob) : List Bytes :=
  [headerLine .control (printInt (toInt32 job.image.val.length)) job.transfername.val, job.image.val ++ [0]]

def dataMessages (file : SendFile) : List Bytes :=
  [headerLine .data (printNat 10 (toDouble file.content.length)) file.transfername.val, file.content ++ [0]]

/-- What `Send_normal` writes, and waits for an answer to. -/
def sendNormal (printer : Bytes) (dataFirst : Bool) (job : SendJob) : List Bytes :=
  plpSnprintf smallBuffer (reqRecv :: (fmtString printer ++ [10])) ::
    if dataFirst then job.datafiles.flatMap dataMessages ++ controlMessages job
    else controlMessages job ++ job.datafiles.flatMap dataMessages

/-- The files of a job, in the order they are sent. -/
def sentItems (dataFirst : Bool) (job : SendJob) : List Item :=
  let control : Item := ⟨.control, job.transfername.val, job.image.val⟩
  let data := job.datafiles.map fun file : SendFile => (⟨.data, file.transfername.val, file.content⟩ : Item)
  if dataFirst then data ++ [control] else control :: data

/-! ## Lines that arrive -/

/-- A file whose header line arrives as it is meant: its name is plain, it has bytes, their number is exact where it is
printed, and the line is not cut. -/
structure Carried (safe : Bytes) (item : Item) : Prop where
  named : item.name ≠ []
  plain : ∀ c ∈ item.name, plainChar safe c = true
  some : item.content ≠ []
  small : item.content.length < if item.type = .control then 2 ^ 31 else 2 ^ 53
  short : (printNat 10 item.content.length).length + item.name.length + 2 < lineRoom

/-- A queue whose name is one plain word. -/
structure Queue (safe printer : Bytes) : Prop where
  named : printer ≠ []
  plain : ∀ c ∈ printer, plainChar safe c = true
  short : printer.length + 1 < requestRoom

def headerText (item : Item) : Bytes := item.type.byte :: (printNat 10 item.content.length ++ 32 :: item.name)

def requestText (printer : Bytes) : Bytes := reqRecv :: printer

/-- The messages for the files of a job. -/
def messages (printer : Bytes) (items : List Item) : List Bytes :=
  (requestText printer ++ [10]) :: items.flatMap fun item => [headerText item ++ [10], item.content ++ [0]]

variable {safe : Bytes} {item : Item} {printer : Bytes} {c : UInt8}

theorem solid_of_mem_headerText (carried : Carried safe item) (member : c ∈ headerText item) : Solid c := by
  rcases List.mem_cons.mp member with rfl | member
  · cases item.type <;> exact ⟨by decide, by decide, by decide⟩
  · rcases List.mem_append.mp member with digit | member
    · exact solid_of_plain (plain_of_mem_printNat digit : plainChar safe c = true)
    · rcases List.mem_cons.mp member with rfl | name
      · exact ⟨by decide, by decide, by decide⟩
      · exact solid_of_plain (carried.plain c name)

theorem length_headerText (carried : Carried safe item) : (headerText item).length < lineRoom := by
  have short := carried.short
  simp only [headerText, List.length_cons, List.length_append]
  omega

theorem solid_of_mem_requestText (queue : Queue safe printer) (member : c ∈ requestText printer) : Solid c := by
  rcases List.mem_cons.mp member with rfl | name
  · exact ⟨by decide, by decide, by decide⟩
  · exact solid_of_plain (queue.plain c name)

theorem strtod_printNat {n : Nat} (small : n < 2 ^ 53) {rest : Bytes} (stops : StopsDigits 10 rest) :
    strtod (printNat 10 n ++ rest) = some ((n : Int), rest) := by
  obtain ⟨d, digits, text⟩ := List.exists_cons_of_ne_nil (printNat_ne_nil (by decide : 2 ≤ 10) n)
  have member : d ∈ printNat 10 n := text ▸ List.mem_cons_self
  have digit := isDigit_of_mem_printNat member
  have solid : isSpace d = false := isSpace_of_plain (plain_of_mem_printNat member : plainChar [] d = true)
  have unsigned : d ≠ 45 ∧ d ≠ 43 := by
    constructor
    · rintro rfl
      cases digit
    · rintro rfl
      cases digit
  have front : (printNat 10 n ++ rest).dropWhile isSpace = printNat 10 n ++ rest := by
    rw [text, List.cons_append, List.dropWhile_cons, solid]
    rfl
  have head : (printNat 10 n ++ rest).head? = some d := by rw [text, List.cons_append, List.head?_cons]
  have positive : ¬ (printNat 10 n ++ rest).head? = some 45 := by
    rw [head]
    exact fun same => unsigned.1 (Option.some.inj same)
  have plain : ¬ ((printNat 10 n ++ rest).head? = some 45 ∨ (printNat 10 n ++ rest).head? = some 43) := by
    rw [head]
    exact fun sign => sign.elim (fun same => unsigned.1 (Option.some.inj same)) fun same =>
      unsigned.2 (Option.some.inj same)
  unfold strtod
  simp only [front, if_neg positive, if_neg plain]
  rw [if_pos ⟨d, head, digit⟩, scanNat_printNat (by decide) (by decide) n stops, toDouble_of_lt small]

/-- A header line is taken for the announcement of its file. -/
theorem announcement_headerText (carried : Carried safe item) :
    announcement safe (headerText item) = .file item.type item.content.length item.name := by
  have some_bytes : 0 < item.content.length := List.length_pos_iff.mpr carried.some
  have small : item.content.length < 2 ^ 53 := by
    have limit := carried.small
    split at limit
    · omega
    · exact limit
  have typed : fileType (headerText item) = some item.type := by
    unfold headerText
    cases item.type <;> rfl
  have clean : cleanMeta safe item.name = item.name := cleanMeta_of_plain carried.plain
  have noNul : 0 ∉ printNat 10 item.content.length ++ 32 :: item.name := fun member =>
    (solid_of_mem_headerText carried (List.mem_cons_of_mem _ member)).2.2 rfl
  have cleaned : cleanMeta safe (printNat 10 item.content.length ++ 32 :: item.name) =
      printNat 10 item.content.length ++ 32 :: item.name := by
    have digits : cleanMeta safe (printNat 10 item.content.length) = printNat 10 item.content.length :=
      cleanMeta_of_plain fun c member => plain_of_mem_printNat member
    unfold cleanMeta at digits clean ⊢
    rw [List.map_append, List.map_cons, digits, clean]
    rfl
  have named : (32 :: item.name).dropWhile isSpace = item.name := by
    obtain ⟨c, name, text⟩ := List.exists_cons_of_ne_nil carried.named
    have solid : isSpace c = false := isSpace_of_plain (carried.plain c (text ▸ List.mem_cons_self))
    rw [text, List.dropWhile_cons, if_pos (by decide), List.dropWhile_cons, solid]
    rfl
  have joined : item.name.map (fun c => if c = 32 ∨ c = 9 then 95 else c) = item.name := by
    refine (List.map_congr_left fun c member => ?_).trans (List.map_id' item.name)
    have plain := carried.plain c member
    refine if_neg fun blank => ?_
    rcases blank with rfl | rfl
    · cases (plain : false = true)
    · cases (plain : false = true)
  have length : (item.content.length : Int) ≠ 0 := by omega
  unfold announcement
  rw [typed]
  dsimp only
  rw [show (headerText item).tail = printNat 10 item.content.length ++ 32 :: item.name from rfl, cstr_of_noNul noNul,
    cleaned, strtod_printNat small (by intro c head; cases head; decide)]
  dsimp only
  rw [named, clean, joined, if_neg]
  · rfl
  · rintro (negative | unnamed | ⟨empty, -⟩)
    · omega
    · exact carried.named unnamed
    · exact length empty

/-! ## Where the receiver is -/

/-- The receiver when it has agreed to a number of messages and has read a part of the next one. -/
inductive At (printer : Bytes) (items : List Item) : Nat → Bytes → Receiving → Prop
  | request {c t : Bytes} : c ++ t = requestText printer ++ [10] → t ≠ [] → At printer items 0 c ⟨.request c, []⟩
  | requested : At printer items 0 (requestText printer ++ [10]) ⟨.requested (requestText printer), []⟩
  | line {done later : List Item} {item : Item} {c t : Bytes} : items = done ++ item :: later →
      c ++ t = headerText item ++ [10] → t ≠ [] → At printer items (2 * done.length + 1) c ⟨.line c, done⟩
  | offered {done later : List Item} {item : Item} : items = done ++ item :: later →
      At printer items (2 * done.length + 1) (headerText item ++ [10])
        ⟨.offered item.type item.content.length item.name, done⟩
  | file {done later : List Item} {item : Item} {c : Bytes} {file : FileRead} : items = done ++ item :: later →
      file.At item.content c →
      At printer items (2 * done.length + 2) c ⟨.file item.type item.content.length item.name file, done⟩
  | finished : At printer items (2 * items.length + 1) [] ⟨.line [], items⟩

theorem length_itemMessages (items : List Item) :
    (items.flatMap fun item => [headerText item ++ [10], item.content ++ [0]]).length = 2 * items.length := by
  induction items with
  | nil => rfl
  | cons item items ih =>
      rw [List.flatMap_cons, List.length_append, ih, List.length_cons]
      dsimp only [List.length_cons, List.length_nil]
      omega

variable {items done later : List Item}

theorem messages_header (split : items = done ++ item :: later) :
    (messages printer items)[2 * done.length + 1]? = some (headerText item ++ [10]) := by
  rw [messages, split, List.getElem?_cons_succ, List.flatMap_append,
    List.getElem?_append_right (Nat.le_of_eq (length_itemMessages done)), length_itemMessages, Nat.sub_self]
  rfl

theorem messages_content (split : items = done ++ item :: later) :
    (messages printer items)[2 * done.length + 2]? = some (item.content ++ [0]) := by
  rw [messages, split, List.getElem?_cons_succ, List.flatMap_append,
    List.getElem?_append_right (by rw [length_itemMessages]; omega), length_itemMessages, Nat.add_sub_cancel_left]
  rfl

theorem messages_end : (messages printer items)[2 * items.length + 1]? = none := by
  rw [messages, List.getElem?_cons_succ]
  exact List.getElem?_eq_none (Nat.le_of_eq (length_itemMessages items))

/-- Between two files, the receiver waits for the header line of the next. -/
theorem At.between (split : items = done ++ later) : At printer items (2 * done.length + 1) [] ⟨.line [], done⟩ := by
  cases later with
  | nil =>
      rw [List.append_nil] at split
      exact split ▸ At.finished
  | cons item later => exact At.line split rfl (by simp)

/-! ## The receiver follows the messages -/

section

variable {maxJobSize k : Nat} {c s rest : Bytes} {r r' : Receiving}

theorem requestPhase_whole (queue : Queue safe printer) :
    requestPhase (.whole (requestText printer)) = .requested (requestText printer) :=
  if_pos (isRequest_cons queue.named reqRecv)

theorem linePhase_whole (carried : Carried safe item) :
    linePhase safe (.whole (headerText item)) = .offered item.type item.content.length item.name := by
  unfold linePhase
  dsimp only
  rw [announcement_headerText carried]

theorem At.reads (queue : Queue safe printer) (carried : ∀ item ∈ items, Carried safe item) (here : At printer items k c r)
    (read : Reads safe r s r') (next : (messages printer items)[k]? = some (c ++ s ++ rest)) :
    At printer items k (c ++ s) r' := by
  cases here with
  | request whole some =>
      cases read with
      | request ch =>
          have same : c ++ [ch] ++ rest = requestText printer ++ [10] := (Option.some.inj next).symm
          rcases lineByte_text (fun d member => solid_of_mem_requestText queue member) queue.short same with
            ⟨rfl, -, line⟩ | ⟨some, line⟩
          · rw [List.append_nil] at same
            rw [line, requestPhase_whole queue, same]
            exact At.requested
          · rw [line]
            exact At.request same some
  | requested => cases read
  | @line done later item _ _ split whole some =>
      have fits := carried item (split ▸ List.mem_append_right done List.mem_cons_self)
      cases read with
      | line ch =>
          have same : c ++ [ch] ++ rest = headerText item ++ [10] :=
            Option.some.inj (next.symm.trans (messages_header split))
          rcases lineByte_text (fun d member => solid_of_mem_headerText fits member) (length_headerText fits) same with
            ⟨rfl, -, line⟩ | ⟨some, line⟩
          · rw [List.append_nil] at same
            rw [line, linePhase_whole fits, same]
            exact At.offered split
          · rw [line]
            exact At.line split same some
  | offered split => cases read
  | @file done later item _ file split inside =>
      have same : c ++ s ++ rest = item.content ++ [0] := Option.some.inj (next.symm.trans (messages_content split))
      cases read with
      | file read => exact At.file split (inside.reads read same)
  | finished => exact absurd (next.symm.trans messages_end) (Option.some_ne_none _)

/-- Where bytes of the next message have arrived, the receiver reads some. -/
theorem At.canRead (here : At printer items k c r) {f : Bytes} (next : (messages printer items)[k]? = some (c ++ f ++ rest))
    (arrived : f ≠ []) : ∃ s t r', f = s ++ t ∧ s ≠ [] ∧ Reads safe r s r' := by
  have ended : c ++ f ++ rest ≠ c := fun same => by
    rw [List.append_assoc] at same
    exact arrived (List.append_eq_nil_iff.mp (List.self_eq_append_right.mp same.symm)).1
  cases here with
  | request whole some =>
      obtain ⟨ch, f', rfl⟩ := List.exists_cons_of_ne_nil arrived
      exact ⟨[ch], f', _, rfl, List.cons_ne_nil _ _, Reads.request ch⟩
  | requested => exact absurd (Option.some.inj next).symm ended
  | line split whole some =>
      obtain ⟨ch, f', rfl⟩ := List.exists_cons_of_ne_nil arrived
      exact ⟨[ch], f', _, rfl, List.cons_ne_nil _ _, Reads.line ch⟩
  | offered split => exact absurd (Option.some.inj (next.symm.trans (messages_header split))) ended
  | file split inside =>
      have same := Option.some.inj (next.symm.trans (messages_content split))
      obtain ⟨front, back, file', parts, some, read⟩ := inside.canRead same arrived
      exact ⟨front, back, _, parts, some, Reads.file read⟩
  | finished => exact absurd (next.symm.trans messages_end) (Option.some_ne_none _)

theorem readLimit_of_ne {len : Nat} (some : len ≠ 0) : readLimit maxJobSize len = len := if_neg some

theorem At.agrees (carried : ∀ item ∈ items, Carried safe item) (here : At printer items k c r)
    (agree : Agrees safe maxJobSize r r') : (messages printer items)[k]? = some c ∧ At printer items (k + 1) [] r' := by
  cases here with
  | request whole some => cases agree
  | requested =>
      cases agree
      have first : At printer items (2 * ([] : List Item).length + 1) [] ⟨.line [], []⟩ := At.between rfl
      exact ⟨rfl, first⟩
  | line split whole some => cases agree
  | @offered done later item split =>
      have fits := carried item (split ▸ List.mem_append_right done List.mem_cons_self)
      cases agree
      refine ⟨messages_header split, ?_⟩
      rw [readLimit_of_ne fun empty => fits.some (List.length_eq_zero_iff.mp empty)]
      exact At.file split (FileRead.at_fileRead fits.some)
  | @file done later item _ file split inside =>
      cases agree
      obtain ⟨rfl, rfl⟩ := inside.of_whole
      refine ⟨messages_content split, ?_⟩
      have next : items = (done ++ [item]) ++ later := by rw [split, List.append_assoc]; rfl
      have length : 2 * done.length + 2 + 1 = 2 * (done ++ [item]).length + 1 := by
        rw [List.length_append, List.length_singleton]
        omega
      rw [length]
      exact At.between next
  | finished => cases agree

/-- A part is not the whole. -/
theorem part_ne {α : Type} {c t m : List α} (whole : c ++ t = m) (some : t ≠ []) : c ≠ m := fun same =>
  some (List.self_eq_append_right.mp (same.trans whole.symm))

theorem At.canAgree (queue : Queue safe printer) (carried : ∀ item ∈ items, Carried safe item)
    (here : At printer items k c r) (next : (messages printer items)[k]? = some c) :
    ∃ r', Agrees safe maxJobSize r r' := by
  cases here with
  | request whole some => exact absurd (Option.some.inj next).symm (part_ne whole some)
  | requested =>
      have noNul : 0 ∉ printer := fun member => (solid_of_plain (queue.plain 0 member)).2.2 rfl
      refine ⟨_, Agrees.request ?_⟩
      rw [requestText, List.tail_cons, cstr_of_noNul noNul, cleanMeta_of_plain queue.plain,
        splitWords_word (fun ch member => isWhite_of_plainChar (queue.plain ch member)) queue.named]
      rfl
  | line split whole some =>
      exact absurd (Option.some.inj (next.symm.trans (messages_header split))) (part_ne whole some)
  | offered split => exact ⟨_, Agrees.offered⟩
  | @file done later item _ file split inside =>
      have fits := carried item (split ▸ List.mem_append_right done List.mem_cons_self)
      obtain rfl := Option.some.inj (next.symm.trans (messages_content split))
      obtain rfl := inside.of_all
      exact ⟨_, Agrees.file (fun empty => fits.some (List.length_eq_zero_iff.mp empty.2)) fun unlike => unlike.2 rfl⟩
  | finished => exact absurd (next.symm.trans messages_end) (Option.some_ne_none _)

theorem At.goesOn (here : At printer items k c r) (goes : GoesOn r r') :
    ∃ m, (messages printer items)[k]? = some m ∧ c.length < m.length ∧ At printer items k m r' := by
  cases here with
  | request whole some => cases goes
  | requested => cases goes
  | line split whole some => cases goes
  | offered split => cases goes
  | @file done later item _ file split inside =>
      cases goes with
      | file ends =>
          rcases inside.ends ends with ⟨rfl, whole⟩ | ⟨failed, -⟩
          · rw [whole]
            exact ⟨_, messages_content split, by rw [List.length_append, List.length_singleton]; omega,
              At.file split FileRead.At.whole⟩
          · cases failed
  | finished => cases goes

theorem At.ends (here : At printer items k c r) (part : (messages printer items)[k]? ≠ some c) :
    (∃ r', GoesOn r r') ∨ ∃ r', Finishes r r' := by
  cases here with
  | request whole some => exact Or.inr ⟨_, Finishes.request⟩
  | requested => exact absurd rfl part
  | line split whole some => exact Or.inr ⟨_, Finishes.line⟩
  | offered split => exact absurd (messages_header split) part
  | file split inside =>
      obtain ⟨file', ends⟩ := inside.canEnd fun whole => part (whole ▸ messages_content split)
      rcases inside.ends ends with ⟨-, rfl⟩ | ⟨rfl, -⟩
      · exact Or.inl ⟨_, GoesOn.file ends⟩
      · exact Or.inr ⟨_, Finishes.file ends⟩
  | finished => exact Or.inr ⟨_, Finishes.line⟩

/-- The receiver has agreed to the first files. -/
theorem At.first (here : At printer items k c r) : ∃ later, items = r.accepted ++ later := by
  cases here with
  | request whole some => exact ⟨items, rfl⟩
  | requested => exact ⟨items, rfl⟩
  | line split whole some => exact ⟨_, split⟩
  | offered split => exact ⟨_, split⟩
  | file split inside => exact ⟨_, split⟩
  | finished => exact ⟨[], (List.append_nil items).symm⟩

theorem length_messages : (messages printer items).length = 2 * items.length + 1 := by
  rw [messages, List.length_cons, length_itemMessages]

/-- Behind all messages, it has agreed to all files. -/
theorem At.all (here : At printer items (messages printer items).length c r) : r.accepted = items := by
  rw [length_messages] at here
  have past : (messages printer items)[2 * items.length + 1]? = none := messages_end
  generalize place : 2 * items.length + 1 = k at here past
  cases here with
  | request whole some => omega
  | requested => omega
  | line split whole some => exact absurd (past.symm.trans (messages_header split)) (Option.some_ne_none _).symm
  | offered split => exact absurd (past.symm.trans (messages_header split)) (Option.some_ne_none _).symm
  | file split inside => exact absurd (past.symm.trans (messages_content split)) (Option.some_ne_none _).symm
  | finished => rfl

theorem nonempty_of_mem_messages {m : Bytes} (member : m ∈ messages printer items) : m ≠ [] := by
  rcases List.mem_cons.mp member with rfl | member
  · simp
  · rcases List.mem_flatMap.mp member with ⟨item, -, member⟩
    rcases List.mem_cons.mp member with rfl | member
    · simp
    · rw [List.mem_singleton.mp member]
      simp

theorem serves (queue : Queue safe printer) (carried : ∀ item ∈ items, Carried safe item) :
    Serves (receiveJob safe maxJobSize) (messages printer items) ⟨.request [], []⟩ (At printer items)
      Receiving.accepted where
  start := At.request rfl (by simp)
  nonempty m member := nonempty_of_mem_messages member
  read here read next := here.reads queue carried read next
  reads here next arrived := here.canRead next arrived
  agree here agree := here.agrees carried agree
  agrees here next := here.canAgree queue carried next
  refuse _ refuses := refuses
  done _ done := done.elim
  goOn here goes := here.goesOn goes
  finish _ ends := by cases ends <;> rfl
  ends here part := (here.ends part).imp_right Or.inl

end

/-! ## Both ends -/

theorem headerLine_text (carried : Carried safe item) :
    headerLine item.type (printNat 10 item.content.length) item.name = headerText item ++ [10] := by
  have short := length_headerText carried
  unfold headerLine plpSnprintf
  rw [Segment.fmtString_of_plain carried.plain]
  refine List.take_of_length_le ?_
  rw [headerText, List.length_cons] at short
  rw [List.length_cons, List.length_append, List.length_singleton]
  exact Nat.le_of_lt (Nat.lt_of_lt_of_le (Nat.succ_lt_succ short) (by decide))

theorem controlMessages_eq (job : SendJob) (carried : Carried safe ⟨.control, job.transfername.val, job.image.val⟩) :
    controlMessages job = [headerText ⟨.control, job.transfername.val, job.image.val⟩ ++ [10], job.image.val ++ [0]] := by
  have small : job.image.val.length < 2 ^ 31 := carried.small
  have line := headerLine_text carried
  rw [controlMessages, toInt32_of_small small, printInt_natCast]
  exact congrArg (· :: _) line

theorem dataMessages_eq (file : SendFile) (carried : Carried safe ⟨.data, file.transfername.val, file.content⟩) :
    dataMessages file = [headerText ⟨.data, file.transfername.val, file.content⟩ ++ [10], file.content ++ [0]] := by
  have small : file.content.length < 2 ^ 53 := carried.small
  have line := headerLine_text carried
  rw [dataMessages, toDouble_of_lt small]
  exact congrArg (· :: _) line

theorem requestLine_text (queue : Queue safe printer) :
    plpSnprintf smallBuffer (reqRecv :: (fmtString printer ++ [10])) = requestText printer ++ [10] := by
  have short := queue.short
  unfold plpSnprintf
  rw [Segment.fmtString_of_plain queue.plain]
  refine List.take_of_length_le ?_
  rw [List.length_cons, List.length_append, List.length_singleton]
  exact Nat.le_of_lt (Nat.lt_of_lt_of_le (Nat.succ_lt_succ short) (by decide))

/-- `Send_normal` sends the messages for the files of the job. -/
theorem sendNormal_eq (queue : Queue safe printer) (dataFirst : Bool) (job : SendJob)
    (carried : ∀ item ∈ sentItems dataFirst job, Carried safe item) :
    sendNormal printer dataFirst job = messages printer (sentItems dataFirst job) := by
  have control : Carried safe ⟨.control, job.transfername.val, job.image.val⟩ := by
    refine carried _ ?_
    unfold sentItems
    split
    · exact List.mem_append_right _ (List.mem_singleton_self _)
    · exact List.mem_cons_self
  have data : ∀ file ∈ job.datafiles, Carried safe ⟨.data, file.transfername.val, file.content⟩ := by
    intro file member
    refine carried _ ?_
    unfold sentItems
    split
    · exact List.mem_append_left _ (List.mem_map.mpr ⟨file, member, rfl⟩)
    · exact List.mem_cons_of_mem _ (List.mem_map.mpr ⟨file, member, rfl⟩)
  have files : job.datafiles.flatMap dataMessages =
      (job.datafiles.map fun file : SendFile => (⟨.data, file.transfername.val, file.content⟩ : Item)).flatMap
        fun item => [headerText item ++ [10], item.content ++ [0]] := by
    rw [List.flatMap_map]
    exact List.flatMap_congr fun file member => dataMessages_eq file (data file member)
  unfold sendNormal messages sentItems
  rw [requestLine_text queue, controlMessages_eq job control, files]
  refine congrArg _ ?_
  cases dataFirst with
  | true =>
      dsimp only
      rw [if_pos rfl, if_pos rfl, List.flatMap_append, List.flatMap_singleton]
  | false =>
      dsimp only
      rw [if_neg Bool.false_ne_true, if_neg Bool.false_ne_true, List.flatMap_cons]

section

variable {dataFirst : Bool} {job : SendJob} {kinds : List Kind} {s : Link Receiving UInt8}

theorem serves_sendNormal (maxJobSize : Nat) (queue : Queue safe printer)
    (carried : ∀ item ∈ sentItems dataFirst job, Carried safe item) :
    Serves (receiveJob safe maxJobSize) (sendNormal printer dataFirst job) ⟨.request [], []⟩
      (At printer (sentItems dataFirst job)) Receiving.accepted :=
  sendNormal_eq queue dataFirst job carried ▸ serves queue carried

theorem queue_lp : Queue [] (lit "lp") := ⟨by decide, by decide, by decide⟩

theorem carried_plainJob : ∀ item ∈ sentItems true (plainJob [0, 10, 65] (by decide)), Carried [] item := by
  intro item member
  rcases List.mem_cons.mp member with rfl | member
  · exact ⟨by decide, by decide, by decide, by decide, by decide⟩
  · rw [List.mem_singleton.mp member]
    exact ⟨by decide, by decide, by decide, by decide, by decide⟩

end

end FileTransfer

end LPRng
