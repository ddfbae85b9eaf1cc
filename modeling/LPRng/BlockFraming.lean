import LPRng.HeaderLine
import LPRng.UpdateStatus

/-!
# The framing of a block transfer

In a block transfer the sender writes the control file and the data files of a job into
one file, each behind a header line, and the receiver takes that file apart again. What
the receiver does with the parts is left to later modules; here a stream is taken apart
into the files it announces and the lines that announce nothing.
-/

namespace LPRng

/-- `CONTROL_FILE` and `DATA_FILE`. -/
inductive FileType where
  | control | data
  deriving DecidableEq, Repr

def FileType.byte : FileType → UInt8
  | control => 2
  | data => 3

/-- The type a line starts with. -/
def fileType (line : Bytes) : Option FileType :=
  match line with
  | 2 :: _ => some .control
  | 3 :: _ => some .data
  | _ => none

/-! ## Taking a stream apart -/

/-- What `Scan_block_file` makes of one line: no header line, a header line without
length or name, or a file. -/
inductive Header where
  | skip
  | bad
  | file (type : FileType) (len : Int) (name : Bytes)
  deriving DecidableEq

def readHeader (safe line : Bytes) : Header :=
  match fileType line with
  | none => .skip
  | some type =>
      match splitWords (cleanMeta safe (cstr line.tail)) with
      | [len, name] => .file type (atoi len) name
      | _ => .bad

/-- A part of a stream. -/
inductive Scanned where
  | skipped (line : Bytes)
  | file (type : FileType) (name : Bytes) (len : Int) (content : Bytes)
  deriving DecidableEq

/-- How a scan ends: at the end of the stream with some bytes that are no line, at a bad
header line, or within a file. -/
inductive ScanEnd where
  | eof (left : Bytes)
  | badLength (line : Bytes)
  | shortRead
  deriving DecidableEq

/-- `LINEBUFFER`. -/
def lineBuffer : Nat := 180

/-- The loop of `Scan_block_file`, for at most the given number of lines. -/
def scanLines (safe : Bytes) : Nat → Bytes → List Scanned × ScanEnd
  | 0, s => ([], .eof s)
  | n + 1, s =>
      match readOneLine (lineBuffer - 1) s with
      | none => ([], .eof s)
      | some (line, rest) =>
          match readHeader safe line with
          | .skip => (scanLines safe n rest).map (.skipped line :: ·) id
          | .bad => ([], .badLength line)
          | .file type len name =>
              if rest.length < len.toNat then ([], .shortRead)
              else (scanLines safe n (rest.drop len.toNat)).map
                (.file type name len (rest.take len.toNat) :: ·) id

/-- The parts of a stream. Every line takes a byte, so that the length of the stream is
enough. -/
def scan (safe s : Bytes) : List Scanned × ScanEnd := scanLines safe s.length s

variable {safe : Bytes}

theorem scanLines_fuel {n m : Nat} {s : Bytes} (first : s.length ≤ n) (second : s.length ≤ m) :
    scanLines safe n s = scanLines safe m s := by
  induction n generalizing m s with
  | zero =>
      rw [List.length_eq_zero_iff.mp (Nat.le_zero.mp first)]
      cases m <;> rfl
  | succ n ih =>
      cases m with
      | zero =>
          rw [List.length_eq_zero_iff.mp (Nat.le_zero.mp second)]
          rfl
      | succ m =>
          unfold scanLines
          cases read : readOneLine (lineBuffer - 1) s with
          | none => rfl
          | some parts =>
              obtain ⟨line, rest⟩ := parts
              have shorter : rest.length < s.length := readOneLine_length read
              dsimp only
              cases header : readHeader safe line with
              | skip =>
                  dsimp only
                  rw [ih (m := m) (by omega) (by omega)]
              | bad => rfl
              | file type len name =>
                  dsimp only
                  have dropped : (rest.drop len.toNat).length ≤ rest.length := by
                    rw [List.length_drop]
                    omega
                  rw [ih (m := m) (by omega) (by omega)]

theorem scan_nil : scan safe [] = ([], .eof []) := rfl

/-- One turn of the loop. -/
theorem scan_line {s line rest : Bytes} (read : readOneLine (lineBuffer - 1) s = some (line, rest)) :
    scan safe s =
      match readHeader safe line with
      | .skip => (scan safe rest).map (.skipped line :: ·) id
      | .bad => ([], .badLength line)
      | .file type len name =>
          if rest.length < len.toNat then ([], .shortRead)
          else (scan safe (rest.drop len.toNat)).map
            (.file type name len (rest.take len.toNat) :: ·) id := by
  have shorter : rest.length < s.length := readOneLine_length read
  have enough : ∀ t : Bytes, t.length ≤ rest.length →
      scanLines safe (s.length - 1) t = scan safe t := fun t short =>
    scanLines_fuel (by omega) le_rfl
  have unrolled : scan safe s = scanLines safe (s.length - 1 + 1) s := by
    rw [Nat.sub_add_cancel (by omega)]
    rfl
  rw [unrolled, scanLines, read]
  dsimp only
  rw [enough rest le_rfl]
  cases header : readHeader safe line with
  | skip => rfl
  | bad => rfl
  | file type len name =>
      dsimp only
      rw [enough (rest.drop len.toNat) (by rw [List.length_drop]; omega)]

theorem scan_noLine {s : Bytes} (atEnd : readOneLine (lineBuffer - 1) s = none) :
    scan safe s = ([], .eof s) := by
  unfold scan
  cases s with
  | nil => rfl
  | cons c cs =>
      rw [List.length_cons, scanLines, atEnd]

/-- An empty line announces nothing. -/
theorem scan_newline (rest : Bytes) :
    scan safe (10 :: rest) = (scan safe rest).map (.skipped [] :: ·) id := by
  have read : readOneLine (lineBuffer - 1) (10 :: rest) = some ([], rest) := rfl
  exact scan_line read

/-! ## Sending -/

/-- A text in memory of a C program. -/
abbrev CText := { s : Bytes // 0 ∉ s }

/-- The value of a count of bytes as a `double`: exact below 2^53, else rounded to 53
binary digits. -/
def toDouble (n : Nat) : Nat :=
  if n < 2 ^ 53 then n
  else
    let unit := 2 ^ (n.log2 - 52)
    let up := 2 * (n % unit) > unit ∨ 2 * (n % unit) = unit ∧ n / unit % 2 = 1
    (n / unit + if up then 1 else 0) * unit

theorem toDouble_of_lt {n : Nat} (small : n < 2 ^ 53) : toDouble n = n := if_pos small

/-- A regular data file, as the reads of it return its bytes. -/
structure SendFile where
  transfername : CText
  readable : Bool
  reads : List Bytes
  progress : [] ∉ reads

def SendFile.content (file : SendFile) : Bytes := file.reads.flatten

/-- A job to be sent: the name and the image of its control file, and its data files. -/
structure SendJob where
  transfername : CText
  image : CText
  datafiles : List SendFile

/-- The file a block transfer is put together in, and the room that is left for it. -/
structure TempFile where
  bytes : Bytes
  room : Nat

/-- A write stores all bytes or fails. -/
def TempFile.write (file : TempFile) (s : Bytes) : Except Status TempFile :=
  if s.length ≤ file.room then .ok ⟨file.bytes ++ s, file.room - s.length⟩ else .error .jfail

/-- `SMALLBUFFER`. -/
def smallBuffer : Nat := 512

/-- The header line of a file, with its line end. -/
def headerLine (type : FileType) (size name : Bytes) : Bytes :=
  plpSnprintf smallBuffer (type.byte :: (size ++ 32 :: fmtString name ++ [10]))

/-- `Send_control` into the block file. The size is an `int`. -/
def sendControl (job : SendJob) (file : TempFile) : Except Status TempFile :=
  (file.write (headerLine .control (printInt (toInt32 job.image.val.length))
    job.transfername.val)).bind fun file => file.write job.image.val

/-- The copy loop of `Send_data_files`, with the bytes copied so far. -/
def copyFile (size : Nat) : Nat → List Bytes → TempFile → Except Status (Nat × TempFile)
  | total, [], file => .ok (total, file)
  | total, msg :: reads, file =>
      if total < size then
        (file.write msg).bind (copyFile size (toDouble (total + msg.length)) reads)
      else .ok (total, file)

/-- One turn of `Send_data_files` into the block file. -/
def sendDataFile (datafile : SendFile) (file : TempFile) : Except Status TempFile :=
  if datafile.readable = false then .error .jfailnoretry
  else if datafile.content.length = 0 then .error .jabort
  else
    let size := toDouble datafile.content.length
    (file.write (headerLine .data (printNat 10 size) datafile.transfername.val)).bind fun file =>
      (copyFile size 0 datafile.reads file).bind fun (total, file) =>
        if total = size then .ok file else .error .jfail

/-- `Send_data_files` into the block file. -/
def sendDataFiles (datafiles : List SendFile) (file : TempFile) : Except Status TempFile :=
  datafiles.foldlM (fun file datafile => sendDataFile datafile file) file

/-- `Send_normal` into an empty block file: the control file goes first. -/
def sendBlock (job : SendJob) (room : Nat) : Except Status TempFile :=
  (sendControl job ⟨[], room⟩).bind (sendDataFiles job.datafiles)

theorem write_ok {file : TempFile} {s : Bytes} (fits : s.length ≤ file.room) :
    file.write s = .ok ⟨file.bytes ++ s, file.room - s.length⟩ := if_pos fits

theorem copyFile_ok {size total : Nat} {reads : List Bytes} (file : TempFile)
    (progress : [] ∉ reads) (counted : total + reads.flatten.length = size)
    (small : size < 2 ^ 53) (fits : reads.flatten.length ≤ file.room) :
    ∃ file', copyFile size total reads file = .ok (size, file') := by
  induction reads generalizing total file with
  | nil =>
      obtain rfl : total = size := counted
      exact ⟨file, rfl⟩
  | cons msg reads ih =>
      have some_bytes : 0 < msg.length := List.length_pos_of_ne_nil fun same =>
        progress (same ▸ List.mem_cons_self)
      rw [List.flatten_cons, List.length_append] at counted fits
      rw [copyFile, if_pos (by omega), write_ok (by omega)]
      dsimp only [Except.bind]
      rw [toDouble_of_lt (by omega)]
      exact ih _ (fun member => progress (List.mem_cons_of_mem msg member)) (by omega)
        (by dsimp only; omega)

theorem headerLine_length (type : FileType) (size name : Bytes) :
    (headerLine type size name).length < smallBuffer :=
  (List.length_take_le ..).trans_lt (by decide)

/-- A control file is sent if there is room for it. -/
theorem sendControl_ok (job : SendJob) (file : TempFile)
    (fits : job.image.val.length + smallBuffer ≤ file.room) :
    ∃ file', sendControl job file = .ok file' ∧
      file.room ≤ file'.room + (job.image.val.length + smallBuffer) := by
  have header := headerLine_length .control (printInt (toInt32 job.image.val.length))
    job.transfername.val
  unfold sendControl
  rw [write_ok (by omega)]
  dsimp only [Except.bind]
  rw [write_ok (by dsimp only; omega)]
  exact ⟨_, rfl, by dsimp only; omega⟩

/-- A readable file that is not empty is sent if there is room for it. -/
theorem sendDataFile_ok (datafile : SendFile) (file : TempFile)
    (readable : datafile.readable = true) (nonempty : datafile.content.length ≠ 0)
    (small : datafile.content.length < 2 ^ 53)
    (fits : datafile.content.length + smallBuffer ≤ file.room) :
    ∃ file', sendDataFile datafile file = .ok file' := by
  have header := headerLine_length .data (printNat 10 datafile.content.length)
    datafile.transfername.val
  unfold sendDataFile
  rw [readable, if_neg (nomatch ·), if_neg nonempty]
  dsimp only
  rw [toDouble_of_lt small, write_ok (by omega)]
  obtain ⟨file', copied⟩ := copyFile_ok
    ⟨_, file.room - (headerLine .data (printNat 10 datafile.content.length)
      datafile.transfername.val).length⟩
    datafile.progress (Nat.zero_add _) small (by dsimp only; unfold SendFile.content at fits; omega)
  refine ⟨file', ?_⟩
  dsimp only [Except.bind]
  unfold SendFile.content at copied ⊢
  rw [copied]
  exact if_pos rfl

/-! ## The parts of a stream that was sent -/

/-- A file as it is to arrive. -/
structure Item where
  type : FileType
  name : Bytes
  content : Bytes

/-- The files of a job, in the order they are sent. -/
def SendJob.items (job : SendJob) : List Item :=
  ⟨.control, job.transfername.val, job.image.val⟩ ::
    job.datafiles.map fun datafile => ⟨.data, datafile.transfername.val, datafile.content⟩

def Item.scanned (item : Item) : Scanned :=
  .file item.type item.name item.content.length item.content

/-- The file fits the header line: its length is an `int`, its name arrives as it is, and
the line fits the buffer of the receiver together with its line end. -/
structure Item.Fits (safe : Bytes) (item : Item) : Prop where
  named : item.name ≠ []
  plain : ∀ c ∈ item.name, plainChar safe c = true
  small : item.content.length < 2 ^ 31
  short : (printNat 10 item.content.length).length + item.name.length + 2 < lineBuffer - 1

/-- A file as it was sent: with the printed length and the bytes copied, which are the
ones of the file if its length is an `int`. -/
structure Segment extends Item where
  size : Bytes
  body : Bytes
  noNul : 0 ∉ name
  digits : ∀ c ∈ size, isDigit c = true ∨ c = 45
  nonempty : size ≠ []
  copied : content.length < 2 ^ 31 → body = content ∧ size = printNat 10 content.length

def Segment.bytes (segment : Segment) : Bytes :=
  headerLine segment.type segment.size segment.name ++ segment.body

theorem write_bytes {file file' : TempFile} {s : Bytes} (wrote : file.write s = .ok file') :
    file'.bytes = file.bytes ++ s := by
  unfold TempFile.write at wrote
  split at wrote
  · obtain rfl := Except.ok.inj wrote
    rfl
  · cases wrote

theorem bind_ok {α β : Type} {x : Except Status α} {f : α → Except Status β} {b : β}
    (ran : x.bind f = .ok b) : ∃ a, x = .ok a ∧ f a = .ok b := by
  cases x with
  | error e => cases ran
  | ok a => exact ⟨a, rfl, ran⟩

/-- What the copy loop writes. -/
theorem copyFile_bytes {size total total' : Nat} {reads : List Bytes} {file file' : TempFile}
    (ran : copyFile size total reads file = .ok (total', file')) :
    ∃ body, file'.bytes = file.bytes ++ body := by
  induction reads generalizing total file with
  | nil =>
      obtain ⟨-, rfl⟩ := Prod.mk.inj (Except.ok.inj ran)
      exact ⟨[], (List.append_nil _).symm⟩
  | cons msg reads ih =>
      unfold copyFile at ran
      split at ran
      · obtain ⟨written, wrote, ran⟩ := bind_ok ran
        obtain ⟨body, copied⟩ := ih ran
        exact ⟨msg ++ body, by rw [copied, write_bytes wrote, List.append_assoc]⟩
      · obtain ⟨-, rfl⟩ := Prod.mk.inj (Except.ok.inj ran)
        exact ⟨[], (List.append_nil _).symm⟩

/-- A file a `double` can count is copied whole. -/
theorem copyFile_whole {size total total' : Nat} {reads : List Bytes} {file file' : TempFile}
    (progress : [] ∉ reads) (counted : total + reads.flatten.length = size)
    (small : size < 2 ^ 53) (ran : copyFile size total reads file = .ok (total', file')) :
    file'.bytes = file.bytes ++ reads.flatten := by
  induction reads generalizing total file with
  | nil =>
      obtain ⟨-, rfl⟩ := Prod.mk.inj (Except.ok.inj ran)
      exact (List.append_nil _).symm
  | cons msg reads ih =>
      have some_bytes : 0 < msg.length := List.length_pos_of_ne_nil fun same =>
        progress (same ▸ List.mem_cons_self)
      rw [List.flatten_cons, List.length_append] at counted
      rw [copyFile, if_pos (by omega)] at ran
      obtain ⟨written, wrote, ran⟩ := bind_ok ran
      rw [toDouble_of_lt (by omega)] at ran
      rw [ih (fun member => progress (List.mem_cons_of_mem msg member)) (by omega) ran,
        write_bytes wrote, List.append_assoc, List.flatten_cons]

/-- A data file that was sent is a segment of the stream. -/
theorem sendDataFile_segment {datafile : SendFile} {file file' : TempFile}
    (sent : sendDataFile datafile file = .ok file') :
    ∃ segment : Segment,
      segment.toItem = ⟨.data, datafile.transfername.val, datafile.content⟩ ∧
      file'.bytes = file.bytes ++ segment.bytes := by
  unfold sendDataFile at sent
  split at sent
  · cases sent
  · split at sent
    · cases sent
    · obtain ⟨headed, header, sent⟩ := bind_ok sent
      obtain ⟨⟨total, copied⟩, copy, sent⟩ := bind_ok sent
      have done : copied = file' := by
        dsimp only at sent
        split at sent
        · exact Except.ok.inj sent
        · cases sent
      obtain ⟨body, written⟩ := copyFile_bytes copy
      have whole : datafile.content.length < 2 ^ 31 → body = datafile.content ∧
          printNat 10 (toDouble datafile.content.length) =
            printNat 10 datafile.content.length := by
        intro small
        have bounded : datafile.reads.flatten.length < 2 ^ 53 := small.trans (by decide)
        have exact_size : toDouble datafile.content.length = datafile.content.length :=
          toDouble_of_lt bounded
        rw [exact_size] at copy
        have all := copyFile_whole datafile.progress (Nat.zero_add _) bounded copy
        exact ⟨List.append_cancel_left (written.symm.trans all), congrArg _ exact_size⟩
      subst done
      refine ⟨⟨⟨.data, datafile.transfername.val, datafile.content⟩, _, body,
        datafile.transfername.property, fun c member => .inl (isDigit_of_mem_printNat member),
        printNat_ne_nil (by decide) _, whole⟩, rfl, ?_⟩
      rw [written, write_bytes header, List.append_assoc]
      rfl

theorem sendDataFiles_segments {datafiles : List SendFile} {file file' : TempFile}
    (sent : sendDataFiles datafiles file = .ok file') :
    ∃ segments : List Segment,
      segments.map Segment.toItem = datafiles.map
        (fun datafile => ⟨.data, datafile.transfername.val, datafile.content⟩) ∧
      file'.bytes = file.bytes ++ segments.flatMap Segment.bytes := by
  induction datafiles generalizing file with
  | nil =>
      obtain rfl := Except.ok.inj sent
      exact ⟨[], rfl, (List.append_nil _).symm⟩
  | cons datafile datafiles ih =>
      obtain ⟨next, first, sent⟩ := bind_ok sent
      obtain ⟨segment, item, wrote⟩ := sendDataFile_segment first
      obtain ⟨segments, items, written⟩ := ih sent
      exact ⟨segment :: segments, by rw [List.map_cons, List.map_cons, item, items],
        by rw [written, wrote, List.append_assoc, List.flatMap_cons]⟩

/-- A job that was sent is a stream of segments. -/
theorem sendBlock_segments {job : SendJob} {room : Nat} {file : TempFile}
    (sent : sendBlock job room = .ok file) :
    ∃ segments : List Segment,
      segments.map Segment.toItem = job.items ∧ file.bytes = segments.flatMap Segment.bytes := by
  obtain ⟨controlled, control, sent⟩ := bind_ok sent
  obtain ⟨headed, header, image⟩ := bind_ok control
  obtain ⟨segments, items, written⟩ := sendDataFiles_segments sent
  have sized : job.image.val.length < 2 ^ 31 → job.image.val = job.image.val ∧
      printInt (toInt32 job.image.val.length) = printNat 10 job.image.val.length := by
    intro small
    rw [toInt32_of_small small, printInt_natCast]
    exact ⟨rfl, rfl⟩
  refine ⟨⟨⟨.control, job.transfername.val, job.image.val⟩, _, job.image.val,
    job.transfername.property, fun c member => digit_of_mem_printInt member,
    printInt_ne_nil _, sized⟩ :: segments, ?_, ?_⟩
  · rw [List.map_cons, items]
    rfl
  · have controlledBytes := write_bytes image
    rw [write_bytes header] at controlledBytes
    rw [written, controlledBytes, List.flatMap_cons]
    dsimp only [Segment.bytes, List.nil_append]

/-! ## Round trip -/

namespace Segment

variable (segment : Segment)

/-- The header line without its line end. -/
def text : Bytes := segment.type.byte :: (segment.size ++ 32 :: fmtString segment.name)

theorem plain_of_mem_size {c : UInt8} (member : c ∈ segment.size) : plainChar safe c = true := by
  rcases segment.digits c member with digit | rfl
  · exact plainChar_of_alnum (by unfold isAlnum; rw [digit, Bool.or_true])
  · unfold plainChar
    rw [isMeta_of_lessSafe (by decide)]
    rfl

theorem solid_of_mem_size {c : UInt8} (member : c ∈ segment.size) : isWhite c = false :=
  isWhite_of_plainChar (segment.plain_of_mem_size member : plainChar [] c = true)

theorem noNul_size : 0 ∉ segment.size := fun member =>
  absurd (segment.plain_of_mem_size member : plainChar [] 0 = true) (by decide)

/-- Of a line that is read at the start of a segment nothing is beyond the header line. -/
theorem line_prefix {segment : Segment} {rest line after : Bytes}
    (read : readOneLine (lineBuffer - 1) (segment.bytes ++ rest) = some (line, after)) :
    line <+: segment.text := by
  obtain ⟨single, ends⟩ := readOneLine_spec read
  have short : line.length ≤ 179 := by
    rcases ends with ⟨short, -⟩ | ⟨full, -⟩
    · exact Nat.le_of_lt short
    · exact Nat.le_of_eq full
  have front : line <+: segment.bytes ++ rest := by
    rcases ends with ⟨-, same⟩ | ⟨-, same⟩
    · exact ⟨_, same.symm⟩
    · exact ⟨_, same.symm⟩
  have header : headerLine segment.type segment.size segment.name <+: segment.bytes ++ rest :=
    ⟨segment.body ++ rest, (List.append_assoc ..).symm⟩
  have lines : headerLine segment.type segment.size segment.name <+: segment.text ++ [10] :=
    List.take_prefix ..
  have size : (headerLine segment.type segment.size segment.name).length =
      min 511 (segment.text.length + 1) := by
    unfold headerLine plpSnprintf
    rw [List.length_take, ← List.cons_append, List.length_append]
    rfl
  rcases Nat.lt_or_ge segment.text.length line.length with long | fits
  · -- the line end of the header line would be part of the line
    have inner : segment.text ++ [10] <+: line := by
      have whole : headerLine segment.type segment.size segment.name = segment.text ++ [10] :=
        lines.eq_of_length (by rw [size, List.length_append]; exact Nat.min_eq_right (by omega))
      rw [← whole]
      exact List.prefix_of_prefix_length_le header front (by omega)
    exact absurd (inner.subset (List.mem_append_right _ List.mem_cons_self)) single
  · have inner : line <+: headerLine segment.type segment.size segment.name :=
      List.prefix_of_prefix_length_le front header (by omega)
    have within : line <+: segment.text ++ [10] := inner.trans lines
    exact List.prefix_of_prefix_length_le within (List.prefix_append ..) fits

/-- A name of plain characters is printed as it is. -/
theorem fmtString_of_plain {name : Bytes} (plain : ∀ c ∈ name, plainChar safe c = true) :
    fmtString name = name :=
  fmtString_of_visible fun c member => by
    have shape := plain c member
    simp only [plainChar, Bool.and_eq_true, Bool.not_eq_true'] at shape
    exact shape.1.2

/-- If the name is found, then nothing of the line is missing. -/
theorem words_of_prefix {segment : Segment} {line lenText : Bytes}
    (front : line <+: segment.size ++ 32 :: fmtString segment.name)
    (words : splitWords (cleanMeta safe (cstr line)) = [lenText, segment.name]) :
    line = segment.size ++ 32 :: segment.name ∧ segment.name ≠ [] ∧
      (∀ c ∈ segment.name, plainChar safe c = true) ∧ lenText = segment.size := by
  have noNul : 0 ∉ line := by
    intro member
    rcases List.mem_append.mp (front.subset member) with inSize | inName
    · exact segment.noNul_size inSize
    · rcases List.mem_cons.mp inName with blank | inName
      · exact absurd blank (by decide)
      · exact noNul_fmtString _ inName
  rw [cstr_of_noNul noNul] at words
  rcases Nat.lt_or_ge segment.size.length line.length with long | short
  · -- the line goes on behind the blank
    have blank : segment.size ++ [32] <+: line := by
      refine List.prefix_of_prefix_length_le ⟨fmtString segment.name, ?_⟩ front ?_
      · rw [List.append_assoc]
        rfl
      · rw [List.length_append]
        exact long
    obtain ⟨name, rfl⟩ := blank
    rw [List.append_assoc, List.singleton_append] at front words ⊢
    have inner : name <+: fmtString segment.name :=
      (List.cons_prefix_cons.mp ((List.prefix_append_right_inj _).mp front)).2
    have cleaned : cleanMeta safe (segment.size ++ 32 :: name) =
        segment.size ++ 32 :: cleanMeta safe name := by
      unfold cleanMeta
      rw [List.map_append, List.map_cons]
      have kept := cleanMeta_of_plain fun c member =>
        (segment.plain_of_mem_size member : plainChar safe c = true)
      unfold cleanMeta at kept
      rw [kept, show cleanChar safe 32 = 32 from rfl]
    rw [cleaned, splitWords_append fun c member => segment.solid_of_mem_size member] at words
    obtain ⟨sizeEq, words⟩ := List.cons.inj words
    have plain : ∀ c ∈ segment.name, plainChar safe c = true :=
      plain_of_mem_splitWords (fun c member => visible_of_mem_fmtString (inner.subset member))
        (words ▸ List.mem_cons_self)
    rw [fmtString_of_plain plain] at inner
    have plainName : ∀ c ∈ name, plainChar safe c = true :=
      fun c member => plain c (inner.subset member)
    rw [cleanMeta_of_plain plainName] at words
    have nonempty : name ≠ [] := by
      intro empty
      rw [empty] at words
      cases words
    rw [splitWords_word (fun c member => isWhite_of_plainChar (plainName c member)) nonempty]
      at words
    obtain ⟨rfl, -⟩ := List.cons.inj words
    exact ⟨rfl, nonempty, plain, sizeEq.symm⟩
  · -- the line ends within the length: there is no second word
    have inner : line <+: segment.size :=
      List.prefix_of_prefix_length_le front (List.prefix_append ..) short
    rw [cleanMeta_of_plain fun c member => segment.plain_of_mem_size (inner.subset member)] at words
    cases line with
    | nil => cases words
    | cons c cs =>
        rw [splitWords_word (fun d member => segment.solid_of_mem_size (inner.subset member))
          (List.cons_ne_nil c cs)] at words
        cases words

/-- A header line with the right name is the whole line, and the name is plain. -/
theorem header_of_prefix {segment : Segment} {line : Bytes} {type : FileType} {len : Int}
    (front : line <+: segment.text)
    (header : readHeader safe line = .file type len segment.name) :
    line = segment.text ∧ segment.name ≠ [] ∧ (∀ c ∈ segment.name, plainChar safe c = true) ∧
      len = atoi segment.size := by
  unfold readHeader at header
  split at header
  · cases header
  · split at header
    · next lenText name words =>
        injection header with _ lenEq nameEq
        subst nameEq lenEq
        cases line with
        | nil => cases words
        | cons first line =>
            unfold text at front ⊢
            obtain ⟨sameFirst, front⟩ := List.cons_prefix_cons.mp front
            rw [List.tail_cons] at words
            obtain ⟨whole, nonempty, plain, size⟩ := words_of_prefix front words
            exact ⟨by rw [sameFirst, whole, fmtString_of_plain plain], nonempty, plain,
              congrArg atoi size⟩
    · cases header

/-- The header line of a file that fits is read as it was printed. -/
theorem readHeader_text {segment : Segment} (fits : segment.toItem.Fits safe) :
    readHeader safe segment.text =
      .file segment.type segment.content.length segment.name := by
  obtain ⟨-, size⟩ := segment.copied fits.small
  have solid : ∀ c ∈ segment.name, isWhite c = false :=
    fun c member => isWhite_of_plainChar (fits.plain c member)
  have plainTail : ∀ c ∈ segment.size ++ 32 :: segment.name, c ≠ 0 ∧ cleanChar safe c = c := by
    intro c member
    rcases List.mem_append.mp member with inSize | inName
    · exact ⟨fun nul => segment.noNul_size (nul ▸ inSize),
        cleanChar_of_plainChar (segment.plain_of_mem_size inSize)⟩
    · rcases List.mem_cons.mp inName with rfl | inName
      · exact ⟨by decide, rfl⟩
      · exact ⟨fun nul => segment.noNul (nul ▸ inName),
          cleanChar_of_plainChar (fits.plain c inName)⟩
  have words : splitWords (cleanMeta safe (cstr (segment.size ++ 32 :: segment.name))) =
      [segment.size, segment.name] := by
    rw [cstr_of_noNul fun nul => (plainTail 0 nul).1 rfl, cleanMeta,
      List.map_congr_left fun c member => (plainTail c member).2, List.map_id',
      splitWords_append fun c member => segment.solid_of_mem_size member,
      splitWords_word solid fits.named]
  have typed : fileType segment.text = some segment.type := by
    unfold text
    cases segment.type <;> rfl
  have length : atoi segment.size = segment.content.length := by
    rw [size, ← List.append_nil (printNat 10 _), atoi_printNat (fits.small.trans (by decide))
      (stopsDigits_nil 10), toInt32_of_small fits.small]
  unfold readHeader
  rw [typed]
  dsimp only [text, List.tail_cons]
  rw [fmtString_of_plain fits.plain, words]
  dsimp only
  rw [length]

/-- The header line of a file that fits leaves room for its line end. -/
theorem text_length {segment : Segment} (fits : segment.toItem.Fits safe) :
    segment.text.length < lineBuffer - 1 ∧ 10 ∉ segment.text := by
  obtain ⟨-, size⟩ := segment.copied fits.small
  refine ⟨?_, ?_⟩
  · have short := fits.short
    unfold text
    rw [fmtString_of_plain fits.plain, List.length_cons, List.length_append, List.length_cons, size]
    omega
  · intro member
    unfold text at member
    rcases List.mem_cons.mp member with first | member
    · cases type : segment.type <;> rw [type] at first <;> cases first
    · rcases List.mem_append.mp member with inSize | member
      · exact absurd (segment.solid_of_mem_size inSize) (by decide)
      · rcases List.mem_cons.mp member with blank | inName
        · cases blank
        · rw [fmtString_of_plain fits.plain] at inName
          exact absurd (isWhite_of_plainChar (fits.plain 10 inName)) (by decide)

/-- A header line that is not cut off by the sender. -/
theorem bytes_eq {segment : Segment} (short : segment.text.length < smallBuffer - 1) :
    segment.bytes = segment.text ++ 10 :: segment.body := by
  have whole : headerLine segment.type segment.size segment.name = segment.text ++ [10] := by
    unfold headerLine plpSnprintf
    rw [← List.cons_append]
    refine List.take_of_length_le ?_
    rw [List.length_append]
    exact short
  unfold bytes
  rw [whole, List.append_assoc]
  rfl

end Segment

/-- A line end in front of a text that is repeated without it stands behind the text. -/
theorem newlines_of_shift {content rest after : Bytes}
    (shifted : 10 :: (content ++ rest) = content ++ after) : after = 10 :: rest := by
  induction content with
  | nil => exact shifted.symm
  | cons c cs ih =>
      obtain ⟨first, later⟩ := List.cons.inj shifted
      refine ih ?_
      rw [first]
      exact later

/-- A scan that starts with a file: its header line, and what follows. -/
theorem scan_file {s : Bytes} {item : Item} {parts : List Scanned} {ends : ScanEnd}
    (scanned : scan safe s = (item.scanned :: parts, ends)) :
    ∃ line after, readOneLine (lineBuffer - 1) s = some (line, after) ∧
      readHeader safe line = .file item.type item.content.length item.name ∧
      after.take item.content.length = item.content ∧
      scan safe (after.drop item.content.length) = (parts, ends) := by
  cases read : readOneLine (lineBuffer - 1) s with
  | none =>
      rw [scan_noLine read] at scanned
      cases (Prod.mk.inj scanned).1
  | some parsed =>
      obtain ⟨line, after⟩ := parsed
      rw [scan_line read] at scanned
      refine ⟨line, after, rfl, ?_⟩
      cases header : readHeader safe line with
      | skip =>
          rw [header] at scanned
          cases (List.cons.inj (Prod.mk.inj scanned).1).1
      | bad =>
          rw [header] at scanned
          cases (Prod.mk.inj scanned).1
      | file type len name =>
          rw [header] at scanned
          dsimp only at scanned
          split at scanned
          · cases (Prod.mk.inj scanned).1
          · obtain ⟨list, last⟩ := Prod.mk.inj scanned
            obtain ⟨first, later⟩ := List.cons.inj list
            injection first with typeEq nameEq lenEq contentEq
            subst typeEq nameEq lenEq
            rw [Int.toNat_natCast] at contentEq later last
            exact ⟨rfl, contentEq, Prod.ext later last⟩

/-- A file that fits is the first part of the stream, and nothing else fits. -/
theorem scan_segment_iff (segment : Segment) {rest : Bytes} {parts : List Scanned}
    (files : ∀ line, parts.head? ≠ some (.skipped line)) :
    scan safe (segment.bytes ++ rest) = (segment.toItem.scanned :: parts, .eof []) ↔
      segment.toItem.Fits safe ∧ scan safe rest = (parts, .eof []) := by
  constructor
  · intro scanned
    obtain ⟨line, after, read, header, content, later⟩ := scan_file scanned
    have front := Segment.line_prefix read
    obtain ⟨rfl, named, plain, len⟩ := Segment.header_of_prefix front header
    have small : segment.content.length < 2 ^ 31 := by
      have bound := toInt32_lt (strtol 10 segment.size).1
      have value : (segment.content.length : Int) = toInt32 (strtol 10 segment.size).1 := len
      omega
    obtain ⟨body, size⟩ := segment.copied small
    obtain ⟨-, ends⟩ := readOneLine_spec read
    have full : segment.text.length ≤ 179 := by
      rcases ends with ⟨short, -⟩ | ⟨full, -⟩
      · exact Nat.le_of_lt short
      · exact Nat.le_of_eq full
    have stream : segment.bytes ++ rest = segment.text ++ 10 :: (segment.content ++ rest) := by
      rw [Segment.bytes_eq (full.trans_lt (by decide)), List.append_assoc, List.cons_append, body]
    rw [stream] at ends
    rcases ends with ⟨short, same⟩ | ⟨-, same⟩
    · obtain ⟨-, rfl⟩ := List.cons.inj (List.append_cancel_left same)
      rw [List.drop_left] at later
      refine ⟨⟨named, plain, small, ?_⟩, later⟩
      unfold Segment.text at short
      rw [Segment.fmtString_of_plain plain, List.length_cons, List.length_append,
        List.length_cons, size] at short
      omega
    · -- the buffer was full before the line end: an empty line is left behind the file
      have moved := List.append_cancel_left same
      have kept : after = segment.content ++ after.drop segment.content.length := by
        conv_lhs => rw [← List.take_append_drop segment.content.length after, content]
      rw [kept] at moved
      rw [newlines_of_shift moved, scan_newline] at later
      exact absurd (congrArg (fun result : List Scanned × ScanEnd => result.1.head?) later).symm
        (files [])
  · rintro ⟨fits, later⟩
    obtain ⟨body, -⟩ := segment.copied fits.small
    obtain ⟨short, single⟩ := Segment.text_length fits
    have stream : segment.bytes ++ rest = segment.text ++ 10 :: (segment.content ++ rest) := by
      rw [Segment.bytes_eq (short.trans (by decide)), List.append_assoc, List.cons_append, body]
    have enough : ¬ (segment.content ++ rest).length < segment.content.length := by
      rw [List.length_append]
      omega
    rw [stream, scan_line (readOneLine_append single short), Segment.readHeader_text fits]
    dsimp only
    rw [Int.toNat_natCast, if_neg enough, List.drop_left, List.take_left, later]
    rfl

/-- The stream of a job comes apart into its files exactly if they all fit. -/
theorem scan_segments_iff (segments : List Segment) :
    scan safe (segments.flatMap Segment.bytes) =
        (segments.map fun segment => segment.toItem.scanned, .eof []) ↔
      ∀ segment ∈ segments, segment.toItem.Fits safe := by
  induction segments with
  | nil => exact iff_of_true scan_nil fun _ member => nomatch member
  | cons segment segments ih =>
      have files : ∀ line,
          (segments.map fun segment => segment.toItem.scanned).head? ≠ some (.skipped line) := by
        intro line first
        cases segments with
        | nil => cases first
        | cons next segments => cases Option.some.inj first
      rw [List.flatMap_cons, List.map_cons, scan_segment_iff segment files, ih,
        List.forall_mem_cons]

/-- A job with one data file, whose bytes are read at once. -/
def plainJob (content : Bytes) (nonempty : content ≠ []) : SendJob where
  transfername := ⟨lit "cfA007host", by decide⟩
  image := ⟨lit "Hhost\n", by decide⟩
  datafiles := [⟨⟨lit "dfA007host", by decide⟩, true, [content], fun member =>
    nonempty (List.mem_singleton.mp member).symm⟩]

theorem plainJob_sent (content : Bytes) (nonempty : content ≠ [])
    (small : content.length < 2 ^ 53) :
    ∃ room file, sendBlock (plainJob content nonempty) room = .ok file := by
  have whole : [content].flatten = content := List.append_nil content
  have image : (plainJob content nonempty).image.val.length = 6 := rfl
  obtain ⟨controlled, control, room⟩ := sendControl_ok
    (plainJob content nonempty) ⟨[], content.length + 2 * smallBuffer + 6⟩
    (by rw [image]; dsimp only; omega)
  rw [image] at room
  obtain ⟨file, sent⟩ := sendDataFile_ok ⟨⟨lit "dfA007host", by decide⟩, true,
    [content], fun member => nonempty (List.mem_singleton.mp member).symm⟩ controlled rfl
    (by unfold SendFile.content; rw [whole]; exact fun empty =>
      nonempty (List.length_eq_zero_iff.mp empty))
    (by unfold SendFile.content; rw [whole]; exact small)
    (by unfold SendFile.content; rw [whole]; dsimp only at room; omega)
  refine ⟨content.length + 2 * smallBuffer + 6, file, ?_⟩
  unfold sendBlock
  rw [control]
  dsimp only [Except.bind]
  unfold sendDataFiles plainJob
  rw [List.foldlM_cons, sent]
  rfl

end LPRng
