import LPRng.EscapedLines
import LPRng.Job
import LPRng.TicketFile

/-!
# Messages to the logger

The server tells a logger of each ticket and each queue control file that it writes, and of all queues
when the logger starts. A message is a header and a text in escaped lines: the values of these are
escaped, too, and those that hold lines of other values once more. `Decode` of the monitor takes three
levels back: that of the message, that of the value, and that of each line in the value.
-/

namespace LPRng

namespace LoggerCodec

open SecureHeader

/-! ## The texts that are sent -/

def identifierKey : Bytes := lit "A"
def numberKey : Bytes := lit "number"
def processKey : Bytes := lit "process"
def printerKey : Bytes := lit "printer"
def hostKey : Bytes := lit "host"
def valueKey : Bytes := lit "value"
def queueKey : Bytes := lit "queue"
def updateKey : Bytes := lit "update"
def lpcKey : Bytes := lit "lpc"

/-- Lines of C strings. -/
structure TextLines where
  lines : LineList
  strings : ∀ line ∈ lines, 0 ∉ line

/-- What a message says of its sender. -/
structure Sender where
  printer : Option Bytes
  host : Option Bytes
  process : Int
  time : Bytes
  printerClean : ∀ value ∈ printer, CleanValue value
  hostClean : ∀ value ∈ host, CleanValue value
  timeClean : CleanValue time

/-- `send_to_logger` to the logger, with the identifier and the number of the job it is about. -/
def sendToLogger (sender : Sender) (job : Option (Option Bytes × Int)) (header : Bytes) (msg : Option Bytes) : Bytes :=
  let l : LineList := match job with
    | some (id, num) => (LineList.setStrValue [] identifierKey id).setDecimalValue numberKey num
    | none => []
  let l := (l.setStrValue JobLists.updateTime (some sender.time)).setDecimalValue processKey sender.process
  let l := (l.setStrValue printerKey sender.printer).setStrValue hostKey sender.host
  let l := l.setStrValue valueKey (msg.bind (escape · 1))
  header ++ 61 :: ((l.joinLineList [10]).bind (escape · 1)).getD [] ++ [10]

def findDecimalValue (l : LineList) (key : Bytes) : Int := decimalOfText (l.findValue key)

/-- The message of `Set_job_ticket_file`. -/
def updateMessage (sender : Sender) (job : JobLists) (timeStr : Bytes) (permCheck : Option LineList) : Option Bytes :=
  (job.setJobTicketFile timeStr).map fun (outstr, job) =>
    let outstr := match permCheck with
      | some permCheck => outstr ++ 10 :: lpcKey ++ 61 :: (permCheck.joinLineList [10]).getD []
      | none => outstr
    sendToLogger sender (some (job.info.findStrValue identifierKey, findDecimalValue job.info numberKey)) updateKey
      (some outstr)

/-- The message of `Set_spool_control`. -/
def queueMessage (sender : Sender) (permCheck : Option LineList) (info : LineList) : Bytes :=
  let l := LineList.setStrValue [] queueKey ((info.joinLineList [10]).bind (escape · 1))
  let l := match permCheck with
    | some permCheck => l.setStrValue lpcKey ((permCheck.joinLineList [10]).bind (escape · 1))
    | none => l
  sendToLogger sender none queueKey (l.joinLineList [10])

/-- A queue that is dumped: the reads of its control file and its status file, and the tickets of its jobs. -/
structure DumpedQueue where
  sender : Sender
  control : TextLines
  status : TextLines
  jobs : List TextLines

def dumpReads (reads : List Bytes) : Bytes := reads.flatMap fun buffer => (escape buffer 3).getD []

def dumpQueue (queue : DumpedQueue) : Bytes :=
  let info := (LineList.setStrValue [] printerKey queue.sender.printer).setStrValue hostKey queue.sender.host
  let info := (info.setDecimalValue processKey queue.sender.process).setStrValue JobLists.updateTime (some queue.sender.time)
  lit "DUMP=" ++ ((info.joinLineList [10]).bind (escape · 1)).getD [] ++ lit "VALUE=" ++
    lit "QUEUE%3d" ++ dumpReads queue.control.lines ++ lit "%250a" ++
    lit "PRSTATUS%3d" ++ dumpReads queue.status.lines ++ lit "%250a" ++
    (queue.jobs.filter (·.lines ≠ [])).flatMap (fun job =>
      lit "UPDATE%3d" ++ ((job.lines.joinLineList [10]).bind (escape · 3)).getD [] ++ lit "%250a") ++ [10]

def dumpQueueStatus (queues : List DumpedQueue) : Bytes := queues.flatMap dumpQueue ++ lit "END\n"

/-! ## The monitor -/

/-- What `Decode` shows of a message. -/
structure Decoded where
  header : Bytes
  lines : LineList
  value : Option Bytes
  fields : List (Bytes × Option Bytes)

def splitField (header : Bytes) : Bytes × Option Bytes :=
  match header.dropWhile (· ≠ 61) with
  | _ :: value => (header.takeWhile (· ≠ 61), some (unescape value))
  | [] => (header, none)

def hasFields (header : Bytes) : Bool :=
  [updateKey, queueKey, lit "dump"].any fun key => strcasecmp header key = .eq

def decode (message : Bytes) : Option Decoded :=
  match message.dropWhile (!hashValueSep.contains ·) with
  | [] => none
  | _ :: s =>
      let header := message.takeWhile (!hashValueSep.contains ·)
      let l := split [] (unescape s) lineEnds true hashValueSep true true true
      let value := (l.findStrValue valueKey).map unescape
      some
        { header := header
          lines := l
          value := value
          fields := if hasFields header then
              ((value.map fun s => split [] s lineEnds false [] false false false).getD []).map splitField
            else [] }

/-- The fields of each message in what is received, up to its last line end. -/
def received (stream : Bytes) : List (Option (List (Bytes × Option Bytes))) :=
  (pieces [10] stream).map fun message => (decode message).map Decoded.fields

/-! ## Lists of clean values -/

variable {key : Bytes}

/-- `Set_str_value` with a clean value. -/
def setPair (list : PairList) (word : ∀ d ∈ key, isWordChar d = true) (value : Option Bytes)
    (clean : ∀ v ∈ value, CleanValue v) : PairList where
  lines := list.lines.setStrValue key value
  keyed := by
    rw [list.keyed.setStrValue (sepFree_of_word word)]
    cases value.filter (· ≠ []) with
    | none => exact list.keyed.erase
    | some v => exact list.keyed.insert (clear_keyValue (sepFree_of_word word) v)
  pairs := by
    intro line member
    rcases (JobLists.mem_setStrValue list.keyed (sepFree_of_word word)).mp member with ⟨v, given, rfl⟩ | ⟨old, -⟩
    · exact ⟨key, v, rfl, word, clean v (Option.filter_eq_some_iff.mp given).1⟩
    · exact list.pairs line old

theorem findStrValue_setPair (list : PairList) (word : ∀ d ∈ key, isWordChar d = true) (value : Option Bytes)
    (clean : ∀ v ∈ value, CleanValue v) (other : Bytes) :
    (setPair list word value clean).lines.findStrValue other =
      if foldCase other = foldCase key then value.filter (· ≠ []) else list.lines.findStrValue other := by
  have free := sepFree_of_word word
  have stored : (setPair list word value clean).lines = list.lines.setStrValue key value := rfl
  rw [stored, list.keyed.setStrValue free]
  cases value.filter (· ≠ []) with
  | none => exact list.keyed.findStrValue_erase
  | some v =>
      rw [list.keyed.findStrValue_insert (clear_keyValue free v), lineKey_keyValue free, valueOf_keyValue free]

/-- The digits of a number, as many as the buffer has room for. -/
def fittingDigits (key : Bytes) (number : Int) : Bytes := (printInt number).take (510 - key.length)

theorem fittingDigits_ne_nil (short : key.length < 510) (n : Int) : fittingDigits key n ≠ [] := by
  unfold fittingDigits
  rw [Ne, List.take_eq_nil_iff]
  exact not_or.mpr ⟨by omega, printInt_ne_nil n⟩

/-- A number is set as its digits are. -/
theorem setDecimalValue_eq (l : LineList) (word : ∀ d ∈ key, isWordChar d = true) (short : key.length < 510)
    (number : Int) : l.setDecimalValue key number = l.setStrValue key (some (fittingDigits key number)) := by
  have line : LineList.printedLine key (printInt number) = key ++ 61 :: fittingDigits key number := by
    have room : 512 - 1 = key.length + ((510 - key.length) + 1) := by omega
    rw [LineList.printedLine, plpSnprintf, fmtString_of_word word, room, List.take_length_add_append,
      List.take_succ_cons, fittingDigits]
  rcases List.exists_cons_of_ne_nil (fittingDigits_ne_nil short number) with ⟨c, cs, digits⟩
  rw [LineList.setDecimalValue, line, digits]
  rfl

theorem cleanValue_fittingDigits (key : Bytes) (number : Int) : CleanValue (fittingDigits key number) := by
  refine cleanValue_of_forall fun d member => ?_
  rcases digit_of_mem_printInt (List.mem_of_mem_take member) with digit | minus
  · have word : isWordChar d = true := by
      rw [isWordChar, isAlnum, digit, Bool.or_true, Bool.true_or]
    exact ⟨(isWordChar_visible word).1, (isWordChar_spec word).2.2.2.1, (isWordChar_spec word).1⟩
  · rw [minus]
    decide

/-! ## What the monitor decodes -/

def keys : List Bytes :=
  [identifierKey, numberKey, JobLists.updateTime, processKey, printerKey, hostKey, valueKey, queueKey, updateKey, lpcKey]

theorem identifierKey_mem : identifierKey ∈ keys := by simp [keys]

theorem numberKey_mem : numberKey ∈ keys := by simp [keys]

theorem updateTime_mem : JobLists.updateTime ∈ keys := by simp [keys]

theorem processKey_mem : processKey ∈ keys := by simp [keys]

theorem printerKey_mem : printerKey ∈ keys := by simp [keys]

theorem hostKey_mem : hostKey ∈ keys := by simp [keys]

theorem valueKey_mem : valueKey ∈ keys := by simp [keys]

theorem queueKey_mem : queueKey ∈ keys := by simp [keys]

theorem updateKey_mem : updateKey ∈ keys := by simp [keys]

theorem lpcKey_mem : lpcKey ∈ keys := by simp [keys]

theorem keys_spec {key : Bytes} (known : key ∈ keys) :
    (∀ d ∈ key, isWordChar d = true) ∧ key.length < 510 ∧ key.all (!hashValueSep.contains ·) = true := by
  have table : keys.all (fun key =>
      key.all isWordChar && decide (key.length < 510) && key.all (!hashValueSep.contains ·)) = true := by
    decide
  have row := List.all_eq_true.mp table key known
  simpa [and_assoc] using row

/-- A field of a message. -/
structure Entry where
  key : Bytes
  known : key ∈ keys
  value : Option Bytes
  clean : ∀ v ∈ value, CleanValue v

def number (key : Bytes) (known : key ∈ keys) (number : Int) : Entry :=
  ⟨key, known, some (fittingDigits key number), fun v same => by
    rw [← Option.some.inj same]
    exact cleanValue_fittingDigits key number⟩

def store (list : PairList) (entry : Entry) : PairList := setPair list (keys_spec entry.known).1 entry.value entry.clean

def noPairs : PairList := ⟨[], LineList.keyed_nil, fun _ => nofun⟩

/-- What a message says of its sender, on top of what it says of a job. -/
def senderPairs (sender : Sender) (list : PairList) : PairList :=
  let list := store list ⟨JobLists.updateTime, updateTime_mem, some sender.time, fun v same => by
    rw [← Option.some.inj same]
    exact sender.timeClean⟩
  let list := store list (number processKey processKey_mem sender.process)
  let list := store list ⟨printerKey, printerKey_mem, sender.printer, sender.printerClean⟩
  store list ⟨hostKey, hostKey_mem, sender.host, sender.hostClean⟩

theorem clean_escape (msg : Option Bytes) : ∀ v ∈ msg.bind (escape · 1), CleanValue v := by
  intro v same
  rcases Option.bind_eq_some_iff.mp same with ⟨text, -, escaped⟩
  exact cleanValue_escape escaped

def withValue (list : PairList) (msg : Option Bytes) : PairList :=
  store list ⟨valueKey, valueKey_mem, msg.bind (escape · 1), clean_escape msg⟩

theorem keys_decimal {key : Bytes} (known : key ∈ keys) (l : LineList) (n : Int) :
    l.setDecimalValue key n = l.setStrValue key (some (fittingDigits key n)) :=
  setDecimalValue_eq l (keys_spec known).1 (keys_spec known).2.1 n

theorem findStrValue_store (list : PairList) (entry : Entry) (other : Bytes) :
    (store list entry).lines.findStrValue other =
      if foldCase other = foldCase entry.key then entry.value.filter (· ≠ []) else list.lines.findStrValue other :=
  findStrValue_setPair list (keys_spec entry.known).1 entry.value entry.clean other

/-- The keys of messages, as they are compared. -/
theorem keys_apart :
    (foldCase processKey ≠ foldCase valueKey ∧ foldCase processKey ≠ foldCase hostKey ∧
        foldCase processKey ≠ foldCase printerKey) ∧
      foldCase lpcKey < foldCase queueKey ∧ foldCase valueKey = foldCase (lit "VALUE") ∧
      foldCase JobLists.updateTime < foldCase (lit "VALUE") ∧ foldCase processKey < foldCase (lit "VALUE") ∧
      foldCase hostKey < foldCase (lit "VALUE") ∧ foldCase printerKey < foldCase (lit "VALUE") := by
  decide

/-- The messages that the monitor shows the fields of. -/
theorem hasFields_keys : hasFields updateKey = true ∧ hasFields queueKey = true ∧ hasFields (lit "DUMP") = true := by
  decide

theorem nonempty_withValue (sender : Sender) (list : PairList) (msg : Option Bytes) :
    (withValue (senderPairs sender list) msg).lines ≠ [] := by
  rcases keys_apart.1 with ⟨value, host, printer⟩
  have found : (withValue (senderPairs sender list) msg).lines.findStrValue processKey =
      some (fittingDigits processKey sender.process) := by
    have shown := fittingDigits_ne_nil (keys_spec processKey_mem).2.1 sender.process
    rw [withValue, findStrValue_store, if_neg value, senderPairs, findStrValue_store, if_neg host,
      findStrValue_store, if_neg printer, findStrValue_store, number, if_pos rfl, Option.filter_some,
      if_pos (decide_eq_true shown)]
  intro nothing
  rw [nothing, LineList.keyed_nil.findStrValue] at found
  cases found

/-- Nothing is left empty by an escape. -/
theorem filter_escape (msg : Option Bytes) :
    (msg.bind (escape · 1)).filter (· ≠ []) = msg.bind (escape · 1) := by
  cases given : msg.bind (escape · 1) with
  | none => rfl
  | some text =>
      rcases Option.bind_eq_some_iff.mp given with ⟨str, -, escaped⟩
      rw [Option.filter_some, if_pos (decide_eq_true (escape_ne_nil escaped))]

/-- The value of a message is found as it was sent. -/
theorem findStrValue_withValue (list : PairList) (msg : Option Bytes) :
    (withValue list msg).lines.findStrValue valueKey = msg.bind (escape · 1) := by
  rw [withValue, findStrValue_store, if_pos rfl]
  exact filter_escape msg

/-- The monitor decodes a message of clean values into its lines, and its value as it was sent. -/
theorem decode_message {header : Bytes} (known : header ∈ keys) {list : PairList} {msg : Option Bytes}
    (strings : ∀ text ∈ msg, 0 ∉ text) (nonempty : (withValue list msg).lines ≠ []) :
    decode (header ++ 61 :: (((withValue list msg).lines.joinLineList [10]).bind (escape · 1)).getD []) =
      some
        { header := header
          lines := (withValue list msg).lines
          value := msg.filter (· ≠ [])
          fields := if hasFields header then
              (((msg.filter (· ≠ [])).map fun s => split [] s lineEnds false [] false false false).getD []).map splitField
            else [] } := by
  have joined := (withValue list msg).joinLineList_eq nonempty
  have escaped : escape ((withValue list msg).lines.flatMap (· ++ [10])) 1 = some _ :=
    if_neg (joined_ne_nil nonempty)
  have plain : ∀ d ∈ header, (!hashValueSep.contains d) = true := List.all_eq_true.mp (keys_spec known).2.2
  rcases takeWhile_sepFree plain (by decide) with ⟨taken, dropped⟩
  have value : (msg.bind (escape · 1)).map unescape = msg.filter (· ≠ []) := by
    cases msg with
    | none => rfl
    | some text =>
        by_cases empty : text = []
        · rw [empty]
          rfl
        · have shown : escape text 1 = some _ := if_neg empty
          rw [Option.bind_some, shown, Option.map_some, unescape_escape (strings text rfl) shown, Option.filter_some,
            if_pos (decide_eq_true empty)]
  rw [joined, Option.bind_some, escaped, Option.getD_some]
  unfold decode
  rw [dropped]
  simp only [taken]
  rw [unescape_escape (withValue list msg).joined_clean escaped, (withValue list msg).split_lines isSeparator_hashValueSep,
    findStrValue_withValue list msg, value]

theorem received_line {message : Bytes} (single : 10 ∉ message) :
    received (message ++ [10]) = [(decode message).map Decoded.fields] := by
  have whole : ∀ d ∈ message, d ∉ ([10] : Bytes) := fun d member same =>
    single (List.mem_singleton.mp same ▸ member)
  have parts := pieces_append whole (List.mem_cons_self : (10 : UInt8) ∈ [10]) []
  rw [received, parts]
  rfl

theorem mem_escaped {msg : Option Bytes} {level : Nat} {d : UInt8}
    (member : d ∈ (msg.bind (escape · level)).getD []) : d ≠ 0 ∧ d ∉ lineEnds := by
  cases escaped : msg.bind (escape · level) with
  | none =>
      rw [escaped] at member
      exact absurd member List.not_mem_nil
  | some text =>
      rcases Option.bind_eq_some_iff.mp escaped with ⟨str, -, shown⟩
      rw [escaped] at member
      exact (cleanValue_escape shown).inside d member

/-- What a message says of a job. -/
def jobPairs (job : Option (Option Bytes × Int)) (clean : ∀ id ∈ job.bind Prod.fst, CleanValue id) : PairList :=
  match job, clean with
  | some (id, num), clean =>
      store (store noPairs ⟨identifierKey, identifierKey_mem, id, clean⟩) (number numberKey numberKey_mem num)
  | none, _ => noPairs

/-- The fields of a message, when it has any. -/
def fieldsOf (msg : Option Bytes) : List (Bytes × Option Bytes) :=
  (((msg.filter (· ≠ [])).map fun s => split [] s lineEnds false [] false false false).getD []).map splitField

theorem received_sendToLogger (sender : Sender) (job : Option (Option Bytes × Int))
    (clean : ∀ id ∈ job.bind Prod.fst, CleanValue id) {header : Bytes} (known : header ∈ keys)
    (shows : hasFields header = true) {msg : Option Bytes} (strings : ∀ text ∈ msg, 0 ∉ text) :
    received (sendToLogger sender job header msg) = [some (fieldsOf msg)] := by
  have sent : sendToLogger sender job header msg = header ++
      61 :: (((withValue (senderPairs sender (jobPairs job clean)) msg).lines.joinLineList [10]).bind (escape · 1)).getD [] ++
        [10] := by
    have process := fun l => keys_decimal processKey_mem l sender.process
    have number := fun l n => keys_decimal numberKey_mem l n
    unfold sendToLogger
    rcases job with _ | ⟨id, num⟩
    · simp only [process]
      rfl
    · simp only [process, number]
      rfl
  have single : 10 ∉ header ++
      61 :: (((withValue (senderPairs sender (jobPairs job clean)) msg).lines.joinLineList [10]).bind (escape · 1)).getD [] := by
    intro member
    rcases List.mem_append.mp member with inHeader | rest
    · exact absurd ((keys_spec known).1 10 inHeader) (by decide)
    · rcases List.mem_cons.mp rest with equal | inText
      · exact absurd equal (by decide)
      · exact (mem_escaped inText).2 (by decide)
  rw [sent, received_line single, decode_message known strings (nonempty_withValue _ _ _)]
  simp only [Option.map_some, if_pos shows]
  rfl

theorem fieldsOf_some (s : Bytes) : fieldsOf (some s) = (pieces lineEnds s).map splitField := by
  by_cases empty : s = []
  · rw [empty]
    rfl
  · rw [fieldsOf, Option.filter_some, if_pos (decide_eq_true empty), Option.map_some, Option.getD_some,
      split_pieces]

theorem noNul_joinLineList {lines : LineList} (strings : ∀ line ∈ lines, 0 ∉ line) :
    0 ∉ (lines.joinLineList [10]).getD [] := by
  have kept : ∀ line ∈ lines.filter (· ≠ []), 0 ∉ line := fun line member =>
    strings line (List.mem_filter.mp member).1
  unfold LineList.joinLineList
  dsimp only
  split
  · exact List.not_mem_nil
  · exact noNul_joined kept

/-! ## Values that look escaped -/

/-- A text without question marks, and without percent signs that two characters follow. -/
def looksPlain : Bytes → Bool
  | [] => true
  | 37 :: _ :: _ :: _ => false
  | c :: s => c != 63 && looksPlain s

theorem length_unescapeChars (s : Bytes) : (unescapeChars s).length ≤ s.length := by
  fun_induction unescapeChars s with
  | case1 => exact Nat.le_refl 0
  | case2 a b s ih => exact Nat.succ_le_succ (ih.trans (by simp; omega))
  | case3 c s other ih => exact Nat.succ_le_succ ih

theorem unescapeChars_eq_self_iff (s : Bytes) : unescapeChars s = s ↔ looksPlain s = true := by
  fun_induction unescapeChars s with
  | case1 => exact ⟨fun _ => rfl, fun _ => rfl⟩
  | case2 a b s ih =>
      have shorter := length_unescapeChars s
      constructor
      · intro same
        have lengths := congrArg List.length same
        simp only [List.length_cons] at lengths
        omega
      · intro plain
        cases plain
  | case3 c s other ih =>
      have plain : looksPlain (c :: s) = (c != 63 && looksPlain s) := by
        rw [looksPlain]
        exact fun a b rest same tail => other a b rest same tail
      rw [plain, List.cons.injEq, ih, Bool.and_eq_true]
      refine and_congr_left fun _ => ?_
      split
      · next mark => simp [mark]
      · next mark => simpa using mark

/-- Exactly the texts that look plain are left alone by `Unescape`. -/
theorem unescape_eq_self_iff {s : Bytes} (clean : 0 ∉ s) : unescape s = s ↔ looksPlain s = true := by
  rw [← unescapeChars_eq_self_iff]
  constructor
  · intro same
    have whole : cstr (unescapeChars s) = unescapeChars s := by
      refine (List.takeWhile_prefix _).eq_of_length_le ?_
      have kept : (cstr (unescapeChars s)).length = s.length := congrArg List.length same
      exact (length_unescapeChars s).trans kept.ge
    exact whole.symm.trans same
  · intro same
    rw [unescape, same, cstr_of_noNul clean]

/-! ## The message of a ticket -/

/-- A field as it was reported. -/
def reported (line : Bytes) : Bytes × Option Bytes :=
  match line.dropWhile (· ≠ 61) with
  | _ :: value => (line.takeWhile (· ≠ 61), some value)
  | [] => (line, none)

/-- The value of a line looks plain, if it has one. -/
def valueLooksPlain (line : Bytes) : Bool := looksPlain (line.dropWhile (· ≠ 61)).tail

theorem splitField_eq_reported_iff {line : Bytes} (clean : 0 ∉ line) :
    splitField line = reported line ↔ valueLooksPlain line = true := by
  unfold splitField reported valueLooksPlain
  cases parts : line.dropWhile (· ≠ 61) with
  | nil => exact ⟨fun _ => rfl, fun _ => rfl⟩
  | cons c value =>
      have inside : 0 ∉ value := fun member =>
        clean ((List.dropWhile_suffix (· ≠ 61)).subset (parts ▸ List.mem_cons_of_mem c member))
      rw [List.tail_cons, ← unescape_eq_self_iff inside]
      simp

/-- The fields of a job, with any lines for its data files. -/
structure PairJob where
  info : PairList
  datafiles : List TextLines

def PairJob.toJobLists (job : PairJob) : JobLists := ⟨job.info.lines, job.datafiles.map TextLines.lines⟩

theorem pieces_ne_nil (sep : Bytes) {s : Bytes} (nonempty : s ≠ []) : pieces sep s ≠ [] := by
  cases s with
  | nil => exact absurd rfl nonempty
  | cons c s =>
      unfold pieces
      split
      · exact List.cons_ne_nil _ _
      · split <;> exact List.cons_ne_nil _ _

/-- The fields that are decoded of a ticket and a permission record. -/
def updateFields (lines : LineList) (permCheck : Option LineList) : List (Bytes × Option Bytes) :=
  lines.map reported ++ (permCheck.map fun permCheck => (lpcKey, some ((permCheck.joinLineList [10]).getD []))).toList

theorem fieldsOf_update_iff {lines : LineList} (whole : ∀ line ∈ lines, ∀ d ∈ line, d ∉ lineEnds)
    (strings : ∀ line ∈ lines, 0 ∉ line) (permCheck : Option LineList) :
    fieldsOf (some (match permCheck with
      | some permCheck => lines.flatMap (· ++ [10]) ++ 10 :: lpcKey ++ 61 :: (permCheck.joinLineList [10]).getD []
      | none => lines.flatMap (· ++ [10]))) = updateFields lines permCheck ↔
      permCheck = none ∧ ∀ line ∈ lines, valueLooksPlain line = true := by
  have parts := fun rest => pieces_flatMap whole (by decide : (10 : UInt8) ∈ lineEnds) rest
  cases permCheck with
  | none =>
      have ticket := parts []
      rw [List.append_nil, pieces, List.append_nil] at ticket
      simp only [fieldsOf_some, ticket, updateFields, Option.map_none, Option.toList_none, List.append_nil, true_and]
      rw [List.map_inj_left]
      exact forall₂_congr fun line member => splitField_eq_reported_iff (strings line member)
  | some permCheck =>
      refine iff_of_false (fun same => ?_) fun plain => Option.some_ne_none _ plain.1
      have more := pieces_ne_nil lineEnds (List.append_ne_nil_of_right_ne_nil lpcKey
        (List.cons_ne_nil 61 ((permCheck.joinLineList [10]).getD [])))
      have cut : pieces lineEnds ([] ++ 10 :: (lpcKey ++ 61 :: (permCheck.joinLineList [10]).getD [])) =
          [] :: pieces lineEnds (lpcKey ++ 61 :: (permCheck.joinLineList [10]).getD []) :=
        pieces_append (fun d member => absurd member List.not_mem_nil) (by decide) _
      have joined : lines.flatMap (· ++ [10]) ++ 10 :: lpcKey ++ 61 :: (permCheck.joinLineList [10]).getD [] =
          lines.flatMap (· ++ [10]) ++ ([] ++ 10 :: (lpcKey ++ 61 :: (permCheck.joinLineList [10]).getD [])) := by
        simp
      -- The empty line in front of the record is a field of its own.
      dsimp only at same
      have lengths := congrArg List.length same
      rw [joined, fieldsOf_some, parts, cut] at lengths
      simp only [updateFields, Option.map_some, Option.toList_some, List.length_map, List.length_append,
        List.length_cons, List.length_nil] at lengths
      exact more (List.length_eq_zero_iff.mp (by omega))

/-! ## The ticket -/

theorem clean_of_found {list : PairList} {v : Bytes} (found : list.lines.findStrValue key = some v) : CleanValue v := by
  rw [list.keyed.findStrValue] at found
  rcases Option.bind_eq_some_iff.mp found with ⟨line, here, value⟩
  rcases list.pairs line (List.mem_of_find?_eq_some here) with ⟨name, w, rfl, word, clean⟩
  rw [valueOf_keyValue (sepFree_of_word word)] at value
  rwa [← Option.some.inj value]

/-- Lines without a NUL, in the order of their keys. -/
structure StringLines (l : LineList) : Prop where
  words : JobLists.WordLines l
  strings : ∀ line ∈ l, 0 ∉ line

theorem StringLines.setStrValue {l : LineList} (lines : StringLines l) (word : ∀ d ∈ key, isWordChar d = true)
    {given : Option Bytes} (strings : ∀ v ∈ given, 0 ∉ v) : StringLines (l.setStrValue key given) := by
  refine ⟨lines.words.setStrValue word given, fun line member => ?_⟩
  rcases (JobLists.mem_setStrValue lines.words.keyed (sepFree_of_word word)).mp member with ⟨v, set, rfl⟩ | ⟨old, -⟩
  · intro nul
    rcases List.mem_append.mp nul with inKey | inValue
    · exact (isWordChar_visible (word 0 inKey)).1 rfl
    · rcases List.mem_cons.mp inValue with equal | inside
      · exact absurd equal (by decide)
      · exact strings v (Option.filter_eq_some_iff.mp set).1 inside
  · exact lines.strings line old

/-- The texts that are made of the data files have no NUL. -/
structure StringInfo (st : JobLists.DatafileInfo) : Prop where
  dataline : ∀ v ∈ st.dataline, 0 ∉ v
  datafiles : ∀ v ∈ st.datafiles, 0 ∉ v

theorem noNul_of_found {l : LineList} {v : Bytes} (strings : ∀ line ∈ l, 0 ∉ line)
    (found : l.findStrValue key = some v) : 0 ∉ v := by
  unfold LineList.findStrValue at found
  split at found
  · next mid _ =>
      have line : 0 ∉ l.getD mid [] := by
        rw [List.getD_eq_getElem?_getD]
        cases entry : l[mid]? with
        | none => exact List.not_mem_nil
        | some line => exact strings line (List.mem_of_getElem? entry)
      unfold valueOf at found
      split at found
      · next value parts =>
          cases found
          exact fun nul => line ((List.dropWhile_suffix _).subset (parts ▸ List.mem_cons_of_mem 61 nul))
      · cases found
  · cases found

theorem noNul_extend {s : Option Bytes} {text : Bytes} (strings : ∀ v ∈ s, 0 ∉ v) (clean : 0 ∉ text) :
    ∀ v ∈ JobLists.extend s text, 0 ∉ v := by
  intro v same nul
  rw [← Option.some.inj same] at nul
  rcases List.mem_append.mp nul with old | new
  · cases s with
    | none => exact absurd old List.not_mem_nil
    | some w => exact strings w rfl old
  · exact clean new

theorem noNul_addFields {lp : LineList} (strings : ∀ line ∈ lp, 0 ∉ line) {dataline : Option Bytes}
    (before : ∀ v ∈ dataline, 0 ∉ v) : ∀ v ∈ JobLists.addFields dataline lp, 0 ∉ v := by
  unfold JobLists.addFields
  induction lp generalizing dataline with
  | nil => exact before
  | cons s lp ih =>
      rw [List.foldl_cons]
      refine ih (fun line member => strings line (List.mem_cons_of_mem s member)) ?_
      split
      · exact before
      · refine noNul_extend before fun nul => ?_
        rcases List.mem_append.mp nul with inLine | two
        · exact strings s List.mem_cons_self inLine
        · exact absurd two (by decide)

theorem noNul_addName {st : JobLists.DatafileInfo} {lp : LineList} (strings : ∀ line ∈ lp, 0 ∉ line)
    (before : ∀ v ∈ st.datafiles, 0 ∉ v) : ∀ v ∈ (JobLists.addName st lp).1, 0 ∉ v := by
  unfold JobLists.addName
  split
  · exact before
  · exact before
  · next s _ name =>
      have noNul := noNul_of_found strings name
      split
      · split
        · next t openname =>
            refine noNul_extend before fun nul => ?_
            rcases List.mem_append.mp nul with front | blank
            · rcases List.mem_append.mp front with inName | rest
              · exact noNul inName
              · rcases List.mem_cons.mp rest with equal | inOpen
                · exact absurd equal (by decide)
                · exact noNul_of_found strings openname inOpen
            · exact absurd blank (by decide)
        · refine noNul_extend before fun nul => ?_
          rcases List.mem_append.mp nul with inName | blank
          · exact noNul inName
          · exact absurd blank (by decide)
      · exact before

theorem StringInfo.addDatafile {st after : JobLists.DatafileInfo} {lp : LineList} (info : StringInfo st)
    (strings : ∀ line ∈ lp, 0 ∉ line) (added : JobLists.addDatafile st lp = some after) : StringInfo after := by
  rcases Option.map_eq_some_iff.mp added with ⟨dataline, fields, rfl⟩
  have clean := noNul_addFields strings info.dataline dataline fields
  refine ⟨fun v same nul => ?_, noNul_addName strings info.datafiles⟩
  rw [← Option.some.inj same] at nul
  split at nul
  · exact absurd nul List.not_mem_nil
  · rcases List.mem_append.mp nul with front | one
    · exact clean (List.mem_of_mem_dropLast front)
    · exact absurd one (by decide)

theorem stringInfo_of_datafileInfo {files : List LineList} {st : JobLists.DatafileInfo}
    (strings : ∀ lp ∈ files, ∀ line ∈ lp, 0 ∉ line) (known : JobLists.datafileInfo files = some st) : StringInfo st := by
  have run : ∀ files start, (∀ lp ∈ files, ∀ line ∈ lp, 0 ∉ line) → StringInfo start →
      List.foldlM JobLists.addDatafile start files = some st → StringInfo st := by
    intro files
    induction files with
    | nil =>
        intro start _ info ended
        cases ended
        exact info
    | cons lp files ih =>
        intro start strings info added
        rw [List.foldlM_cons] at added
        rcases Option.bind_eq_some_iff.mp added with ⟨next, first, rest⟩
        exact ih next (fun other member => strings other (List.mem_cons_of_mem lp member))
          (info.addDatafile (strings lp List.mem_cons_self) first) rest
  exact run files _ strings ⟨fun v none => absurd none (Option.not_mem_none v),
    fun v none => absurd none (Option.not_mem_none v)⟩ known

theorem StringLines.ticketInfo {l : LineList} (lines : StringLines l) {st : JobLists.DatafileInfo} (info : StringInfo st)
    {timeStr : Bytes} (clean : 0 ∉ timeStr) : StringLines (JobLists.ticketInfo l st timeStr) := by
  have files := fun {l} (lines : StringLines l) =>
    (lines.setStrValue JobLists.word_hfdatafiles info.dataline).setStrValue JobLists.word_datafilesKey info.datafiles
  refine files ((files lines).setStrValue JobLists.word_updateTime fun v same => ?_)
  rwa [← Option.some.inj same]

theorem stringLines_of_pairs (list : PairList) : StringLines list.lines :=
  ⟨⟨list.keyed, fun line member => (list.pairs line member).wordLine⟩,
    fun line member nul => ((list.pairs line member).clean 0 nul).1 rfl⟩

variable {job : PairJob} {timeStr image : Bytes} {after : JobLists}

/-- The lines of a ticket that is written, and the identifier that goes with it. -/
theorem ticket_spec (clean : 0 ∉ timeStr) (written : job.toJobLists.setJobTicketFile timeStr = some (image, after)) :
    ∃ lines, image = lines.flatMap (· ++ [10]) ∧ pieces lineEnds image = lines ∧
      (∀ line ∈ lines, ∀ d ∈ line, d ∉ lineEnds) ∧ (∀ line ∈ lines, 0 ∉ line) ∧
      ∀ id ∈ after.info.findStrValue identifierKey, CleanValue id := by
  cases known : JobLists.datafileInfo job.toJobLists.datafiles with
  | none =>
      have crashed : job.toJobLists.setJobTicketFile timeStr = none := by
        rw [JobLists.setJobTicketFile, JobLists.setJobTicketDatafileInfo, known]
        rfl
      cases crashed.symm.trans written
  | some st =>
      have files : ∀ lp ∈ job.toJobLists.datafiles, ∀ line ∈ lp, 0 ∉ line := by
        intro lp member
        rcases List.mem_map.mp member with ⟨text, -, rfl⟩
        exact text.strings
      have lines := stringLines_of_pairs job.info
      have strings := (lines.ticketInfo (stringInfo_of_datafileInfo files known) clean).strings
      rw [JobLists.setJobTicketFile_eq timeStr known] at written
      split at written
      · cases written
      · cases written
        have apart : ∀ line, lineKey line = foldCase identifierKey → JobLists.isDerived line = false := by
          intro line same
          rw [JobLists.isDerived, same]
          decide
        refine ⟨_, rfl, JobLists.pieces_ticketLines, ?_, fun line member => strings line (List.mem_filter.mp member).1, ?_⟩
        · intro line member d inside ends
          have isWritten := (List.mem_filter.mp member).2
          have broken : line.any lineEnds.contains = true :=
            List.any_eq_true.mpr ⟨d, inside, List.contains_iff_mem.mpr ends⟩
          rw [JobLists.isWritten, broken, Bool.not_true, Bool.and_false, Bool.false_and] at isWritten
          cases isWritten
        · intro id found
          have same := JobLists.findStrValue_ticketInfo lines.words st timeStr apart
          exact clean_of_found (same.symm.trans found)

/-- The fields of a ticket are decoded as they were reported, exactly if no record of permissions goes
with them and no value looks escaped. -/
theorem update_reported_iff (sender : Sender) (clean : 0 ∉ timeStr) (permCheck : Option TextLines)
    (written : job.toJobLists.setJobTicketFile timeStr = some (image, after)) :
    (updateMessage sender job.toJobLists timeStr (permCheck.map TextLines.lines)).map received =
        some [some (updateFields (pieces lineEnds image) (permCheck.map TextLines.lines))] ↔
      permCheck = none ∧ ∀ line ∈ pieces lineEnds image, valueLooksPlain line = true := by
  rcases ticket_spec clean written with ⟨lines, rfl, parts, whole, strings, identifier⟩
  have image : 0 ∉ lines.flatMap (· ++ [10]) := noNul_joined strings
  have sent : ∀ text ∈ some (match permCheck.map TextLines.lines with
      | some permCheck => lines.flatMap (· ++ [10]) ++ 10 :: lpcKey ++ 61 :: (permCheck.joinLineList [10]).getD []
      | none => lines.flatMap (· ++ [10])), 0 ∉ text := by
    intro text same
    rw [← Option.some.inj same]
    cases permCheck with
    | none => exact image
    | some record =>
        have line : 0 ∉ 10 :: lpcKey := by
          intro nul
          rcases List.mem_cons.mp nul with equal | inKey
          · exact absurd equal (by decide)
          · exact (isWordChar_visible ((keys_spec lpcKey_mem).1 0 inKey)).1 rfl
        have text := noNul_joinLineList record.strings
        simp only [Option.map_some]
        intro nul
        rcases List.mem_append.mp nul with front | rest
        · rcases List.mem_append.mp front with inImage | inKey
          · exact image inImage
          · exact line inKey
        · rcases List.mem_cons.mp rest with equal | inRecord
          · exact absurd equal (by decide)
          · exact text inRecord
  have message : (updateMessage sender job.toJobLists timeStr (permCheck.map TextLines.lines)).map received =
      some [some (fieldsOf (some (match permCheck.map TextLines.lines with
        | some permCheck => lines.flatMap (· ++ [10]) ++ 10 :: lpcKey ++ 61 :: (permCheck.joinLineList [10]).getD []
        | none => lines.flatMap (· ++ [10]))))] := by
    rw [updateMessage, written]
    exact congrArg some (received_sendToLogger sender (some (_, _)) identifier updateKey_mem hasFields_keys.1 sent)
  rw [message, parts, Option.some.injEq, List.cons.injEq, Option.some.injEq, fieldsOf_update_iff whole strings,
    Option.map_eq_none_iff]
  exact and_iff_left rfl

/-! ## The message of a queue -/

/-- A line with an escaped value is taken apart into its key and the value. -/
theorem splitField_escape {key text line : Bytes} (known : key ∈ keys) (clean : 0 ∉ text)
    (escaped : escape text 1 = some line) : splitField (key ++ 61 :: line) = (key, some text) := by
  have plain : ∀ d ∈ key, (decide (d ≠ 61)) = true := by
    intro d member
    exact decide_eq_true (isWordChar_visible ((keys_spec known).1 d member)).2.2.1
  rcases takeWhile_sepFree plain (by decide) with ⟨taken, dropped⟩
  rw [splitField, dropped]
  simp only [taken, unescape_escape clean escaped]

/-- The lines of a queue control file and of the permission record with it. -/
def queuePairs (permCheck info : Option Bytes) : PairList :=
  store
    (store noPairs ⟨queueKey, queueKey_mem, info.bind (escape · 1), clean_escape info⟩)
    ⟨lpcKey, lpcKey_mem, permCheck.bind (escape · 1), clean_escape permCheck⟩

/-- The fields of a queue control file and of the permission record with it. -/
def queueFields (permCheck info : Option Bytes) : List (Bytes × Option Bytes) :=
  (permCheck.map fun text => (lpcKey, some text)).toList ++ (info.map fun text => (queueKey, some text)).toList

theorem lines_queueLine (info : Option Bytes) :
    LineList.setStrValue [] queueKey (info.bind (escape · 1)) =
      ((info.bind (escape · 1)).map (queueKey ++ 61 :: ·)).toList := by
  have free := sepFree_of_word (keys_spec queueKey_mem).1
  rw [LineList.keyed_nil.setStrValue free, filter_escape]
  cases info.bind (escape · 1) with
  | none => rfl
  | some text => rfl

theorem lines_queuePairs (permCheck info : Option Bytes) :
    (queuePairs permCheck info).lines =
      ((permCheck.bind (escape · 1)).map (lpcKey ++ 61 :: ·)).toList ++
        ((info.bind (escape · 1)).map (queueKey ++ 61 :: ·)).toList := by
  have first := sepFree_of_word (keys_spec queueKey_mem).1
  have second := sepFree_of_word (keys_spec lpcKey_mem).1
  have below := keys_apart.2.1
  have stored : (queuePairs permCheck info).lines =
      (LineList.setStrValue [] queueKey (info.bind (escape · 1))).setStrValue lpcKey (permCheck.bind (escape · 1)) := rfl
  have keyed : LineList.Keyed (LineList.setStrValue [] queueKey (info.bind (escape · 1))) :=
    PairList.keyed (store noPairs ⟨queueKey, queueKey_mem, info.bind (escape · 1), clean_escape info⟩)
  rw [stored, keyed.setStrValue second, filter_escape, lines_queueLine]
  cases info.bind (escape · 1) with
  | none =>
      cases permCheck.bind (escape · 1) with
      | none => rfl
      | some text => rfl
  | some text =>
      have key : lineKey (queueKey ++ 61 :: text) = foldCase queueKey := lineKey_keyValue first text
      cases permCheck.bind (escape · 1) with
      | none => simp [eraseKey, key, below.ne']
      | some record =>
          have key' : lineKey (lpcKey ++ 61 :: record) = foldCase lpcKey := lineKey_keyValue second record
          simp [insertKey, key, key', below, below.le]

theorem fieldsOf_join (list : PairList) : fieldsOf (list.lines.joinLineList [10]) = list.lines.map splitField := by
  by_cases empty : list.lines = []
  · rw [empty]
    rfl
  · have parts := list.pieces_lines []
    rw [List.append_nil, pieces, List.append_nil] at parts
    rw [list.joinLineList_eq empty, fieldsOf_some, parts]

theorem joinLineList_spec {lines : LineList} (strings : ∀ line ∈ lines, 0 ∉ line) {text : Bytes}
    (joined : lines.joinLineList [10] = some text) : text ≠ [] ∧ 0 ∉ text := by
  have whole := noNul_joinLineList strings
  rw [joined] at whole
  refine ⟨fun empty => ?_, whole⟩
  unfold LineList.joinLineList at joined
  dsimp only at joined
  split at joined
  · cases joined
  · next shown => exact shown ((Option.some.inj joined).trans empty)

/-- The line of a text that is sent, if there is one, gives the text back. -/
theorem map_splitField_join {key : Bytes} (known : key ∈ keys) {lines : LineList} (strings : ∀ line ∈ lines, 0 ∉ line) :
    (((lines.joinLineList [10]).bind (escape · 1)).map (key ++ 61 :: ·)).toList.map splitField =
      ((lines.joinLineList [10]).map fun text => (key, some text)).toList := by
  cases joined : lines.joinLineList [10] with
  | none => rfl
  | some text =>
      rcases joinLineList_spec strings joined with ⟨shown, clean⟩
      have escaped : escape text 1 = some _ := if_neg shown
      rw [Option.bind_some, escaped, Option.map_some, Option.map_some, Option.toList_some, Option.toList_some,
        List.map_singleton, splitField_escape known clean escaped]

/-- The control file of a queue and the record with it are decoded as they were sent. -/
theorem queue_reported (sender : Sender) (permCheck : Option TextLines) (info : TextLines) :
    received (queueMessage sender (permCheck.map TextLines.lines) info.lines) =
      [some (queueFields (permCheck.bind (·.lines.joinLineList [10])) (info.lines.joinLineList [10]))] := by
  have same : queueMessage sender (permCheck.map TextLines.lines) info.lines =
      sendToLogger sender none queueKey
        ((queuePairs (permCheck.bind (·.lines.joinLineList [10])) (info.lines.joinLineList [10])).lines.joinLineList [10]) := by
    cases permCheck with
    | none =>
        have one := lines_queuePairs none (info.lines.joinLineList [10])
        unfold queueMessage
        simp only [Option.map_none, Option.bind_none, one, lines_queueLine]
        rfl
    | some record => rfl
  rw [same, received_sendToLogger sender none (fun id none => absurd none (Option.not_mem_none id)) queueKey_mem
    hasFields_keys.2.1, fieldsOf_join, lines_queuePairs]
  · refine congrArg (fun fields => [some fields]) ?_
    have control := map_splitField_join queueKey_mem info.strings
    rw [List.map_append, control]
    cases permCheck with
    | none => rfl
    | some record =>
        have line := map_splitField_join lpcKey_mem record.strings
        rw [Option.bind_some, line]
        rfl
  · intro text given
    exact (joinLineList_spec (stringLines_of_pairs (queuePairs _ _)).strings given).2

/-! ## The dump of the queues -/

/-- A field of a dump, by its name and its text. -/
def dumpField (field : Bytes × Bytes) : Bytes :=
  field.1 ++ lit "%3d" ++ field.2.flatMap (escapeChar 3) ++ lit "%250a"

/-- What is left of it after one call of `Unescape`. -/
def dumpLine (field : Bytes × Bytes) : Bytes :=
  field.1 ++ 61 :: field.2.flatMap (unescapedChar 2) ++ percentChar 0 10

/-- What is left of it after another call. -/
def valueLine (field : Bytes × Bytes) : Bytes := field.1 ++ 61 :: field.2.flatMap (unescapedChar 1)

def dumpTexts (queue : DumpedQueue) : List (Bytes × Bytes) :=
  (lit "QUEUE", queue.control.lines.flatten) :: (lit "PRSTATUS", queue.status.lines.flatten) ::
    (queue.jobs.filter (·.lines ≠ [])).map fun job => (lit "UPDATE", (job.lines.joinLineList [10]).getD [])

/-- The fields of a queue as they were dumped. -/
def dumpFields (queue : DumpedQueue) : List (Bytes × Option Bytes) :=
  (dumpTexts queue).map fun field => (field.1, some field.2)

theorem escape_getD (s : Bytes) (level : Nat) : (escape s level).getD [] = s.flatMap (escapeChar level) := by
  unfold escape
  split
  · next empty =>
      rw [empty]
      rfl
  · rfl

/-- However a file is read in parts, its escape is the same. -/
theorem dumpReads_eq (reads : List Bytes) : dumpReads reads = reads.flatten.flatMap (escapeChar 3) := by
  unfold dumpReads
  induction reads with
  | nil => rfl
  | cons buffer reads ih => rw [List.flatMap_cons, ih, escape_getD, List.flatten_cons, List.flatMap_append]

/-- What a dump says of its sender. -/
def dumpPairs (sender : Sender) : PairList :=
  let list := store noPairs ⟨printerKey, printerKey_mem, sender.printer, sender.printerClean⟩
  let list := store list ⟨hostKey, hostKey_mem, sender.host, sender.hostClean⟩
  let list := store list (number processKey processKey_mem sender.process)
  store list ⟨JobLists.updateTime, updateTime_mem, some sender.time, fun v same => by
    rw [← Option.some.inj same]
    exact sender.timeClean⟩

/-- The line of a queue in a dump, without its line end. -/
def dumpMessage (queue : DumpedQueue) : Bytes :=
  lit "DUMP" ++ 61 :: ((dumpPairs queue.sender).lines.flatMap (· ++ [10])).flatMap (escapeChar 1) ++
    (lit "VALUE=" ++ (dumpTexts queue).flatMap dumpField)

theorem escape_bind_getD (msg : Option Bytes) (level : Nat) :
    (msg.bind (escape · level)).getD [] = (msg.getD []).flatMap (escapeChar level) := by
  cases msg with
  | none => rfl
  | some text => exact escape_getD text level

theorem joinLineList_getD (list : PairList) : (list.lines.joinLineList [10]).getD [] = list.lines.flatMap (· ++ [10]) := by
  by_cases empty : list.lines = []
  · rw [empty]
    rfl
  · rw [list.joinLineList_eq empty, Option.getD_some]

theorem dumpQueue_eq (queue : DumpedQueue) : dumpQueue queue = dumpMessage queue ++ [10] := by
  have process := fun l => keys_decimal processKey_mem l queue.sender.process
  have info : (((LineList.setStrValue [] printerKey queue.sender.printer).setStrValue hostKey queue.sender.host).setStrValue
      processKey (some (fittingDigits processKey queue.sender.process))).setStrValue JobLists.updateTime
        (some queue.sender.time) = (dumpPairs queue.sender).lines := rfl
  have jobs : (queue.jobs.filter (·.lines ≠ [])).flatMap (fun job =>
      lit "UPDATE%3d" ++ ((job.lines.joinLineList [10]).bind (escape · 3)).getD [] ++ lit "%250a") =
      ((queue.jobs.filter (·.lines ≠ [])).map fun job =>
        (lit "UPDATE", (job.lines.joinLineList [10]).getD [])).flatMap dumpField := by
    rw [List.flatMap_map]
    refine List.flatMap_congr fun job _ => ?_
    rw [escape_bind_getD]
    rfl
  unfold dumpQueue dumpMessage
  simp only [process, info, jobs]
  simp only [escape_bind_getD, joinLineList_getD, dumpReads_eq, dumpTexts, List.flatMap_cons, dumpField]
  have names : lit "DUMP=" = lit "DUMP" ++ [61] ∧ lit "QUEUE%3d" = lit "QUEUE" ++ lit "%3d" ∧
      lit "PRSTATUS%3d" = lit "PRSTATUS" ++ lit "%3d" := ⟨rfl, rfl, rfl⟩
  rw [names.1, names.2.1, names.2.2]
  simp only [List.append_assoc, List.cons_append, List.nil_append]

/-- One level of a field is taken back. -/
theorem unescapeChars_dumpField {field : Bytes × Bytes} (name : ∀ d ∈ field.1, isAlnum d = true) (rest : Bytes) :
    unescapeChars (dumpField field ++ rest) = dumpLine field ++ unescapeChars rest := by
  have equals : lit "%3d" = percentChar 0 61 := rfl
  have newline : lit "%250a" = percentChar 1 10 := rfl
  rw [dumpField, dumpLine, equals, newline]
  simp only [List.append_assoc]
  rw [unescapeChars_append fun d member => unescaped_of_isAlnum (name d member), unescapeChars_percentChar_zero,
    unescapeChars_flatMap fun c _ => unescapeChars_escapeChar 2 c, unescapeChars_percentChar_succ]
  rfl

theorem unescapeChars_dumpLine {field : Bytes × Bytes} (name : ∀ d ∈ field.1, isAlnum d = true) (rest : Bytes) :
    unescapeChars (dumpLine field ++ rest) = valueLine field ++ 10 :: unescapeChars rest := by
  have equals : Unescaped 61 := ⟨by decide, by decide⟩
  rw [dumpLine, valueLine]
  simp only [List.append_assoc, List.cons_append]
  rw [unescapeChars_append fun d member => unescaped_of_isAlnum (name d member), unescapeChars_cons equals.1,
    if_neg equals.2, unescapeChars_flatMap fun c _ => unescapeChars_unescapedChar 1 c, unescapeChars_percentChar_zero]

/-! ### Reading the dump -/

section

variable (queue : DumpedQueue)

theorem dumpTexts_spec {field : Bytes × Bytes} (member : field ∈ dumpTexts queue) :
    (∀ d ∈ field.1, isAlnum d = true) ∧ 0 ∉ field.2 := by
  have names : [lit "QUEUE", lit "PRSTATUS", lit "UPDATE"].all (·.all isAlnum) = true := rfl
  simp only [List.all_cons, List.all_nil, Bool.and_true, Bool.and_eq_true, List.all_eq_true] at names
  have flat : ∀ text : TextLines, 0 ∉ text.lines.flatten := by
    intro text nul
    rcases List.mem_flatten.mp nul with ⟨line, inside, here⟩
    exact text.strings line inside here
  rcases List.mem_cons.mp member with rfl | rest
  · exact ⟨names.1, flat queue.control⟩
  · rcases List.mem_cons.mp rest with rfl | job
    · exact ⟨names.2.1, flat queue.status⟩
    · rcases List.mem_map.mp job with ⟨ticket, -, rfl⟩
      exact ⟨names.2.2, noNul_joinLineList ticket.strings⟩

/-- The value of a dump in its message. -/
def dumpValue : Bytes := (dumpTexts queue).flatMap dumpLine

/-- A name, and behind it a text that some level of escapes is left of. -/
theorem named_spec {level : Nat} {name text : Bytes} (alnum : ∀ d ∈ name, isAlnum d = true) {d : UInt8}
    (member : d ∈ name ++ 61 :: text.flatMap (unescapedChar (level + 1))) : d ≠ 0 ∧ d ∉ lineEnds := by
  rcases List.mem_append.mp member with inName | rest
  · have word := isWordChar_of_isAlnum (alnum d inName)
    exact ⟨(isWordChar_visible word).1, (isWordChar_spec word).2.2.2.1⟩
  · rcases List.mem_cons.mp rest with rfl | text
    · decide
    · rcases List.mem_flatMap.mp text with ⟨c, -, char⟩
      exact unescapedChar_spec char

theorem cleanValue_dumpValue : CleanValue (dumpValue queue) ∧ dumpValue queue ≠ [] := by
  have newline : percentChar 0 10 = [37, 48] ++ [97] := rfl
  have first : (dumpValue queue).head? = some 81 := rfl
  have final : (dumpValue queue).getLast? = some 97 := by
    rcases List.eq_nil_or_concat' (dumpTexts queue) with none | ⟨front, field, parts⟩
    · cases none
    · rw [dumpValue, parts, List.flatMap_append, List.flatMap_singleton, dumpLine, newline, ← List.append_assoc,
        ← List.append_assoc, List.getLast?_concat]
  refine ⟨⟨fun d member => ?_, fun d head => ?_, fun d last => ?_⟩, fun empty => ?_⟩
  · rcases List.mem_flatMap.mp member with ⟨field, inside, here⟩
    rcases List.mem_append.mp here with front | back
    · exact named_spec (dumpTexts_spec queue inside).1 front
    · have table : (percentChar 0 10).all (fun d => d != 0 && !lineEnds.contains d) = true := rfl
      simpa using List.all_eq_true.mp table d back
  · rw [first] at head
    rw [← Option.some.inj head]
    rfl
  · rw [final] at last
    rw [← Option.some.inj last]
    rfl
  · rw [empty] at first
    cases first

theorem mem_store {list : PairList} {entry : Entry} {line : Bytes} (member : line ∈ (store list entry).lines) :
    lineKey line = foldCase entry.key ∨ line ∈ list.lines := by
  have free := sepFree_of_word (keys_spec entry.known).1
  rcases (JobLists.mem_setStrValue list.keyed free).mp member with ⟨v, -, rfl⟩ | ⟨old, -⟩
  · exact .inl (lineKey_keyValue free v)
  · exact .inr old

theorem below_value {line : Bytes} (member : line ∈ (dumpPairs queue.sender).lines) :
    lineKey line < foldCase (lit "VALUE") := by
  have keys := keys_apart.2.2.2
  rcases mem_store member with time | rest
  · exact time ▸ keys.1
  · rcases mem_store rest with process | rest
    · exact process ▸ keys.2.1
    · rcases mem_store rest with host | rest
      · exact host ▸ keys.2.2.1
      · rcases mem_store rest with printer | none
        · exact printer ▸ keys.2.2.2
        · exact absurd none List.not_mem_nil

theorem word_value : ∀ d ∈ lit "VALUE", isWordChar d = true :=
  have word : (lit "VALUE").all isWordChar = true := rfl
  List.all_eq_true.mp word

/-- The lines of a dump: what it says of its sender, and the value behind it. -/
def dumpList : PairList :=
  setPair (dumpPairs queue.sender) word_value (some (dumpValue queue))
    fun v same => by
      rw [← Option.some.inj same]
      exact (cleanValue_dumpValue queue).1

theorem lines_dumpList :
    (dumpList queue).lines = (dumpPairs queue.sender).lines ++ [lit "VALUE" ++ 61 :: dumpValue queue] := by
  have free := sepFree_of_word word_value
  have stored : (dumpList queue).lines =
      (dumpPairs queue.sender).lines.setStrValue (lit "VALUE") (some (dumpValue queue)) := rfl
  rw [stored, (dumpPairs queue.sender).keyed.setStrValue free, Option.filter_some,
    if_pos (decide_eq_true (cleanValue_dumpValue queue).2)]
  refine insertKey_of_above fun line member => ?_
  rw [lineKey_keyValue free]
  exact below_value queue member

theorem valueLine_spec {field : Bytes × Bytes} (name : ∀ d ∈ field.1, isAlnum d = true) {d : UInt8}
    (member : d ∈ valueLine field) : d ≠ 0 ∧ d ∉ lineEnds :=
  named_spec name member

/-- The value of a dump after the second call of `Unescape`. -/
theorem unescape_dumpValue :
    unescape (dumpValue queue) = ((dumpTexts queue).map valueLine).flatMap (· ++ [10]) := by
  have read : unescapeChars (dumpValue queue) = ((dumpTexts queue).map valueLine).flatMap (· ++ [10]) := by
    have taken : unescapeChars ((dumpTexts queue).flatMap dumpLine ++ []) =
        (dumpTexts queue).flatMap (fun field => valueLine field ++ [10]) ++ unescapeChars [] :=
      unescapeChars_flatMap (fun field member rest => by
        rw [unescapeChars_dumpLine (dumpTexts_spec queue member).1, List.append_assoc, List.singleton_append]) []
    rw [List.append_nil, unescapeChars, List.append_nil] at taken
    rw [List.flatMap_map]
    exact taken
  rw [unescape, read, cstr_of_noNul]
  refine noNul_joined fun line member => ?_
  rcases List.mem_map.mp member with ⟨field, inside, rfl⟩
  exact fun nul => (valueLine_spec (dumpTexts_spec queue inside).1 nul).1 rfl

theorem splitField_valueLine {field : Bytes × Bytes} (name : ∀ d ∈ field.1, isAlnum d = true) (clean : 0 ∉ field.2) :
    splitField (valueLine field) = (field.1, some field.2) := by
  have plain : ∀ d ∈ field.1, (decide (d ≠ 61)) = true := by
    intro d member
    exact decide_eq_true (isWordChar_visible (isWordChar_of_isAlnum (name d member))).2.2.1
  have read := unescapeChars_flatMap (fun c (_ : c ∈ field.2) => unescapeChars_unescapedChar 0 c) []
  have whole : field.2.flatMap (unescapedChar 0) = field.2 := List.flatMap_singleton' field.2
  rw [List.append_nil, unescapeChars, List.append_nil, whole] at read
  rcases takeWhile_sepFree plain (by decide) with ⟨taken, dropped⟩
  rw [splitField, valueLine, dropped]
  simp only [taken, unescape, read, cstr_of_noNul clean]

/-- The first call of `Unescape` leaves the lines of a dump. -/
theorem unescape_dumpMessage :
    unescape (((dumpPairs queue.sender).lines.flatMap (· ++ [10])).flatMap (escapeChar 1) ++
        (lit "VALUE=" ++ (dumpTexts queue).flatMap dumpField)) =
      (dumpPairs queue.sender).lines.flatMap (· ++ [10]) ++ (lit "VALUE" ++ 61 :: dumpValue queue) := by
  have table : (lit "VALUE=").all (fun c => c != 37 && c != 63) = true ∧ lit "VALUE=" = lit "VALUE" ++ [61] ∧
      0 ∉ lit "VALUE=" :=
    ⟨rfl, rfl, by decide⟩
  have name : ∀ c ∈ lit "VALUE=", Unescaped c := by
    intro c member
    have row := List.all_eq_true.mp table.1 c member
    simpa [Unescaped] using row
  have texts : unescapeChars ((dumpTexts queue).flatMap dumpField ++ []) = dumpValue queue ++ unescapeChars [] :=
    unescapeChars_flatMap (fun field member => unescapeChars_dumpField (dumpTexts_spec queue member).1) []
  rw [List.append_nil, unescapeChars, List.append_nil] at texts
  have whole := List.flatMap_singleton' ((dumpPairs queue.sender).lines.flatMap (· ++ [10]))
  have read := unescapeChars_flatMap (fun c (_ : c ∈ (dumpPairs queue.sender).lines.flatMap (· ++ [10])) =>
    unescapeChars_escapeChar 0 c) (lit "VALUE=" ++ (dumpTexts queue).flatMap dumpField)
  rw [unescapeChars_append name, texts] at read
  have clean : 0 ∉ (dumpPairs queue.sender).lines.flatMap (· ++ [10]) ++ (lit "VALUE=" ++ dumpValue queue) := by
    intro nul
    rcases List.mem_append.mp nul with info | rest
    · exact (dumpPairs queue.sender).joined_clean info
    · rcases List.mem_append.mp rest with inName | value
      · exact table.2.2 inName
      · exact ((cleanValue_dumpValue queue).1.inside 0 value).1 rfl
  rw [unescape, read]
  have same : ((dumpPairs queue.sender).lines.flatMap (· ++ [10])).flatMap (unescapedChar 0) =
      (dumpPairs queue.sender).lines.flatMap (· ++ [10]) := whole
  rw [same, cstr_of_noNul clean, table.2.1, List.append_assoc, List.singleton_append]

/-- A dump is decoded into the texts that were dumped. -/
theorem decode_dumpMessage : (decode (dumpMessage queue)).map Decoded.fields = some (dumpFields queue) := by
  have shape : dumpMessage queue = lit "DUMP" ++
      61 :: (((dumpPairs queue.sender).lines.flatMap (· ++ [10])).flatMap (escapeChar 1) ++
        (lit "VALUE=" ++ (dumpTexts queue).flatMap dumpField)) := by
    rw [dumpMessage, List.append_assoc, List.cons_append]
  have name : (lit "DUMP").all (!hashValueSep.contains ·) = true := rfl
  rcases takeWhile_sepFree (List.all_eq_true.mp name) (by decide) with ⟨taken, dropped⟩
  have line : pieces lineEnds (lit "VALUE" ++ 61 :: dumpValue queue) = [lit "VALUE" ++ 61 :: dumpValue queue] := by
    refine pieces_of_whole (fun d member => ?_) (List.append_ne_nil_of_right_ne_nil _ (List.cons_ne_nil _ _))
    rcases List.mem_append.mp member with inName | rest
    · exact (isWordChar_spec (word_value d inName)).2.2.2.1
    · rcases List.mem_cons.mp rest with rfl | value
      · decide
      · exact ((cleanValue_dumpValue queue).1.inside d value).2
  have lines := (dumpPairs queue.sender).pieces_lines (lit "VALUE" ++ 61 :: dumpValue queue)
  rw [line, ← lines_dumpList] at lines
  have found : (dumpList queue).lines.findStrValue valueKey = some (dumpValue queue) := by
    rw [dumpList, findStrValue_setPair, if_pos keys_apart.2.2.1, Option.filter_some,
      if_pos (decide_eq_true (cleanValue_dumpValue queue).2)]
  have whole : ∀ line ∈ (dumpTexts queue).map valueLine, ∀ d ∈ line, d ∉ lineEnds := by
    intro line member d inside
    rcases List.mem_map.mp member with ⟨field, within, rfl⟩
    exact (valueLine_spec (dumpTexts_spec queue within).1 inside).2
  have parts := pieces_flatMap whole (by decide : (10 : UInt8) ∈ lineEnds) []
  rw [List.append_nil, pieces, List.append_nil] at parts
  unfold decode
  rw [shape, dropped]
  simp only [taken, unescape_dumpMessage, (dumpList queue).split_of_pieces isSeparator_hashValueSep lines, found,
    Option.map_some, unescape_dumpValue, if_pos hasFields_keys.2.2, Option.getD_some, split_pieces, parts]
  rw [List.map_map, dumpFields]
  refine congrArg some (List.map_congr_left fun field member => ?_)
  rcases dumpTexts_spec queue member with ⟨name, clean⟩
  exact splitField_valueLine name clean

theorem newline_notMem_dumpMessage : 10 ∉ dumpMessage queue := by
  have texts : 10 ∉ lit "DUMP" ∧ 10 ∉ lit "VALUE=" ∧ 10 ∉ lit "%3d" ∧ 10 ∉ lit "%250a" := by decide
  have escaped : ∀ (level : Nat) (s : Bytes), 10 ∉ s.flatMap (escapeChar level) := by
    intro level s member
    rcases List.mem_flatMap.mp member with ⟨c, -, here⟩
    exact (escapeChar_spec here).2.1 (by decide)
  have field : ∀ field ∈ dumpTexts queue, 10 ∉ dumpField field := by
    intro field member
    have name : 10 ∉ field.1 := fun inside => absurd ((dumpTexts_spec queue member).1 10 inside) (by decide)
    simp only [dumpField, List.mem_append, not_or]
    exact ⟨⟨⟨name, texts.2.2.1⟩, escaped 3 field.2⟩, texts.2.2.2⟩
  intro member
  rcases List.mem_append.mp member with front | value
  · rcases List.mem_append.mp front with inName | rest
    · exact texts.1 inName
    · rcases List.mem_cons.mp rest with equal | info
      · exact absurd equal (by decide)
      · exact escaped 1 _ info
  · rcases List.mem_append.mp value with inName | inFields
    · exact texts.2.1 inName
    · rcases List.mem_flatMap.mp inFields with ⟨text, within, here⟩
      exact field text within here

end

/-- The dump of all queues is decoded queue by queue, and nothing is found in its last line. -/
theorem dump_reported (queues : List DumpedQueue) :
    received (dumpQueueStatus queues) = queues.map (fun queue => some (dumpFields queue)) ++ [none] := by
  have single : ∀ message ∈ queues.map dumpMessage, ∀ d ∈ message, d ∉ ([10] : Bytes) := by
    intro message member d inside newline
    rcases List.mem_map.mp member with ⟨queue, -, rfl⟩
    rw [List.mem_singleton.mp newline] at inside
    exact newline_notMem_dumpMessage queue inside
  have last : pieces [10] (lit "END\n") = [lit "END"] := rfl
  have none : decode (lit "END") = none := by
    have table : (lit "END").dropWhile (!hashValueSep.contains ·) = [] := rfl
    rw [decode, table]
  have stream : queues.flatMap dumpQueue = (queues.map dumpMessage).flatMap (· ++ [10]) := by
    rw [List.flatMap_map]
    exact List.flatMap_congr fun queue _ => dumpQueue_eq queue
  rw [received, dumpQueueStatus, stream, pieces_flatMap single List.mem_cons_self, last, List.map_append, List.map_map,
    List.map_singleton, none]
  refine congrArg (· ++ _) (List.map_congr_left fun queue _ => ?_)
  exact decode_dumpMessage queue

/-! ## The codec -/

/-- What is reported to the logger is decoded by the monitor as it was, in the messages of tickets,
queue control files and dumps, exactly if the ticket's message has no record of permissions and no
value in the ticket looks escaped. -/
theorem logger_codec_iff (sender : Sender) (clean : 0 ∉ timeStr)
    (written : job.toJobLists.setJobTicketFile timeStr = some (image, after))
    (permCheck controlCheck : Option TextLines) (control : TextLines) (queues : List DumpedQueue) :
    ((updateMessage sender job.toJobLists timeStr (permCheck.map TextLines.lines)).map received =
          some [some (updateFields (pieces lineEnds image) (permCheck.map TextLines.lines))] ∧
        received (queueMessage sender (controlCheck.map TextLines.lines) control.lines) =
          [some (queueFields (controlCheck.bind (·.lines.joinLineList [10])) (control.lines.joinLineList [10]))] ∧
        received (dumpQueueStatus queues) = queues.map (fun queue => some (dumpFields queue)) ++ [none]) ↔
      permCheck = none ∧ ∀ line ∈ pieces lineEnds image, valueLooksPlain line = true := by
  rw [update_reported_iff sender clean permCheck written]
  exact and_iff_left ⟨queue_reported sender controlCheck control, dump_reported queues⟩

theorem clean_some {v : Bytes} (clean : CleanValue v) : ∀ w ∈ some v, CleanValue w := fun w same => by
  rwa [← Option.some.inj same]

theorem server_clean : CleanValue (lit "lp") ∧ CleanValue (lit "h1") ∧ CleanValue (lit "10:20:30") := by
  decide

def server : Sender where
  printer := some (lit "lp")
  host := some (lit "h1")
  process := 23
  time := lit "10:20:30"
  printerClean := clean_some server_clean.1
  hostClean := clean_some server_clean.2.1
  timeClean := server_clean.2.2

/-- The fields of two jobs. -/
theorem jobs_clean :
    ([identifierKey, JobLists.hfName, lit "jobname"].all (·.all isWordChar) = true) ∧
      CleanValue (lit "papa@h1+23") ∧ CleanValue (lit "hfA023") ∧ CleanValue (lit "report") ∧
      CleanValue (lit "half is 50%25?") := by
  decide

/-- A job with the given name. -/
def namedJob (jobname : Bytes) (clean : CleanValue jobname) : PairJob :=
  have word : ∀ key ∈ [identifierKey, JobLists.hfName, lit "jobname"], ∀ d ∈ key, isWordChar d = true :=
    fun key member => List.all_eq_true.mp (List.all_eq_true.mp jobs_clean.1 key member)
  let info := setPair noPairs (word identifierKey (by simp)) (some (lit "papa@h1+23")) (clean_some jobs_clean.2.1)
  let info := setPair info (word JobLists.hfName (by simp)) (some (lit "hfA023")) (clean_some jobs_clean.2.2.1)
  ⟨setPair info (word (lit "jobname") (by simp)) (some jobname) (clean_some clean), []⟩

def plainJob : PairJob := namedJob (lit "report") jobs_clean.2.2.2.1

def percentJob : PairJob := namedJob (lit "half is 50%25?") jobs_clean.2.2.2.2

theorem namedJobs_written :
    ((plainJob.toJobLists.setJobTicketFile (lit "10:20:30")).map fun written =>
        (pieces lineEnds written.1).all valueLooksPlain) = some true ∧
      ((percentJob.toJobLists.setJobTicketFile (lit "10:20:30")).map fun written =>
        (pieces lineEnds written.1).all valueLooksPlain) = some false := by
  decide +kernel

/-- The name of the job is not decoded as it was. -/
theorem percent_misread :
    ∃ image after, percentJob.toJobLists.setJobTicketFile (lit "10:20:30") = some (image, after) ∧
      (updateMessage server percentJob.toJobLists (lit "10:20:30") none).map received ≠
        some [some (updateFields (pieces lineEnds image) none)] := by
  rcases Option.map_eq_some_iff.mp namedJobs_written.2 with ⟨⟨image, after⟩, written, escaped⟩
  refine ⟨image, after, written, fun same => ?_⟩
  have plain := ((update_reported_iff server (by decide) none written).mp same).2
  rw [List.all_eq_true.mpr plain] at escaped
  cases escaped

theorem plain_read :
    ∃ image after, plainJob.toJobLists.setJobTicketFile (lit "10:20:30") = some (image, after) ∧
      (updateMessage server plainJob.toJobLists (lit "10:20:30") none).map received =
        some [some (updateFields (pieces lineEnds image) none)] := by
  rcases Option.map_eq_some_iff.mp namedJobs_written.1 with ⟨⟨image, after⟩, written, plain⟩
  have fields : ∀ line ∈ pieces lineEnds image, valueLooksPlain line = true := List.all_eq_true.mp plain
  have codec := (logger_codec_iff server (by decide) written none none ⟨[], fun _ none => absurd none List.not_mem_nil⟩
    []).mpr ⟨rfl, fields⟩
  exact ⟨image, after, written, codec.1⟩

end LoggerCodec

end LPRng
