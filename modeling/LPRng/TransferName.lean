import LPRng.ControlText

/-!
# The names of control files

`Fix_control` makes the name of a control file of the priority, the number and the host of a job, and
`Check_format` of the receiver takes it apart. Where the number ends is guessed from the count of digits
and one dot.
-/

namespace LPRng

namespace TransferName

open JobNumber

/-! ## Taking names apart -/

inductive FileType where
  | dataFile
  | controlFile
  | other (type : UInt8)
  deriving DecidableEq

/-- A message that ends in the name that is checked. -/
def about (text name : Bytes) : Bytes := plpSnprintf 512 (text ++ lit "'" ++ fmtString name ++ lit "'")

/-- A character of a message, and none for a NUL. -/
def shown (c : UInt8) : Bytes := cstr [c]

/-- The check of the first letter of a name. -/
def typeError (name : Bytes) : FileType → Option Bytes
  | .dataFile => if name.getD 0 0 = 100 then none else some (about (lit "data file does not start with 'd' - ") name)
  | .controlFile => if name.getD 0 0 = 99 then none else some (about (lit "control file does not start with 'c' - ") name)
  | .other type => some (plpSnprintf 512 (lit "bad file type '" ++ shown type ++ lit "' - '" ++ fmtString name ++ lit "' "))

/-- The check of the letters behind it, unless the name is one of the HP format. -/
def letterError (name : Bytes) : Option Bytes :=
  if name.getD 1 0 ≠ 102 then
    some (plpSnprintf 512 (lit "second letter must be f not '" ++ shown (name.getD 1 0) ++ lit "' - '" ++
      fmtString name ++ lit "' "))
  else if isAlpha (name.getD 2 0) then none
  else
    some (plpSnprintf 512 (lit "third letter must be letter not '" ++ shown (name.getD 2 0) ++ lit "' - '" ++
      fmtString name ++ lit "' "))

/-- How many of the digits are the number. -/
def numberLength (msg : Bytes) : Nat :=
  let c := (msg.takeWhile isDigit).length
  if c ≤ 3 then c
  else if c ≤ 5 then 3
  else if msg.getD 6 0 = 46 then 3
  else 6

/-- The number in a name and what stands behind it. -/
def splitNumber (hpformat : Bool) (name : Bytes) : Int × Bytes :=
  if hpformat then
    let (n, t) := strtol 10 ((name.drop 2).take 511)
    (toInt32 n, t)
  else
    let msg := (name.drop 3).take 511
    let c := numberLength msg
    (toInt32 (strtol 10 (msg.take c)).1, msg.drop c)

/-- `Clean_name`. -/
def cleanName (s : Bytes) : Bytes := s.map fun c => if isAlnum c ∨ c ∈ lit "-_." then c else 95

end TransferName

open TransferName

/-- `Fix_job_number`, where `long` stands for long numbers without backwards compatibility. -/
def Fields.fixJobNumber (long : Bool) (info : Fields) (n : Int) : Fields :=
  info.setStrValue .number (some (JobNumber.fixJobNumber long (if n = 0 then info.findDecimalValue .number else n)))

namespace TransferName

/-- The host in a name is stored, or compared with the one that is known. What is printed in the message
for another host stands in the buffer that the message is printed to. -/
def storeHost (garbled t : Bytes) (info : Fields) : Fields × Option Bytes :=
  match info.findStrValue .fileHostname with
  | some s => if strcasecmp s t = .eq then (info, none) else (info, some (lit "bad hostname '" ++ garbled))
  | none => (info.setStrValue .fileHostname (some t), none)

def storeNumber (long hpformat : Bool) (garbled name : Bytes) (info : Fields) : Fields × Option Bytes :=
  let (n, t) := splitNumber hpformat name
  match info.findStrValue .number with
  | some _ =>
      let c := info.findDecimalValue .number
      if c ≠ n then
        (info, some (plpSnprintf 512 (lit "job numbers differ '" ++ fmtString name ++ lit "', old " ++ printInt c ++
          lit " and new " ++ printInt n)))
      else storeHost garbled (cleanName t) info
  | none => storeHost garbled (cleanName t) (info.fixJobNumber long n)

/-- `Check_format`. The second component is true where the name is bad. -/
def checkFormat (long : Bool) (garbled : Bytes) (type : FileType) (name : Bytes) (info : Fields) : Fields × Bool :=
  match typeError name type with
  | some msg => (info.setStrValue .formatError (some msg), true)
  | none =>
      let hpformat := name.getD 1 0 = 65
      let (info, error) :=
        match if hpformat then none else letterError name with
        | some msg => (info, some msg)
        | none =>
            let info :=
              if type = FileType.controlFile then info.setStrValue .priority (some [if hpformat then 65 else name.getD 2 0])
              else info
            storeNumber long hpformat garbled name info
      let info := if hpformat then info.setFlagValue .hpformat 1 else info
      match error with
      | some msg => (info.setStrValue .formatError (some msg), true)
      | none => (info, false)

/-! ## Reading a number back -/

open JobNumber

theorem scanNat_padded {width n : Nat} (positive : 0 < width) (narrow : width ≤ 6) (small : n < 10 ^ 6) :
    ∃ c cs, padLeft width (printNat 10 n) = c :: cs ∧ isDigit c = true ∧
      strtolBase 10 (c :: cs) = (10, c :: cs) ∧ scanNat 10 0 (c :: cs) = (n, []) := by
  have padded := padded_padLeft positive narrow small
  rcases padded.exists_cons with ⟨c, cs, text⟩
  refine ⟨c, cs, text, padded.digits c (text ▸ List.mem_cons_self), if_pos (by decide), ?_⟩
  have scanned := scanNat_printNat (b := 10) (by decide) (by decide) n (stopsDigits_nil 10)
  rw [List.append_nil] at scanned
  rw [← text, scanNat_padLeft (by decide), scanned]

theorem strtol_padLeft {width n : Nat} (positive : 0 < width) (narrow : width ≤ 6) (small : n < 10 ^ 6) :
    strtol 10 (padLeft width (printNat 10 n)) = ((n : Int), []) := by
  rcases scanNat_padded positive narrow small with ⟨c, cs, text, digit, base, read⟩
  rw [text, strtol_of_digit digit, base, if_pos ⟨c, rfl, digitVal_lt digit⟩, read, clampLong_of_small (by omega)]

theorem strtol_minus_padLeft {width n : Nat} (positive : 0 < width) (narrow : width ≤ 6) (small : n < 10 ^ 6) :
    strtol 10 (45 :: padLeft width (printNat 10 n)) = (-(n : Int), []) := by
  rcases scanNat_padded positive narrow small with ⟨c, cs, text, digit, base, read⟩
  have clamped : clampLong (-(n : Int)) = -n := by
    unfold clampLong
    omega
  rw [text, strtol_minus, base, if_pos ⟨c, rfl, digitVal_lt digit⟩, read, clamped]

/-- The widths of job numbers and how many there are. -/
def width (long : Bool) : Nat := if long then 6 else 3
def limit (long : Bool) : Nat := if long then 1000000 else 1000

theorem fixJobNumber_eq (long : Bool) (n : Int) :
    JobNumber.fixJobNumber long n = printPadded (width long) (n.tmod (limit long)) := by
  cases long <;> rfl

theorem limit_eq (long : Bool) : limit long = 10 ^ width long := by
  cases long <;> rfl

theorem width_bounds (long : Bool) : 2 < width long ∧ width long ≤ 6 := by
  cases long <;> decide

theorem natAbs_tmod_lt (long : Bool) (n : Int) : (n.tmod (limit long)).natAbs < 10 ^ width long ∧
    10 ^ width long ≤ 10 ^ 6 := by
  refine ⟨?_, Nat.pow_le_pow_right (by decide) (width_bounds long).2⟩
  rw [← limit_eq, Int.natAbs_tmod]
  exact Nat.mod_lt _ (by cases long <;> decide)

/-- The number of a job as it is read. -/
theorem strtol_fixJobNumber (long : Bool) (n : Int) :
    strtol 10 (JobNumber.fixJobNumber long n) = (n.tmod (limit long), []) := by
  have small := natAbs_tmod_lt long n
  have bounds := width_bounds long
  rw [fixJobNumber_eq, printPadded]
  split
  · next negative =>
      have same : -((n.tmod (limit long)).natAbs : Int) = n.tmod (limit long) := by omega
      rw [strtol_minus_padLeft (by omega) (by omega) (by omega), same]
  · rw [strtol_padLeft (by omega) bounds.2 (by omega), Int.natAbs_of_nonneg (by omega)]

/-- The text of a number that is not negative. -/
theorem digits_fixJobNumber (long : Bool) {n : Int} (natural : 0 ≤ n.tmod (limit long)) :
    (∀ c ∈ JobNumber.fixJobNumber long n, isDigit c = true) ∧
      (JobNumber.fixJobNumber long n).length = width long := by
  have small := natAbs_tmod_lt long n
  have bounds := width_bounds long
  rw [fixJobNumber_eq, printPadded, if_neg (by omega)]
  exact ⟨(padded_padLeft (by omega) bounds.2 (by omega)).digits,
    length_padLeft (length_printNat_le (by decide : 2 ≤ 10) (by omega) small.1)⟩

theorem toInt32_number (long : Bool) (n : Int) : toInt32 (n.tmod (limit long)) = n.tmod (limit long) := by
  have small := natAbs_tmod_lt long n
  rw [toInt32, Int.bmod_eq_of_le (by omega) (by omega)]

/-! ## Where a number ends -/

/-- A text that stands behind a number of some digits without being taken for a part of it. -/
def Behind (digits : Nat) (h : Bytes) : Prop :=
  if digits = 3 then (h.takeWhile isDigit).length ≤ 2 ∨ (h.takeWhile isDigit).length = 3 ∧ h[3]? = some 46
  else h.head? ≠ some 46

theorem numberLength_append {long : Bool} {number h : Bytes} (digits : ∀ c ∈ number, isDigit c = true)
    (length : number.length = width long) (behind : Behind (width long) h) :
    numberLength (number ++ h) = width long := by
  have run : ((number ++ h).takeWhile isDigit).length = width long + (h.takeWhile isDigit).length := by
    rw [List.takeWhile_append_of_pos digits, List.length_append, length]
  have next : (number ++ h).getD 6 0 = h.getD (6 - width long) 0 := by
    rw [List.getD_eq_getElem?_getD, List.getElem?_append_right (length ▸ (width_bounds long).2), length,
      List.getD_eq_getElem?_getD]
  unfold numberLength
  dsimp only
  rw [run, next]
  unfold Behind at behind
  cases long
  · have three : width false = 3 := rfl
    rw [three] at behind ⊢
    rw [if_pos rfl] at behind
    rcases behind with few | ⟨all, dot⟩
    · split
      · omega
      · rw [if_pos (by omega)]
    · have here : h.getD (6 - 3) 0 = 46 := by rw [List.getD_eq_getElem?_getD, dot, Option.getD_some]
      rw [if_neg (by omega), if_neg (by omega), if_pos here]
  · have six : width true = 6 := rfl
    rw [six] at behind ⊢
    rw [if_neg (by decide), List.head?_eq_getElem?] at behind
    have other : ¬ h.getD (6 - 6) 0 = 46 := by
      rw [List.getD_eq_getElem?_getD]
      rcases first : h[0]? with _ | c
      · simp
      · rw [first] at behind
        simpa [first] using behind
    rw [if_neg (by omega), if_neg (by omega), if_neg other]

/-- The name of a control file is taken apart where its number ends. -/
theorem splitNumber_append {long : Bool} {n : Int} (natural : 0 ≤ n.tmod (limit long)) {p : UInt8} {h : Bytes}
    (behind : Behind (width long) h) (fits : width long + h.length ≤ 511) :
    splitNumber false (99 :: 102 :: p :: (JobNumber.fixJobNumber long n ++ h)) = (n.tmod (limit long), h) := by
  rcases digits_fixJobNumber long natural with ⟨digits, length⟩
  have whole : ((99 :: 102 :: p :: (JobNumber.fixJobNumber long n ++ h)).drop 3).take 511 =
      JobNumber.fixJobNumber long n ++ h :=
    List.take_of_length_le (by rw [List.drop_succ_cons, List.drop_succ_cons, List.drop_succ_cons, List.drop_zero,
      List.length_append, length]; exact fits)
  unfold splitNumber
  rw [if_neg Bool.false_ne_true, whole]
  dsimp only
  rw [numberLength_append digits length behind, ← length, List.take_left, List.drop_left, strtol_fixJobNumber]
  dsimp only
  rw [toInt32_number]

/-! ## Hosts -/

/-- A number of an address. -/
structure Octet (a : Bytes) : Prop where
  given : a ≠ []
  short : a.length ≤ 3
  digits : ∀ c ∈ a, isDigit c = true

/-- The host of a file: a name that starts with a letter or an address of four numbers. -/
structure FileHost (h : Bytes) : Prop where
  clean : ∀ c ∈ h, isAlnum c = true ∨ c ∈ lit "-_."
  shape : (∃ c ∈ h.head?, isAlpha c = true) ∨
    ∃ a b c d, Octet a ∧ Octet b ∧ Octet c ∧ Octet d ∧ h = a ++ 46 :: (b ++ 46 :: (c ++ 46 :: d))

/-- A host as it is put into a name. -/
def cutHost (short : Bool) (h : Bytes) : Bytes := if short then h.takeWhile (· ≠ 46) else h

/-- An address of which the first of three digits is left, behind a number of three digits. -/
def Runs (long short : Bool) (h : Bytes) : Prop :=
  long = false ∧ short = true ∧ (h.takeWhile isDigit).length = 3

theorem cleanName_of_clean {h : Bytes} (clean : ∀ c ∈ h, isAlnum c = true ∨ c ∈ lit "-_.") : cleanName h = h :=
  (List.map_congr_left fun c member => if_pos (clean c member)).trans (List.map_id h)

theorem isDigit_of_isAlpha {c : UInt8} (letter : isAlpha c = true) : isDigit c = false ∧ c ≠ 46 := by
  have table : ∀ c, (!isAlpha c || !isDigit c && c != 46) = true := forall_byte (by decide +kernel)
  have row := table c
  rw [letter] at row
  simpa using row

theorem behind_letter (digits : Nat) {h : Bytes} (letter : ∃ c ∈ h.head?, isAlpha c = true) : Behind digits h := by
  rcases letter with ⟨c, first, alpha⟩
  rcases List.head?_eq_some_iff.mp first with ⟨rest, rfl⟩
  have other := isDigit_of_isAlpha alpha
  unfold Behind
  split
  · rw [List.takeWhile_cons_of_neg (by simp [other.1])]
    exact .inl (Nat.zero_le 2)
  · exact fun dot => other.2 (Option.some.inj dot)

theorem takeWhile_octet {a rest : Bytes} (octet : Octet a) : (a ++ 46 :: rest).takeWhile isDigit = a := by
  rw [List.takeWhile_append_of_pos octet.digits, List.takeWhile_cons_of_neg (by decide), List.append_nil]

theorem cutHost_octet {a rest : Bytes} (octet : Octet a) : cutHost true (a ++ 46 :: rest) = a := by
  have inside : ∀ c ∈ a, decide (c ≠ 46) = true := by
    intro c member
    refine decide_eq_true fun dot => ?_
    have digit := octet.digits c member
    rw [dot] at digit
    cases digit
  rw [cutHost, if_pos rfl, List.takeWhile_append_of_pos inside, List.takeWhile_cons_of_neg (by decide), List.append_nil]

theorem head_octet {a : Bytes} (octet : Octet a) (rest : Bytes) : (a ++ rest).head? ≠ some 46 := by
  rcases List.exists_cons_of_ne_nil octet.given with ⟨c, cs, rfl⟩
  intro dot
  have digit := octet.digits c List.mem_cons_self
  rw [Option.some.inj dot] at digit
  cases digit

/-- The host of a file is told from the number, unless it is cut to three digits behind a number of three. -/
theorem behind_cutHost {long short : Bool} {h : Bytes} (host : FileHost h) (apart : ¬ Runs long short h) :
    Behind (width long) (cutHost short h) ∧ cutHost short h ≠ [] := by
  rcases host.shape with ⟨c, first, alpha⟩ | ⟨a, b, c, d, octet, -, -, -, parts⟩
  · have letter : (cutHost short h).head? = some c := by
      rcases List.head?_eq_some_iff.mp first with ⟨rest, rfl⟩
      unfold cutHost
      split
      · have kept : decide (c ≠ 46) = true := decide_eq_true (isDigit_of_isAlpha alpha).2
        rw [List.takeWhile_cons, if_pos kept]
        rfl
      · rfl
    refine ⟨behind_letter _ ⟨c, letter, alpha⟩, fun empty => ?_⟩
    rw [empty] at letter
    cases letter
  · cases short
    · have whole : cutHost false h = a ++ 46 :: (b ++ 46 :: (c ++ 46 :: d)) := parts
      rw [whole]
      refine ⟨?_, List.append_ne_nil_of_left_ne_nil octet.given _⟩
      unfold Behind
      split
      · rw [takeWhile_octet octet]
        have short := octet.short
        rcases Nat.lt_or_ge 2 a.length with three | few
        · refine .inr ⟨by omega, ?_⟩
          rw [List.getElem?_append_right (by omega), show 3 - a.length = 0 by omega]
          rfl
        · exact .inl few
      · exact head_octet octet _
    · have cut : cutHost true h = a := parts ▸ cutHost_octet octet
      rw [cut]
      refine ⟨?_, octet.given⟩
      have whole : a.takeWhile isDigit = a := List.takeWhile_eq_self_iff.mpr octet.digits
      unfold Behind
      split
      · next three =>
          rw [whole]
          refine .inl ?_
          by_contra many
          have short := octet.short
          refine apart ⟨?_, rfl, ?_⟩
          · cases long
            · rfl
            · cases three
          · rw [parts, takeWhile_octet octet]
            omega
      · have front := head_octet octet []
        rwa [List.append_nil] at front

/-! ## Names that are made -/

/-- The priority that is sent with a job. -/
def sentPriority (config : ControlConfig) (info : Fields) (destination : Option Fields) : Bytes :=
  (((destination.bind (·.findStrValue .priority)).or (info.findStrValue .priority)).or config.defaultPriority).getD (lit "A")

/-- The number that is sent with a job. -/
def sentNumber (info : Fields) : Int :=
  let n := toInt32 (info.findDecimalValue .number + info.findDecimalValue .sequence)
  if n = 0 then info.findDecimalValue .number else n

/-- The host that the files of a job are sent from. -/
def fileHost (config : ControlConfig) (info : Fields) : Bytes :=
  ((config.setFileHostname info).findStrValue .fileHostname).getD []

def sendsLong (config : ControlConfig) : Bool := config.longNumber && !config.backwardsCompatible
def sendsShort (config : ControlConfig) : Bool := config.backwardsCompatible || config.useShorthost

theorem findStrValue_setStrValue {info : Fields} {key : Key} {v : Bytes} (given : v ≠ []) :
    (info.setStrValue key (some v)).findStrValue key = some v := by
  rw [Fields.findStrValue, Fields.setStrValue_self, Option.filter_some, if_pos (decide_eq_true given)]

theorem fixJobNumber_ne_nil (long : Bool) (n : Int) : JobNumber.fixJobNumber long n ≠ [] := by
  have given : ∀ {width text}, Padded width text → text ≠ [] := by
    intro width text padded
    rcases padded.exists_cons with ⟨c, cs, rfl⟩
    exact List.cons_ne_nil c cs
  rcases padded_fixJobNumber long n with padded | ⟨u, text, -⟩
  · exact given padded
  · rw [text]
    exact List.cons_ne_nil 45 u

/-- What `Fix_control` puts into the name of a control file. -/
theorem cftransfername_eq (config : ControlConfig) (info : Fields) (destination : Option Fields) :
    (config.fixInfo info destination).findStrValue .cftransfername =
      some (lit "cf" ++ ((sentPriority config info destination).take 1 ++
        (JobNumber.fixJobNumber (sendsLong config) (sentNumber info) ++
          cutHost (sendsShort config) (fileHost config info)))) := by
  have number : ∀ key ≠ Key.number, config.setNumber info key = info key := fun key other =>
    Fields.setStrValue_of_ne other _
  have apart : Key.fileHostname ≠ .number ∧ Key.fromhost ≠ .number ∧ Key.priority ≠ .number ∧
      Key.number ≠ .fileHostname ∧ Key.priority ≠ .fileHostname ∧ Key.cftransfername ≠ .identifier := by decide
  rcases apart with ⟨hostNumber, fromNumber, priorityNumber, numberHost, priorityHost, nameIdentifier⟩
  have host : config.setFileHostname (config.setNumber info) .fileHostname =
      config.setFileHostname info .fileHostname := by
    unfold ControlConfig.setFileHostname
    simp only [Fields.findStrValue, number .fileHostname hostNumber, number .fromhost fromNumber]
    split
    · exact number .fileHostname hostNumber
    · rw [Fields.setStrValue_self, Fields.setStrValue_self]
  have text : (config.setFileHostname (config.setNumber info)).findStrValue .number =
      some (JobNumber.fixJobNumber (sendsLong config) (sentNumber info)) := by
    rw [Fields.findStrValue, config.setFileHostname_of_ne _ numberHost]
    exact findStrValue_setStrValue (fixJobNumber_ne_nil _ _)
  have priority : (config.setFileHostname (config.setNumber info)).findStrValue .priority =
      info.findStrValue .priority := by
    rw [Fields.findStrValue, config.setFileHostname_of_ne _ priorityHost, number .priority priorityNumber]
  have known : (config.setFileHostname (config.setNumber info)).findStrValue .fileHostname =
      (config.setFileHostname info).findStrValue .fileHostname := host
  rw [ControlConfig.fixInfo, Fields.findStrValue, Fields.makeIdentifier_of_ne _ nameIdentifier,
    ControlConfig.setCfTransferName, text, priority, known]
  exact findStrValue_setStrValue (List.append_ne_nil_of_left_ne_nil (by decide) _)

theorem clean_cutHost {short : Bool} {h : Bytes} (clean : ∀ c ∈ h, isAlnum c = true ∨ c ∈ lit "-_.") :
    cleanName (cutHost short h) = cutHost short h := by
  refine cleanName_of_clean fun c member => clean c ?_
  unfold cutHost at member
  split at member
  · exact List.takeWhile_subset _ member
  · exact member

/-- The number that a job of the receiver gets. -/
theorem fixJobNumber_new {long : Bool} {receiver : Fields} {n : Int} (new : receiver .number = none) :
    receiver.fixJobNumber long n = receiver.setStrValue .number (some (JobNumber.fixJobNumber long n)) := by
  unfold Fields.fixJobNumber
  split
  · next zero => rw [Fields.findDecimalValue, Fields.findStrValue, new, zero]
  · rfl

theorem decimalOfText_fixJobNumber (long : Bool) (n : Int) :
    decimalOfText (JobNumber.fixJobNumber long n) = n.tmod (limit long) := by
  rw [decimalOfText, strtol_fixJobNumber]
  exact (if_pos rfl).trans (toInt32_number long n)

/-- A name that is made of a letter, a number and a host is taken apart into these. -/
theorem checkFormat_parts {sent long : Bool} {garbled : Bytes} {receiver : Fields} {p : UInt8} {n : Int} {h : Bytes}
    (alpha : isAlpha p = true) (natural : 0 ≤ n.tmod (limit sent)) (behind : Behind (width sent) h)
    (clean : cleanName h = h) (fits : width sent + h.length ≤ 511)
    (new : receiver .number = none ∧ receiver .fileHostname = none) :
    checkFormat long garbled .controlFile (99 :: 102 :: p :: (JobNumber.fixJobNumber sent n ++ h)) receiver =
      (((receiver.setStrValue .priority (some [p])).setStrValue .number
        (some (JobNumber.fixJobNumber long (n.tmod (limit sent))))).setStrValue .fileHostname (some h), false) := by
  have apart : Key.number ≠ .priority ∧ Key.fileHostname ≠ .priority ∧ Key.fileHostname ≠ .number := by decide
  rcases apart with ⟨numberPriority, hostPriority, hostNumber⟩
  have type : typeError (99 :: 102 :: p :: (JobNumber.fixJobNumber sent n ++ h)) .controlFile = none := rfl
  have letters : letterError (99 :: 102 :: p :: (JobNumber.fixJobNumber sent n ++ h)) = none := by
    rw [letterError, if_neg (fun other => other rfl)]
    exact if_pos alpha
  have unnumbered : (receiver.setStrValue .priority (some [p])) .number = none :=
    (Fields.setStrValue_of_ne numberPriority _).trans new.1
  have unhosted : ((receiver.setStrValue .priority (some [p])).setStrValue .number
      (some (JobNumber.fixJobNumber long (n.tmod (limit sent))))) .fileHostname = none :=
    (Fields.setStrValue_of_ne hostNumber _).trans ((Fields.setStrValue_of_ne hostPriority _).trans new.2)
  have stored : storeNumber long false garbled (99 :: 102 :: p :: (JobNumber.fixJobNumber sent n ++ h))
      (receiver.setStrValue .priority (some [p])) =
      (((receiver.setStrValue .priority (some [p])).setStrValue .number
        (some (JobNumber.fixJobNumber long (n.tmod (limit sent))))).setStrValue .fileHostname (some h), none) := by
    unfold storeNumber
    rw [splitNumber_append natural behind fits]
    dsimp only
    rw [Fields.findStrValue, unnumbered]
    dsimp only
    rw [clean, fixJobNumber_new unnumbered, storeHost, Fields.findStrValue, unhosted]
  unfold checkFormat
  rw [type, letters]
  have plain : ¬ (99 :: 102 :: p :: (JobNumber.fixJobNumber sent n ++ h)).getD 1 0 = 65 := by
    intro hp
    cases hp
  have third : (99 :: 102 :: p :: (JobNumber.fixJobNumber sent n ++ h)).getD 2 0 = p := rfl
  simp only [if_neg plain, third, if_true, decide_eq_false plain, stored]

/-- The receiver of a control file finds the host, the letter and the number that its name was made of. -/
theorem checkFormat_recovers (config : ControlConfig) {info : Fields} {destination : Option Fields} (long : Bool)
    (garbled : Bytes) {receiver : Fields} {p : UInt8}
    (letter : (sentPriority config info destination).head? = some p) (alpha : isAlpha p = true)
    (natural : 0 ≤ (sentNumber info).tmod (limit (sendsLong config))) (host : FileHost (fileHost config info))
    (apart : ¬ Runs (sendsLong config) (sendsShort config) (fileHost config info))
    (fits : width (sendsLong config) + (cutHost (sendsShort config) (fileHost config info)).length ≤ 511)
    (new : receiver .number = none ∧ receiver .fileHostname = none) :
    let name := ((config.fixInfo info destination).findStrValue .cftransfername).getD []
    let result := checkFormat long garbled .controlFile name receiver
    result.2 = false ∧ result.1.findStrValue .priority = some [p] ∧
      result.1.findStrValue .fileHostname = some (cutHost (sendsShort config) (fileHost config info)) ∧
      result.1.findDecimalValue .number = ((sentNumber info).tmod (limit (sendsLong config))).tmod (limit long) := by
  intro name result
  rcases behind_cutHost host apart with ⟨behind, given⟩
  have first : (sentPriority config info destination).take 1 = [p] := by
    rcases List.head?_eq_some_iff.mp letter with ⟨rest, text⟩
    rw [text, List.take_succ_cons, List.take_zero]
  have text : name = 99 :: 102 :: p :: (JobNumber.fixJobNumber (sendsLong config) (sentNumber info) ++
      cutHost (sendsShort config) (fileHost config info)) := by
    change ((config.fixInfo info destination).findStrValue .cftransfername).getD [] = _
    rw [cftransfername_eq, first]
    rfl
  have parts : result = _ := (congrArg (checkFormat long garbled .controlFile · receiver) text).trans
    (checkFormat_parts alpha natural behind (clean_cutHost host.clean) fits new)
  have apart : Key.priority ≠ .number ∧ Key.priority ≠ .fileHostname ∧ Key.number ≠ .fileHostname := by decide
  rcases apart with ⟨priorityNumber, priorityHost, numberHost⟩
  rw [parts]
  dsimp only
  refine ⟨rfl, ?_, findStrValue_setStrValue given, ?_⟩
  · rw [Fields.findStrValue, Fields.setStrValue_of_ne priorityHost, Fields.setStrValue_of_ne priorityNumber]
    exact findStrValue_setStrValue (List.cons_ne_nil p [])
  · rw [Fields.findDecimalValue, Fields.findStrValue, Fields.setStrValue_of_ne numberHost]
    have number : (receiver.setStrValue .priority (some [p])).setStrValue .number
        (some (JobNumber.fixJobNumber long ((sentNumber info).tmod (limit (sendsLong config))))) .number = _ :=
      findStrValue_setStrValue (fixJobNumber_ne_nil long _)
    rw [number]
    exact decimalOfText_fixJobNumber long _

/-- A sender that gives the names of hosts whole or cut. -/
def sender (short : Bool) : ControlConfig where
  nlineAfterFile := false
  backwardsCompatible := false
  longNumber := false
  useShorthost := short
  suppressHeader := false
  alwaysBanner := false
  useQueuename := false
  forceQueuename := none
  queueName := none
  printer := none
  controlFileLineOrder := none
  defaultPriority := none
  fqdnHost := lit "h1"

def sentFrom (host : Bytes) : Fields :=
  (Fields.empty.setStrValue .number (some (lit "5"))).setStrValue .fileHostname (some host)

theorem octet_of_digits {a : Bytes} (digits : (a ≠ [] ∧ a.length ≤ 3) ∧ a.all isDigit = true) : Octet a :=
  ⟨digits.1.1, digits.1.2, List.all_eq_true.mp digits.2⟩

theorem address_recovered :
    let name := (((sender false).fixInfo (sentFrom (lit "192.168.1.7")) none).findStrValue .cftransfername).getD []
    let result := checkFormat true [] .controlFile name .empty
    result.2 = false ∧ result.1.findStrValue .priority = some [65] ∧
      result.1.findStrValue .fileHostname = some (cutHost (sendsShort (sender false))
        (fileHost (sender false) (sentFrom (lit "192.168.1.7")))) ∧
      result.1.findDecimalValue .number = ((sentNumber (sentFrom (lit "192.168.1.7"))).tmod
        (limit (sendsLong (sender false)))).tmod (limit true) := by
  refine checkFormat_recovers (sender false) true [] (by decide) (by decide) (by decide) ⟨?_, .inr ?_⟩
    (fun runs => Bool.false_ne_true runs.2.1) (by decide) ⟨rfl, rfl⟩
  · have clean : (fileHost (sender false) (sentFrom (lit "192.168.1.7"))).all
        (fun c => decide (isAlnum c = true ∨ c ∈ lit "-_.")) = true := by decide
    exact fun c member => of_decide_eq_true (List.all_eq_true.mp clean c member)
  · exact ⟨lit "192", lit "168", lit "1", lit "7", octet_of_digits (by decide), octet_of_digits (by decide),
      octet_of_digits (by decide), octet_of_digits (by decide), by decide⟩

/-- The host of a sender that cuts names is not the one that its receiver finds. -/
theorem cut_not_recovered :
    ¬ ∀ (config : ControlConfig) (info : Fields) (p : UInt8),
      (sentPriority config info none).head? = some p → isAlpha p = true →
      0 ≤ (sentNumber info).tmod (limit (sendsLong config)) → FileHost (fileHost config info) →
      (checkFormat false [] .controlFile (((config.fixInfo info none).findStrValue .cftransfername).getD []) .empty).1
        .fileHostname = some (fileHost config info) := by
  intro recovers
  have host : FileHost (fileHost (sender true) (sentFrom (lit "h1.b"))) := by
    have clean : (fileHost (sender true) (sentFrom (lit "h1.b"))).all
        (fun c => decide (isAlnum c = true ∨ c ∈ lit "-_.")) = true := by decide
    exact ⟨fun c member => of_decide_eq_true (List.all_eq_true.mp clean c member), .inl ⟨104, by decide, by decide⟩⟩
  have same := recovers (sender true) (sentFrom (lit "h1.b")) 65 (by decide) (by decide) (by decide) host
  exact absurd same (by decide)

end TransferName

end LPRng
