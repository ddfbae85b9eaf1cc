import LPRng.HeaderLine

/-!
# Lines of a queue status

`Get_queue_status` prints a line for each job into a buffer of 512 bytes: columns of fixed width, the
name of the job, and at the end its size and time. Blanks are taken out where the columns are too
wide, and the line is cut to the width of the configuration. Every access goes to a place that is counted
from lengths of texts, and none of them is checked.
-/

namespace LPRng

namespace StatusLine

/-! ## Buffers -/

def padRight (width : Nat) (s : Bytes) : Bytes := s ++ List.replicate (width - s.length) 32

def padBlank (width : Nat) (s : Bytes) : Bytes := List.replicate (width - s.length) 32 ++ s

/-- The argument of a `%s`. -/
def fmtArg (s : Option Bytes) : Bytes :=
  match s with
  | some s => fmtString s
  | none => lit "<NULL>"

/-- A loop that takes the last blank of a text away if one stands before it, as long as the text is too
long. It is given the text from its end. There is no result if it reads in front of the buffer. -/
def trimBlanks (blank : UInt8 → Bool) : Nat → Bytes → Option Bytes
  | 0, s => some s
  | _ + 1, [] => none
  | _ + 1, [a] => if blank a then none else some [a]
  | excess + 1, a :: b :: s => if blank a && blank b then trimBlanks blank excess (b :: s) else some (a :: b :: s)

def trimEnd (blank : UInt8 → Bool) (excess : Nat) (msg : Bytes) : Option Bytes :=
  (trimBlanks blank excess msg.reverse).map List.reverse

/-- A loop that takes a blank in front of another away, as long as the text is too long. -/
def squeeze : Nat → Bytes → Bytes
  | 0, s => s
  | _ + 1, [] => []
  | _ + 1, [a] => [a]
  | excess + 1, a :: b :: s => if a = 32 ∧ b = 32 then squeeze excess (b :: s) else a :: squeeze (excess + 1) (b :: s)

/-- The blanks in front of the size go first, then those at the end of the line. -/
def removeSpaces (msg : Bytes) : Nat → Bytes → Option (Bytes × Bytes)
  | 0, sizestr => some (msg, sizestr)
  | excess + 1, [] => (trimEnd isSpace (excess + 1) msg).map (·, [])
  | excess + 1, c :: sizestr =>
      if isSpace c then removeSpaces msg excess sizestr else (trimEnd isSpace (excess + 1) msg).map (·, c :: sizestr)

/-- A blank at `len - 1`, and the end of the text behind it; `len` is not more than the length of the text. -/
def storeBlank (msg : Bytes) (len : Int) : Option Bytes :=
  if 1 ≤ len ∧ len < 512 then some (msg.take (len - 1).toNat ++ [32]) else none

/-! ## Blanks that can be taken away -/

/-- How many blanks at the end of a text have another in front of them. The text is given from its end. -/
def spare (blank : UInt8 → Bool) : Bytes → Nat
  | a :: b :: s => if blank a && blank b then spare blank (b :: s) + 1 else 0
  | _ => 0

/-- How many blanks of a text have another behind them. -/
def doubled : Bytes → Nat
  | a :: b :: s => doubled (b :: s) + if a = 32 ∧ b = 32 then 1 else 0
  | _ => 0

theorem spare_le (blank : UInt8 → Bool) (s : Bytes) {c : UInt8} : spare blank (s ++ [c]) ≤ s.length := by
  induction s with
  | nil => exact Nat.le_refl 0
  | cons a s ih =>
      cases s with
      | nil =>
          simp only [List.cons_append, List.nil_append, spare]
          split <;> simp
      | cons b s =>
          simp only [List.cons_append, spare, List.length_cons] at ih ⊢
          split
          · exact Nat.succ_le_succ ih
          · exact Nat.zero_le _

/-- Blanks are taken from the end of a text that has something else in front of them. -/
theorem trimBlanks_eq (blank : UInt8 → Bool) {c : UInt8} (visible : blank c = false) (excess : Nat) (s : Bytes) :
    trimBlanks blank excess (s ++ [c]) = some ((s ++ [c]).drop (min excess (spare blank (s ++ [c])))) := by
  induction s generalizing excess with
  | nil =>
      cases excess with
      | zero => rfl
      | succ excess => simp [trimBlanks, spare, visible]
  | cons a s ih =>
      cases excess with
      | zero => simp [trimBlanks]
      | succ excess =>
          rcases head : s ++ [c] with _ | ⟨b, t⟩
          · exact absurd head (by simp)
          · rw [List.cons_append, head]
            simp only [trimBlanks, spare]
            split
            · rw [← head, ih excess, Nat.succ_min_succ, List.drop_succ_cons, head]
            · rfl

theorem trimEnd_eq (blank : UInt8 → Bool) {c : UInt8} (visible : blank c = false) (excess : Nat) (s : Bytes) :
    trimEnd blank excess (c :: s) =
      some ((c :: s).take (s.length + 1 - min excess (spare blank (c :: s).reverse))) := by
  rw [trimEnd, List.reverse_cons, trimBlanks_eq blank visible]
  simp [List.reverse_drop]

theorem doubled_le (a : UInt8) (s : Bytes) : doubled (a :: s) ≤ s.length := by
  induction s generalizing a with
  | nil => exact Nat.le_refl 0
  | cons b s ih =>
      have rest := ih b
      simp only [doubled, List.length_cons]
      split <;> omega

theorem squeeze_cons (excess : Nat) (a : UInt8) (s : Bytes) : ∃ t, squeeze excess (a :: s) = a :: t := by
  induction s generalizing a excess with
  | nil => cases excess <;> exact ⟨[], rfl⟩
  | cons b s ih =>
      cases excess with
      | zero => exact ⟨b :: s, rfl⟩
      | succ excess =>
          by_cases blanks : a = 32 ∧ b = 32
          · rcases ih excess b with ⟨t, same⟩
            exact ⟨t, by rw [squeeze, if_pos blanks, same, blanks.1, blanks.2]⟩
          · exact ⟨squeeze (excess + 1) (b :: s), by rw [squeeze, if_neg blanks]⟩

theorem length_squeeze (excess : Nat) (s : Bytes) :
    (squeeze excess s).length = s.length - min excess (doubled s) := by
  fun_induction squeeze excess s with
  | case1 s => simp
  | case2 => rfl
  | case3 => rfl
  | case4 excess a b s blanks ih =>
      have few := doubled_le b s
      simp only [ih, doubled, if_pos blanks, List.length_cons]
      omega
  | case5 excess a b s other ih =>
      have few := doubled_le b s
      simp only [ih, doubled, if_neg other, List.length_cons]
      omega

theorem doubled_squeeze (excess : Nat) (s : Bytes) :
    doubled (squeeze excess s) = doubled s - min excess (doubled s) := by
  fun_induction squeeze excess s with
  | case1 s => simp
  | case2 => rfl
  | case3 => rfl
  | case4 excess a b s blanks ih =>
      rw [ih, doubled, if_pos blanks]
      omega
  | case5 excess a b s other ih =>
      rcases squeeze_cons (excess + 1) b s with ⟨t, same⟩
      rw [same] at ih ⊢
      rw [doubled, doubled, if_neg other, ih]
      rfl

/-! ## The line -/

/-- What is known of a job: its rank, fields of its ticket, and the texts of its size and time. The rank
is a number or a word of `Job_printable`, which never begins with a blank. -/
structure StatusJob where
  number : Bytes
  ranked : ∃ c s, number = c :: s ∧ isSpace c = false
  identifier : Bytes
  priority : Option Bytes
  cls : Option Bytes
  jobnumber : Int
  joberror : Option Bytes
  jobname : Option Bytes
  filenames : Option Bytes
  size : Bytes
  time : Bytes

section

variable (max : Int) (classInStatus : Bool) (job : StatusJob)

/-- The priority, with the class if it is not the same. -/
def priorityColumn : Option Bytes :=
  match job.cls with
  | none => job.priority
  | some cls =>
      if some cls ≠ job.priority ∨ classInStatus then
        some (plpSnprintf 32 (fmtString (job.priority.getD (lit "?")) ++ 47 :: fmtString cls))
      else job.priority

/-- The rank, the owner, the class and the number of the job. -/
def columns : Option Bytes :=
  let msg := plpSnprintf 512 (padRight 6 (fmtString job.number) ++ 32 :: padRight 28 (fmtString job.identifier) ++ [32])
  (trimEnd isSpace (msg.length - 36) msg).bind fun msg =>
    let buffer := plpSnprintf 512
      (padRight 1 (fmtArg (priorityColumn classInStatus job)) ++ 32 :: padBlank 5 (printInt job.jobnumber) ++ [32])
    let buffer := squeeze (buffer.length - 8) buffer
    (trimEnd (· == 32) (msg.length + buffer.length - 44) msg).map fun msg =>
      let buffer := squeeze (msg.length + buffer.length - 44) buffer
      msg ++ plpSnprintf (512 - msg.length) (fmtString buffer)

def sizeColumn : Bytes := plpSnprintf 46 (padBlank 5 (fmtString job.size) ++ 32 :: fmtString job.time)

/-- The size at the end of a line. -/
def addSize (msg sizestr : Bytes) : Option Bytes :=
  let len := min max 511 - sizestr.length
  let msg := padRight len.toNat msg
  if 0 < len ∧ 512 ≤ msg.length then none
  else
    (removeSpaces msg (msg.length + sizestr.length - max).toNat sizestr).bind fun (msg, sizestr) =>
      (if max ≤ msg.length + sizestr.length then storeBlank msg (max - sizestr.length) else some msg).bind fun msg =>
        if msg.length + sizestr.length < 512 then some (msg ++ sizestr) else none

/-- The line of a job in the long format. -/
def statusLine : Option Bytes :=
  (columns classInStatus job).bind fun msg =>
    (match job.joberror with
    | some joberror => some (msg ++ plpSnprintf (512 - msg.length) (lit "ERROR: " ++ fmtString joberror))
    | none =>
        addSize max (msg ++ plpSnprintf (512 - msg.length) (fmtArg (job.jobname.or job.filenames)))
          (sizeColumn job)).bind fun msg =>
      if max < 512 then if 0 ≤ max then some (msg.take max.toNat) else none else some msg

end

/-! ## The width of the columns -/

section

variable (classInStatus : Bool) (job : StatusJob)

def ownerText : Bytes :=
  plpSnprintf 512 (padRight 6 (fmtString job.number) ++ 32 :: padRight 28 (fmtString job.identifier) ++ [32])

/-- The rank and the owner, in 36 characters or in as many as they take. -/
def ownerColumns : Bytes :=
  (ownerText job).take (max 36 ((ownerText job).length - spare isSpace (ownerText job).reverse))

/-- The class and the number of the job. -/
def classColumns : Bytes :=
  plpSnprintf 512
    (padRight 1 (fmtArg (priorityColumn classInStatus job)) ++ 32 :: padBlank 5 (printInt job.jobnumber) ++ [32])

/-- The columns have 44 characters, or as many as they take with single blanks. -/
def columnsWidth : Nat :=
  let owner := ownerColumns job
  let cls := classColumns classInStatus job
  max 44 (owner.length - spare (· == 32) owner.reverse + (cls.length - doubled cls))

end

/-- A text that does not begin with a blank. -/
def Headed (s : Bytes) : Prop := ∃ c t, s = c :: t ∧ isSpace c = false

theorem Headed.append {s : Bytes} (headed : Headed s) (t : Bytes) : Headed (s ++ t) := by
  rcases headed with ⟨c, s, rfl, visible⟩
  exact ⟨c, s ++ t, rfl, visible⟩

theorem Headed.take {s : Bytes} (headed : Headed s) {n : Nat} (positive : 0 < n) : Headed (s.take n) := by
  rcases headed with ⟨c, s, rfl, visible⟩
  cases n with
  | zero => exact absurd positive (Nat.lt_irrefl 0)
  | succ n => exact ⟨c, s.take n, rfl, visible⟩

theorem Headed.fmtString {s : Bytes} (headed : Headed s) : Headed (fmtString s) := by
  rcases headed with ⟨c, s, rfl, visible⟩
  rw [LPRng.fmtString, List.flatMap_cons]
  split
  · exact ⟨94, _, rfl, by decide⟩
  · exact ⟨c, _, rfl, visible⟩

theorem not_blank_of_not_isSpace {c : UInt8} (visible : isSpace c = false) : (c == 32) = false := by
  unfold isSpace at visible
  exact (Bool.or_eq_false_iff.mp visible).1

theorem spare_lt_of_headed (blank : UInt8 → Bool) {s : Bytes} (headed : Headed s) :
    spare blank s.reverse < s.length := by
  rcases headed with ⟨c, s, rfl, -⟩
  rw [List.reverse_cons, List.length_cons]
  exact Nat.lt_succ_of_le ((spare_le blank s.reverse).trans_eq List.length_reverse)

/-- Blanks are taken from the end of a text with a head, as many as there are to spare. -/
theorem trimEnd_of_headed (blank : UInt8 → Bool) (fewer : ∀ c, isSpace c = false → blank c = false) {s : Bytes}
    (headed : Headed s) (excess : Nat) :
    trimEnd blank excess s = some (s.take (s.length - min excess (spare blank s.reverse))) := by
  rcases headed with ⟨c, s, rfl, visible⟩
  exact trimEnd_eq blank (fewer c visible) excess s

theorem length_padRight (width : Nat) (s : Bytes) : (padRight width s).length = max width s.length := by
  rw [padRight, List.length_append, List.length_replicate]
  omega

theorem length_padBlank (width : Nat) (s : Bytes) : (padBlank width s).length = max width s.length := by
  rw [padBlank, List.length_append, List.length_replicate]
  omega

theorem length_plpSnprintf (count : Nat) (s : Bytes) : (plpSnprintf count s).length = min (count - 1) s.length :=
  List.length_take

variable (classInStatus : Bool) (job : StatusJob)

theorem mem_squeeze {c : UInt8} (excess : Nat) (s : Bytes) (member : c ∈ squeeze excess s) : c ∈ s := by
  fun_induction squeeze excess s with
  | case1 => exact member
  | case2 => exact member
  | case3 => exact member
  | case4 excess a b s blanks ih => exact List.mem_cons_of_mem a (ih member)
  | case5 excess a b s other ih =>
      cases member with
      | head => exact List.mem_cons_self
      | tail _ later => exact List.mem_cons_of_mem a (ih later)

theorem printed_of_mem_fmtArg {text : Option Bytes} {c : UInt8} (member : c ∈ fmtArg text) :
    isCntrl c = false ∨ c = 9 ∨ c = 10 := by
  cases text with
  | none =>
      have plain : ∀ c ∈ lit "<NULL>", isCntrl c = false := by decide
      exact .inl (plain c member)
  | some text => exact visible_of_mem_fmtString member

/-- What stands in the columns is printed as it is. -/
theorem fmtString_of_mem_classColumns {s : Bytes} (part : ∀ c ∈ s, c ∈ classColumns classInStatus job) :
    fmtString s = s := by
  refine fmtString_of_printed fun c member => ?_
  have shown := List.mem_of_mem_take (part c member)
  simp only [padRight, padBlank, List.mem_append, List.mem_cons, List.mem_replicate, List.not_mem_nil,
    or_false] at shown
  have blank : c = 32 → isCntrl c = false := by
    intro same
    rw [same]
    rfl
  rcases shown with ((text | pad) | first | pad | number) | last
  · exact printed_of_mem_fmtArg text
  · exact .inl (blank pad.2)
  · exact .inl (blank first)
  · exact .inl (blank pad.2)
  · rcases digit_of_mem_printInt number with digit | minus
    · have table : ∀ c, (!isDigit c || !isCntrl c) = true := forall_byte (by decide +kernel)
      have row := table c
      rw [digit] at row
      exact .inl ((Bool.not_eq_true' _).mp row)
    · rw [minus]
      exact .inl rfl
  · exact .inl (blank last)

theorem ownerText_spec :
    Headed (ownerText job) ∧ 36 ≤ (ownerText job).length ∧ (ownerText job).length ≤ 511 := by
  have length : (ownerText job).length =
      min 511 (max 6 (fmtString job.number).length + (1 + max 28 (fmtString job.identifier).length) + 1) := by
    simp only [ownerText, length_plpSnprintf, List.length_append, List.length_cons, List.length_nil, length_padRight]
    omega
  refine ⟨?_, by omega, by omega⟩
  have number : Headed (padRight 6 (fmtString job.number)) := (Headed.fmtString job.ranked).append _
  exact Headed.take ((number.append _).append _) (by decide)

theorem trimEnd_ownerText :
    trimEnd isSpace ((ownerText job).length - 36) (ownerText job) = some (ownerColumns job) := by
  rcases ownerText_spec job with ⟨headed, wide, -⟩
  have less := spare_lt_of_headed isSpace headed
  rw [trimEnd_of_headed isSpace (fun _ visible => visible) headed, ownerColumns]
  congr 2
  omega

theorem ownerColumns_spec :
    Headed (ownerColumns job) ∧ 36 ≤ (ownerColumns job).length ∧ (ownerColumns job).length ≤ 511 := by
  rcases ownerText_spec job with ⟨headed, wide, short⟩
  refine ⟨headed.take (by omega), ?_, ?_⟩
  · rw [ownerColumns, List.length_take]
    omega
  · rw [ownerColumns, List.length_take]
    omega

theorem classColumns_spec :
    8 ≤ (classColumns classInStatus job).length ∧
      doubled (classColumns classInStatus job) < (classColumns classInStatus job).length := by
  have wide : 8 ≤ (classColumns classInStatus job).length := by
    simp only [classColumns, length_plpSnprintf, List.length_append, List.length_cons, List.length_nil, length_padRight,
      length_padBlank]
    omega
  refine ⟨wide, ?_⟩
  rcases text : classColumns classInStatus job with _ | ⟨a, s⟩
  · rw [text] at wide
    exact absurd wide (by decide)
  · exact Nat.lt_succ_of_le (doubled_le a s)

theorem columns_spec : ∃ text, columns classInStatus job = some text ∧
    text.length = min 511 (columnsWidth classInStatus job) ∧ Headed text := by
  rcases ownerColumns_spec job with ⟨headed, wide, short⟩
  have start : columns classInStatus job =
      ((trimEnd isSpace ((ownerText job).length - 36) (ownerText job)).bind fun msg =>
        let buffer := squeeze ((classColumns classInStatus job).length - 8) (classColumns classInStatus job)
        (trimEnd (· == 32) (msg.length + buffer.length - 44) msg).map fun msg =>
          let buffer := squeeze (msg.length + buffer.length - 44) buffer
          msg ++ plpSnprintf (512 - msg.length) (fmtString buffer)) := rfl
  have printed : ∀ excess, fmtString (squeeze excess
      (squeeze ((classColumns classInStatus job).length - 8) (classColumns classInStatus job))) =
      squeeze excess (squeeze ((classColumns classInStatus job).length - 8)
        (classColumns classInStatus job)) := fun excess =>
    fmtString_of_mem_classColumns classInStatus job fun c member => mem_squeeze _ _ (mem_squeeze _ _ member)
  rcases classColumns_spec classInStatus job with ⟨least, blanks⟩
  have spared := spare_lt_of_headed (· == 32) headed
  rw [start, trimEnd_ownerText, Option.bind_some]
  simp only [trimEnd_of_headed (· == 32) (fun _ => not_blank_of_not_isSpace) headed, Option.map_some, printed]
  refine ⟨_, rfl, ?_, ?_⟩
  · simp only [List.length_append, List.length_take, length_plpSnprintf, length_squeeze, doubled_squeeze, columnsWidth]
    rw [Nat.min_eq_left (Nat.sub_le _ _)]
    -- Either all double blanks of the class columns go, or as many as leave eight characters.
    rcases Nat.le_total (doubled (classColumns classInStatus job)) ((classColumns classInStatus job).length - 8) with
      few | many
    · rw [Nat.min_eq_right few, Nat.sub_self, Nat.min_zero, Nat.sub_zero]
      omega
    · rw [Nat.min_eq_left many, Nat.sub_sub_self least]
      omega
  · exact (headed.take (by omega)).append _

/-! ## The size -/

/-- The blanks in front of the size go before those at the end of the line. -/
theorem removeSpaces_eq {msg : Bytes} (headed : Headed msg) (excess : Nat) (sizestr : Bytes) :
    removeSpaces msg excess sizestr =
      some (msg.take (msg.length - min (excess - (sizestr.takeWhile isSpace).length) (spare isSpace msg.reverse)),
        sizestr.drop (min excess (sizestr.takeWhile isSpace).length)) := by
  have trimmed := fun excess => trimEnd_of_headed isSpace (fun _ visible => visible) headed excess
  induction sizestr generalizing excess with
  | nil =>
      cases excess with
      | zero => simp [removeSpaces]
      | succ excess => simp [removeSpaces, trimmed]
  | cons c sizestr ih =>
      cases excess with
      | zero => simp [removeSpaces]
      | succ excess =>
          cases blank : isSpace c with
          | true =>
              rw [removeSpaces, if_pos blank, ih excess, List.takeWhile_cons_of_pos blank, List.length_cons,
                Nat.succ_min_succ, List.drop_succ_cons, Nat.succ_sub_succ]
          | false => simp [removeSpaces, trimmed, blank]

/-- The last steps of `addSize`. -/
def storeSize (width : Int) (msg sizestr : Bytes) : Option Bytes :=
  (if width ≤ msg.length + sizestr.length then storeBlank msg (width - sizestr.length) else some msg).bind fun msg =>
    if msg.length + sizestr.length < 512 then some (msg ++ sizestr) else none

theorem storeSize_short {width : Int} {msg sizestr line : Bytes} (stored : storeSize width msg sizestr = some line) :
    line.length < 512 := by
  rcases Option.bind_eq_some_iff.mp stored with ⟨msg', -, copied⟩
  split at copied
  · next fits =>
      cases copied
      rwa [List.length_append]
  · cases copied

/-- The size goes behind the line if that is cut to leave room for it. -/
theorem storeSize_iff (width : Int) (msg sizestr : Bytes) :
    (∃ line, storeSize width msg sizestr = some line) ↔
      width ≤ msg.length + sizestr.length ∧ sizestr.length < width ∧ width < 512 ∨
        (msg.length + sizestr.length : Int) < width ∧ msg.length + sizestr.length < 512 := by
  unfold storeSize storeBlank
  by_cases long : width ≤ msg.length + sizestr.length
  · by_cases room : 1 ≤ width - sizestr.length ∧ width - sizestr.length < 512
    · have length : (msg.take (width - sizestr.length - 1).toNat ++ [32]).length + sizestr.length = width.toNat := by
        rw [List.length_append, List.length_take, List.length_singleton]
        omega
      rw [if_pos long, if_pos room, Option.bind_some, length]
      split
      · next fits => exact ⟨fun _ => .inl ⟨long, by omega, by omega⟩, fun _ => ⟨_, rfl⟩⟩
      · next big => exact ⟨fun ⟨_, stored⟩ => (nomatch stored), by omega⟩
    · rw [if_pos long, if_neg room]
      exact ⟨fun ⟨_, stored⟩ => (nomatch stored), by omega⟩
  · rw [if_neg long, Option.bind_some]
    split
    · next fits => exact ⟨fun _ => .inr ⟨by omega, fits⟩, fun _ => ⟨_, rfl⟩⟩
    · next big => exact ⟨fun ⟨_, stored⟩ => (nomatch stored), by omega⟩

theorem addSize_eq (width : Int) (sizestr : Bytes) {msg : Bytes} (headed : Headed msg) (short : msg.length ≤ 511) :
    ∃ text excess, Headed text ∧ (text.length : Int) = max (msg.length : Int) (min width 511 - sizestr.length) ∧
      excess = (text.length + sizestr.length - width).toNat ∧
      addSize width msg sizestr =
        storeSize width
          (text.take (text.length - min (excess - (sizestr.takeWhile isSpace).length) (spare isSpace text.reverse)))
          (sizestr.drop (min excess (sizestr.takeWhile isSpace).length)) := by
  have padded : Headed (padRight (min width 511 - sizestr.length).toNat msg) := headed.append _
  have length := length_padRight (min width 511 - sizestr.length).toNat msg
  refine ⟨padRight (min width 511 - sizestr.length).toNat msg, _, padded, by omega, rfl, ?_⟩
  rw [addSize, if_neg (by omega), removeSpaces_eq padded, Option.bind_some]
  rfl

theorem addSize_iff {width : Int} (least : 0 ≤ width) {msg sizestr : Bytes} (headed : Headed msg)
    (short : msg.length ≤ 511) (small : sizestr.length ≤ 45) :
    (∃ line, addSize width msg sizestr = some line) ↔
      (sizestr.dropWhile isSpace).length < width ∧ (width < 512 ∨ msg.length + sizestr.length < 512) := by
  rcases addSize_eq width sizestr headed short with ⟨text, excess, front, length, removed, same⟩
  have spared := spare_lt_of_headed isSpace front
  have parts := congrArg List.length (List.takeWhile_append_dropWhile (p := isSpace) (l := sizestr))
  rw [List.length_append] at parts
  rw [same, storeSize_iff, List.length_take, List.length_drop, Nat.min_eq_left (Nat.sub_le _ _)]
  -- What is too much is taken from the blanks of the size first.
  rcases Nat.lt_or_ge (sizestr.takeWhile isSpace).length excess with more | few
  · rw [Nat.min_eq_right (Nat.le_of_lt more)]
    omega
  · rw [Nat.min_eq_left few, Nat.sub_eq_zero_of_le few, Nat.zero_min, Nat.sub_zero]
    omega

theorem addSize_short {width : Int} {msg sizestr line : Bytes} (headed : Headed msg) (short : msg.length ≤ 511)
    (added : addSize width msg sizestr = some line) : line.length < 512 := by
  rcases addSize_eq width sizestr headed short with ⟨text, excess, -, -, -, same⟩
  exact storeSize_short (same.symm.trans added)

/-! ## The line stays in its buffer -/

/-- The text in front of the size. -/
def jobText : Bytes := fmtArg (job.jobname.or job.filenames)

theorem sizeColumn_length : 0 < (sizeColumn job).length ∧ (sizeColumn job).length ≤ 45 := by
  simp only [sizeColumn, length_plpSnprintf, List.length_append, List.length_cons, length_padBlank]
  omega

/-- The end of the text goes to the place of the configured width. -/
def cutLine (width : Int) (msg : Bytes) : Option Bytes :=
  if width < 512 then if 0 ≤ width then some (msg.take width.toNat) else none else some msg

theorem cutLine_iff (width : Int) {msg : Bytes} (short : msg.length < 512) :
    (∃ line, cutLine width msg = some line ∧ (line.length : Int) ≤ width) ↔ 0 ≤ width := by
  unfold cutLine
  by_cases inside : width < 512
  · by_cases least : 0 ≤ width
    · rw [if_pos inside, if_pos least]
      have cut := List.length_take_le width.toNat msg
      exact ⟨fun _ => least, fun _ => ⟨_, rfl, by omega⟩⟩
    · rw [if_pos inside, if_neg least]
      exact ⟨fun ⟨_, line, _⟩ => (nomatch line), fun negative => absurd negative least⟩
  · rw [if_neg inside]
    exact ⟨fun _ => by omega, fun _ => ⟨msg, rfl, by omega⟩⟩

/-- A line is built in its buffer, and has no more than the configured characters, exactly if the
configuration is not negative and the job has an error, or its size leaves room for a character and,
where the configuration is not less than the buffer, all of the line has room in the buffer. -/
theorem statusLine_bounded_iff (width : Int) :
    (∃ line, statusLine width classInStatus job = some line ∧ (line.length : Int) ≤ width) ↔
      0 ≤ width ∧ (job.joberror = none →
        ((sizeColumn job).dropWhile isSpace).length < width ∧
          (width < 512 ∨
            columnsWidth classInStatus job + (jobText job).length + (sizeColumn job).length < 512)) := by
  rcases columns_spec classInStatus job with ⟨text, built, length, headed⟩
  rcases sizeColumn_length job with ⟨positive, small⟩
  have front : ∀ more, (text ++ plpSnprintf (512 - text.length) more).length =
      min 511 (columnsWidth classInStatus job + more.length) := by
    intro more
    rw [List.length_append, length_plpSnprintf, length]
    omega
  have start : statusLine width classInStatus job =
      (columns classInStatus job).bind fun msg =>
        (match job.joberror with
        | some joberror => some (msg ++ plpSnprintf (512 - msg.length) (lit "ERROR: " ++ fmtString joberror))
        | none => addSize width (msg ++ plpSnprintf (512 - msg.length) (jobText job)) (sizeColumn job)).bind
          (cutLine width) := rfl
  rw [start, built, Option.bind_some]
  cases job.joberror with
  | some joberror =>
      rw [Option.bind_some, cutLine_iff width (by rw [front]; omega)]
      exact ⟨fun least => ⟨least, fun none => nomatch none⟩, And.left⟩
  | none =>
      have line := headed.append (plpSnprintf (512 - text.length) (jobText job))
      constructor
      · intro ⟨final, ends, fits⟩
        rcases Option.bind_eq_some_iff.mp ends with ⟨msg, added, stored⟩
        have least := (cutLine_iff width (addSize_short line (by rw [front]; omega) added)).mp ⟨final, stored, fits⟩
        refine ⟨least, fun _ => ?_⟩
        have room := (addSize_iff least line (by rw [front]; omega) small).mp ⟨msg, added⟩
        rw [front] at room
        omega
      · intro ⟨least, conditions⟩
        have room := conditions rfl
        rcases (addSize_iff least line (by rw [front]; omega) small).mpr (by rw [front]; omega) with ⟨msg, added⟩
        rw [added]
        exact (cutLine_iff width (addSize_short line (by rw [front]; omega) added)).mpr least

/-- A job of 64 bytes that waits, with a name of as many letters. -/
def waitingJob (letters : Nat) : StatusJob where
  number := lit "1"
  ranked := ⟨49, [], rfl, rfl⟩
  identifier := lit "papowell@h1+23"
  priority := some (lit "A")
  cls := some (lit "A")
  jobnumber := 23
  joberror := none
  jobname := some (List.replicate letters 97)
  filenames := none
  size := lit "64"
  time := lit "10:20:30"

/-- Ten characters have no room for the size of a job, and the buffer has none for a long name. -/
theorem line_outside_buffer :
    statusLine 10 false (waitingJob 5) = none ∧ statusLine 600 false (waitingJob 480) = none := by
  decide +kernel

end StatusLine

end LPRng
