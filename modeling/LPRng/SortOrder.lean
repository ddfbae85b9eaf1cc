import LPRng.ScanQueue

/-!
# The order of sort keys

The sort key of a job is a text in which its fields stand one behind the other, each in a fixed width.
Texts are compared character by character and the case of letters is ignored. The comparison is that of
the fields, but for the number of the job, which is read like a number of C.
-/

namespace LPRng

/-! ## Texts of one length -/

theorem strcasecmp_append {s t : Bytes} (size : s.length = t.length) (u v : Bytes) :
    strcasecmp (s ++ u) (t ++ v) = (strcasecmp s t).then (strcasecmp u v) := by
  induction s generalizing t with
  | nil =>
      cases t with
      | nil => rfl
      | cons d t => cases size
  | cons c s ih =>
      cases t with
      | nil => cases size
      | cons d t =>
          rw [List.cons_append, List.cons_append, strcasecmp, strcasecmp, ih (Nat.succ.inj size), Ordering.then_assoc]

theorem strcasecmp_self (s : Bytes) : strcasecmp s s = .eq :=
  (strcasecmp_compares s s).eq_eq.mpr rfl

theorem compare_congr {a b c d : Nat} (less : a < b ↔ c < d) (equal : a = b ↔ c = d) : compare a b = compare c d := by
  rcases lt_trichotomy a b with lt | eq | gt
  · rw [compare_lt_iff_lt.mpr lt, compare_lt_iff_lt.mpr (less.mp lt)]
  · rw [compare_eq_iff_eq.mpr eq, compare_eq_iff_eq.mpr (equal.mp eq)]
  · rw [compare_gt_iff_gt.mpr gt, compare_gt_iff_gt.mpr (by omega)]

/-! ## Numbers of one width -/

/-- The digits that `%x` prints. -/
def isHexDigit (c : UInt8) : Bool := isDigit c || (97 ≤ c && c ≤ 102)

theorem isHexDigit_values {c : UInt8} (digit : isHexDigit c = true) :
    toLower c = c ∧ digitVal c < 16 ∧ (c.toNat = digitVal c + 48 ∧ digitVal c < 10 ∨ c.toNat = digitVal c + 87 ∧ 10 ≤ digitVal c) := by
  have table : ∀ c : UInt8, (!isHexDigit c || decide (toLower c = c ∧ digitVal c < 16 ∧
      (c.toNat = digitVal c + 48 ∧ digitVal c < 10 ∨ c.toNat = digitVal c + 87 ∧ 10 ≤ digitVal c))) = true :=
    forall_byte (by decide +kernel)
  have shape := table c
  rw [digit, Bool.not_true, Bool.false_or, decide_eq_true_iff] at shape
  exact shape

theorem compare_hexDigit {c d : UInt8} (left : isHexDigit c = true) (right : isHexDigit d = true) :
    compare (toLower c).toNat (toLower d).toNat = compare (digitVal c) (digitVal d) := by
  rcases isHexDigit_values left with ⟨lower, -, value⟩
  rcases isHexDigit_values right with ⟨lower', -, value'⟩
  rw [lower, lower']
  exact compare_congr (by omega) (by omega)

/-- Behind numbers read so far, the next digits decide if these are equal. -/
theorem compare_scanNat {s t : Bytes} (size : s.length = t.length) (left : s.all isHexDigit = true) (right : t.all isHexDigit = true)
    (m n : Nat) : compare (scanNat 16 m s).1 (scanNat 16 n t).1 = (compare m n).then (strcasecmp s t) := by
  induction s generalizing t m n with
  | nil =>
      cases t with
      | nil => exact (Ordering.then_eq).symm
      | cons d t => cases size
  | cons c s ih =>
      cases t with
      | nil => cases size
      | cons d t =>
          rw [List.all_cons, Bool.and_eq_true] at left right
          have low := (isHexDigit_values left.1).2.1
          have low' := (isHexDigit_values right.1).2.1
          rw [scanNat, if_pos low, scanNat, if_pos low', ih (Nat.succ.inj size) left.2 right.2, strcasecmp,
            compare_hexDigit left.1 right.1, ← Ordering.then_assoc]
          congr 1
          rcases lt_trichotomy m n with less | rfl | greater
          · rw [compare_lt_iff_lt.mpr less, compare_lt_iff_lt.mpr (by omega)]
            rfl
          · rw [compare_eq_iff_eq.mpr rfl, Ordering.eq_then]
            exact compare_congr (by omega) (by omega)
          · rw [compare_gt_iff_gt.mpr greater, compare_gt_iff_gt.mpr (by omega)]
            rfl

namespace JobLists

open JobNumber

theorem all_isHexDigit_printNat (width n : Nat) : (padLeft width (printNat 16 n)).all isHexDigit = true :=
  all_padLeft_printNat (by decide) (by decide) width n

/-- Numbers printed with one width are compared as texts. -/
theorem strcasecmp_padLeft {width m n : Nat} (positive : 0 < width) (small : m < 16 ^ width) (small' : n < 16 ^ width) :
    strcasecmp (padLeft width (printNat 16 m)) (padLeft width (printNat 16 n)) = compare m n := by
  have size := length_padLeft (length_printNat_le (by decide : 2 ≤ 16) positive small)
  have size' := length_padLeft (length_printNat_le (by decide : 2 ≤ 16) positive small')
  have values := compare_scanNat (size.trans size'.symm) (all_isHexDigit_printNat width m) (all_isHexDigit_printNat width n) 0 0
  rw [scanNat_padLeft_printNat, scanNat_padLeft_printNat] at values
  exact values.symm

theorem strcasecmp_hex8 {m n : Nat} (small : m < 2 ^ 32) (small' : n < 2 ^ 32) : strcasecmp (hex8 m) (hex8 n) = compare m n := by
  rw [hex8, hex8, strcasecmp_append rfl, strcasecmp_self, Ordering.eq_then]
  exact strcasecmp_padLeft (by decide) (by omega) (by omega)

theorem strcasecmp_hex2 (c d : UInt8) : strcasecmp (hex2 c.toNat) (hex2 d.toNat) = compare c.toNat d.toNat :=
  strcasecmp_padLeft (by decide) c.toNat_lt d.toNat_lt

/-- The parts of sort keys are compared one after the other. -/
theorem strcasecmp_flatMap_field {parts others : List (Bytes × Bytes)} (alike : parts.map shape = others.map shape) :
    strcasecmp (parts.flatMap field) (others.flatMap field) =
      (parts.zip others).foldr (fun pair => (strcasecmp pair.1.2 pair.2.2).then) .eq := by
  induction parts generalizing others with
  | nil =>
      rw [List.map_nil] at alike
      rw [List.map_eq_nil_iff.mp alike.symm]
      rfl
  | cons rank parts ih =>
      cases others with
      | nil => cases alike
      | cons other others =>
          rcases List.cons.inj alike with ⟨first, rest⟩
          have key : rank.1 = other.1 := (Prod.mk.inj first).1
          have size : (field rank).length = (field other).length := by rw [length_field, length_field, first]
          rw [List.flatMap_cons, List.flatMap_cons, strcasecmp_append size, ih rest, List.zip_cons_cons, List.foldr_cons]
          congr 1
          rw [field, field, key, strcasecmp_append rfl, strcasecmp_self, Ordering.eq_then]
          exact strcasecmp_append (s := [46]) (t := [46]) rfl rank.2 other.2

/-! ## The fields of a job -/

/-- What a job is served by. -/
structure JobOrder where
  removeTime : Nat
  holdClass : Nat
  holdTime : Nat
  moves : Bool
  priority : UInt8
  priorityTime : Nat
  jobTime : Nat
  jobTimeUsec : Nat
  number : Nat

/-- A flag as the server writes it, or none, which is 0. -/
def FlagWritten (l : LineList) (key : Bytes) (value : Nat) : Prop :=
  value < 2 ^ 32 ∧ (l.findValue key = printHex value ∨ l.findValue key = lit "0" ∧ value = 0)

/-- The fields of a job as the server writes them. -/
structure Written (job : JobLists) (order : JobOrder) : Prop where
  removeTime : FlagWritten job.info removeTime order.removeTime
  holdClass : FlagWritten job.info holdClass order.holdClass
  holdTime : FlagWritten job.info holdTime order.holdTime
  moves : order.moves = true ↔ (job.info.findStrValue move).getD [] ≠ []
  priority : job.info.findStrValue priority = some [order.priority]
  letter : isAlpha order.priority = true
  priorityTime : FlagWritten job.info priorityTime order.priorityTime
  jobTime : FlagWritten job.info jobTime order.jobTime
  jobTimeUsec : FlagWritten job.info jobTimeUsec order.jobTimeUsec
  number : ∃ long, job.info.findStrValue number = some (fixJobNumber long order.number) ∧
    order.number < if long then 1000000 else 1000

/-- The order of all fields but the number. -/
def JobOrder.compareTimes (config : OrderConfig) (a b : JobOrder) : Ordering :=
  (compare a.removeTime b.removeTime).then <|
  (compare a.holdClass b.holdClass).then <|
  (compare a.holdTime b.holdTime).then <|
  (compare b.moves a.moves).then <|
  (if config.ignoreRequestedUserPriority then .eq
    else if config.reversePriorityOrder then compare a.priority.toNat b.priority.toNat
    else compare b.priority.toNat a.priority.toNat).then <|
  (compare b.priorityTime a.priorityTime).then <|
  (compare a.jobTime b.jobTime).then <|
  compare a.jobTimeUsec b.jobTimeUsec

/-- The order in which jobs are served. -/
def JobOrder.compareJobs (config : OrderConfig) (a b : JobOrder) : Ordering :=
  (a.compareTimes config b).then (compare a.number b.number)

section

variable {config : OrderConfig} {a b : JobLists} {orderA orderB : JobOrder} {l m : LineList} {key : Bytes} {v w : Nat}

theorem findFlagValue_written (written : FlagWritten l key v) : l.findFlagValue key = toInt32 v := by
  rcases written with ⟨small, found | ⟨found, rfl⟩⟩
  · rw [LineList.findFlagValue, found, flagOfText_printHex (by omega)]
  · rw [LineList.findFlagValue, found]
    decide

theorem low_written (written : FlagWritten l key v) : (l.findFlagValue key % 2 ^ 32).toNat = v := by
  have bound := written.1
  rw [findFlagValue_written written, toInt32, Int.bmod]
  split <;> omega

theorem strcasecmp_flag (left : FlagWritten l key v) (right : FlagWritten m key w) :
    strcasecmp (hex8 (l.findFlagValue key % 2 ^ 32).toNat) (hex8 (m.findFlagValue key % 2 ^ 32).toNat) = compare v w := by
  rw [low_written left, low_written right]
  exact strcasecmp_hex8 left.1 right.1

/-- A flag that is turned round. -/
theorem strcasecmp_inverted (left : FlagWritten l key v) (right : FlagWritten m key w) :
    strcasecmp (hex8 ((-1 - l.findFlagValue key) % 2 ^ 32).toNat) (hex8 ((-1 - m.findFlagValue key) % 2 ^ 32).toNat) =
      compare w v := by
  have low := low_written left
  have low' := low_written right
  have bound := left.1
  have bound' := right.1
  rw [strcasecmp_hex8 (by omega) (by omega)]
  exact compare_congr (by omega) (by omega)

theorem strcasecmp_moves (left : orderA.moves = true ↔ (l.findStrValue move).getD [] ≠ [])
    (right : orderB.moves = true ↔ (m.findStrValue move).getD [] ≠ []) :
    strcasecmp (if l.findStrValue move = none ∨ l.findStrValue move = some [] then [49] else [48])
      (if m.findStrValue move = none ∨ m.findStrValue move = some [] then [49] else [48]) =
        compare orderB.moves orderA.moves := by
  rw [if_congr eq_none_or_eq_nil rfl rfl, if_congr eq_none_or_eq_nil rfl rfl]
  cases first : orderA.moves <;> cases second : orderB.moves <;>
    simp only [first, second, true_iff, Bool.false_eq_true, false_iff, not_not, ne_eq] at left right <;>
    simp only [left, right, if_true, if_false] <;> rfl

theorem strcasecmp_priority (config : OrderConfig) {c d : UInt8} (left : isAlpha c = true) (right : isAlpha d = true) :
    strcasecmp (hex2 (if config.reversePriorityOrder then c else -c).toNat)
      (hex2 (if config.reversePriorityOrder then d else -d).toNat) =
        if config.reversePriorityOrder then compare c.toNat d.toNat else compare d.toNat c.toNat := by
  rw [strcasecmp_hex2]
  cases config.reversePriorityOrder
  · have turned : ∀ c : UInt8, (!isAlpha c || decide ((-c).toNat = 256 - c.toNat)) = true := forall_byte (by decide +kernel)
    have value : ∀ {c : UInt8}, isAlpha c = true → (-c).toNat = 256 - c.toNat := by
      intro c letter
      have shape := turned c
      rw [letter, Bool.not_true, Bool.false_or, decide_eq_true_iff] at shape
      exact shape
    simp only [Bool.false_eq_true, if_false, value left, value right]
    have bound := c.toNat_lt
    have bound' := d.toNat_lt
    exact compare_congr (by omega) (by omega)
  · rfl

theorem fixJobNumber_of_lt {n : Nat} {long : Bool} (small : n < if long then 1000000 else 1000) :
    fixJobNumber long n = padLeft (if long then 6 else 3) (printNat 10 n) := by
  cases long
  · have kept : (n : Int).tmod 1000 = n := Int.tmod_eq_of_lt (by omega) (by simpa using small)
    rw [fixJobNumber, if_neg Bool.false_ne_true, kept, printPadded, if_neg (by omega), Int.natAbs_natCast]
    rfl
  · have kept : (n : Int).tmod 1000000 = n := Int.tmod_eq_of_lt (by omega) (by simpa using small)
    rw [fixJobNumber, if_pos rfl, kept, printPadded, if_neg (by omega), Int.natAbs_natCast]
    rfl

/-- The number of a job as a flag. -/
theorem low_number {n : Nat} {long : Bool} (found : l.findStrValue number = some (fixJobNumber long n))
    (small : n < if long then 1000000 else 1000) :
    (l.findFlagValue number % 2 ^ 32).toNat = reading (fixJobNumber long n) ∧ reading (fixJobNumber long n) < 2 ^ 32 := by
  have padded : Padded (if long then 6 else 3) (fixJobNumber long n) := by
    rw [fixJobNumber_of_lt small]
    refine padded_padLeft ?_ ?_ (lt_of_lt_of_le small ?_) <;> cases long <;> decide
  have low := padded.reading_lt
  rw [LineList.findFlagValue_of_findStrValue found (head_fixJobNumber long n), padded.flagOfText]
  omega

theorem strcasecmp_makeSortKey (config : OrderConfig) (left : Written a orderA) (right : Written b orderB) :
    strcasecmp (makeSortKey config a) (makeSortKey config b) =
      (orderA.compareTimes config orderB).then (compare (reading (numberText a)) (reading (numberText b))) := by
  have numbers : strcasecmp (hex8 (a.info.findFlagValue number % 2 ^ 32).toNat) (hex8 (b.info.findFlagValue number % 2 ^ 32).toNat) =
      compare (reading (numberText a)) (reading (numberText b)) := by
    rcases left.number with ⟨long, found, small⟩
    rcases right.number with ⟨long', found', small'⟩
    have low := low_number found small
    have low' := low_number found' small'
    rw [numberText, numberText, found, found', low.1, low'.1]
    exact strcasecmp_hex8 low.2 low'.2
  have letters := strcasecmp_priority config left.letter right.letter
  rw [makeSortKey_eq, makeSortKey_eq, strcasecmp_flatMap_field ((map_shape_ranks config a).trans (map_shape_ranks config b).symm)]
  unfold ranks JobOrder.compareTimes
  rw [left.priority, right.priority]
  cases config.ignoreRequestedUserPriority <;>
    simp only [Bool.false_eq_true, if_false, if_true, List.cons_append, List.nil_append, List.zip_cons_cons, List.zip_nil_right,
      List.foldr_cons, List.foldr_nil, strcasecmp_flag left.removeTime right.removeTime, strcasecmp_flag left.holdClass right.holdClass,
      strcasecmp_flag left.holdTime right.holdTime, strcasecmp_moves left.moves right.moves,
      strcasecmp_inverted left.priorityTime right.priorityTime, strcasecmp_flag left.jobTime right.jobTime,
      strcasecmp_flag left.jobTimeUsec right.jobTimeUsec, numbers, firstChar, Option.getD_some, List.headD_cons, letters,
      Ordering.then_eq, Ordering.eq_then, Ordering.then_assoc]

/-- The order of the sort keys is that of the fields, exactly if a field before the number decides or the
numbers are in the same order when they are read as numbers of C. -/
theorem sortKey_order_iff (config : OrderConfig) (left : Written a orderA) (right : Written b orderB) :
    strcasecmp (makeSortKey config a) (makeSortKey config b) = orderA.compareJobs config orderB ↔
      orderA.compareTimes config orderB ≠ .eq ∨
        compare (reading (numberText a)) (reading (numberText b)) = compare orderA.number orderB.number := by
  rw [strcasecmp_makeSortKey config left right, JobOrder.compareJobs]
  cases orderA.compareTimes config orderB with
  | lt => exact iff_of_true rfl (.inl nofun)
  | gt => exact iff_of_true rfl (.inl nofun)
  | eq =>
      rw [Ordering.eq_then, Ordering.eq_then]
      exact ⟨.inr, fun either => either.resolve_left (not_not.mpr rfl)⟩

end

/-! ## Numbers with zeros in front -/

/-- A job of the priority `A` with a number. -/
def numbered (n : Int) : JobLists := ⟨[lit "number=" ++ fixJobNumber false n, lit "priority=A"], []⟩

/-- The fields of such a job. -/
def numberOrder (n : Nat) : JobOrder := ⟨0, 0, 0, false, 65, 0, 0, 0, n⟩

theorem written_numbered {n : Nat} (small : n < 1000)
    (flags : ∀ key ∈ [removeTime, holdClass, holdTime, priorityTime, jobTime, jobTimeUsec],
      (numbered n).info.findValue key = lit "0")
    (texts : (numbered n).info.findStrValue move = none ∧ (numbered n).info.findStrValue priority = some [65] ∧
      (numbered n).info.findStrValue number = some (fixJobNumber false n)) : Written (numbered n) (numberOrder n) := by
  have flag : ∀ key ∈ [removeTime, holdClass, holdTime, priorityTime, jobTime, jobTimeUsec],
      FlagWritten (numbered n).info key 0 := fun key member => ⟨by decide, .inr ⟨flags key member, rfl⟩⟩
  constructor
  · exact flag _ (by simp)
  · exact flag _ (by simp)
  · exact flag _ (by simp)
  · rw [texts.1]
    exact iff_of_false Bool.false_ne_true (not_not.mpr rfl)
  · exact texts.2.1
  · rfl
  · exact flag _ (by simp)
  · exact flag _ (by simp)
  · exact flag _ (by simp)
  · exact ⟨false, texts.2.2, small⟩

/-- The jobs 100 and 200. -/
theorem sortKey_order_hundreds :
    strcasecmp (makeSortKey ⟨false, false⟩ (numbered 100)) (makeSortKey ⟨false, false⟩ (numbered 200)) = .lt := by
  have first : Written (numbered 100) (numberOrder 100) :=
    written_numbered (by decide) (by decide +kernel) (by decide +kernel)
  have second : Written (numbered 200) (numberOrder 200) :=
    written_numbered (by decide) (by decide +kernel) (by decide +kernel)
  exact ((sortKey_order_iff ⟨false, false⟩ first second).mpr (.inr (by decide +kernel))).trans (by decide)

/-- The jobs 007 and 008. -/
theorem sortKey_order_octal :
    strcasecmp (makeSortKey ⟨false, false⟩ (numbered 7)) (makeSortKey ⟨false, false⟩ (numbered 8)) = .gt ∧
      (numberOrder 7).compareJobs ⟨false, false⟩ (numberOrder 8) = .lt ∧
      Written (numbered 7) (numberOrder 7) ∧ Written (numbered 8) (numberOrder 8) :=
  ⟨by decide +kernel, by decide, written_numbered (by decide) (by decide +kernel) (by decide +kernel),
    written_numbered (by decide) (by decide +kernel) (by decide +kernel)⟩

end JobLists

end LPRng
