import LPRng.HeaderLine

/-!
# Job numbers

`Fix_job_number` prints the number of a job with zeros in front. A flag is read with the base
its text asks for, which is eight if the first digit is a zero: of the numbers of one width
the ones that are no number of base eight are all read as zero.
-/

namespace LPRng

namespace JobNumber

/-- Zeros in front of a number that is shorter than the width. -/
def padLeft (width : Nat) (digits : Bytes) : Bytes :=
  List.replicate (width - digits.length) 48 ++ digits

/-- `%0*d`. -/
def printPadded (width : Nat) (n : Int) : Bytes :=
  if n < 0 then 45 :: padLeft (width - 1) (printNat 10 n.natAbs)
  else padLeft width (printNat 10 n.natAbs)

/-- The number `Fix_job_number` prints, with three or with six digits. -/
def fixJobNumber (long : Bool) (n : Int) : Bytes :=
  if long then printPadded 6 (n.tmod 1000000) else printPadded 3 (n.tmod 1000)

theorem length_padLeft {width : Nat} {digits : Bytes} (fits : digits.length ≤ width) :
    (padLeft width digits).length = width := by
  rw [padLeft, List.length_append, List.length_replicate]
  omega

/-- Zeros in front do not change what is read. -/
theorem scanNat_padLeft {base : Nat} (positive : 0 < base) (width : Nat) (digits : Bytes) :
    scanNat base 0 (padLeft width digits) = scanNat base 0 digits := by
  unfold padLeft
  induction width - digits.length with
  | zero => rfl
  | succ k ih =>
      have zero : digitVal 48 = 0 := by decide
      rw [List.replicate_succ, List.cons_append, scanNat, zero, if_pos positive, Nat.zero_mul]
      exact ih

theorem length_printNat_le {base : Nat} (low : 2 ≤ base) {n width : Nat} (positive : 0 < width)
    (fits : n < base ^ width) : (printNat base n).length ≤ width := by
  unfold printNat
  split
  · exact positive
  · rw [List.length_map, List.length_reverse]
    exact (Nat.digits_length_le_iff low n).mpr fits

theorem all_padLeft_printNat {holds : UInt8 → Bool} {base : Nat} (low : 1 < base)
    (digits : ∀ d < base, holds (digitByte d) = true) (width n : Nat) :
    (padLeft width (printNat base n)).all holds = true := by
  have zero : holds 48 = true := digits 0 (Nat.zero_lt_of_lt low)
  refine List.all_eq_true.mpr fun c member => ?_
  rcases List.mem_append.mp member with padding | digit
  · rw [List.eq_of_mem_replicate padding, zero]
  · unfold printNat at digit
    split at digit
    · rw [List.mem_singleton.mp digit, zero]
    · rcases List.mem_map.mp digit with ⟨d, inside, rfl⟩
      exact digits d (Nat.digits_lt_base low (List.mem_reverse.mp inside))

/-! ## Numbers with zeros in front -/

/-- The number the digits stand for. -/
def ofBase (b : Nat) (u : Bytes) : Nat := Nat.ofDigits b (u.reverse.map digitVal)

theorem scanNat_eq_ofBase {b : Nat} {u : Bytes} (small : ∀ c ∈ u, digitVal c < b) :
    scanNat b 0 u = (ofBase b u, []) := by
  have general : ∀ acc, scanNat b acc u = ((u.map digitVal).foldl (fun a d => a * b + d) acc, []) := by
    induction u with
    | nil => exact fun _ => rfl
    | cons c u ih =>
        intro acc
        rw [scanNat, if_pos (small c List.mem_cons_self)]
        exact ih (fun d member => small d (List.mem_cons_of_mem c member)) _
  have swap : (fun (a d : Nat) => a * b + d) = fun a d => d + b * a := by
    funext a d
    rw [Nat.mul_comm, Nat.add_comm]
  rw [general 0, swap, ofBase, Nat.ofDigits_eq_foldr, List.map_reverse, List.foldr_reverse]
  simp only [Nat.cast_id]

/-- A character that is no digit stops the reader. -/
theorem scanNat_stopped {b acc : Nat} {u : Bytes} (large : ∃ c ∈ u, b ≤ digitVal c) :
    (scanNat b acc u).2 ≠ [] := by
  induction u generalizing acc with
  | nil =>
      obtain ⟨c, member, -⟩ := large
      cases member
  | cons d u ih =>
      rw [scanNat]
      split
      · next small =>
          obtain ⟨c, member, high⟩ := large
          rcases List.mem_cons.mp member with rfl | behind
          · exact absurd small (Nat.not_lt.mpr high)
          · exact ih ⟨c, behind, high⟩
      · exact List.cons_ne_nil _ _

theorem digitByte_digitVal {c : UInt8} (digit : isDigit c = true) : digitByte (digitVal c) = c :=
  of_decide_eq_true (forall_byte (p := fun c => isDigit c = true → digitByte (digitVal c) = c)
    (by decide +kernel) c) digit

theorem map_digitByte_digitVal {u : Bytes} (digits : ∀ c ∈ u, isDigit c = true) :
    (u.map digitVal).map digitByte = u := by
  rw [List.map_map]
  exact (List.map_congr_left fun c member => digitByte_digitVal (digits c member)).trans (List.map_id u)

theorem digitVal_lt {c : UInt8} (digit : isDigit c = true) : digitVal c < 10 := by
  have bounds := digit
  simp only [isDigit, Bool.and_eq_true, decide_eq_true_eq, UInt8.le_iff_toNat_le, UInt8.reduceToNat] at bounds
  rw [digitVal, if_pos digit]
  omega

theorem ofBase_lt {b : Nat} (low : 1 < b) {u : Bytes} (small : ∀ c ∈ u, digitVal c < b) :
    ofBase b u < b ^ u.length := by
  have bound := Nat.ofDigits_lt_base_pow_length low (l := u.reverse.map digitVal) fun d member => by
    obtain ⟨c, inside, rfl⟩ := List.mem_map.mp member
    exact small c (List.mem_reverse.mp inside)
  rwa [List.length_map, List.length_reverse] at bound

theorem ofBase_cons (b : Nat) (c : UInt8) (u : Bytes) :
    ofBase b (c :: u) = ofBase b u + b ^ u.length * digitVal c := by
  rw [ofBase, List.reverse_cons, List.map_append, Nat.ofDigits_append, List.length_map, List.length_reverse]
  simp [ofBase]

/-- Two numbers with as many digits differ if a digit does. -/
theorem ofBase_inj {b : Nat} (low : 1 < b) {u v : Bytes} (size : u.length = v.length)
    (digits : ∀ c ∈ u, isDigit c = true) (others : ∀ c ∈ v, isDigit c = true)
    (left : ∀ c ∈ u, digitVal c < b) (right : ∀ c ∈ v, digitVal c < b)
    (same : ofBase b u = ofBase b v) : u = v := by
  have values : u.reverse.map digitVal = v.reverse.map digitVal := by
    refine Nat.ofDigits_inj_of_len_eq low ?_ (fun d member => ?_) (fun d member => ?_) same
    · rw [List.length_map, List.length_map, List.length_reverse, List.length_reverse, size]
    · obtain ⟨c, inside, rfl⟩ := List.mem_map.mp member
      exact left c (List.mem_reverse.mp inside)
    · obtain ⟨c, inside, rfl⟩ := List.mem_map.mp member
      exact right c (List.mem_reverse.mp inside)
  rw [List.map_reverse, List.map_reverse, List.reverse_inj] at values
  rw [← map_digitByte_digitVal digits, values, map_digitByte_digitVal others]

/-- How the digits of a job number are read: with base eight if they start with a zero. -/
def reading (u : Bytes) : Nat :=
  if u.head? = some 48 then if ∀ c ∈ u, digitVal c < 8 then ofBase 8 u else 0 else ofBase 10 u

/-- The digits start with a zero, and they are no number of base eight, or no digit but
zeros follows. -/
def readsZero (u : Bytes) : Bool :=
  u.head? = some 48 && (u.any (fun c => 8 ≤ digitVal c) || u.all (· = 48))

/-- The digits of a number that is printed with a width. -/
structure Padded (width : Nat) (u : Bytes) : Prop where
  digits : ∀ c ∈ u, isDigit c = true
  positive : 0 < width
  wide : width ≤ u.length
  short : u.length ≤ 6
  front : width < u.length → u.head? ≠ some 48

variable {width : Nat} {u v : Bytes}

theorem Padded.exists_cons (padded : Padded width u) : ∃ c cs, u = c :: cs := by
  cases u with
  | nil => exact absurd (padded.positive.trans_le padded.wide) (Nat.lt_irrefl 0)
  | cons c cs => exact ⟨c, cs, rfl⟩

theorem Padded.length_eq (padded : Padded width u) (zero : u.head? = some 48) : u.length = width := by
  by_contra other
  exact padded.front (lt_of_le_of_ne padded.wide (Ne.symm other)) zero

theorem Padded.le_ofBase (padded : Padded width u) (nonzero : u.head? ≠ some 48) :
    10 ^ (u.length - 1) ≤ ofBase 10 u := by
  obtain ⟨c, cs, rfl⟩ := padded.exists_cons
  have positive : digitVal c ≠ 0 := by
    intro zero
    have byte := digitByte_digitVal (padded.digits c List.mem_cons_self)
    rw [zero] at byte
    exact nonzero (congrArg some byte.symm)
  rw [ofBase_cons, List.length_cons, Nat.add_sub_cancel]
  exact (Nat.le_mul_of_pos_right _ (Nat.pos_of_ne_zero positive)).trans (Nat.le_add_left _ _)

theorem Padded.ofBase_lt_of_zero (padded : Padded width u) (zero : u.head? = some 48)
    (octal : ∀ c ∈ u, digitVal c < 8) : ofBase 8 u < 10 ^ (width - 1) := by
  have size := padded.length_eq zero
  obtain ⟨c, cs, rfl⟩ := padded.exists_cons
  cases zero
  have rest := ofBase_lt (by decide) fun d member => octal d (List.mem_cons_of_mem 48 member)
  have value : digitVal 48 = 0 := by decide
  rw [ofBase_cons, value, Nat.mul_zero, Nat.add_zero, ← size, List.length_cons, Nat.add_sub_cancel]
  exact rest.trans_le (Nat.pow_le_pow_left (by decide) _)

theorem ofBase_eq_zero_iff (digits : ∀ c ∈ u, isDigit c = true) (octal : ∀ c ∈ u, digitVal c < 8) :
    ofBase 8 u = 0 ↔ ∀ c ∈ u, c = 48 := by
  have zeros : ∀ n, ofBase 8 (List.replicate n 48) = 0 := by
    intro n
    rw [ofBase, List.reverse_replicate, List.map_replicate]
    exact Nat.ofDigits_replicate_zero
  constructor
  · intro zero
    have same : u = List.replicate u.length 48 := by
      refine ofBase_inj (by decide : 1 < 8) List.length_replicate.symm digits (fun c member => ?_) octal
        (fun c member => ?_) (zero.trans (zeros _).symm)
      · rw [List.eq_of_mem_replicate member]
        decide
      · rw [List.eq_of_mem_replicate member]
        decide
    exact fun c member => List.eq_of_mem_replicate (same ▸ member)
  · intro all
    rw [List.eq_replicate_of_mem all]
    exact zeros _

theorem Padded.reading_eq_zero_iff (padded : Padded width u) :
    reading u = 0 ↔ readsZero u = true := by
  unfold reading readsZero
  split
  · next zero =>
      rw [zero, decide_eq_true rfl, Bool.true_and, Bool.or_eq_true, List.any_eq_true, List.all_eq_true]
      simp only [decide_eq_true_eq]
      split
      · next octal =>
          rw [ofBase_eq_zero_iff padded.digits octal]
          refine ⟨.inr, fun either => either.resolve_left fun ⟨c, member, high⟩ => ?_⟩
          exact absurd (octal c member) (Nat.not_lt.mpr high)
      · next decimal =>
          push Not at decimal
          exact iff_of_true rfl (.inl decimal)
  · next nonzero =>
      have low := padded.le_ofBase nonzero
      have positive : 0 < 10 ^ (u.length - 1) := by positivity
      simp only [nonzero, decide_false, Bool.false_and, Bool.false_eq_true, iff_false]
      omega

theorem reading_octal (front : u.head? = some 48) (nonzero : reading u ≠ 0) :
    (∀ c ∈ u, digitVal c < 8) ∧ reading u = ofBase 8 u := by
  rw [reading, if_pos front] at nonzero ⊢
  by_cases octal : ∀ c ∈ u, digitVal c < 8
  · exact ⟨octal, if_pos octal⟩
  · exact absurd (if_neg octal) nonzero

/-- A number of base eight is less than all that start with another digit. -/
theorem Padded.eq_of_octal (padded : Padded width u) (other : Padded width v)
    (front : u.head? = some 48) (nonzero : reading u ≠ 0) (same : reading u = reading v) : u = v := by
  obtain ⟨octal, value⟩ := reading_octal front nonzero
  by_cases frontV : v.head? = some 48
  · obtain ⟨octalV, valueV⟩ := reading_octal frontV fun zero => nonzero (same.trans zero)
    exact ofBase_inj (by decide) ((padded.length_eq front).trans (other.length_eq frontV).symm)
      padded.digits other.digits octal octalV (value.symm.trans (same.trans valueV))
  · have valueV : reading v = ofBase 10 v := if_neg frontV
    have small := padded.ofBase_lt_of_zero front octal
    have large := other.le_ofBase frontV
    have power : 10 ^ (width - 1) ≤ 10 ^ (v.length - 1) :=
      Nat.pow_le_pow_right (by decide) (Nat.sub_le_sub_right other.wide 1)
    omega

theorem Padded.eq_of_decimal (padded : Padded width u) (other : Padded width v)
    (left : u.head? ≠ some 48) (right : v.head? ≠ some 48) (same : reading u = reading v) : u = v := by
  have value : ofBase 10 u = ofBase 10 v := (if_neg left).symm.trans (same.trans (if_neg right))
  have smallU := ofBase_lt (by decide : 1 < 10) fun c member => digitVal_lt (padded.digits c member)
  have smallV := ofBase_lt (by decide : 1 < 10) fun c member => digitVal_lt (other.digits c member)
  have largeU := padded.le_ofBase left
  have largeV := other.le_ofBase right
  have sizeU := (Nat.pow_lt_pow_iff_right (by decide : 1 < 10)).mp (largeU.trans_lt (value ▸ smallV))
  have sizeV := (Nat.pow_lt_pow_iff_right (by decide : 1 < 10)).mp (largeV.trans_lt (value ▸ smallU))
  exact ofBase_inj (by decide) (by omega) padded.digits other.digits
    (fun c member => digitVal_lt (padded.digits c member))
    (fun c member => digitVal_lt (other.digits c member)) value

/-- Different texts of one width are read as one number only if it is zero. -/
theorem Padded.reading_inj (padded : Padded width u) (other : Padded width v) :
    reading u = reading v ↔ u = v ∨ readsZero u = true ∧ readsZero v = true := by
  rw [← padded.reading_eq_zero_iff, ← other.reading_eq_zero_iff]
  constructor
  · intro same
    by_cases zero : reading u = 0
    · exact .inr ⟨zero, same ▸ zero⟩
    refine .inl ?_
    by_cases frontU : u.head? = some 48
    · exact padded.eq_of_octal other frontU zero same
    by_cases frontV : v.head? = some 48
    · exact (other.eq_of_octal padded frontV (fun read => zero (same.trans read)) same.symm).symm
    · exact padded.eq_of_decimal other frontU frontV same
  · rintro (rfl | ⟨left, right⟩)
    · rfl
    · rw [left, right]

/-! ### What a flag makes of a job number -/

/-- The base `strtol` takes for such digits. -/
def firstBase (u : Bytes) : Nat := if u.head? = some 48 then 8 else 10

theorem Padded.reading_eq_scanNat (padded : Padded width u) :
    reading u = if (scanNat (firstBase u) 0 u).2 = [] then (scanNat (firstBase u) 0 u).1 else 0 := by
  unfold reading firstBase
  split
  · split
    · next octal => rw [scanNat_eq_ofBase octal, if_pos rfl]
    · next decimal =>
        push Not at decimal
        rw [if_neg (scanNat_stopped decimal)]
  · rw [scanNat_eq_ofBase fun c member => digitVal_lt (padded.digits c member), if_pos rfl]

theorem Padded.reading_lt (padded : Padded width u) : reading u < 10 ^ 6 := by
  have power : ∀ b ≤ 10, b ^ u.length ≤ 10 ^ 6 := fun b low =>
    (Nat.pow_le_pow_left low _).trans (Nat.pow_le_pow_right (by decide) padded.short)
  unfold reading
  split
  · split
    · next octal => exact (ofBase_lt (by decide) octal).trans_le (power 8 (by decide))
    · decide
  · exact (ofBase_lt (by decide) fun c member => digitVal_lt (padded.digits c member)).trans_le
      (power 10 (by decide))

theorem Padded.strtolBase (padded : Padded width u) : strtolBase 0 u = (firstBase u, u) := by
  obtain ⟨c, cs, rfl⟩ := padded.exists_cons
  have second : ¬ (cs[0]? = some 120 ∨ cs[0]? = some 88) := by
    intro hex
    rcases hex with found | found <;>
      exact absurd (padded.digits _ (List.mem_cons_of_mem c (List.mem_of_getElem? found))) (by decide)
  unfold LPRng.strtolBase firstBase
  simp only [List.getElem?_cons_succ, second, ne_eq, not_true_eq_false, if_false, false_and]
  split <;> rfl

/-- The sign in front of digits. -/
theorem strtol_minus {base : Nat} {c : UInt8} {cs : Bytes} :
    LPRng.strtol base (45 :: c :: cs) =
      if ∃ d ∈ (LPRng.strtolBase base (c :: cs)).2.head?, digitVal d < (LPRng.strtolBase base (c :: cs)).1 then
        (clampLong (-(scanNat (LPRng.strtolBase base (c :: cs)).1 0 (LPRng.strtolBase base (c :: cs)).2).1),
          (scanNat (LPRng.strtolBase base (c :: cs)).1 0 (LPRng.strtolBase base (c :: cs)).2).2)
      else (0, 45 :: c :: cs) := by
  have space : isSpace 45 = false := by decide
  simp [LPRng.strtol, space]

theorem Padded.head_lt (padded : Padded width u) : ∃ c ∈ u.head?, digitVal c < firstBase u := by
  obtain ⟨c, cs, rfl⟩ := padded.exists_cons
  refine ⟨c, rfl, ?_⟩
  unfold firstBase
  split
  · next zero =>
      cases zero
      decide
  · exact digitVal_lt (padded.digits c List.mem_cons_self)

theorem Padded.flagOfText (padded : Padded width u) : flagOfText u = reading u := by
  have small := padded.reading_lt
  have value := padded.reading_eq_scanNat
  have first := padded.head_lt
  have base := padded.strtolBase
  have read : strtol 0 u = (clampLong (scanNat (firstBase u) 0 u).1, (scanNat (firstBase u) 0 u).2) := by
    obtain ⟨c, cs, rfl⟩ := padded.exists_cons
    rw [strtol_of_digit (padded.digits c List.mem_cons_self), base]
    exact if_pos first
  rw [LPRng.flagOfText, read]
  split at value
  · next whole =>
      rw [if_pos whole, ← value, clampLong_of_small (by omega), toInt32_of_small (by omega)]
  · next stopped => rw [if_neg stopped, value, Nat.cast_zero]

theorem Padded.flagOfText_minus (padded : Padded width u) :
    LPRng.flagOfText (45 :: u) = -reading u := by
  have small := padded.reading_lt
  have value := padded.reading_eq_scanNat
  have first := padded.head_lt
  have base := padded.strtolBase
  have read : strtol 0 (45 :: u) =
      (clampLong (-(scanNat (firstBase u) 0 u).1), (scanNat (firstBase u) 0 u).2) := by
    obtain ⟨c, cs, rfl⟩ := padded.exists_cons
    rw [strtol_minus, base]
    exact if_pos first
  rw [LPRng.flagOfText, read]
  split at value
  · next whole =>
      have clamped : clampLong (-(reading u : Int)) = -reading u := by
        unfold clampLong
        omega
      rw [if_pos whole, ← value, clamped, toInt32, Int.bmod_eq_of_le (by omega) (by omega)]
  · next stopped => rw [if_neg stopped, value, Nat.cast_zero, neg_zero]

/-! ### Job numbers -/

/-- The digits of a job number behind its sign. -/
def unsigned (text : Bytes) : Bytes := if text.head? = some 45 then text.tail else text

/-- A job number that a flag reads as zero. -/
def octalTrap (text : Bytes) : Bool := readsZero (unsigned text)

theorem padded_padLeft {n : Nat} (positive : 0 < width) (narrow : width ≤ 6) (small : n < 10 ^ 6) :
    Padded width (padLeft width (printNat 10 n)) := by
  have size := length_printNat_le (by decide : 2 ≤ 10) (by decide : 0 < 6) small
  have length : (padLeft width (printNat 10 n)).length =
      width - (printNat 10 n).length + (printNat 10 n).length := by
    rw [padLeft, List.length_append, List.length_replicate]
  refine ⟨fun c member => ?_, positive, by omega, by omega, fun longer => ?_⟩
  · rcases List.mem_append.mp member with padding | digit
    · rw [List.eq_of_mem_replicate padding]
      decide
    · exact isDigit_of_mem_printNat digit
  · have whole : padLeft width (printNat 10 n) = printNat 10 n := by
      rw [padLeft, Nat.sub_eq_zero_of_le (by omega), List.replicate_zero, List.nil_append]
    obtain ⟨d, low, ds, text, nonzero⟩ := printNat_head (by decide : 2 ≤ 10) n
    have many : n ≠ 0 := by
      rintro rfl
      change width < (padLeft width [48]).length at longer
      rw [padLeft, List.length_append, List.length_replicate, List.length_singleton] at longer
      omega
    rw [whole, text, List.head?_cons]
    intro zero
    have value := congrArg digitVal (Option.some.inj zero)
    rw [digitVal_digitByte (by omega)] at value
    exact nonzero (Nat.pos_of_ne_zero many) value

/-- The text of a job number has the width of the configuration, with the sign in it. -/
theorem padded_fixJobNumber (long : Bool) (n : Int) :
    Padded (if long then 6 else 3) (fixJobNumber long n) ∨
      ∃ u, fixJobNumber long n = 45 :: u ∧ Padded (if long then 5 else 2) u := by
  have general : ∀ (width : Nat) (m : Int), 1 < width → width ≤ 6 → m.natAbs < 10 ^ 6 →
      Padded width (printPadded width m) ∨ ∃ u, printPadded width m = 45 :: u ∧ Padded (width - 1) u := by
    intro width m low high small
    unfold printPadded
    split
    · exact .inr ⟨_, rfl, padded_padLeft (by omega) (by omega) small⟩
    · exact .inl (padded_padLeft (by omega) high small)
  cases long
  · refine general 3 (n.tmod 1000) (by decide) (by decide) ?_
    rw [Int.natAbs_tmod]
    exact (Nat.mod_lt _ (by decide)).trans (by decide)
  · refine general 6 (n.tmod 1000000) (by decide) (by decide) ?_
    rw [Int.natAbs_tmod]
    exact Nat.mod_lt _ (by decide)

theorem Padded.unsigned_eq (padded : Padded width u) : unsigned u = u := by
  refine if_neg fun minus => ?_
  exact absurd (padded.digits _ (List.mem_of_mem_head? minus)) (by decide)

/-- Two job numbers are read as one only if both are read as zero. -/
theorem flagOfText_fixJobNumber_inj (long : Bool) (m n : Int) :
    LPRng.flagOfText (fixJobNumber long m) = LPRng.flagOfText (fixJobNumber long n) ↔
      fixJobNumber long m = fixJobNumber long n ∨
        octalTrap (fixJobNumber long m) = true ∧ octalTrap (fixJobNumber long n) = true := by
  have minus : ∀ u : Bytes, octalTrap (45 :: u) = readsZero u := fun _ => rfl
  have other : ∀ {width width' : Nat} {u v : Bytes}, Padded width u → Padded width' v →
      (LPRng.flagOfText u = LPRng.flagOfText (45 :: v) ↔
        u = 45 :: v ∨ octalTrap u = true ∧ octalTrap (45 :: v) = true) := by
    intro width width' u v left right
    have differ : u ≠ 45 :: v := by
      rintro rfl
      exact absurd (left.digits 45 List.mem_cons_self) (by decide)
    rw [left.flagOfText, right.flagOfText_minus, octalTrap, left.unsigned_eq, minus,
      ← left.reading_eq_zero_iff, ← right.reading_eq_zero_iff, or_iff_right differ]
    omega
  rcases padded_fixJobNumber long m with left | ⟨u, textU, left⟩ <;>
    rcases padded_fixJobNumber long n with right | ⟨v, textV, right⟩
  · rw [left.flagOfText, right.flagOfText, Nat.cast_inj, left.reading_inj right, octalTrap, octalTrap,
      left.unsigned_eq, right.unsigned_eq]
  · rw [textV]
    exact other left right
  · rw [textU, eq_comm, eq_comm (a := 45 :: u), and_comm]
    exact other right left
  · rw [textU, textV, left.flagOfText_minus, right.flagOfText_minus, neg_inj, Nat.cast_inj,
      left.reading_inj right, minus, minus, List.cons_inj_right]

theorem head_fixJobNumber (long : Bool) (n : Int) :
    ∀ c ∈ (fixJobNumber long n).head?, isSpace c = false := by
  intro c front
  rcases padded_fixJobNumber long n with padded | ⟨u, text, -⟩
  · exact (plain_of_isDigit (padded.digits c (List.mem_of_mem_head? front))).1
  · rw [text] at front
    cases front
    decide

end JobNumber

end LPRng
