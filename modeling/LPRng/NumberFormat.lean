import LPRng.Bytes

/-!
# Numbers in formatted output

`fmtnum` prints an integer in the base of its conversion, in a field of at least the given width. The room that has to
be filled is counted without the sign.
-/

namespace LPRng

namespace PlpSnprintf

/-! ## The operation -/

/-- The conversions of integers: `u` or `U`, `o` or `O`, `d` or `D`, `x`, and `X`. -/
inductive Conversion where
  | unsigned
  | octal
  | decimal
  | hex
  | capitalHex
deriving DecidableEq

namespace Conversion

def base : Conversion → Int
  | unsigned => 10
  | octal => 8
  | decimal => 10
  | hex => 16
  | capitalHex => -16

def signedVal : Conversion → Bool
  | decimal => true
  | _ => false

def caps (conversion : Conversion) : Bool := conversion.base < 0

def radix (conversion : Conversion) : Nat := conversion.base.natAbs

theorem eight_le_radix (conversion : Conversion) : 8 ≤ conversion.radix := by
  cases conversion
  all_goals decide

theorem radix_le (conversion : Conversion) : conversion.radix ≤ 16 := by
  cases conversion
  all_goals decide

end Conversion

/-- A character of `0123456789ABCDEF` or of `0123456789abcdef`. -/
def digitChar (caps : Bool) (d : Nat) : UInt8 := if caps ∧ 10 ≤ d then UInt8.ofNat (55 + d) else digitByte d

/-- The digits of a number, the last one first. -/
def convert (conversion : Conversion) (uvalue : Nat) : Bytes :=
  digitChar conversion.caps (uvalue % conversion.radix) ::
    if uvalue / conversion.radix = 0 then [] else convert conversion (uvalue / conversion.radix)
termination_by uvalue
decreasing_by
  next more =>
    have low := conversion.eight_le_radix
    have positive : uvalue ≠ 0 := by
      rintro rfl
      exact more (Nat.zero_div _)
    exact Nat.div_lt_self (Nat.pos_of_ne_zero positive) (by omega)

/-- Whether a number gets a sign. -/
def negative (conversion : Conversion) (value : BitVec 64) : Bool := conversion.signedVal && value.toInt < 0

/-- `fmtnum`, as the characters it hands to `dopr_outch`. -/
def fmtnum (value : BitVec 64) (conversion : Conversion) (ljust : Bool) (len : BitVec 32) (zpad : Bool) : Bytes :=
  let signvalue : Bytes := if negative conversion value then [45] else []
  let uvalue := if negative conversion value then (-value).toNat else value.toNat
  let digits := convert conversion uvalue
  let place := digits.length
  let padlen := (len - BitVec.ofNat 32 place).toInt
  let padlen := if padlen < 0 then 0 else padlen
  let padlen := if ljust then -padlen else padlen
  if zpad ∧ 0 < padlen then
    signvalue ++ List.replicate (padlen.toNat - signvalue.length) 48 ++ digits.reverse
  else
    List.replicate padlen.toNat 32 ++ signvalue ++ digits.reverse ++ List.replicate (-padlen).toNat 32

/-! ## Digits -/

variable {conversion : Conversion} {value : BitVec 64} {u : Nat}

theorem digitVal_digitChar (caps : Bool) {d : Nat} (small : d < 16) : digitVal (digitChar caps d) = d := by
  have table : ∀ caps : Bool, ∀ d : Fin 16, digitVal (digitChar caps d) = d := by decide
  exact table caps ⟨d, small⟩

theorem convert_eq (conversion : Conversion) (u : Nat) :
    convert conversion u = digitChar conversion.caps (u % conversion.radix) ::
      if u / conversion.radix = 0 then [] else convert conversion (u / conversion.radix) := by
  rw [convert]

/-- Digits that are read are read on from the number they are. -/
theorem scanNat_append {b acc n : Nat} {xs : Bytes} (read : scanNat b acc xs = (n, [])) (ys : Bytes) :
    scanNat b acc (xs ++ ys) = scanNat b n ys := by
  induction xs generalizing acc with
  | nil =>
      cases read
      rfl
  | cons c xs ih =>
      rw [scanNat] at read
      split at read
      · next small =>
          rw [List.cons_append, scanNat, if_pos small]
          exact ih read
      · cases (Prod.mk.inj read).2

/-- The digits denote the number. -/
theorem scanNat_convert (conversion : Conversion) (u : Nat) :
    scanNat conversion.radix 0 (convert conversion u).reverse = (u, []) := by
  have low := conversion.eight_le_radix
  have high := conversion.radix_le
  induction u using Nat.strong_induction_on with
  | _ u ih =>
      have small : u % conversion.radix < conversion.radix := Nat.mod_lt _ (by omega)
      have value : digitVal (digitChar conversion.caps (u % conversion.radix)) = u % conversion.radix :=
        digitVal_digitChar _ (small.trans_le high)
      have last (n : Nat) : scanNat conversion.radix n [digitChar conversion.caps (u % conversion.radix)] =
          (n * conversion.radix + u % conversion.radix, []) := by
        rw [scanNat, value, if_pos small, scanNat]
      rw [convert_eq, List.reverse_cons]
      by_cases single : u / conversion.radix = 0
      · have whole : u % conversion.radix = u := Nat.mod_eq_of_lt ((Nat.div_eq_zero_iff_lt (by omega)).mp single)
        rw [if_pos single, List.reverse_nil, List.nil_append, last, whole, Nat.zero_mul, Nat.zero_add]
      · have less : u / conversion.radix < u := by
          have positive : u ≠ 0 := by
            rintro rfl
            exact single (Nat.zero_div _)
          exact Nat.div_lt_self (Nat.pos_of_ne_zero positive) (by omega)
        rw [if_neg single, scanNat_append (ih _ less), last, Nat.div_add_mod']

theorem length_printNat (b n : Nat) : (printNat b n).length = if n = 0 then 1 else (Nat.digits b n).length := by
  rw [printNat]
  split
  · rfl
  · rw [List.length_map, List.length_reverse]

theorem length_convert (conversion : Conversion) (u : Nat) :
    (convert conversion u).length = (printNat conversion.radix u).length := by
  have low : 1 < conversion.radix := Nat.lt_of_lt_of_le (by decide) conversion.eight_le_radix
  induction u using Nat.strong_induction_on with
  | _ u ih =>
      rw [convert_eq, List.length_cons, length_printNat]
      by_cases zero : u = 0
      · subst zero
        rw [if_pos rfl, if_pos (Nat.zero_div _)]
        rfl
      · rw [if_neg zero, Nat.digits_def' low (Nat.pos_of_ne_zero zero), List.length_cons]
        by_cases single : u / conversion.radix = 0
        · rw [if_pos single, single, Nat.digits_zero]
          rfl
        · rw [if_neg single, ih _ (Nat.div_lt_self (Nat.pos_of_ne_zero zero) low), length_printNat, if_neg single]

/-- But for `X`, the digits are those of a printed number. -/
theorem reverse_convert (small : conversion.caps = false) (u : Nat) :
    (convert conversion u).reverse = printNat conversion.radix u := by
  have low : 1 < conversion.radix := Nat.lt_of_lt_of_le (by decide) conversion.eight_le_radix
  have digit (d : Nat) : digitChar conversion.caps d = digitByte d := by
    rw [digitChar, small]
    exact if_neg fun both => Bool.false_ne_true both.1
  induction u using Nat.strong_induction_on with
  | _ u ih =>
      rw [convert_eq, List.reverse_cons, digit, printNat]
      by_cases zero : u = 0
      · subst zero
        rw [if_pos rfl, if_pos (Nat.zero_div _), Nat.zero_mod]
        rfl
      · rw [if_neg zero, Nat.digits_def' low (Nat.pos_of_ne_zero zero), List.reverse_cons, List.map_append]
        by_cases single : u / conversion.radix = 0
        · rw [if_pos single, single, Nat.digits_zero]
          rfl
        · rw [if_neg single, ih _ (Nat.div_lt_self (Nat.pos_of_ne_zero zero) low), printNat, if_neg single]
          rfl

theorem length_convert_le (conversion : Conversion) (small : u < 2 ^ 64) : (convert conversion u).length ≤ 22 := by
  have low := conversion.eight_le_radix
  rw [length_convert, length_printNat]
  split
  · decide
  · rw [Nat.digits_length_le_iff (by omega)]
    calc u < 8 ^ 22 := small.trans (by norm_num)
      _ ≤ conversion.radix ^ 22 := Nat.pow_le_pow_left low 22

theorem length_convert_pos (conversion : Conversion) (u : Nat) : 0 < (convert conversion u).length := by
  rw [convert_eq]
  exact Nat.succ_pos _

/-! ## Fields -/

/-- The number that the digits stand for. -/
def magnitude (conversion : Conversion) (value : BitVec 64) : Nat :=
  if conversion.signedVal then value.toInt.natAbs else value.toNat

def sign (conversion : Conversion) (value : BitVec 64) : Bytes := if negative conversion value then [45] else []

/-- A sign and digits in a field of at least the width, on the side that the flags say. -/
structure InField (ljust zpad : Bool) (width : Int) (sign digits text : Bytes) : Prop where
  side : ∃ n, text =
    if ljust then sign ++ digits ++ List.replicate n 32
    else if zpad then sign ++ List.replicate n 48 ++ digits
    else List.replicate n 32 ++ sign ++ digits
  length : (text.length : Int) = max width (sign ++ digits).length

/-- A number is printed with no more digits than it needs. -/
def Formatted (conversion : Conversion) (value : BitVec 64) (ljust zpad : Bool) (width : Int) (text : Bytes) : Prop :=
  ∃ digits, digits.length = (printNat conversion.radix (magnitude conversion value)).length ∧
    scanNat conversion.radix 0 digits = (magnitude conversion value, []) ∧
    InField ljust zpad width (sign conversion value) digits text

/-- What the width must be: a number with a sign and fewer digits than the width is padded with zeros, and the width
less the digits is an `int`. -/
def Fits (conversion : Conversion) (value : BitVec 64) (ljust zpad : Bool) (width : Int) : Prop :=
  ¬ (negative conversion value = true ∧
      (printNat conversion.radix (magnitude conversion value)).length < width ∧ (ljust = true ∨ zpad = false)) ∧
    -2 ^ 31 ≤ width - (printNat conversion.radix (magnitude conversion value)).length

/-- The most negative number is its own negation, which is read without a sign. -/
theorem uvalue_eq (conversion : Conversion) (value : BitVec 64) :
    (if negative conversion value then (-value).toNat else value.toNat) = magnitude conversion value := by
  rw [negative, magnitude]
  have bound := value.isLt
  have parts := BitVec.toInt_eq_toNat_cond value
  rcases signed : conversion.signedVal with - | -
  · rfl
  · rw [Bool.true_and, if_pos rfl]
    split
    · next below =>
        have below := of_decide_eq_true below
        rw [BitVec.toNat_neg]
        split at parts
        · omega
        · omega
    · next above =>
        have above := of_decide_eq_false (Bool.eq_false_iff.mpr above)
        split at parts
        · omega
        · omega

theorem magnitude_lt (conversion : Conversion) (value : BitVec 64) : magnitude conversion value < 2 ^ 64 := by
  rw [← uvalue_eq]
  split
  · exact BitVec.isLt _
  · exact BitVec.isLt _

/-- The room that is filled. -/
def padding (conversion : Conversion) (value : BitVec 64) (len : BitVec 32) : Nat :=
  (len - BitVec.ofNat 32 (convert conversion (magnitude conversion value)).length).toInt.toNat

theorem fmtnum_eq (value : BitVec 64) (conversion : Conversion) (ljust : Bool) (len : BitVec 32) (zpad : Bool) :
    fmtnum value conversion ljust len zpad =
      if ljust then
        sign conversion value ++ (convert conversion (magnitude conversion value)).reverse ++
          List.replicate (padding conversion value len) 32
      else if zpad then
        sign conversion value ++ List.replicate (padding conversion value len - (sign conversion value).length) 48 ++
          (convert conversion (magnitude conversion value)).reverse
      else
        List.replicate (padding conversion value len) 32 ++ sign conversion value ++
          (convert conversion (magnitude conversion value)).reverse := by
  have room (p : Int) : (if p < 0 then 0 else p) = (p.toNat : Int) := by
    split
    · omega
    · omega
  rw [fmtnum, uvalue_eq, room, ← padding, ← sign]
  generalize padding conversion value len = n
  cases ljust
  · rw [if_neg Bool.false_ne_true, if_neg Bool.false_ne_true, Int.toNat_natCast, Int.toNat_neg_natCast,
      List.replicate_zero, List.append_nil]
    cases zpad
    · rw [if_neg (fun both => Bool.false_ne_true both.1), if_neg Bool.false_ne_true]
    · rw [if_pos rfl]
      split
      · rfl
      · next none =>
          have zero : n = 0 := by
            by_contra some
            exact none ⟨rfl, Int.natCast_pos.mpr (Nat.pos_of_ne_zero some)⟩
          rw [zero, Nat.zero_sub, List.replicate_zero, List.replicate_zero, List.nil_append, List.append_nil]
  · rw [if_pos rfl, if_pos rfl, if_neg (fun both => absurd both.2 (by omega)), Int.toNat_neg_natCast, neg_neg,
      Int.toNat_natCast, List.replicate_zero, List.nil_append]

theorem padding_eq (conversion : Conversion) (value : BitVec 64) (len : BitVec 32) :
    (padding conversion value len : Int) =
      if -2 ^ 31 ≤ len.toInt - (printNat conversion.radix (magnitude conversion value)).length then
        ((len.toInt - (printNat conversion.radix (magnitude conversion value)).length).toNat : Int)
      else len.toInt - (printNat conversion.radix (magnitude conversion value)).length + 2 ^ 32 := by
  have place := length_convert_le conversion (magnitude_lt conversion value)
  have low := BitVec.le_toInt len
  have high := BitVec.toInt_lt (x := len)
  rw [padding, ← length_convert]
  generalize (convert conversion (magnitude conversion value)).length = n at place ⊢
  have small : (BitVec.ofNat 32 n).toInt = n := by
    rw [BitVec.toInt_ofNat']
    exact Int.bmod_eq_of_le (by omega) (by omega)
  rw [BitVec.toInt_sub, small]
  split
  · rw [Int.bmod_eq_of_le (by omega) (by omega)]
  · have wrapped : (len.toInt - n).bmod (2 ^ 32) = len.toInt - n + 2 ^ 32 := by
      rw [← Int.add_bmod_right]
      exact Int.bmod_eq_of_le (by omega) (by omega)
    rw [wrapped]
    omega

theorem length_sign (conversion : Conversion) (value : BitVec 64) :
    (sign conversion value).length = if negative conversion value then 1 else 0 := by
  rw [sign]
  split
  · rfl
  · rfl

theorem length_fmtnum (value : BitVec 64) (conversion : Conversion) (ljust : Bool) (len : BitVec 32) (zpad : Bool) :
    (fmtnum value conversion ljust len zpad).length =
      (printNat conversion.radix (magnitude conversion value)).length +
        if ljust = false ∧ zpad = true then max (sign conversion value).length (padding conversion value len)
        else (sign conversion value).length + padding conversion value len := by
  rw [fmtnum_eq, ← length_convert]
  cases ljust
  · cases zpad
    · simp only [Bool.false_eq_true, if_false, and_false, List.length_append, List.length_replicate, List.length_reverse]
      omega
    · simp only [Bool.false_eq_true, if_false, if_true, and_self, List.length_append, List.length_replicate,
        List.length_reverse]
      omega
  · simp only [if_true, Bool.true_eq_false, false_and, if_false, List.length_append, List.length_replicate,
      List.length_reverse]
    omega

/-- A number is printed as it should be, but for one with a sign that is filled with blanks, which gets one of them too
many. -/
theorem fmtnum_iff (value : BitVec 64) (conversion : Conversion) (ljust : Bool) (len : BitVec 32) (zpad : Bool) :
    Formatted conversion value ljust zpad len.toInt (fmtnum value conversion ljust len zpad) ↔
      Fits conversion value ljust zpad len.toInt := by
  have room := padding_eq conversion value len
  have long := length_fmtnum value conversion ljust len zpad
  have minus := length_sign conversion value
  have some := length_convert_pos conversion (magnitude conversion value)
  have few := length_convert_le conversion (magnitude_lt conversion value)
  rw [length_convert] at some few
  have low := BitVec.le_toInt len
  rw [Fits]
  generalize negative conversion value = below at minus ⊢
  constructor
  · intro ⟨digits, size, _, _, exact⟩
    rw [List.length_append, size, max_def] at exact
    cases below
    all_goals cases ljust
    all_goals cases zpad
    all_goals
      simp only [reduceCtorEq, Bool.false_eq_true, if_true, if_false, and_self, and_true, and_false, false_and, true_and,
        or_false, or_true, or_self, not_false_eq_true, not_lt] at long minus ⊢
      split at room
      all_goals split at exact
      all_goals omega
  · intro ⟨zeros, fits⟩
    rw [if_pos fits] at room
    refine ⟨(convert conversion (magnitude conversion value)).reverse, ?_, scanNat_convert _ _, ?_, ?_⟩
    · rw [List.length_reverse, length_convert]
    · rw [fmtnum_eq]
      cases ljust
      · cases zpad
        · exact ⟨_, rfl⟩
        · exact ⟨_, rfl⟩
      · exact ⟨_, rfl⟩
    · rw [List.length_append, List.length_reverse, length_convert, max_def]
      cases below
      all_goals cases ljust
      all_goals cases zpad
      all_goals
        simp only [reduceCtorEq, Bool.false_eq_true, if_true, if_false, and_self, and_true, and_false,
          true_and, or_false, or_true, or_self, not_false_eq_true] at long minus zeros
        split
        all_goals omega

/-- A negative number is printed wider than the width. -/
theorem negative_wide : fmtnum (-5) .decimal false 5 false = lit "    -5" ∧
    ¬ Formatted .decimal (-5) false false 5 (fmtnum (-5) .decimal false 5 false) := by
  have shown : fmtnum (-5) .decimal false 5 false = lit "    -5" := by decide +kernel
  refine ⟨shown, ?_⟩
  intro ⟨digits, few, _, _, wide⟩
  have single : (printNat Conversion.decimal.radix (magnitude .decimal (-5))).length = 1 := by
    rw [length_printNat]
    decide
  have minus : sign .decimal (-5) = [45] := rfl
  rw [shown, minus, List.length_append, few, single] at wide
  exact absurd wide (by decide)

end PlpSnprintf

end LPRng
