import LPRng.HeaderLine
import LPRng.NumberFormat
import Mathlib.Data.BitVec
import Mathlib.Data.List.GetD

/-!
# Formatted output

`plp_vsnprintf` goes through a format and puts the characters of the output into a buffer as long as there is room, and
counts them all. What is left of the buffer is counted down in an `int` beyond 0.
-/

namespace LPRng

namespace PlpSnprintf

/-! ## Directives -/

/-- An argument, with doubles of any type. -/
inductive Arg (δ : Type) where
  | int (value : BitVec 32)
  | long (value : BitVec 64)
  | string (value : Option Bytes)
  | double (value : δ)

/-- What the functions of the library answer: the text of `sprintf` for a double, and that of `strerror` for the error
number there was at the start. -/
structure Env (δ : Type) where
  sprintf : Bytes → δ → Bytes
  errormsg : Bytes

/-- What has been read of a directive. -/
structure Directive where
  longflag : Nat
  ljust : Bool
  len : BitVec 32
  zpad : Bool
  precision : BitVec 32
  setPrecision : Bool

namespace Directive

def start : Directive := ⟨0, false, 0, false, -1, false⟩

/-- A digit, or a number given by an argument, belongs to the precision behind a point and else to the width. -/
def setNumber (directive : Directive) (number : BitVec 32 → BitVec 32) : Directive :=
  if directive.setPrecision then { directive with precision := number directive.precision }
  else { directive with len := number directive.len }

end Directive

variable {δ : Type}

/-- `va_arg`. An argument of another type, which a caller must not give, counts as 0. -/
def vaInt : List (Arg δ) → BitVec 32 × List (Arg δ)
  | .int value :: args => (value, args)
  | args => (0, args.tail)

def vaLong : List (Arg δ) → BitVec 64 × List (Arg δ)
  | .long value :: args => (value, args)
  | args => (0, args.tail)

def vaString : List (Arg δ) → Option Bytes × List (Arg δ)
  | .string value :: args => (value, args)
  | args => (none, args.tail)

def vaDouble : List (Arg δ) → Option δ × List (Arg δ)
  | .double value :: args => (some value, args)
  | args => (none, args.tail)

def conversionOf (ch : UInt8) : Option Conversion :=
  if ch = 117 ∨ ch = 85 then some .unsigned
  else if ch = 111 ∨ ch = 79 then some .octal
  else if ch = 100 ∨ ch = 68 then some .decimal
  else if ch = 120 then some .hex
  else if ch = 88 then some .capitalHex
  else none

/-- The value of an integer directive: an `int` is extended by its sign only for a signed conversion. -/
def vaValue (longflag : Nat) (conversion : Conversion) (args : List (Arg δ)) : BitVec 64 × List (Arg δ) :=
  if 0 < longflag then vaLong args
  else
    let (value, args) := vaInt args
    (if conversion.signedVal then value.signExtend 64 else value.setWidth 64, args)

/-! ## Output routines -/

def shown (visibleControl : Bool) (value : Bytes) : Bytes := if visibleControl then fmtString value else value

/-- `fmtstr`. The precision counts characters of the value where they are printed, and printed characters where the
field is filled. -/
def fmtstr (visibleControl : Bool) (value : Option Bytes) (ljust : Bool) (len precision : BitVec 32) : Bytes :=
  let value := value.getD (lit "<NULL>")
  let strlenv := BitVec.ofNat 32 (shown visibleControl value).length
  let strlenv := if 0 < precision.toInt ∧ precision.toInt < strlenv.toInt then precision else strlenv
  let padlen := (len - strlenv).toInt
  let padlen := if padlen < 0 then 0 else padlen
  let padlen := if ljust then -padlen else padlen
  List.replicate padlen.toNat 32 ++ shown visibleControl (value.take strlenv.toInt.toNat) ++
    List.replicate (-padlen).toNat 32

/-- `fmtdouble`, which leaves the number to `sprintf`. -/
def fmtdouble (env : Env δ) (fmt : UInt8) (value : δ) (directive : Directive) : Bytes :=
  let len := min directive.len.toInt 255
  let precision := min directive.precision.toInt 255
  let precision := if 0 ≤ precision ∧ 0 < len ∧ len < precision then len else precision
  let formatstr := lit "%" ++ (if directive.ljust then lit "-" else []) ++ (if directive.zpad then lit "0" else []) ++
    (if 0 ≤ len then printInt len else []) ++ (if 0 ≤ precision then 46 :: printInt precision else []) ++ [fmt]
  env.sprintf formatstr value

/-! ## The format -/

/-- `dopr`, as the characters it hands to `dopr_outch`: in the text of the format, or in a directive. -/
def dopr (visibleControl : Bool) (env : Env δ) : Option Directive → Bytes → List (Arg δ) → Bytes
  | none, [], _ => []
  | none, ch :: format, args =>
      if ch = 37 then dopr visibleControl env (some .start) format args else ch :: dopr visibleControl env none format args
  | some _, [], _ => lit "**end of format**"
  | some directive, ch :: format, args =>
      if ch = 45 then dopr visibleControl env (some { directive with ljust := true }) format args
      else if ch = 46 then
        dopr visibleControl env (some { directive with setPrecision := true, precision := 0 }) format args
      else if ch = 42 then
        let (number, args) := vaInt args
        dopr visibleControl env (some (directive.setNumber fun _ => number)) format args
      else if isDigit ch then
        let zero : Bool := ch = 48 && directive.len = 0 && !directive.setPrecision
        let directive := { directive with zpad := directive.zpad || zero }
        dopr visibleControl env (some (directive.setNumber fun number => number * 10 + BitVec.ofNat 32 ch.toNat - 48))
          format args
      else if ch = 108 then
        dopr visibleControl env (some { directive with longflag := directive.longflag + 1 }) format args
      else if ch = 113 then lit "*no quad_t support *"
      else
        match conversionOf ch with
        | some conversion =>
            let (value, args) := vaValue directive.longflag conversion args
            fmtnum value conversion directive.ljust directive.len directive.zpad ++ dopr visibleControl env none format args
        | none =>
            if ch = 115 then
              let (value, args) := vaString args
              fmtstr visibleControl value directive.ljust directive.len directive.precision ++
                dopr visibleControl env none format args
            else if ch = 99 then
              let (value, args) := vaInt args
              let b : Bytes := if UInt8.ofBitVec (value.setWidth 8) = 0 then [] else [UInt8.ofBitVec (value.setWidth 8)]
              fmtstr false (some b) directive.ljust directive.len directive.precision ++
                dopr visibleControl env none format args
            else if ch = 102 ∨ ch = 103 ∨ ch = 101 then
              let (value, args) := vaDouble args
              (value.elim [] fun value => fmtdouble env ch value directive) ++ dopr visibleControl env none format args
            else if ch = 109 then
              fmtstr visibleControl (some env.errormsg) directive.ljust directive.len directive.precision ++
                dopr visibleControl env none format args
            else if ch = 37 then ch :: dopr visibleControl env none format args
            else lit "???????" ++ dopr visibleControl env none format args

/-! ## The buffer -/

/-- The memory from `str` on, with the place that is written next and what is left of the buffer. -/
structure Output where
  memory : Nat → UInt8
  buffer : Nat
  left : BitVec 32

def doprOutch (output : Output) (c : UInt8) : Output :=
  if 0 < output.left.toInt then
    ⟨Function.update output.memory output.buffer c, output.buffer + 1, output.left - 1⟩
  else { output with left := output.left - 1 }

/-- `plp_vsnprintf`, on the characters that are handed to `dopr_outch`: the memory and the result. -/
def vsnprintf (memory : Nat → UInt8) (count : BitVec 64) (text : Bytes) : (Nat → UInt8) × BitVec 32 :=
  let count := if (count.setWidth 32).toInt < 0 then 0 else count
  let output := text.foldl doprOutch ⟨memory, 0, count.setWidth 32⟩
  let memory :=
    if count = 0 then output.memory
    else if 0 < output.left.toInt then
      Function.update output.memory (count - output.left.signExtend 64).toNat 0
    else Function.update output.memory (count - 1).toNat 0
  (memory, (count - output.left.signExtend 64).setWidth 32)

def plpVsnprintf (env : Env δ) (memory : Nat → UInt8) (count : BitVec 64) (fmt : Bytes) (args : List (Arg δ)) :
    (Nat → UInt8) × BitVec 32 :=
  vsnprintf memory count (dopr true env none fmt args)

/-! ## Plain directives -/

theorem length_le_fmtString (value : Bytes) : value.length ≤ (fmtString value).length := by
  rw [fmtString]
  induction value with
  | nil => exact Nat.le_refl 0
  | cons c value ih =>
      rw [List.flatMap_cons, List.length_append, List.length_cons]
      split
      · rw [List.length_cons, List.length_singleton]
        omega
      · rw [List.length_singleton]
        omega

/-- Without a width and a precision, a text is printed as `fmtString` says. -/
theorem fmtstr_plain {value : Bytes} (short : (fmtString value).length < 2 ^ 31) :
    fmtstr true (some value) false 0 (-1) = fmtString value := by
  have size : (BitVec.ofNat 32 (fmtString value).length).toInt = (fmtString value).length := by
    rw [BitVec.toInt_ofNat']
    exact Int.bmod_eq_of_le (by omega) (by omega)
  have room : (if (0 - BitVec.ofNat 32 (fmtString value).length).toInt < 0 then (0 : Int)
      else (0 - BitVec.ofNat 32 (fmtString value).length).toInt) = 0 := by
    have nothing : (0 : BitVec 32).toInt = 0 := rfl
    rw [BitVec.toInt_sub, size, nothing, Int.bmod_eq_of_le (by omega) (by omega)]
    split
    · rfl
    · omega
  have whole : value.take (fmtString value).length = value := List.take_of_length_le (length_le_fmtString value)
  have unlimited (n : Int) : ¬ (0 < (-1 : BitVec 32).toInt ∧ (-1 : BitVec 32).toInt < n) :=
    fun both => absurd both.1 (by decide)
  rw [fmtstr, Option.getD_some, shown, if_pos rfl, if_neg (unlimited _), if_neg Bool.false_ne_true, room, size,
    Int.toNat_natCast, whole, shown, if_pos rfl]
  exact List.append_nil _

/-- An integer without a width. -/
theorem fmtnum_plain (value : BitVec 64) (zpad : Bool) :
    fmtnum value .decimal false 0 zpad = printInt value.toInt := by
  have room : padding .decimal value 0 = 0 := by
    have few := length_convert_le .decimal (magnitude_lt .decimal value)
    have width : (0 : BitVec 32).toInt = 0 := rfl
    have parts := padding_eq .decimal value 0
    rw [← length_convert, width] at parts
    split at parts
    · omega
    · omega
  have digits : (convert .decimal (magnitude .decimal value)).reverse = printNat 10 (magnitude .decimal value) :=
    reverse_convert rfl _
  have joined : fmtnum value .decimal false 0 zpad = sign .decimal value ++ printNat 10 (magnitude .decimal value) := by
    rw [fmtnum_eq, room, digits, if_neg Bool.false_ne_true]
    cases zpad
    · rfl
    · rw [if_pos rfl, Nat.zero_sub, List.replicate_zero, List.append_nil]
  have less : negative .decimal value = decide (value.toInt < 0) := rfl
  rw [joined, sign, less, printInt]
  by_cases below : value.toInt < 0
  · rw [if_pos (decide_eq_true below), if_pos below]
    rfl
  · rw [if_neg (fun below' => below (of_decide_eq_true below')), if_neg below]
    rfl

/-- The line of a key and its number. -/
theorem dopr_keyNumber (env : Env δ) {key : Bytes} (short : (fmtString key).length < 2 ^ 31) (number : BitVec 32) :
    dopr true env none (lit "%s=%d") [.string key, .int number] = fmtString key ++ 61 :: printInt number.toInt := by
  have parts : dopr true env none (lit "%s=%d") [.string key, .int number] =
      fmtstr true (some key) false 0 (-1) ++
        (61 :: (fmtnum (number.signExtend 64) .decimal false 0 false ++ [])) := rfl
  rw [parts, fmtstr_plain short, fmtnum_plain, List.append_nil, BitVec.toInt_signExtend_of_le (by decide)]

/-! ## What is stored -/

variable {memory : Nat → UInt8} {left : BitVec 32} {count : BitVec 64} {text : Bytes}

theorem toInt_pred {x : BitVec 32} (low : -2 ^ 31 < x.toInt) : (x - 1).toInt = x.toInt - 1 := by
  have high := BitVec.toInt_lt (x := x)
  have one : (1 : BitVec 32).toInt = 1 := rfl
  rw [BitVec.toInt_sub, one]
  exact Int.bmod_eq_of_le (by omega) (by omega)

/-- As long as the counter does not run through all of its values, the characters are stored as far as there is room. -/
theorem foldl_doprOutch (room : 0 ≤ left.toInt) (memory : Nat → UInt8) (text : Bytes)
    (bound : text.length ≤ left.toNat + 2 ^ 31) :
    (text.foldl doprOutch ⟨memory, 0, left⟩).left.toInt = left.toNat - text.length ∧
      (text.foldl doprOutch ⟨memory, 0, left⟩).buffer = min text.length left.toNat ∧
      ∀ i, (text.foldl doprOutch ⟨memory, 0, left⟩).memory i =
        if i < min text.length left.toNat then text.getD i 0 else memory i := by
  have high := BitVec.toInt_lt (x := left)
  have same : left.toInt = left.toNat := by
    rw [BitVec.toInt_eq_toNat_cond] at room ⊢
    have limit := left.isLt
    split at room
    · next small => rw [if_pos small]
    · omega
  induction text using List.reverseRecOn with
  | nil =>
      refine ⟨?_, ?_, fun i => ?_⟩
      · rw [List.foldl_nil, same, List.length_nil]
        omega
      · rw [List.foldl_nil, List.length_nil, Nat.zero_min]
      · rw [List.foldl_nil, List.length_nil, Nat.zero_min, if_neg (Nat.not_lt_zero i)]
  | append_singleton text c ih =>
      rw [List.length_append, List.length_singleton] at bound
      obtain ⟨counter, place, cells⟩ := ih (by omega)
      rw [List.foldl_append, List.foldl_cons, List.foldl_nil, List.length_append, List.length_singleton]
      generalize text.foldl doprOutch ⟨memory, 0, left⟩ = output at counter place cells
      have next : (output.left - 1).toInt = left.toNat - (text.length + 1 : Nat) := by
        rw [toInt_pred (by omega), counter]
        omega
      rw [doprOutch]
      split
      · next room =>
          refine ⟨next, ?_, fun i => ?_⟩
          · dsimp only
            omega
          · dsimp only
            have here : output.buffer = text.length := by omega
            have before : min text.length left.toNat = text.length := by omega
            have after : min (text.length + 1) left.toNat = text.length + 1 := by omega
            rw [Function.update_apply, cells, here, before, after]
            by_cases last : i = text.length
            · rw [if_pos last, if_pos (by omega), last, List.getD_append_right _ _ _ _ (Nat.le_refl _), Nat.sub_self]
              rfl
            · rw [if_neg last]
              by_cases inside : i < text.length
              · rw [if_pos inside, if_pos (by omega), List.getD_append _ _ _ _ inside]
              · rw [if_neg inside, if_neg (by omega)]
      · next full =>
          refine ⟨next, ?_, fun i => ?_⟩
          · dsimp only
            omega
          · dsimp only
            have before : min text.length left.toNat = left.toNat := by omega
            have after : min (text.length + 1) left.toNat = left.toNat := by omega
            rw [cells, before, after]
            by_cases inside : i < left.toNat
            · rw [if_pos inside, if_pos inside, List.getD_append _ _ _ _ (by omega)]
            · rw [if_neg inside, if_neg inside]

/-- A memory that begins with a text and its end. -/
structure Holds (memory : Nat → UInt8) (text : Bytes) : Prop where
  characters : ∀ i < text.length, memory i = text.getD i 0
  terminated : memory text.length = 0

/-- The size that counts: one that is negative as an `int` is taken as 0. -/
def sizeOf (count : BitVec 64) : Nat := if (count.setWidth 32).toInt < 0 then 0 else count.toNat

theorem toInt_setWidth_of_small {x : BitVec 64} (small : x.toNat < 2 ^ 31) : (x.setWidth 32).toInt = x.toNat := by
  rw [BitVec.toInt_eq_toNat_cond, BitVec.toNat_setWidth]
  omega

/-- The size that is used has the value of the `int`. -/
theorem size_eq (small : count.toNat < 2 ^ 32) :
    ∃ size : BitVec 64, (if (count.setWidth 32).toInt < 0 then 0 else count) = size ∧ size.toNat = sizeOf count ∧
      size.toNat < 2 ^ 31 := by
  refine ⟨_, rfl, ?_⟩
  rw [sizeOf]
  split
  · exact ⟨rfl, by decide⟩
  · next positive =>
      refine ⟨rfl, ?_⟩
      rw [BitVec.toInt_eq_toNat_cond, BitVec.toNat_setWidth] at positive
      omega

theorem vsnprintf_spec (memory : Nat → UInt8) (small : count.toNat < 2 ^ 32) (short : text.length < 2 ^ 31) :
    (∀ i, sizeOf count ≤ i → (vsnprintf memory count text).1 i = memory i) ∧
      (0 < sizeOf count → Holds (vsnprintf memory count text).1 (plpSnprintf (sizeOf count) text)) ∧
      (vsnprintf memory count text).2.toInt = text.length := by
  obtain ⟨size, used, same, limit⟩ := size_eq small
  rw [vsnprintf, used, ← same]
  dsimp only
  have left : (size.setWidth 32).toNat = size.toNat := by
    rw [BitVec.toNat_setWidth]
    omega
  have room : 0 ≤ (size.setWidth 32).toInt := by
    rw [toInt_setWidth_of_small limit]
    omega
  obtain ⟨counter, -, cells⟩ := foldl_doprOutch room memory text (by omega)
  rw [left] at counter cells
  generalize text.foldl doprOutch ⟨memory, 0, size.setWidth 32⟩ = output at counter cells
  have printed : (size - output.left.signExtend 64).toNat = text.length := by
    have wide : (output.left.signExtend 64).toInt = size.toNat - text.length :=
      (BitVec.toInt_signExtend_of_le (by decide)).trans counter
    have limit := (output.left.signExtend 64).isLt
    rw [BitVec.toInt_eq_toNat_cond] at wide
    rw [BitVec.toNat_sub]
    split at wide
    · omega
    · omega
  have final (some : size ≠ 0) : (if size = 0 then output.memory
      else if 0 < output.left.toInt then Function.update output.memory (size - output.left.signExtend 64).toNat 0
      else Function.update output.memory (size - 1).toNat 0) =
      Function.update output.memory (min text.length (size.toNat - 1)) 0 := by
    have positive : size.toNat ≠ 0 := fun zero => some (BitVec.eq_of_toNat_eq zero)
    have last : (size - 1).toNat = size.toNat - 1 :=
      BitVec.toNat_sub_of_le (BitVec.le_def.mpr (Nat.one_le_iff_ne_zero.mpr positive))
    rw [if_neg some, printed, last]
    split
    · congr
      omega
    · congr
      omega
  refine ⟨fun i outside => ?_, fun some => ?_, ?_⟩
  · have kept : output.memory i = memory i := by
      rw [cells, if_neg (by omega)]
    by_cases zero : size = 0
    · rw [if_pos zero, kept]
    · have positive : size.toNat ≠ 0 := fun empty => zero (BitVec.eq_of_toNat_eq empty)
      rw [final zero, Function.update_of_ne (by omega), kept]
  · have positive : size ≠ 0 := by
      rintro rfl
      exact absurd some (by decide)
    rw [final positive, plpSnprintf]
    constructor
    · intro i inside
      rw [List.length_take] at inside
      rw [Function.update_of_ne (by omega), cells, if_pos (by omega), List.getD_eq_getElem?_getD,
        List.getD_eq_getElem?_getD, List.getElem?_take_of_lt (by omega)]
    · rw [List.length_take, min_comm]
      exact Function.update_self _ _ _
  · rw [BitVec.toInt_setWidth, printed]
    exact Int.bmod_eq_of_le (by omega) (by omega)

/-- `plp_vsnprintf` stays in the buffer, ends what it puts there, and counts all of the output. What it puts into a
smaller buffer is at the front of what it puts into a larger one. -/
theorem plpVsnprintf_spec (env : Env δ) (memory : Nat → UInt8) {count : BitVec 64} (fmt : Bytes) (args : List (Arg δ))
    (small : count.toNat < 2 ^ 32) (short : (dopr true env none fmt args).length < 2 ^ 31) :
    (∀ i, sizeOf count ≤ i → (plpVsnprintf env memory count fmt args).1 i = memory i) ∧
      (0 < sizeOf count → Holds (plpVsnprintf env memory count fmt args).1
        (plpSnprintf (sizeOf count) (dopr true env none fmt args))) ∧
      (plpVsnprintf env memory count fmt args).2.toInt = (dopr true env none fmt args).length ∧
      ∀ smaller, sizeOf smaller ≤ sizeOf count → plpSnprintf (sizeOf smaller) (dopr true env none fmt args) <+:
        plpSnprintf (sizeOf count) (dopr true env none fmt args) := by
  obtain ⟨outside, inside, length⟩ := vsnprintf_spec memory small short
  refine ⟨outside, inside, length, fun smaller less => ?_⟩
  exact List.take_prefix_take_left (by omega)

/-- Functions of the library that print nothing. -/
def quiet : Env Unit := ⟨fun _ _ => [], []⟩

theorem plpVsnprintf_small :
    (∀ i, sizeOf 4 ≤ i → (plpVsnprintf quiet (fun _ => 1) 4 (lit "a%sbc") [.string none]).1 i = 1) ∧
      (0 < sizeOf 4 → Holds (plpVsnprintf quiet (fun _ => 1) 4 (lit "a%sbc") [.string none]).1
        (plpSnprintf (sizeOf 4) (dopr true quiet none (lit "a%sbc") [.string none]))) ∧
      (plpVsnprintf quiet (fun _ => 1) 4 (lit "a%sbc") [.string none]).2.toInt =
        (dopr true quiet none (lit "a%sbc") [.string none]).length ∧
      ∀ smaller, sizeOf smaller ≤ sizeOf 4 →
        plpSnprintf (sizeOf smaller) (dopr true quiet none (lit "a%sbc") [.string none]) <+:
          plpSnprintf (sizeOf 4) (dopr true quiet none (lit "a%sbc") [.string none]) :=
  plpVsnprintf_spec quiet (fun _ => 1) (lit "a%sbc") [.string none] (by decide) (by decide)

/-- Nothing is put into a buffer whose size is negative as an `int`, and it has no end. -/
theorem unterminated : ¬ ∃ text, Holds (plpVsnprintf quiet (fun _ => 1) (2 ^ 31) (lit "a") []).1 text := by
  have small : ((2 : BitVec 64) ^ 31).toNat < 2 ^ 32 := by decide
  have short : (lit "a").length < 2 ^ 31 := by decide
  have outside := (vsnprintf_spec (fun _ => 1) small short).1
  intro ⟨text, holds⟩
  have kept := outside text.length (Nat.zero_le _)
  exact absurd (kept.symm.trans holds.terminated) (by decide)

end PlpSnprintf

end LPRng
