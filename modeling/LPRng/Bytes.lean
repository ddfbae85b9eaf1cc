import Mathlib.Data.List.TakeWhile
import Mathlib.Data.Nat.Digits.Lemmas
import Mathlib.Data.Int.Init

/-!
# Bytes, C characters and the text of numbers

Texts and streams are lists of bytes. The character classes are those of the C
locale. Numbers are printed digit by digit, as `%d`, `%ld` and `%lx` do, and read
back the way `strtol` and `atoi` do; the round trip of a printed number is the
fact every keyed flag of a job and every header line of a stream rests on.
-/

namespace LPRng

/-- A text or a stream of bytes. A C string is a text without the byte 0. -/
abbrev Bytes := List UInt8

/-- What is said of all bytes of a text is decided along the text, not for every byte there is. -/
instance decidableAllBytes (p : UInt8 → Prop) [DecidablePred p] (s : Bytes) : Decidable (∀ c ∈ s, p c) :=
  List.decidableBAll p s

instance decidableAnyByte (p : UInt8 → Prop) [DecidablePred p] (s : Bytes) : Decidable (∃ c ∈ s, p c) :=
  List.decidableBEx p s

instance decidableOptionByte (p : UInt8 → Prop) [DecidablePred p] (c : Option UInt8) : Decidable (∀ d ∈ c, p d) :=
  Option.decidableForallMem c

/-- The bytes of an ASCII literal. -/
def lit (s : String) : Bytes := s.toList.map Char.toUInt8

/-! ## Character classes of the C locale -/

def isDigit (c : UInt8) : Bool := 48 ≤ c && c ≤ 57
def isUpper (c : UInt8) : Bool := 65 ≤ c && c ≤ 90
def isLower (c : UInt8) : Bool := 97 ≤ c && c ≤ 122
def isAlpha (c : UInt8) : Bool := isUpper c || isLower c
def isAlnum (c : UInt8) : Bool := isAlpha c || isDigit c
def isSpace (c : UInt8) : Bool := c == 32 || (9 ≤ c && c ≤ 13)

def toLower (c : UInt8) : UInt8 := if isUpper c then c + 32 else c

/-- What a C function sees of a buffer: the bytes before the first NUL. -/
def cstr (s : Bytes) : Bytes := s.takeWhile (· ≠ 0)

theorem cstr_of_noNul {s : Bytes} (clean : 0 ∉ s) : cstr s = s := by
  induction s with
  | nil => rfl
  | cons c cs ih =>
      have nonzero : c ≠ 0 := fun nul => clean (nul ▸ List.mem_cons_self)
      have rest := ih fun member => clean (List.mem_cons_of_mem c member)
      rw [cstr] at rest ⊢
      rw [List.takeWhile_cons, if_pos (decide_eq_true nonzero), rest]

/-- The front of a text whose characters have a property, and the rest. -/
theorem exists_front (p : UInt8 → Bool) (s : Bytes) :
    ∃ u t, s = u ++ t ∧ s.takeWhile p = u ∧ (∀ d ∈ u, p d = true) ∧ (t = [] ∨ ∃ c rest, t = c :: rest ∧ p c = false) := by
  refine ⟨_, s.dropWhile p, List.takeWhile_append_dropWhile.symm, rfl, fun d => List.mem_takeWhile_imp, ?_⟩
  rcases behind : s.dropWhile p with - | ⟨c, rest⟩
  · exact .inl rfl
  · have first := List.head?_dropWhile_not p s
    rw [behind] at first
    exact .inr ⟨c, rest, rfl, by simpa using first⟩

/-! ## Digits -/

/-- The character of a digit, lower case as `%x` prints it. -/
def digitByte (d : Nat) : UInt8 := if d < 10 then UInt8.ofNat (48 + d) else UInt8.ofNat (87 + d)

/-- The value `strtol` gives to a character; 36 and more stand for no digit. -/
def digitVal (c : UInt8) : Nat :=
  if isDigit c then c.toNat - 48
  else if isLower c then c.toNat - 87
  else if isUpper c then c.toNat - 55
  else 36

theorem digitVal_digitByte {d : Nat} (small : d < 36) : digitVal (digitByte d) = d := by
  have table : ∀ d : Fin 36, digitVal (digitByte d) = d := by decide
  exact table ⟨d, small⟩

/-- The text of `n` in base `b`, most significant digit first. -/
def printNat (b n : Nat) : Bytes :=
  if n = 0 then [48] else (Nat.digits b n).reverse.map digitByte

/-- Reads the longest run of base `b` digits onto `acc`; the second component is
what follows it. -/
def scanNat (b : Nat) : Nat → Bytes → Nat × Bytes
  | acc, [] => (acc, [])
  | acc, c :: cs =>
      if digitVal c < b then scanNat b (acc * b + digitVal c) cs else (acc, c :: cs)

/-- No base `b` digit stands at the front. -/
def StopsDigits (b : Nat) (rest : Bytes) : Prop :=
  ∀ c ∈ rest.head?, b ≤ digitVal c

theorem stopsDigits_nil (b : Nat) : StopsDigits b [] := by
  intro c member
  cases member

theorem scanNat_of_stops {b acc : Nat} {rest : Bytes} (stops : StopsDigits b rest) :
    scanNat b acc rest = (acc, rest) := by
  cases rest with
  | nil => rfl
  | cons c cs =>
      have large : ¬ digitVal c < b := Nat.not_lt.mpr (stops c rfl)
      rw [scanNat, if_neg large]

theorem scanNat_map_digitByte {b : Nat} (base : b ≤ 36) {ds : List Nat}
    (small : ∀ d ∈ ds, d < b) (acc : Nat) {rest : Bytes} (stops : StopsDigits b rest) :
    scanNat b acc (ds.map digitByte ++ rest) =
      (ds.foldl (fun a d => a * b + d) acc, rest) := by
  induction ds generalizing acc with
  | nil => exact scanNat_of_stops stops
  | cons d ds ih =>
      have bound : d < b := small d List.mem_cons_self
      have value : digitVal (digitByte d) = d := digitVal_digitByte (bound.trans_le base)
      rw [List.map_cons, List.cons_append, scanNat, value, if_pos bound]
      exact ih (fun e member => small e (List.mem_cons_of_mem d member)) (acc * b + d)

theorem foldl_reverse_digits (b n : Nat) :
    (Nat.digits b n).reverse.foldl (fun a d => a * b + d) 0 = n := by
  have swap : (fun (d a : Nat) => a * b + d) = fun d a => d + b * a := by
    funext d a
    rw [Nat.mul_comm, Nat.add_comm]
  rw [List.foldl_reverse, swap]
  exact (Nat.ofDigits_eq_foldr b _).symm.trans (Nat.ofDigits_digits b n)

/-- A printed number reads back as itself, and the reader stops behind it. -/
theorem scanNat_printNat {b : Nat} (low : 2 ≤ b) (high : b ≤ 36) (n : Nat) {rest : Bytes}
    (stops : StopsDigits b rest) : scanNat b 0 (printNat b n ++ rest) = (n, rest) := by
  rw [printNat]
  split
  · next zero =>
      subst zero
      have value : digitVal 48 = 0 := by decide
      rw [List.cons_append, List.nil_append, scanNat, value, if_pos (by omega), Nat.zero_mul]
      exact scanNat_of_stops stops
  · next =>
      have small : ∀ d ∈ (Nat.digits b n).reverse, d < b := fun d member =>
        Nat.digits_lt_base low (List.mem_reverse.mp member)
      rw [scanNat_map_digitByte high small 0 stops, foldl_reverse_digits]

/-- The first character of a printed number is one of its digits, and it is no
`0` unless the number is. -/
theorem printNat_head {b : Nat} (low : 2 ≤ b) (n : Nat) :
    ∃ d < b, ∃ ds, printNat b n = digitByte d :: ds ∧ (0 < n → d ≠ 0) := by
  rw [printNat]
  split
  · next zero => exact ⟨0, by omega, [], rfl, by omega⟩
  · next positive =>
      have digits : Nat.digits b n ≠ [] := Nat.digits_ne_nil_iff_ne_zero.mpr positive
      have last : (Nat.digits b n).getLast digits ≠ 0 :=
        Nat.getLast_digit_ne_zero b positive
      have front : (Nat.digits b n).reverse =
          (Nat.digits b n).getLast digits :: (Nat.digits b n).dropLast.reverse := by
        conv_lhs => rw [← List.dropLast_concat_getLast digits]
        rw [List.reverse_append]
        rfl
      refine ⟨(Nat.digits b n).getLast digits,
        Nat.digits_lt_base low (List.getLast_mem digits),
        (Nat.digits b n).dropLast.reverse.map digitByte, ?_, fun _ => last⟩
      rw [front, List.map_cons]

theorem printNat_ne_nil {b : Nat} (low : 2 ≤ b) (n : Nat) : printNat b n ≠ [] := by
  obtain ⟨d, _, ds, text, _⟩ := printNat_head low n
  rw [text]
  exact List.cons_ne_nil _ _

/-! ## `int` and `long` -/

/-- The conversion of a `long` to `int`. -/
def toInt32 (n : Int) : Int := n.bmod (2 ^ 32)

theorem toInt32_of_small {n : Nat} (small : n < 2 ^ 31) : toInt32 n = n :=
  Int.bmod_eq_of_le (by omega) (by omega)

theorem toInt32_lt (n : Int) : toInt32 n < 2 ^ 31 := by
  have bound := Int.bmod_lt (x := n) (m := 2 ^ 32) (by decide)
  simpa [toInt32] using bound

/-- `strtol` answers with the nearest `long` when a number does not fit. -/
def clampLong (n : Int) : Int := max (-(2 ^ 63)) (min n (2 ^ 63 - 1))

theorem clampLong_of_small {n : Nat} (small : n < 2 ^ 63) : clampLong n = n := by
  unfold clampLong
  omega

/-- The base `strtol` uses, and the text behind a `0x`. -/
def strtolBase (base : Nat) (s : Bytes) : Nat × Bytes :=
  if base ≠ 0 then (base, s)
  else if s.head? = some 48 then
    if (s[1]? = some 120 ∨ s[1]? = some 88) ∧ ∃ c ∈ s[2]?, digitVal c < 16 then (16, s.drop 2)
    else (8, s)
  else (10, s)

/-- `strtol(s, &end, base)`: the number and the text at `end`. -/
def strtol (base : Nat) (s : Bytes) : Int × Bytes :=
  let t := s.dropWhile isSpace
  let negative := t.head? = some 45
  let u := if negative ∨ t.head? = some 43 then t.tail else t
  let (b, digits) := strtolBase base u
  if ∃ c ∈ digits.head?, digitVal c < b then
    let (n, rest) := scanNat b 0 digits
    (clampLong (if negative then -n else n), rest)
  else (0, s)

def atoi (s : Bytes) : Int := toInt32 (strtol 10 s).1

/-- `%d` and `%ld`. -/
def printInt (n : Int) : Bytes :=
  if n < 0 then 45 :: printNat 10 n.natAbs else printNat 10 n.natAbs

theorem printInt_natCast (n : Nat) : printInt n = printNat 10 n := by
  rw [printInt, if_neg (by omega), Int.natAbs_natCast]

/-- `0x%lx`. -/
def printHex (n : Int) : Bytes := lit "0x" ++ printNat 16 (n % 2 ^ 64).toNat

/-- A digit is neither white space nor a sign. -/
theorem plain_of_isDigit {c : UInt8} (digit : isDigit c = true) :
    isSpace c = false ∧ c ≠ 45 ∧ c ≠ 43 := by
  simp only [isDigit, Bool.and_eq_true, decide_eq_true_eq, UInt8.le_iff_toNat_le] at digit
  simp only [isSpace, Bool.or_eq_false_iff, Bool.and_eq_false_iff, decide_eq_false_iff_not,
    beq_eq_false_iff_ne, ne_eq, ← UInt8.toNat_inj, UInt8.le_iff_toNat_le]
  simp only [UInt8.reduceToNat] at *
  omega

/-- A text that starts with a digit is read as a number from its first byte. -/
theorem strtol_of_digit {base : Nat} {c : UInt8} {cs : Bytes} (digit : isDigit c = true) :
    strtol base (c :: cs) =
      if ∃ d ∈ (strtolBase base (c :: cs)).2.head?, digitVal d < (strtolBase base (c :: cs)).1 then
        (clampLong (scanNat (strtolBase base (c :: cs)).1 0 (strtolBase base (c :: cs)).2).1,
          (scanNat (strtolBase base (c :: cs)).1 0 (strtolBase base (c :: cs)).2).2)
      else (0, c :: cs) := by
  obtain ⟨space, minus, plus⟩ := plain_of_isDigit digit
  simp [strtol, space, minus, plus]

theorem isDigit_digitByte {d : Nat} (small : d < 10) : isDigit (digitByte d) = true := by
  have table : ∀ d : Fin 10, isDigit (digitByte d) = true := by decide
  exact table ⟨d, small⟩

theorem isDigit_of_mem_printNat {n : Nat} {c : UInt8} (member : c ∈ printNat 10 n) :
    isDigit c = true := by
  unfold printNat at member
  split at member
  · rw [List.mem_singleton.mp member]
    rfl
  · rcases List.mem_map.mp member with ⟨d, digit, rfl⟩
    exact isDigit_digitByte (Nat.digits_lt_base (by decide) (List.mem_reverse.mp digit))

theorem digit_of_mem_printInt {n : Int} {c : UInt8} (member : c ∈ printInt n) :
    isDigit c = true ∨ c = 45 := by
  unfold printInt at member
  split at member
  · rcases List.mem_cons.mp member with minus | digit
    · exact .inr minus
    · exact .inl (isDigit_of_mem_printNat digit)
  · exact .inl (isDigit_of_mem_printNat member)

theorem printInt_ne_nil (n : Int) : printInt n ≠ [] := by
  unfold printInt
  split
  · exact List.cons_ne_nil _ _
  · exact printNat_ne_nil (by decide) _

/-- `strtol` with base ten reads back a printed number. -/
theorem strtol_printNat {n : Nat} (fits : n < 2 ^ 63) {rest : Bytes}
    (stops : StopsDigits 10 rest) : strtol 10 (printNat 10 n ++ rest) = ((n : Int), rest) := by
  obtain ⟨d, small, ds, text, _⟩ := printNat_head (b := 10) (by decide) n
  have value : digitVal (digitByte d) = d := digitVal_digitByte (by omega)
  have scanned := scanNat_printNat (b := 10) (by decide) (by decide) n stops
  rw [text, List.cons_append] at scanned ⊢
  rw [strtol_of_digit (isDigit_digitByte small)]
  have base : strtolBase 10 (digitByte d :: (ds ++ rest)) = (10, digitByte d :: (ds ++ rest)) := rfl
  rw [base, if_pos ⟨_, rfl, value.symm ▸ small⟩, scanned, clampLong_of_small fits]

theorem mem_dropWhile {p : UInt8 → Bool} {c : UInt8} {s : Bytes} (stays : p c = false) (member : c ∈ s) :
    c ∈ s.dropWhile p := by
  rw [← List.takeWhile_append_dropWhile (p := p) (l := s)] at member
  refine (List.mem_append.mp member).resolve_left fun taken => ?_
  cases stays.symm.trans (List.mem_takeWhile_imp taken)

theorem digitVal_of_scanNat {b acc : Nat} {digits : Bytes} (whole : (scanNat b acc digits).2 = []) :
    ∀ c ∈ digits, digitVal c < b := by
  induction digits generalizing acc with
  | nil => exact fun c member => absurd member List.not_mem_nil
  | cons d digits ih =>
      rw [scanNat] at whole
      split at whole
      · rename_i digit
        intro c member
        rcases List.mem_cons.mp member with rfl | later
        · exact digit
        · exact ih whole c later
      · cases whole

/-- The base is at most 16, and the text in front of the digits is a `0x` at most. -/
theorem mem_strtolBase {u : Bytes} {c : UInt8} (member : c ∈ u) (zero : c ≠ 48) (x : c ≠ 120) (capital : c ≠ 88) :
    c ∈ (strtolBase 0 u).2 ∧ (strtolBase 0 u).1 ≤ 16 := by
  rw [strtolBase, if_neg (by decide)]
  split
  · split
    · rename_i first hexadecimal
      refine ⟨?_, le_refl 16⟩
      cases u with
      | nil => cases member
      | cons a u =>
          cases u with
          | nil => cases hexadecimal.1 <;> rename_i absurdity <;> cases absurdity
          | cons b u =>
              have own : a = 48 := Option.some.inj first
              have second : b = 120 ∨ b = 88 := hexadecimal.1.imp Option.some.inj Option.some.inj
              rcases List.mem_cons.mp member with rfl | member
              · exact absurd own zero
              · rcases List.mem_cons.mp member with rfl | member
                · exact absurd second (not_or.mpr ⟨x, capital⟩)
                · exact member
    · exact ⟨member, (by decide : 8 ≤ 16)⟩
  · exact ⟨member, (by decide : 10 ≤ 16)⟩

theorem not_mem_of_strtol {s : Bytes} (whole : (strtol 0 s).2 = []) {c : UInt8} (space : isSpace c = false)
    (sign : c ≠ 45 ∧ c ≠ 43) (digit : 16 ≤ digitVal c) (base : c ≠ 48 ∧ c ≠ 120 ∧ c ≠ 88) : c ∉ s := by
  intro member
  have behind : c ∈ s.dropWhile isSpace := mem_dropWhile space member
  rw [strtol] at whole
  dsimp only at whole
  generalize s.dropWhile isSpace = t at behind whole
  have unsigned : c ∈ if t.head? = some 45 ∨ t.head? = some 43 then t.tail else t := by
    split
    · rename_i signed
      cases t with
      | nil => cases behind
      | cons d t =>
          refine (List.mem_cons.mp behind).resolve_left fun same => ?_
          subst same
          exact signed.elim (fun equal => sign.1 (Option.some.inj equal)) fun equal => sign.2 (Option.some.inj equal)
    · exact behind
  generalize (if t.head? = some 45 ∨ t.head? = some 43 then t.tail else t) = u at unsigned whole
  have digits := mem_strtolBase unsigned base.1 base.2.1 base.2.2
  split at whole
  · have low := digitVal_of_scanNat whole c digits.1
    omega
  · have empty : s = [] := whole
    rw [empty] at member
    cases member

theorem atoi_printNat {n : Nat} (fits : n < 2 ^ 63) {rest : Bytes}
    (stops : StopsDigits 10 rest) : atoi (printNat 10 n ++ rest) = toInt32 n := by
  rw [atoi, strtol_printNat fits stops]

/-- The value of a flag's text: what `strtol` with base 0 reads, as an `int`, and
0 for a text that is no number. -/
def flagOfText (s : Bytes) : Int :=
  if (strtol 0 s).2 = [] then toInt32 (strtol 0 s).1 else 0

theorem flagOfText_printHex {n : Nat} (fits : n < 2 ^ 63) :
    flagOfText (printHex n) = toInt32 n := by
  obtain ⟨d, small, ds, text, _⟩ := printNat_head (b := 16) (by decide) n
  have value : digitVal (digitByte d) = d := digitVal_digitByte (by omega)
  have wide : ((n : Int) % 2 ^ 64).toNat = n := by omega
  have scanned := scanNat_printNat (b := 16) (by decide) (by decide) n (stopsDigits_nil 16)
  rw [List.append_nil, text] at scanned
  have shape : printHex n = 48 :: 120 :: digitByte d :: ds := by
    rw [printHex, wide, text]
    rfl
  have base : strtolBase 0 (printHex n) = (16, digitByte d :: ds) := by
    simp [shape, strtolBase, value, small]
  have read : strtol 0 (printHex n) = ((n : Int), []) := by
    have zero : isDigit 48 = true := rfl
    rw [shape] at base ⊢
    rw [strtol_of_digit zero, base, if_pos ⟨_, rfl, value.symm ▸ small⟩, scanned,
      clampLong_of_small fits]
  rw [flagOfText, read, if_pos rfl]

theorem flagOfText_printNat {n : Nat} (fits : n < 2 ^ 63) :
    flagOfText (printNat 10 n) = toInt32 n := by
  rcases Nat.eq_zero_or_pos n with rfl | positive
  · decide
  obtain ⟨d, small, ds, text, nonzero⟩ := printNat_head (b := 10) (by decide) n
  have value : digitVal (digitByte d) = d := digitVal_digitByte (by omega)
  have scanned := scanNat_printNat (b := 10) (by decide) (by decide) n (stopsDigits_nil 10)
  rw [List.append_nil, text] at scanned
  have front : digitByte d ≠ 48 := by
    intro zero
    have impossible := congrArg digitVal zero
    rw [value] at impossible
    exact nonzero positive impossible
  have base : strtolBase 0 (digitByte d :: ds) = (10, digitByte d :: ds) := by
    simp [strtolBase, front]
  have read : strtol 0 (printNat 10 n) = ((n : Int), []) := by
    rw [text, strtol_of_digit (isDigit_digitByte small), base,
      if_pos ⟨_, rfl, value.symm ▸ small⟩, scanned, clampLong_of_small fits]
  rw [flagOfText, read, if_pos rfl]

end LPRng
