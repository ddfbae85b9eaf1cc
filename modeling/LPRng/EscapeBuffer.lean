import LPRng.EscapedLines

/-!
# The buffer of an escape

`Escape` allocates its buffer before it escapes the text, for as many characters as it takes at the
given level. Whatever it writes, down to the NUL behind the text, has to fall into this buffer. A level
of 0 or less is to be the same as 1, but the length of the buffer has been computed by then.
-/

namespace LPRng

open SecureHeader

namespace EscapeBuffer

/-! ## The buffer -/

/-- An `int`, if the operation does not overflow. -/
def checkedInt (n : Int) : Option Int := if toInt32 n = n then some n else none

def isEscaped (c : UInt8) : Bool := c ≠ 32 && !isAlnum c

/-- The `len` that is allocated, without the byte for the NUL. -/
def allocatedLength (str : Bytes) (incr : Int) : Option Int :=
  (checkedInt str.length).bind fun len =>
    str.foldlM (fun len c => if isEscaped c then checkedInt (len + incr) else some len) len

/-- `s[i++] = c`, in a buffer that ends at `len`. -/
def putChar (len : Int) (s : Bytes) (c : UInt8) : Option Bytes :=
  if (s.length : Int) ≤ len then some (s ++ [c]) else none

/-- A text that is put behind `s`, with its NUL. -/
def putText (len : Int) (s text : Bytes) : Option Bytes :=
  if (s.length + text.length : Int) ≤ len then some text else none

/-- The percent sign of a text is encoded again, and what stands behind it is moved. -/
def encodeAgain (len : Int) (s : Bytes) : Nat → Bytes → Option Bytes
  | 0, text => some text
  | k + 1, text => (putText len s (37 :: lit "25" ++ text.tail)).bind (encodeAgain len s k)

/-- What the loop of `Escape` does with one character. -/
def escapeOne (len : Int) (level : Nat) (s : Bytes) (c : UInt8) : Option Bytes :=
  if c = 32 then putChar len s 63
  else if !isAlnum c then
    ((putText len s [37, digitByte (c.toNat / 16), digitByte (c.toNat % 16)]).bind
      (encodeAgain len s (level - 1))).map (s ++ ·)
  else putChar len s c

def escapeChars (len : Int) (level : Nat) : Bytes → Bytes → Option Bytes
  | [], s => if (s.length : Int) ≤ len then some s else none
  | c :: str, s => (escapeOne len level s c).bind (escapeChars len level str)

/-- `Escape`. There is no outcome if an `int` overflows, or if something is written that is not in the
buffer. -/
def escape (str : Bytes) (level : Int) : Option (Option Bytes) := do
  let incr ← checkedInt (3 * level)
  if str = [] then some none
  else
    let level := if level ≤ 0 then 1 else level
    let len ← allocatedLength str incr
    let _ ← checkedInt (len + 1)
    let s ← escapeChars len level.toNat str []
    some (some s)

/-! ## What is allocated -/

variable {str s text : Bytes} {len incr level : Int} {c : UInt8}

theorem checkedInt_some {n m : Int} : checkedInt n = some m ↔ m = n ∧ -2 ^ 31 ≤ n ∧ n < 2 ^ 31 := by
  have range : toInt32 n = n ↔ -2 ^ 31 ≤ n ∧ n < 2 ^ 31 := by
    unfold toInt32
    constructor
    · intro same
      have low := Int.le_bmod (x := n) (m := 2 ^ 32) (by decide)
      have high := Int.bmod_lt (x := n) (m := 2 ^ 32) (by decide)
      rw [same] at low high
      exact ⟨by simpa using low, by simpa using high⟩
    · intro ⟨low, high⟩
      exact Int.bmod_eq_of_le (by omega) (by omega)
  unfold checkedInt
  split
  · next fits =>
      constructor
      · intro same
        exact ⟨(Option.some.inj same).symm, range.mp fits⟩
      · intro ⟨same, _⟩
        exact congrArg some same.symm
  · next exceeds =>
      constructor
      · intro same
        cases same
      · intro ⟨_, fits⟩
        exact absurd (range.mpr fits) exceeds

/-- Whatever is allocated is the length with an increment for each character that is escaped. -/
theorem foldlM_len {after : Int}
    (allocated : str.foldlM (fun len c => if isEscaped c then checkedInt (len + incr) else some len) len = some after) :
    after = len + incr * str.countP isEscaped := by
  induction str generalizing len with
  | nil =>
      rw [← Option.some.inj allocated]
      simp
  | cons c str ih =>
      rw [List.foldlM_cons] at allocated
      rcases Option.bind_eq_some_iff.mp allocated with ⟨next, first, rest⟩
      rw [ih rest, List.countP_cons]
      cases escaped : isEscaped c with
      | true =>
          rw [escaped, if_pos rfl] at first
          rw [(checkedInt_some.mp first).1, if_pos rfl]
          push_cast
          ring
      | false =>
          rw [escaped, if_neg Bool.false_ne_true] at first
          rw [← Option.some.inj first, if_neg Bool.false_ne_true, Nat.add_zero]

/-- An increment that is not negative is added as often as the sum is an `int`. -/
theorem foldlM_some (low : 0 ≤ len) (grows : 0 ≤ incr)
    (fits : len + incr * str.countP isEscaped < 2 ^ 31) :
    str.foldlM (fun len c => if isEscaped c then checkedInt (len + incr) else some len) len =
      some (len + incr * str.countP isEscaped) := by
  induction str generalizing len with
  | nil => simp
  | cons c str ih =>
      rw [List.countP_cons] at fits ⊢
      rw [List.foldlM_cons]
      cases escaped : isEscaped c with
      | true =>
          rw [escaped, if_pos rfl] at fits
          push_cast at fits
          have rest : 0 ≤ incr * (str.countP isEscaped : Int) := mul_nonneg grows (Int.natCast_nonneg _)
          have next : checkedInt (len + incr) = some (len + incr) :=
            checkedInt_some.mpr ⟨rfl, by omega, by linarith⟩
          rw [if_pos rfl, next, Option.bind_eq_bind, Option.bind_some, ih (by omega) (by linarith), if_pos rfl]
          push_cast
          congr 1
          ring
      | false =>
          rw [escaped, if_neg Bool.false_ne_true, Nat.add_zero] at fits
          rw [if_neg Bool.false_ne_true, if_neg Bool.false_ne_true, Nat.add_zero]
          exact ih low fits

theorem foldlM_plain (plain : str.countP isEscaped = 0) :
    str.foldlM (fun len c => if isEscaped c then checkedInt (len + incr) else some len) len = some len := by
  induction str with
  | nil => rfl
  | cons c str ih =>
      have none := List.countP_eq_zero.mp plain
      have rest := List.countP_eq_zero.mpr fun d member => none d (List.mem_cons_of_mem c member)
      rw [List.foldlM_cons, if_neg (none c List.mem_cons_self)]
      exact ih rest

/-! ## What is written -/

theorem length_percentChar (again : Nat) (c : UInt8) : (percentChar again c).length = 2 * again + 3 := by
  simp [percentChar, lit]
  omega

/-- Each escaped character takes two bytes more for each level. -/
theorem length_flatMap_escapeChar (level : Nat) (str : Bytes) :
    (str.flatMap (escapeChar (level + 1))).length = str.length + 2 * (level + 1) * str.countP isEscaped := by
  induction str with
  | nil => rfl
  | cons c str ih =>
      rw [List.flatMap_cons, List.length_append, ih, List.countP_cons, List.length_cons]
      unfold escapeChar isEscaped
      by_cases blank : c = 32
      · simp [blank]
        omega
      · cases alnum : isAlnum c with
        | true =>
            simp [blank]
            omega
        | false =>
            simp [blank, length_percentChar]
            ring

theorem putChar_some : putChar len s c = some text ↔ text = s ++ [c] ∧ (s.length : Int) ≤ len := by
  unfold putChar
  split
  · next fits => exact ⟨fun same => ⟨(Option.some.inj same).symm, fits⟩, fun ⟨same, _⟩ => same ▸ rfl⟩
  · next exceeds => exact ⟨fun same => (nomatch same), fun ⟨_, fits⟩ => absurd fits exceeds⟩

theorem putText_some {after : Bytes} :
    putText len s text = some after ↔ after = text ∧ (s.length + text.length : Int) ≤ len := by
  unfold putText
  split
  · next fits => exact ⟨fun same => ⟨(Option.some.inj same).symm, fits⟩, fun ⟨same, _⟩ => same ▸ rfl⟩
  · next exceeds => exact ⟨fun same => (nomatch same), fun ⟨_, fits⟩ => absurd fits exceeds⟩

theorem encodeAgain_percentChar (k again : Nat) (fits : (s.length + (percentChar again c).length : Int) ≤ len)
    {after : Bytes} :
    encodeAgain len s k (percentChar again c) = some after ↔
      after = percentChar (again + k) c ∧ (s.length + after.length : Int) ≤ len := by
  induction k generalizing again with
  | zero =>
      constructor
      · intro same
        rw [← Option.some.inj same]
        exact ⟨rfl, fits⟩
      · intro ⟨same, _⟩
        exact congrArg some same.symm
  | succ k ih =>
      have moved : 37 :: lit "25" ++ (percentChar again c).tail = percentChar (again + 1) c := rfl
      have shifted : again + (k + 1) = again + 1 + k := by omega
      rw [encodeAgain, moved, shifted]
      constructor
      · intro same
        rcases Option.bind_eq_some_iff.mp same with ⟨text, put, rest⟩
        rcases putText_some.mp put with ⟨rfl, next⟩
        exact (ih (again + 1) next).mp rest
      · intro ⟨same, inside⟩
        have next : (s.length + (percentChar (again + 1) c).length : Int) ≤ len := by
          have longer := length_percentChar (again + 1 + k) c
          rw [same, longer] at inside
          rw [length_percentChar]
          push_cast at inside ⊢
          linarith
        rw [putText_some.mpr ⟨rfl, next⟩, Option.bind_some]
        exact (ih (again + 1) next).mpr ⟨same, inside⟩

/-- What is written for a character, if it fits. -/
theorem escapeOne_some (level : Nat) {after : Bytes} :
    escapeOne len (level + 1) s c = some after ↔
      after = s ++ escapeChar (level + 1) c ∧
        (if isEscaped c then (after.length : Int) ≤ len else (s.length : Int) ≤ len) := by
  unfold escapeOne escapeChar isEscaped
  by_cases blank : c = 32
  · rw [if_pos blank, if_pos blank, putChar_some, blank]
    simp
  · cases alnum : isAlnum c with
    | true => simp [blank, putChar_some]
    | false =>
        have first : [37, digitByte (c.toNat / 16), digitByte (c.toNat % 16)] = percentChar 0 c := rfl
        simp only [Bool.not_false, if_true, first, decide_not, blank, decide_false, Bool.and_self,
          Bool.false_eq_true, if_false, Nat.add_sub_cancel]
        constructor
        · intro written
          rcases Option.map_eq_some_iff.mp written with ⟨text, encoded, rfl⟩
          rcases Option.bind_eq_some_iff.mp encoded with ⟨start, put, rest⟩
          rcases putText_some.mp put with ⟨rfl, fits⟩
          rcases (encodeAgain_percentChar level 0 fits).mp rest with ⟨same, inside⟩
          rw [Nat.zero_add] at same
          rw [same] at inside ⊢
          refine ⟨rfl, ?_⟩
          rw [List.length_append]
          exact_mod_cast inside
        · intro ⟨same, inside⟩
          rw [same, List.length_append] at inside
          push_cast at inside
          have fits : (s.length + (percentChar 0 c).length : Int) ≤ len := by
            rw [length_percentChar] at inside ⊢
            push_cast at inside ⊢
            omega
          have encoded := (encodeAgain_percentChar level 0 fits).mpr ⟨rfl, by rwa [Nat.zero_add]⟩
          rw [putText_some.mpr ⟨rfl, fits⟩, Option.bind_some, encoded, Option.map_some, Nat.zero_add, same]

/-- The loop ends with the whole escape, exactly if this fits into the buffer. -/
theorem escapeChars_some (level : Nat) :
    escapeChars len (level + 1) str s = some text ↔
      text = s ++ str.flatMap (escapeChar (level + 1)) ∧ (text.length : Int) ≤ len := by
  induction str generalizing s with
  | nil =>
      rw [escapeChars, List.flatMap_nil, List.append_nil]
      split
      · next fits =>
          constructor
          · intro same
            rw [← Option.some.inj same]
            exact ⟨rfl, fits⟩
          · intro ⟨same, _⟩
            exact congrArg some same.symm
      · next exceeds =>
          constructor
          · intro same
            cases same
          · intro ⟨same, fits⟩
            exact absurd (same ▸ fits) exceeds
  | cons c str ih =>
      rw [escapeChars, List.flatMap_cons, ← List.append_assoc]
      constructor
      · intro written
        rcases Option.bind_eq_some_iff.mp written with ⟨next, first, rest⟩
        rw [(escapeOne_some level).mp first |>.1] at rest
        exact ih.mp rest
      · intro ⟨same, fits⟩
        have longer : (s ++ escapeChar (level + 1) c).length ≤ text.length := by
          rw [same]
          exact (List.prefix_append _ _).length_le
        have start : s.length ≤ (s ++ escapeChar (level + 1) c).length := (List.prefix_append _ _).length_le
        have first : escapeOne len (level + 1) s c = some (s ++ escapeChar (level + 1) c) := by
          refine (escapeOne_some level).mpr ⟨rfl, ?_⟩
          split
          · omega
          · omega
        rw [first, Option.bind_some]
        exact ih.mpr ⟨same, fits⟩

/-! ## What is read back -/

theorem noNul_flatMap_unescapedChar (level : Nat) (clean : 0 ∉ str) : 0 ∉ str.flatMap (unescapedChar level) := by
  cases level with
  | zero =>
      have whole : str.flatMap (unescapedChar 0) = str := List.flatMap_singleton' str
      rwa [whole]
  | succ level =>
      intro nul
      rcases List.mem_flatMap.mp nul with ⟨c, -, here⟩
      exact (unescapedChar_spec here).1 rfl

theorem unescape_escapeChar (level : Nat) (clean : 0 ∉ str) :
    unescape (str.flatMap (escapeChar (level + 1))) = str.flatMap (unescapedChar level) := by
  have read := unescapeChars_flatMap (fun c (_ : c ∈ str) => unescapeChars_escapeChar level c) []
  rw [List.append_nil, unescapeChars, List.append_nil] at read
  rw [unescape, read, cstr_of_noNul (noNul_flatMap_unescapedChar level clean)]

theorem unescape_unescapedChar (level : Nat) (clean : 0 ∉ str) :
    unescape (str.flatMap (unescapedChar (level + 1))) = str.flatMap (unescapedChar level) := by
  have read := unescapeChars_flatMap (fun c (_ : c ∈ str) => unescapeChars_unescapedChar level c) []
  rw [List.append_nil, unescapeChars, List.append_nil] at read
  rw [unescape, read, cstr_of_noNul (noNul_flatMap_unescapedChar level clean)]

/-- Each level of an escape is taken back by one call. -/
theorem iterate_unescape (level : Nat) (clean : 0 ∉ str) :
    unescape^[level + 1] (str.flatMap (escapeChar (level + 1))) = str := by
  have left : ∀ level, unescape^[level] (str.flatMap (unescapedChar level)) = str := by
    intro level
    induction level with
    | zero => exact List.flatMap_singleton' str
    | succ level ih => rw [Function.iterate_succ_apply, unescape_unescapedChar level clean, ih]
  rw [Function.iterate_succ_apply, unescape_escapeChar level clean, left]

/-! ## The escape -/

/-- The steps of an escape that comes to its end. -/
theorem escape_some (nonempty : str ≠ []) :
    escape str level = some (some text) ↔
      -2 ^ 31 ≤ 3 * level ∧ 3 * level < 2 ^ 31 ∧ ∃ len, allocatedLength str (3 * level) = some len ∧
        checkedInt (len + 1) = some (len + 1) ∧
        escapeChars len (if level ≤ 0 then 1 else level).toNat str [] = some text := by
  constructor
  · intro escaped
    simp only [escape, if_neg nonempty, Option.bind_eq_bind, Option.bind_eq_some_iff, Option.some.injEq] at escaped
    rcases escaped with ⟨incr, triple, len, allocated, size, last, written, loop, rfl⟩
    rcases checkedInt_some.mp triple with ⟨rfl, low, high⟩
    rw [(checkedInt_some.mp last).1] at last
    exact ⟨low, high, len, allocated, last, loop⟩
  · intro ⟨low, high, len, allocated, last, loop⟩
    have triple : checkedInt (3 * level) = some (3 * level) := checkedInt_some.mpr ⟨rfl, low, high⟩
    simp only [escape, if_neg nonempty, Option.bind_eq_bind, Option.bind_eq_some_iff, Option.some.injEq]
    exact ⟨3 * level, triple, len, allocated, len + 1, last, text, loop, rfl⟩

theorem increments_nonneg (least : str.countP isEscaped = 0 ∨ 1 ≤ level) :
    0 ≤ 3 * level * (str.countP isEscaped : Int) := by
  rcases least with plain | positive
  · simp [plain]
  · exact mul_nonneg (by omega) (Int.natCast_nonneg _)

/-- The length that is allocated when the level is at least 1 or nothing is escaped. -/
theorem allocatedLength_eq (least : str.countP isEscaped = 0 ∨ 1 ≤ level)
    (fits : str.length + 3 * level * str.countP isEscaped + 1 < 2 ^ 31) :
    allocatedLength str (3 * level) = some (str.length + 3 * level * str.countP isEscaped) := by
  have grown := increments_nonneg least
  have length : checkedInt str.length = some (str.length : Int) := checkedInt_some.mpr ⟨rfl, by omega, by omega⟩
  rw [allocatedLength, length, Option.bind_some]
  rcases least with plain | positive
  · rw [foldlM_plain plain, plain]
    simp
  · exact foldlM_some (Int.natCast_nonneg _) (by omega) (by omega)

/-- A text is escaped within its buffer and read back, exactly if the level is at least 1 or no
character of the text is escaped, and the length of the buffer is an `int`. -/
theorem escape_read_iff (level : Int) (nonempty : str ≠ []) (clean : 0 ∉ str) :
    (∃ text, escape str level = some (some text) ∧ (∀ c ∈ text, c = 63 ∨ c = 37 ∨ isAlnum c = true) ∧
        unescape^[max 1 level.toNat] text = str) ↔
      (str.countP isEscaped = 0 ∨ 1 ≤ level) ∧ -2 ^ 31 ≤ 3 * level ∧ 3 * level < 2 ^ 31 ∧
        str.length + 3 * level * str.countP isEscaped + 1 < 2 ^ 31 := by
  rcases Nat.exists_eq_add_of_le' (Nat.le_max_left 1 level.toNat) with ⟨again, calls⟩
  have used : (if level ≤ 0 then 1 else level).toNat = again + 1 := by
    rw [← calls]
    split
    · omega
    · omega
  have written : ∀ len : Int, ∀ text : Bytes,
      escapeChars len (if level ≤ 0 then 1 else level).toNat str [] = some text ↔
        text = str.flatMap (escapeChar (again + 1)) ∧ (text.length : Int) ≤ len := by
    intro len text
    rw [used]
    exact escapeChars_some again
  constructor
  · intro ⟨text, escaped, _, _⟩
    rcases (escape_some nonempty).mp escaped with ⟨low, high, len, allocated, last, loop⟩
    rcases Option.bind_eq_some_iff.mp allocated with ⟨start, length, counted⟩
    rcases checkedInt_some.mp length with ⟨rfl, -, short⟩
    have size := foldlM_len counted
    have fits := (checkedInt_some.mp last).2.2
    refine ⟨?_, low, high, by rwa [← size]⟩
    rcases (written len text).mp loop with ⟨rfl, inside⟩
    rw [length_flatMap_escapeChar, size] at inside
    by_contra least
    rcases not_or.mp least with ⟨some, small⟩
    -- With a level of 0 or less the buffer is no longer than the text.
    have count : 0 < (str.countP isEscaped : Int) := by omega
    have less : 3 * level * (str.countP isEscaped : Int) ≤ 0 := mul_nonpos_of_nonpos_of_nonneg (by omega) count.le
    have more : 0 < 2 * ((again : Int) + 1) * (str.countP isEscaped : Int) := mul_pos (by omega) count
    push_cast at inside
    linarith
  · intro ⟨least, low, high, fits⟩
    have allocated := allocatedLength_eq least fits
    refine ⟨str.flatMap (escapeChar (again + 1)), (escape_some nonempty).mpr ⟨low, high, _, allocated, ?_, ?_⟩, ?_, ?_⟩
    · have grown := increments_nonneg least
      exact checkedInt_some.mpr ⟨rfl, by omega, fits⟩
    · refine (written _ _).mpr ⟨rfl, ?_⟩
      rw [length_flatMap_escapeChar]
      push_cast
      rcases least with plain | positive
      · simp [plain]
      · have same : level = again + 1 := by omega
        rw [same]
        have count : 0 ≤ ((again : Int) + 1) * (str.countP isEscaped : Int) := mul_nonneg (by omega) (Int.natCast_nonneg _)
        linarith
    · intro c member
      rcases List.mem_flatMap.mp member with ⟨d, -, here⟩
      exact mem_escapeChar here
    · rw [calls]
      exact iterate_unescape again clean

/-- A slash is written past the end of the buffer. -/
theorem slash_not_escaped : ¬ ∃ text, escape (lit "/") 0 = some (some text) ∧
    (∀ c ∈ text, c = 63 ∨ c = 37 ∨ isAlnum c = true) ∧ unescape^[max 1 (0 : Int).toNat] text = lit "/" := by
  intro ⟨text, escaped, _, _⟩
  have none : escape (lit "/") 0 = none := by decide
  cases none.symm.trans escaped

theorem slash_escaped : ∃ text, escape (lit "/") 3 = some (some text) ∧
    (∀ c ∈ text, c = 63 ∨ c = 37 ∨ isAlnum c = true) ∧ unescape^[max 1 (3 : Int).toNat] text = lit "/" :=
  (escape_read_iff 3 (nofun : lit "/" ≠ []) (by decide)).mpr 
    ⟨.inr (by decide), by norm_num, by norm_num, by decide⟩

end EscapeBuffer

end LPRng
