import LPRng.SecureHeader
import LPRng.Split

/-!
# Escaped lines

Lines of the form `key=value` go from one process to another, or into a field of another list, joined
and escaped: `Join_line_list` puts a line end behind each, and `Escape` leaves letters and digits,
question marks for the blanks, and percent signs with two digits. It can be asked for more than one
level, which as many calls of `Unescape` take back.
-/

namespace LPRng

open SecureHeader

/-! ## Levels of escapes -/

/-- A percent sign, which is escaped again so many times, and the digits of a character. -/
def percentChar (again : Nat) (c : UInt8) : Bytes :=
  37 :: ((List.replicate again (lit "25")).flatten ++ [digitByte (c.toNat / 16), digitByte (c.toNat % 16)])

/-- What `Escape` makes of a character. Each level above the first escapes the percent sign once more. -/
def escapeChar (level : Nat) (c : UInt8) : Bytes :=
  if c = 32 then [63] else if isAlnum c then [c] else percentChar (level - 1) c

def escape (str : Bytes) (level : Nat) : Option Bytes :=
  if str = [] then none else some (str.flatMap (escapeChar level))

/-- What is left of an escaped character, with so many levels to go, when one or more were taken back. -/
def unescapedChar : Nat → UInt8 → Bytes
  | 0, c => [c]
  | level + 1, c => if c = 32 then [32] else escapeChar (level + 1) c

/-- A character is read back from its two digits. -/
theorem strtol_digits (c : UInt8) :
    UInt8.ofNat ((strtol 16 [digitByte (c.toNat / 16), digitByte (c.toNat % 16)]).1 % 256).toNat = c := by
  have table : ∀ c : UInt8, decide (UInt8.ofNat
      ((strtol 16 [digitByte (c.toNat / 16), digitByte (c.toNat % 16)]).1 % 256).toNat = c) = true :=
    forall_byte (by decide +kernel)
  exact of_decide_eq_true (table c)

theorem unescapeChars_cons {c : UInt8} (other : c ≠ 37) (s : Bytes) :
    unescapeChars (c :: s) = (if c = 63 then 32 else c) :: unescapeChars s := by
  rw [unescapeChars]
  exact fun a b rest same _ => other same

/-- A character that escapes leave alone. -/
def Unescaped (c : UInt8) : Prop := c ≠ 37 ∧ c ≠ 63

theorem unescapeChars_append {s : Bytes} (free : ∀ c ∈ s, Unescaped c) (rest : Bytes) :
    unescapeChars (s ++ rest) = s ++ unescapeChars rest := by
  induction s with
  | nil => rfl
  | cons c s ih =>
      have first := free c List.mem_cons_self
      rw [List.cons_append, unescapeChars_cons first.1, if_neg first.2,
        ih fun d member => free d (List.mem_cons_of_mem c member)]
      rfl

/-- A character of a word is visible and none of the signs of a line or an escape. -/
theorem isWordChar_visible {c : UInt8} (word : isWordChar c = true) :
    c ≠ 0 ∧ c ≠ 37 ∧ c ≠ 61 ∧ c ≠ 63 ∧ isCntrl c = false := by
  have table : ∀ c, (!isWordChar c || (c != 0 && c != 37 && c != 61 && c != 63 && !isCntrl c)) = true :=
    forall_byte (by decide +kernel)
  have row := table c
  rw [word] at row
  simpa [and_assoc] using row

theorem fmtString_of_word {key : Bytes} (word : ∀ d ∈ key, isWordChar d = true) : fmtString key = key :=
  fmtString_of_visible fun d member => (isWordChar_visible (word d member)).2.2.2.2

theorem isWordChar_of_isAlnum {c : UInt8} (alnum : isAlnum c = true) : isWordChar c = true := by
  rw [isWordChar, alnum, Bool.true_or]

theorem unescaped_of_isAlnum {c : UInt8} (alnum : isAlnum c = true) : Unescaped c :=
  have visible := isWordChar_visible (isWordChar_of_isAlnum alnum)
  ⟨visible.2.1, visible.2.2.2.1⟩

theorem isAlnum_digits (c : UInt8) :
    isAlnum (digitByte (c.toNat / 16)) = true ∧ isAlnum (digitByte (c.toNat % 16)) = true := by
  have table : ∀ c : UInt8, (isAlnum (digitByte (c.toNat / 16)) && isAlnum (digitByte (c.toNat % 16))) = true :=
    forall_byte (by decide +kernel)
  exact Bool.and_eq_true_iff.mp (table c)

/-- Letters and digits stand behind a percent sign at any level. -/
theorem isAlnum_of_mem_digits {level : Nat} {c d : UInt8}
    (member : d ∈ (List.replicate level (lit "25")).flatten ++ [digitByte (c.toNat / 16), digitByte (c.toNat % 16)]) :
    isAlnum d = true := by
  rcases List.mem_append.mp member with percent | digit
  · rcases List.mem_flatten.mp percent with ⟨text, inside, here⟩
    rw [List.eq_of_mem_replicate inside] at here
    have table : (lit "25").all isAlnum = true := rfl
    exact List.all_eq_true.mp table d here
  · rcases List.mem_cons.mp digit with rfl | last
    · exact (isAlnum_digits c).1
    · rw [List.mem_singleton.mp last]
      exact (isAlnum_digits c).2

theorem unescapeChars_percentChar_zero (c : UInt8) (rest : Bytes) :
    unescapeChars (percentChar 0 c ++ rest) = c :: unescapeChars rest := by
  have start : unescapeChars (percentChar 0 c ++ rest) =
      UInt8.ofNat ((strtol 16 [digitByte (c.toNat / 16), digitByte (c.toNat % 16)]).1 % 256).toNat ::
        unescapeChars rest := rfl
  rw [start, strtol_digits]

theorem unescapeChars_percentChar_succ (again : Nat) (c : UInt8) (rest : Bytes) :
    unescapeChars (percentChar (again + 1) c ++ rest) = percentChar again c ++ unescapeChars rest := by
  have start : unescapeChars (percentChar (again + 1) c ++ rest) =
      37 :: unescapeChars (((List.replicate again (lit "25")).flatten ++
        [digitByte (c.toNat / 16), digitByte (c.toNat % 16)]) ++ rest) := rfl
  rw [start, unescapeChars_append (fun d member => unescaped_of_isAlnum (isAlnum_of_mem_digits member))]
  rfl

theorem unescapeChars_other (level : Nat) {c : UInt8} (other : c ≠ 32) (rest : Bytes) :
    unescapeChars (escapeChar (level + 1) c ++ rest) = unescapedChar level c ++ unescapeChars rest := by
  cases alnum : isAlnum c with
  | true =>
      have same : ∀ level, escapeChar level c = [c] := fun level => by
        rw [escapeChar, if_neg other, if_pos alnum]
      have left : unescapedChar level c = [c] := by
        cases level with
        | zero => rfl
        | succ level => rw [unescapedChar, if_neg other, same]
      rw [same, left, unescapeChars_append fun d member => ?_]
      rw [List.mem_singleton.mp member]
      exact unescaped_of_isAlnum alnum
  | false =>
      have percent : ∀ level, escapeChar level c = percentChar (level - 1) c := fun level => by
        rw [escapeChar, if_neg other, alnum, if_neg Bool.false_ne_true]
      rw [percent]
      cases level with
      | zero => exact unescapeChars_percentChar_zero c rest
      | succ level =>
          rw [unescapedChar, if_neg other, percent]
          exact unescapeChars_percentChar_succ level c rest

/-- `Unescape` takes one level back. -/
theorem unescapeChars_escapeChar (level : Nat) (c : UInt8) (rest : Bytes) :
    unescapeChars (escapeChar (level + 1) c ++ rest) = unescapedChar level c ++ unescapeChars rest := by
  by_cases blank : c = 32
  · rw [escapeChar, if_pos blank, List.singleton_append, unescapeChars_cons (by decide), blank]
    cases level with
    | zero => rfl
    | succ level => rfl
  · exact unescapeChars_other level blank rest

theorem unescapeChars_unescapedChar (level : Nat) (c : UInt8) (rest : Bytes) :
    unescapeChars (unescapedChar (level + 1) c ++ rest) = unescapedChar level c ++ unescapeChars rest := by
  by_cases blank : c = 32
  · rw [unescapedChar, if_pos blank, List.singleton_append, unescapeChars_cons (by decide), blank]
    cases level with
    | zero => rfl
    | succ level => rfl
  · rw [unescapedChar, if_neg blank]
    exact unescapeChars_other level blank rest

theorem unescapeChars_flatMap {α : Type} {before after : α → Bytes} {l : List α}
    (one : ∀ a ∈ l, ∀ rest, unescapeChars (before a ++ rest) = after a ++ unescapeChars rest) (rest : Bytes) :
    unescapeChars (l.flatMap before ++ rest) = l.flatMap after ++ unescapeChars rest := by
  induction l with
  | nil => rfl
  | cons a l ih =>
      rw [List.flatMap_cons, List.flatMap_cons, List.append_assoc, one a List.mem_cons_self,
        ih fun b member => one b (List.mem_cons_of_mem a member), List.append_assoc]

theorem escape_ne_nil {level : Nat} {s text : Bytes} (escaped : escape s level = some text) : text ≠ [] := by
  unfold escape at escaped
  split at escaped
  · cases escaped
  · next nonempty =>
      cases escaped
      intro nothing
      rcases List.exists_cons_of_ne_nil nonempty with ⟨c, rest, rfl⟩
      have first := List.flatMap_eq_nil_iff.mp nothing c List.mem_cons_self
      unfold escapeChar percentChar at first
      split at first
      · cases first
      · split at first <;> cases first

/-- What is escaped at one level is read back. -/
theorem unescape_escape {s text : Bytes} (clean : 0 ∉ s) (escaped : escape s 1 = some text) :
    unescape text = s := by
  unfold escape at escaped
  split at escaped
  · cases escaped
  · cases escaped
    have read := unescapeChars_flatMap (fun c (_ : c ∈ s) => unescapeChars_escapeChar 0 c) []
    rw [List.append_nil, unescapeChars, List.append_nil] at read
    have whole : s.flatMap (unescapedChar 0) = s := List.flatMap_singleton' s
    rw [unescape, read, whole, cstr_of_noNul clean]

/-- Question marks, percent signs, letters and digits are all that is left by an escape. -/
theorem mem_escapeChar {level : Nat} {c d : UInt8} (member : d ∈ escapeChar level c) :
    d = 63 ∨ d = 37 ∨ isAlnum d = true := by
  unfold escapeChar at member
  split at member
  · exact .inl (List.mem_singleton.mp member)
  · split at member
    · next alnum =>
        rw [List.mem_singleton.mp member]
        exact .inr (.inr alnum)
    · rcases List.mem_cons.mp member with percent | digit
      · exact .inr (.inl percent)
      · exact .inr (.inr (isAlnum_of_mem_digits digit))

/-- What is escaped is no text in itself: no NUL, no line end and no white space. -/
theorem escapeChar_spec {level : Nat} {c d : UInt8} (member : d ∈ escapeChar level c) :
    d ≠ 0 ∧ d ∉ lineEnds ∧ isSpace d = false := by
  rcases mem_escapeChar member with rfl | rfl | alnum
  · decide
  · decide
  · have word := isWordChar_of_isAlnum alnum
    exact ⟨(isWordChar_visible word).1, (isWordChar_spec word).2.2.2.1, (isWordChar_spec word).1⟩

/-- The same holds of what is left, but for blanks. -/
theorem unescapedChar_spec {level : Nat} {c d : UInt8} (member : d ∈ unescapedChar (level + 1) c) :
    d ≠ 0 ∧ d ∉ lineEnds := by
  rw [unescapedChar] at member
  split at member
  · rw [List.mem_singleton.mp member]
    decide
  · exact ⟨(escapeChar_spec member).1, (escapeChar_spec member).2.1⟩

/-! ## Lists of pairs -/

/-- `Join_line_list`. -/
def LineList.joinLineList (l : LineList) (sep : Bytes) : Option Bytes :=
  let str := (l.filter (· ≠ [])).flatMap (· ++ sep)
  if str = [] then none else some str

section

variable {lines : LineList} {c : UInt8}

theorem joined_ne_nil (nonempty : lines ≠ []) : lines.flatMap (· ++ [c]) ≠ [] := by
  intro nothing
  rcases List.exists_mem_of_ne_nil lines nonempty with ⟨line, member⟩
  exact absurd (List.flatMap_eq_nil_iff.mp nothing line member)
    (List.append_ne_nil_of_right_ne_nil _ (List.cons_ne_nil _ _))

theorem noNul_joined (strings : ∀ line ∈ lines, 0 ∉ line) : 0 ∉ lines.flatMap (· ++ [10]) := by
  intro nul
  rcases List.mem_flatMap.mp nul with ⟨line, member, here⟩
  rcases List.mem_append.mp here with inLine | newline
  · exact strings line member inLine
  · exact absurd newline (by decide)

theorem joinLineList_of_shown (shown : ∀ line ∈ lines, line ≠ []) (nonempty : lines ≠ []) :
    lines.joinLineList [c] = some (lines.flatMap (· ++ [c])) := by
  have whole : lines.filter (· ≠ []) = lines :=
    List.filter_eq_self.mpr fun line member => decide_eq_true (shown line member)
  unfold LineList.joinLineList
  rw [whole]
  exact if_neg (joined_ne_nil nonempty)

theorem getD_joinLineList (shown : ∀ line ∈ lines, line ≠ []) :
    (lines.joinLineList [c]).getD [] = lines.flatMap (· ++ [c]) := by
  rcases eq_or_ne lines [] with rfl | nonempty
  · rfl
  · rw [joinLineList_of_shown shown nonempty, Option.getD_some]

end

/-- A value without line ends, and without white space at its ends. -/
structure CleanValue (value : Bytes) : Prop where
  inside : ∀ d ∈ value, d ≠ 0 ∧ d ∉ lineEnds
  first : ∀ d ∈ value.head?, isSpace d = false
  last : ∀ d ∈ value.getLast?, isSpace d = false

instance : DecidablePred CleanValue := fun value =>
  decidable_of_iff ((∀ d ∈ value, d ≠ 0 ∧ d ∉ lineEnds) ∧ (∀ d ∈ value.head?, isSpace d = false) ∧
      ∀ d ∈ value.getLast?, isSpace d = false)
    ⟨fun ⟨inside, first, last⟩ => ⟨inside, first, last⟩, fun ⟨inside, first, last⟩ => ⟨inside, first, last⟩⟩

theorem cleanValue_of_forall {value : Bytes} (clean : ∀ d ∈ value, d ≠ 0 ∧ d ∉ lineEnds ∧ isSpace d = false) :
    CleanValue value :=
  ⟨fun d member => ⟨(clean d member).1, (clean d member).2.1⟩,
    fun d member => (clean d (List.mem_of_mem_head? member)).2.2,
    fun d member => (clean d (List.mem_of_mem_getLast? member)).2.2⟩

theorem cleanValue_escape {level : Nat} {str text : Bytes} (escaped : escape str level = some text) :
    CleanValue text := by
  unfold escape at escaped
  split at escaped
  · cases escaped
  · cases escaped
    refine cleanValue_of_forall fun d member => ?_
    rcases List.mem_flatMap.mp member with ⟨c, -, here⟩
    exact escapeChar_spec here

/-- A line with a word as key and a clean value. -/
structure IsPair (line : Bytes) : Prop where
  parts : ∃ key value, line = key ++ 61 :: value ∧ (∀ d ∈ key, isWordChar d = true) ∧ CleanValue value

namespace IsPair

variable {line : Bytes}

theorem wordLine (pair : IsPair line) : WordLine line := by
  rcases pair with ⟨key, value, rfl, word, -⟩
  exact ⟨key, value, rfl, word⟩

theorem clean (pair : IsPair line) : ∀ d ∈ line, d ≠ 0 ∧ d ∉ lineEnds := by
  rcases pair with ⟨key, value, rfl, word, clean⟩
  intro d member
  rcases List.mem_append.mp member with inKey | rest
  · exact ⟨(isWordChar_visible (word d inKey)).1, (isWordChar_spec (word d inKey)).2.2.2.1⟩
  · rcases List.mem_cons.mp rest with rfl | inValue
    · decide
    · exact clean.inside d inValue

theorem trim (pair : IsPair line) : trimSpace line = line := by
  rcases pair with ⟨key, value, rfl, word, clean⟩
  exact WordLine.trimSpace_of_last word clean.last

end IsPair

/-- Lines in the order of their keys. -/
structure PairList where
  lines : LineList
  keyed : lines.Keyed
  pairs : ∀ line ∈ lines, IsPair line

namespace PairList

variable (list : PairList)

theorem joinLineList_eq (nonempty : list.lines ≠ []) :
    list.lines.joinLineList [10] = some (list.lines.flatMap (· ++ [10])) :=
  joinLineList_of_shown (fun line member => (list.pairs line member).wordLine.ne_nil) nonempty

theorem joined_clean : 0 ∉ list.lines.flatMap (· ++ [10]) :=
  noNul_joined fun line member nul => ((list.pairs line member).clean 0 nul).1 rfl

/-- A text whose pieces are the lines is split into them. -/
theorem split_of_pieces {keysep str : Bytes} (separator : IsSeparator keysep)
    (parts : pieces lineEnds str = list.lines) : split [] str lineEnds true keysep true true true = list.lines := by
  rw [split_eq separator parts (fun line member => (list.pairs line member).wordLine) list.keyed.sorted]
  exact (List.map_congr_left fun line member => (list.pairs line member).trim).trans (List.map_id list.lines)

theorem pieces_lines (rest : Bytes) :
    pieces lineEnds (list.lines.flatMap (· ++ [10]) ++ rest) = list.lines ++ pieces lineEnds rest :=
  pieces_flatMap (fun line member d inside => ((list.pairs line member).clean d inside).2)
    (by decide : (10 : UInt8) ∈ lineEnds) rest

/-- The lines are split as they were joined. -/
theorem split_lines {keysep : Bytes} (separator : IsSeparator keysep) :
    split [] (list.lines.flatMap (· ++ [10])) lineEnds true keysep true true true = list.lines := by
  refine list.split_of_pieces separator ?_
  have parts := list.pieces_lines []
  rwa [List.append_nil, pieces, List.append_nil] at parts

end PairList

end LPRng
