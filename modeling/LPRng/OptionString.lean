import LPRng.Bytes

/-!
# Escapes in option strings

`Fix_str` puts characters in place of the escapes of an option string. The digits of an octal escape are copied to a
buffer of four bytes that is never terminated, so that the number is read on into what is behind them there: digits of
earlier escapes, or whatever was on the stack before.
-/

namespace LPRng

namespace OptionString

/-! ## The operation -/

def control (c : UInt8) : UInt8 :=
  if c = 102 then 12 else if c = 114 then 13 else if c = 110 then 10 else if c = 116 then 9 else c

/-- The digits of an escape are stored over the start of the buffer. -/
def store (memory digits : Bytes) : Bytes := digits ++ memory.drop digits.length

/-- The character of an octal escape, whose digits are in the buffer. -/
def readByte (memory : Bytes) : UInt8 := UInt8.ofInt (toInt32 (strtol 8 memory).1)

/-- The loop of `Fix_str`. The memory is the buffer with the stack behind it. A character 0 ends the text, and the
terminator is taken for the character behind a backslash at the end. -/
def unescape (memory : Bytes) : Bytes → Bytes
  | [] => []
  | c :: s =>
      if c ≠ 92 then c :: unescape memory s
      else
        let digits := (s.take 3).takeWhile isDigit
        if digits ≠ [] then
          let byte := readByte (store memory digits)
          if byte = 0 then [] else byte :: unescape (store memory digits) (s.drop digits.length)
        else
          match s with
          | [] => []
          | d :: rest => control d :: unescape memory rest
termination_by text => text.length
decreasing_by all_goals simp_wf

def fixStr (memory str : Bytes) : Option Bytes :=
  let dupstr := unescape memory str
  if dupstr = [] then none else some dupstr

/-! ## Escapes -/

def isOctal (c : UInt8) : Bool := 48 ≤ c && c ≤ 55

def octalValue (digits : Bytes) : Nat := digits.foldl (fun n c => 8 * n + (c.toNat - 48)) 0

/-- What an option string is made of. -/
inductive Item where
  | plain (c : UInt8)
  | octal (digits : Bytes)
  | letter (c : UInt8)
  | slash
deriving DecidableEq

namespace Item

/-- The character an item stands for. -/
def byte : Item → UInt8
  | plain c => c
  | octal digits => UInt8.ofNat (octalValue digits)
  | letter c => control c
  | slash => 92

end Item

/-- A backslash with one to three octal digits, or else with one character, is an escape. -/
def items : Bytes → List Item
  | [] => []
  | c :: s =>
      if c ≠ 92 then .plain c :: items s
      else
        let digits := (s.take 3).takeWhile isOctal
        if digits ≠ [] then .octal digits :: items (s.drop digits.length)
        else
          match s with
          | [] => [.slash]
          | d :: rest => .letter d :: items rest
termination_by text => text.length
decreasing_by all_goals simp_wf

/-- The text of a list of items. -/
def decode (str : Bytes) : Bytes := (items str).map Item.byte

/-- What must be so from a place in the text on: `8` and `9` are not behind a backslash or an octal escape of less
than three digits, the byte of an octal escape is not 0 and the buffer does not make another number of it, and there is
no backslash at the end. -/
def Settled (memory : Bytes) : List Item → Prop
  | [] => True
  | .plain _ :: more => Settled memory more
  | .octal digits :: more =>
      (digits.length < 3 → ∀ c, more.head? = some (.plain c) → isDigit c = false) ∧
      UInt8.ofNat (octalValue digits) ≠ 0 ∧
      readByte (store memory digits) = UInt8.ofNat (octalValue digits) ∧
      Settled (store memory digits) more
  | .letter c :: more => isDigit c = false ∧ Settled memory more
  | .slash :: _ => False

variable {memory s str digits front : Bytes} {c d : UInt8}

/-! ## Equations -/

theorem unescape_nil (memory : Bytes) : unescape memory [] = [] := by rw [unescape]

theorem unescape_plain (plain : c ≠ 92) (memory s : Bytes) : unescape memory (c :: s) = c :: unescape memory s := by
  rw [unescape.eq_def]
  exact if_pos plain

theorem unescape_digits (found : (s.take 3).takeWhile isDigit = digits) (nonempty : digits ≠ []) (memory : Bytes) :
    unescape memory (92 :: s) =
      if readByte (store memory digits) = 0 then []
      else readByte (store memory digits) :: unescape (store memory digits) (s.drop digits.length) := by
  subst found
  rw [unescape.eq_def]
  exact (if_neg (not_not.mpr rfl)).trans (if_pos nonempty)

theorem unescape_letter (letter : isDigit d = false) (memory s : Bytes) :
    unescape memory (92 :: d :: s) = control d :: unescape memory s := by
  have none : ((d :: s).take 3).takeWhile isDigit = [] := by
    rw [List.take_succ_cons, List.takeWhile_cons, letter]
    rfl
  rw [unescape.eq_def]
  exact (if_neg (not_not.mpr rfl)).trans (if_neg (not_not.mpr none))

theorem unescape_slash (memory : Bytes) : unescape memory [92] = [] := by
  rw [unescape.eq_def]
  exact (if_neg (not_not.mpr rfl)).trans (if_neg (not_not.mpr rfl))

theorem items_nil : items [] = [] := by rw [items]

theorem items_plain (plain : c ≠ 92) (s : Bytes) : items (c :: s) = .plain c :: items s := by
  rw [items.eq_def]
  exact if_pos plain

theorem items_octal (found : (s.take 3).takeWhile isOctal = digits) (nonempty : digits ≠ []) :
    items (92 :: s) = .octal digits :: items (s.drop digits.length) := by
  subst found
  rw [items.eq_def]
  exact (if_neg (not_not.mpr rfl)).trans (if_pos nonempty)

theorem items_letter (letter : isOctal d = false) (s : Bytes) : items (92 :: d :: s) = .letter d :: items s := by
  have none : ((d :: s).take 3).takeWhile isOctal = [] := by
    rw [List.take_succ_cons, List.takeWhile_cons, letter]
    rfl
  rw [items.eq_def]
  exact (if_neg (not_not.mpr rfl)).trans (if_neg (not_not.mpr none))

theorem items_slash : items [92] = [.slash] := by
  rw [items.eq_def]
  exact (if_neg (not_not.mpr rfl)).trans (if_neg (not_not.mpr rfl))

theorem items_append_plain (plain : 92 ∉ front) (s : Bytes) :
    items (front ++ s) = front.map .plain ++ items s := by
  induction front with
  | nil => rfl
  | cons c front ih =>
      rw [List.mem_cons, not_or] at plain
      rw [List.cons_append, items_plain (Ne.symm plain.1), ih plain.2]
      rfl

theorem head_of_items (head : (items s).head? = some (.plain c)) : s.head? = some c := by
  rcases s with - | ⟨d, s⟩
  · rw [items_nil] at head
    cases head
  · by_cases plain : d = 92
    · subst plain
      rw [items.eq_def] at head
      dsimp only at head
      rw [if_neg (not_not.mpr rfl)] at head
      split at head
      · cases head
      · split at head
        · cases head
        · cases head
    · rw [items_plain plain] at head
      exact congrArg some (Item.plain.inj (Option.some.inj head))

/-! ## Digits -/

theorem isDigit_of_isOctal (octal : isOctal c = true) : isDigit c = true := by
  simp only [isOctal, isDigit, Bool.and_eq_true, decide_eq_true_eq] at octal ⊢
  exact ⟨octal.1, UInt8.le_trans octal.2 (by decide)⟩

theorem takeWhile_digits (s : Bytes) :
    s.takeWhile isDigit = s.takeWhile isOctal ++ (s.dropWhile isOctal).takeWhile isDigit := by
  conv_lhs => rw [← s.takeWhile_append_dropWhile (p := isOctal)]
  apply List.takeWhile_append_of_pos
  intro c member
  exact isDigit_of_isOctal (List.mem_takeWhile_imp member)

/-- The digits of a text are at its front, and no digit is behind them where there are less than three. -/
theorem digits_front (found : (s.take 3).takeWhile isDigit = digits) :
    ∃ rest, s = digits ++ rest ∧ (∀ c ∈ digits, isDigit c = true) ∧
      (digits.length < 3 → ∀ c ∈ rest.head?, isDigit c = false) := by
  have front : digits <+: s := by
    rw [← found]
    exact (List.takeWhile_prefix _).trans (List.take_prefix 3 s)
  have all : ∀ c ∈ digits, isDigit c = true := by
    intro c member
    rw [← found] at member
    exact List.mem_takeWhile_imp member
  obtain ⟨rest, rfl⟩ := front
  refine ⟨rest, rfl, all, ?_⟩
  intro short c head
  obtain ⟨t, rfl⟩ : ∃ t, rest = c :: t := List.head?_eq_some_iff.mp head
  rw [List.take_append, List.take_of_length_le (by omega), List.takeWhile_append_of_pos all] at found
  obtain ⟨k, room⟩ : ∃ k, 3 - digits.length = k + 1 := ⟨2 - digits.length, by omega⟩
  rw [room, List.take_succ_cons, List.takeWhile_cons] at found
  by_contra digit
  rw [Bool.not_eq_false] at digit
  rw [if_pos digit] at found
  exact absurd (congrArg List.length found) (by simp)

/-- What a backslash with digits is in the text: an octal escape and digits that do not belong to it, or an escaped
digit that is not octal. -/
theorem items_digits (found : (s.take 3).takeWhile isDigit = digits) (nonempty : digits ≠ []) :
    ∃ more, (∀ c ∈ more, isDigit c = true) ∧
      ((∃ octals, octals ≠ [] ∧ digits = octals ++ more ∧
          items (92 :: s) = .octal octals :: (more.map .plain ++ items (s.drop digits.length))) ∨
        ∃ d, isDigit d = true ∧ isOctal d = false ∧ digits = d :: more ∧
          items (92 :: s) = .letter d :: (more.map .plain ++ items (s.drop digits.length))) := by
  obtain ⟨rest, rfl, all, -⟩ := digits_front found
  have plain {front : Bytes} (inside : ∀ c ∈ front, isDigit c = true) : 92 ∉ front :=
    fun member => absurd (inside 92 member) (by decide)
  have parts := takeWhile_digits ((digits ++ rest).take 3)
  rw [found] at parts
  rw [List.drop_left]
  rcases octals : ((digits ++ rest).take 3).takeWhile isOctal with - | ⟨o, os⟩
  · obtain ⟨d, more, rfl⟩ := List.exists_cons_of_ne_nil nonempty
    rw [List.forall_mem_cons] at all
    have other : isOctal d = false := by
      rw [List.cons_append, List.take_succ_cons, List.takeWhile_cons] at octals
      by_contra octal
      rw [Bool.not_eq_false] at octal
      rw [if_pos octal] at octals
      exact List.cons_ne_nil _ _ octals
    refine ⟨more, all.2, .inr ⟨d, all.1, other, rfl, ?_⟩⟩
    rw [List.cons_append, items_letter other, items_append_plain (plain all.2)]
  · rw [octals] at parts
    generalize (((digits ++ rest).take 3).dropWhile isOctal).takeWhile isDigit = more at parts
    subst parts
    have inside : ∀ c ∈ more, isDigit c = true := fun c member => all c (List.mem_append_right _ member)
    refine ⟨more, inside, .inl ⟨o :: os, List.cons_ne_nil _ _, rfl, ?_⟩⟩
    rw [items_octal octals (List.cons_ne_nil _ _), List.append_assoc, List.drop_left,
      items_append_plain (plain inside)]

/-- `strtol` finds no number where the first digit is not octal. -/
theorem readByte_eq_zero (digit : isDigit d = true) (other : isOctal d = false) (memory : Bytes) :
    readByte (d :: memory) = 0 := by
  have large : ¬ digitVal d < 8 := by
    simp only [isDigit, isOctal, Bool.and_eq_true, decide_eq_true_eq, Bool.and_eq_false_iff, decide_eq_false_iff_not,
      UInt8.le_iff_toNat_le, UInt8.reduceToNat] at digit other
    rw [digitVal, if_pos]
    · omega
    · simp only [isDigit, Bool.and_eq_true, decide_eq_true_eq, UInt8.le_iff_toNat_le, UInt8.reduceToNat]
      exact digit
  have base : strtolBase 8 (d :: memory) = (8, d :: memory) := rfl
  rw [readByte, strtol_of_digit digit, base, if_neg]
  · rfl
  · rintro ⟨c, head, small⟩
    cases head
    exact large small

/-! ## Lengths -/

theorem length_digits (found : (s.take 3).takeWhile isDigit = digits) : digits.length ≤ 3 := by
  rw [← found]
  exact (List.takeWhile_prefix _).length_le.trans (List.length_take_le 3 s)

theorem isDigit_eq_false (none : ¬ ((d :: s).take 3).takeWhile isDigit ≠ []) : isDigit d = false := by
  by_contra digit
  rw [Bool.not_eq_false] at digit
  rw [List.take_succ_cons, List.takeWhile_cons, if_pos digit] at none
  exact none (List.cons_ne_nil _ _)

theorem isOctal_eq_false (letter : isDigit d = false) : isOctal d = false := by
  by_contra octal
  rw [Bool.not_eq_false] at octal
  rw [isDigit_of_isOctal octal] at letter
  cases letter

/-- Digits are one item or more. -/
theorem length_items_digits (found : (s.take 3).takeWhile isDigit = digits) (nonempty : digits ≠ []) :
    (items (s.drop digits.length)).length < (items (92 :: s)).length := by
  obtain ⟨more, -, ⟨octals, -, -, eq⟩ | ⟨d, -, -, -, eq⟩⟩ := items_digits found nonempty
  all_goals
    rw [eq, List.length_cons, List.length_append]
    omega

/-- No more characters come out of a text than it has items. -/
theorem length_unescape (memory s : Bytes) : (unescape memory s).length ≤ (items s).length := by
  induction memory, s using unescape.induct with
  | case1 memory =>
      rw [unescape_nil]
      exact Nat.zero_le _
  | case2 memory c s plain ih =>
      rw [unescape_plain plain, items_plain plain, List.length_cons, List.length_cons]
      exact Nat.succ_le_succ ih
  | case3 memory c s slash digits nonempty byte zero =>
      cases not_not.mp slash
      rw [unescape_digits rfl nonempty, if_pos zero]
      exact Nat.zero_le _
  | case4 memory c s slash digits nonempty byte shown ih =>
      cases not_not.mp slash
      rw [unescape_digits rfl nonempty, if_neg shown, List.length_cons]
      exact Nat.succ_le_of_lt (ih.trans_lt (length_items_digits rfl nonempty))
  | case5 memory c slash =>
      cases not_not.mp slash
      rw [unescape_slash]
      exact Nat.zero_le _
  | case6 memory c slash d rest digits none ih =>
      cases not_not.mp slash
      have letter := isDigit_eq_false none
      rw [unescape_letter letter, items_letter (isOctal_eq_false letter), List.length_cons, List.length_cons]
      exact Nat.succ_le_succ ih

/-! ## Decoding -/

/-- Digits behind a backslash, if what is behind them is known. -/
theorem unescape_digits_iff (found : (s.take 3).takeWhile isDigit = digits) (nonempty : digits ≠ [])
    (behind : readByte (store memory digits) ≠ 0 →
      (unescape (store memory digits) (s.drop digits.length) = decode (s.drop digits.length) ↔
        Settled (store memory digits) (items (s.drop digits.length)))) :
    unescape memory (92 :: s) = decode (92 :: s) ↔ Settled memory (items (92 :: s)) := by
  obtain ⟨more, inside, ⟨octals, -, rfl, eq⟩ | ⟨d, digit, other, rfl, eq⟩⟩ := items_digits found nonempty
  · rcases more with - | ⟨d, more⟩
    · rw [List.append_nil] at *
      obtain ⟨rest, rfl, -, stop⟩ := digits_front found
      rw [List.drop_left] at behind eq
      rw [unescape_digits found nonempty, decode, eq, List.drop_left]
      have ends : octals.length < 3 → ∀ c, (items rest).head? = some (.plain c) → isDigit c = false :=
        fun short c head => stop short c (head_of_items head)
      constructor
      · intro same
        split at same
        · cases same
        · next shown =>
            have parts := List.cons.inj same
            exact ⟨ends, fun zero => shown (parts.1.trans zero), parts.1, (behind shown).mp parts.2⟩
      · intro ⟨_, shown, same, settled⟩
        have byte : readByte (store memory octals) ≠ 0 := fun zero => shown (same.symm.trans zero)
        rw [if_neg byte, (behind byte).mpr settled, same]
        rfl
    · -- A digit that does not belong to the escape is swallowed.
      have swallowed : ¬ unescape memory (92 :: s) = decode (92 :: s) := by
        intro same
        have lengths := congrArg List.length same
        rw [unescape_digits found nonempty, decode, eq] at lengths
        have short := length_unescape (store memory (octals ++ d :: more)) (s.drop (octals ++ d :: more).length)
        split at lengths
        · cases lengths
        · simp only [List.length_cons, List.length_map, List.length_append] at lengths short
          omega
      refine iff_of_false swallowed ?_
      rw [eq]
      intro ⟨ends, _⟩
      have room := length_digits found
      rw [List.length_append, List.length_cons] at room
      have letter := ends (by omega) d rfl
      rw [inside d List.mem_cons_self] at letter
      cases letter
  · have lost : unescape memory (92 :: s) = [] := by
      rw [unescape_digits found nonempty]
      exact if_pos (readByte_eq_zero digit other _)
    rw [lost, decode, eq]
    refine iff_of_false (List.cons_ne_nil _ _).symm ?_
    intro ⟨letter, _⟩
    rw [digit] at letter
    cases letter

theorem unescape_eq_iff (memory s : Bytes) : unescape memory s = decode s ↔ Settled memory (items s) := by
  induction memory, s using unescape.induct with
  | case1 memory =>
      rw [unescape_nil, decode, items_nil]
      exact iff_of_true rfl trivial
  | case2 memory c s plain ih =>
      rw [unescape_plain plain, decode, items_plain plain]
      exact List.cons_inj_right c |>.trans ih
  | case3 memory c s slash digits nonempty byte zero =>
      cases not_not.mp slash
      exact unescape_digits_iff rfl nonempty (fun shown => absurd zero shown)
  | case4 memory c s slash digits nonempty byte shown ih =>
      cases not_not.mp slash
      exact unescape_digits_iff rfl nonempty (fun _ => ih)
  | case5 memory c slash =>
      cases not_not.mp slash
      rw [unescape_slash, decode, items_slash]
      exact iff_of_false (List.cons_ne_nil _ _).symm id
  | case6 memory c slash d rest digits none ih =>
      cases not_not.mp slash
      have letter := isDigit_eq_false none
      rw [unescape_letter letter, decode, items_letter (isOctal_eq_false letter)]
      calc control d :: unescape memory rest = control d :: decode rest
          ↔ unescape memory rest = decode rest := List.cons_inj_right _
        _ ↔ Settled memory (items rest) := ih
        _ ↔ isDigit d = false ∧ Settled memory (items rest) := (and_iff_right letter).symm

/-- An option string has its escapes decoded exactly where nothing in it is read together with digits that do not
belong to it. -/
theorem fixStr_iff (memory str : Bytes) :
    fixStr memory str = (if decode str = [] then none else some (decode str)) ↔ Settled memory (items str) := by
  rw [← unescape_eq_iff, fixStr]
  constructor
  · intro same
    split at same
    · next empty =>
        split at same
        · next nothing => rw [empty, nothing]
        · cases same
    · split at same
      · cases same
      · exact Option.some.inj same
  · intro same
    rw [same]

/-- The digit of the second escape is read with those of the first. -/
theorem stale_digits : fixStr [0, 0, 0, 0] (lit "\\101\\7") = some [65, 193] ∧ decode (lit "\\101\\7") = [65, 7] ∧
    fixStr [0, 0, 0, 0] (lit "\\101\\7") ≠ some (decode (lit "\\101\\7")) := by
  have text : lit "\\101\\7" = 92 :: [49, 48, 49, 92, 55] := rfl
  have three : (([49, 48, 49, 92, 55] : Bytes).take 3).takeWhile isDigit = [49, 48, 49] := rfl
  have one : (([55] : Bytes).take 3).takeWhile isDigit = [55] := rfl
  have first : unescape [0, 0, 0, 0] (92 :: [49, 48, 49, 92, 55]) = 65 :: unescape [49, 48, 49, 0] [92, 55] :=
    unescape_digits three (List.cons_ne_nil _ _) _
  have second : unescape [49, 48, 49, 0] [92, 55] = 193 :: unescape [55, 48, 49, 0] [] :=
    unescape_digits one (List.cons_ne_nil _ _) _
  have whole : items (92 :: [49, 48, 49, 92, 55]) = .octal [49, 48, 49] :: items [92, 55] :=
    items_octal rfl (List.cons_ne_nil 49 [48, 49])
  have last : items [92, 55] = .octal [55] :: items [] := items_octal rfl (List.cons_ne_nil 55 [])
  rw [fixStr, decode, text, first, second, unescape_nil, whole, last, items_nil]
  exact ⟨rfl, rfl, by decide⟩

end OptionString

end LPRng
