import LPRng.Split

/-!
# Values of options

`Set_var_list` gives the variables of the keywords their values from the lines of a configuration. In front of a number
separators are skipped with `strchr`, which finds the terminator of the text as well, so that nothing but separators is
followed beyond it.
-/

namespace LPRng

namespace OptionValue

/-! ## The operation -/

inductive Kind where
  | flag
  | integer
  | string
  | other
deriving DecidableEq

/-- An entry of a list of variables. One without a variable is skipped. -/
structure Keyword where
  keyword : Bytes
  type : Kind
  location : Option Nat

/-- The value of a variable: an `int`, or a text or none. -/
inductive Setting where
  | number (value : Int)
  | text (value : Option Bytes)
deriving DecidableEq

def isSeparator (c : UInt8) : Bool := optionValueSep.contains c

def findExistsValue (l : LineList) (key sep : Bytes) : Option Bytes :=
  match l.findFirstKey key sep with
  | (.eq, mid) => some (LineList.fixVal ((l.getD mid []).dropWhile (!sep.contains ·)))
  | _ => none

def simpleWords : List (Bytes × Int) :=
  [(lit "all", 1), (lit "yes", 1), (lit "allow", 1), (lit "true", 1), (lit "no", 0), (lit "deny", 0), (lit "false", 0),
    (lit "none", 0)]

def checkStrKeyword (name : Bytes) : Option Int :=
  (simpleWords.find? fun word => strcasecmp name word.1 = .eq).map Prod.snd

/-- Separators are skipped up to the first other character. There is none before the terminator, which is taken for a
separator. -/
def skipSeparators : Bytes → Option Bytes
  | [] => none
  | c :: s => if isSeparator c then skipSeparators s else some (c :: s)

/-- `Config_value_conversion`, if only the text is read. The last case is that of a type that is not converted. -/
def configValueConversion (type : Kind) (s : Bytes) : Option (Option Setting) :=
  let s := s.dropWhile isSpace
  match type with
  | .flag | .integer =>
      match s with
      | [] => some (some (.number 1))
      | c :: _ =>
          if c = 64 then some (some (.number 0))
          else (skipSeparators s).map fun s =>
            match checkStrKeyword s with
            | some value => some (.number value)
            | none => some (.number (toInt32 (strtol 0 s).1))
  | .string =>
      let s := s.dropWhile isSeparator
      some (some (.text (if s = [] then none else some (s.rdropWhile isSpace))))
  | .other => some none

/-- The loop of `Set_var_list` over the keywords. -/
def setVar (values : LineList) (vars : Nat → Setting) (key : Keyword) : Option (Nat → Setting) :=
  match findExistsValue values key.keyword optionValueSep, key.location with
  | some s, some p =>
      (configValueConversion key.type s).map fun
        | some setting => Function.update vars p setting
        | none => vars
  | _, _ => some vars

def setVarList (keys : List Keyword) (values : LineList) (vars : Nat → Setting) : Option (Nat → Setting) :=
  keys.foldlM (setVar values) vars

/-! ## What a line says -/

/-- What is behind the key of a line. -/
def restOf (line : Bytes) : Bytes := line.dropWhile (!optionValueSep.contains ·)

/-- The value text: what is behind the first separator and white space. -/
def valueText (rest : Bytes) : Bytes := rest.tail.dropWhile isSpace

/-- The value of a known keyword, or the number at the front of a text. -/
def numberOf (word : Bytes) : Int := (checkStrKeyword word).getD (toInt32 (strtol 0 word).1)

/-- A key alone stands for 1, and one with an `@` for 0. -/
def expectedNumber (rest : Bytes) : Int :=
  if rest = [] then 1
  else if rest.head? = some 64 then 0
  else if valueText rest = [] then 1
  else if (valueText rest).head? = some 64 then 0
  else numberOf ((valueText rest).dropWhile isSeparator)

def expectedText (rest : Bytes) : Option Bytes :=
  if rest = [] then some (lit "1")
  else if rest.head? = some 64 then some (lit "0")
  else
    let word := ((valueText rest).dropWhile isSeparator).rdropWhile isSpace
    if word = [] then none else some word

def expected (type : Kind) (rest : Bytes) : Option Setting :=
  match type with
  | .flag | .integer => some (.number (expectedNumber rest))
  | .string => some (.text (expectedText rest))
  | .other => none

/-- A number has a value text that is not only separators, unless an `@` comes first. A text does not have only white
space behind separators. -/
def Settled (type : Kind) (rest : Bytes) : Prop :=
  match type with
  | .flag | .integer =>
      rest.head? ≠ some 64 → valueText rest = [] ∨ (valueText rest).head? = some 64 ∨
        ∃ c ∈ valueText rest, isSeparator c = false
  | .string =>
      (valueText rest).dropWhile isSeparator = [] ∨
        ∃ c ∈ (valueText rest).dropWhile isSeparator, isSpace c = false
  | .other => True

/-- The variables after all keywords, each with the line that is found for it. -/
def assign (values : LineList) (vars : Nat → Setting) (key : Keyword) : Nat → Setting :=
  match values.findFirstKey key.keyword optionValueSep, key.location with
  | (.eq, mid), some p =>
      match expected key.type (restOf (values.getD mid [])) with
      | some setting => Function.update vars p setting
      | none => vars
  | _, _ => vars

variable {s rest line : Bytes} {type : Kind} {values : LineList}

theorem skipSeparators_eq (some : ∃ c ∈ s, isSeparator c = false) :
    skipSeparators s = Option.some (s.dropWhile isSeparator) := by
  induction s with
  | nil =>
      obtain ⟨c, member, -⟩ := some
      cases member
  | cons c s ih =>
      rw [skipSeparators, List.dropWhile_cons]
      split
      · next separator =>
          apply ih
          obtain ⟨d, member, plain⟩ := some
          rcases List.mem_cons.mp member with rfl | behind
          · rw [separator] at plain
            cases plain
          · exact ⟨d, behind, plain⟩
      · rfl

theorem rdropWhile_ne_nil {p : UInt8 → Bool} (some : ∃ c ∈ s, p c = false) : s.rdropWhile p ≠ [] := by
  obtain ⟨c, member, plain⟩ := some
  intro none
  rw [List.rdropWhile_eq_nil_iff.mp none c member] at plain
  cases plain

theorem fixVal_eq {c : UInt8} (plain : c ≠ 64) (tail : Bytes) : LineList.fixVal (c :: tail) = valueText (c :: tail) := by
  rw [LineList.fixVal, if_neg plain]
  rfl

theorem valueText_spaces (rest : Bytes) : (valueText rest).dropWhile isSpace = valueText rest :=
  List.dropWhile_idempotent _ _

/-- The number of a line. -/
theorem conversion_number (settled : Settled .integer rest) :
    configValueConversion .integer (LineList.fixVal rest) = some (some (.number (expectedNumber rest))) := by
  rcases rest with - | ⟨c, tail⟩
  · rfl
  · rw [expectedNumber, if_neg (List.cons_ne_nil _ _)]
    by_cases none : c = 64
    · subst none
      rfl
    · have head : (c :: tail).head? ≠ some 64 := fun same => none (Option.some.inj same)
      rw [fixVal_eq none, if_neg head, configValueConversion, valueText_spaces]
      have parts := settled head
      rcases value : valueText (c :: tail) with - | ⟨d, behind⟩
      · rfl
      · rw [value] at parts
        dsimp only
        rw [if_neg (List.cons_ne_nil _ _)]
        by_cases zero : d = 64
        · have same : (d :: behind).head? = some 64 := congrArg some zero
          rw [if_pos zero, if_pos same]
        · have first : (d :: behind).head? ≠ some 64 := fun same => zero (Option.some.inj same)
          have other := (parts.resolve_left (List.cons_ne_nil _ _)).resolve_left first
          rw [if_neg zero, if_neg first, skipSeparators_eq other, Option.map_some, numberOf]
          cases checkStrKeyword ((d :: behind).dropWhile isSeparator)
          · rfl
          · rfl

/-- The text of a line. -/
theorem conversion_text (settled : Settled .string rest) :
    configValueConversion .string (LineList.fixVal rest) = some (some (.text (expectedText rest))) := by
  rcases rest with - | ⟨c, tail⟩
  · rfl
  · rw [expectedText, if_neg (List.cons_ne_nil _ _)]
    by_cases none : c = 64
    · subst none
      rfl
    · have head : (c :: tail).head? ≠ some 64 := fun same => none (Option.some.inj same)
      rw [fixVal_eq none, if_neg head, configValueConversion, valueText_spaces]
      dsimp only
      rcases settled with empty | shown
      · rw [empty]
        rfl
      · have ⟨d, member, _⟩ := shown
        rw [if_neg (List.ne_nil_of_mem member), if_neg (rdropWhile_ne_nil shown)]

theorem conversion_eq (settled : Settled type rest) :
    configValueConversion type (LineList.fixVal rest) = some (expected type rest) := by
  cases type with
  | flag => exact conversion_number settled
  | integer => exact conversion_number settled
  | string => exact conversion_text settled
  | other => rfl

/-- The variables get what the lines of their keywords say, and nothing beyond a line is read. -/
theorem setVarList_eq (keys : List Keyword) (values : LineList) (vars : Nat → Setting)
    (settled : ∀ key ∈ keys, ∀ mid, values.findFirstKey key.keyword optionValueSep = (.eq, mid) →
      Settled key.type (restOf (values.getD mid []))) :
    setVarList keys values vars = some (keys.foldl (assign values) vars) := by
  rw [setVarList]
  induction keys generalizing vars with
  | nil => rfl
  | cons key keys ih =>
      have step : setVar values vars key = some (assign values vars key) := by
        have here := settled key List.mem_cons_self
        rw [setVar, assign, findExistsValue]
        generalize values.findFirstKey key.keyword optionValueSep = search at here ⊢
        rcases search with ⟨cmp, mid⟩
        cases cmp with
        | eq =>
            have conversion := conversion_eq (here mid rfl)
            rw [restOf] at conversion
            rcases key.location with - | p
            · rfl
            · dsimp only
              rw [conversion, restOf]
              cases expected key.type _
              · rfl
              · rfl
        | lt => rfl
        | gt => rfl
      rw [List.foldlM_cons, step, List.foldl_cons]
      exact ih _ fun other member => settled other (List.mem_cons_of_mem key member)

def maxSize : Keyword := ⟨lit "mx", .integer, some 0⟩

theorem setVarList_number : setVarList [maxSize] [lit "mx#100"] (fun _ => .number 0) =
    some ([maxSize].foldl (assign [lit "mx#100"]) fun _ => .number 0) := by
  refine setVarList_eq [maxSize] [lit "mx#100"] (fun _ => .number 0) ?_
  intro key member mid found
  cases List.mem_singleton.mp member
  have place : LineList.findFirstKey [lit "mx#100"] maxSize.keyword optionValueSep = (.eq, 0) := by decide +kernel
  cases found.symm.trans place
  intro _
  exact .inr (.inr ⟨49, List.mem_cons_self, rfl⟩)

/-- A key alone gives a text the value 1, and separators behind a number are followed beyond the line. -/
theorem conversion_differs :
    (∃ vars, setVarList [⟨lit "lf", .string, some 0⟩] [lit "lf"] (fun _ => .text none) = some vars ∧
      vars 0 = .text (some (lit "1"))) ∧
    setVarList [maxSize] [lit "mx=="] (fun _ => .number 0) = none := by
  have alone : findExistsValue [lit "lf"] (lit "lf") optionValueSep = some (lit "1") := by decide +kernel
  have separators : findExistsValue [lit "mx=="] maxSize.keyword optionValueSep = some (lit "=") := by decide +kernel
  constructor
  · refine ⟨Function.update (fun _ => .text none) 0 (.text (some (lit "1"))), ?_, Function.update_self _ _ _⟩
    rw [setVarList, List.foldlM_cons, setVar, alone]
    rfl
  · rw [setVarList, List.foldlM_cons, setVar, separators]
    rfl

end OptionValue

end LPRng
