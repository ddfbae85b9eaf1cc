import LPRng.LineList
import Mathlib.Algebra.Order.BigOperators.Group.List
import Mathlib.Data.List.Forall2

/-!
# Filter commands

`Fix_dollars` replaces the escapes in the arguments of a filter command where they stand. A position in the
argument tells where the text begins that is still to be read, and every form of an escape sets it anew.
-/

namespace LPRng

namespace FixDollars

/-! ## The operation -/

/-- What the escapes stand for, and how the command is run. -/
structure Setting where
  accountingFile : Option Bytes
  spoolDir : Option Bytes
  remotePrinter : Option Bytes
  remoteHost : Option Bytes
  statusFile : Option Bytes
  printer : Option Bytes
  commentTag : Option Bytes
  pageLength : Int
  pageWidth : Int
  pageX : Int
  pageY : Int
  /-- `Time_str` of the current time. -/
  time : Bytes
  pcEntryLineList : LineList
  /-- `job->info`, where there is a job. -/
  info : Option LineList
  nosplit : Bool
  flags : Option Bytes

variable (env : Setting)

def Setting.jobValue (key : Bytes) : Option Bytes := env.info.bind (·.findStrValue key)

/-- The value of `$c`. -/
def Setting.letterValue (c : UInt8) : Option Bytes :=
  match Char.ofUInt8 c with
  | 'a' => env.accountingFile.filter (·.head? ≠ some 124)
  | 'b' => env.jobValue (lit "size")
  | 'c' => if (env.jobValue (lit "format")).bind List.head? = some 108 then some (lit "-c") else none
  | 'd' => env.spoolDir
  | 'e' => env.jobValue (lit "df_name")
  | 'f' => env.jobValue (lit "N")
  | 'h' => env.jobValue (lit "H")
  | 'i' => env.jobValue (lit "I")
  | 'j' => env.jobValue (lit "number")
  | 'k' => env.jobValue (lit "cftransfername")
  | 'l' => some (printInt env.pageLength)
  | 'n' => env.jobValue (lit "P")
  | 'p' => env.remotePrinter
  | 'r' => env.remoteHost
  | 's' => env.statusFile
  | 't' => some env.time
  | 'w' => some (printInt env.pageWidth)
  | 'x' => some (printInt env.pageX)
  | 'y' => some (printInt env.pageY)
  | 'F' => env.jobValue (lit "format")
  | 'P' => env.printer
  | 'S' => env.commentTag
  | _ => if isUpper c then env.jobValue [c] else none

/-- The value of `${name}`. -/
def Setting.nameValue : Bytes → Option Bytes
  | [c] => if isUpper c then env.jobValue [c] else some (env.pcEntryLineList.findValue [c])
  | name => some (env.pcEntryLineList.findValue name)

/-- What one turn of the inner loop does: it ends with the text, reads behind the end of the text, or goes on
from a position of the text, where the texts before it may be entries of their own. -/
inductive Turn where
  | ends (strv : Bytes)
  | outside
  | goesOn (before : List Bytes) (strv : Bytes) (position : Nat)
deriving DecidableEq

/-- Characters in front of the key of an escape. -/
def modifierChars : Bytes := lit " 0-'"

/-- The text is cut where the escape stands, and its value and the rest are put behind it. -/
def Setting.substitute (strv : Bytes) (c : UInt8) (str : Option Bytes) (space notag quote : Bool) (rest : Bytes) :
    Turn :=
  match str.filter (· ≠ []) <|> if quote then some [] else none with
  | none => .goesOn [] (strv ++ rest) strv.length
  | some str =>
      let space := space && !notag
      let quoted := quote || env.nosplit
      let tag := if notag then [] else (if quoted && !space then [39] else []) ++ [45, c]
      let strv := strv ++ tag
      let tag := if quoted then tag.take 1 else []
      if space then
        if quoted then .goesOn [] (strv ++ lit " '" ++ str ++ lit "'" ++ rest) (strv.length + str.length + 2)
        else .goesOn [strv] (str ++ rest) str.length
      else .goesOn [] (strv ++ str ++ tag ++ rest) (strv.length + str.length + tag.length)

/-- The branch for a `$`, with the text behind it. -/
def Setting.dollar (strv s : Bytes) : Turn :=
  let modifiers := s.takeWhile modifierChars.contains
  let space := modifiers.contains 48 || modifiers.contains 32
  let notag := modifiers.contains 45
  let quote := modifiers.contains 39
  match s.drop modifiers.length with
  | [] => .outside
  | c :: rest =>
      if c = 42 then
        match env.flags.filter (· ≠ []) with
        | some flags => .goesOn [] (strv ++ flags ++ rest) strv.length
        | none => .goesOn [] strv strv.length
      else if c = 123 then
        let name := rest.takeWhile (· ≠ 125)
        match rest.drop name.length with
        | [] => .ends strv
        | _ :: rest => env.substitute strv c (env.nameValue name) false true quote rest
      else if c = 99 then env.substitute strv c (env.letterValue c) false true false rest
      else env.substitute strv c (env.letterValue c) space notag false rest

def isPrint (c : Int) : Bool := 32 ≤ c && c ≤ 126

/-- The branch for a backslash, with the text behind it. -/
def backslash (strv : Bytes) : Bytes → Turn
  | [] => .ends strv
  | c :: s =>
      let read : Int × Bytes :=
        if (lit "rnt").contains c then (32, s)
        else if isDigit c then ((strtol 8 (c :: s.take 2)).1, s.drop 2)
        else (c.toNat, s)
      let c := if isPrint read.1 then UInt8.ofNat read.1.toNat else 32
      .goesOn [] (strv ++ c :: read.2) (strv.length + 1)

/-- One turn of the inner loop. -/
def Setting.turn (strv : Bytes) (position : Nat) : Turn :=
  let position := position + ((strv.drop position).takeWhile (!(lit "$\\").contains ·)).length
  match strv.drop position with
  | [] => .ends strv
  | c :: s => if c = 92 then backslash (strv.take position) s else env.dollar (strv.take position) s

/-- The entries that one argument becomes, if some turns are enough. -/
def Setting.fixLine (env : Setting) : Nat → Bytes → Nat → Option (List Bytes)
  | 0, _, _ => none
  | turns + 1, strv, position =>
      match env.turn strv position with
      | .ends strv => some [strv]
      | .outside => none
      | .goesOn before strv position => (env.fixLine turns strv position).map (before ++ ·)

/-- `Fix_dollars`. Entries without text are dropped at the end. -/
def Setting.fixDollars (turns : Nat) (l : LineList) : Option LineList :=
  (l.mapM (env.fixLine turns · 0)).map fun entries => entries.flatten.filter (· ≠ [])

/-! ## The documented form -/

/-- A character of an argument, or an escape: for the flags, for a name in braces or for a letter. -/
inductive Item where
  | char (c : UInt8)
  | flags (modifiers : Bytes)
  | option (modifiers name : Bytes)
  | letter (modifiers : Bytes) (c : UInt8)
deriving DecidableEq

namespace Item

/-- What has been read of an argument: all before, a `$` and modifiers, or a name as well. -/
inductive Reading where
  | plain
  | escape (modifiers : Bytes)
  | option (modifiers name : Bytes)

/-- The items of an argument, unless an escape is incomplete at its end. -/
def parse : Reading → Bytes → Option (List Item)
  | .plain, [] => some []
  | .escape _, [] => none
  | .option _ _, [] => none
  | .plain, c :: s => if c = 36 then parse (.escape []) s else (parse .plain s).map (char c :: ·)
  | .escape modifiers, c :: s =>
      if modifierChars.contains c then parse (.escape (modifiers ++ [c])) s
      else if c = 42 then (parse .plain s).map (flags modifiers :: ·)
      else if c = 123 then parse (.option modifiers []) s
      else (parse .plain s).map (letter modifiers c :: ·)
  | .option modifiers name, c :: s =>
      if c = 125 then (parse .plain s).map (option modifiers name :: ·)
      else parse (.option modifiers (name ++ [c])) s

/-- The value an item has, if any. -/
def value (env : Setting) : Item → Option Bytes
  | char c => some [c]
  | flags _ => env.flags.filter (· ≠ [])
  | option _ name => (env.nameValue name).filter (· ≠ [])
  | letter _ c => (env.letterValue c).filter (· ≠ [])

/-- The form a value is put in: the text that takes the place of the item, and one that opens the next entry.
`$X` is `-X` and the value, `$0X` and `$ X` have a space between them, `$-X` drops the key, as does `$c`, and a
name is quoted with `'`. Where entries are not to be split, quotes keep them together. -/
def form (nosplit : Bool) (value : Bytes) : Item → Bytes × Option Bytes
  | char _ | flags _ => (value, none)
  | option modifiers _ => (if modifiers.contains 39 then 39 :: value ++ [39] else value, none)
  | letter modifiers c =>
      if modifiers.contains 45 || c = 99 then (value, none)
      else if modifiers.contains 48 || modifiers.contains 32 then
        if nosplit then (45 :: c :: lit " '" ++ value ++ [39], none) else ([45, c], some value)
      else if nosplit then (39 :: 45 :: c :: value ++ [39], none)
      else (45 :: c :: value, none)

def replacement (env : Setting) (item : Item) : Bytes × Option Bytes :=
  match item.value env with
  | none => ([], none)
  | some value => item.form env.nosplit value

end Item

/-- The items replaced one after the other: the rest of the entry, and the entries behind it. -/
def expand (env : Setting) : List Item → Bytes × List Bytes
  | [] => ([], [])
  | item :: items =>
      match item.replacement env, expand env items with
      | (text, none), (rest, more) => (text ++ rest, more)
      | (text, some next), (rest, more) => (text, (next ++ rest) :: more)

/-- The entries of a command that is expanded in a single pass. -/
def singlePass (env : Setting) (args : List (List Item)) : LineList :=
  (args.flatMap fun items => (expand env items).1 :: (expand env items).2).filter (· ≠ [])

/-! ## Runs -/

variable {env} {strv rest : Bytes} {position turns : Nat}

theorem fixLine_succ {entries : List Bytes} (done : env.fixLine turns strv position = some entries) :
    env.fixLine (turns + 1) strv position = some entries := by
  induction turns generalizing strv position entries with
  | zero => cases done
  | succ turns ih =>
      rw [Setting.fixLine] at done ⊢
      rcases step : env.turn strv position with strv | - | ⟨before, strv, position⟩
      · rwa [step] at done
      · rw [step] at done
        cases done
      · rw [step] at done
        rcases Option.map_eq_some_iff.mp done with ⟨more, run, same⟩
        exact Option.map_eq_some_iff.mpr ⟨more, ih run, same⟩

/-- More turns do not change the outcome. -/
theorem fixLine_mono {entries : List Bytes} {more : Nat} (enough : turns ≤ more)
    (done : env.fixLine turns strv position = some entries) : env.fixLine more strv position = some entries := by
  induction enough with
  | refl => exact done
  | step _ ih => exact fixLine_succ ih

theorem mapM_mono {l : LineList} {entries : List (List Bytes)} {more : Nat} (enough : turns ≤ more)
    (done : l.mapM (env.fixLine turns · 0) = some entries) : l.mapM (env.fixLine more · 0) = some entries := by
  induction l generalizing entries with
  | nil => exact done
  | cons line l ih =>
      rw [List.mapM_cons] at done ⊢
      rcases Option.bind_eq_some_iff.mp done with ⟨first, run, rest⟩
      rcases Option.bind_eq_some_iff.mp rest with ⟨others, runs, same⟩
      rw [fixLine_mono enough run]
      show (l.mapM (env.fixLine more · 0)).bind _ = _
      rw [ih runs]
      exact same

/-- An argument has one outcome, with whatever turns it comes. -/
theorem fixDollars_unique {l out other : LineList} {more : Nat} (one : env.fixDollars turns l = some out)
    (two : env.fixDollars more l = some other) : out = other := by
  rcases Option.map_eq_some_iff.mp one with ⟨entries, run, rfl⟩
  rcases Option.map_eq_some_iff.mp two with ⟨others, runs, rfl⟩
  have first := mapM_mono (Nat.le_max_left turns more) run
  have second := mapM_mono (Nat.le_max_right turns more) runs
  rw [Option.some.inj (first.symm.trans second)]

/-! ## Texts of items -/

/-- Text without escapes. -/
def Plain (s : Bytes) : Prop := 36 ∉ s ∧ 92 ∉ s

namespace Item

def text : Item → Bytes
  | char c => [c]
  | flags modifiers => 36 :: modifiers ++ [42]
  | option modifiers name => 36 :: modifiers ++ 123 :: name ++ [125]
  | letter modifiers c => 36 :: modifiers ++ [c]

/-- Modifiers are read up to the key, and a name up to the brace. -/
def Valid : Item → Prop
  | char c => Plain [c]
  | flags modifiers => ∀ d ∈ modifiers, modifierChars.contains d = true
  | option modifiers name => (∀ d ∈ modifiers, modifierChars.contains d = true) ∧ ∀ d ∈ name, d ≠ 125
  | letter modifiers c =>
      (∀ d ∈ modifiers, modifierChars.contains d = true) ∧ modifierChars.contains c = false ∧ c ≠ 42 ∧ c ≠ 123

namespace Reading

/-- What has been read of the escape. -/
def before : Reading → Bytes
  | plain => []
  | escape modifiers => 36 :: modifiers
  | option modifiers name => 36 :: modifiers ++ 123 :: name

def Valid : Reading → Prop
  | plain => True
  | escape modifiers => ∀ d ∈ modifiers, modifierChars.contains d = true
  | option modifiers name => (∀ d ∈ modifiers, modifierChars.contains d = true) ∧ ∀ d ∈ name, d ≠ 125

end Reading

/-- The argument is the text of its items. -/
theorem text_of_parse {reading : Reading} {s : Bytes} {items : List Item} (valid : reading.Valid) (plain : 92 ∉ s)
    (parsed : parse reading s = some items) :
    reading.before ++ s = items.flatMap text ∧ ∀ item ∈ items, item.Valid := by
  induction s generalizing reading items with
  | nil =>
      rcases reading with - | modifiers | ⟨modifiers, name⟩
      · rw [← Option.some.inj parsed]
        exact ⟨rfl, fun _ => nofun⟩
      · cases parsed
      · cases parsed
  | cons c s ih =>
      have later : 92 ∉ s := fun member => plain (List.mem_cons_of_mem c member)
      have extend : ∀ item : Item, item.Valid → reading.before ++ [c] = item.text →
          (parse .plain s).map (item :: ·) = some items →
          reading.before ++ c :: s = items.flatMap text ∧ ∀ item ∈ items, item.Valid := by
        intro item validItem same mapped
        rcases Option.map_eq_some_iff.mp mapped with ⟨others, read, rfl⟩
        rcases @ih .plain others trivial later read with ⟨whole, valids⟩
        refine ⟨?_, List.forall_mem_cons.mpr ⟨validItem, valids⟩⟩
        rw [List.flatMap_cons, ← whole, ← same, List.append_assoc]
        rfl
      have go : ∀ next : Reading, next.Valid → reading.before ++ [c] = next.before →
          parse next s = some items → reading.before ++ c :: s = items.flatMap text ∧ ∀ item ∈ items, item.Valid := by
        intro next validNext same parsed
        rcases ih validNext later parsed with ⟨whole, valids⟩
        refine ⟨?_, valids⟩
        rw [← whole, ← same, List.append_assoc]
        rfl
      rcases reading with - | modifiers | ⟨modifiers, name⟩
      · rw [parse] at parsed
        split at parsed
        · next dollar => exact go (.escape []) (fun _ => nofun) (by rw [dollar]; rfl) parsed
        · next other =>
            refine extend (char c) ⟨?_, ?_⟩ rfl parsed
            · exact fun member => other (List.mem_singleton.mp member).symm
            · exact fun member => plain (List.mem_singleton.mp member ▸ List.mem_cons_self)
      · rw [parse] at parsed
        split at parsed
        · next modifier =>
            refine go (.escape (modifiers ++ [c])) (fun d member => ?_) rfl parsed
            rcases List.mem_append.mp member with old | new
            · exact valid d old
            · rw [List.mem_singleton.mp new]
              exact modifier
        · next key =>
            split at parsed
            · next star => exact extend (flags modifiers) valid (by rw [star]; rfl) parsed
            · next noStar =>
                split at parsed
                · next brace => exact go (.option modifiers []) ⟨valid, fun _ => nofun⟩ (by rw [brace]; rfl) parsed
                · next noBrace =>
                    exact extend (letter modifiers c) ⟨valid, Bool.eq_false_iff.mpr key, noStar, noBrace⟩ rfl parsed
      · rw [parse] at parsed
        split at parsed
        · next brace => exact extend (option modifiers name) valid (by rw [brace]; rfl) parsed
        · next other =>
            refine go (.option modifiers (name ++ [c])) ⟨valid.1, fun d member => ?_⟩ ?_ parsed
            · rcases List.mem_append.mp member with old | new
              · exact valid.2 d old
              · rw [List.mem_singleton.mp new]
                exact other
            · rw [Reading.before, Reading.before, List.append_assoc]
              rfl

end Item

/-! ## Turns -/

theorem turn_skip {plain : Bytes} (free : Plain plain) :
    env.turn (strv ++ (plain ++ rest)) strv.length = env.turn (strv ++ (plain ++ rest)) (strv ++ plain).length := by
  have inside : ∀ c ∈ plain, (!(lit "$\\").contains c) = true := by
    intro c member
    have dollar : c ≠ 36 := fun same => free.1 (same ▸ member)
    have slash : c ≠ 92 := fun same => free.2 (same ▸ member)
    rw [Bool.not_eq_true', Bool.eq_false_iff]
    intro hit
    rcases List.mem_cons.mp (List.contains_iff_mem.mp hit) with same | more
    · exact dollar same
    · exact slash (List.mem_singleton.mp more)
  have behind : (strv ++ (plain ++ rest)).drop strv.length = plain ++ rest := List.drop_left
  have further : (strv ++ (plain ++ rest)).drop (strv ++ plain).length = rest := by
    rw [← List.append_assoc, List.drop_left]
  have position : strv.length + (plain ++ rest.takeWhile (!(lit "$\\").contains ·)).length =
      (strv ++ plain).length + (rest.takeWhile (!(lit "$\\").contains ·)).length := by
    rw [List.length_append, List.length_append, Nat.add_assoc]
  rw [Setting.turn, Setting.turn, behind, further, List.takeWhile_append_of_pos inside, position]

theorem fixLine_skip (env : Setting) {plain : Bytes} (free : Plain plain) (turns : Nat) (strv rest : Bytes) :
    env.fixLine turns (strv ++ (plain ++ rest)) strv.length =
      env.fixLine turns (strv ++ (plain ++ rest)) (strv ++ plain).length := by
  cases turns with
  | zero => rfl
  | succ turns => rw [Setting.fixLine, Setting.fixLine, turn_skip free]

theorem turn_dollar (s : Bytes) : env.turn (strv ++ 36 :: s) strv.length = env.dollar strv s := by
  have behind : (strv ++ 36 :: s).drop strv.length = 36 :: s := List.drop_left
  have none_ahead : (36 :: s).takeWhile (!(lit "$\\").contains ·) = [] := List.takeWhile_cons_of_neg (by decide)
  rw [Setting.turn, behind, none_ahead, List.length_nil, Nat.add_zero]
  simp only [behind]
  rw [List.take_left]
  rfl

theorem takeWhile_modifiers {modifiers : Bytes} {c : UInt8}
    (inside : ∀ d ∈ modifiers, modifierChars.contains d = true) (stop : modifierChars.contains c = false) :
    (modifiers ++ c :: rest).takeWhile modifierChars.contains = modifiers := by
  rw [List.takeWhile_append_of_pos inside, List.takeWhile_cons_of_neg (Bool.eq_false_iff.mp stop), List.append_nil]

/-- Without the key a value is put where the escape was. -/
theorem substitute_notag (c : UInt8) (str : Option Bytes) (space quote : Bool) :
    env.substitute strv c str space true quote rest =
      .goesOn [] (strv ++ ((str.filter (· ≠ [])).getD [] ++ rest)) (strv ++ (str.filter (· ≠ [])).getD []).length := by
  rw [Setting.substitute]
  rcases str.filter (· ≠ []) with - | value
  · cases quote
    · simp
    · simp
  · simp

namespace Item

/-- A name without the quotes that are asked for. -/
def unquoted : Item → Item
  | option modifiers name => option (modifiers.filter (· ≠ 39)) name
  | item => item

/-- Where there are no flags for it, the escape for the flags. -/
def cuts (env : Setting) : Item → Bool
  | flags _ => (env.flags.filter (· ≠ [])).isNone
  | _ => false

/-- What one turn makes of an escape: its replacement, all or part of which is behind the position, or an entry of
its own. -/
inductive Replaces (env : Setting) (item : Item) (strv rest : Bytes) : Turn → Prop
  | within (done todo : Bytes) (plain : Plain todo) (whole : item.replacement env = (done ++ todo, none)) :
      Replaces env item strv rest (.goesOn [] (strv ++ (done ++ (todo ++ rest))) (strv ++ done).length)
  | split (text next : Bytes) (whole : item.replacement env = (text, some next)) :
      Replaces env item strv rest (.goesOn [strv ++ text] (next ++ rest) next.length)

variable {item : Item}

theorem plain_nil : Plain [] := ⟨nofun, nofun⟩

theorem replaces_of_eq {turn : Turn} {text : Bytes} (whole : item.replacement env = (text, none))
    (same : turn = .goesOn [] (strv ++ (text ++ rest)) (strv ++ text).length) : item.Replaces env strv rest turn := by
  rw [same]
  exact .within text [] plain_nil (by rw [whole, List.append_nil])

theorem replaces_letter {modifiers : Bytes} {c : UInt8} (inside : ∀ d ∈ modifiers, modifierChars.contains d = true)
    (stop : modifierChars.contains c = false) (noStar : c ≠ 42) (noBrace : c ≠ 123) :
    (letter modifiers c).Replaces env strv rest (env.dollar strv (modifiers ++ c :: rest)) := by
  have dollar : env.dollar strv (modifiers ++ c :: rest) =
      if c = 99 then env.substitute strv c (env.letterValue c) false true false rest
      else env.substitute strv c (env.letterValue c) (modifiers.contains 48 || modifiers.contains 32)
        (modifiers.contains 45) false rest := by
    rw [Setting.dollar, takeWhile_modifiers inside stop]
    simp only [List.drop_left, if_neg noStar, if_neg noBrace]
  have given : (letter modifiers c).value env = (env.letterValue c).filter (· ≠ []) := rfl
  rw [dollar]
  by_cases dropped : (modifiers.contains 45 || c = 99) = true
  · have whole : (letter modifiers c).replacement env = (((env.letterValue c).filter (· ≠ [])).getD [], none) := by
      rw [replacement, given]
      rcases (env.letterValue c).filter (· ≠ []) with - | value
      · rfl
      · exact if_pos dropped
    refine replaces_of_eq whole ?_
    split
    · exact substitute_notag ..
    · next other =>
        rw [decide_eq_false other, Bool.or_false] at dropped
        rw [dropped]
        exact substitute_notag ..
  · have kept := Bool.or_eq_false_iff.mp (Bool.eq_false_iff.mpr dropped)
    rw [if_neg (of_decide_eq_false kept.2), kept.1, Setting.substitute]
    rcases found : (env.letterValue c).filter (· ≠ []) with - | value
    · have whole : (letter modifiers c).replacement env = ([], none) := by rw [replacement, given, found]
      refine replaces_of_eq whole ?_
      simp
    · have whole : (letter modifiers c).replacement env = (letter modifiers c).form env.nosplit value := by
        rw [replacement, given, found]
      rw [form, if_neg dropped] at whole
      rcases spaced : modifiers.contains 48 || modifiers.contains 32
      · rw [spaced, if_neg Bool.false_ne_true] at whole
        rcases together : env.nosplit
        · rw [together, if_neg Bool.false_ne_true] at whole
          refine replaces_of_eq whole ?_
          simp
          omega
        · rw [together, if_pos rfl] at whole
          refine replaces_of_eq whole ?_
          simp
          omega
      · rw [spaced, if_pos rfl] at whole
        rcases together : env.nosplit
        · rw [together, if_neg Bool.false_ne_true] at whole
          have split : (letter modifiers c).Replaces env strv rest
              (.goesOn [strv ++ [45, c]] (value ++ rest) value.length) := .split [45, c] value whole
          simpa using split
        · rw [together, if_pos rfl] at whole
          have quote : Plain (lit "'") := ⟨by decide, by decide⟩
          have within : (letter modifiers c).Replaces env strv rest
              (.goesOn [] (strv ++ (45 :: c :: lit " '" ++ value ++ (lit "'" ++ rest)))
                (strv ++ (45 :: c :: lit " '" ++ value)).length) := .within _ _ quote whole
          have width : (lit " '").length = 2 := rfl
          simpa [width, Nat.add_assoc, Nat.add_comm, Nat.add_left_comm] using within

theorem replaces_option {modifiers name : Bytes} (inside : ∀ d ∈ modifiers, modifierChars.contains d = true)
    (noBrace : ∀ d ∈ name, d ≠ 125) :
    (option modifiers name).unquoted.Replaces env strv rest
      (env.dollar strv (modifiers ++ 123 :: (name ++ 125 :: rest))) := by
  have front : (name ++ 125 :: rest).takeWhile (· ≠ 125) = name := by
    rw [List.takeWhile_append_of_pos fun d member => decide_eq_true (noBrace d member),
      List.takeWhile_cons_of_neg (by simp), List.append_nil]
  have dollar : env.dollar strv (modifiers ++ 123 :: (name ++ 125 :: rest)) =
      env.substitute strv 123 (env.nameValue name) false true (modifiers.contains 39) rest := by
    rw [Setting.dollar, takeWhile_modifiers inside rfl]
    simp only [List.drop_left, front]
    rfl
  have plain : (modifiers.filter (· ≠ 39)).contains 39 = false :=
    Bool.eq_false_iff.mpr fun member => of_decide_eq_true (List.mem_filter.mp (List.contains_iff_mem.mp member)).2 rfl
  have given : (option modifiers name).unquoted.value env = (env.nameValue name).filter (· ≠ []) := rfl
  have whole : (option modifiers name).unquoted.replacement env =
      (((env.nameValue name).filter (· ≠ [])).getD [], none) := by
    rw [replacement, given]
    rcases (env.nameValue name).filter (· ≠ []) with - | value
    · rfl
    · show (if (modifiers.filter (· ≠ 39)).contains 39 = true then _ else value, none) = _
      rw [plain]
      rfl
  rw [dollar]
  exact replaces_of_eq whole (substitute_notag ..)

/-- Flags take the place of their escape and are read on. -/
theorem replaces_flags {modifiers : Bytes} (inside : ∀ d ∈ modifiers, modifierChars.contains d = true)
    (plain : ∀ flags ∈ env.flags, Plain flags) (given : (flags modifiers).cuts env = false) :
    (flags modifiers).Replaces env strv rest (env.dollar strv (modifiers ++ 42 :: rest)) := by
  have dollar : env.dollar strv (modifiers ++ 42 :: rest) =
      match env.flags.filter (· ≠ []) with
      | some text => .goesOn [] (strv ++ text ++ rest) strv.length
      | none => .goesOn [] strv strv.length := by
    rw [Setting.dollar, takeWhile_modifiers inside rfl]
    simp only [List.drop_left]
    rfl
  rw [cuts] at given
  rcases found : env.flags.filter (· ≠ []) with - | text
  · rw [found] at given
    cases given
  · have whole : (flags modifiers).replacement env = ([] ++ text, none) := by
      rw [replacement, value, found]
      rfl
    have free := plain text (Option.mem_filter_iff.mp found).1
    have within : (flags modifiers).Replaces env strv rest
        (.goesOn [] (strv ++ ([] ++ (text ++ rest))) (strv ++ []).length) := .within [] text free whole
    rw [dollar, found]
    simpa using within

/-- Where there are none, the rest of the text is lost. -/
theorem dollar_cuts {modifiers : Bytes} (inside : ∀ d ∈ modifiers, modifierChars.contains d = true)
    (absent : (flags modifiers).cuts env = true) :
    env.dollar strv (modifiers ++ 42 :: rest) = .goesOn [] strv strv.length := by
  have found : env.flags.filter (· ≠ []) = none := Option.isNone_iff_eq_none.mp absent
  rw [Setting.dollar, takeWhile_modifiers inside rfl]
  simp only [List.drop_left, found]
  rfl

end Item

/-- What is done of an argument: names are not quoted, and nothing behind flags that are not there is left. -/
def kept (env : Setting) : List Item → List Item
  | [] => []
  | item :: items => if item.cuts env then [] else item.unquoted :: kept env items

/-- The entries of one argument. -/
def entries (env : Setting) (items : List Item) : List Bytes := (expand env items).1 :: (expand env items).2

theorem expand_cons_none {item : Item} {items : List Item} {text : Bytes}
    (whole : item.replacement env = (text, none)) :
    expand env (item :: items) = (text ++ (expand env items).1, (expand env items).2) := by
  rw [expand, whole]

theorem expand_cons_some {item : Item} {items : List Item} {text next : Bytes}
    (whole : item.replacement env = (text, some next)) :
    expand env (item :: items) = (text, (next ++ (expand env items).1) :: (expand env items).2) := by
  rw [expand, whole]

/-- Some turns read the rest of a text, behind a position, as these items. -/
def Reads (env : Setting) (rest : Bytes) (items : List Item) : Prop :=
  ∀ strv, ∃ turns, env.fixLine turns (strv ++ rest) strv.length =
    some ((strv ++ (expand env items).1) :: (expand env items).2)

/-- The step for an escape. -/
theorem reads_of_replaces {item : Item} {items : List Item} {t : Turn} {s : Bytes}
    (replaces : item.Replaces env strv rest t) (step : env.turn s position = t) (reads : Reads env rest items) :
    ∃ turns, env.fixLine turns s position =
      some ((strv ++ (expand env (item :: items)).1) :: (expand env (item :: items)).2) := by
  rcases replaces with ⟨done, todo, plain, whole⟩ | ⟨text, next, whole⟩
  · rcases reads (strv ++ done ++ todo) with ⟨turns, run⟩
    refine ⟨turns + 1, ?_⟩
    have skip := fixLine_skip env plain turns (strv ++ done) rest
    rw [List.append_assoc (strv ++ done), List.append_assoc strv done (todo ++ rest)] at run
    rw [List.append_assoc strv done (todo ++ rest)] at skip
    rw [Setting.fixLine, step, expand_cons_none whole]
    show (env.fixLine turns (strv ++ (done ++ (todo ++ rest))) (strv ++ done).length).map ([] ++ ·) = _
    rw [skip, run, Option.map_some, List.nil_append, List.append_assoc, List.append_assoc, List.append_assoc]
  · rcases reads next with ⟨turns, run⟩
    refine ⟨turns + 1, ?_⟩
    rw [Setting.fixLine, step, expand_cons_some whole]
    simp only [run, Option.map_some, List.singleton_append]

theorem fixLine_end (strv : Bytes) : env.fixLine 1 strv strv.length = some [strv] := by
  have behind : strv.drop strv.length = [] := List.drop_length
  rw [Setting.fixLine, Setting.turn, behind]
  simp

/-- What the loop makes of an argument. -/
theorem reads_kept {items : List Item} (plain : ∀ flags ∈ env.flags, Plain flags)
    (valid : ∀ item ∈ items, item.Valid) :
    Reads env (items.flatMap Item.text) (kept env items) := by
  induction items with
  | nil =>
      intro strv
      refine ⟨1, ?_⟩
      rw [List.flatMap_nil, List.append_nil, fixLine_end, kept, expand, List.append_nil]
  | cons item items ih =>
      rcases List.forall_mem_cons.mp valid with ⟨first, others⟩
      have reads := ih others
      intro strv
      rw [List.flatMap_cons]
      cases item with
      | char c =>
          rcases reads (strv ++ [c]) with ⟨turns, run⟩
          have skip := fixLine_skip env first turns strv (items.flatMap Item.text)
          have whole : (Item.char c).unquoted.replacement env = ([c], none) := rfl
          refine ⟨turns, ?_⟩
          rw [List.append_assoc] at run
          rw [Item.text, skip, run, kept, if_neg nofun, expand_cons_none whole, List.append_assoc]
      | flags modifiers =>
          have shape : strv ++ ((Item.flags modifiers).text ++ items.flatMap Item.text) =
              strv ++ 36 :: (modifiers ++ 42 :: items.flatMap Item.text) := by
            rw [Item.text, List.cons_append, List.cons_append, List.append_assoc, List.singleton_append]
          rw [shape, kept]
          split
          · next absent =>
              refine ⟨2, ?_⟩
              rw [Setting.fixLine, turn_dollar, Item.dollar_cuts first absent]
              simp only [fixLine_end]
              rw [expand, List.append_nil]
              rfl
          · next given =>
              have present := Bool.eq_false_iff.mpr given
              exact reads_of_replaces (Item.replaces_flags first plain present) (turn_dollar _) reads
      | option modifiers name =>
          have shape : strv ++ ((Item.option modifiers name).text ++ items.flatMap Item.text) =
              strv ++ 36 :: (modifiers ++ 123 :: (name ++ 125 :: items.flatMap Item.text)) := by
            simp [Item.text]
          rw [shape, kept, if_neg nofun]
          exact reads_of_replaces (Item.replaces_option first.1 first.2) (turn_dollar _) reads
      | letter modifiers c =>
          have shape : strv ++ ((Item.letter modifiers c).text ++ items.flatMap Item.text) =
              strv ++ 36 :: (modifiers ++ c :: items.flatMap Item.text) := by
            simp [Item.text]
          rw [shape, kept, if_neg nofun]
          exact reads_of_replaces (Item.replaces_letter first.1 first.2.1 first.2.2.1 first.2.2.2) (turn_dollar _) reads

/-! ## What is lost -/

/-- The escape asks for quotes, which it does not get. -/
def Item.quoted : Item → Bool
  | .option modifiers _ => modifiers.contains 39
  | _ => false

/-- No name with a value is to be quoted, and where there are no flags, nothing behind their place has a value. -/
def Kept (env : Setting) (items : List Item) : Prop :=
  (∀ item ∈ items, item.quoted = true → item.value env = none) ∧
    ∀ item ∈ items.dropWhile (!·.cuts env), item.value env = none

/-- How many characters an item is replaced by. -/
def Item.size (env : Setting) (item : Item) : Nat :=
  (item.replacement env).1.length + ((item.replacement env).2.map List.length).getD 0

def total (l : List Bytes) : Nat := (l.map List.length).sum

theorem total_expand (items : List Item) : total (entries env items) = (items.map (Item.size env)).sum := by
  induction items with
  | nil => rfl
  | cons item items ih =>
      rw [List.map_cons, List.sum_cons, ← ih]
      rcases whole : item.replacement env with ⟨text, - | next⟩
      · rw [entries, expand_cons_none whole, Item.size, whole]
        simp only [entries, total, List.map_cons, List.sum_cons, List.length_append, Option.map_none, Option.getD_none]
        omega
      · rw [entries, expand_cons_some whole, Item.size, whole]
        simp only [entries, total, List.map_cons, List.sum_cons, List.length_append, Option.map_some, Option.getD_some]
        omega

variable {item : Item} {items : List Item}

theorem value_ne_nil {text : Bytes} (given : item.value env = some text) : text ≠ [] := by
  cases item with
  | char c =>
      rw [← Option.some.inj given]
      exact List.cons_ne_nil c []
  | flags modifiers => exact of_decide_eq_true (Option.mem_filter_iff.mp given).2
  | option modifiers name => exact of_decide_eq_true (Option.mem_filter_iff.mp given).2
  | letter modifiers c => exact of_decide_eq_true (Option.mem_filter_iff.mp given).2

theorem size_of_none (absent : item.value env = none) : item.size env = 0 := by
  rw [Item.size, Item.replacement, absent]
  rfl

theorem size_eq_zero_iff : item.size env = 0 ↔ item.value env = none := by
  refine ⟨fun empty => ?_, size_of_none⟩
  by_contra present
  rcases Option.ne_none_iff_exists'.mp present with ⟨text, given⟩
  have full := List.length_pos_of_ne_nil (value_ne_nil given)
  rw [Item.size, Item.replacement, given] at empty
  cases item with
  | char c =>
      have width : text.length + 0 = 0 := empty
      omega
  | flags modifiers =>
      have width : text.length + 0 = 0 := empty
      omega
  | option modifiers name =>
      simp only [Item.form] at empty
      split at empty
      · cases empty
      · have width : text.length + 0 = 0 := empty
        omega
  | letter modifiers c =>
      simp only [Item.form] at empty
      split at empty
      · have width : text.length + 0 = 0 := empty
        omega
      · split at empty
        · split at empty
          · cases empty
          · cases (Nat.add_eq_zero_iff.mp empty).1
        · split at empty
          · cases empty
          · cases empty

theorem replacement_unquoted (asked : item.quoted = true → item.value env = none) :
    item.unquoted.replacement env = item.replacement env := by
  cases item with
  | option modifiers name =>
      have same : (Item.option modifiers name).unquoted.value env = (Item.option modifiers name).value env := rfl
      rw [Item.replacement, Item.replacement, same]
      rcases given : (Item.option modifiers name).value env with - | text
      · rfl
      · have free : modifiers.contains 39 = false :=
          Bool.eq_false_iff.mpr fun quote => nomatch given.symm.trans (asked quote)
        have less : modifiers.filter (· ≠ 39) = modifiers :=
          List.filter_eq_self.mpr fun d member => decide_eq_true fun equal =>
            Bool.eq_false_iff.mp free (List.contains_iff_mem.mpr (equal ▸ member))
        rw [Item.unquoted, less]
  | char c => rfl
  | flags modifiers => rfl
  | letter modifiers c => rfl

/-- Without its quotes a name is shorter, if it has a value. -/
theorem size_unquoted (env : Setting) (item : Item) : item.unquoted.size env ≤ item.size env ∧
    (item.unquoted.size env = item.size env ↔ (item.quoted = true → item.value env = none)) := by
  by_cases asked : item.quoted = true → item.value env = none
  · rw [Item.size, Item.size, replacement_unquoted asked]
    exact ⟨le_rfl, iff_of_true rfl asked⟩
  · rcases Classical.not_imp.mp asked with ⟨quoted, present⟩
    rcases Option.ne_none_iff_exists'.mp present with ⟨text, given⟩
    cases item with
    | option modifiers name =>
        have same : (Item.option modifiers name).unquoted.value env = some text := given
        have plain : (modifiers.filter (· ≠ 39)).contains 39 = false := Bool.eq_false_iff.mpr fun member =>
          of_decide_eq_true (List.mem_filter.mp (List.contains_iff_mem.mp member)).2 rfl
        have small : (Item.option modifiers name).unquoted.size env = text.length := by
          rw [Item.size, Item.replacement, same]
          show ((if (modifiers.filter (· ≠ 39)).contains 39 = true then _ else text : Bytes)).length + 0 = _
          rw [plain]
          rfl
        have large : (Item.option modifiers name).size env = text.length + 2 := by
          rw [Item.size, Item.replacement, given]
          show ((if modifiers.contains 39 = true then 39 :: text ++ [39] else text : Bytes)).length + 0 = _
          rw [if_pos (show modifiers.contains 39 = true from quoted)]
          simp
        rw [small, large]
        exact ⟨by omega, iff_of_false (by omega) asked⟩
    | char c => cases quoted
    | flags modifiers => cases quoted
    | letter modifiers c => cases quoted

theorem sum_size_eq_zero_iff : (items.map (Item.size env)).sum = 0 ↔ ∀ item ∈ items, item.value env = none := by
  rw [List.sum_eq_zero_iff_forall_eq_nat, List.forall_mem_map]
  exact forall₂_congr fun _ _ => size_eq_zero_iff

theorem kept_cons_of_cuts (cut : item.cuts env = true) :
    Kept env (item :: items) ↔ ∀ other ∈ item :: items, other.value env = none := by
  have whole : (item :: items).dropWhile (!·.cuts env) = item :: items := List.dropWhile_cons_of_neg (by simp [cut])
  rw [Kept, whole]
  exact ⟨And.right, fun absent => ⟨fun other member _ => absent other member, absent⟩⟩

theorem kept_cons_of_goes (goes : item.cuts env = false) :
    Kept env (item :: items) ↔ (item.quoted = true → item.value env = none) ∧ Kept env items := by
  have rest : (item :: items).dropWhile (!·.cuts env) = items.dropWhile (!·.cuts env) :=
    List.dropWhile_cons_of_pos (by simp [goes])
  rw [Kept, Kept, rest, List.forall_mem_cons, and_assoc]

/-- What is done of an argument is no longer than what is asked, and as long only if nothing is lost. -/
theorem size_kept (env : Setting) (items : List Item) :
    ((kept env items).map (Item.size env)).sum ≤ (items.map (Item.size env)).sum ∧
    (((kept env items).map (Item.size env)).sum = (items.map (Item.size env)).sum ↔ Kept env items) := by
  induction items with
  | nil => exact ⟨le_rfl, iff_of_true rfl ⟨fun _ => nofun, fun _ => nofun⟩⟩
  | cons item items ih =>
      rw [kept]
      split
      · next cut =>
          refine ⟨Nat.zero_le _, ?_⟩
          rw [kept_cons_of_cuts cut, ← sum_size_eq_zero_iff]
          exact eq_comm
      · next goes =>
          rw [kept_cons_of_goes (Bool.eq_false_iff.mpr goes), ← (size_unquoted env item).2, ← ih.2, List.map_cons,
            List.map_cons, List.sum_cons, List.sum_cons]
          have first := (size_unquoted env item).1
          have others := ih.1
          exact ⟨Nat.add_le_add first others, by omega⟩

theorem expand_of_silent (silent : ∀ item ∈ items, item.value env = none) : expand env items = ([], []) := by
  induction items with
  | nil => rfl
  | cons item items ih =>
      rcases List.forall_mem_cons.mp silent with ⟨first, others⟩
      have whole : item.replacement env = ([], none) := by rw [Item.replacement, first]
      rw [expand_cons_none whole, ih others]
      rfl

theorem expand_kept (whole : Kept env items) : expand env (kept env items) = expand env items := by
  induction items with
  | nil => rfl
  | cons item items ih =>
      rw [kept]
      split
      · next cut => rw [expand_of_silent ((kept_cons_of_cuts cut).mp whole), expand]
      · next goes =>
          rcases (kept_cons_of_goes (Bool.eq_false_iff.mpr goes)).mp whole with ⟨asked, rest⟩
          rw [expand, expand, replacement_unquoted asked, ih rest]

theorem total_append (l more : List Bytes) : total (l ++ more) = total l + total more := by
  rw [total, List.map_append, List.sum_append]
  rfl

theorem total_filter (l : List Bytes) : total (l.filter (· ≠ [])) = total l := by
  induction l with
  | nil => rfl
  | cons text l ih =>
      rw [List.filter_cons]
      split
      · rw [total, List.map_cons, List.sum_cons, total, List.map_cons, List.sum_cons]
        exact congrArg _ ih
      · next empty =>
          have blank : text = [] := by simpa using empty
          rw [ih, blank, total, total, List.map_cons, List.sum_cons, List.length_nil, Nat.zero_add]

/-- The whole of the expanded command is as asked if every argument is. -/
theorem flatMap_kept_iff (args : List (List Item)) :
    (args.flatMap fun items => entries env (kept env items)).filter (· ≠ []) = singlePass env args ↔
      ∀ items ∈ args, Kept env items := by
  constructor
  · intro same
    have widths : ∀ f : List Item → List Item,
        total ((args.flatMap fun items => entries env (f items)).filter (· ≠ [])) =
          (args.map fun items => ((f items).map (Item.size env)).sum).sum := by
      intro f
      rw [total_filter]
      clear same
      induction args with
      | nil => rfl
      | cons items args ih => rw [List.flatMap_cons, total_append, ih, total_expand, List.map_cons, List.sum_cons]
    have equal := congrArg total same
    have asked := widths id
    rw [widths (kept env)] at equal
    have sums : (args.map fun items => ((kept env items).map (Item.size env)).sum).sum =
        (args.map fun items => (items.map (Item.size env)).sum).sum := equal.trans asked
    clear same equal asked widths
    induction args with
    | nil => exact fun _ => nofun
    | cons items args ih =>
        rw [List.map_cons, List.map_cons, List.sum_cons, List.sum_cons] at sums
        have first := (size_kept env items).1
        have others : (args.map fun items => ((kept env items).map (Item.size env)).sum).sum ≤
            (args.map fun items => (items.map (Item.size env)).sum).sum :=
          List.sum_le_sum fun items _ => (size_kept env items).1
        exact List.forall_mem_cons.mpr ⟨(size_kept env items).2.mp (by omega), ih (by omega)⟩
  · intro whole
    rw [singlePass]
    refine congrArg _ (List.flatMap_congr fun items member => ?_)
    rw [entries, expand_kept (whole items member)]

/-- `Fix_dollars` comes to an end with what is done of every argument. -/
theorem fixDollars_runs {l : LineList} {args : List (List Item)} (plain : ∀ flags ∈ env.flags, Plain flags)
    (clean : ∀ arg ∈ l, 92 ∉ arg) (parsed : List.Forall₂ (fun arg items => Item.parse .plain arg = some items) l args) :
    ∃ turns, env.fixDollars turns l =
      some ((args.flatMap fun items => entries env (kept env items)).filter (· ≠ [])) := by
  have runs : ∃ turns, l.mapM (env.fixLine turns · 0) = some (args.map fun items => entries env (kept env items)) := by
    induction parsed with
    | nil => exact ⟨0, rfl⟩
    | @cons arg items l args first _ ih =>
        rcases List.forall_mem_cons.mp clean with ⟨noSlash, others⟩
        rcases @Item.text_of_parse .plain _ _ trivial noSlash first with ⟨whole, valid⟩
        rcases reads_kept plain valid [] with ⟨turns, run⟩
        rcases ih others with ⟨more, runs⟩
        have arg_eq : arg = items.flatMap Item.text := whole
        have one : env.fixLine turns arg 0 = some (entries env (kept env items)) := arg_eq ▸ run
        refine ⟨max turns more, ?_⟩
        rw [List.mapM_cons, fixLine_mono (Nat.le_max_left turns more) one]
        show (l.mapM (env.fixLine (max turns more) · 0)).bind _ = _
        rw [mapM_mono (Nat.le_max_right turns more) runs]
        rfl
  rcases runs with ⟨turns, run⟩
  refine ⟨turns, ?_⟩
  rw [Setting.fixDollars, run, Option.map_some, List.flatMap_def]

/-- The arguments are expanded in a single pass exactly if no name with a value is to be quoted and nothing with
a value stands behind the place of flags that are not there. -/
theorem fixDollars_singlePass_iff (env : Setting) (plain : ∀ flags ∈ env.flags, Plain flags) (l : LineList)
    (args : List (List Item)) (clean : ∀ arg ∈ l, 92 ∉ arg)
    (parsed : List.Forall₂ (fun arg items => Item.parse .plain arg = some items) l args) :
    (∃ turns, env.fixDollars turns l = some (singlePass env args)) ↔ ∀ items ∈ args, Kept env items := by
  rcases fixDollars_runs plain clean parsed with ⟨turns, run⟩
  rw [← flatMap_kept_iff]
  constructor
  · intro asked
    rcases asked with ⟨more, other⟩
    exact fixDollars_unique run other
  · intro same
    exact ⟨turns, same ▸ run⟩

/-- A queue without settings of its own, and a job. -/
def oneJob (flags : Option Bytes) : Setting where
  accountingFile := none
  spoolDir := none
  remotePrinter := none
  remoteHost := none
  statusFile := none
  printer := some (lit "lp")
  commentTag := none
  pageLength := 66
  pageWidth := 132
  pageX := 0
  pageY := 0
  time := lit "12:00:00"
  pcEntryLineList := []
  info := some [lit "J=cost $5", lit "P=user"]
  nosplit := false
  flags := flags

theorem job_name_expanded :
    ∃ turns, (oneJob none).fixDollars turns [lit "lpf", lit "-J${J}", lit "$0n$l"] =
      some (singlePass (oneJob none) [(lit "lpf").map .char, (lit "-J").map .char ++ [.option [] (lit "J")],
        [.letter (lit "0") 110, .letter [] 108]]) :=
  (fixDollars_singlePass_iff (oneJob none) (fun _ => nofun) _ _ (by decide)
    (.cons rfl (.cons rfl (.cons rfl .nil)))).mpr (by simp [Kept, Item.quoted, Item.cuts, lit])

theorem rest_lost : ¬∀ (env : Setting), (∀ flags ∈ env.flags, Plain flags) →
    ∀ (l : LineList) (args : List (List Item)), (∀ arg ∈ l, 92 ∉ arg) →
      List.Forall₂ (fun arg items => Item.parse .plain arg = some items) l args →
      ∃ turns, env.fixDollars turns l = some (singlePass env args) := by
  intro always
  rcases always (oneJob (some [])) (by simp [oneJob, Plain]) [lit "( lpf $*|cat )"]
    [(lit "( lpf ").map .char ++ .flags [] :: (lit "|cat )").map .char] (by decide) (.cons rfl .nil) with ⟨turns, asked⟩
  have run : (oneJob (some [])).fixDollars 2 [lit "( lpf $*|cat )"] = some [lit "( lpf "] := rfl
  have wanted : singlePass (oneJob (some [])) [(lit "( lpf ").map .char ++ .flags [] :: (lit "|cat )").map .char] =
      [lit "( lpf |cat )"] := rfl
  have same := fixDollars_unique run asked
  rw [wanted] at same
  exact absurd same (by decide)

end FixDollars

end LPRng
