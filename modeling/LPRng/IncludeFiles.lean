import LPRng.Split
import Mathlib.Data.List.TakeDrop

/-!
# Files that include files

`Read_file_list` reads the lines of files into a line list. A line `include names` is replaced by
the lines of the files it names: these are read behind the list, and the lines from the `include`
on are moved behind them, one slot past the end of the list at first.
-/

namespace LPRng

namespace IncludeFiles

/-! ## Moving lines -/

section Memmove

variable {α : Type*}

/-- `memmove` of `n` slots. What lies past the last slot is taken as unused. -/
def memmove (slots : List α) (dst src n : Nat) : List α :=
  slots.take dst ++ (slots.drop src).take n ++ slots.drop (dst + n)

variable {a b c : List α} {x : α}

theorem memmove_append (a r : List α) (k n : Nat) :
    memmove (a ++ r) a.length (a.length + k) n = a ++ ((r.drop k).take n ++ r.drop n) := by
  rw [memmove, List.take_left, List.drop_length_add_append, List.drop_length_add_append,
    List.append_assoc]

/-- The moves of `Read_file_list` behind an `include` line at `start`, where the line list ended at
`stop` before the included lines were read, and `n` lines stand from `start` on. -/
def moveIncluded (list : List α) (start stop n : Nat) : List α :=
  let slots := memmove list list.length start n
  let slots := memmove slots start stop (list.length - start)
  let start := list.length - n
  let slots := memmove slots start (start + 1) n
  slots.take (list.length - 1)

/-- The included lines `c` come to stand where the `include` line `x` stood. -/
theorem moveIncluded_eq (a b c : List α) (x : α) :
    moveIncluded (a ++ (x :: b ++ c)) a.length (a.length + (x :: b).length) (x :: b).length =
      a ++ (c ++ b) := by
  have copied : memmove (a ++ (x :: b ++ c)) (a ++ (x :: b ++ c)).length a.length (x :: b).length =
      a ++ (x :: b ++ (c ++ x :: b)) := by
    rw [memmove, List.take_length, List.drop_left, List.drop_eq_nil_of_le (Nat.le_add_right _ _)]
    simp
  have moved : memmove (a ++ (x :: b ++ (c ++ x :: b))) a.length (a.length + (x :: b).length)
      (c ++ x :: b).length = a ++ (c ++ x :: b ++ x :: b) := by
    have behind : (x :: b ++ (c ++ x :: b)).drop (c ++ x :: b).length = x :: b := by
      rw [← List.append_assoc]
      refine List.drop_left' ?_
      simp only [List.length_append]
      omega
    rw [memmove_append, List.drop_left, List.take_length, behind]
  have removed : memmove (a ++ (c ++ x :: b ++ x :: b)) (a ++ c).length ((a ++ c).length + 1)
      (x :: b).length = a ++ c ++ (b ++ x :: x :: b) := by
    have shape : a ++ (c ++ x :: b ++ x :: b) = a ++ c ++ (x :: b ++ x :: b) := by
      simp only [List.append_assoc]
    rw [shape, memmove_append, List.drop_left, List.cons_append, List.drop_succ_cons, List.drop_zero]
    have block : (b ++ x :: b).take (x :: b).length = b ++ [x] := by
      rw [List.append_cons]
      exact List.take_left' (List.length_append ..)
    rw [block]
    simp only [List.append_assoc, List.singleton_append]
  have tail : (a ++ (x :: b ++ c)).length - a.length = (c ++ x :: b).length := by
    simp only [List.length_append]
    omega
  have start : (a ++ (x :: b ++ c)).length - (x :: b).length = (a ++ c).length := by
    simp only [List.length_append]
    omega
  rw [moveIncluded]
  simp only [copied, tail, moved, start, removed]
  rw [← List.append_assoc (a ++ c), ← List.append_assoc a c b]
  refine List.take_left' ?_
  simp only [List.length_append, List.length_cons]
  omega

end Memmove

/-! ## Reading a file -/

def whitespace : Bytes := lit " \t\n\x0c"

def fileSep : Bytes := lit " \t,;:"

/-- How `Read_file_list` puts the lines of a file into a list. -/
structure Reading where
  sort : Bool
  keysep : Bytes
  uniq : Bool
  trim : UInt8

/-- What `Getprintcap_pathlist` asks for. -/
def printcapReading : Reading := ⟨false, [], false, 1⟩

/-- What `Get_config` asks for. -/
def configReading : Reading := ⟨true, optionValueSep, true, 58⟩

/-- What `stat` and `Checkread` find under a name. -/
inductive FileEntry where
  | missing
  | unreadable
  | text (contents : Bytes)

/-- A piece without the white space at its ends, and without the character that is trimmed in
front, if it is a printed one. -/
def trimPiece (trim : UInt8) (piece : Bytes) : Bytes :=
  let s := piece.dropWhile isSpace
  let s := if s.head? = some trim && 32 ≤ trim && trim < 127 then s.tail else s
  s.rdropWhile isSpace

/-- `Read_file_and_split`, with the text up to the first 0 in it. -/
def Reading.readFileAndSplit (reading : Reading) (list : LineList) (contents : Bytes) : LineList :=
  (pieces lineEnds (cstr contents)).foldl (fun list piece =>
    let piece := trimPiece reading.trim piece
    if piece = [] then list
    else if piece.head? = some 35 then list
    else list.addLineList piece reading.keysep reading.sort reading.uniq) list

/-- The names behind a first word `include`. -/
def includedNames (line : Bytes) : Option Bytes :=
  match line.dropWhile (!whitespace.contains ·) with
  | [] => none
  | _ :: names =>
      if strcasecmp (line.takeWhile (!whitespace.contains ·)) (lit "include") = .eq then some names
      else none

/-- The names in a path. -/
def fileNames (path : Bytes) : List Bytes := split [] path fileSep false [] false true false

/-! ## Reading the files of a path -/

/-- The loop of `Read_file_list` over the `left` lines from `start` to the end of the list, where
`included` reads what an `include` line names. -/
def scanIncludes (included : Bytes → LineList → Option LineList) :
    Nat → Nat → LineList → Option LineList
  | 0, _, list => some list
  | left + 1, start, list =>
      match includedNames (list.getD start []) with
      | none => scanIncludes included left (start + 1) list
      | some names => do
          let stop := list.length
          let list ← included names list
          let n := stop - start
          scanIncludes included left (list.length - n) (moveIncluded list start stop n)

/-- `Read_file_list` with comments and `include` lines taken out and no markers, where `levels`
counts the depths from the current one to the deepest. There is no result where the program
gives up. -/
def Reading.readFileList (reading : Reading) (files : Bytes → FileEntry) :
    Nat → Bool → Bytes → LineList → Option LineList
  | 0, _, _, _ => none
  | levels + 1, required, path, list =>
      (fileNames path).foldlM (fun list file =>
        match files file with
        | .missing => if required then none else some list
        | .unreadable => none
        | .text contents =>
            let start := list.length
            let list := reading.readFileAndSplit list contents
            scanIncludes (reading.readFileList files levels true) (list.length - start) start list) list

/-- The depths from 0 to `maxdepth`, as both callers have it. -/
def maxLevels : Nat := 5

def strictFileSep : Bytes := lit ";:"

/-- One entry of a path list: a filter, or a file whose lines are read. -/
def readEntry (files : Bytes → FileEntry) (required : Bool) (lists : LineList × LineList)
    (entry : Bytes) : Option (LineList × LineList) :=
  if entry.head? = some 124 then some (lists.1, lists.2.addLineList entry [] false false)
  else if entry.head? = some 47 then
    (printcapReading.readFileList files maxLevels required entry lists.1).map (·, lists.2)
  else none

def pathEntries (path : Bytes) : List Bytes := split [] path strictFileSep false [] false true false

/-- `Getprintcap_pathlist`, with the raw lines and the filters. -/
def getprintcapPathlist (files : Bytes → FileEntry) (required : Bool) (path : Bytes)
    (lists : LineList × LineList) : Option (LineList × LineList) :=
  (pathEntries path).foldlM (readEntry files required) lists

/-! ## Included text -/

/-- The lines of a file: what is left of its pieces, without the empty ones and the comments. -/
def fileLines (trim : UInt8) (contents : Bytes) : List Bytes :=
  ((pieces lineEnds (cstr contents)).map (trimPiece trim)).filter
    fun line => line ≠ [] ∧ line.head? ≠ some 35

/-- The lines of a text with each `include` line replaced in its place. -/
def expandLines (included : Bytes → Option (List Bytes)) (lines : List Bytes) :
    Option (List Bytes) :=
  lines.flatMapM fun line =>
    match includedNames line with
    | none => some [line]
    | some names => included names

/-- The text of the files of a path, one behind the other, with all `include` lines replaced. There
is none where a file that must be read is not there, or lies too deep. -/
def expandPath (trim : UInt8) (files : Bytes → FileEntry) :
    Nat → Bool → Bytes → Option (List Bytes)
  | 0, _, _ => none
  | levels + 1, required, path =>
      (fileNames path).flatMapM fun file =>
        match files file with
        | .missing => if required then none else some []
        | .unreadable => none
        | .text contents => expandLines (expandPath trim files levels true) (fileLines trim contents)

/-- Every file that must be read can be read, and none lies deeper than `levels`. -/
def readable (trim : UInt8) (files : Bytes → FileEntry) : Nat → Bool → Bytes → Bool
  | 0, _, _ => false
  | levels + 1, required, path =>
      (fileNames path).all fun file =>
        match files file with
        | .missing => !required
        | .unreadable => false
        | .text contents =>
            (fileLines trim contents).all fun line =>
              (includedNames line).all (readable trim files levels true)

variable {reading : Reading} {list : LineList}

theorem readFileAndSplit_eq (contents : Bytes) :
    reading.readFileAndSplit list contents = (fileLines reading.trim contents).foldl
      (fun list line => list.addLineList line reading.keysep reading.sort reading.uniq) list := by
  unfold Reading.readFileAndSplit fileLines
  induction pieces lineEnds (cstr contents) generalizing list with
  | nil => rfl
  | cons piece rest ih =>
      rw [List.foldl_cons, List.map_cons, List.filter_cons, ih]
      by_cases empty : trimPiece reading.trim piece = []
      · simp [empty]
      · by_cases comment : (trimPiece reading.trim piece).head? = some 35 <;> simp [empty, comment]

theorem readFileAndSplit_unsorted (unsorted : reading.sort = false) (contents : Bytes) :
    reading.readFileAndSplit list contents = list ++ fileLines reading.trim contents := by
  rw [readFileAndSplit_eq]
  induction fileLines reading.trim contents generalizing list with
  | nil => exact (List.append_nil list).symm
  | cons line lines ih =>
      have added : list.addLineList line reading.keysep reading.sort reading.uniq = list ++ [line] := by
        rw [unsorted]
        rfl
      rw [List.foldl_cons, added, ih, List.append_assoc, List.singleton_append]

theorem map_append_append (before new : List Bytes) (rest : Option (List Bytes)) :
    (rest.map (new ++ ·)).map (before ++ ·) = rest.map (before ++ new ++ ·) := by
  rw [Option.map_map]
  exact congrArg (Option.map · rest) (funext fun _ => (List.append_assoc ..).symm)

section FlatMapM

variable {α : Type} {f : α → Option (List Bytes)}

theorem flatMapM_cons (a : α) (l : List α) :
    (a :: l).flatMapM f = (f a).bind fun new => (l.flatMapM f).map (new ++ ·) := by
  rw [List.flatMapM_cons]
  cases f a with
  | none => rfl
  | some new => cases l.flatMapM f <;> rfl

/-- What is appended to a list step by step. -/
theorem foldlM_append {step : LineList → α → Option LineList}
    (appends : ∀ list a, step list a = (f a).map (list ++ ·)) (l : List α) (list : LineList) :
    l.foldlM step list = (l.flatMapM f).map (list ++ ·) := by
  induction l generalizing list with
  | nil => exact congrArg some (List.append_nil list).symm
  | cons a l ih =>
      rw [List.foldlM_cons, appends, flatMapM_cons]
      cases f a with
      | none => rfl
      | some new => exact (ih (list ++ new)).trans (map_append_append ..).symm

theorem isSome_flatMapM (l : List α) : (l.flatMapM f).isSome = l.all fun a => (f a).isSome := by
  induction l with
  | nil => rfl
  | cons a l ih =>
      rw [flatMapM_cons, List.all_cons, ← ih]
      cases f a with
      | none => rfl
      | some new => exact Option.isSome_map

end FlatMapM

/-- The lines from `start` on are expanded in their place, if the files are read behind the list. -/
theorem scanIncludes_eq {included : Bytes → LineList → Option LineList}
    {expanded : Bytes → Option (List Bytes)}
    (behind : ∀ names list, included names list = (expanded names).map (list ++ ·))
    (lines : List Bytes) (before : LineList) :
    scanIncludes included lines.length before.length (before ++ lines) =
      (expandLines expanded lines).map (before ++ ·) := by
  induction lines generalizing before with
  | nil => rfl
  | cons line lines ih =>
      have current : (before ++ line :: lines).getD before.length [] = line := by simp
      rw [List.length_cons, scanIncludes, current, expandLines, flatMapM_cons, ← expandLines]
      cases includedNames line with
      | none =>
          have step := ih (before ++ [line])
          rw [List.length_append, List.append_assoc] at step
          exact step.trans (map_append_append ..).symm
      | some names =>
          dsimp only
          rw [behind]
          cases expanded names with
          | none => rfl
          | some new =>
              have held : (before ++ line :: lines).length - before.length = (line :: lines).length := by
                rw [List.length_append, Nat.add_sub_cancel_left]
              have start : (before ++ line :: lines ++ new).length - (line :: lines).length =
                  (before ++ new).length := by
                simp only [List.length_append]
                omega
              have moved : moveIncluded (before ++ line :: lines ++ new) before.length
                  (before ++ line :: lines).length (line :: lines).length = before ++ new ++ lines := by
                rw [List.length_append, List.append_assoc, moveIncluded_eq, List.append_assoc]
              rw [held]
              refine (congrArg₂ _ start moved).trans ((ih (before ++ new)).trans ?_)
              exact (map_append_append ..).symm

/-- Without sorting, the lines a path names are appended to the list as the text in which each
`include` line is replaced in its place. -/
theorem readFileList_append (unsorted : reading.sort = false) (files : Bytes → FileEntry)
    (levels : Nat) (required : Bool) (path : Bytes) (list : LineList) :
    reading.readFileList files levels required path list =
      (expandPath reading.trim files levels required path).map (list ++ ·) := by
  induction levels generalizing required path list with
  | zero => rfl
  | succ levels ih =>
      rw [Reading.readFileList, expandPath]
      refine foldlM_append (fun list file => ?_) (fileNames path) list
      cases files file with
      | missing => cases required <;> simp
      | unreadable => rfl
      | text contents =>
          dsimp only
          rw [readFileAndSplit_unsorted unsorted, List.length_append, Nat.add_sub_cancel_left]
          exact scanIncludes_eq (ih true) (fileLines reading.trim contents) list

theorem isSome_expandPath (trim : UInt8) (files : Bytes → FileEntry) (levels : Nat)
    (required : Bool) (path : Bytes) :
    (expandPath trim files levels required path).isSome = readable trim files levels required path := by
  induction levels generalizing required path with
  | zero => rfl
  | succ levels ih =>
      rw [expandPath, readable, isSome_flatMapM]
      refine congrArg (fileNames path).all (funext fun file => ?_)
      cases files file with
      | missing => cases required <;> rfl
      | unreadable => rfl
      | text contents =>
          dsimp only
          rw [expandLines, isSome_flatMapM]
          refine congrArg (fileLines trim contents).all (funext fun line => ?_)
          cases includedNames line with
          | none => rfl
          | some names => exact ih true names

/-! ## Printcap files -/

/-- The lines that an entry of a path list stands for. -/
def entryLines (files : Bytes → FileEntry) (required : Bool) (entry : Bytes) : Option (List Bytes) :=
  if entry.head? = some 124 then some []
  else if entry.head? = some 47 then expandPath printcapReading.trim files maxLevels required entry
  else none

theorem readEntry_eq (files : Bytes → FileEntry) (required : Bool) (raw filters : LineList)
    (entry : Bytes) :
    readEntry files required (raw, filters) entry = (entryLines files required entry).map
      fun lines => (raw ++ lines, filters ++ [entry].filter (·.head? = some 124)) := by
  unfold readEntry entryLines
  by_cases filter : entry.head? = some 124
  · simp [filter, LineList.addLineList]
  · by_cases file : entry.head? = some 47
    · rw [if_neg filter, if_pos file, if_neg filter, if_pos file, readFileList_append rfl,
        Option.map_map]
      simp [filter, Function.comp_def]
    · simp [filter, file]

/-- The raw lines are those of all files of the path list, in order. -/
theorem getprintcapPathlist_eq (files : Bytes → FileEntry) (required : Bool) (path : Bytes)
    (raw filters : LineList) :
    getprintcapPathlist files required path (raw, filters) =
      ((pathEntries path).flatMapM (entryLines files required)).map
        fun lines => (raw ++ lines, filters ++ (pathEntries path).filter (·.head? = some 124)) := by
  unfold getprintcapPathlist
  induction pathEntries path generalizing raw filters with
  | nil => simp
  | cons entry rest ih =>
      rw [List.foldlM_cons, flatMapM_cons, readEntry_eq]
      cases entryLines files required entry with
      | none => rfl
      | some lines =>
          refine (ih (raw ++ lines) _).trans ?_
          rw [Option.bind_some, Option.map_map, List.append_assoc, ← List.filter_append]
          simp only [Function.comp_def, List.append_assoc, List.singleton_append]

/-- What `Getprintcap_pathlist` reads of a file with all files that it includes is the text with
each `include` line replaced in its place, put behind the lines that are there. -/
theorem readPrintcap_expanded {files : Bytes → FileEntry} {required : Bool} {path : Bytes}
    (given : readable printcapReading.trim files maxLevels required path) (raw : LineList) :
    ∃ lines, expandPath printcapReading.trim files maxLevels required path = some lines ∧
      printcapReading.readFileList files maxLevels required path raw = some (raw ++ lines) := by
  rw [← isSome_expandPath, Option.isSome_iff_exists] at given
  obtain ⟨lines, expanded⟩ := given
  refine ⟨lines, expanded, ?_⟩
  rw [readFileList_append rfl, expanded]
  rfl

/-- A printcap file that includes two others, the second of which includes a third. -/
def printcapFiles (name : Bytes) : FileEntry :=
  if name = lit "/etc/printcap" then .text (lit "# all queues\nlp:sd=/a\ninclude /b, /c\nlast:sd=/d\n")
  else if name = lit "/b" then .text (lit "b1\nb2\n")
  else if name = lit "/c" then .text (lit "Include /e\nc1")
  else if name = lit "/e" then .text (lit "\n  e1\n")
  else .missing

theorem printcapFiles_read :
    printcapReading.readFileList printcapFiles maxLevels true (lit "/etc/printcap") [lit "first"] =
      some ([lit "first"] ++
        [lit "lp:sd=/a", lit "b1", lit "b2", lit "e1", lit "c1", lit "last:sd=/d"]) := by
  have given : readable 1 printcapFiles maxLevels true (lit "/etc/printcap") = true := by
    decide
  have text : expandPath 1 printcapFiles maxLevels true (lit "/etc/printcap") =
      some [lit "lp:sd=/a", lit "b1", lit "b2", lit "e1", lit "c1", lit "last:sd=/d"] := by
    decide
  obtain ⟨lines, expanded, read⟩ := readPrintcap_expanded given [lit "first"]
  rw [read, Option.some.inj (expanded.symm.trans text)]

end IncludeFiles

end LPRng
