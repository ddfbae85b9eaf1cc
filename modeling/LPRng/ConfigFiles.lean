import LPRng.IncludeFiles

/-!
# Configuration files that include files

`Get_config` reads its files into a list that is sorted by keys and holds each key once. The lines
an `include` line stands for are put in at their places, and the lines from the `include` line on are
moved as if they had been put behind the list.
-/

namespace LPRng

namespace IncludeFiles

/-! ## What the list should hold -/

/-- A list made from the lines of some text: sorted, without `include` lines, with an entry for each
key, and this entry the last line with the key. -/
structure Settles (lines : List Bytes) (list : LineList) : Prop where
  sorted : KeySorted lineKey list
  expanded : ∀ line ∈ list, includedNames line = none
  kept : ∀ line ∈ lines, ∃ entry ∈ list, lineKey entry = lineKey line
  last : ∀ entry ∈ list, ∃ before after, lines = before ++ entry :: after ∧
    ∀ line ∈ after, lineKey line ≠ lineKey entry

/-- The lines of a file, and the text they stand for if there is one `include` line among them at
most, it names files without such lines, its key is nowhere else, it is not put in front of the lines
that were there, its files have new keys only if it comes to stand last and only behind it, and none
of their keys is set again behind it. -/
inductive Orderly (files : Bytes → FileEntry) (list : LineList) : List Bytes → List Bytes → Prop
  | plain {lines : List Bytes} (single : ∀ line ∈ lines, includedNames line = none) :
      Orderly files list lines lines
  | includes {before after included : List Bytes} {line names : Bytes}
      (single : ∀ other ∈ before ++ after, includedNames other = none)
      (named : includedNames line = some names)
      (flat : expandPath configReading.trim files 1 true names = some included)
      (alone : ∀ other ∈ list ++ (before ++ after) ++ included, lineKey other ≠ lineKey line)
      (scanned : list.length ≤
        (keysBelow lineKey (lineKey line) (insertInto lineKey list (before ++ after))).length)
      (fresh : ∀ new ∈ included, (∃ other ∈ list ++ (before ++ after), lineKey other = lineKey new) ∨
        lineKey line < lineKey new ∧ ∀ other ∈ list ++ (before ++ after), lineKey other < lineKey line)
      (kept : ∀ new ∈ included, ∀ other ∈ after, lineKey new ≠ lineKey other) :
      Orderly files list (before ++ line :: after) (before ++ included ++ after)

/-- The files of a path, read behind some text, and the text with them. -/
inductive OrderlyFiles (files : Bytes → FileEntry) (required : Bool) :
    List Bytes → List Bytes → List Bytes → Prop
  | done {lines : List Bytes} : OrderlyFiles files required lines [] lines
  | missing {lines names total : List Bytes} {file : Bytes} (absent : files file = .missing)
      (optional : required = false) (rest : OrderlyFiles files required lines names total) :
      OrderlyFiles files required lines (file :: names) total
  | text {lines names new total : List Bytes} {file contents : Bytes}
      (found : files file = .text contents)
      (orderly : Orderly files (insertAll lineKey lines) (fileLines configReading.trim contents) new)
      (rest : OrderlyFiles files required (lines ++ new) names total) :
      OrderlyFiles files required lines (file :: names) total

/-! ## Lines read into the sorted list -/

section Sorted

variable {list : LineList} {lines : List Bytes}

theorem addLineList_sorted (sorted : KeySorted lineKey list) (line : Bytes) :
    list.addLineList line optionValueSep true true = insertKey lineKey line list := by
  have tells : list.Tells lineKey (keyOf optionValueSep line) optionValueSep :=
    ⟨sorted, fun _ _ => strcasecmp_compares _ _⟩
  exact tells.addLineList rfl

theorem readFileAndSplit_sorted (sorted : KeySorted lineKey list) (contents : Bytes) :
    configReading.readFileAndSplit list contents =
      insertInto lineKey list (fileLines configReading.trim contents) := by
  rw [readFileAndSplit_eq]
  generalize fileLines configReading.trim contents = lines
  induction lines generalizing list with
  | nil => rfl
  | cons line lines ih =>
      have added : list.addLineList line configReading.keysep configReading.sort configReading.uniq =
          insertKey lineKey line list := addLineList_sorted sorted line
      rw [List.foldl_cons, added, ih sorted.insertKey]
      rfl

variable {included : Bytes → LineList → Option LineList} {left start : Nat}

/-- Without `include` lines from `start` on, the scan changes nothing. -/
theorem scanIncludes_none (none_ : ∀ i ≥ start, includedNames (list.getD i []) = none) :
    scanIncludes included left start list = some list := by
  induction left generalizing start with
  | zero => rfl
  | succ left ih =>
      rw [scanIncludes, none_ start (Nat.le_refl _)]
      exact ih fun i behind => none_ i (Nat.le_of_succ_le behind)

theorem scanIncludes_skip {n : Nat}
    (none_ : ∀ i ≥ start, i < start + n → includedNames (list.getD i []) = none) :
    scanIncludes included (n + left) start list = scanIncludes included left (start + n) list := by
  induction n generalizing start with
  | zero => rw [Nat.zero_add, Nat.add_zero]
  | succ n ih =>
      rw [Nat.add_right_comm, scanIncludes, none_ start (Nat.le_refl _) (by omega)]
      refine (ih fun i low high => none_ i (by omega) (by omega)).trans ?_
      rw [Nat.add_right_comm, Nat.add_assoc]

theorem scanIncludes_found {names : Bytes} {list' : LineList}
    (named : includedNames (list.getD start []) = some names) (read : included names list = some list') :
    scanIncludes included (left + 1) start list =
      scanIncludes included left (list'.length - (list.length - start))
        (moveIncluded list' start list.length (list.length - start)) := by
  rw [scanIncludes, named]
  dsimp only
  rw [read]
  rfl

theorem includedNames_getD (none_ : ∀ line ∈ list, includedNames line = none) (i : Nat) :
    includedNames (list.getD i []) = none := by
  rw [List.getD_eq_getElem?_getD]
  rcases Nat.lt_or_ge i list.length with inside | outside
  · rw [List.getElem?_eq_getElem inside]
    exact none_ _ (List.getElem_mem inside)
  · rw [List.getElem?_eq_none outside]
    rfl

theorem mem_of_mem_insertInto {line : Bytes} (member : line ∈ insertInto lineKey list lines) :
    line ∈ list ∨ line ∈ lines := by
  rcases mem_insertInto.mp member with ⟨there, -⟩ | ⟨before, after, rfl, -⟩
  · exact .inl there
  · exact .inr (List.mem_append_right _ List.mem_cons_self)

end Sorted

/-! ## Files without `include` lines -/

section Flat

/-- `Read_file_list` for one file. -/
def Reading.readFile (reading : Reading) (files : Bytes → FileEntry) (levels : Nat) (required : Bool)
    (list : LineList) (file : Bytes) : Option LineList :=
  match files file with
  | .missing => if required then none else some list
  | .unreadable => none
  | .text contents =>
      let start := list.length
      let list := reading.readFileAndSplit list contents
      scanIncludes (reading.readFileList files levels true) (list.length - start) start list

theorem readFileList_succ (reading : Reading) (files : Bytes → FileEntry) (levels : Nat)
    (required : Bool) (path : Bytes) (list : LineList) :
    reading.readFileList files (levels + 1) required path list =
      (fileNames path).foldlM (reading.readFile files levels required) list := rfl

/-- The text of one file. -/
def expandFile (trim : UInt8) (files : Bytes → FileEntry) (levels : Nat) (required : Bool)
    (file : Bytes) : Option (List Bytes) :=
  match files file with
  | .missing => if required then none else some []
  | .unreadable => none
  | .text contents => expandLines (expandPath trim files levels true) (fileLines trim contents)

variable {files : Bytes → FileEntry} {trim : UInt8} {file line : Bytes} {new lines : List Bytes}
  {included : Bytes → Option (List Bytes)}

theorem expandLines_append {before : List Bytes} (single : ∀ line ∈ before, includedNames line = none)
    (lines : List Bytes) :
    expandLines included (before ++ lines) = (expandLines included lines).map (before ++ ·) := by
  induction before with
  | nil => simp
  | cons line before ih =>
      obtain ⟨first, rest⟩ := List.forall_mem_cons.mp single
      rw [List.cons_append, expandLines, flatMapM_cons, first, ← expandLines, ih rest]
      exact map_append_append [line] before _

theorem expandLines_plain (single : ∀ line ∈ lines, includedNames line = none) :
    expandLines included lines = some lines := by
  have whole : expandLines included (lines ++ []) = _ := expandLines_append single []
  rw [List.append_nil] at whole
  exact whole.trans (congrArg some (List.append_nil lines))

theorem of_expandLines_none (expanded : expandLines (fun _ => none) lines = some new) :
    (∀ line ∈ lines, includedNames line = none) ∧ new = lines := by
  have single : ∀ line ∈ lines, includedNames line = none := by
    intro line member
    have whole : (expandLines (fun _ => none) lines).isSome = true := by
      rw [expanded]
      rfl
    rw [expandLines, isSome_flatMapM, List.all_eq_true] at whole
    have here := whole line member
    cases named : includedNames line with
    | none => rfl
    | some names =>
        rw [named] at here
        cases here
  exact ⟨single, Option.some.inj (expanded.symm.trans (expandLines_plain single))⟩

/-- What a file holds that includes no others. -/
theorem of_expandFile (expanded : expandFile trim files 0 true file = some new) :
    ∃ contents, files file = .text contents ∧ new = fileLines trim contents ∧
      ∀ line ∈ new, includedNames line = none := by
  unfold expandFile at expanded
  cases entry : files file with
  | missing => simp [entry] at expanded
  | unreadable => simp [entry] at expanded
  | text contents =>
      rw [entry] at expanded
      obtain ⟨single, same⟩ := of_expandLines_none expanded
      exact ⟨contents, rfl, same, same ▸ single⟩

theorem expandFile_flat (expanded : expandFile trim files 0 true file = some new) (levels : Nat) :
    expandFile trim files levels true file = some new := by
  obtain ⟨contents, found, rfl, single⟩ := of_expandFile expanded
  rw [expandFile, found]
  exact expandLines_plain single

theorem expandFiles_flat {names : List Bytes} (levels : Nat)
    (expanded : names.flatMapM (expandFile trim files 0 true) = some new) :
    names.flatMapM (expandFile trim files levels true) = some new := by
  induction names generalizing new with
  | nil => exact expanded
  | cons file names ih =>
      rw [flatMapM_cons] at expanded ⊢
      obtain ⟨first, here, rest⟩ := Option.bind_eq_some_iff.mp expanded
      obtain ⟨others, there, rfl⟩ := Option.map_eq_some_iff.mp rest
      rw [expandFile_flat here, ih there]
      rfl

end Flat

/-! ## The list while an include line is in it -/

/-- A sorted list with one `include` line, between the lines below and above it. -/
structure Pivot (line : Bytes) (list lows highs : LineList) : Prop where
  parts : list = lows ++ ([line] ++ highs)
  sorted : KeySorted lineKey list
  single : ∀ other ∈ lows ++ highs, includedNames other = none

namespace Pivot

variable {line : Bytes} {list lows highs : LineList} {lines : List Bytes}

theorem sorted_lows (pivot : Pivot line list lows highs) : KeySorted lineKey lows := by
  have sorted := pivot.sorted
  rw [pivot.parts] at sorted
  exact (List.pairwise_append.mp sorted).1

theorem sorted_highs (pivot : Pivot line list lows highs) : KeySorted lineKey highs := by
  have sorted := pivot.sorted
  rw [pivot.parts] at sorted
  exact (List.pairwise_append.mp (List.pairwise_append.mp sorted).2.1).2.1

theorem low (pivot : Pivot line list lows highs) : ∀ other ∈ lows, lineKey other < lineKey line := by
  have sorted := pivot.sorted
  rw [pivot.parts] at sorted
  exact fun other member => (List.pairwise_append.mp sorted).2.2 other member line List.mem_cons_self

theorem high (pivot : Pivot line list lows highs) : ∀ other ∈ highs, lineKey line < lineKey other := by
  have sorted := pivot.sorted
  rw [pivot.parts] at sorted
  exact (List.pairwise_cons.mp (List.pairwise_append.mp sorted).2.1).1

theorem at_line (line : Bytes) : ∀ other ∈ [line], lineKey other = lineKey line := by
  intro other member
  rw [List.mem_singleton.mp member]

/-- Lines below the `include` line take the places of lines that are there. -/
def Fits (line : Bytes) (lows : LineList) (lines : List Bytes) : Prop :=
  ∀ new ∈ lines, includedNames new = none ∧ lineKey new ≠ lineKey line ∧
    (lineKey new < lineKey line → ∃ other ∈ lows, lineKey other = lineKey new)

theorem insertInto (pivot : Pivot line list lows highs) (fits : Fits line lows lines) :
    Pivot line (insertInto lineKey list lines)
      (LPRng.insertInto lineKey lows (keysBelow lineKey (lineKey line) lines))
      (LPRng.insertInto lineKey highs (keysAbove lineKey (lineKey line) lines)) := by
  refine ⟨?_, pivot.sorted.insertInto lines, fun other member => ?_⟩
  · rw [pivot.parts]
    exact insertInto_place pivot.low (at_line line) pivot.high fun new member => (fits new member).2.1
  · rcases List.mem_append.mp member with below | above
    · rcases mem_of_mem_insertInto below with old | new
      · exact pivot.single other (List.mem_append_left _ old)
      · exact (fits other (mem_keysBelow.mp new).1).1
    · rcases mem_of_mem_insertInto above with old | new
      · exact pivot.single other (List.mem_append_right _ old)
      · exact (fits other (mem_keysAbove.mp new).1).1

theorem length_lows (pivot : Pivot line list lows highs) (fits : Fits line lows lines) :
    (LPRng.insertInto lineKey lows (keysBelow lineKey (lineKey line) lines)).length = lows.length := by
  refine pivot.sorted_lows.length_insertInto fun new member => ?_
  obtain ⟨inside, below⟩ := mem_keysBelow.mp member
  exact (fits new inside).2.2 below

theorem fits_insertInto {more : List Bytes} (fits : Fits line lows lines) :
    Fits line (LPRng.insertInto lineKey lows more) lines := by
  intro new member
  obtain ⟨single, other, known⟩ := fits new member
  exact ⟨single, other, fun below => exists_mem_insertInto.mpr (.inl (known below))⟩

theorem getD (pivot : Pivot line list lows highs) :
    list.getD lows.length [] = line ∧
      ∀ i, i ≠ lows.length → includedNames (list.getD i []) = none := by
  rw [pivot.parts]
  refine ⟨by simp, fun i other => ?_⟩
  rcases Nat.lt_or_ge i lows.length with before | behind
  · rw [List.getD_eq_getElem?_getD, List.getElem?_append_left before, ← List.getD_eq_getElem?_getD]
    exact includedNames_getD (fun other member => pivot.single other (List.mem_append_left _ member)) i
  · have place : i = lows.length + 1 + (i - lows.length - 1) := by omega
    rw [List.getD_eq_getElem?_getD, List.getElem?_append_right behind,
      List.getElem?_append_right (by simp; omega), ← List.getD_eq_getElem?_getD]
    exact includedNames_getD (fun other member => pivot.single other (List.mem_append_right _ member)) _

/-- A file that includes no others is read around the `include` line. -/
theorem readFile (pivot : Pivot line list lows highs) {files : Bytes → FileEntry} {file : Bytes}
    (expanded : expandFile configReading.trim files 0 true file = some lines)
    (fits : Fits line lows lines) (levels : Nat) :
    configReading.readFile files levels true list file = some (LPRng.insertInto lineKey list lines) := by
  obtain ⟨contents, found, rfl, -⟩ := of_expandFile expanded
  rw [Reading.readFile, found]
  dsimp only
  rw [readFileAndSplit_sorted pivot.sorted]
  refine scanIncludes_none fun i behind => (pivot.insertInto fits).getD.2 i ?_
  have length : list.length = lows.length + (1 + highs.length) := by
    rw [pivot.parts, List.length_append, List.length_append, List.length_singleton]
  rw [pivot.length_lows fits]
  omega

theorem readFiles {files : Bytes → FileEntry} {names : List Bytes}
    (pivot : Pivot line list lows highs)
    (expanded : names.flatMapM (expandFile configReading.trim files 0 true) = some lines)
    (fits : Fits line lows lines) (levels : Nat) :
    names.foldlM (configReading.readFile files levels true) list =
      some (LPRng.insertInto lineKey list lines) := by
  induction names generalizing list lows highs lines with
  | nil =>
      obtain rfl : [] = lines := Option.some.inj expanded
      rfl
  | cons file names ih =>
      rw [flatMapM_cons] at expanded
      obtain ⟨first, here, rest⟩ := Option.bind_eq_some_iff.mp expanded
      obtain ⟨others, there, rfl⟩ := Option.map_eq_some_iff.mp rest
      obtain ⟨fits, fitsRest⟩ := List.forall_mem_append.mp fits
      rw [List.foldlM_cons, pivot.readFile here fits levels, insertInto_append]
      exact ih (pivot.insertInto fits) there (fits_insertInto fitsRest)

variable {list' lows' highs' : LineList}

/-- The moves take the `include` line out, if lines were put in only as the last. -/
theorem moveIncluded (pivot : Pivot line list lows highs) (pivot' : Pivot line list' lows' highs')
    (same : lows'.length = lows.length) (last : highs = [] ∨ highs'.length = highs.length) :
    moveIncluded list' lows.length list.length (list.length - lows.length) = lows' ++ highs' := by
  have held : list.length = lows.length + (highs.length + 1) := by
    rw [pivot.parts, List.length_append]
    rfl
  have turned : highs'.drop highs.length ++ highs'.take highs.length = highs' := by
    rcases last with rfl | whole
    · exact List.append_nil _
    · rw [← whole, List.drop_length, List.take_length, List.nil_append]
  have shorter : highs.length ≤ highs'.length := by
    rcases last with rfl | whole
    · exact Nat.zero_le _
    · exact whole.ge
  have block : (line :: highs'.take highs.length).length = highs.length + 1 := by
    rw [List.length_cons, List.length_take, Nat.min_eq_left shorter]
  have moved := moveIncluded_eq lows' (highs'.take highs.length) (highs'.drop highs.length) line
  rw [List.cons_append, List.take_append_drop, block, same, turned] at moved
  rw [held, Nat.add_sub_cancel_left, pivot'.parts]
  exact moved

end Pivot

/-! ## A file -/

section File

variable {files : Bytes → FileEntry} {list : LineList} {before after included lines new : List Bytes}
  {line names : Bytes}

/-- The list once the lines of the file are in it. -/
theorem exists_pivot (sorted : KeySorted lineKey list)
    (single : ∀ other ∈ list ++ (before ++ after), includedNames other = none)
    (alone : ∀ other ∈ list ++ (before ++ after), lineKey other ≠ lineKey line) :
    ∃ lows highs, Pivot line (insertInto lineKey list (before ++ line :: after)) lows highs ∧
      insertInto lineKey list (before ++ after) = lows ++ highs ∧
      keysBelow lineKey (lineKey line) (insertInto lineKey list (before ++ after)) = lows := by
  have inside : ∀ other ∈ insertInto lineKey list (before ++ after),
      other ∈ list ++ (before ++ after) := fun other member =>
    List.mem_append.mpr (mem_of_mem_insertInto member)
  have whole : insertInto lineKey list (before ++ line :: after) =
      insertKey lineKey line (insertInto lineKey list (before ++ after)) := by
    have swapped : insertInto lineKey (insertInto lineKey list before) ([line] ++ after) =
        insertInto lineKey (insertInto lineKey list before) (after ++ [line]) := by
      refine (sorted.insertInto before).insertInto_comm fun first here other member => ?_
      rw [List.mem_singleton.mp here]
      exact (alone other (List.mem_append_right _ (List.mem_append_right _ member))).symm
    rw [insertInto_append, insertInto_append]
    exact swapped.trans insertInto_append
  obtain ⟨lows, found, highs, around⟩ := (sorted.insertInto (before ++ after)).exists_around (lineKey line)
  cases found with
  | some other =>
      have member : other ∈ insertInto lineKey list (before ++ after) := by
        rw [around.parts]
        exact List.mem_append_right _ List.mem_cons_self
      exact absurd (around.equal other rfl) (alone other (inside other member))
  | none =>
      refine ⟨lows, highs, ⟨?_, sorted.insertInto _, fun other member => ?_⟩, around.parts, around.filter_low⟩
      · rw [whole, around.insertKey_eq]
        rfl
      · refine single other (inside other ?_)
        rw [around.parts]
        exact member

theorem single_of_flat {names : List Bytes} {trim : UInt8}
    (flat : names.flatMapM (expandFile trim files 0 true) = some included) :
    ∀ new ∈ included, includedNames new = none := by
  induction names generalizing included with
  | nil =>
      obtain rfl : [] = included := Option.some.inj flat
      exact fun _ => nofun
  | cons file names ih =>
      rw [flatMapM_cons] at flat
      obtain ⟨first, here, rest⟩ := Option.bind_eq_some_iff.mp flat
      obtain ⟨others, there, rfl⟩ := Option.map_eq_some_iff.mp rest
      obtain ⟨_, -, -, single⟩ := of_expandFile here
      exact List.forall_mem_append.mpr ⟨single, ih there⟩

/-- The scan ends with the list the whole text is put into. -/
theorem scanIncludes_orderly (sorted : KeySorted lineKey list)
    (single : ∀ other ∈ list, includedNames other = none) (orderly : Orderly files list lines new)
    (levels : Nat) :
    scanIncludes (configReading.readFileList files (levels + 1) true)
      ((insertInto lineKey list lines).length - list.length) list.length (insertInto lineKey list lines) =
      some (insertInto lineKey list new) := by
  cases orderly with
  | plain plain =>
      refine scanIncludes_none fun i _ => includedNames_getD (fun other member => ?_) i
      rcases mem_of_mem_insertInto member with old | read
      · exact single other old
      · exact plain other read
  | @includes before after included line names plain named flat alone scanned fresh kept =>
      obtain ⟨aloneThere, aloneIncluded⟩ := List.forall_mem_append.mp alone
      obtain ⟨lows, highs, pivot, parts, below⟩ :=
        exists_pivot sorted (List.forall_mem_append.mpr ⟨single, plain⟩) aloneThere
      have known : ∀ key, (∃ other ∈ list ++ (before ++ after), lineKey other = key) →
          ∃ other ∈ lows ++ highs, lineKey other = key := by
        rintro key ⟨other, member, same⟩
        rw [← parts]
        rcases List.mem_append.mp member with old | read
        · exact exists_mem_insertInto.mpr (.inl ⟨other, old, same⟩)
        · exact exists_mem_insertInto.mpr (.inr ⟨other, read, same⟩)
      have fits : Pivot.Fits line lows included := by
        intro other member
        refine ⟨single_of_flat flat other member, aloneIncluded other member, fun less => ?_⟩
        rcases fresh other member with there | ⟨greater, -⟩
        · obtain ⟨twin, inside, same⟩ := known _ there
          rcases List.mem_append.mp inside with low | high
          · exact ⟨twin, low, same⟩
          · exact absurd (same ▸ pivot.high twin high) less.not_gt
        · exact absurd greater less.not_gt
      have read : configReading.readFileList files (levels + 1) true names
          (insertInto lineKey list (before ++ line :: after)) =
          some (insertInto lineKey (insertInto lineKey list (before ++ line :: after)) included) :=
        pivot.readFiles flat fits levels
      have last : highs = [] ∨
          (insertInto lineKey highs (keysAbove lineKey (lineKey line) included)).length = highs.length := by
        by_cases all : ∀ other ∈ included, ∃ twin ∈ list ++ (before ++ after), lineKey twin = lineKey other
        · refine .inr (pivot.sorted_highs.length_insertInto fun other member => ?_)
          obtain ⟨inside, above⟩ := mem_keysAbove.mp member
          obtain ⟨twin, there, same⟩ := known _ (all other inside)
          rcases List.mem_append.mp there with low | high
          · exact absurd (same ▸ pivot.low twin low) above.not_gt
          · exact ⟨twin, high, same⟩
        · obtain ⟨other, not_all⟩ := not_forall.mp all
          obtain ⟨member, unknown⟩ := Classical.not_imp.mp not_all
          rcases fresh other member with there | ⟨-, lower⟩
          · exact absurd there unknown
          · refine .inl (List.eq_nil_iff_forall_not_mem.mpr fun twin high => ?_)
            have inside : twin ∈ insertInto lineKey list (before ++ after) := by
              rw [parts]
              exact List.mem_append_right _ high
            exact (pivot.high twin high).not_gt
              (lower twin (List.mem_append.mpr (mem_of_mem_insertInto inside)))
      have text : insertInto lineKey list (before ++ included ++ after) =
          insertInto lineKey lows (keysBelow lineKey (lineKey line) included) ++
            insertInto lineKey highs (keysAbove lineKey (lineKey line) included) := by
        have swapped : insertInto lineKey (insertInto lineKey list before) (included ++ after) =
            insertInto lineKey (insertInto lineKey list before) (after ++ included) :=
          (sorted.insertInto before).insertInto_comm kept
        have place : insertInto lineKey (lows ++ ([] ++ highs)) included = _ :=
          insertInto_place pivot.low (fun _ => nofun) pivot.high aloneIncluded
        rw [List.append_assoc, insertInto_append, swapped, ← insertInto_append, ← List.append_assoc,
          insertInto_append, parts]
        exact place
      have behind : list.length ≤ lows.length := below ▸ scanned
      have length : (insertInto lineKey list (before ++ line :: after)).length =
          lows.length + (highs.length + 1) := by
        rw [pivot.parts, List.length_append]
        rfl
      have skipped : scanIncludes (configReading.readFileList files (levels + 1) true)
          (lows.length - list.length + (highs.length + 1)) list.length
          (insertInto lineKey list (before ++ line :: after)) = _ :=
        scanIncludes_skip fun i _ first => pivot.getD.2 i (by omega)
      have moved := pivot.moveIncluded (pivot.insertInto fits) (pivot.length_lows fits) last
      have left : (insertInto lineKey list (before ++ line :: after)).length - list.length =
          lows.length - list.length + (highs.length + 1) := by omega
      have here : includedNames ((insertInto lineKey list (before ++ line :: after)).getD lows.length []) =
          some names := by rw [pivot.getD.1, named]
      rw [left, skipped, Nat.add_sub_cancel' behind, scanIncludes_found here read, moved, text]
      exact scanIncludes_none fun i _ => includedNames_getD (pivot.insertInto fits).single i

end File

/-! ## The files of a path -/

section Path

variable {files : Bytes → FileEntry} {required : Bool} {lines names new total : List Bytes}

theorem Orderly.single {list : LineList} (orderly : Orderly files list lines new) :
    ∀ line ∈ new, includedNames line = none := by
  cases orderly with
  | plain single => exact single
  | includes plain _ flat _ _ _ _ =>
      obtain ⟨front, behind⟩ := List.forall_mem_append.mp plain
      exact List.forall_mem_append.mpr ⟨List.forall_mem_append.mpr ⟨front, single_of_flat flat⟩, behind⟩

theorem Orderly.expandLines {list : LineList} (orderly : Orderly files list lines new) (levels : Nat) :
    expandLines (expandPath configReading.trim files (levels + 1) true) lines = some new := by
  cases orderly with
  | plain single => exact expandLines_plain single
  | @includes before after included line names plain named flat _ _ _ _ =>
      obtain ⟨front, behind⟩ := List.forall_mem_append.mp plain
      have whole : expandPath configReading.trim files (levels + 1) true names = some included :=
        expandFiles_flat levels flat
      have rest : IncludeFiles.expandLines (expandPath configReading.trim files (levels + 1) true)
          (line :: after) = some (included ++ after) := by
        have last : IncludeFiles.expandLines (expandPath configReading.trim files (levels + 1) true) after =
            some after := expandLines_plain behind
        rw [IncludeFiles.expandLines, flatMapM_cons, named, ← IncludeFiles.expandLines, last]
        dsimp only
        rw [whole]
        rfl
      rw [expandLines_append front, rest, List.append_assoc]
      rfl

variable {list : LineList}

theorem KeySorted.single_insertAll (single : ∀ line ∈ lines, includedNames line = none) :
    ∀ line ∈ insertAll lineKey lines, includedNames line = none := by
  intro line member
  rcases mem_of_mem_insertInto member with none_ | read
  · cases none_
  · exact single line read

/-- The files are read into the list their whole text is put into. -/
theorem OrderlyFiles.read (orderly : OrderlyFiles files required lines names total)
    (single : ∀ line ∈ lines, includedNames line = none) (levels : Nat) :
    (names.foldlM (configReading.readFile files (levels + 1) required) (insertAll lineKey lines) =
        some (insertAll lineKey total) ∧
      (∀ line ∈ total, includedNames line = none)) ∧
      (names.flatMapM (expandFile configReading.trim files (levels + 1) required)).map (lines ++ ·) =
        some total := by
  induction orderly with
  | done => exact ⟨⟨rfl, single⟩, congrArg some (List.append_nil _)⟩
  | @missing lines names total file absent optional rest ih =>
      subst optional
      obtain ⟨⟨read, plain⟩, text⟩ := ih single
      refine ⟨⟨?_, plain⟩, ?_⟩
      · rw [List.foldlM_cons, Reading.readFile, absent]
        exact read
      · rw [flatMapM_cons, expandFile, absent]
        refine (map_append_append lines [] _).trans ?_
        rw [List.append_nil]
        exact text
  | @text lines names new total file contents found orderly rest ih =>
      have none_ : ∀ line ∈ lines ++ new, includedNames line = none :=
        List.forall_mem_append.mpr ⟨single, orderly.single⟩
      obtain ⟨⟨read, plain⟩, text⟩ := ih none_
      refine ⟨⟨?_, plain⟩, ?_⟩
      · have sorted : KeySorted lineKey (insertAll lineKey lines) := KeySorted.insertAll lineKey lines
        have here := scanIncludes_orderly sorted (KeySorted.single_insertAll single) orderly levels
        rw [List.foldlM_cons, Reading.readFile, found]
        dsimp only
        rw [readFileAndSplit_sorted sorted, here]
        refine Eq.trans ?_ read
        exact congrArg (names.foldlM (configReading.readFile files (levels + 1) required) ·)
          insertInto_append.symm
      · rw [flatMapM_cons, expandFile, found]
        dsimp only
        rw [orderly.expandLines levels]
        exact (map_append_append lines new _).trans text

theorem settles_insertAll (single : ∀ line ∈ lines, includedNames line = none) :
    Settles lines (insertAll lineKey lines) where
  sorted := KeySorted.insertAll lineKey lines
  expanded := KeySorted.single_insertAll single
  kept line member := exists_mem_insertInto.mpr (.inr ⟨line, member, rfl⟩)
  last entry member := by
    rcases mem_insertInto.mp member with ⟨none_, -⟩ | last
    · cases none_
    · exact last

/-- `Get_config` reads files in which each `include` line is put in order into the list that their
whole text, with the `include` lines replaced in their places, settles. -/
theorem readConfig_settles {path : Bytes} (orderly : OrderlyFiles files required [] (fileNames path) total) :
    ∃ list, expandPath configReading.trim files maxLevels required path = some total ∧
      configReading.readFileList files maxLevels required path [] = some list ∧ Settles total list := by
  obtain ⟨⟨read, plain⟩, text⟩ := orderly.read (fun _ => nofun) 3
  refine ⟨insertAll lineKey total, ?_, read, settles_insertAll plain⟩
  refine Eq.trans ?_ text
  exact (Option.map_id' (x := expandPath configReading.trim files maxLevels required path)).symm

end Path

/-- A configuration whose included lines sort behind the `include` line, and one that includes `/a`,
whose line sorts in front of it. -/
def configFiles (name : Bytes) : FileEntry :=
  if name = lit "/etc/lpd.conf" then .text (lit "# site\nacct=1\ninclude /lp,/zone\nallow 5\n")
  else if name = lit "/lp" then .text (lit "lp=2")
  else if name = lit "/zone" then .text (lit "zone=3\nLP=4")
  else if name = lit "/l" then .text (lit "include /a")
  else if name = lit "/a" then .text (lit "ab=1")
  else .missing

theorem configFiles_settled : ∃ list,
    expandPath configReading.trim configFiles maxLevels true (lit "/etc/lpd.conf") =
      some ([lit "acct=1"] ++ [lit "lp=2", lit "zone=3", lit "LP=4"] ++ [lit "allow 5"]) ∧
    configReading.readFileList configFiles maxLevels true (lit "/etc/lpd.conf") [] = some list ∧
    Settles ([lit "acct=1"] ++ [lit "lp=2", lit "zone=3", lit "LP=4"] ++ [lit "allow 5"]) list := by
  have path : fileNames (lit "/etc/lpd.conf") = [lit "/etc/lpd.conf"] ∧
      fileLines configReading.trim (lit "# site\nacct=1\ninclude /lp,/zone\nallow 5\n") =
        [lit "acct=1"] ++ lit "include /lp,/zone" :: [lit "allow 5"] ∧
      expandPath configReading.trim configFiles 1 true (lit "/lp,/zone") =
        some [lit "lp=2", lit "zone=3", lit "LP=4"] ∧
      includedNames (lit "include /lp,/zone") = some (lit "/lp,/zone") := by decide
  have keys : (∀ other ∈ [lit "acct=1"] ++ [lit "allow 5"], includedNames other = none) ∧
      (∀ other ∈ [] ++ ([lit "acct=1"] ++ [lit "allow 5"]) ++ [lit "lp=2", lit "zone=3", lit "LP=4"],
        lineKey other ≠ lineKey (lit "include /lp,/zone")) ∧
      (∀ new ∈ [lit "lp=2", lit "zone=3", lit "LP=4"],
        lineKey (lit "include /lp,/zone") < lineKey new ∧
          ∀ other ∈ [] ++ ([lit "acct=1"] ++ [lit "allow 5"]),
            lineKey other < lineKey (lit "include /lp,/zone")) ∧
      ∀ new ∈ [lit "lp=2", lit "zone=3", lit "LP=4"], ∀ other ∈ [lit "allow 5"],
        lineKey new ≠ lineKey other := by decide
  obtain ⟨names, lines, flat, named⟩ := path
  obtain ⟨single, alone, fresh, kept⟩ := keys
  have file : Orderly configFiles (insertAll lineKey [])
      ([lit "acct=1"] ++ lit "include /lp,/zone" :: [lit "allow 5"])
      ([lit "acct=1"] ++ [lit "lp=2", lit "zone=3", lit "LP=4"] ++ [lit "allow 5"]) :=
    .includes single named flat alone (Nat.zero_le _) (fun new member => .inr (fresh new member)) kept
  refine readConfig_settles ?_
  rw [names]
  exact .text rfl (lines ▸ file) .done

/-- A path of one file that is read into a sorted list. -/
theorem readFileList_one {files : Bytes → FileEntry} {path file contents : Bytes} {list : LineList}
    (named : fileNames path = [file]) (found : files file = .text contents)
    (sorted : KeySorted lineKey list) {lines : LineList}
    (put : insertInto lineKey list (fileLines configReading.trim contents) = lines) (levels : Nat) :
    configReading.readFileList files (levels + 1) true path list =
      scanIncludes (configReading.readFileList files levels true) (lines.length - list.length)
        list.length lines := by
  rw [readFileList_succ, named, List.foldlM_cons, Reading.readFile, found]
  dsimp only
  rw [readFileAndSplit_sorted sorted, put]
  exact bind_pure _

/-- Of a file that includes `ab=1` nothing is left. -/
theorem configFiles_lost : ¬∀ (files : Bytes → FileEntry) (required : Bool) (path : Bytes)
    (lines : List Bytes), expandPath configReading.trim files maxLevels required path = some lines →
    ∃ list, configReading.readFileList files maxLevels required path [] = some list ∧
      Settles lines list := by
  intro settled
  have names : fileNames (lit "/a") = [lit "/a"] ∧ fileNames (lit "/l") = [lit "/l"] ∧
      includedNames (lit "include /a") = some (lit "/a") := by decide
  obtain ⟨nameA, nameL, named⟩ := names
  have sorted : KeySorted lineKey [lit "include /a"] ∧
      KeySorted lineKey [lit "ab=1", lit "include /a"] := by
    unfold KeySorted
    decide
  have put : insertInto lineKey [] (fileLines configReading.trim (lit "include /a")) = [lit "include /a"] ∧
      insertInto lineKey [lit "include /a"] (fileLines configReading.trim (lit "ab=1")) =
        [lit "ab=1", lit "include /a"] ∧
      insertInto lineKey [lit "ab=1", lit "include /a"] (fileLines configReading.trim (lit "ab=1")) =
        [lit "ab=1", lit "include /a"] := by decide
  -- The `include` line is found once more behind the line it brought in, and taken out there.
  have textA : configFiles (lit "/a") = .text (lit "ab=1") := rfl
  have textL : configFiles (lit "/l") = .text (lit "include /a") := rfl
  have deepest : configReading.readFileList configFiles 3 true (lit "/a")
      [lit "ab=1", lit "include /a"] = some [lit "ab=1", lit "include /a"] :=
    readFileList_one nameA textA sorted.2 put.2.2 2
  have deeper : configReading.readFileList configFiles 4 true (lit "/a") [lit "include /a"] =
      some [lit "ab=1"] := by
    rw [readFileList_one nameA textA sorted.1 put.2.1 3]
    change scanIncludes _ 1 1 [lit "ab=1", lit "include /a"] = _
    refine (scanIncludes_found ?_ deepest).trans rfl
    exact named
  have read : configReading.readFileList configFiles maxLevels true (lit "/l") [] = some [] := by
    rw [maxLevels, readFileList_one nameL textL keySorted_nil put.1 4]
    change scanIncludes _ 1 0 [lit "include /a"] = _
    refine (scanIncludes_found ?_ deeper).trans rfl
    exact named
  have text : expandPath configReading.trim configFiles maxLevels true (lit "/l") = some [lit "ab=1"] := by
    decide
  obtain ⟨list, read', settles⟩ := settled configFiles true (lit "/l") _ text
  obtain rfl := Option.some.inj (read.symm.trans read')
  obtain ⟨_, lost, -⟩ := settles.kept (lit "ab=1") List.mem_cons_self
  cases lost

end IncludeFiles

end LPRng
