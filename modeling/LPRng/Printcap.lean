import LPRng.KeyRuns
import LPRng.LineSearch
import LPRng.QueueTraversal

/-!
# Lookups in the printcap

`Select_pc_info` collects the options of a printer: for each of its entries the options of the entries named by `tc`
options, and then its own. The options of an entry are sorted by keys that end at any separator of an option, and the
`tc` options among them are searched for with keys that end at `=` and `#` only.
-/

namespace LPRng

/-! ## Ordered lines -/

/-- What lines are sorted by with these separators. -/
def sepKey (sep line : Bytes) : List ℕ := foldCase (keyOf sep line)

namespace LineList

variable {l : LineList} {sep key line : Bytes}

theorem hasKey_iff_sepKey : hasKey key sep line = true ↔ sepKey sep line = foldCase key := hasKey_iff

theorem compares_sepKey (key sep line : Bytes) :
    (strcasecmp key (keyOf sep line)).Compares (foldCase key) (sepKey sep line) := strcasecmp_compares _ _

theorem findFirstKey_of_run (ordered : KeyOrdered (sepKey sep) l) (given : runOf (sepKey sep) (foldCase key) l ≠ []) :
    l.findFirstKey key sep = (.eq, (keysBelow (sepKey sep) (foldCase key) l).length) :=
  ordered.search_first (fun _ _ => hasKey_iff_sepKey) given (fun line _ => compares_sepKey key sep line) []

theorem findLastKey_of_run (ordered : KeyOrdered (sepKey sep) l) (given : runOf (sepKey sep) (foldCase key) l ≠ []) :
    ∃ mid, l.findLastKey key sep = (.eq, mid) ∧ mid + 1 =
      (keysBelow (sepKey sep) (foldCase key) l).length + (runOf (sepKey sep) (foldCase key) l).length :=
  ordered.search_last (fun _ _ => hasKey_iff_sepKey) given (fun line _ => compares_sepKey key sep line) []

theorem findFirstKey_of_absent (ordered : KeyOrdered (sepKey sep) l)
    (absent : runOf (sepKey sep) (foldCase key) l = []) : (l.findFirstKey key sep).1 ≠ .eq := by
  rcases ordered.search_absent absent (fun line _ => compares_sepKey key sep line) []
    (fun mid => mid - ((l.take mid).reverse.takeWhile (hasKey key sep)).length) with before | ⟨mid, after, -⟩
  · intro equal
    cases (congrArg Prod.fst before).symm.trans equal
  · intro equal
    cases (congrArg Prod.fst after).symm.trans equal

/-- A line is put behind those of its key. -/
theorem addLineList_behind (ordered : KeyOrdered (sepKey sep) l) (line : Bytes) :
    l.addLineList line sep true false = insertBehind (sepKey sep) line l := by
  rw [LineList.addLineList, if_pos rfl, ← ordered.take_insert_drop line]
  by_cases absent : runOf (sepKey sep) (sepKey sep line) l = []
  · rw [absent, List.length_nil, Nat.add_zero]
    rcases ordered.search_absent absent (fun other _ => compares_sepKey (keyOf sep line) sep other) []
      (fun mid => mid + ((l.drop (mid + 1)).takeWhile (hasKey (keyOf sep line) sep)).length) with
      before | ⟨mid, after, next⟩
    · have found : l.findLastKey (keyOf sep line) sep = _ := before
      rw [found]
    · have found : l.findLastKey (keyOf sep line) sep = _ := after
      rw [found, ← next]
  · rcases findLastKey_of_run ordered absent with ⟨mid, found, last⟩
    have place : mid + 1 = (keysBelow (sepKey sep) (sepKey sep line) l).length +
        (runOf (sepKey sep) (sepKey sep line) l).length := last
    rw [found, ← place]
    rfl

theorem foldl_addLineList_behind (ordered : KeyOrdered (sepKey sep) l) (lines : List Bytes) :
    lines.foldl (fun l line => l.addLineList line sep true false) l = insertBehindAll (sepKey sep) l lines := by
  induction lines generalizing l with
  | nil => rfl
  | cons line lines ih =>
      rw [List.foldl_cons, addLineList_behind ordered, ih ordered.insertBehind]
      rfl

end LineList

namespace Printcap

open IncludeFiles (fileSep)
open QueueTraversal (selectPcInfo)

/-! ## Texts of entries -/

def printcapSep : Bytes := lit "|:"

/-- The pieces of a text between separators, where a separator with a backslash in front of it in its piece is part
of the piece. The character in front is passed on. -/
def escapedPieces (sep escape : Bytes) : Option UInt8 → Bytes → List Bytes
  | _, [] => []
  | front, c :: s =>
      if sep.contains c && !(front = some 92 && escape.contains c) then [] :: escapedPieces sep escape none s
      else
        match escapedPieces sep escape (some c) s with
        | [] => [[c]]
        | piece :: rest => (c :: piece) :: rest

/-- `Split` with an escape character, and without a place for comments. -/
def splitEscaped (l : LineList) (str sep : Bytes) (sort : Bool) (keysep : Bytes) (uniq trim : Bool)
    (escape : Bytes) : LineList :=
  (escapedPieces sep escape none str).foldl (fun l piece =>
    let piece := if trim then trimSpace piece else piece
    if trim && piece = [] then l else l.addLineList piece keysep sort uniq) l

/-- What stands behind the names of an entry. -/
def optionText (u : Bytes) : Bytes := (u.dropWhile (· ≠ 58)).drop 1

/-- The options of an entry, as both readers of an entry split them. -/
def optionsOf (u : Bytes) : LineList := splitEscaped [] (optionText u) [58] true optionValueSep false true [58]

/-- The options as they are written. -/
def written (u : Bytes) : List Bytes := ((escapedPieces [58] [58] none (optionText u)).map trimSpace).filter (· ≠ [])

theorem foldl_skip {f : LineList → Bytes → LineList} {l : LineList} (parts : List Bytes) :
    parts.foldl (fun l piece => if true && trimSpace piece = [] then l else f l (trimSpace piece)) l =
      ((parts.map trimSpace).filter (· ≠ [])).foldl f l := by
  induction parts generalizing l with
  | nil => rfl
  | cons piece parts ih =>
      rw [List.foldl_cons, List.map_cons, List.filter_cons, ih]
      by_cases empty : trimSpace piece = []
      · rw [if_pos (by simpa using empty), if_neg (by simpa using empty)]
      · rw [if_neg (by simpa using empty), if_pos (by simpa using empty), List.foldl_cons]

theorem optionsOf_eq (u : Bytes) : optionsOf u = insertBehindAll lineKey [] (written u) := by
  rw [optionsOf, splitEscaped]
  have inserted : (written u).foldl (fun l line => LineList.addLineList l line optionValueSep true false) [] =
      insertBehindAll (sepKey optionValueSep) [] (written u) := LineList.foldl_addLineList_behind keyOrdered_nil _
  exact (foldl_skip _).trans inserted

theorem runOf_optionsOf (key : List ℕ) (u : Bytes) : runOf lineKey key (optionsOf u) = runOf lineKey key (written u) := by
  rw [optionsOf_eq, runOf_insertBehindAll]
  rfl

/-! ## The lookup -/

/-- A line that names other entries. -/
def isTc (line : Bytes) : Bool := LineList.hasKey (lit "tc") hashValueSep line

/-- The names behind the first `=` of a line, in lower case. -/
def references (line : Bytes) : List Bytes :=
  match (line.map toLower).dropWhile (· ≠ 61) with
  | [] => []
  | _ :: names => split [] names fileSep false [] false true false

/-- The lines from the first to the last that are found for `tc`, and the others. -/
def cutTc (l : LineList) : LineList × LineList :=
  match l.findFirstKey (lit "tc") hashValueSep, l.findLastKey (lit "tc") hashValueSep with
  | (.eq, first), (.eq, last) => ((l.take (last + 1)).drop first, l.take first ++ l.drop (last + 1))
  | _, _ => ([], l)

/-- The errors that end the program. -/
inductive Fatal where
  | depth (depth : Nat)
  | notInput (name : Bytes)
  | notFound (name : Bytes)
deriving DecidableEq

/-- What is logged of an error. -/
def Fatal.message : Fatal → Bytes
  | depth d => lit "Select_pc_info: printcap tc recursion depth " ++ printNat 10 d
  | notInput name => lit "Find_pc_info: name '" ++ fmtString name ++ lit "' in names and not in input list"
  | notFound name => lit "Find_pc_info: tc entry '" ++ fmtString name ++ lit "' not found"

/-- The names of the entries, and the entries in the order of the file. `behind` is what stands behind a pattern in
memory. -/
structure Table where
  names : LineList
  entries : List Bytes
  behind : Bytes

namespace Table

variable (table : Table)

/-- The entries as `Build_printcap_info` keeps them. -/
def input : LineList := table.entries.foldl (fun l u => l.addLineList u printcapSep true false) []

/-- The options of one entry are put into the list, behind those of the entries it names. -/
def addEntry (lookup : Bytes → LineList → Except Fatal (Option Bytes × LineList)) (info : LineList) (u : Bytes) :
    Except Fatal LineList := do
  let (tc, others) := cutTc (optionsOf u)
  let info ← (tc.flatMap references).foldlM (fun info s => do
    match ← lookup s info with
    | (none, _) => throw (.notFound s)
    | (some _, info) => pure info) info
  pure (info.mergeLineList others optionValueSep true true)

/-- `Find_pc_info`, with the lookup of the names in `tc` options. -/
def findPcInfo (lookup : Bytes → LineList → Except Fatal (Option Bytes × LineList)) (name : Bytes) (info : LineList) :
    Except Fatal LineList :=
  match table.input.findFirstKey name printcapSep, table.input.findLastKey name printcapSep with
  | (.eq, first), (.eq, last) =>
      (((table.input.take (last + 1)).drop first).filter (· ≠ [])).foldlM (addEntry lookup) info
  | _, _ => throw (.notInput name)

/-- `Select_pc_info`, without filters that make entries. What is left of the depth is counted down. -/
def selectPcInfo : Nat → Bytes → LineList → Bool → Except Fatal (Option Bytes × LineList)
  | 0, _, _, _ => throw (.depth 6)
  | left + 1, id, info, wildcard =>
      match QueueTraversal.selectPcInfo table.behind table.names (some id) wildcard with
      | none => pure (none, info)
      | some found => do
          let info ← table.findPcInfo (fun s info => selectPcInfo left s info false) found info
          pure (some found, info)

end Table

/-! ## What is asked -/

/-- What an entry contributes: the options of the entries it names, and its own as they are written. -/
def contribution (follow : Bytes → Except Fatal (List Bytes)) (u : Bytes) : Except Fatal (List Bytes) := do
  let named ← (((written u).filter isTc).flatMap references).mapM follow
  pure (named.flatten ++ (written u).filter (!isTc ·))

namespace Table

variable (table : Table)

/-- The entries with a primary name, in the order of the file. -/
def entriesOf (name : Bytes) : List Bytes := runOf (sepKey printcapSep) (foldCase name) table.entries

/-- The primary name of the entry that a name in a `tc` option leads to. -/
def resolve (s : Bytes) : Option Bytes := QueueTraversal.selectPcInfo table.behind table.names (some s) false

/-- The contributions of the entries of a name. -/
def ofName (follow : Bytes → Except Fatal (List Bytes)) (name : Bytes) : Except Fatal (List Bytes) :=
  match table.entriesOf name with
  | [] => throw (.notInput name)
  | u :: us => do
      let parts ← ((u :: us).filter (· ≠ [])).mapM (contribution follow)
      pure parts.flatten

/-- The options of a printer in the order in which later ones win, where names in `tc` options may be nested as deep
as this. -/
def order : Nat → Bytes → Except Fatal (List Bytes)
  | 0, name => table.ofName (fun _ => throw (.depth 6)) name
  | nesting + 1, name =>
      table.ofName (fun s =>
        match table.resolve s with
        | none => throw (.notFound s)
        | some found => order nesting found) name

/-- The entries that are read for a name. -/
inductive Visited : Nat → Bytes → Bytes → Prop
  | own {nesting : Nat} {name u : Bytes} (member : u ∈ table.entriesOf name) : Visited nesting name u
  | named {nesting : Nat} {name u s found v : Bytes} (member : u ∈ table.entriesOf name)
      (refers : s ∈ ((written u).filter isTc).flatMap references) (resolves : table.resolve s = some found)
      (visited : Visited nesting found v) : Visited (nesting + 1) name v

end Table

/-- The searches for `tc` find all the `tc` options and no other. -/
def TcFound (l : LineList) : Prop := cutTc l = (l.filter isTc, l.filter (!isTc ·))

/-! ## Keys of `tc` options -/

/-- A key of letters compares with what is read up to `=` or `#` as with the key of the option, or the option has
this key and it goes on. -/
theorem strcasecmp_hash_or {tag : Bytes} (letters : ∀ c ∈ tag, ∀ d ∈ optionValueSep, (toLower d).toNat < (toLower c).toNat)
    (line : Bytes) : strcasecmp tag (keyOf hashValueSep line) = strcasecmp tag (keyOf optionValueSep line) ∨
      strcasecmp tag (keyOf optionValueSep line) = .eq ∧ strcasecmp tag (keyOf hashValueSep line) = .lt := by
  induction tag generalizing line with
  | nil =>
      cases line with
      | nil => exact .inl rfl
      | cons d line =>
          by_cases hash : d ∈ hashValueSep
          · have option := isSeparator_hashValueSep.most d hash
            have first : keyOf hashValueSep (d :: line) = [] := List.takeWhile_cons_of_neg (by simpa using hash)
            have second : keyOf optionValueSep (d :: line) = [] := List.takeWhile_cons_of_neg (by simpa using option)
            rw [first, second]
            exact .inl rfl
          · have first : keyOf hashValueSep (d :: line) = d :: keyOf hashValueSep line :=
              List.takeWhile_cons_of_pos (by simpa using hash)
            rw [first]
            rcases option : keyOf optionValueSep (d :: line) with - | ⟨b, key⟩
            · exact .inr ⟨rfl, rfl⟩
            · exact .inl rfl
  | cons c tag ih =>
      cases line with
      | nil => exact .inl rfl
      | cons d line =>
          by_cases option : d ∈ optionValueSep
          · have second : keyOf optionValueSep (d :: line) = [] := List.takeWhile_cons_of_neg (by simpa using option)
            have below := letters c List.mem_cons_self d option
            have behind : strcasecmp (c :: tag) [] = .gt := rfl
            refine .inl ?_
            rw [second, behind]
            by_cases hash : d ∈ hashValueSep
            · have first : keyOf hashValueSep (d :: line) = [] := List.takeWhile_cons_of_neg (by simpa using hash)
              rw [first, behind]
            · have first : keyOf hashValueSep (d :: line) = d :: keyOf hashValueSep line :=
                List.takeWhile_cons_of_pos (by simpa using hash)
              have apart : strcasecmp (c :: tag) (d :: keyOf hashValueSep line) =
                  (compare (toLower c).toNat (toLower d).toNat).then (strcasecmp tag (keyOf hashValueSep line)) := rfl
              rw [first, apart, compare_gt_iff_gt.mpr below]
              rfl
          · have hash : d ∉ hashValueSep := fun member => option (isSeparator_hashValueSep.most d member)
            have first : keyOf hashValueSep (d :: line) = d :: keyOf hashValueSep line :=
              List.takeWhile_cons_of_pos (by simpa using hash)
            have second : keyOf optionValueSep (d :: line) = d :: keyOf optionValueSep line :=
              List.takeWhile_cons_of_pos (by simpa using option)
            have step : ∀ s : Bytes, strcasecmp (c :: tag) (d :: s) =
                (compare (toLower c).toNat (toLower d).toNat).then (strcasecmp tag s) := fun _ => rfl
            rw [first, second, step, step]
            rcases ih (fun b member => letters b (List.mem_cons_of_mem c member)) line with same | ⟨equal, less⟩
            · exact .inl (congrArg _ same)
            · rw [equal, less]
              rcases compare (toLower c).toNat (toLower d).toNat with - | - | -
              · exact .inl rfl
              · exact .inr ⟨rfl, rfl⟩
              · exact .inl rfl

theorem tc_letters : ∀ c ∈ lit "tc", ∀ d ∈ optionValueSep, (toLower d).toNat < (toLower c).toNat := by decide

theorem isTc_iff {line : Bytes} : isTc line = true ↔ strcasecmp (lit "tc") (keyOf hashValueSep line) = .eq := by
  rw [isTc, LineList.hasKey_iff_sepKey, (LineList.compares_sepKey (lit "tc") hashValueSep line).eq_eq, eq_comm]

/-- A `tc` option has the key `tc`. -/
theorem lineKey_of_isTc {line : Bytes} (tc : isTc line = true) : lineKey line = foldCase (lit "tc") := by
  have equal := isTc_iff.mp tc
  rcases strcasecmp_hash_or tc_letters line with same | ⟨-, less⟩
  · rw [same] at equal
    exact ((LineList.compares_sepKey (lit "tc") optionValueSep line).eq_eq.mp equal).symm
  · cases equal.symm.trans less

theorem keyOrdered_optionsOf (u : Bytes) : KeyOrdered lineKey (optionsOf u) :=
  optionsOf_eq u ▸ keyOrdered_nil.insertBehindAll (written u)

theorem mem_optionsOf {u line : Bytes} : line ∈ optionsOf u ↔ line ∈ written u := by
  rw [optionsOf_eq, (insertBehindAll_perm [] (written u)).mem_iff, List.append_nil]

/-- The searches for `tc` do well if every option with the key `tc` has `=` or `#` behind it, or nothing. -/
theorem tcFound_of_plain {u : Bytes} (plain : ∀ line ∈ written u, lineKey line = foldCase (lit "tc") → isTc line = true) :
    TcFound (optionsOf u) := by
  have ordered := keyOrdered_optionsOf u
  have hits : ∀ line ∈ optionsOf u, isTc line = true ↔ lineKey line = foldCase (lit "tc") := fun line member =>
    ⟨lineKey_of_isTc, plain line (mem_optionsOf.mp member)⟩
  have compares : ∀ line ∈ optionsOf u,
      (strcasecmp (lit "tc") (keyOf hashValueSep line)).Compares (foldCase (lit "tc")) (lineKey line) := by
    intro line member
    have option := LineList.compares_sepKey (lit "tc") optionValueSep line
    rcases strcasecmp_hash_or tc_letters line with same | ⟨equal, less⟩
    · rw [same]
      exact option
    · have tc := (hits line member).mpr (option.eq_eq.mp equal).symm
      cases (isTc_iff.mp tc).symm.trans less
  rw [TcFound, filter_eq_runOf hits, ordered.filter_not_eq hits, cutTc]
  by_cases absent : runOf lineKey (foldCase (lit "tc")) (optionsOf u) = []
  · have notFound : ((optionsOf u).findFirstKey (lit "tc") hashValueSep).1 ≠ .eq := by
      rcases ordered.search_absent absent compares []
        (fun mid => mid - (((optionsOf u).take mid).reverse.takeWhile isTc).length) with before | ⟨mid, after, -⟩
      · intro equal
        cases (congrArg Prod.fst before).symm.trans equal
      · intro equal
        cases (congrArg Prod.fst after).symm.trans equal
    have whole := (ordered.cut (foldCase (lit "tc"))).2
    rw [absent, List.length_nil, Nat.add_zero, List.take_append_drop] at whole
    rw [absent, ← whole]
    split
    · next equal _ => exact absurd (congrArg Prod.fst equal) notFound
    · rfl
  · have first : (optionsOf u).findFirstKey (lit "tc") hashValueSep =
        (.eq, (keysBelow lineKey (foldCase (lit "tc")) (optionsOf u)).length) :=
      ordered.search_first hits absent compares []
    rcases ordered.search_last hits absent compares [] with ⟨mid, found, behind⟩
    have last : (optionsOf u).findLastKey (lit "tc") hashValueSep = (.eq, mid) := found
    rcases ordered.cut (foldCase (lit "tc")) with ⟨inside, outside⟩
    rw [first, last]
    show (((optionsOf u).take (mid + 1)).drop _, (optionsOf u).take _ ++ (optionsOf u).drop (mid + 1)) = _
    rw [behind, inside, outside]

/-! ## What is built -/

variable {lookup : Bytes → LineList → Except Fatal (Option Bytes × LineList)}
  {follow : Bytes → Except Fatal (List Bytes)} {info : LineList} {u name : Bytes}

theorem mergeLineList_lineKey (sorted : KeySorted lineKey info) (lines : LineList) :
    info.mergeLineList lines optionValueSep true true = insertInto lineKey info lines := by
  induction lines generalizing info with
  | nil => rfl
  | cons line lines ih =>
      have first : info.addLineList line optionValueSep true true = insertKey lineKey line info :=
        (LineList.tells_lineKey sorted _).addLineList rfl
      have step : info.mergeLineList (line :: lines) optionValueSep true true =
          (info.addLineList line optionValueSep true true).mergeLineList lines optionValueSep true true := rfl
      rw [step, first, ih sorted.insertKey]
      rfl

/-- A loop that puts into a list, in terms of what is put in. -/
theorem foldlM_eq_mapM {β : Type} {f : LineList → β → Except Fatal LineList} {g : β → Except Fatal (List Bytes)}
    {parts : List β} (sorted : KeySorted lineKey info)
    (agrees : ∀ b ∈ parts, ∀ info, KeySorted lineKey info → f info b = (g b).map (insertInto lineKey info)) :
    parts.foldlM f info = (parts.mapM g).map fun lines => insertInto lineKey info lines.flatten := by
  induction parts generalizing info with
  | nil => rfl
  | cons b parts ih =>
      rcases List.forall_mem_cons.mp agrees with ⟨first, others⟩
      rw [List.foldlM_cons, List.mapM_cons, first info sorted]
      rcases g b with e | lines
      · rfl
      · show parts.foldlM f (insertInto lineKey info lines) = _
        rw [ih (sorted.insertInto lines) others]
        show _ = ((parts.mapM g).bind fun more => pure (lines :: more)).map _
        rcases parts.mapM g with e | more
        · rfl
        · exact congrArg Except.ok insertInto_append.symm

theorem filter_isTc (u : Bytes) : (optionsOf u).filter isTc = (written u).filter isTc := by
  have within : ∀ l : LineList, (runOf lineKey (foldCase (lit "tc")) l).filter isTc = l.filter isTc := by
    intro l
    rw [runOf, List.filter_filter]
    refine List.filter_congr fun line _ => ?_
    by_cases tc : isTc line = true
    · rw [tc, lineKey_of_isTc tc]
      rfl
    · rw [Bool.eq_false_iff.mpr tc, Bool.false_and]
  rw [← within, runOf_optionsOf, within]

theorem runOf_others (u : Bytes) (key : List ℕ) :
    runOf lineKey key ((optionsOf u).filter (!isTc ·)) = runOf lineKey key ((written u).filter (!isTc ·)) := by
  have turned : ∀ l : LineList, runOf lineKey key (l.filter (!isTc ·)) = (runOf lineKey key l).filter (!isTc ·) := by
    intro l
    rw [runOf, runOf, List.filter_filter, List.filter_filter]
    exact List.filter_congr fun line _ => Bool.and_comm _ _
  rw [turned, turned, runOf_optionsOf]

/-- The names in the `tc` options of an entry. -/
def namesIn (u : Bytes) : List Bytes := ((written u).filter isTc).flatMap references

/-- One name in a `tc` option. -/
def addNamed (lookup : Bytes → LineList → Except Fatal (Option Bytes × LineList)) (info : LineList) (s : Bytes) :
    Except Fatal LineList := do
  match ← lookup s info with
  | (none, _) => throw (.notFound s)
  | (some _, info) => pure info

/-- One entry puts what it contributes into the list. -/
theorem addEntry_eq (found : TcFound (optionsOf u)) (sorted : KeySorted lineKey info)
    (agrees : ∀ s ∈ namesIn u, ∀ info, KeySorted lineKey info →
      addNamed lookup info s = (follow s).map (insertInto lineKey info)) :
    Table.addEntry lookup info u = (contribution follow u).map (insertInto lineKey info) := by
  have shape : Table.addEntry lookup info u =
      ((((optionsOf u).filter isTc).flatMap references).foldlM (addNamed lookup) info).bind fun info =>
        pure (info.mergeLineList ((optionsOf u).filter (!isTc ·)) optionValueSep true true) := by
    rw [Table.addEntry, found]
    rfl
  have asked : contribution follow u = ((namesIn u).mapM follow).bind fun named =>
      pure (named.flatten ++ (written u).filter (!isTc ·)) := rfl
  rw [shape, asked, filter_isTc]
  show ((namesIn u).foldlM (addNamed lookup) info).bind _ = _
  rw [foldlM_eq_mapM sorted agrees]
  rcases (namesIn u).mapM follow with e | named
  · rfl
  · show Except.ok _ = Except.ok _
    rw [mergeLineList_lineKey (sorted.insertInto _), insertInto_append]
    exact congrArg Except.ok ((sorted.insertInto named.flatten).insertInto_congr (runOf_others u))

theorem input_eq (table : Table) : table.input = insertBehindAll (sepKey printcapSep) [] table.entries :=
  LineList.foldl_addLineList_behind keyOrdered_nil _

/-- The entries of a name stand together in the list that is kept, in the order of the file. -/
theorem findPcInfo_eq (table : Table) (sorted : KeySorted lineKey info)
    (agrees : ∀ u ∈ table.entriesOf name, ∀ info, KeySorted lineKey info →
      Table.addEntry lookup info u = (contribution follow u).map (insertInto lineKey info)) :
    table.findPcInfo lookup name info = (table.ofName follow name).map (insertInto lineKey info) := by
  have ordered : KeyOrdered (sepKey printcapSep) table.input :=
    input_eq table ▸ keyOrdered_nil.insertBehindAll table.entries
  have run : runOf (sepKey printcapSep) (foldCase name) table.input = table.entriesOf name := by
    rw [input_eq, runOf_insertBehindAll]
    rfl
  rw [Table.findPcInfo, Table.ofName]
  rcases lines : table.entriesOf name with - | ⟨u, us⟩
  · have absent := LineList.findFirstKey_of_absent ordered (run.trans lines)
    split
    · next equal _ => exact absurd (congrArg Prod.fst equal) absent
    · rfl
  · have given : runOf (sepKey printcapSep) (foldCase name) table.input ≠ [] := by
      rw [run, lines]
      exact List.cons_ne_nil u us
    rcases LineList.findLastKey_of_run ordered given with ⟨mid, last, behind⟩
    have inside := (ordered.cut (foldCase name)).1
    rw [← behind, run, lines] at inside
    rw [LineList.findFirstKey_of_run ordered given, last]
    simp only [inside]
    rw [foldlM_eq_mapM sorted fun u member => agrees u (lines ▸ List.mem_of_mem_filter member)]
    rcases ((u :: us).filter (· ≠ [])).mapM (contribution follow) with e | parts
    · rfl
    · rfl

/-- The options of a name that is found are put into the list in the order that is asked. -/
theorem findPcInfo_eq_order (table : Table) (nesting : Nat) (name : Bytes) {info : LineList}
    (sorted : KeySorted lineKey info) (found : ∀ u, table.Visited nesting name u → TcFound (optionsOf u)) :
    table.findPcInfo (fun s info => table.selectPcInfo nesting s info false) name info =
      (table.order nesting name).map (insertInto lineKey info) := by
  induction nesting generalizing name info with
  | zero =>
      refine findPcInfo_eq table sorted fun u member info sorted =>
        addEntry_eq (found u (.own member)) sorted fun s _ info _ => ?_
      rfl
  | succ nesting ih =>
      refine findPcInfo_eq table sorted fun u member info sorted =>
        addEntry_eq (found u (.own member)) sorted fun s refers info sorted => ?_
      rcases resolves : table.resolve s with - | named
      · have none_found : table.selectPcInfo (nesting + 1) s info false = pure (none, info) := by
          rw [Table.selectPcInfo]
          unfold Table.resolve at resolves
          rw [resolves]
        rw [addNamed, none_found]
        rfl
      · have select : table.selectPcInfo (nesting + 1) s info false =
            (table.findPcInfo (fun s info => table.selectPcInfo nesting s info false) named info).bind fun info =>
              pure (some named, info) := by
          rw [Table.selectPcInfo]
          unfold Table.resolve at resolves
          rw [resolves]
          rfl
        rw [addNamed, select, ih named sorted fun v visited => found v (.named member refers resolves visited)]
        show _ = (table.order nesting named).map (insertInto lineKey info)
        rcases table.order nesting named with e | lines
        · rfl
        · rfl

/-- What a lookup in the printcap is to give: the list of options, in which each key has the line that is the last of
the key in the recursive order, or the error that stops the order. -/
inductive Gives (name : Bytes) : Except Fatal (List Bytes) → Except Fatal (Option Bytes × LineList) → Prop
  | options {order info : List Bytes} (sorted : KeySorted lineKey info)
      (last : ∀ key, lookupKey lineKey key info = (runOf lineKey key order).getLast?) :
      Gives name (.ok order) (.ok (some name, info))
  | fatal (e : Fatal) : Gives name (.error e) (.error e)

theorem Table.Visited.mem {table : Table} {nesting : Nat} (visited : table.Visited nesting name u) : u ∈ table.entries := by
  induction visited with
  | own member => exact List.mem_of_mem_filter member
  | named _ _ _ _ ih => exact ih

/-- A printer, and the entry it names. -/
def twoEntries (options : Bytes) : Table where
  names := [lit "common=common", lit "lp=lp"]
  entries := [lit "lp:" ++ options, lit "common:sh"]
  behind := []

end Printcap

end LPRng
