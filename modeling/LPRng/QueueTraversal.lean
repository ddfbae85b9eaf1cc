import LPRng.Traversal
import LPRng.IncludeFiles
import LPRng.PermissionTests
import Mathlib.Data.Set.Finite.List

/-!
# Requests that go through queues

`Get_queue_remove` and `Get_queue_status` process a local queue and go on with its subservers, its
destinations, or the remote printer of its entry where that is served by this host too. A list of
the queues that were done is passed on, in which a queue is looked for once its name is resolved.
-/

namespace LPRng

namespace QueueTraversal

open Permission (globPattern)
open IncludeFiles (fileSep)

/-! ## Names in the printcap -/

/-- `Set_DYN`: an empty text is no value. -/
def setDyn (s : Option Bytes) : Option Bytes := s.filter (· ≠ [])

def separated (name : Bytes) : Bool := name.any optionValueSep.contains

/-- `Build_pc_names`: the names in front of the first colon of an entry that is meant for this host. -/
def buildPcNames (names : LineList) (head : Bytes) : LineList :=
  match split [] head [124] false [] false true false with
  | [] => names
  | main :: aliases =>
      if separated main then names
      else (main :: aliases).foldl (fun names name =>
        if separated name then names else names.setStrValue name (some main)) names

/-- What stands behind the key and its separator. -/
def behindKey (line : Bytes) : Option Bytes :=
  match line.dropWhile (!hashValueSep.contains ·) with
  | [] => none
  | _ :: value => some value

/-- `Select_pc_info`, up to the name of the entry that is found. -/
def selectPcInfo (behind : Bytes) (names : LineList) (id : Option Bytes) (wildcard : Bool) : Option Bytes :=
  let spelled := names.findSome? fun line =>
    if id = some (keyOf hashValueSep line) then behindKey line else none
  let matched := names.findSome? fun line =>
    if keyOf hashValueSep line ≠ lit "*" ∧ !globPattern behind (keyOf hashValueSep line) (id.getD []) then
      behindKey line
    else none
  let allGlob := names.findSome? fun line =>
    if keyOf hashValueSep line = lit "*" then behindKey line else none
  (id.bind names.findStrValue) <|> spelled <|> (if wildcard then matched <|> allGlob else none)

/-! ## The variables of a printer -/

/-- The variables that say where a printer leads to. -/
structure Variables where
  spoolDir : Option Bytes
  serverNames : Option Bytes
  destinations : Option Bytes
  remoteHost : Option Bytes
  remotePrinter : Option Bytes
  lpDevice : Option Bytes
  deriving DecidableEq

def Variables.map (f : Bytes → Bytes) (vars : Variables) : Variables where
  spoolDir := vars.spoolDir.map f
  serverNames := vars.serverNames.map f
  destinations := vars.destinations.map f
  remoteHost := vars.remoteHost.map f
  remotePrinter := vars.remotePrinter.map f
  lpDevice := vars.lpDevice.map f

/-- A server: the heads of its printcap entries, what the entry that is found and the configuration
set for a printer asked for under some name, and how percent signs are expanded in it. -/
structure Site where
  heads : List Bytes
  behind : Bytes
  setVarList : (entry printer queue : Option Bytes) → Variables
  expand : (printer queue : Option Bytes) → Bytes → Bytes
  defaultRemoteHost : Option Bytes
  fqdnHost : Bytes
  /-- Whether a directory is there. -/
  spooled : Bytes → Bool
  /-- Whether an address of a host is one of this host. -/
  here : Bytes → Bool

def Site.names (site : Site) : LineList := site.heads.foldl buildPcNames []

/-- A value, or a default in place of none or an empty one. -/
def orDefault (value default : Option Bytes) : Option Bytes :=
  if value.getD [] = [] then setDyn default else value

/-- `Fix_Rm_Rp_info` in the server: the printer under its main name, and its variables. -/
def Site.fixRmRpInfo (site : Site) (printer : Option Bytes) : Option Bytes × Variables :=
  let found := selectPcInfo site.behind site.names printer true <|>
    selectPcInfo site.behind site.names (some (lit "*")) false
  let current :=
    match found with
    | none => printer
    | some name => if name = lit "*" then printer else setDyn (some name)
  let vars := site.setVarList found current printer
  let vars :=
    match vars.lpDevice with
    | none => vars
    | some device =>
        match device.dropWhile (· ≠ 64) with
        | [] => { vars with remoteHost := none, remotePrinter := none }
        | _ :: host =>
            { vars with remotePrinter := some (device.takeWhile (· ≠ 64)),
                        remoteHost := setDyn (some host), lpDevice := none }
  let vars :=
    if vars.lpDevice.isSome then vars
    else
      { vars with
        remoteHost := orDefault (orDefault vars.remoteHost site.defaultRemoteHost) (some site.fqdnHost)
        remotePrinter := orDefault vars.remotePrinter current }
  (current, vars.map (site.expand current printer))

/-- The characters of a clean name. -/
def cleanChar (c : UInt8) : Bool := isAlnum c || (lit "-_.").contains c

/-- `Setup_printer`, where it does not fail. -/
def Site.setupPrinter (site : Site) (printer : Option Bytes) : Option (Option Bytes × Variables) :=
  let name := (printer.getD []).take 511
  if !name.all cleanChar then none
  else
    let fixed := site.fixRmRpInfo (setDyn (some (name.map toLower)))
    match fixed.2.spoolDir with
    | none | some [] => none
    | some dir => if site.spooled dir then some fixed else none

/-! ## Going through the queues -/

/-- The list of what is done, and the queues that were processed, in order. -/
structure Walk where
  done : LineList
  processed : List (Option Bytes)

/-- Whether a printer is in the list. -/
def finished (done : LineList) : Option Bytes → Bool
  | none => false
  | some printer => (done.findFirstKey printer hashValueSep).1 = .eq

/-- The printer a name in a list stands for, where this host serves it. -/
def Site.servedHere (site : Site) (printer : Option Bytes) : Option (Option Bytes) :=
  if !(printer.getD []).contains 64 then some printer
  else
    let fixed := site.fixRmRpInfo printer
    if fixed.2.remoteHost.any site.here then some fixed.1 else none

/-- The names in a list of subservers or destinations. -/
def queueNames (names : Bytes) : List Bytes := split [] names fileSep false [] false false false

/-- `Get_queue_remove` or `Get_queue_status`, where `fails` tells for which queues an error keeps it
from going on. A request to another host adds nothing to what is done here. -/
def Site.getQueue (site : Site) (fails : Option Bytes → Bool) : Nat → Walk → Option Bytes → Option Walk
  | 0, _, _ => none
  | fuel + 1, walk, name =>
      match site.setupPrinter name with
      | none => some walk
      | some (printer, vars) =>
          if finished walk.done printer then some walk
          else
            let walk : Walk :=
              ⟨walk.done.addLineList (printer.getD []) hashValueSep true true, walk.processed ++ [printer]⟩
            let getLocalOrRemote (walk : Walk) (name : Bytes) : Option Walk :=
              match site.servedHere (setDyn (some name)) with
              | none => some walk
              | some printer => site.getQueue fails fuel walk printer
            if fails printer then some walk
            else
              match vars.serverNames, vars.destinations, vars.remoteHost with
              | some names, _, _ => (queueNames names).foldlM getLocalOrRemote walk
              | none, some names, _ => (queueNames names).foldlM getLocalOrRemote walk
              | none, none, some host =>
                  if site.here host ∧ vars.remotePrinter ≠ printer then
                    site.getQueue fails fuel walk (setDyn vars.remotePrinter)
                  else some walk
              | none, none, none => some walk

/-- A job that cannot be removed ends what is done for its queue. -/
def Site.getQueueRemove (site : Site) (unremovable : Option Bytes → Bool) :
    Nat → Walk → Option Bytes → Option Walk := site.getQueue unremovable

/-- Without permission no status is shown of a queue. -/
def Site.getQueueStatus (site : Site) (rejected : Option Bytes → Bool) :
    Nat → Walk → Option Bytes → Option Walk := site.getQueue rejected

/-! ## Main names -/

theorem ne_nil_of_mem_split {str sep piece : Bytes}
    (member : piece ∈ split [] str sep false [] false true false) : piece ≠ [] := by
  have kept : ∀ (parts : List Bytes) (l : LineList), (∀ piece ∈ l, piece ≠ []) →
      ∀ piece ∈ parts.foldl (fun l piece =>
        let piece := if true then trimSpace piece else piece
        if true && piece = [] then l
        else if false && piece.head? = some 35 then l
        else l.addLineList piece [] false false) l, piece ≠ [] := by
    intro parts
    induction parts with
    | nil => exact fun _ full => full
    | cons part parts ih =>
        intro l full
        rw [List.foldl_cons]
        refine ih _ ?_
        by_cases empty : trimSpace part = []
        · simpa [empty] using full
        · intro piece member
          simp only [if_true, Bool.true_and, decide_eq_true_eq, if_neg empty, Bool.false_and,
            Bool.false_eq_true, if_false] at member
          rcases mem_addLineList member with rfl | old
          · exact empty
          · exact full piece old
  exact kept _ [] (fun _ => nofun) piece member

/-- A line of the names: a name and the main name of its entry. -/
def NameLine (line : Bytes) : Prop :=
  ∃ name main, line = name ++ 61 :: main ∧ SepFree name ∧ SepFree main ∧ main ≠ []

theorem sepFree_of_separated {name : Bytes} (free : ¬separated name = true) : SepFree name := by
  intro c member inside
  exact free (List.any_eq_true.mpr ⟨c, member, List.contains_iff_mem.mpr inside⟩)

theorem nameLine_buildPcNames {names : LineList} (plain : ∀ line ∈ names, NameLine line) (head : Bytes) :
    ∀ line ∈ buildPcNames names head, NameLine line := by
  unfold buildPcNames
  cases shape : split [] head [124] false [] false true false with
  | nil => exact plain
  | cons main aliases =>
      dsimp only
      split
      · exact plain
      · next free =>
        have some_ : main ≠ [] := ne_nil_of_mem_split (shape ▸ List.mem_cons_self)
        generalize main :: aliases = parts
        induction parts generalizing names with
        | nil => exact plain
        | cons name parts ih =>
            rw [List.foldl_cons]
            refine ih ?_
            split
            · exact plain
            · next apart =>
              obtain ⟨c, cs, rfl⟩ := List.exists_cons_of_ne_nil some_
              intro line member
              rcases mem_addLineList member with rfl | old
              · exact ⟨name, c :: cs, rfl, sepFree_of_separated apart, sepFree_of_separated free, some_⟩
              · exact plain line old

theorem Site.nameLine (site : Site) : ∀ line ∈ site.names, NameLine line := by
  have kept : ∀ (heads : List Bytes) (names : LineList), (∀ line ∈ names, NameLine line) →
      ∀ line ∈ heads.foldl buildPcNames names, NameLine line := by
    intro heads
    induction heads with
    | nil => exact fun _ plain => plain
    | cons head heads ih => exact fun names plain => ih _ (nameLine_buildPcNames plain head)
  exact kept site.heads [] fun _ member => absurd member List.not_mem_nil

theorem NameLine.main {line name : Bytes} (shape : NameLine line)
    (found : valueOf line = some name ∨ behindKey line = some name) :
    valueOf line = some name ∧ SepFree name ∧ name ≠ [] := by
  obtain ⟨alias_, main, rfl, free, freeMain, some_⟩ := shape
  have value : valueOf (alias_ ++ 61 :: main) = some main := valueOf_keyValue free
  have behind : behindKey (alias_ ++ 61 :: main) = some main := by
    have inside : ∀ c ∈ alias_, (!hashValueSep.contains c) = true := by
      intro c member
      have outside : c ∉ hashValueSep := fun there =>
        free c member (isSeparator_hashValueSep.most c there)
      simpa using outside
    rw [behindKey, (takeWhile_sepFree inside (by decide)).2]
  rw [value, behind, or_self] at found
  obtain rfl := Option.some.inj found
  exact ⟨value, freeMain, some_⟩

theorem exists_of_findStrValue {l : LineList} {key value : Bytes} (found : l.findStrValue key = some value) :
    ∃ line ∈ l, valueOf line = some value := by
  unfold LineList.findStrValue at found
  split at found
  · next mid _ =>
    rcases Nat.lt_or_ge mid l.length with inside | outside
    · rw [List.getD_eq_getElem?_getD, List.getElem?_eq_getElem inside] at found
      exact ⟨_, List.getElem_mem inside, found⟩
    · rw [List.getD_eq_getElem?_getD, List.getElem?_eq_none outside] at found
      cases found
  · cases found

theorem of_orElse {α : Type*} {first second : Option α} {a : α} (found : (first <|> second) = some a) :
    first = some a ∨ second = some a := by
  cases first with
  | none => exact .inr found
  | some _ => exact .inl found

/-- The name that is found is the main name of an entry. -/
theorem exists_of_selectPcInfo {behind : Bytes} {names : LineList} {id : Option Bytes} {wildcard : Bool}
    {name : Bytes} (found : selectPcInfo behind names id wildcard = some name) :
    ∃ line ∈ names, valueOf line = some name ∨ behindKey line = some name := by
  have listed : ∀ {p : Bytes → Prop} [DecidablePred p],
      (names.findSome? fun line => if p line then behindKey line else none) = some name →
      ∃ line ∈ names, valueOf line = some name ∨ behindKey line = some name := by
    intro p _ found
    obtain ⟨line, member, here⟩ := List.exists_of_findSome?_eq_some found
    split at here
    · exact ⟨line, member, .inr here⟩
    · cases here
  unfold selectPcInfo at found
  rcases of_orElse found with exact_ | found
  · obtain ⟨key, -, value⟩ := Option.bind_eq_some_iff.mp exact_
    obtain ⟨line, member, here⟩ := exists_of_findStrValue value
    exact ⟨line, member, .inl here⟩
  rcases of_orElse found with spelled | found
  · exact listed spelled
  split at found
  · rcases of_orElse found with matched | allGlob
    · exact listed matched
    · exact listed allGlob
  · cases found

/-- The main names of the entries. -/
def Site.mains (site : Site) : List Bytes := site.names.filterMap valueOf

/-- A printer is known under the main name of an entry, or under the name it is asked for. -/
theorem Site.fixRmRpInfo_printer (site : Site) (printer : Option Bytes) :
    (site.fixRmRpInfo printer).1 = printer ∨ ∃ name, (site.fixRmRpInfo printer).1 = some name ∧
      name ∈ site.mains ∧ SepFree name ∧ name ≠ [] := by
  have current : (site.fixRmRpInfo printer).1 =
      match (selectPcInfo site.behind site.names printer true <|>
        selectPcInfo site.behind site.names (some (lit "*")) false) with
      | none => printer
      | some name => if name = lit "*" then printer else setDyn (some name) := rfl
  rw [current]
  split
  · exact .inl rfl
  · next name found =>
    split
    · exact .inl rfl
    · have listed : ∃ line ∈ site.names, valueOf line = some name ∨ behindKey line = some name := by
        rcases of_orElse found with asked | any
        · exact exists_of_selectPcInfo asked
        · exact exists_of_selectPcInfo any
      obtain ⟨line, member, here⟩ := listed
      obtain ⟨value, free, some_⟩ := (site.nameLine line member).main here
      refine .inr ⟨name, ?_, List.mem_filterMap.mpr ⟨line, member, value⟩, free, some_⟩
      rw [setDyn, Option.filter_some, if_pos (decide_eq_true some_)]

theorem cleanChar_toLower (c : UInt8) (clean : cleanChar c = true) : toLower c ∉ optionValueSep := by
  have table : ∀ c : UInt8, (!cleanChar c || !optionValueSep.contains (toLower c)) = true :=
    forall_byte (by decide +kernel)
  have here := table c
  rw [clean] at here
  simpa using here

theorem Site.of_setupPrinter {site : Site} {name printer : Option Bytes} {vars : Variables}
    (set_ : site.setupPrinter name = some (printer, vars)) :
    (((name.getD []).take 511).all cleanChar = true) ∧
      site.fixRmRpInfo (setDyn (some (((name.getD []).take 511).map toLower))) = (printer, vars) := by
  unfold Site.setupPrinter at set_
  dsimp only at set_
  split at set_
  · cases set_
  · next clean =>
    refine ⟨by simpa using clean, ?_⟩
    split at set_
    · cases set_
    · cases set_
    · split at set_
      · exact Option.some.inj set_
      · cases set_

/-- The printer that is set up has a main name, a clean name in lower case, or none. -/
theorem Site.setupPrinter_printer {site : Site} {name printer : Option Bytes} {vars : Variables}
    (set_ : site.setupPrinter name = some (printer, vars)) :
    ∀ key ∈ printer, key ≠ [] ∧ SepFree key ∧ (key ∈ site.mains ∨ key.length ≤ 511) := by
  obtain ⟨clean, fixed⟩ := Site.of_setupPrinter set_
  have short : ((name.getD []).take 511).length ≤ 511 := List.length_take_le ..
  generalize (name.getD []).take 511 = cut at clean fixed short
  intro key member
  have known := site.fixRmRpInfo_printer (setDyn (some (cut.map toLower)))
  rw [fixed] at known
  rcases known with asked | ⟨main, found, listed, free, some_⟩
  · have same : setDyn (some (cut.map toLower)) = some key := asked.symm.trans member
    obtain ⟨value, some_⟩ := Option.filter_eq_some_iff.mp same
    obtain rfl := Option.some.inj value
    refine ⟨of_decide_eq_true some_, fun c inside => ?_, .inr ((List.length_map ..).trans_le short)⟩
    obtain ⟨d, there, rfl⟩ := List.mem_map.mp inside
    exact cleanChar_toLower d (List.all_eq_true.mp clean d there)
  · obtain rfl : main = key := Option.some.inj (found.symm.trans member)
    exact ⟨some_, free, .inl listed⟩

theorem Site.setupPrinter_ne_none {site : Site} {name printer : Option Bytes} {vars : Variables}
    (set_ : site.setupPrinter name = some (printer, vars)) (named : name.getD [] ≠ []) : printer ≠ none := by
  obtain ⟨-, fixed⟩ := Site.of_setupPrinter set_
  have known := site.fixRmRpInfo_printer (setDyn (some (((name.getD []).take 511).map toLower)))
  rw [fixed] at known
  rcases known with asked | ⟨main, found, -⟩
  · have some_ : ((name.getD []).take 511).map toLower ≠ [] := by
      simpa using named
    rw [setDyn, Option.filter_some, if_pos (decide_eq_true some_)] at asked
    exact fun unnamed => nomatch asked.symm.trans unnamed
  · exact fun unnamed => nomatch found.symm.trans unnamed

/-! ## Queues as places -/

open Traversal

/-- The names a queue leads to. -/
def Site.links (site : Site) (printer : Option Bytes) (vars : Variables) : List (Option Bytes) :=
  match vars.serverNames, vars.destinations, vars.remoteHost with
  | some names, _, _ => (queueNames names).filterMap fun name => site.servedHere (setDyn (some name))
  | none, some names, _ => (queueNames names).filterMap fun name => site.servedHere (setDyn (some name))
  | none, none, some host =>
      if site.here host ∧ vars.remotePrinter ≠ printer then [setDyn vars.remotePrinter] else []
  | none, none, none => []

/-- What a name stands for: a queue under its printer's name, without regard to case. -/
def Site.enter (site : Site) (fails : Option Bytes → Bool) (name : Option Bytes) :
    Option (Place (Option Bytes) (List ℕ)) :=
  (site.setupPrinter name).map fun (printer, vars) =>
    ⟨printer.map foldCase, if fails printer then [] else site.links printer vars⟩

/-- The list of what is done holds the keys of the printers that have a name. -/
structure Records (walk : Walk) (visited : List (Option (List ℕ))) : Prop where
  processed : walk.processed.map (Option.map foldCase) = visited
  keyed : walk.done.Keyed
  done : ∀ printer : Bytes, printer ≠ [] →
    ((∃ line ∈ walk.done, lineKey line = foldCase printer) ↔ some (foldCase printer) ∈ visited)

theorem records_nil : Records ⟨[], []⟩ [] :=
  ⟨rfl, LineList.keyed_nil, fun _ _ => by simp⟩

section Records

variable {walk : Walk} {visited : List (Option (List ℕ))} {printer : Option Bytes}

theorem Records.finished (records : Records walk visited) (named : ∀ key ∈ printer, key ≠ []) :
    finished walk.done printer = true ↔ printer.isSome ∧ printer.map foldCase ∈ visited := by
  cases printer with
  | none => simp [QueueTraversal.finished]
  | some key =>
      have done := records.done key (named key rfl)
      obtain ⟨lows, found, highs, around, outcome⟩ :=
        (records.keyed.tells isSeparator_hashValueSep key).findFirstKey
      rw [QueueTraversal.finished, decide_eq_true_eq, Option.isSome_some, Option.map_some, ← done]
      cases found with
      | some line =>
          have member : line ∈ walk.done := by
            rw [around.parts]
            exact List.mem_append_right _ List.mem_cons_self
          rw [outcome]
          exact ⟨fun _ => ⟨rfl, line, member, around.equal line rfl⟩, fun _ => rfl⟩
      | none =>
          have absent : lookupKey lineKey (foldCase key) walk.done = none := around.lookupKey_eq
          constructor
          · intro same
            exact (outcome _ (Prod.ext same rfl)).elim
          · rintro ⟨-, line, member, same⟩
            exact (List.find?_eq_none.mp absent line member (by simpa using same)).elim

theorem keyOf_sepFree {key sep : Bytes} (free : SepFree key) (separator : IsSeparator sep) :
    keyOf sep key = key := by
  refine List.takeWhile_eq_self_iff.mpr fun c member => ?_
  have outside : c ∉ sep := fun inside => free c member (separator.most c inside)
  simpa using outside

theorem Records.add (records : Records walk visited) (named : ∀ key ∈ printer, key ≠ [] ∧ SepFree key) :
    Records ⟨walk.done.addLineList (printer.getD []) hashValueSep true true, walk.processed ++ [printer]⟩
      (visited ++ [printer.map foldCase]) := by
  have free : SepFree (printer.getD []) := by
    cases printer with
    | none => exact fun _ => nofun
    | some key => exact (named key rfl).2
  have clear : Clear (printer.getD []) :=
    (keyOf_sepFree free isSeparator_hashValueSep).trans (keyOf_sepFree free isSeparator_optionValueSep).symm
  have key : lineKey (printer.getD []) = foldCase (printer.getD []) :=
    congrArg foldCase (keyOf_sepFree free isSeparator_optionValueSep)
  have added : walk.done.addLineList (printer.getD []) hashValueSep true true =
      insertInto lineKey walk.done [printer.getD []] :=
    records.keyed.addLineList isSeparator_hashValueSep clear
  refine ⟨?_, ?_, fun other some_ => ?_⟩
  · rw [List.map_append, records.processed, List.map_singleton]
  · dsimp only
    rw [added]
    exact records.keyed.insert clear
  · dsimp only
    rw [added, exists_mem_insertInto, records.done other some_, List.mem_append, List.mem_singleton]
    simp only [List.mem_singleton, exists_eq_left, key]
    refine or_congr_right ?_
    cases printer with
    | none =>
        refine ⟨fun same => ?_, fun same => nomatch same⟩
        exact absurd (List.map_eq_nil_iff.mp same.symm) some_
    | some name =>
        exact ⟨fun same => congrArg some same.symm, fun same => (Option.some.inj same).symm⟩

end Records

/-! ## The code as a traversal -/

theorem rel_foldlM {α β γ : Type*} {r : α → β → Prop} {f : α → γ → Option α} {g : β → γ → Option β}
    (step : ∀ a b c, r a b → Option.Rel r (f a c) (g b c)) (l : List γ) {a : α} {b : β} (related : r a b) :
    Option.Rel r (l.foldlM f a) (l.foldlM g b) := by
  induction l generalizing a b with
  | nil => exact .some related
  | cons c l ih =>
      rw [List.foldlM_cons, List.foldlM_cons]
      have first := step a b c related
      cases left : f a c with
      | none =>
          rw [left] at first
          cases right : g b c with
          | none => exact .none
          | some b' =>
              rw [right] at first
              cases first
      | some a' =>
          rw [left] at first
          cases right : g b c with
          | none =>
              rw [right] at first
              cases first
          | some b' =>
              rw [right] at first
              cases first with
              | some related' => exact ih related'

/-- The queues that a queue leads to are gone through in the same way. -/
theorem links_rel {site : Site} {fails : Option Bytes → Bool} {fuel : Nat}
    (ih : ∀ walk visited name, Records walk visited →
      Option.Rel Records (site.getQueue fails fuel walk name) (visit (site.enter fails) fuel visited name))
    {walk : Walk} {visited : List (Option (List ℕ))} (records : Records walk visited) {printer : Option Bytes}
    (vars : Variables) :
    Option.Rel Records
      (match vars.serverNames, vars.destinations, vars.remoteHost with
        | some names, _, _ => (queueNames names).foldlM (fun walk name =>
            match site.servedHere (setDyn (some name)) with
            | none => some walk
            | some printer => site.getQueue fails fuel walk printer) walk
        | none, some names, _ => (queueNames names).foldlM (fun walk name =>
            match site.servedHere (setDyn (some name)) with
            | none => some walk
            | some printer => site.getQueue fails fuel walk printer) walk
        | none, none, some host =>
            if site.here host ∧ vars.remotePrinter ≠ printer then
              site.getQueue fails fuel walk (setDyn vars.remotePrinter)
            else some walk
        | none, none, none => some walk)
      ((site.links printer vars).foldlM (visit (site.enter fails) fuel) visited) := by
  have listed : ∀ names : List Bytes, Option.Rel Records
      (names.foldlM (fun walk name =>
        match site.servedHere (setDyn (some name)) with
        | none => some walk
        | some printer => site.getQueue fails fuel walk printer) walk)
      ((names.filterMap fun name => site.servedHere (setDyn (some name))).foldlM
        (visit (site.enter fails) fuel) visited) := by
    intro names
    rw [List.foldlM_filterMap]
    refine rel_foldlM (fun walk visited name records => ?_) names records
    cases site.servedHere (setDyn (some name)) with
    | none => exact .some records
    | some printer => exact ih walk visited printer records
  unfold Site.links
  cases vars.serverNames with
  | some names => exact listed (queueNames names)
  | none =>
      cases vars.destinations with
      | some names => exact listed (queueNames names)
      | none =>
          cases vars.remoteHost with
          | none => exact .some records
          | some host =>
              dsimp only
              split
              · have single : [setDyn vars.remotePrinter].foldlM (visit (site.enter fails) fuel) visited =
                    visit (site.enter fails) fuel visited (setDyn vars.remotePrinter) := by
                  rw [List.foldlM_cons]
                  exact bind_pure _
                rw [single]
                exact ih walk visited _ records
              · exact .some records

theorem getQueue_rel (site : Site) (fails : Option Bytes → Bool) (fuel : Nat) :
    ∀ walk visited name, Records walk visited →
      Option.Rel Records (site.getQueue fails fuel walk name) (visit (site.enter fails) fuel visited name) := by
  induction fuel with
  | zero => exact fun _ _ _ _ => .none
  | succ fuel ih =>
      intro walk visited name records
      rw [Site.getQueue, visit, Site.enter]
      cases set_ : site.setupPrinter name with
      | none => exact .some records
      | some fixed =>
          obtain ⟨printer, vars⟩ := fixed
          have named := Site.setupPrinter_printer set_
          have done : finished walk.done printer = true ↔
              (printer.map foldCase).isSome = true ∧ printer.map foldCase ∈ visited := by
            rw [Option.isSome_map]
            exact records.finished fun key member => (named key member).1
          have added := records.add fun key member => ⟨(named key member).1, (named key member).2.1⟩
          rw [Option.map_some]
          dsimp only
          by_cases seen : finished walk.done printer = true
          · rw [if_pos seen, if_pos (done.mp seen)]
            exact .some records
          · rw [if_neg seen, if_neg fun again => seen (done.mpr again)]
            by_cases stops : fails printer = true
            · rw [if_pos stops, if_pos stops]
              exact .some added
            · rw [if_neg stops, if_neg stops]
              exact links_rel ih added vars

/-! ## Each queue once -/

/-- One request that starts with an empty list ends, and processes no queue twice. -/
def EndsOnce (request : Nat → Walk → Option Bytes → Option Walk) (name : Option Bytes) : Prop :=
  ∃ fuel walk, request fuel ⟨[], []⟩ name = some walk ∧ (walk.processed.map (Option.map foldCase)).Nodup

theorem foldlM_single (enter : Option Bytes → Option (Place (Option Bytes) (List ℕ))) (fuel : Nat)
    (visited : List (Option (List ℕ))) (name : Option Bytes) :
    [name].foldlM (visit enter fuel) visited = visit enter fuel visited name := by
  rw [List.foldlM_cons]
  exact bind_pure _

theorem endsOnce_iff (site : Site) (fails : Option Bytes → Bool) (name : Option Bytes) :
    EndsOnce (site.getQueue fails) name ↔ ∃ fuel after,
      [name].foldlM (visit (site.enter fails) fuel) [] = some after ∧ after.Nodup := by
  refine exists_congr fun fuel => ?_
  rw [foldlM_single]
  have related := getQueue_rel site fails fuel ⟨[], []⟩ [] name records_nil
  cases left : site.getQueue fails fuel ⟨[], []⟩ name with
  | none =>
      rw [left] at related
      cases right : visit (site.enter fails) fuel [] name with
      | none => simp
      | some after =>
          rw [right] at related
          cases related
  | some walk =>
      rw [left] at related
      cases right : visit (site.enter fails) fuel [] name with
      | none =>
          rw [right] at related
          cases related
      | some after =>
          rw [right] at related
          cases related with
          | some records =>
              rw [← records.processed]
              simp

/-- The keys that printers can have. -/
theorem exists_keys (site : Site) : ∃ keys : Finset (List ℕ), ∀ fails name place,
    site.enter fails name = some place → ∀ key ∈ place.key, key ∈ keys := by
  have : Finite UInt8 := Finite.of_injective UInt8.toFin fun _ _ same => UInt8.toFin_inj.mp same
  have finite : (foldCase '' ({s : Bytes | s.length ≤ 511} ∪ {s | s ∈ site.mains})).Finite :=
    ((List.finite_length_le UInt8 511).union site.mains.finite_toSet).image foldCase
  refine ⟨finite.toFinset, fun fails name place entered key member => ?_⟩
  obtain ⟨⟨printer, vars⟩, set_, rfl⟩ := Option.map_eq_some_iff.mp entered
  obtain ⟨s, here, rfl⟩ := Option.map_eq_some_iff.mp member
  obtain ⟨-, -, known⟩ := Site.setupPrinter_printer set_ s here
  exact finite.mem_toFinset.mpr ⟨s, known.symm, rfl⟩

/-- Where no name on the way is empty, every printer has a name. -/
theorem meetsOnce_of_names {site : Site} {fails : Option Bytes → Bool} {names : List (Option Bytes)}
    (named : ∀ name, Reaches (site.enter fails) names name → name.getD [] ≠ []) :
    MeetsOnce (site.enter fails) names := by
  refine meetsOnce_of_blank fun name reached => ?_
  cases entered : site.enter fails name with
  | none => rw [blank, entered, Option.any_none]
  | some place =>
      obtain ⟨⟨printer, vars⟩, set_, rfl⟩ := Option.map_eq_some_iff.mp entered
      rw [blank_of_enter entered, Option.isNone_eq_false_iff, Option.isSome_map]
      exact Option.isSome_iff_ne_none.mpr (Site.setupPrinter_ne_none set_ (named name reached))

/-- A remove or a status request ends, and processes no queue twice, if a printer without a name is met
once, at most, and not on the way from one; and where what a queue leads to depends only on the
printer, each request that ends so has met no more of them. -/
theorem requests_once (site : Site) (fails : Option Bytes → Bool) (name : Option Bytes) :
    (MeetsOnce (site.enter fails) [name] →
      EndsOnce (site.getQueueRemove fails) name ∧ EndsOnce (site.getQueueStatus fails) name) ∧
    (Keyed (site.enter fails) [name] →
      EndsOnce (site.getQueueRemove fails) name ∨ EndsOnce (site.getQueueStatus fails) name →
      MeetsOnce (site.enter fails) [name]) := by
  obtain ⟨keys, bounded⟩ := exists_keys site
  have ends := endsOnce_iff site fails name
  constructor
  · intro meets
    have once : EndsOnce (site.getQueue fails) name :=
      ends.mpr (meets.nodup fun name place _ entered => bounded fails name place entered)
    exact ⟨once, once⟩
  · intro keyed once
    obtain ⟨fuel, after, run, distinct⟩ := ends.mp (once.elim id id)
    exact meetsOnce_of_nodup keyed run distinct

/-- One printcap entry, with the given names and subservers. -/
def oneEntry (head servers : Bytes) : Site where
  heads := [head]
  behind := []
  setVarList _ _ _ := ⟨some (lit "/var/spool"), some servers, none, none, none, none⟩
  expand _ _ s := s
  defaultRemoteHost := none
  fqdnHost := lit "host"
  spooled _ := true
  here _ := true

/-- Whatever the queue, the names its list leads to are those in the list. -/
theorem oneEntry_links {head servers : Bytes} {name next : Option Bytes} {place : Place (Option Bytes) (List ℕ)}
    (entered : (oneEntry head servers).enter (fun _ => false) name = some place) (member : next ∈ place.links) :
    next ∈ (queueNames servers).filterMap fun name => (oneEntry head servers).servedHere (setDyn (some name)) := by
  obtain ⟨⟨printer, vars⟩, set_, rfl⟩ := Option.map_eq_some_iff.mp entered
  obtain ⟨-, fixed⟩ := Site.of_setupPrinter set_
  have list : vars.serverNames = some servers := congrArg (·.2.serverNames) fixed.symm
  dsimp only at member
  rw [if_neg Bool.false_ne_true, Site.links, list] at member
  exact member

/-- An entry `lp` whose subservers are its alias and itself. -/
theorem aliases_once : EndsOnce ((oneEntry (lit "lp|main") (lit "main,LP")).getQueueRemove fun _ => false)
    (some (lit "main")) := by
  have served : (queueNames (lit "main,LP")).filterMap (fun name =>
      (oneEntry (lit "lp|main") (lit "main,LP")).servedHere (setDyn (some name))) =
        [some (lit "main"), some (lit "LP")] := by decide
  have named : ∀ name, Reaches ((oneEntry (lit "lp|main") (lit "main,LP")).enter fun _ => false)
      [some (lit "main")] name → name.getD [] ≠ [] := by
    intro name reached
    have listed : name ∈ [some (lit "main"), some (lit "LP")] := by
      cases reached with
      | start member => exact List.mem_cons.mpr (.inl (List.mem_singleton.mp member))
      | link _ entered member => exact served ▸ oneEntry_links entered member
    rcases List.mem_cons.mp listed with rfl | rest
    · decide
    · rw [List.mem_singleton.mp rest]
      decide
  exact ((requests_once _ (fun _ => false) (some (lit "main"))).1 (meetsOnce_of_names named)).1

/-- For an entry of all names with an empty name among its subservers, no fuel is enough. -/
theorem empty_name_unending : ∀ fuel walk,
    (oneEntry (lit "*") (lit "a, b")).getQueue (fun _ => false) fuel walk none = none := by
  intro fuel
  induction fuel with
  | zero => exact fun _ => rfl
  | succ fuel ih =>
      intro walk
      have set_ : (oneEntry (lit "*") (lit "a, b")).setupPrinter none =
          some (none, ⟨some (lit "/var/spool"), some (lit "a, b"), none, some (lit "host"), none, none⟩) := by
        decide +kernel
      rw [Site.getQueue, set_]
      dsimp only
      rw [if_neg (fun done : finished walk.done none = true => nomatch done), if_neg Bool.false_ne_true]
      have empty : [] ∈ queueNames (lit "a, b") := by decide
      exact foldlM_none empty (fun walk => ih walk) _

/-- A request for any queue comes to the empty name. -/
theorem empty_name_recursion : ¬∀ (site : Site) (fails : Option Bytes → Bool) (name : Option Bytes),
    EndsOnce (site.getQueueRemove fails) name ∧ EndsOnce (site.getQueueStatus fails) name := by
  intro ends
  obtain ⟨⟨fuel, walk, run, -⟩, -⟩ := ends (oneEntry (lit "*") (lit "a, b")) (fun _ => false) (some (lit "a"))
  have empty : [] ∈ queueNames (lit "a, b") := by decide
  rcases fuel with - | fuel
  · cases run
  have set_ : (oneEntry (lit "*") (lit "a, b")).setupPrinter (some (lit "a")) =
      some ((oneEntry (lit "*") (lit "a, b")).fixRmRpInfo (some (lit "a"))) := rfl
  have list : ((oneEntry (lit "*") (lit "a, b")).fixRmRpInfo (some (lit "a"))).2.serverNames =
      some (lit "a, b") := rfl
  rw [Site.getQueueRemove, Site.getQueue, set_] at run
  generalize (oneEntry (lit "*") (lit "a, b")).fixRmRpInfo (some (lit "a")) = fixed at run list
  obtain ⟨printer, vars⟩ := fixed
  have fresh : ¬finished [] printer = true := by
    cases printer with
    | none => exact Bool.false_ne_true
    | some key => simp [finished, LineList.findFirstKey, search]
  dsimp only at run list
  rw [if_neg fresh, if_neg Bool.false_ne_true, list] at run
  cases (foldlM_none empty (fun walk => empty_name_unending fuel walk) _).symm.trans run

end QueueTraversal

end LPRng
