import LPRng.Printcap

/-!
# Entries of the printcap

`Build_printcap_info` joins the lines of an entry and `Build_pc_names` puts its names into the lists of names and of
primary names. The text of the entry is written anew where it stands, with the names trimmed and the options sorted.
-/

namespace LPRng

namespace PrintcapNames

open IncludeFiles (fileSep)
open QueueTraversal (separated)
open Printcap

/-! ## Reading an entry -/

/-- What an entry may be meant for. -/
structure Host where
  isServer : Bool
  /-- `Match_ipaddr_value` for the host succeeds. -/
  hasAddress : LineList → Bool

/-- The names of an entry. -/
def namesOf (u : Bytes) : List Bytes := split [] (u.takeWhile (· ≠ 58)) [124] false [] false true false

/-- The lines found for `oh`, if any, must name the host. -/
def Host.ohAllows (host : Host) (opts : LineList) : Bool :=
  match opts.findFirstKey (lit "oh") hashValueSep, opts.findLastKey (lit "oh") hashValueSep with
  | (.eq, first), (.eq, last) => ((opts.take (last + 1)).drop first).any fun line =>
      match line.dropWhile (· ≠ 61) with
      | [] => false
      | _ :: hosts => host.hasAddress (split [] hosts fileSep false [] false true false)
  | _, _ => true

/-- Whether an entry has a name, is meant for the host, and its primary name has no separators. -/
def Host.accepts (host : Host) (u : Bytes) : Bool :=
  match namesOf u with
  | [] => false
  | main :: _ =>
      if (optionsOf u).findFlagValue (lit "server") ≠ 0 ∧ host.isServer = false then false
      else if (optionsOf u).findFlagValue (lit "client") ≠ 0 ∧ host.isServer = true then false
      else host.ohAllows (optionsOf u) && !separated main

/-- The text an entry is replaced by. -/
def rewrite (u : Bytes) : Bytes :=
  (optionsOf u).foldl (fun s option => s ++ 58 :: option)
    ((namesOf u).foldl (fun s name => (if s = [] then [] else s ++ [124]) ++ name) [])

inductive Built where
  | refused
  | grew
  | accepted (names order : LineList) (str : Bytes)

/-- The names without separators are set to the primary name. -/
def setNames (names : LineList) (l : List Bytes) (main : Bytes) : LineList :=
  l.foldl (fun names name => if separated name then names else names.setStrValue name (some main)) names

/-- `Build_pc_names`. That the text has grown is a fatal error. -/
def buildPcNames (host : Host) (names order : LineList) (str : Bytes) : Built :=
  if host.accepts str then
    match namesOf str with
    | [] => .refused
    | main :: aliases =>
        let order := if (names.findFirstKey main hashValueSep).1 = .eq then order
          else order.addLineList main [] false false
        let names := setNames names (main :: aliases) main
        if (rewrite str).length > str.length then .grew else .accepted names order (rewrite str)
  else .refused

/-- The lists that are built. -/
structure Info where
  names : LineList
  order : LineList
  list : LineList
deriving DecidableEq

/-- What is done with an entry that is complete. -/
def Info.add (host : Host) (info : Info) (keyid : Bytes) : Option Info :=
  match buildPcNames host info.names info.order keyid with
  | .refused => some info
  | .grew => none
  | .accepted names order str => some ⟨names, order, info.list.addLineList str printcapSep true false⟩

/-! ## Lines of entries -/

/-- The entry that is read, if any, whether its last line ended in a backslash, and what was built. -/
structure Reading where
  keyid : Option Bytes
  appendline : Bool
  info : Info

/-- A text is kept for more lines. -/
def hold (text : Bytes) (info : Info) : Reading :=
  if text.getLast? = some 92 then ⟨some text.dropLast, true, info⟩ else ⟨some text, false, info⟩

def finish (host : Host) (r : Reading) : Option Info :=
  match r.keyid with
  | none => some r.info
  | some keyid => r.info.add host keyid

/-- One line of the printcap. -/
def readLine (host : Host) (r : Reading) (line : Bytes) : Option Reading :=
  match line.dropWhile isSpace with
  | [] => some r
  | c :: t =>
      if c = 35 then some r
      else
        match r.keyid with
        | none => some (hold (c :: t) r.info)
        | some keyid =>
            if printcapSep.contains c || r.appendline then some (hold (keyid ++ 32 :: c :: t) r.info)
            else (finish host r).map (hold (c :: t))

/-- `Build_printcap_info` for lists that are empty. -/
def buildPrintcapInfo (host : Host) (raw : List Bytes) : Option Info :=
  (raw.foldlM (readLine host) ⟨none, false, ⟨[], [], []⟩⟩).bind (finish host)

/-! ## What is asked -/

/-- A text that is kept for more lines, without its backslash at the end. -/
def held (text : Bytes) : Option Bytes × Bool :=
  if text.getLast? = some 92 then (some text.dropLast, true) else (some text, false)

/-- The entries of a printcap, their lines joined. -/
def entryTexts : Option Bytes × Bool → List Bytes → List Bytes
  | (keyid, _), [] => keyid.toList
  | (keyid, appendline), line :: raw =>
      match line.dropWhile isSpace with
      | [] => entryTexts (keyid, appendline) raw
      | c :: t =>
          if c = 35 then entryTexts (keyid, appendline) raw
          else
            match keyid with
            | none => entryTexts (held (c :: t)) raw
            | some text =>
                if printcapSep.contains c || appendline then entryTexts (held (text ++ 32 :: c :: t)) raw
                else text :: entryTexts (held (c :: t)) raw

/-- The entries of a printcap that are accepted. -/
def acceptedOf (host : Host) (raw : List Bytes) : List Bytes := (entryTexts (none, false) raw).filter host.accepts

/-- The primary name of an entry. -/
def mainOf (u : Bytes) : Bytes := (namesOf u).headD []

/-- No option but the last of the sorted ones ends in a backslash. -/
def Separable (u : Bytes) : Prop := ∀ option ∈ (optionsOf u).dropLast, option.getLast? ≠ some 92

/-! ## Lines -/

variable {host : Host}

theorem foldlM_readLine (raw : List Bytes) (keyid : Option Bytes) (appendline : Bool) (info : Info) :
    (raw.foldlM (readLine host) ⟨keyid, appendline, info⟩).bind (finish host) =
      (entryTexts (keyid, appendline) raw).foldlM (Info.add host) info := by
  induction raw generalizing keyid appendline info with
  | nil =>
      cases keyid with
      | none => rfl
      | some text =>
          show info.add host text = (info.add host text).bind some
          rcases info.add host text with - | next
          · rfl
          · rfl
  | cons line raw ih =>
      have holds : ∀ text info, (raw.foldlM (readLine host) (hold text info)).bind (finish host) =
          (entryTexts (held text) raw).foldlM (Info.add host) info := by
        intro text info
        rw [hold, held]
        split
        · exact ih ..
        · exact ih ..
      rw [List.foldlM_cons, entryTexts, readLine]
      rcases line.dropWhile isSpace with - | ⟨c, t⟩
      · exact ih ..
      · dsimp only
        split
        · exact ih ..
        · cases keyid with
          | none => exact holds ..
          | some text =>
              dsimp only
              split
              · exact holds ..
              · rw [List.foldlM_cons]
                show (((info.add host text).map (hold (c :: t))).bind fun r => raw.foldlM (readLine host) r).bind _ = _
                rcases info.add host text with - | next
                · rfl
                · exact holds ..

/-! ## Texts -/

variable {piece : Bytes} {front : Option UInt8}

/-- The pieces of a text without white space at their ends, where something is left. -/
theorem split_trimmed (str sep : Bytes) :
    split [] str sep false [] false true false = ((pieces sep str).map trimSpace).filter (· ≠ []) := by
  have run : ∀ (parts : List Bytes) (l : LineList),
      parts.foldl (fun l piece => l.addLineList piece [] false false) l = l ++ parts := by
    intro parts
    induction parts with
    | nil => exact fun l => (List.append_nil l).symm
    | cons piece parts ih =>
        intro l
        rw [List.foldl_cons, ih]
        exact List.append_assoc l [piece] parts
  exact (foldl_skip (pieces sep str)).trans (run _ [])

/-- How long a text is that has the pieces with a character behind each. -/
def spread (parts : List Bytes) : Nat := (parts.map fun piece => piece.length + 1).sum

theorem spread_cons (piece : Bytes) (parts : List Bytes) : spread (piece :: parts) = piece.length + 1 + spread parts := rfl

theorem spread_pieces (sep str : Bytes) : spread (pieces sep str) ≤ str.length + 1 := by
  induction str with
  | nil => exact Nat.zero_le _
  | cons c str ih =>
      rw [pieces]
      split
      · rw [spread_cons, List.length_cons, List.length_nil]
        omega
      · rcases parts : pieces sep str with - | ⟨piece, rest⟩
        · show 1 + 1 + 0 ≤ _
          rw [List.length_cons]
          omega
        · show (c :: piece).length + 1 + spread rest ≤ _
          rw [parts, spread_cons] at ih
          rw [List.length_cons, List.length_cons]
          omega

theorem spread_escapedPieces (sep escape : Bytes) (front : Option UInt8) (str : Bytes) :
    spread (escapedPieces sep escape front str) ≤ str.length + 1 := by
  induction str generalizing front with
  | nil => exact Nat.zero_le _
  | cons c str ih =>
      rw [escapedPieces]
      split
      · have rest := ih none
        rw [spread_cons, List.length_cons, List.length_nil]
        omega
      · have rest := ih (some c)
        rcases parts : escapedPieces sep escape (some c) str with - | ⟨piece, more⟩
        · show 1 + 1 + 0 ≤ _
          rw [List.length_cons]
          omega
        · show (c :: piece).length + 1 + spread more ≤ _
          rw [parts, spread_cons] at rest
          rw [List.length_cons, List.length_cons]
          omega

theorem length_trimSpace_le (s : Bytes) : (trimSpace s).length ≤ s.length :=
  (List.rdropWhile_prefix isSpace _).length_le.trans (List.dropWhile_suffix isSpace).length_le

/-- Trimming makes nothing longer. -/
theorem spread_trimmed (parts : List Bytes) : spread ((parts.map trimSpace).filter (· ≠ [])) ≤ spread parts := by
  induction parts with
  | nil => exact Nat.le_refl _
  | cons piece parts ih =>
      have shorter := length_trimSpace_le piece
      rw [List.map_cons, List.filter_cons, spread_cons]
      split
      · rw [spread_cons]
        omega
      · omega

/-- The names with a bar between them. -/
def joined (names : List Bytes) : Bytes := names.foldl (fun s name => (if s = [] then [] else s ++ [124]) ++ name) []

/-- The options with a colon in front of each. -/
def marked (options : List Bytes) : Bytes := options.flatMap (58 :: ·)

theorem rewrite_eq (u : Bytes) : rewrite u = joined (namesOf u) ++ marked (optionsOf u) := by
  have run : ∀ (options : List Bytes) (s : Bytes), options.foldl (fun s option => s ++ 58 :: option) s = s ++ marked options := by
    intro options
    induction options with
    | nil => exact fun s => (List.append_nil s).symm
    | cons option options ih =>
        intro s
        rw [List.foldl_cons, ih, List.append_assoc]
        rfl
  exact run _ _

theorem joined_cons (main : Bytes) (aliases : List Bytes) (given : main ≠ []) :
    joined (main :: aliases) = main ++ aliases.flatMap (124 :: ·) := by
  have run : ∀ (names : List Bytes) (s : Bytes), s ≠ [] →
      names.foldl (fun s name => (if s = [] then [] else s ++ [124]) ++ name) s = s ++ names.flatMap (124 :: ·) := by
    intro names
    induction names with
    | nil => exact fun s _ => (List.append_nil s).symm
    | cons name names ih =>
        intro s some_
        rw [List.foldl_cons, if_neg some_, ih _ (by simp), List.flatMap_cons]
        simp
  rw [joined, List.foldl_cons, if_pos rfl, List.nil_append, run _ _ given]

theorem length_marked (sep : UInt8) (options : List Bytes) : (options.flatMap (sep :: ·)).length = spread options := by
  induction options with
  | nil => rfl
  | cons option options ih =>
      rw [List.flatMap_cons, List.length_append, ih, spread_cons, List.length_cons]

theorem spread_perm {parts more : List Bytes} (perm : parts.Perm more) : spread parts = spread more :=
  (perm.map _).sum_eq

theorem optionsOf_perm (u : Bytes) : (optionsOf u).Perm (written u) := by
  have perm := insertBehindAll_perm (k := lineKey) [] (written u)
  rwa [List.append_nil, ← optionsOf_eq] at perm

theorem ne_nil_of_mem_namesOf {u name : Bytes} (member : name ∈ namesOf u) : name ≠ [] := by
  rw [namesOf, split_trimmed] at member
  exact of_decide_eq_true (List.mem_filter.mp member).2

/-- The text does not grow. -/
theorem length_rewrite_le (u : Bytes) : (rewrite u).length ≤ u.length := by
  have parts : u.takeWhile (· ≠ 58) ++ u.dropWhile (· ≠ 58) = u := List.takeWhile_append_dropWhile
  have size : (u.takeWhile (· ≠ 58)).length + (u.dropWhile (· ≠ 58)).length = u.length := by
    rw [← List.length_append, parts]
  have head : (joined (namesOf u)).length ≤ (u.takeWhile (· ≠ 58)).length := by
    have bound : spread (namesOf u) ≤ (u.takeWhile (· ≠ 58)).length + 1 := by
      rw [namesOf, split_trimmed]
      exact (spread_trimmed _).trans (spread_pieces _ _)
    rcases names : namesOf u with - | ⟨main, aliases⟩
    · exact Nat.zero_le _
    · have given : main ≠ [] := ne_nil_of_mem_namesOf (names ▸ List.mem_cons_self)
      rw [names, spread_cons] at bound
      rw [joined_cons main aliases given, List.length_append, length_marked]
      omega
  have tail : (marked (optionsOf u)).length ≤ (u.dropWhile (· ≠ 58)).length := by
    rw [marked, length_marked, spread_perm (optionsOf_perm u), written]
    rcases behind : u.dropWhile (· ≠ 58) with - | ⟨c, text⟩
    · have empty : optionText u = [] := by rw [optionText, behind, List.drop_nil]
      rw [empty, behind]
      exact Nat.le_refl _
    · have rest : optionText u = text := by rw [optionText, behind, List.drop_one, List.tail_cons]
      rw [rest, behind, List.length_cons]
      exact (spread_trimmed _).trans (spread_escapedPieces ..)
  rw [rewrite_eq, List.length_append]
  omega

/-! ## Reading the text again -/

/-- Each colon has a backslash in front of it. -/
def Unbroken : Option UInt8 → Bytes → Prop
  | _, [] => True
  | front, c :: s => (c = 58 → front = some 92) ∧ Unbroken (some c) s

theorem breaks_iff {c : UInt8} : (([58] : Bytes).contains c && !(front = some 92 && ([58] : Bytes).contains c)) = true ↔
    c = 58 ∧ front ≠ some 92 := by
  by_cases colon : c = 58
  · simp [colon]
  · simp [colon]

/-- Pieces the first of which stands behind a character. -/
def AllUnbroken (front : Option UInt8) : List Bytes → Prop
  | [] => True
  | first :: rest => Unbroken front first ∧ ∀ piece ∈ rest, Unbroken none piece

theorem AllUnbroken.of_mem {parts : List Bytes} (all : AllUnbroken none parts) : ∀ piece ∈ parts, Unbroken none piece := by
  cases parts with
  | nil => exact fun _ => nofun
  | cons first rest => exact List.forall_mem_cons.mpr all

theorem allUnbroken_escapedPieces (front : Option UInt8) (str : Bytes) :
    AllUnbroken front (escapedPieces [58] [58] front str) := by
  induction str generalizing front with
  | nil => trivial
  | cons c str ih =>
      rw [escapedPieces]
      by_cases breaks : (([58] : Bytes).contains c && !(front = some 92 && ([58] : Bytes).contains c)) = true
      · rw [if_pos breaks]
        exact ⟨trivial, (ih none).of_mem⟩
      · rw [if_neg breaks]
        have escaped : c = 58 → front = some 92 := fun colon =>
          by_contra fun other => breaks (breaks_iff.mpr ⟨colon, other⟩)
        have rest := ih (some c)
        generalize escapedPieces [58] [58] (some c) str = parts at rest ⊢
        cases parts with
        | nil => exact ⟨⟨escaped, trivial⟩, fun _ => nofun⟩
        | cons first more => exact ⟨⟨escaped, rest.1⟩, rest.2⟩

theorem Unbroken.without_front {c : UInt8} (unbroken : Unbroken (some c) piece) (other : c ≠ 92) : Unbroken none piece := by
  cases piece with
  | nil => trivial
  | cons d piece =>
      refine ⟨fun colon => ?_, unbroken.2⟩
      exact absurd (Option.some.inj (unbroken.1 colon)) other

theorem Unbroken.prefix_ {rest : Bytes} (unbroken : Unbroken front (piece ++ rest)) : Unbroken front piece := by
  induction piece generalizing front with
  | nil => trivial
  | cons c piece ih => exact ⟨unbroken.1, ih unbroken.2⟩

theorem Unbroken.trimSpace (unbroken : Unbroken none piece) : Unbroken none (LPRng.trimSpace piece) := by
  have front : Unbroken none (piece.dropWhile isSpace) := by
    induction piece with
    | nil => trivial
    | cons c piece ih =>
        rw [List.dropWhile_cons]
        split
        · next space =>
            refine ih (unbroken.2.without_front ?_)
            intro slash
            rw [slash] at space
            cases space
        · exact unbroken
  rcases List.rdropWhile_prefix isSpace (piece.dropWhile isSpace) with ⟨rest, whole⟩
  rw [← whole] at front
  exact front.prefix_

theorem escapedPieces_append {rest : Bytes} (unbroken : Unbroken front piece)
    (last : piece.getLast?.or front ≠ some 92) :
    escapedPieces [58] [58] front (piece ++ 58 :: rest) = piece :: escapedPieces [58] [58] none rest := by
  induction piece generalizing front with
  | nil =>
      have other : front ≠ some 92 := last
      rw [List.nil_append, escapedPieces, if_pos (breaks_iff.mpr ⟨rfl, other⟩)]
  | cons c piece ih =>
      have goesOn : ¬(c = 58 ∧ front ≠ some 92) := fun both => both.2 (unbroken.1 both.1)
      have later : piece.getLast?.or (some c) ≠ some 92 := by
        rw [List.getLast?_cons] at last
        cases ends : piece.getLast? with
        | none => simpa [ends] using last
        | some d => simpa [ends] using last
      rw [List.cons_append, escapedPieces, if_neg fun breaks => goesOn (breaks_iff.mp breaks), ih unbroken.2 later]

theorem escapedPieces_whole (unbroken : Unbroken front piece) (given : piece ≠ []) :
    escapedPieces [58] [58] front piece = [piece] := by
  induction piece generalizing front with
  | nil => exact absurd rfl given
  | cons c piece ih =>
      have goesOn : ¬(c = 58 ∧ front ≠ some 92) := fun both => both.2 (unbroken.1 both.1)
      rw [escapedPieces, if_neg fun breaks => goesOn (breaks_iff.mp breaks)]
      cases piece with
      | nil => rfl
      | cons d piece => rw [ih unbroken.2 (List.cons_ne_nil d piece)]

/-- Options that are put together with colons are told apart, if none but the last ends in a backslash. -/
theorem escapedPieces_marked {options : List Bytes} (unbroken : ∀ option ∈ options, Unbroken none option)
    (given : ∀ option ∈ options, option ≠ []) (apart : ∀ option ∈ options.dropLast, option.getLast? ≠ some 92) :
    escapedPieces [58] [58] none ((marked options).drop 1) = options := by
  induction options with
  | nil => rfl
  | cons option options ih =>
      rcases List.forall_mem_cons.mp unbroken with ⟨first, others⟩
      rcases List.forall_mem_cons.mp given with ⟨some_, more⟩
      have text : (marked (option :: options)).drop 1 = option ++ marked options := by
        rw [marked, List.flatMap_cons, List.cons_append, List.drop_one, List.tail_cons]
        rfl
      rw [text]
      cases options with
      | nil =>
          have alone : option ++ marked [] = option := List.append_nil option
          rw [alone, escapedPieces_whole first some_]
      | cons next options =>
          have apart : ∀ other ∈ option :: (next :: options).dropLast, other.getLast? ≠ some 92 := apart
          rcases List.forall_mem_cons.mp apart with ⟨last, rest⟩
          have behind : marked (next :: options) = 58 :: (marked (next :: options)).drop 1 := rfl
          have ends : option.getLast?.or none ≠ some 92 := by rwa [Option.or_none]
          rw [behind, escapedPieces_append first ends, ih others more rest]

/-- The names are parts of the text in front of the first colon, between bars. -/
theorem of_mem_namesOf {u name : Bytes} (member : name ∈ namesOf u) :
    trimSpace name = name ∧ name ≠ [] ∧ 58 ∉ name ∧ 124 ∉ name := by
  have given := ne_nil_of_mem_namesOf member
  rw [namesOf, split_trimmed] at member
  rcases List.mem_map.mp (List.mem_of_mem_filter member) with ⟨piece, inside, rfl⟩
  refine ⟨trimSpace_trimSpace piece, given, fun colon => ?_, fun bar => ?_⟩
  · have outside := List.mem_takeWhile_imp (pieces_subset inside (trimSpace_subset piece colon))
    exact of_decide_eq_true outside rfl
  · exact not_mem_of_mem_pieces inside 124 (trimSpace_subset piece bar) List.mem_cons_self

theorem not_mem_joined {names : List Bytes} (free : ∀ name ∈ names, 58 ∉ name) : 58 ∉ joined names := by
  have run : ∀ (names : List Bytes) (s : Bytes), (∀ name ∈ names, 58 ∉ name) → 58 ∉ s →
      58 ∉ names.foldl (fun s name => (if s = [] then [] else s ++ [124]) ++ name) s := by
    intro names
    induction names with
    | nil => exact fun s _ out => out
    | cons name names ih =>
        intro s free out
        rcases List.forall_mem_cons.mp free with ⟨first, others⟩
        refine ih _ others ?_
        show 58 ∉ (if s = [] then [] else s ++ [124]) ++ name
        split
        · simpa using first
        · simp [out, first]
  exact run names [] free List.not_mem_nil

/-- What stands in front of the first colon of the new text, and from there on. -/
theorem parts_rewrite (u : Bytes) : (rewrite u).takeWhile (· ≠ 58) = joined (namesOf u) ∧
    (rewrite u).dropWhile (· ≠ 58) = marked (optionsOf u) := by
  have inside : ∀ c ∈ joined (namesOf u), decide (c ≠ 58) = true := fun c member =>
    decide_eq_true fun colon => not_mem_joined (fun name named => (of_mem_namesOf named).2.2.1) (colon ▸ member)
  have stops : (marked (optionsOf u)).takeWhile (· ≠ 58) = [] ∧
      (marked (optionsOf u)).dropWhile (· ≠ 58) = marked (optionsOf u) := by
    cases optionsOf u with
    | nil => exact ⟨rfl, rfl⟩
    | cons option options => exact ⟨rfl, rfl⟩
  rw [rewrite_eq, List.takeWhile_append_of_pos inside, List.dropWhile_append_of_pos inside, stops.1, stops.2,
    List.append_nil]
  exact ⟨rfl, rfl⟩

theorem filter_trimmed {parts : List Bytes} (trimmed : ∀ piece ∈ parts, trimSpace piece = piece ∧ piece ≠ []) :
    (parts.map trimSpace).filter (· ≠ []) = parts := by
  have same : parts.map trimSpace = parts :=
    (List.map_congr_left fun piece member => (trimmed piece member).1).trans (List.map_id parts)
  rw [same]
  exact List.filter_eq_self.mpr fun piece member => decide_eq_true (trimmed piece member).2

theorem pieces_joined {names : List Bytes} (given : ∀ name ∈ names, name ≠ []) (free : ∀ name ∈ names, 124 ∉ name) :
    pieces [124] (joined names) = names := by
  cases names with
  | nil => rfl
  | cons main aliases =>
      have whole : ∀ name ∈ main :: aliases, ∀ d ∈ name, d ∉ ([124] : Bytes) := fun name member d inside bar =>
        free name member (List.mem_singleton.mp bar ▸ inside)
      rw [joined_cons main aliases (given main List.mem_cons_self)]
      clear free
      induction aliases generalizing main with
      | nil =>
          rw [List.flatMap_nil, List.append_nil]
          exact pieces_of_whole (whole main List.mem_cons_self) (given main List.mem_cons_self)
      | cons name aliases ih =>
          rcases List.forall_mem_cons.mp given with ⟨-, others⟩
          rcases List.forall_mem_cons.mp whole with ⟨first, more⟩
          rw [List.flatMap_cons, List.cons_append, pieces_append first List.mem_cons_self, ih name others more]

/-- The names are read again as they were. -/
theorem namesOf_rewrite (u : Bytes) : namesOf (rewrite u) = namesOf u := by
  have known : ∀ name ∈ namesOf u, trimSpace name = name ∧ name ≠ [] := fun name member =>
    ⟨(of_mem_namesOf member).1, (of_mem_namesOf member).2.1⟩
  have apart := pieces_joined (fun name member => (known name member).2) fun name member =>
    (of_mem_namesOf member).2.2.2
  rw [namesOf, split_trimmed, (parts_rewrite u).1, apart, filter_trimmed known]

theorem of_mem_written {u option : Bytes} (member : option ∈ written u) :
    trimSpace option = option ∧ option ≠ [] ∧ Unbroken none option := by
  have given := of_decide_eq_true (List.mem_filter.mp member).2
  rcases List.mem_map.mp (List.mem_of_mem_filter member) with ⟨piece, inside, rfl⟩
  have unbroken := (allUnbroken_escapedPieces none (optionText u)).of_mem piece inside
  exact ⟨trimSpace_trimSpace piece, given, unbroken.trimSpace⟩

/-- The options are read again in their new order. -/
theorem written_rewrite {u : Bytes} (apart : Separable u) : written (rewrite u) = optionsOf u := by
  have known : ∀ option ∈ optionsOf u, trimSpace option = option ∧ option ≠ [] ∧ Unbroken none option :=
    fun option member => of_mem_written (mem_optionsOf.mp member)
  have text : optionText (rewrite u) = (marked (optionsOf u)).drop 1 := by rw [optionText, (parts_rewrite u).2]
  have split := escapedPieces_marked (fun option member => (known option member).2.2)
    (fun option member => (known option member).2.1) apart
  rw [written, text, split]
  exact filter_trimmed fun option member => ⟨(known option member).1, (known option member).2.1⟩

/-! ## The lists -/

/-- The names an entry is found by. -/
def legalNames (u : Bytes) : List Bytes := (namesOf u).filter (!separated ·)

/-- The lines of the names of an entry. -/
def nameLines (u : Bytes) : List Bytes := (legalNames u).map (· ++ 61 :: mainOf u)

theorem sepFree_of_legal {u name : Bytes} (legal : name ∈ legalNames u) : SepFree name := by
  have free := (List.mem_filter.mp legal).2
  exact QueueTraversal.sepFree_of_separated fun hit => by simp [hit] at free

theorem setNames_eq {names : LineList} (keyed : names.Keyed) (l : List Bytes) {main : Bytes} (given : main ≠ []) :
    setNames names l main = insertInto lineKey names ((l.filter (!separated ·)).map (· ++ 61 :: main)) ∧
      (setNames names l main).Keyed := by
  induction l generalizing names with
  | nil => exact ⟨rfl, keyed⟩
  | cons name l ih =>
      rw [setNames, List.foldl_cons, List.filter_cons]
      by_cases apart : separated name = true
      · rw [if_pos apart, if_neg (by simp [apart])]
        exact ih keyed
      · have free := QueueTraversal.sepFree_of_separated apart
        have set_ : names.setStrValue name (some main) = insertKey lineKey (name ++ 61 :: main) names := by
          rw [keyed.setStrValue free, Option.filter_some, if_pos (decide_eq_true given)]
        rw [if_neg apart, if_pos (by simp [apart]), set_]
        exact ih (keyed.insert (clear_keyValue free main))

/-- An accepted entry has a primary name, which is one of its legal names. -/
theorem main_of_accepts {u : Bytes} (accepted : host.accepts u = true) :
    ∃ aliases, namesOf u = mainOf u :: aliases ∧ mainOf u ∈ legalNames u := by
  rw [Host.accepts] at accepted
  rw [mainOf, legalNames]
  rcases names : namesOf u with - | ⟨main, aliases⟩
  · rw [names] at accepted
    cases accepted
  · rw [names] at accepted
    refine ⟨aliases, rfl, List.mem_filter.mpr ⟨List.mem_cons_self, ?_⟩⟩
    dsimp only at accepted
    split at accepted
    · cases accepted
    · split at accepted
      · cases accepted
      · exact (Bool.and_eq_true_iff.mp accepted).2

/-- Whether a name is among the names of these entries. -/
def Known (entries : List Bytes) (name : Bytes) : Prop :=
  ∃ u ∈ entries, ∃ other ∈ legalNames u, foldCase other = foldCase name

/-- The lists after these entries. -/
structure Holds (info : Info) (entries : List Bytes) : Prop where
  names : info.names = insertInto lineKey [] (entries.flatMap nameLines)
  keyed : info.names.Keyed
  list : info.list = insertBehindAll (sepKey printcapSep) [] (entries.map rewrite)
  mains : ∀ name ∈ info.order, ∃ u ∈ entries, name = mainOf u
  once : info.order.Pairwise fun a b => foldCase a ≠ foldCase b
  first : ∀ before u after, entries = before ++ u :: after → ¬Known before (mainOf u) → mainOf u ∈ info.order

theorem holds_nil : Holds ⟨[], [], []⟩ [] :=
  ⟨rfl, LineList.keyed_nil, rfl, fun _ => nofun, List.Pairwise.nil, fun before u after whole => by simp at whole⟩

theorem lineKey_nameLine {u name : Bytes} (legal : name ∈ legalNames u) :
    lineKey (name ++ 61 :: mainOf u) = foldCase name :=
  lineKey_keyValue (sepFree_of_legal legal) (mainOf u)

variable {info : Info} {entries : List Bytes}

theorem known_iff_run (entries : List Bytes) (name : Bytes) :
    runOf lineKey (foldCase name) (entries.flatMap nameLines) ≠ [] ↔ Known entries name := by
  rw [runOf_ne_nil_iff]
  constructor
  · intro found
    rcases found with ⟨line, member, same⟩
    rcases List.mem_flatMap.mp member with ⟨u, inside, named⟩
    rcases List.mem_map.mp named with ⟨other, legal, rfl⟩
    exact ⟨u, inside, other, legal, (lineKey_nameLine legal).symm.trans same⟩
  · intro known
    rcases known with ⟨u, inside, other, legal, same⟩
    exact ⟨_, List.mem_flatMap.mpr ⟨u, inside, List.mem_map_of_mem legal⟩, (lineKey_nameLine legal).trans same⟩

theorem Holds.lookupKey_eq (holds : Holds info entries) (name : Bytes) :
    lookupKey lineKey (foldCase name) info.names = (runOf lineKey (foldCase name) (entries.flatMap nameLines)).getLast? := by
  rw [holds.names, lookupKey_insertInto_getLast]
  exact Option.or_none

/-- A name that is looked for is found if it is known. -/
theorem Holds.findFirstKey_iff (holds : Holds info entries) (name : Bytes) :
    (info.names.findFirstKey name hashValueSep).1 = .eq ↔ Known entries name := by
  rw [← known_iff_run, ← List.getLast?_isSome, ← holds.lookupKey_eq, Option.isSome_iff_ne_none]
  rcases (holds.keyed.tells isSeparator_hashValueSep name).findFirstKey with ⟨lows, found, highs, around, outcome⟩
  rw [around.lookupKey_eq]
  cases found with
  | some line =>
      rw [outcome]
      exact ⟨fun _ => nofun, fun _ => rfl⟩
  | none =>
      refine ⟨fun equal => ?_, fun absent => absurd rfl absent⟩
      rcases shape : info.names.findFirstKey name hashValueSep with ⟨cmp, mid⟩
      rw [shape] at equal
      have hit : cmp = .eq := equal
      exact absurd (hit ▸ shape) (outcome mid)

/-- A known name is mapped to the primary name of an entry. -/
theorem Holds.findStrValue_of_known (holds : Holds info entries) {name : Bytes} (known : Known entries name) :
    ∃ u ∈ entries, info.names.findStrValue name = some (mainOf u) := by
  have given := (known_iff_run entries name).mpr known
  have last : (runOf lineKey (foldCase name) (entries.flatMap nameLines)).getLast? =
      some ((runOf lineKey (foldCase name) (entries.flatMap nameLines)).getLast given) := List.getLast?_eq_some_getLast given
  have member := (mem_runOf.mp (List.getLast_mem given)).1
  rcases List.mem_flatMap.mp member with ⟨u, inside, named⟩
  rcases List.mem_map.mp named with ⟨other, legal, line⟩
  refine ⟨u, inside, ?_⟩
  rw [holds.keyed.findStrValue, holds.lookupKey_eq, last, Option.bind_some, ← line]
  exact valueOf_keyValue (sepFree_of_legal legal)

/-- A place in a list with one more entry is the last or a place in the list. -/
theorem last_or_earlier {u v : Bytes} {before after : List Bytes} (whole : entries ++ [u] = before ++ v :: after) :
    (before = entries ∧ v = u) ∨ ∃ rest, entries = before ++ v :: rest := by
  rcases List.eq_nil_or_concat after with rfl | ⟨rest, w, rfl⟩
  · rcases List.append_inj' whole rfl with ⟨front, last⟩
    exact .inl ⟨front.symm, (List.singleton_inj.mp last).symm⟩
  · rw [List.concat_eq_append, ← List.cons_append, ← List.append_assoc] at whole
    exact .inr ⟨rest, (List.append_inj' whole rfl).1⟩

/-- One more entry is accepted. -/
theorem Holds.add (holds : Holds info entries) (legalMain : ∀ v ∈ entries, mainOf v ∈ legalNames v) {u : Bytes}
    (accepted : host.accepts u = true) :
    ∃ next, info.add host u = some next ∧ Holds next (entries ++ [u]) := by
  rcases main_of_accepts accepted with ⟨aliases, names, legal⟩
  have given : mainOf u ≠ [] := ne_nil_of_mem_namesOf (names ▸ List.mem_cons_self)
  have fits : ¬(rewrite u).length > u.length := Nat.not_lt_of_le (length_rewrite_le u)
  rcases setNames_eq holds.keyed (mainOf u :: aliases) given with ⟨set_, keyed⟩
  have lines : ((mainOf u :: aliases).filter (!separated ·)).map (· ++ 61 :: mainOf u) = nameLines u := by
    rw [nameLines, legalNames, names]
  have together : insertInto lineKey info.names (nameLines u) =
      insertInto lineKey [] ((entries ++ [u]).flatMap nameLines) := by
    rw [holds.names, ← insertInto_append, List.flatMap_append, List.flatMap_cons, List.flatMap_nil, List.append_nil]
  have ordered : KeyOrdered (sepKey printcapSep) info.list := holds.list ▸ keyOrdered_nil.insertBehindAll _
  have behind : info.list.addLineList (rewrite u) printcapSep true false =
      insertBehindAll (sepKey printcapSep) [] ((entries ++ [u]).map rewrite) := by
    rw [LineList.addLineList_behind ordered, holds.list, List.map_append, insertBehindAll, insertBehindAll,
      List.foldl_append]
    rfl
  have same : ∀ order, (∀ name ∈ order, ∃ v ∈ entries ++ [u], name = mainOf v) →
      (order.Pairwise fun a b => foldCase a ≠ foldCase b) →
      (∀ before v after, entries ++ [u] = before ++ v :: after → ¬Known before (mainOf v) → mainOf v ∈ order) →
      Holds ⟨setNames info.names (mainOf u :: aliases) (mainOf u), order,
        info.list.addLineList (rewrite u) printcapSep true false⟩ (entries ++ [u]) := fun order mains once first =>
    ⟨(set_.trans (congrArg _ lines)).trans together, keyed, behind, mains, once, first⟩
  by_cases known : Known entries (mainOf u)
  · refine ⟨_, ?_, same info.order (fun name member => ?_) holds.once fun before v after whole fresh => ?_⟩
    · rw [Info.add, buildPcNames, if_pos accepted, names]
      simp only [if_pos ((holds.findFirstKey_iff (mainOf u)).mpr known), if_neg fits]
    · rcases holds.mains name member with ⟨v, inside, main⟩
      exact ⟨v, List.mem_append_left _ inside, main⟩
    · rcases last_or_earlier whole with ⟨rfl, rfl⟩ | ⟨rest, parts⟩
      · exact absurd known fresh
      · exact holds.first before v rest parts fresh
  · refine ⟨_, ?_, same (info.order ++ [mainOf u]) (fun name member => ?_) ?_ fun before v after whole fresh => ?_⟩
    · rw [Info.add, buildPcNames, if_pos accepted, names]
      simp only [if_neg fun found => known ((holds.findFirstKey_iff (mainOf u)).mp found), if_neg fits]
      rfl
    · rcases List.mem_append.mp member with old | new
      · rcases holds.mains name old with ⟨v, inside, main⟩
        exact ⟨v, List.mem_append_left _ inside, main⟩
      · exact ⟨u, List.mem_append_right _ List.mem_cons_self, List.mem_singleton.mp new⟩
    · refine List.pairwise_append.mpr ⟨holds.once, List.pairwise_singleton _ _, fun name member other new equal => ?_⟩
      rcases holds.mains name member with ⟨v, inside, rfl⟩
      rw [List.mem_singleton.mp new] at equal
      exact known ⟨v, inside, mainOf v, legalMain v inside, equal⟩
    · rcases last_or_earlier whole with ⟨-, rfl⟩ | ⟨rest, parts⟩
      · exact List.mem_append_right _ List.mem_cons_self
      · exact List.mem_append_left _ (holds.first before v rest parts fresh)

theorem add_of_refused {u : Bytes} (refused : host.accepts u = false) (info : Info) : info.add host u = some info := by
  rw [Info.add, buildPcNames, refused]
  rfl

theorem Holds.foldlM (holds : Holds info entries) (legalMain : ∀ v ∈ entries, mainOf v ∈ legalNames v)
    (texts : List Bytes) : ∃ next, texts.foldlM (Info.add host) info = some next ∧
      Holds next (entries ++ texts.filter host.accepts) := by
  induction texts generalizing info entries with
  | nil => exact ⟨info, rfl, (List.append_nil entries).symm ▸ holds⟩
  | cons u texts ih =>
      rw [List.foldlM_cons, List.filter_cons]
      by_cases accepted : host.accepts u = true
      · rcases main_of_accepts accepted with ⟨-, -, legal⟩
        rcases holds.add legalMain accepted with ⟨next, added, more⟩
        rw [added, if_pos accepted, ← List.singleton_append, ← List.append_assoc]
        refine ih more fun v member => ?_
        rcases List.mem_append.mp member with old | new
        · exact legalMain v old
        · exact List.mem_singleton.mp new ▸ legal
      · rw [add_of_refused (Bool.eq_false_iff.mpr accepted), if_neg accepted]
        exact ih holds legalMain

/-- An entry is found by its primary name. -/
theorem keyOf_rewrite {u : Bytes} (accepted : host.accepts u = true) : keyOf printcapSep (rewrite u) = mainOf u := by
  rcases main_of_accepts accepted with ⟨aliases, names, -⟩
  have member : mainOf u ∈ namesOf u := names ▸ List.mem_cons_self
  rcases of_mem_namesOf member with ⟨-, given, colon, bar⟩
  have inside : ∀ c ∈ mainOf u, (!printcapSep.contains c) = true := by
    intro c named
    have noBar : c ≠ 124 := fun same => bar (same ▸ named)
    have noColon : c ≠ 58 := fun same => colon (same ▸ named)
    rw [Bool.not_eq_true', Bool.eq_false_iff]
    intro hit
    rcases List.mem_cons.mp (List.contains_iff_mem.mp hit) with same | more
    · exact noBar same
    · exact noColon (List.mem_singleton.mp more)
  have stops : (aliases.flatMap (124 :: ·) ++ marked (optionsOf u)).takeWhile (!printcapSep.contains ·) = [] := by
    cases aliases with
    | cons name aliases => rfl
    | nil =>
        cases optionsOf u with
        | nil => rfl
        | cons option options => rfl
  rw [keyOf, rewrite_eq, names, joined_cons _ _ given, List.append_assoc, List.takeWhile_append_of_pos inside, stops,
    List.append_nil]

/-- What becomes of a printcap. -/
structure Normalised (host : Host) (raw : List Bytes) (info : Info) : Prop where
  /-- The entries that are accepted are kept with their new texts. -/
  list : info.list = insertBehindAll (sepKey printcapSep) [] ((acceptedOf host raw).map rewrite)
  noLonger : ∀ u ∈ acceptedOf host raw, (rewrite u).length ≤ u.length
  sameNames : ∀ u ∈ acceptedOf host raw, namesOf (rewrite u) = namesOf u
  sameOptions : ∀ u ∈ acceptedOf host raw, Separable u → (written (rewrite u)).Perm (written u) ∧
    ∀ key, runOf lineKey key (written (rewrite u)) = runOf lineKey key (written u)
  /-- A primary name that no entry before has as a name is in the list of primary names, and none is twice. -/
  mains : ∀ name ∈ info.order, ∃ u ∈ acceptedOf host raw, name = mainOf u
  once : info.order.Pairwise fun a b => foldCase a ≠ foldCase b
  first : ∀ before u after, acceptedOf host raw = before ++ u :: after →
    (∀ v ∈ before, ∀ name ∈ namesOf v, foldCase name ≠ foldCase (mainOf u)) → mainOf u ∈ info.order
  /-- A name without separators leads to an entry. -/
  aliases : ∀ u ∈ acceptedOf host raw, ∀ name ∈ namesOf u, separated name = false →
    ∃ v ∈ acceptedOf host raw, info.names.findStrValue name = some (mainOf v) ∧
      (info.list.findFirstKey (mainOf v) printcapSep).1 = .eq ∧ (info.list.findLastKey (mainOf v) printcapSep).1 = .eq

end PrintcapNames

end LPRng
