import LPRng.FixDollars
import LPRng.Printcap

/-!
# Texts taken apart and put together

`Split` walks over a text with pointers: one looks for the end of the piece, one leaves out what stands before the piece
and may run past that end, and one goes back over the white space behind the piece. What it adds to the list is compared
with the pieces of the text, each taken for itself, and with the lists from which `Join_line_list_with_sep` makes a text.
-/

namespace LPRng

namespace SplitText

open FixDollars (isPrint)
open Printcap (escapedPieces splitEscaped)

/-- The arguments of `Split` besides the list and the text. A NULL is an empty string here. -/
structure Options where
  sep : Bytes
  sort : Bool
  keysep : Bytes
  uniq : Bool
  trim : Int
  nocomments : Bool
  escape : Bytes

/-- The characters in front of the next separator that is not escaped. `front` is the character before the text, if it
belongs to the piece. -/
def findEnd (sep escape : Bytes) : Option UInt8 → Bytes → Option Nat
  | _, [] => none
  | front, c :: s =>
      if sep.contains c && !(front = some 92 && escape.contains c) then some 0
      else (findEnd sep escape (some c) s).map (· + 1)

/-- The way of `t` back over white space, down to the start of the piece. -/
def stepBack (text : Bytes) (start : Nat) : Nat → Nat
  | 0 => 0
  | t + 1 => if start < t + 1 && isSpace (text.getD t 0) then stepBack text start t else t + 1

namespace Options

variable (o : Options)

/-- The character that is left out at the start of a piece. -/
def isLead (c : UInt8) : Bool := (c.toNat : Int) == o.trim && isPrint o.trim

/-- How far `str` moves over the text. The end of the piece does not stop it. -/
def skipStart (text : Bytes) : Nat :=
  let blank := (text.takeWhile isSpace).length
  if o.isLead (text.getD blank 0) then blank + 1 else blank

/-- What is copied of a piece that ends at `t`. -/
def copied (text : Bytes) (t : Nat) : Option Bytes :=
  let start := if o.trim ≠ 0 then o.skipStart text else 0
  let stop := if o.trim ≠ 0 then stepBack text start t else t
  if stop < start then none
  else if o.trim ≠ 0 ∧ stop = start then none
  else if o.nocomments ∧ text.getD start 0 = 35 then none
  else some ((text.drop start).take (stop - start))

/-- The text behind the separator. -/
def rest (text : Bytes) : Bytes :=
  match findEnd o.sep o.escape none text with
  | none => []
  | some t => text.drop (t + 1)

def put (l : LineList) : Option Bytes → LineList
  | none => l
  | some str => l.addLineList str o.keysep o.sort o.uniq

theorem length_rest_lt (c : UInt8) (s : Bytes) : (o.rest (c :: s)).length < (c :: s).length := by
  unfold rest
  split
  · exact Nat.succ_pos _
  · rw [List.length_drop, List.length_cons]
    omega

/-- The loop of `Split`. -/
def splitFrom (l : LineList) : Bytes → LineList
  | [] => l
  | c :: s =>
      let t := (findEnd o.sep o.escape none (c :: s)).getD (c :: s).length
      splitFrom (o.put l (o.copied (c :: s) t)) (o.rest (c :: s))
termination_by text => text.length
decreasing_by exact o.length_rest_lt c s

def split (l : LineList) (str : Option Bytes) : LineList := o.splitFrom l (str.getD [])

end Options

/-- `Join_line_list`, which is NULL if there is nothing to join. -/
def joinLineList (l : LineList) (sep : Bytes) : Option Bytes :=
  let str := (l.filter (· ≠ [])).flatMap (· ++ sep)
  if str.length = 0 then none else some str

/-- `Join_line_list_with_sep`, the last separator is cut off. -/
def joinLineListWithSep (l : LineList) (sep : Bytes) : Option Bytes :=
  (joinLineList l sep).map fun s => s.take (s.length - sep.length)

/-! ## The pieces of a text -/

/-- The pieces of a text, each with the separator that ends it. -/
def endedPieces (sep escape : Bytes) : Option UInt8 → Bytes → List (Bytes × Option UInt8)
  | _, [] => []
  | front, c :: s =>
      if sep.contains c && !(front = some 92 && escape.contains c) then ([], some c) :: endedPieces sep escape none s
      else
        match endedPieces sep escape (some c) s with
        | [] => [([c], none)]
        | (piece, ending) :: more => (c :: piece, ending) :: more

variable {sep escape text piece behind : Bytes} {front ending : Option UInt8} {c : UInt8} {t : Nat}

theorem map_fst_endedPieces (front : Option UInt8) (text : Bytes) :
    (endedPieces sep escape front text).map Prod.fst = escapedPieces sep escape front text := by
  induction text generalizing front with
  | nil => rfl
  | cons c s ih =>
      rw [endedPieces, escapedPieces]
      split
      · rw [List.map_cons, ih]
      · rw [← ih (some c)]
        rcases endedPieces sep escape (some c) s with - | ⟨⟨piece, ending⟩, more⟩
        · rfl
        · rfl

theorem findEnd_some (found : findEnd sep escape front text = some t) : ∃ piece c s, text = piece ++ c :: s ∧
    piece.length = t ∧ endedPieces sep escape front text = (piece, some c) :: endedPieces sep escape none s := by
  induction text generalizing front t with
  | nil => cases found
  | cons c s ih =>
      rw [findEnd] at found
      rw [endedPieces]
      split at found
      · rename_i ends
        rw [if_pos ends]
        cases found
        exact ⟨[], c, s, rfl, rfl, rfl⟩
      · rename_i inside
        rw [if_neg inside]
        obtain ⟨t, later, rfl⟩ := Option.map_eq_some_iff.mp found
        obtain ⟨piece, d, u, rfl, rfl, parts⟩ := ih later
        rw [parts]
        exact ⟨c :: piece, d, u, rfl, rfl, rfl⟩

theorem findEnd_none (given : text ≠ []) (found : findEnd sep escape front text = none) :
    endedPieces sep escape front text = [(text, none)] := by
  induction text generalizing front with
  | nil => exact absurd rfl given
  | cons c s ih =>
      rw [findEnd] at found
      rw [endedPieces]
      split at found
      · cases found
      · rename_i inside
        have later := Option.map_eq_none_iff.mp found
        rw [if_neg inside]
        cases s with
        | nil => rfl
        | cons d u => rw [ih (List.cons_ne_nil d u) later]

/-! ## One piece -/

namespace Options

variable (o : Options)

/-- At most one character is left out at the start. -/
def withoutLead : Bytes → Bytes
  | [] => []
  | c :: s => if o.isLead c then s else c :: s

/-- A piece as the pointers leave it. -/
def cut (piece : Bytes) : Bytes :=
  if o.trim = 0 then piece else (o.withoutLead (piece.dropWhile isSpace)).rdropWhile isSpace

/-- What becomes of a piece. The sign of a comment is looked for behind an empty piece, too. -/
def taken (p : Bytes × Option UInt8) : Option Bytes :=
  if o.trim ≠ 0 ∧ o.cut p.1 = [] then none
  else if o.nocomments ∧ (o.cut p.1).head?.or p.2 = some 35 then none
  else some (o.cut p.1)

end Options

theorem stepBack_of_le {start : Nat} (le : t ≤ start) : stepBack text start t = t := by
  cases t with
  | zero => rfl
  | succ t =>
      have past : ¬ start < t + 1 := by omega
      rw [stepBack, decide_eq_false past, Bool.false_and, if_neg Bool.false_ne_true]

theorem stepBack_append (a w behind : Bytes) :
    stepBack (a ++ w ++ behind) a.length (a.length + w.length) = a.length + (w.rdropWhile isSpace).length := by
  induction w using List.reverseRecOn generalizing behind with
  | nil => exact stepBack_of_le le_rfl
  | append_singleton w d ih =>
      have here : (a ++ (w ++ [d]) ++ behind).getD (a.length + w.length) 0 = d := by
        rw [← List.append_assoc a, List.append_assoc (a ++ w), List.getD_eq_getElem?_getD,
          List.getElem?_append_right (by rw [List.length_append]), List.length_append, Nat.sub_self]
        rfl
      have within : a.length < a.length + w.length + 1 := by omega
      rw [List.length_append, List.length_singleton, ← Nat.add_assoc, stepBack, here, decide_eq_true within,
        Bool.true_and, List.rdropWhile_concat]
      split
      · have shape : a ++ (w ++ [d]) ++ behind = a ++ w ++ (d :: behind) := by
          rw [← List.append_assoc a, List.append_assoc (a ++ w)]
          rfl
        rw [shape, ih]
      · rw [List.length_append, List.length_singleton]
        omega

theorem head?_rdropWhile {w : Bytes} (given : w.rdropWhile isSpace ≠ []) :
    (w.rdropWhile isSpace).head? = w.head? := by
  obtain ⟨tail, whole⟩ := List.rdropWhile_prefix isSpace w
  rcases cutOff : w.rdropWhile isSpace with - | ⟨d, u⟩
  · exact absurd cutOff given
  · rw [← whole, cutOff]
    rfl

namespace Options

variable {o : Options}

/-- Where something stands before the end of the piece besides white space, `str` stops in the piece. -/
theorem skipStart_append (given : piece.dropWhile isSpace ≠ []) (behind : Bytes) : ∃ a,
    piece = a ++ o.withoutLead (piece.dropWhile isSpace) ∧ o.skipStart (piece ++ behind) = a.length := by
  have blanks : ∀ d ∈ piece.takeWhile isSpace, isSpace d = true := fun d member => List.mem_takeWhile_imp member
  have whole := List.takeWhile_append_dropWhile (p := isSpace) (l := piece)
  have first := List.head?_dropWhile_not isSpace piece
  revert first blanks whole given
  generalize piece.takeWhile isSpace = blank
  rcases piece.dropWhile isSpace with - | ⟨d, q⟩
  · exact fun given => absurd rfl given
  · rintro - blanks rfl first
    have stops : ((blank ++ d :: q) ++ behind).takeWhile isSpace = blank := by
      rw [List.append_assoc, List.takeWhile_append_of_pos blanks, List.cons_append,
        List.takeWhile_cons_of_neg (ne_true_of_eq_false first), List.append_nil]
    have here : ((blank ++ d :: q) ++ behind).getD blank.length 0 = d := by
      rw [List.append_assoc, List.getD_eq_getElem?_getD, List.getElem?_append_right le_rfl, Nat.sub_self]
      rfl
    simp only [skipStart, withoutLead, stops, here]
    split
    · exact ⟨blank ++ [d], by rw [List.append_assoc]; rfl, by rw [List.length_append]; rfl⟩
    · exact ⟨blank, rfl, rfl⟩

/-- Where the piece is white space, `str` goes at least to its end. -/
theorem le_skipStart (blank : piece.dropWhile isSpace = []) (behind : Bytes) :
    piece.length ≤ o.skipStart (piece ++ behind) := by
  have blanks := List.dropWhile_eq_nil_iff.mp blank
  have long : piece.length ≤ ((piece ++ behind).takeWhile isSpace).length := by
    rw [List.takeWhile_append_of_pos blanks, List.length_append]
    omega
  simp only [skipStart]
  split
  · exact long.trans (Nat.le_succ _)
  · exact long

/-- What is copied depends on the piece and on the character that ends it. -/
theorem copied_eq (piece behind : Bytes) :
    o.copied (piece ++ behind) piece.length = o.taken (piece, behind.head?) := by
  unfold copied taken cut
  by_cases off : o.trim = 0
  · have first : ((piece ++ behind).getD 0 0 = 35) ↔ piece.head?.or behind.head? = some 35 := by
      rcases piece with - | ⟨d, q⟩
      · rcases behind with - | ⟨e, r⟩
        · exact ⟨fun same => absurd same (by decide), nofun⟩
        · exact Option.some_inj.symm
      · exact Option.some_inj.symm
    simp only [off, ne_eq, not_true_eq_false, if_false, if_true, false_and, Nat.not_lt_zero, first, Nat.sub_zero,
      List.drop_zero, List.take_left']
  · simp only [off, ne_eq, not_false_eq_true, if_true, if_false, true_and]
    by_cases blank : piece.dropWhile isSpace = []
    · have past := le_skipStart (o := o) blank behind
      rw [stepBack_of_le past, blank, withoutLead, List.rdropWhile_nil, if_pos rfl]
      split
      · rfl
      · rw [if_pos (by omega)]
    · obtain ⟨a, whole, start⟩ := skipStart_append (o := o) blank behind
      generalize o.withoutLead (piece.dropWhile isSpace) = w at whole
      subst whole
      rw [start, List.length_append, stepBack_append, if_neg (by omega)]
      by_cases nothing : w.rdropWhile isSpace = []
      · rw [nothing, if_pos rfl, if_pos (by rfl)]
      · have long := List.length_pos_of_ne_nil nothing
        have first : ((a ++ w ++ behind).getD a.length 0 = 35) ↔
            (w.rdropWhile isSpace).head?.or behind.head? = some 35 := by
          rw [head?_rdropWhile nothing]
          rcases w with - | ⟨d, q⟩
          · exact absurd rfl nothing
          · rw [List.append_assoc, List.getD_eq_getElem?_getD, List.getElem?_append_right le_rfl, Nat.sub_self]
            exact Option.some_inj.symm
        have copy : ((a ++ w ++ behind).drop a.length).take (a.length + (w.rdropWhile isSpace).length - a.length) =
            w.rdropWhile isSpace := by
          obtain ⟨tail, w_eq⟩ := List.rdropWhile_prefix isSpace w
          rw [Nat.add_sub_cancel_left, List.append_assoc, List.drop_left, ← w_eq, List.append_assoc]
          rw [w_eq, List.take_left]
        rw [if_neg nothing, if_neg (by omega), copy]
        simp only [first]

/-- The list gets what is taken of the pieces, in their order. -/
theorem splitFrom_eq (l : LineList) (text : Bytes) :
    o.splitFrom l text = ((endedPieces o.sep o.escape none text).filterMap o.taken).foldl
      (fun l str => l.addLineList str o.keysep o.sort o.uniq) l := by
  induction l, text using splitFrom.induct o with
  | case1 l => rw [splitFrom]; rfl
  | case2 l c s t ih =>
      rw [splitFrom, ih]
      have put : ∀ (piece : Bytes × Option UInt8) more, o.copied (c :: s) t = o.taken piece →
          (more.filterMap o.taken).foldl (fun l str => l.addLineList str o.keysep o.sort o.uniq)
            (o.put l (o.copied (c :: s) t)) = ((piece :: more).filterMap o.taken).foldl
              (fun l str => l.addLineList str o.keysep o.sort o.uniq) l := by
        intro piece more same
        rw [same, List.filterMap_cons]
        cases o.taken piece with
        | none => rfl
        | some str => rfl
      cases found : findEnd o.sep o.escape none (c :: s) with
      | none =>
          have last : t = (c :: s).length := by
            show (findEnd o.sep o.escape none (c :: s)).getD (c :: s).length = _
            rw [found]
            rfl
          have all := copied_eq (o := o) (c :: s) []
          rw [List.append_nil, ← last] at all
          rw [findEnd_none (List.cons_ne_nil c s) found, rest, found]
          exact put _ [] all
      | some stop =>
          obtain ⟨piece, d, u, whole, rfl, parts⟩ := findEnd_some found
          have last : t = piece.length := by
            show (findEnd o.sep o.escape none (c :: s)).getD (c :: s).length = _
            rw [found]
            rfl
          have part := copied_eq (o := o) piece (d :: u)
          rw [← whole, ← last] at part
          have behind : (c :: s).drop (piece.length + 1) = u := by
            rw [whole, ← List.drop_drop, List.drop_left]
            rfl
          rw [parts, rest, found]
          simp only [behind]
          exact put _ _ part

end Options

/-! ## The pieces taken for themselves -/

namespace Options

variable (o : Options)

/-- A piece without white space at its ends, and without what shall be left out at its start. -/
def trimmed (piece : Bytes) : Bytes :=
  if o.trim = 0 then piece else ((piece.dropWhile isSpace).dropWhile o.isLead).rdropWhile isSpace

def kept (piece : Bytes) : Bool :=
  !(o.trim ≠ 0 && piece = []) && !(o.nocomments && piece.head? = some 35)

def reference (text : Bytes) : List Bytes :=
  ((escapedPieces o.sep o.escape none text).map o.trimmed).filter o.kept

/-- No piece starts with two characters that shall be left out, and where comments are looked for in pieces that are not
trimmed, no empty piece is ended by the sign of a comment. -/
structure Regular (text : Bytes) : Prop where
  single : ∀ piece ∈ escapedPieces o.sep o.escape none text, ∀ c d s, piece.dropWhile isSpace = c :: d :: s →
    ¬ (o.isLead c = true ∧ o.isLead d = true)
  marked : o.trim = 0 → o.nocomments = true → ([], some 35) ∉ endedPieces o.sep o.escape none text

variable {o}

theorem cut_eq (single : ∀ c d s, piece.dropWhile isSpace = c :: d :: s → ¬ (o.isLead c = true ∧ o.isLead d = true)) :
    o.cut piece = o.trimmed piece := by
  have lead : o.withoutLead (piece.dropWhile isSpace) = (piece.dropWhile isSpace).dropWhile o.isLead := by
    generalize piece.dropWhile isSpace = q at single
    rcases q with - | ⟨c, q⟩
    · rfl
    · rw [withoutLead, List.dropWhile_cons]
      split
      · rename_i first
        cases q with
        | nil => rfl
        | cons d s =>
            rw [List.dropWhile_cons_of_neg]
            exact fun second => single c d s rfl ⟨first, second⟩
      · rfl
  rw [cut, trimmed, lead]

theorem taken_eq (single : ∀ c d s, piece.dropWhile isSpace = c :: d :: s → ¬ (o.isLead c = true ∧ o.isLead d = true))
    (marked : o.trim = 0 → o.nocomments = true → (piece, ending) ≠ ([], some 35)) :
    o.taken (piece, ending) = if o.kept (o.trimmed piece) then some (o.trimmed piece) else none := by
  rw [taken, cut_eq single, kept]
  by_cases dropped : o.trim ≠ 0 ∧ o.trimmed piece = []
  · rw [if_pos dropped, if_neg (by simp [dropped])]
  · have sign : (o.nocomments = true ∧ (o.trimmed piece).head?.or ending = some 35) ↔
        (o.nocomments = true ∧ (o.trimmed piece).head? = some 35) := by
      rcases empty : o.trimmed piece with - | ⟨c, s⟩
      · have off : o.trim = 0 := not_not.mp fun on => dropped ⟨on, empty⟩
        have given : piece = [] := by rwa [trimmed, if_pos off] at empty
        constructor
        · rintro ⟨asked, sign⟩
          have ended : ending = some 35 := sign
          rw [given, ended] at marked
          exact absurd rfl (marked off asked)
        · rintro ⟨-, sign⟩
          cases sign
      · exact Iff.rfl
    rw [if_neg dropped]
    by_cases comment : o.nocomments = true ∧ (o.trimmed piece).head? = some 35
    · rw [if_pos (sign.mpr comment), if_neg (by simp [comment])]
    · rw [if_neg (mt sign.mp comment), if_pos]
      simpa using And.intro (not_and_or.mp dropped) (not_and_or.mp comment)

theorem filterMap_taken (regular : o.Regular text) :
    (endedPieces o.sep o.escape none text).filterMap o.taken = o.reference text := by
  obtain ⟨single, marked⟩ := regular
  unfold reference
  rw [← map_fst_endedPieces] at single ⊢
  revert single marked
  generalize endedPieces o.sep o.escape none text = parts
  intro single marked
  induction parts with
  | nil => rfl
  | cons part parts ih =>
      obtain ⟨piece, ending⟩ := part
      rw [List.map_cons, List.forall_mem_cons] at single
      have here := taken_eq single.1 fun off asked same => marked off asked (same ▸ List.mem_cons_self)
      have later := ih single.2 fun off asked member => marked off asked (List.mem_cons_of_mem _ member)
      rw [List.filterMap_cons, here, List.map_cons, List.map_cons, List.filter_cons, later]
      split
      · rename_i none_
        split at none_
        · cases none_
        · rename_i out
          rw [if_neg out]
      · rename_i some_
        split at some_
        · rename_i kept
          cases some_
          rw [if_pos kept]
        · cases some_

theorem foldl_put (unsorted : o.sort = false) (l : LineList) (lines : List Bytes) :
    lines.foldl (fun l str => LineList.addLineList l str o.keysep o.sort o.uniq) l = l ++ lines := by
  induction lines generalizing l with
  | nil => exact (List.append_nil l).symm
  | cons line lines ih =>
      rw [List.foldl_cons, ih, LineList.addLineList, unsorted]
      exact List.append_assoc l [line] lines

theorem split_reference (unsorted : o.sort = false) (regular : o.Regular text) (l : LineList) :
    o.split l (some text) = l ++ o.reference text := by
  rw [split, Option.getD_some, splitFrom_eq, filterMap_taken regular, foldl_put unsorted]

end Options

/-! ## Lists written as texts -/

/-- A piece that can be read back behind `c`, between other pieces. -/
structure Readable (c : UInt8) (piece : Bytes) : Prop where
  given : piece ≠ []
  whole : c ∉ piece
  first : ∀ d ∈ piece.head?, isSpace d = false
  last : ∀ d ∈ piece.getLast?, isSpace d = false
  comment : piece.head? ≠ some 35

theorem readable_of_ends {a b : UInt8} (whole : c ∉ piece) (first : piece.head? = some a) (last : piece.getLast? = some b)
    (clean : isSpace a = false ∧ isSpace b = false) (comment : a ≠ 35) : Readable c piece where
  given := fun empty => nomatch (congrArg List.head? empty).symm.trans first
  whole := whole
  first := fun _ same => Option.some.inj (first.symm.trans same) ▸ clean.1
  last := fun _ same => Option.some.inj (last.symm.trans same) ▸ clean.2
  comment := fun same => comment (Option.some.inj (first.symm.trans same))

theorem flatMap_append (l : List Bytes) (sep : Bytes) (given : l ≠ []) :
    l.flatMap (· ++ sep) = sep.intercalate l ++ sep := by
  induction l with
  | nil => exact absurd rfl given
  | cons piece l ih =>
      cases l with
      | nil => rw [List.intercalate_singleton, List.flatMap_cons, List.flatMap_nil, List.append_nil]
      | cons next l =>
          rw [List.flatMap_cons, ih (List.cons_ne_nil next l), List.intercalate_cons_cons, List.append_assoc,
            List.append_assoc, List.append_assoc]

/-- The text is that of the pieces with the separator between them. -/
theorem joinLineListWithSep_eq {l : LineList} (readable : ∀ piece ∈ l, piece ≠ []) (c : UInt8) :
    (joinLineListWithSep l [c]).getD [] = [c].intercalate l := by
  have all : l.filter (· ≠ []) = l := List.filter_eq_self.mpr fun piece member => decide_eq_true (readable piece member)
  unfold joinLineListWithSep joinLineList
  rw [all]
  by_cases nothing : l = []
  · rw [nothing]
    rfl
  · rw [flatMap_append l [c] nothing]
    have long : ¬ ([c].intercalate l ++ [c]).length = 0 := by
      rw [List.length_append, List.length_singleton]
      exact Nat.succ_ne_zero _
    dsimp only
    rw [if_neg long, Option.map_some, Option.getD_some, List.length_append, Nat.add_sub_cancel, List.take_left]

theorem findEnd_whole (whole : c ∉ piece) (front : Option UInt8) : findEnd [c] escape front piece = none := by
  induction piece generalizing front with
  | nil => rfl
  | cons d piece ih =>
      have other : d ≠ c := fun same => whole (same ▸ List.mem_cons_self)
      rw [findEnd, ih (fun member => whole (List.mem_cons_of_mem d member)), if_neg]
      · rfl
      · simp [other]

/-- What stands before the end of a piece does not depend on where its front was read. -/
theorem getLast?_or_cons (d : UInt8) (piece : Bytes) (front : Option UInt8) :
    piece.getLast?.or (some d) = (d :: piece).getLast?.or front := by
  rw [List.getLast?_cons, Option.or_some]
  rfl

/-- A piece with a separator behind it that is not escaped. -/
theorem endedPieces_append (front : Option UInt8) (whole : c ∉ piece)
    (plain : ¬ (piece.getLast?.or front = some 92 ∧ c ∈ escape)) (s : Bytes) :
    endedPieces [c] escape front (piece ++ c :: s) = (piece, some c) :: endedPieces [c] escape none s := by
  induction piece generalizing front with
  | nil =>
      have ends : ([c].contains c && !(front = some 92 && escape.contains c)) = true := by
        simpa using not_and_or.mp plain
      rw [List.nil_append, endedPieces, if_pos ends]
  | cons d piece ih =>
      have other : d ≠ c := fun same => whole (same ▸ List.mem_cons_self)
      rw [List.cons_append, endedPieces, if_neg (by simp [other]),
        ih (some d) (fun member => whole (List.mem_cons_of_mem d member)) (getLast?_or_cons d piece front ▸ plain)]

/-- Only a backslash in front of the text matters. -/
theorem endedPieces_front (other : front ≠ some 92) (sep escape text : Bytes) :
    endedPieces sep escape front text = endedPieces sep escape none text := by
  cases text with
  | nil => rfl
  | cons d s =>
      rw [endedPieces, endedPieces]
      simp only [other, decide_false, Bool.false_and]
      rfl

/-- An escaped separator joins two pieces. -/
theorem length_endedPieces_glued (front : Option UInt8) (whole : c ∉ piece)
    (glued : piece.getLast?.or front = some 92 ∧ c ∈ escape) (other : c ≠ 92) {s : Bytes} (given : s ≠ []) : (endedPieces [c] escape front (piece ++ c :: s)).length =
      (endedPieces [c] escape none s).length := by
  have count : ∀ (d : UInt8) (parts : List (Bytes × Option UInt8)), parts ≠ [] → (match parts with
      | [] => [([d], none)]
      | (piece, ending) :: more => (d :: piece, ending) :: more).length = parts.length := by
    intro d parts some_
    rcases parts with - | ⟨⟨first, ending⟩, more⟩
    · exact absurd rfl some_
    · rfl
  have nonempty : ∀ (front : Option UInt8) {text : Bytes}, text ≠ [] → endedPieces [c] escape front text ≠ [] := by
    intro front text given
    cases found : findEnd [c] escape front text with
    | none => exact findEnd_none given found ▸ List.cons_ne_nil _ _
    | some t =>
        obtain ⟨piece, d, u, -, -, parts⟩ := findEnd_some found
        exact parts ▸ List.cons_ne_nil _ _
  induction piece generalizing front with
  | nil =>
      have inside : ¬ ([c].contains c && !(front = some 92 && escape.contains c)) = true := by simpa using glued
      rw [List.nil_append, endedPieces, if_neg inside, count c _ (nonempty _ given),
        endedPieces_front fun same => other (Option.some.inj same)]
  | cons d piece ih =>
      have apart : d ≠ c := fun same => whole (same ▸ List.mem_cons_self)
      rw [List.cons_append, endedPieces, if_neg (by simp [apart]),
        count d _ (nonempty _ (List.append_ne_nil_of_right_ne_nil _ (List.cons_ne_nil c s))),
        ih (some d) (fun member => whole (List.mem_cons_of_mem d member)) (getLast?_or_cons d piece front ▸ glued)]

/-- As many pieces as there were joined stand in the text at most, and if there are as many, then they are the pieces
that were joined. -/
theorem endedPieces_intercalate (escape : Bytes) {l : List Bytes} (whole : ∀ piece ∈ l, piece ≠ [] ∧ c ∉ piece) :
    (endedPieces [c] escape none ([c].intercalate l)).length ≤ l.length ∧
      ((endedPieces [c] escape none ([c].intercalate l)).length = l.length ↔
        (c ∈ escape → ∀ piece ∈ l.dropLast, piece.getLast? ≠ some 92)) ∧
      ((c ∈ escape → ∀ piece ∈ l.dropLast, piece.getLast? ≠ some 92) →
        (endedPieces [c] escape none ([c].intercalate l)).map Prod.fst = l) := by
  induction l with
  | nil => exact ⟨le_rfl, ⟨fun _ _ _ => nofun, fun _ => rfl⟩, fun _ => rfl⟩
  | cons piece l ih =>
      obtain ⟨given, alone⟩ := whole piece List.mem_cons_self
      cases l with
      | nil =>
          rw [List.intercalate_singleton, findEnd_none given (findEnd_whole alone none)]
          exact ⟨le_rfl, ⟨fun _ _ _ => nofun, fun _ => rfl⟩, fun _ => rfl⟩
      | cons next l =>
          have some_ : [c].intercalate (next :: l) ≠ [] := by
            cases l with
            | nil =>
                rw [List.intercalate_singleton]
                exact (whole next (List.mem_cons_of_mem _ List.mem_cons_self)).1
            | cons after l =>
                rw [List.intercalate_cons_cons, List.append_assoc]
                exact List.append_ne_nil_of_left_ne_nil
                  (whole next (List.mem_cons_of_mem _ List.mem_cons_self)).1 _
          obtain ⟨most, all, same⟩ := ih fun other member => whole other (List.mem_cons_of_mem piece member)
          rw [List.intercalate_cons_cons, List.append_assoc, List.singleton_append, List.dropLast_cons_cons]
          by_cases glued : piece.getLast? = some 92 ∧ c ∈ escape
          · have other : c ≠ 92 := by
              rintro rfl
              exact alone (List.mem_of_getLast? glued.1)
            have fewer := length_endedPieces_glued none alone (by rwa [Option.or_none]) other some_
            rw [fewer]
            have spoilt : ¬ (c ∈ escape → ∀ other ∈ piece :: (next :: l).dropLast, other.getLast? ≠ some 92) :=
              fun free => free glued.2 piece List.mem_cons_self glued.1
            refine ⟨most.trans (Nat.le_succ _), ⟨fun long => ?_, fun free => absurd free spoilt⟩,
              fun free => absurd free spoilt⟩
            rw [List.length_cons] at long
            omega
          · have split := endedPieces_append none alone (by rwa [Option.or_none]) ([c].intercalate (next :: l))
            have here : c ∈ escape → piece.getLast? ≠ some 92 := fun inside last => glued ⟨last, inside⟩
            have parts : (c ∈ escape → ∀ other ∈ piece :: (next :: l).dropLast, other.getLast? ≠ some 92) ↔
                (c ∈ escape → ∀ other ∈ (next :: l).dropLast, other.getLast? ≠ some 92) := by
              refine ⟨fun free inside other member => free inside other (List.mem_cons_of_mem _ member),
                fun free inside => ?_⟩
              exact List.forall_mem_cons.mpr ⟨here inside, free inside⟩
            rw [split, parts, ← all, List.length_cons, List.length_cons, List.map_cons]
            refine ⟨Nat.succ_le_succ most, Nat.succ_inj, fun long => ?_⟩
            rw [same (all.mp long)]

namespace Options

variable {o : Options}

/-- A piece that can be read back is taken as it is exactly if it does not start with what shall be left out. -/
theorem taken_readable (readable : Readable c piece) (ending : Option UInt8) :
    o.taken (piece, ending) = some piece ↔ ∀ d ∈ piece.head?, o.isLead d = false := by
  obtain ⟨given, -, first, last, comment⟩ := readable
  have clean : piece.rdropWhile isSpace = piece := List.rdropWhile_eq_self_iff.mpr fun given space =>
    Bool.false_ne_true ((last _ (List.getLast?_eq_some_getLast given)).symm.trans space)
  rcases piece with - | ⟨d, s⟩
  · exact absurd rfl given
  · have start : (d :: s).dropWhile isSpace = d :: s :=
      List.dropWhile_cons_of_neg (ne_true_of_eq_false (first d rfl))
    have only : (∀ e ∈ (d :: s).head?, o.isLead e = false) ↔ o.isLead d = false :=
      ⟨fun all => all d rfl, fun here e same => Option.some.inj same ▸ here⟩
    rw [only]
    constructor
    · intro taken
      cases lead : o.isLead d with
      | false => rfl
      | true =>
          have on : o.trim ≠ 0 := by
            intro off
            obtain ⟨-, printable⟩ := Bool.and_eq_true_iff.mp lead
            rw [off] at printable
            exact absurd printable (by decide)
          have shorter : o.cut (d :: s) = s.rdropWhile isSpace := by
            rw [cut, if_neg on, start, withoutLead, if_pos lead]
          unfold Options.taken at taken
          rw [shorter] at taken
          have le := (List.rdropWhile_prefix isSpace s).length_le
          split at taken
          · cases taken
          · split at taken
            · cases taken
            · rw [Option.some.inj taken, List.length_cons] at le
              omega
    · intro lead
      have same : o.cut (d :: s) = d :: s := by
        unfold cut
        split
        · rfl
        · rw [start, withoutLead, if_neg (ne_true_of_eq_false lead), clean]
      rw [taken, same, if_neg fun empty => List.cons_ne_nil d s empty.2, if_neg fun sign => comment sign.2]

end Options

/-- If as many are picked as there are and they are what the elements hold, each element is picked with what it holds. -/
theorem forall_of_filterMap {α β : Type} {f : α → Option β} {g : α → β} {l : List α}
    (same : l.filterMap f = l.map g) : ∀ x ∈ l, f x = some (g x) := by
  induction l with
  | nil => exact fun _ => nofun
  | cons x l ih =>
      rw [List.filterMap_cons, List.map_cons] at same
      cases picked : f x with
      | none =>
          rw [picked] at same
          have short : (l.filterMap f).length ≤ l.length := List.length_filterMap_le f l
          have long : (l.filterMap f).length = (g x :: l.map g).length := congrArg List.length same
          rw [List.length_cons, List.length_map] at long
          omega
      | some y =>
          rw [picked] at same
          obtain ⟨here, later⟩ := List.cons.inj same
          exact List.forall_mem_cons.mpr ⟨picked.trans (congrArg some here), ih later⟩

namespace Options

variable {o : Options}

/-- The pieces of a list that can be read back stand in the text as they are, unless one is glued to the next or loses
its start. -/
theorem split_joined_iff {l : List Bytes} (unsorted : o.sort = false) (separator : o.sep = [c])
    (readable : ∀ piece ∈ l, Readable c piece) : o.split [] (joinLineListWithSep l [c]) = l ↔
      (∀ piece ∈ l, ∀ d ∈ piece.head?, o.isLead d = false) ∧
        (c ∈ o.escape → ∀ piece ∈ l.dropLast, piece.getLast? ≠ some 92) := by
  obtain ⟨most, all, same⟩ := endedPieces_intercalate o.escape
    fun piece member => ⟨(readable piece member).given, (readable piece member).whole⟩
  rw [split, joinLineListWithSep_eq (fun piece member => (readable piece member).given), splitFrom_eq,
    foldl_put unsorted, List.nil_append, separator]
  revert most all same
  generalize endedPieces [c] o.escape none ([c].intercalate l) = parts
  intro most all same
  constructor
  · intro result
    have short := List.length_filterMap_le o.taken parts
    rw [result] at short
    have apart := all.mp (le_antisymm most short)
    have whole := same apart
    refine ⟨?_, apart⟩
    rw [← whole]
    have each := forall_of_filterMap (result.trans whole.symm)
    intro piece member
    obtain ⟨⟨piece, ending⟩, inside, rfl⟩ := List.mem_map.mp member
    exact (taken_readable (readable piece (whole ▸ member)) ending).mp (each _ inside)
  · rintro ⟨start, apart⟩
    have whole := same apart
    have each : ∀ part ∈ parts, o.taken part = some part.1 := by
      rintro ⟨piece, ending⟩ inside
      have member : piece ∈ l := whole ▸ List.mem_map_of_mem inside
      exact (taken_readable (readable piece member) ending).mpr (start piece member)
    rw [List.filterMap_congr each, ← whole]
    exact List.filterMap_eq_map.symm ▸ rfl

/-! ## The splitting of the other modules -/

theorem split_eq_foldl (regular : o.Regular text) (l : LineList) : o.split l (some text) =
    (o.reference text).foldl (fun l str => l.addLineList str o.keysep o.sort o.uniq) l := by
  rw [split, Option.getD_some, splitFrom_eq, filterMap_taken regular]

/-- Where `trim` is no character to leave out, the pieces are trimmed and passed over one after the other. -/
theorem foldl_reference (plain : isPrint o.trim = false) (l : LineList) (text : Bytes) :
    (o.reference text).foldl (fun l str => l.addLineList str o.keysep o.sort o.uniq) l =
      (escapedPieces o.sep o.escape none text).foldl (fun l piece =>
        let piece := if decide (o.trim ≠ 0) then trimSpace piece else piece
        if decide (o.trim ≠ 0) && piece = [] then l
        else if o.nocomments && piece.head? = some 35 then l
        else l.addLineList piece o.keysep o.sort o.uniq) l := by
  have never : ∀ s : Bytes, s.dropWhile o.isLead = s := by
    intro s
    refine List.dropWhile_eq_self_iff.mpr fun _ lead => ?_
    rw [isLead, plain, Bool.and_false] at lead
    exact Bool.false_ne_true lead
  rw [reference, List.foldl_filter, List.foldl_map]
  refine List.foldl_ext _ _ _ fun l piece _ => ?_
  have shape : o.trimmed piece = if decide (o.trim ≠ 0) then trimSpace piece else piece := by
    rw [trimmed, never]
    by_cases off : o.trim = 0
    · rw [if_pos off, if_neg (by simp [off])]
    · rw [if_neg off, if_pos (by simp [off])]
      rfl
  rw [shape, kept]
  dsimp only
  generalize (if decide (o.trim ≠ 0) then trimSpace piece else piece) = s
  cases decide (o.trim ≠ 0) && decide (s = []) <;> cases o.nocomments && decide (s.head? = some 35) <;> rfl

end Options

theorem escapedPieces_nil (sep : Bytes) (front : Option UInt8) (text : Bytes) :
    escapedPieces sep [] front text = pieces sep text := by
  induction text generalizing front with
  | nil => rfl
  | cons c s ih =>
      have ends : (sep.contains c && !(front = some 92 && ([] : Bytes).contains c)) = sep.contains c := by
        rw [List.contains_nil, Bool.and_false, Bool.not_false, Bool.and_true]
      rw [escapedPieces, pieces, ih, ih]
      exact if_congr (Bool.eq_iff_iff.mp ends) rfl rfl

theorem regular_of_plain {o : Options} (plain : isPrint o.trim = false)
    (marked : o.trim = 0 → o.nocomments = true → 35 ∉ o.sep) (text : Bytes) : o.Regular text := by
  refine ⟨fun piece _ c d s _ lead => ?_, fun off asked member => ?_⟩
  · have first := lead.1
    rw [Options.isLead, plain, Bool.and_false] at first
    exact Bool.false_ne_true first
  · have ends : ∀ (front : Option UInt8) {text : Bytes} {part : Bytes × Option UInt8},
        part ∈ endedPieces o.sep o.escape front text → ∀ c ∈ part.2, c ∈ o.sep := by
      intro front text part
      induction text generalizing front part with
      | nil => exact fun member => nomatch member
      | cons c s ih =>
          rw [endedPieces]
          split
          · rename_i ends
            intro member
            rcases List.mem_cons.mp member with rfl | later
            · intro d same
              cases same
              simpa using (Bool.and_eq_true_iff.mp ends).1
            · exact ih none later
          · have all : ∀ part ∈ endedPieces o.sep o.escape (some c) s, ∀ c ∈ part.2, c ∈ o.sep :=
              fun part member => ih (some c) member
            intro member
            revert all member
            rcases endedPieces o.sep o.escape (some c) s with - | ⟨⟨piece, ending⟩, more⟩
            · intro all member
              rw [List.mem_singleton.mp member]
              exact fun _ => nofun
            · intro all member
              rcases List.mem_cons.mp member with rfl | later
              · exact all (piece, ending) List.mem_cons_self
              · exact all part (List.mem_cons_of_mem _ later)
    exact marked off asked (ends none member 35 rfl)

/-- The pieces as the readers of entries split their options. -/
theorem splitEscaped_eq {o : Options} (plain : isPrint o.trim = false) (noComments : o.nocomments = false)
    (l : LineList) (text : Bytes) : o.split l (some text) =
      splitEscaped l text o.sep o.sort o.keysep o.uniq (decide (o.trim ≠ 0)) o.escape := by
  have regular : o.Regular text := regular_of_plain plain (fun _ asked => absurd (noComments.symm.trans asked) nofun) text
  rw [Options.split_eq_foldl regular, Options.foldl_reference plain, splitEscaped, noComments]
  rfl

/-- The splitting without characters to escape, where `#` separates no pieces. -/
theorem split_eq_split {o : Options} (plain : isPrint o.trim = false) (noEscape : o.escape = [])
    (marked : o.trim = 0 → o.nocomments = true → 35 ∉ o.sep) (l : LineList) (text : Bytes) : o.split l (some text) =
      LPRng.split l text o.sep o.sort o.keysep o.uniq (decide (o.trim ≠ 0)) o.nocomments := by
  rw [Options.split_eq_foldl (regular_of_plain plain marked text), Options.foldl_reference plain, noEscape,
    escapedPieces_nil]
  rfl

/-! ## Splitting and joining -/

/-- `Split` adds the pieces of the text as they are when taken for themselves, and gives a joined list back exactly if
none of its pieces is glued to the next or loses its start. -/
theorem split_pieces_and_joined (o : Options) (unsorted : o.sort = false) :
    (∀ l text, o.Regular text → o.split l (some text) = l ++ o.reference text) ∧
      ∀ (c : UInt8) (l : List Bytes), o.sep = [c] → (∀ piece ∈ l, Readable c piece) →
        (o.split [] (joinLineListWithSep l [c]) = l ↔
          (∀ piece ∈ l, ∀ d ∈ piece.head?, o.isLead d = false) ∧
            (c ∈ o.escape → ∀ piece ∈ l.dropLast, piece.getLast? ≠ some 92)) := by
  refine ⟨fun l text regular => ?_, fun c l separator readable => ?_⟩
  · exact Options.split_reference unsorted regular l
  · exact Options.split_joined_iff unsorted separator readable

/-- `a: b` and the list of `a` and `b`, at a colon, with trimming and without characters to escape. -/
theorem split_pieces_and_joined_colon :
    let o : Options := ⟨[58], false, [], false, 1, true, []⟩
    o.split [] (some [97, 58, 32, 98]) = [[97], [98]] ∧ o.split [] (joinLineListWithSep [[97], [98]] [58]) = [[97], [98]] := by
  have plain : isPrint 1 = false := by decide
  have shown := split_pieces_and_joined ⟨[58], false, [], false, 1, true, []⟩ rfl
  have regular := regular_of_plain (o := ⟨[58], false, [], false, 1, true, []⟩) plain nofun [97, 58, 32, 98]
  refine ⟨shown.1 [] _ regular, (shown.2 58 [[97], [98]] rfl ?_).mpr ⟨?_, nofun⟩⟩
  · refine List.forall_mem_cons.mpr ⟨?_, List.forall_mem_singleton.mpr ?_⟩
    · exact readable_of_ends (by decide) rfl rfl (by decide) (by decide)
    · exact readable_of_ends (by decide) rfl rfl (by decide) (by decide)
  · intro piece _ d _
    rw [Options.isLead, plain, Bool.and_false]

/-- Of `#a` split at `#` the empty piece is passed over as a comment, and of `a\` and `b` joined with a colon only one
piece comes back where colons can be escaped. -/
theorem split_departs :
    (¬ ∀ (o : Options) (l : LineList) (text : Bytes), o.sort = false → o.split l (some text) = l ++ o.reference text) ∧
      ¬ ∀ (o : Options) (c : UInt8) (l : List Bytes), o.sort = false → o.sep = [c] → (∀ piece ∈ l, Readable c piece) →
        o.split [] (joinLineListWithSep l [c]) = l := by
  constructor
  · intro every
    have same := every ⟨[35], false, [], false, 0, true, []⟩ [] [35, 97] rfl
    rw [Options.split, Option.getD_some, Options.splitFrom_eq] at same
    revert same
    decide
  · intro every
    have readable : ∀ piece ∈ [[97, 92], [98]], Readable 58 piece := by
      refine List.forall_mem_cons.mpr ⟨?_, List.forall_mem_singleton.mpr ?_⟩
      · exact readable_of_ends (by decide) rfl rfl (by decide) (by decide)
      · exact readable_of_ends (by decide) rfl rfl (by decide) (by decide)
    have same := every ⟨[58], false, [], false, 1, false, [58]⟩ 58 [[97, 92], [98]] rfl rfl readable
    rw [Options.split, Options.splitFrom_eq] at same
    revert same
    decide

end SplitText

end LPRng
