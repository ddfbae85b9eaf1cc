import LPRng.LineList
import Mathlib.Data.List.DropRight

/-!
# Texts split into lines

`Split` takes a text apart at a set of separators and adds the pieces to a line list. A
text of pieces that each end in a separator is taken apart into these pieces, and lines
that stand in the order of their keys are added to an empty list one behind the other.
-/

namespace LPRng

def lineEnds : Bytes := [10, 12, 4, 20]

/-! ## Pieces -/

/-- The pieces of a text between separators. Nothing stands behind a last separator. -/
def pieces (sep : Bytes) : Bytes → List Bytes
  | [] => []
  | c :: s =>
      if sep.contains c then [] :: pieces sep s
      else
        match pieces sep s with
        | [] => [[c]]
        | piece :: rest => (c :: piece) :: rest

/-- A piece without the white space at its ends. -/
def trimSpace (s : Bytes) : Bytes := (s.dropWhile isSpace).rdropWhile isSpace

/-- `Split` without an escape character. A piece of which nothing is left after trimming
is skipped, and so is a comment. -/
def split (l : LineList) (str sep : Bytes) (sort : Bool) (keysep : Bytes)
    (uniq trim nocomments : Bool) : LineList :=
  (pieces sep str).foldl (fun l piece =>
    let piece := if trim then trimSpace piece else piece
    if trim && piece = [] then l
    else if nocomments && piece.head? = some 35 then l
    else l.addLineList piece keysep sort uniq) l

variable {sep keysep piece rest value key : Bytes} {c : UInt8}

theorem pieces_append (whole : ∀ d ∈ piece, d ∉ sep) (ends : c ∈ sep) (rest : Bytes) :
    pieces sep (piece ++ c :: rest) = piece :: pieces sep rest := by
  induction piece with
  | nil =>
      rw [List.nil_append, pieces, if_pos (by simpa using ends)]
  | cons d piece ih =>
      have inside : ¬ sep.contains d = true := by simpa using whole d List.mem_cons_self
      rw [List.cons_append, pieces, if_neg inside,
        ih fun e member => whole e (List.mem_cons_of_mem d member)]

theorem pieces_of_whole (whole : ∀ d ∈ piece, d ∉ sep) (nonempty : piece ≠ []) :
    pieces sep piece = [piece] := by
  induction piece with
  | nil => exact absurd rfl nonempty
  | cons d piece ih =>
      have inside : ¬ sep.contains d = true := by simpa using whole d List.mem_cons_self
      rw [pieces, if_neg inside]
      cases piece with
      | nil => rfl
      | cons e piece =>
          rw [ih (fun f member => whole f (List.mem_cons_of_mem d member)) (List.cons_ne_nil e piece)]

theorem not_mem_of_mem_pieces {s : Bytes} (member : piece ∈ pieces sep s) : ∀ d ∈ piece, d ∉ sep := by
  induction s generalizing piece with
  | nil => cases member
  | cons c s ih =>
      rw [pieces] at member
      split at member
      · cases member with
        | head => exact fun d inside => nomatch inside
        | tail _ member => exact ih member
      · rename_i plain
        have outside : c ∉ sep := by simpa using plain
        cases parts : pieces sep s with
        | nil =>
            rw [parts] at member
            rw [List.mem_singleton.mp member]
            exact fun d inside => List.mem_singleton.mp inside ▸ outside
        | cons first rest =>
            rw [parts] at member ih
            cases member with
            | head =>
                intro d inside
                rcases List.mem_cons.mp inside with here | behind
                · exact here ▸ outside
                · exact ih List.mem_cons_self d behind
            | tail _ member => exact ih (List.mem_cons_of_mem _ member)

theorem pieces_subset {s : Bytes} (member : piece ∈ pieces sep s) : piece ⊆ s := by
  induction s generalizing piece with
  | nil => cases member
  | cons c s ih =>
      rw [pieces] at member
      split at member
      · cases member with
        | head => exact List.nil_subset _
        | tail _ member => exact List.subset_cons_of_subset c (ih member)
      · cases parts : pieces sep s with
        | nil =>
            rw [parts] at member
            rw [List.mem_singleton.mp member]
            exact List.cons_subset_cons c (List.nil_subset s)
        | cons first rest =>
            rw [parts] at member ih
            cases member with
            | head => exact List.cons_subset_cons c (ih List.mem_cons_self)
            | tail _ member => exact List.subset_cons_of_subset c (ih (List.mem_cons_of_mem _ member))

/-- Without sorting and trimming, the pieces themselves are the lines. -/
theorem split_plain (l : LineList) (str sep keysep : Bytes) (uniq : Bool) :
    split l str sep false keysep uniq false false = l ++ pieces sep str := by
  unfold split
  generalize pieces sep str = lines
  induction lines generalizing l with
  | nil => exact (List.append_nil l).symm
  | cons line lines ih =>
      rw [List.foldl_cons, ih]
      exact List.append_assoc l [line] lines

theorem split_pieces (str sep keysep : Bytes) (uniq : Bool) :
    split [] str sep false keysep uniq false false = pieces sep str := split_plain [] str sep keysep uniq

/-- Pieces that each end in a separator. -/
theorem pieces_flatMap {lines : List Bytes} (whole : ∀ line ∈ lines, ∀ d ∈ line, d ∉ sep)
    (ends : c ∈ sep) (rest : Bytes) :
    pieces sep (lines.flatMap (· ++ [c]) ++ rest) = lines ++ pieces sep rest := by
  induction lines with
  | nil => rfl
  | cons line lines ih =>
      rw [List.flatMap_cons, List.append_assoc, List.append_assoc, List.singleton_append,
        pieces_append (whole line List.mem_cons_self) ends,
        ih fun other member => whole other (List.mem_cons_of_mem line member), List.cons_append]

/-- The pieces of a text that goes on behind a `=` are those up to there, and others that stand behind. -/
theorem pieces_through {sep : Bytes} (outside : 61 ∉ sep) (a b : Bytes) :
    ∃ front t, pieces sep (a ++ [61]) = front ++ [t ++ [61]] ∧
      pieces sep (a ++ 61 :: b) = front ++ (t ++ 61 :: (pieces sep b).headD []) :: (pieces sep b).tail := by
  induction a with
  | nil =>
      refine ⟨[], [], ?_, ?_⟩
      · exact pieces_of_whole (fun d member => List.mem_singleton.mp member ▸ outside) (List.cons_ne_nil _ _)
      · rw [List.nil_append, pieces, if_neg (by simpa using outside)]
        cases pieces sep b <;> rfl
  | cons c a ih =>
      rcases ih with ⟨front, t, short, long⟩
      rw [List.cons_append, List.cons_append, pieces, pieces, short, long]
      by_cases ends : sep.contains c = true
      · exact ⟨[] :: front, t, by rw [if_pos ends]; rfl, by rw [if_pos ends]; rfl⟩
      · rw [if_neg ends, if_neg ends]
        cases front with
        | nil => exact ⟨[], c :: t, rfl, rfl⟩
        | cons piece front => exact ⟨(c :: piece) :: front, t, rfl, rfl⟩

/-! ## Trimming -/

theorem trimSpace_trimSpace (s : Bytes) : trimSpace (trimSpace s) = trimSpace s := by
  have first : (trimSpace s).dropWhile isSpace = trimSpace s := by
    refine List.dropWhile_eq_self_iff.mpr fun shown => ?_
    have front := List.rdropWhile_prefix isSpace (s.dropWhile isSpace)
    have longer : 0 < (s.dropWhile isSpace).length := shown.trans_le front.length_le
    have same : (trimSpace s)[0] = (s.dropWhile isSpace)[0] := front.getElem shown
    rw [same]
    exact List.dropWhile_get_zero_not isSpace s longer
  rw [trimSpace, first]
  exact List.rdropWhile_idempotent isSpace _

theorem trimSpace_subset (s : Bytes) : trimSpace s ⊆ s := fun _ member =>
  (List.dropWhile_suffix isSpace).subset ((List.rdropWhile_prefix isSpace _).subset member)

theorem trimSpace_of_clean (first : ∀ d ∈ piece.head?, isSpace d = false)
    (last : ∀ d ∈ piece.getLast?, isSpace d = false) : trimSpace piece = piece := by
  unfold trimSpace
  cases piece with
  | nil => rfl
  | cons d piece =>
      rw [List.dropWhile_cons, first d rfl, if_neg Bool.false_ne_true, List.rdropWhile_eq_self_iff]
      intro nonempty space
      rw [last _ (List.getLast?_eq_some_getLast nonempty)] at space
      cases space

theorem rdropWhile_keyValue (key value : Bytes) :
    (key ++ 61 :: value).rdropWhile isSpace = key ++ 61 :: value.rdropWhile isSpace := by
  induction value using List.reverseRecOn with
  | nil => exact List.rdropWhile_concat_neg _ _ _ (by decide)
  | append_singleton value d ih =>
      have shape : key ++ 61 :: (value ++ [d]) = (key ++ 61 :: value) ++ [d] :=
        (List.append_assoc key (61 :: value) [d]).symm
      rw [shape, List.rdropWhile_concat, List.rdropWhile_concat]
      cases space : isSpace d with
      | true => rw [if_pos rfl, if_pos rfl, ih]
      | false => rw [if_neg Bool.false_ne_true, if_neg Bool.false_ne_true, shape]

theorem trimSpace_through (t x : Bytes) :
    trimSpace (t ++ 61 :: x) = t.dropWhile isSpace ++ 61 :: x.rdropWhile isSpace := by
  have front : (t ++ 61 :: x).dropWhile isSpace = t.dropWhile isSpace ++ 61 :: x := by
    induction t with
    | nil => exact List.dropWhile_cons_of_neg (by decide)
    | cons c t ih =>
        rw [List.cons_append, List.dropWhile_cons, List.dropWhile_cons, ih]
        split
        · rfl
        · rfl
  rw [trimSpace, front, rdropWhile_keyValue]

/-! ## Lines with a word as key -/

/-- A letter, a digit or an underscore. -/
def isWordChar (c : UInt8) : Bool := isAlnum c || c == 95

theorem isWordChar_spec (word : isWordChar c = true) :
    isSpace c = false ∧ c ≠ 35 ∧ c ∉ optionValueSep ∧ c ∉ lineEnds ∧ c ≠ 1 ∧ c ≠ 2 := by
  have table : ∀ c : UInt8, (!isWordChar c || (!isSpace c && c != 35 && !optionValueSep.contains c &&
      !lineEnds.contains c && c != 1 && c != 2)) = true := forall_byte (by decide +kernel)
  have shape := table c
  rw [word] at shape
  simpa [and_assoc] using shape

/-- A line with a word in front of its `=`. -/
structure WordLine (line : Bytes) : Prop where
  parts : ∃ key value, line = key ++ 61 :: value ∧ ∀ d ∈ key, isWordChar d = true

theorem sepFree_of_word (word : ∀ d ∈ key, isWordChar d = true) : SepFree key :=
  fun d member => (isWordChar_spec (word d member)).2.2.1

namespace WordLine

variable {line : Bytes}

theorem clear (wordLine : WordLine line) : Clear line := by
  obtain ⟨key, value, rfl, word⟩ := wordLine
  exact clear_keyValue (sepFree_of_word word) value

theorem ne_nil (wordLine : WordLine line) : line ≠ [] := by
  obtain ⟨key, value, rfl, -⟩ := wordLine
  exact List.append_ne_nil_of_right_ne_nil _ (List.cons_ne_nil _ _)

theorem not_comment (wordLine : WordLine line) : line.head? ≠ some 35 := by
  obtain ⟨key, value, rfl, word⟩ := wordLine
  cases key with
  | nil => exact fun same => absurd (Option.some.inj same) (by decide)
  | cons d key =>
      exact fun same => (isWordChar_spec (word d List.mem_cons_self)).2.1 (Option.some.inj same)

/-- What is trimmed off a line stands behind its `=`. -/
theorem trimSpace_keyValue (word : ∀ d ∈ key, isWordChar d = true) :
    trimSpace (key ++ 61 :: value) = key ++ 61 :: value.rdropWhile isSpace := by
  have front : (key ++ 61 :: value).dropWhile isSpace = key ++ 61 :: value := by
    cases key with
    | nil => rfl
    | cons d key =>
        rw [List.cons_append, List.dropWhile_cons,
          (isWordChar_spec (word d List.mem_cons_self)).1, if_neg Bool.false_ne_true]
  rw [trimSpace, front, rdropWhile_keyValue]

/-- Nothing is trimmed off a line whose value ends without white space. -/
theorem trimSpace_of_last (word : ∀ d ∈ key, isWordChar d = true)
    (last : ∀ d ∈ value.getLast?, isSpace d = false) :
    trimSpace (key ++ 61 :: value) = key ++ 61 :: value := by
  rw [trimSpace_keyValue word, List.rdropWhile_eq_self_iff.mpr]
  intro nonempty space
  rw [last _ (List.getLast?_eq_some_getLast nonempty)] at space
  cases space

theorem trim (wordLine : WordLine line) :
    WordLine (trimSpace line) ∧ lineKey (trimSpace line) = lineKey line := by
  obtain ⟨key, value, rfl, word⟩ := wordLine
  rw [trimSpace_keyValue word, lineKey_keyValue (sepFree_of_word word),
    lineKey_keyValue (sepFree_of_word word)]
  exact ⟨⟨key, _, rfl, word⟩, rfl⟩

end WordLine

/-! ## What is kept -/

theorem mem_addLineList {l : LineList} {str sep line : Bytes} {sort uniq : Bool}
    (member : line ∈ l.addLineList str sep sort uniq) : line = str ∨ line ∈ l := by
  have put : ∀ n, line ∈ l.take n ++ str :: l.drop n → line = str ∨ line ∈ l := by
    intro n member
    rcases List.mem_append.mp member with before | rest
    · exact .inr (List.mem_of_mem_take before)
    · exact (List.mem_cons.mp rest).imp_right List.mem_of_mem_drop
  unfold LineList.addLineList at member
  split at member
  · split at member
    · exact put _ member
    · exact put _ member
    · split at member
      · exact (List.mem_or_eq_of_mem_set member).symm
      · exact put _ member
  · exact (List.mem_append.mp member).symm.imp_left List.mem_singleton.mp

/-- A line is a piece without the white space at its ends. -/
theorem mem_split {str sep keysep line : Bytes} {sort uniq trim : Bool}
    (member : line ∈ split [] str sep sort keysep uniq true trim) : ∃ piece ∈ pieces sep str, line = trimSpace piece := by
  have kept : ∀ (parts : List Bytes) (l : LineList), (∀ line ∈ l, ∃ piece ∈ pieces sep str, line = trimSpace piece) →
      (∀ piece ∈ parts, piece ∈ pieces sep str) → ∀ line ∈ parts.foldl (fun l piece =>
        let piece := if true then trimSpace piece else piece
        if true && piece = [] then l
        else if trim && piece.head? = some 35 then l
        else l.addLineList piece keysep sort uniq) l, ∃ piece ∈ pieces sep str, line = trimSpace piece := by
    intro parts
    induction parts with
    | nil => exact fun _ known _ => known
    | cons part parts ih =>
        intro l known within
        rw [List.foldl_cons]
        refine ih _ (fun line member => ?_) fun piece member => within piece (List.mem_cons_of_mem _ member)
        simp only [if_true, Bool.true_and, decide_eq_true_eq] at member
        split at member
        · exact known line member
        · split at member
          · exact known line member
          · rcases mem_addLineList member with rfl | old
            · exact ⟨part, within part List.mem_cons_self, rfl⟩
            · exact known line old
  exact kept _ [] (fun _ => nofun) (fun _ => id) line member

/-! ## Sorted lines -/

/-- Lines that stand in order are added one behind the other. -/
theorem foldl_addLineList {lines : List Bytes} (separator : IsSeparator keysep) (keyed : LineList.Keyed lines) :
    lines.foldl (fun l line => LineList.addLineList l line keysep true true) [] = lines := by
  induction lines using List.reverseRecOn with
  | nil => rfl
  | append_singleton lines line ih =>
      obtain ⟨front, -, below⟩ := List.pairwise_append.mp keyed.sorted
      have clear := List.forall_mem_append.mp keyed.clear
      have before : LineList.Keyed lines := ⟨front, clear.1⟩
      rw [List.foldl_append, ih before, List.foldl_cons, List.foldl_nil,
        before.addLineList separator (clear.2 line List.mem_cons_self),
        insertKey_of_above fun a member => below a member line List.mem_cons_self]

/-- Trimming leaves the keys and their order alone. -/
theorem keyed_map_trimSpace {lines : LineList} (wordLines : ∀ line ∈ lines, WordLine line)
    (sorted : KeySorted lineKey lines) : LineList.Keyed (lines.map trimSpace) := by
  refine ⟨List.pairwise_map.mpr (sorted.imp_of_mem fun left right below => ?_), ?_⟩
  · rw [(wordLines _ left).trim.2, (wordLines _ right).trim.2]
    exact below
  · intro line member
    obtain ⟨whole, origin, rfl⟩ := List.mem_map.mp member
    exact (wordLines whole origin).trim.1.clear

/-- A text whose pieces are lines in order is split into these lines, with their ends
trimmed. -/
theorem split_eq {str : Bytes} {lines : LineList} {nocomments : Bool} (separator : IsSeparator keysep)
    (parts : pieces sep str = lines) (wordLines : ∀ line ∈ lines, WordLine line)
    (sorted : KeySorted lineKey lines) :
    split [] str sep true keysep true true nocomments = lines.map trimSpace := by
  rw [← foldl_addLineList separator (keyed_map_trimSpace wordLines sorted), split, parts, List.foldl_map]
  refine List.foldl_ext _ _ _ fun l line member => ?_
  have trimmed := (wordLines line member).trim.1
  simp [trimmed.ne_nil, trimmed.not_comment]

end LPRng
