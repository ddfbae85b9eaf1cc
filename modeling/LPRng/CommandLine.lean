import LPRng.IncludeFiles

/-!
# Command lines

`Split_cmd_line` takes a command apart into its words. White space between them is searched for with `strchr`, which
finds the terminator of the text as well, so that blanks at the end of the text are followed beyond it.
-/

namespace LPRng

namespace CommandLine

/-! ## The operation -/

def isBlank (c : UInt8) : Bool := IncludeFiles.whitespace.contains c

def isQuote (c : UInt8) : Bool := c = 34 || c = 39

/-- Blanks are skipped up to the first other character. There is none before the terminator, which is taken for a
blank, where the text behind it is not that of the command. -/
def skipBlanks : Bytes → Option Bytes
  | [] => none
  | c :: s => if isBlank c then skipBlanks s else some (c :: s)

/-- The word at the start of a text and what is left behind it and one more character. No word is found where a
quote is not closed. -/
def cutWord : Bytes → Option (Bytes × Bytes)
  | [] => none
  | c :: s =>
      if isQuote c then
        let word := s.takeWhile (· ≠ c)
        match s.drop word.length with
        | [] => none
        | _ :: rest => some (word, rest)
      else
        let word := (c :: s).takeWhile (!isBlank ·)
        some (word, ((c :: s).drop word.length).drop 1)

theorem length_skipBlanks {s text : Bytes} (skipped : skipBlanks s = some text) : text.length ≤ s.length := by
  induction s with
  | nil => cases skipped
  | cons c s ih =>
      rw [skipBlanks] at skipped
      split at skipped
      · exact (ih skipped).trans (Nat.le_succ _)
      · rw [← Option.some.inj skipped]

theorem length_cutWord {s word rest : Bytes} (cut : cutWord s = some (word, rest)) : rest.length < s.length := by
  rcases s with - | ⟨c, s⟩
  · cases cut
  · rw [cutWord] at cut
    split at cut
    · dsimp only at cut
      split at cut
      · cases cut
      · next behind =>
          cases cut
          have shorter := congrArg List.length behind
          rw [List.length_drop, List.length_cons] at shorter
          rw [List.length_cons]
          omega
    · cases cut
      rw [List.length_drop, List.length_drop, List.length_cons]
      omega

/-- `Split_cmd_line`, if only the text is read. -/
def splitCmdLine (l : LineList) (line : Bytes) : Option LineList :=
  if line = [] then some l
  else
    match _skipped : skipBlanks line with
    | none => none
    | some s =>
        match _cut : cutWord s with
        | none => some l
        | some (word, rest) => splitCmdLine (l ++ [word]) rest
termination_by line.length
decreasing_by exact (length_cutWord _cut).trans_le (length_skipBlanks _skipped)

/-! ## Words -/

/-- A text and its words: blanks are between them, a quoted word has its quotes, an open quote holds none, and any
other word goes up to a blank or to the end. -/
inductive Words : Bytes → List Bytes → Prop
  | nil : Words [] []
  | blank {c : UInt8} {s : Bytes} {words : List Bytes} (blank : isBlank c = true) (more : Words s words) :
      Words (c :: s) words
  | quoted {q : UInt8} {word s : Bytes} {words : List Bytes} (quote : isQuote q = true) (inside : q ∉ word)
      (more : Words s words) : Words (q :: (word ++ q :: s)) (word :: words)
  | opened {q : UInt8} {word : Bytes} (quote : isQuote q = true) (inside : q ∉ word) : Words (q :: word) []
  | word {c : UInt8} {word s : Bytes} {words : List Bytes} (quote : isQuote c = false)
      (solid : ∀ d ∈ c :: word, isBlank d = false) (stop : ∀ d ∈ s.head?, isBlank d = true) (more : Words s words) :
      Words (c :: (word ++ s)) ((c :: word) :: words)

/-- Where a text ends: where a word may begin, behind a blank there, in a word, or in a quote. -/
inductive Place where
  | between
  | blank
  | word
  | quote (q : UInt8)
deriving DecidableEq

namespace Place

def next : Place → UInt8 → Place
  | word, c => if isBlank c then between else word
  | quote q, c => if c = q then between else quote q
  | _, c => if isBlank c then blank else if isQuote c then quote c else word

/-- Where a text ends. -/
def ofText (text : Bytes) : Place := text.foldl next between

end Place

variable {c q : UInt8} {s word rest text : Bytes}

/-! ## Places -/

theorem isBlank_of_isQuote (quote : isQuote c = true) : isBlank c = false := by
  simp only [isQuote, Bool.or_eq_true, decide_eq_true_eq] at quote
  rcases quote with rfl | rfl
  · rfl
  · rfl

/-- What is left behind the blanks, or nothing but blanks. -/
theorem skipBlanks_spec (s : Bytes) :
    (skipBlanks s = none ∧ ∀ d ∈ s, isBlank d = true) ∨
      ∃ blanks c rest, s = blanks ++ c :: rest ∧ (∀ d ∈ blanks, isBlank d = true) ∧ isBlank c = false ∧
        skipBlanks s = some (c :: rest) := by
  induction s with
  | nil => exact .inl ⟨rfl, fun _ => nofun⟩
  | cons c s ih =>
      rw [skipBlanks]
      by_cases blank : isBlank c = true
      · rw [if_pos blank]
        rcases ih with ⟨nothing, all⟩ | ⟨blanks, d, rest, rfl, all, solid, found⟩
        · exact .inl ⟨nothing, List.forall_mem_cons.mpr ⟨blank, all⟩⟩
        · exact .inr ⟨c :: blanks, d, rest, rfl, List.forall_mem_cons.mpr ⟨blank, all⟩, solid, found⟩
      · rw [if_neg blank]
        exact .inr ⟨[], c, s, rfl, fun _ => nofun, Bool.eq_false_iff.mpr blank, rfl⟩

/-- What `cutWord` finds in a text that starts with no blank. -/
theorem cutWord_spec (solid : isBlank c = false) (s : Bytes) :
    (cutWord (c :: s) = none ∧ isQuote c = true ∧ c ∉ s) ∨
      (∃ word rest, cutWord (c :: s) = some (word, rest) ∧ isQuote c = true ∧ c ∉ word ∧ s = word ++ c :: rest) ∨
      ∃ word rest, cutWord (c :: s) = some (c :: word, rest.drop 1) ∧ isQuote c = false ∧
        (∀ d ∈ c :: word, isBlank d = false) ∧ (∀ d ∈ rest.head?, isBlank d = true) ∧ s = word ++ rest := by
  by_cases quote : isQuote c = true
  · rcases exists_front (· ≠ c) s with ⟨word, t, rfl, front, inside, rfl | ⟨d, rest, rfl, stop⟩⟩
    · refine .inl ⟨?_, quote, fun member => ?_⟩
      · rw [cutWord, if_pos quote, front]
        dsimp only
        rw [List.drop_left]
      · rw [List.append_nil] at member
        exact of_decide_eq_true (inside c member) rfl
    · have same : d = c := by simpa using stop
      refine .inr (.inl ⟨word, rest, ?_, quote, fun member => of_decide_eq_true (inside c member) rfl, by rw [same]⟩)
      rw [cutWord, if_pos quote, front]
      dsimp only
      rw [List.drop_left]
  · rcases exists_front (!isBlank ·) s with ⟨word, rest, rfl, front, inside, stop⟩
    have first : (c :: (word ++ rest)).takeWhile (!isBlank ·) = c :: word := by
      rw [List.takeWhile_cons_of_pos (by rw [solid]; rfl), front]
    refine .inr (.inr ⟨word, rest, ?_, Bool.eq_false_iff.mpr quote, ?_, ?_, rfl⟩)
    · rw [cutWord, if_neg quote, first]
      simp only [List.length_cons, List.drop_succ_cons, List.drop_left]
    · exact List.forall_mem_cons.mpr ⟨solid, fun d member => by simpa using inside d member⟩
    · rcases stop with rfl | ⟨d, rest, rfl, blank⟩
      · intro e first
        cases first
      · intro e first
        cases first
        simpa using blank

namespace Place

/-- Behind blanks, a word may begin as it may before them. -/
theorem foldl_blanks {p : Place} (place : p = between ∨ p = blank) (blanks : ∀ d ∈ s, isBlank d = true) :
    (s ++ c :: rest).foldl next p = (c :: rest).foldl next between := by
  induction s generalizing p with
  | nil =>
      rcases place with rfl | rfl
      · rfl
      · rfl
  | cons d s ih =>
      have step : next p d = blank := by
        rcases place with rfl | rfl
        · exact if_pos (blanks d List.mem_cons_self)
        · exact if_pos (blanks d List.mem_cons_self)
      rw [List.cons_append, List.foldl_cons, step]
      exact ih (.inr rfl) fun e member => blanks e (List.mem_cons_of_mem d member)

theorem ofText_blanks (blanks : ∀ d ∈ s, isBlank d = true) (nonempty : s ≠ []) : ofText s = blank := by
  have stays : ∀ (s : Bytes) (p : Place), (p = between ∨ p = blank) → (∀ d ∈ s, isBlank d = true) → s ≠ [] →
      s.foldl next p = blank := by
    intro s
    induction s with
    | nil => exact fun _ _ _ nothing => absurd rfl nothing
    | cons d s ih =>
        intro p place blanks _
        have step : next p d = blank := by
          rcases place with rfl | rfl
          · exact if_pos (blanks d List.mem_cons_self)
          · exact if_pos (blanks d List.mem_cons_self)
        rw [List.foldl_cons, step]
        rcases s with - | ⟨e, s⟩
        · rfl
        · exact ih blank (.inr rfl) (fun e member => blanks e (List.mem_cons_of_mem d member)) (List.cons_ne_nil e s)
  exact stays s between (.inl rfl) blanks nonempty

theorem foldl_quote (inside : q ∉ s) : s.foldl next (quote q) = quote q := by
  induction s with
  | nil => rfl
  | cons d s ih =>
      have step : next (quote q) d = quote q := if_neg fun same : d = q => inside (same ▸ List.mem_cons_self)
      rw [List.foldl_cons, step]
      exact ih fun member => inside (List.mem_cons_of_mem d member)

theorem foldl_word (solid : ∀ d ∈ s, isBlank d = false) : s.foldl next Place.word = Place.word := by
  induction s with
  | nil => rfl
  | cons d s ih =>
      have step : next Place.word d = Place.word := if_neg (Bool.eq_false_iff.mp (solid d List.mem_cons_self))
      rw [List.foldl_cons, step]
      exact ih fun e member => solid e (List.mem_cons_of_mem d member)

theorem next_quote (given : isQuote q = true) : next between q = quote q := by
  rw [next, if_neg (Bool.eq_false_iff.mp (isBlank_of_isQuote given)), if_pos given]
  all_goals exact nofun

end Place

/-! ## Whole lines -/

theorem Words.skip {blanks : Bytes} {words : List Bytes} (all : ∀ d ∈ blanks, isBlank d = true) (more : Words text words) :
    Words (blanks ++ text) words := by
  induction blanks with
  | nil => exact more
  | cons d blanks ih =>
      exact .blank (all d List.mem_cons_self) (ih fun e member => all e (List.mem_cons_of_mem d member))

theorem place_word (quote : isQuote c = false) (solid : ∀ d ∈ c :: word, isBlank d = false)
    (stop : ∀ d ∈ rest.head?, isBlank d = true) :
    Place.ofText (c :: (word ++ rest)) = if rest = [] then .word else Place.ofText (rest.drop 1) := by
  have step : Place.next .between c = .word := by
    rw [Place.next, if_neg (Bool.eq_false_iff.mp (solid c List.mem_cons_self)), if_neg (Bool.eq_false_iff.mp quote)]
    all_goals exact nofun
  rw [Place.ofText, List.foldl_cons, step, List.foldl_append,
    Place.foldl_word fun d member => solid d (List.mem_cons_of_mem c member)]
  rcases rest with - | ⟨d, rest⟩
  · rfl
  · have ends : Place.next .word d = .between := if_pos (stop d rfl)
    rw [List.foldl_cons, ends, if_neg (List.cons_ne_nil d rest)]
    rfl

theorem splitCmdLine_word {l : LineList} {line : Bytes} (shown : line ≠ []) (found : skipBlanks line = some s)
    (cut : cutWord s = some (word, rest)) : splitCmdLine l line = splitCmdLine (l ++ [word]) rest := by
  rw [splitCmdLine, if_neg shown]
  split
  · next nothing => cases found.symm.trans nothing
  · next _ same =>
      cases found.symm.trans same
      split
      · next open_ => cases cut.symm.trans open_
      · next _ _ same =>
          cases cut.symm.trans same
          rfl

theorem splitCmdLine_open {l : LineList} {line : Bytes} (shown : line ≠ []) (found : skipBlanks line = some s)
    (cut : cutWord s = none) : splitCmdLine l line = some l := by
  rw [splitCmdLine, if_neg shown]
  split
  · next nothing => cases found.symm.trans nothing
  · next _ same =>
      cases found.symm.trans same
      split
      · rfl
      · next _ _ same => cases cut.symm.trans same

theorem splitCmdLine_blank {l : LineList} {line : Bytes} (shown : line ≠ []) (found : skipBlanks line = none) :
    splitCmdLine l line = none := by
  rw [splitCmdLine, if_neg shown]
  split
  · rfl
  · next _ same => cases found.symm.trans same

theorem splitCmdLine_nil (l : LineList) : splitCmdLine l [] = some l := by rw [splitCmdLine, if_pos rfl]

/-- The words of a line are put behind a list. -/
def Splits (l : LineList) (line : Bytes) : Prop := ∃ words, splitCmdLine l line = some (l ++ words) ∧ Words line words

theorem Splits.behind {l : LineList} {line : Bytes} (run : splitCmdLine l line = splitCmdLine (l ++ [word]) rest)
    (words : ∀ words, Words rest words → Words line (word :: words)) (more : Splits (l ++ [word]) rest) : Splits l line := by
  rcases more with ⟨others, split, apart⟩
  refine ⟨word :: others, ?_, words others apart⟩
  rw [run, split, List.append_assoc, List.singleton_append]

/-- A line that does not end in a blank where a word may begin is split into its words. Each other is read beyond its
end. -/
theorem splitCmdLine_spec (l : LineList) (line : Bytes) :
    (Place.ofText line ≠ .blank → Splits l line) ∧ (Place.ofText line = .blank → splitCmdLine l line = none) := by
  induction length : line.length using Nat.strong_induction_on generalizing l line with
  | _ n ih =>
  rcases eq_or_ne line [] with rfl | shown
  · exact ⟨fun _ => ⟨[], by rw [splitCmdLine_nil, List.append_nil], .nil⟩, nofun⟩
  rcases skipBlanks_spec line with ⟨nothing, all⟩ | ⟨blanks, c, s, rfl, all, solid, found⟩
  · exact ⟨fun other => absurd (Place.ofText_blanks all shown) other, fun _ => splitCmdLine_blank shown nothing⟩
  have place : Place.ofText (blanks ++ c :: s) = Place.ofText (c :: s) := Place.foldl_blanks (.inl rfl) all
  have shorter : s.length < n := by
    rw [← length, List.length_append, List.length_cons]
    omega
  rw [place]
  rcases cutWord_spec solid s with ⟨cut, quote, inside⟩ | ⟨word, rest, cut, quote, inside, rfl⟩ |
    ⟨word, rest, cut, quote, whole, stop, rfl⟩
  · have open_ : Place.ofText (c :: s) = .quote c := by
      rw [Place.ofText, List.foldl_cons, Place.next_quote quote, Place.foldl_quote inside]
    rw [open_]
    refine ⟨fun _ => ⟨[], ?_, .skip all (.opened quote inside)⟩, nofun⟩
    rw [splitCmdLine_open shown found cut, List.append_nil]
  · have closes : Place.next (.quote c) c = .between := if_pos rfl
    have between : Place.ofText (c :: (word ++ c :: rest)) = Place.ofText rest := by
      rw [Place.ofText, List.foldl_cons, Place.next_quote quote, List.foldl_append, Place.foldl_quote inside,
        List.foldl_cons, closes]
      rfl
    have less : rest.length < n := by
      rw [List.length_append, List.length_cons] at shorter
      omega
    have run : splitCmdLine l _ = _ := splitCmdLine_word shown found cut
    rcases ih rest.length less (l ++ [word]) rest rfl with ⟨splits, outside⟩
    rw [between]
    exact ⟨fun other => .behind run (fun _ more => .skip all (.quoted quote inside more)) (splits other),
      fun blank => run.trans (outside blank)⟩
  · have less : (rest.drop 1).length < n := by
      rw [List.length_append] at shorter
      rw [List.length_drop]
      omega
    have run : splitCmdLine l _ = _ := splitCmdLine_word shown found cut
    rcases ih (rest.drop 1).length less (l ++ [c :: word]) (rest.drop 1) rfl with ⟨splits, outside⟩
    rw [place_word quote whole stop]
    rcases rest with - | ⟨d, rest⟩
    · have last : Splits (l ++ [c :: word]) [] := ⟨[], by rw [splitCmdLine_nil, List.append_nil], .nil⟩
      exact ⟨fun _ => .behind run (fun _ more => .skip all (.word quote whole (fun _ => nofun) more)) last, nofun⟩
    · have words : ∀ words, Words rest words → Words (blanks ++ c :: (word ++ d :: rest)) ((c :: word) :: words) :=
        fun _ more => .skip all (.word quote whole stop (.blank (stop d rfl) more))
      rw [if_neg (List.cons_ne_nil d rest)]
      exact ⟨fun other => .behind run words (splits other), fun blank => run.trans (outside blank)⟩

theorem takeWhile_front {p : UInt8 → Bool} (inside : ∀ d ∈ word, p d = true) (stop : ∀ d ∈ rest.head?, p d = false) :
    (word ++ rest).takeWhile p = word := by
  rw [List.takeWhile_append_of_pos inside]
  rcases rest with - | ⟨d, rest⟩
  · rw [List.takeWhile_nil, List.append_nil]
  · rw [List.takeWhile_cons_of_neg (Bool.eq_false_iff.mp (stop d rfl)), List.append_nil]

/-- A text has no other words than these. -/
theorem Words.unique {words others : List Bytes} (one : Words text words) (two : Words text others) : words = others := by
  have quoteFront : ∀ {q : UInt8} {word s : Bytes}, q ∉ word → (word ++ q :: s).takeWhile (· ≠ q) = word := by
    intro q word s inside
    refine takeWhile_front (fun d member => decide_eq_true fun same => inside (same ▸ member)) fun d first => ?_
    rw [← Option.some.inj first]
    simp
  have wordFront : ∀ {word s : Bytes}, (∀ d ∈ word, isBlank d = false) → (∀ d ∈ s.head?, isBlank d = true) →
      (word ++ s).takeWhile (!isBlank ·) = word := by
    intro word s solid stop
    refine takeWhile_front (fun d member => ?_) fun d first => ?_
    · rw [solid d member]
      rfl
    · rw [stop d first]
      rfl
  induction one generalizing others with
  | nil =>
      cases two with
      | nil => rfl
  | blank blank more ih =>
      cases two with
      | blank _ more => exact ih more
      | quoted quote => cases (isBlank_of_isQuote quote).symm.trans blank
      | opened quote => cases (isBlank_of_isQuote quote).symm.trans blank
      | word _ solid => cases (solid _ List.mem_cons_self).symm.trans blank
  | @quoted q word s words quote inside more ih =>
      generalize text : q :: (word ++ q :: s) = line at two
      cases two with
      | nil => cases text
      | blank blank =>
          cases (List.cons.inj text).1
          cases (isBlank_of_isQuote quote).symm.trans blank
      | @quoted _ word' s' others _ inside' more' =>
          cases (List.cons.inj text).1
          have same := (List.cons.inj text).2
          have front : word = word' := by rw [← quoteFront inside, same, quoteFront inside']
          subst front
          rw [ih ((List.cons.inj (List.append_cancel_left same)).2 ▸ more')]
      | opened _ inside' =>
          cases (List.cons.inj text).1
          rw [← (List.cons.inj text).2] at inside'
          exact absurd (List.mem_append_right word List.mem_cons_self) inside'
      | word quote' =>
          cases (List.cons.inj text).1
          cases quote.symm.trans quote'
  | @opened q word quote inside =>
      generalize text : q :: word = line at two
      cases two with
      | nil => rfl
      | blank blank =>
          cases (List.cons.inj text).1
          cases (isBlank_of_isQuote quote).symm.trans blank
      | @quoted _ word' s' others _ inside' more' =>
          cases (List.cons.inj text).1
          rw [(List.cons.inj text).2] at inside
          exact absurd (List.mem_append_right word' List.mem_cons_self) inside
      | opened => rfl
      | word quote' =>
          cases (List.cons.inj text).1
          cases quote.symm.trans quote'
  | @word c word s words quote solid stop more ih =>
      generalize text : c :: (word ++ s) = line at two
      cases two with
      | nil => cases text
      | blank blank =>
          cases (List.cons.inj text).1
          cases (solid c List.mem_cons_self).symm.trans blank
      | quoted quote' =>
          cases (List.cons.inj text).1
          cases quote.symm.trans quote'
      | opened quote' =>
          cases (List.cons.inj text).1
          cases quote.symm.trans quote'
      | @word d word' s' others _ solid' stop' more' =>
          have same : c :: word ++ s = d :: word' ++ s' := text
          have front : c :: word = d :: word' := by rw [← wordFront solid stop, same, wordFront solid' stop']
          cases front
          rw [ih (List.append_cancel_left same ▸ more')]

/-- A line is split into its words, and nothing but the line is read, exactly if it does not end in a blank where a
word may begin: behind another blank or a quoted word, or at the start. -/
theorem splitCmdLine_words_iff (l : LineList) (line : Bytes) :
    (∃ words, splitCmdLine l line = some (l ++ words) ∧ ∀ others, Words line others ↔ others = words) ↔
      Place.ofText line ≠ .blank := by
  rcases splitCmdLine_spec l line with ⟨splits, outside⟩
  constructor
  · intro ⟨words, run, _⟩ blank
    cases run.symm.trans (outside blank)
  · intro other
    rcases splits other with ⟨words, run, apart⟩
    refine ⟨words, run, fun others => ⟨fun more => more.unique apart, fun same => same ▸ apart⟩⟩

/-- Behind the blanks at the end of a line, the text is read on beyond its end. -/
theorem blanks_outside :
    ¬∃ words, splitCmdLine [] (lit "lpf -v  ") = some ([] ++ words) ∧ ∀ others, Words (lit "lpf -v  ") others ↔ others = words := by
  intro ⟨words, run, _⟩
  have outside : splitCmdLine [] (lit "lpf -v  ") = none := (splitCmdLine_spec [] _).2 (by decide)
  cases run.symm.trans outside

end CommandLine

end LPRng
