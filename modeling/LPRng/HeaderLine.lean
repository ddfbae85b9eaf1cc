import LPRng.Bytes

/-!
# Header lines

A file that is transferred is announced by a header line: a byte that says what it is,
the number of its bytes, a blank and its name. `plp_snprintf` prints the line,
`Read_one_line` reads it back, `Clean_meta` replaces the characters that are not safe
in a name, and `Split` takes the rest of the line apart.
-/

namespace LPRng

/-- `iscntrl` in the C locale. -/
def isCntrl (c : UInt8) : Bool := c < 32 || c == 127

/-- The characters of `Whitespace`. -/
def isWhite (c : UInt8) : Bool := c == 32 || c == 9 || c == 10 || c == 12

/-- A property of bytes holds of each if a table of all bytes says so. -/
theorem forall_byte {p : UInt8 → Bool} (table : ∀ n : Fin 256, p (UInt8.ofFin n) = true)
    (c : UInt8) : p c = true := table c.toFin

/-! ## Printing -/

/-- `fmtstr`: a control character other than a tab or a line end is made visible. -/
def fmtString (s : Bytes) : Bytes :=
  s.flatMap fun c => if isCntrl c && c ≠ 9 && c ≠ 10 then [94, 64 ||| (c &&& 31)] else [c]

/-- The bytes `plp_snprintf` leaves in a buffer of the given size. -/
def plpSnprintf (count : Nat) (text : Bytes) : Bytes := text.take (count - 1)

/-- A text without control characters but tabs and line ends is printed as it is. -/
theorem fmtString_of_printed {s : Bytes} (printed : ∀ c ∈ s, isCntrl c = false ∨ c = 9 ∨ c = 10) :
    fmtString s = s := by
  unfold fmtString
  induction s with
  | nil => rfl
  | cons c cs ih =>
      rw [List.flatMap_cons, ih fun d member => printed d (List.mem_cons_of_mem c member)]
      rcases printed c List.mem_cons_self with visible | rfl | rfl
      · rw [visible]
        rfl
      · rfl
      · rfl

theorem fmtString_of_visible {s : Bytes} (visible : ∀ c ∈ s, isCntrl c = false) :
    fmtString s = s :=
  fmtString_of_printed fun c member => .inl (visible c member)

/-- No control character is printed but a tab or a line end. -/
theorem visible_of_mem_fmtString {s : Bytes} {c : UInt8} (member : c ∈ fmtString s) :
    isCntrl c = false ∨ c = 9 ∨ c = 10 := by
  unfold fmtString at member
  rcases List.mem_flatMap.mp member with ⟨d, -, printed⟩
  have shown : ∀ d : UInt8, (!isCntrl (64 ||| (d &&& 31))) = true := forall_byte (by decide +kernel)
  by_cases hidden : (isCntrl d && d ≠ 9 && d ≠ 10) = true
  · rw [if_pos hidden] at printed
    rcases List.mem_cons.mp printed with rfl | second
    · exact .inl (by decide)
    · rw [List.mem_singleton.mp second]
      exact .inl ((Bool.not_eq_true' _).mp (shown d))
  · rw [if_neg hidden] at printed
    rw [List.mem_singleton.mp printed]
    cases control : isCntrl d with
    | false => exact .inl rfl
    | true =>
        rw [control] at hidden
        simp only [Bool.true_and, Bool.and_eq_true, decide_eq_true_eq, not_and_or, not_not]
          at hidden
        exact .inr hidden

theorem noNul_fmtString (s : Bytes) : 0 ∉ fmtString s := by
  intro member
  rcases visible_of_mem_fmtString member with visible | tab | newline
  · exact absurd visible (by decide)
  · exact absurd tab (by decide)
  · exact absurd newline (by decide)

/-! ## Reading a line -/

/-- `Read_one_line` into a buffer for `n` characters: the line and what follows it. At the
end of the stream there is no line, even if some characters were read. -/
def readOneLine : Nat → Bytes → Option (Bytes × Bytes)
  | 0, s => some ([], s)
  | _ + 1, [] => none
  | n + 1, c :: s =>
      if c = 10 then some ([], s) else (readOneLine n s).map fun read => (c :: read.1, read.2)

/-- A line ends at a line end, or where the buffer is full. -/
theorem readOneLine_spec {n : Nat} {s line rest : Bytes}
    (read : readOneLine n s = some (line, rest)) :
    10 ∉ line ∧ (line.length < n ∧ s = line ++ 10 :: rest ∨ line.length = n ∧ s = line ++ rest) := by
  induction n generalizing s line with
  | zero =>
      obtain ⟨rfl, rfl⟩ := Prod.mk.inj (Option.some.inj read)
      exact ⟨List.not_mem_nil, .inr ⟨rfl, rfl⟩⟩
  | succ n ih =>
      cases s with
      | nil => cases read
      | cons c s =>
          unfold readOneLine at read
          split at read
          · next newline =>
              obtain ⟨rfl, rfl⟩ := Prod.mk.inj (Option.some.inj read)
              exact ⟨List.not_mem_nil, .inl ⟨Nat.succ_pos n, by rw [newline]; rfl⟩⟩
          · next other =>
              rcases Option.map_eq_some_iff.mp read with ⟨⟨line', rest'⟩, tail, same⟩
              obtain ⟨rfl, rfl⟩ := Prod.mk.inj same
              obtain ⟨inner, ends⟩ := ih tail
              refine ⟨fun member => ?_, ?_⟩
              · rcases List.mem_cons.mp member with first | later
                · exact other first.symm
                · exact inner later
              · rcases ends with ⟨short, rfl⟩ | ⟨full, rfl⟩
                · exact .inl ⟨Nat.succ_lt_succ short, rfl⟩
                · exact .inr ⟨congrArg (· + 1) full, rfl⟩

/-- A line that fits is read up to its line end. -/
theorem readOneLine_append {n : Nat} {line rest : Bytes} (single : 10 ∉ line)
    (fits : line.length < n) : readOneLine n (line ++ 10 :: rest) = some (line, rest) := by
  induction line generalizing n with
  | nil =>
      cases n with
      | zero => exact absurd fits (Nat.lt_irrefl 0)
      | succ n => rfl
  | cons c cs ih =>
      cases n with
      | zero => exact absurd fits (Nat.not_lt_zero _)
      | succ n =>
          have other : c ≠ 10 := fun same => single (same ▸ List.mem_cons_self)
          have tail := ih (n := n) (fun member => single (List.mem_cons_of_mem c member))
            (Nat.lt_of_succ_lt_succ fits)
          rw [List.cons_append, readOneLine, if_neg other, tail]
          rfl

theorem readOneLine_length {n : Nat} {s line rest : Bytes}
    (read : readOneLine (n + 1) s = some (line, rest)) : rest.length < s.length := by
  rcases readOneLine_spec read with ⟨-, ⟨-, rfl⟩ | ⟨full, rfl⟩⟩
  · simp only [List.length_append, List.length_cons]
    omega
  · simp only [List.length_append]
    omega

/-! ## Words of a line -/

/-- `Split` at `Whitespace` with nothing trimmed. -/
def splitWords : Bytes → List Bytes
  | [] => []
  | c :: s =>
      if isWhite c then [] :: splitWords s
      else
        match splitWords s with
        | [] => [[c]]
        | word :: words => (c :: word) :: words

theorem splitWords_append {word : Bytes} (solid : ∀ c ∈ word, isWhite c = false)
    (rest : Bytes) : splitWords (word ++ 32 :: rest) = word :: splitWords rest := by
  induction word with
  | nil => rfl
  | cons c cs ih =>
      have tail := ih fun d member => solid d (List.mem_cons_of_mem c member)
      rw [List.cons_append, splitWords, solid c List.mem_cons_self, tail]
      rfl

theorem splitWords_word {word : Bytes} (solid : ∀ c ∈ word, isWhite c = false)
    (nonempty : word ≠ []) : splitWords word = [word] := by
  induction word with
  | nil => exact absurd rfl nonempty
  | cons c cs ih =>
      rw [splitWords, solid c List.mem_cons_self]
      cases cs with
      | nil => rfl
      | cons d ds =>
          rw [ih (fun e member => solid e (List.mem_cons_of_mem c member)) (List.cons_ne_nil d ds)]
          rfl

/-- The characters of a word are characters of the text, and none is white. -/
theorem of_mem_splitWords {s word : Bytes} (split : word ∈ splitWords s) :
    ∀ c ∈ word, c ∈ s ∧ isWhite c = false := by
  induction s generalizing word with
  | nil => cases split
  | cons d s ih =>
      unfold splitWords at split
      have later : ∀ {word}, word ∈ splitWords s → ∀ c ∈ word, c ∈ d :: s ∧ isWhite c = false :=
        fun split c member => ⟨List.mem_cons_of_mem d (ih split c member).1, (ih split c member).2⟩
      cases white : isWhite d with
      | true =>
          rw [if_pos white] at split
          rcases List.mem_cons.mp split with rfl | split
          · exact fun c member => nomatch member
          · exact later split
      | false =>
          rw [white, if_neg Bool.false_ne_true] at split
          cases words : splitWords s with
          | nil =>
              rw [words] at split
              rw [List.mem_singleton.mp split]
              intro c member
              rw [List.mem_singleton.mp member]
              exact ⟨List.mem_cons_self, white⟩
          | cons first words' =>
              rw [words] at split
              rcases List.mem_cons.mp split with rfl | split
              · intro c member
                rcases List.mem_cons.mp member with rfl | member
                · exact ⟨List.mem_cons_self, white⟩
                · exact later (words ▸ List.mem_cons_self) c member
              · exact later (words ▸ List.mem_cons_of_mem first split)

/-! ## Clean names -/

/-- `Is_meta`, for the configured safe characters. -/
def isMeta (safe : Bytes) (c : UInt8) : Bool :=
  !(isSpace c || isAlnum c || safe.contains c || (lit "-_.@/:()=,+-%").contains c)

/-- What `Clean_meta` makes of one character. -/
def cleanChar (safe : Bytes) (c : UInt8) : UInt8 :=
  if c = 92 then 47 else if isMeta safe c then 95 else c

def cleanMeta (safe : Bytes) (s : Bytes) : Bytes := s.map (cleanChar safe)

/-- A character that is printed, cleaned and split as part of a name and stays as it is. -/
def plainChar (safe : Bytes) (c : UInt8) : Bool :=
  c ≠ 92 && c ≠ 32 && !isCntrl c && !isMeta safe c

variable {safe : Bytes} {c : UInt8}

theorem isMeta_of_lessSafe (listed : (lit "-_.@/:()=,+-%").contains c = true) :
    isMeta safe c = false := by
  unfold isMeta
  rw [listed, Bool.or_true]
  rfl

theorem plainChar_slash : plainChar safe 47 = true := by
  unfold plainChar
  rw [isMeta_of_lessSafe (by decide)]
  rfl

theorem plainChar_underscore : plainChar safe 95 = true := by
  unfold plainChar
  rw [isMeta_of_lessSafe (by decide)]
  rfl

theorem plainChar_of_alnum (alnum : isAlnum c = true) : plainChar safe c = true := by
  have table : ∀ c : UInt8, (!isAlnum c || (c ≠ 92 && c ≠ 32 && !isCntrl c)) = true :=
    forall_byte (by decide +kernel)
  have shape := table c
  rw [alnum, Bool.not_true, Bool.false_or] at shape
  unfold plainChar isMeta
  rw [shape, alnum, Bool.or_true]
  rfl

theorem isWhite_of_plainChar (plain : plainChar safe c = true) : isWhite c = false := by
  have table : ∀ c : UInt8, (!isWhite c || c == 32 || isCntrl c) = true := forall_byte (by decide +kernel)
  have shape := table c
  simp only [plainChar, Bool.and_eq_true, decide_eq_true_eq, Bool.not_eq_true'] at plain
  simp only [Bool.or_eq_true, Bool.not_eq_true', beq_iff_eq] at shape
  rcases shape with (solid | blank) | control
  · exact solid
  · exact absurd blank plain.1.1.2
  · exact absurd control (by rw [plain.1.2]; exact Bool.false_ne_true)

theorem cleanChar_of_plainChar (plain : plainChar safe c = true) : cleanChar safe c = c := by
  simp only [plainChar, Bool.and_eq_true, decide_eq_true_eq, Bool.not_eq_true'] at plain
  unfold cleanChar
  rw [if_neg plain.1.1.1, plain.2, if_neg Bool.false_ne_true]

theorem cleanMeta_of_plain {s : Bytes} (plain : ∀ c ∈ s, plainChar safe c = true) :
    cleanMeta safe s = s :=
  (List.map_congr_left fun c member => cleanChar_of_plainChar (plain c member)).trans (List.map_id s)

/-- The words of a printed and cleaned text have plain characters only. -/
theorem plain_of_mem_splitWords {s word : Bytes}
    (visible : ∀ c ∈ s, isCntrl c = false ∨ c = 9 ∨ c = 10)
    (split : word ∈ splitWords (cleanMeta safe s)) : ∀ c ∈ word, plainChar safe c = true := by
  intro c member
  obtain ⟨cleaned, solid⟩ := of_mem_splitWords split c member
  rcases List.mem_map.mp cleaned with ⟨d, origin, rfl⟩
  unfold cleanChar at solid ⊢
  by_cases backslash : d = 92
  · rw [if_pos backslash]
    exact plainChar_slash
  · rw [if_neg backslash] at solid ⊢
    cases meta_ : isMeta safe d with
    | true =>
        rw [if_pos rfl]
        exact plainChar_underscore
    | false =>
        rw [meta_, if_neg Bool.false_ne_true] at solid
        rw [if_neg Bool.false_ne_true]
        have blank : d ≠ 32 := fun same => by rw [same] at solid; cases solid
        have shown : isCntrl d = false := by
          rcases visible d origin with shown | rfl | rfl
          · exact shown
          · cases solid
          · cases solid
        simp [plainChar, backslash, blank, shown, meta_]

end LPRng
