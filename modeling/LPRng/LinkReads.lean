import LPRng.BlockFraming
import LPRng.StreamFile

/-!
# Lines and files that are read from a connection

`Link_line_read` reads a line character by character. `Link_file_read` reads the bytes of a file in parts of any size, up to
its length or to the end of the connection, and one byte more. Whatever the parts are, a line and a file that arrive whole
are what was sent.
-/

namespace LPRng

namespace LinkReads

/-! ## Lines -/

/-- A turn of the loop of `Link_line_read`, with the character that was read and those before it. -/
inductive LineRead where
  | more (got : Bytes)
  | whole (line : Bytes)
  | tooLong

def lineByte (room : Nat) (got : Bytes) (c : UInt8) : LineRead :=
  if c = 10 then .whole got
  else if c = 13 then .more got
  else if got.length + 1 = room then .tooLong
  else .more (got ++ [c])

/-- The room for the characters of a line: `LINEBUFFER` for a request and `SMALLBUFFER` for a header line, less what
`Link_line_read` keeps free. -/
def requestRoom : Nat := lineBuffer - 2

def lineRoom : Nat := smallBuffer - 2

/-- A request line that `Service_lpd` takes for a command. -/
def isRequest (command : UInt8) (line : Bytes) : Bool := 2 ≤ line.length && line.head? = some command

/-- A character that stays in a line. -/
def Solid (c : UInt8) : Prop := c ≠ 10 ∧ c ≠ 13 ∧ c ≠ 0

/-! ## Files -/

/-- How far `Link_file_read` is: it reads the bytes of a file up to a limit, if there is one, or the byte behind them, or
has all of it, or it has failed. -/
inductive FileRead where
  | body (limit : Int) (got : Bytes)
  | marker (got : Bytes)
  | whole (got : Bytes)
  | failed

/-- It begins to read, unless the limit is negative. -/
def fileRead (count : Int) : FileRead := if count < 0 then .whole [] else .body count []

inductive FileReads : FileRead → Bytes → FileRead → Prop
  | body {limit : Int} {got : Bytes} (s : Bytes) : s.length ≤ largeBuffer → limit = 0 ∨ ((got ++ s).length : Int) < limit →
      FileReads (.body limit got) s (.body limit (got ++ s))
  | last {limit : Int} {got : Bytes} (s : Bytes) : s.length ≤ largeBuffer → limit ≠ 0 → ((got ++ s).length : Int) = limit →
      FileReads (.body limit got) s (.marker (got ++ s))
  | marker {got : Bytes} : FileReads (.marker got) [0] (.whole got)
  | noMarker {got : Bytes} {c : UInt8} : c ≠ 0 → FileReads (.marker got) [c] .failed

/-- What the end of the connection makes of it: it takes the place of the byte behind the file, and ends a file of unknown
length. -/
inductive FileEnds : FileRead → FileRead → Prop
  | marker {got : Bytes} : FileEnds (.marker got) (.whole got)
  | unlimited {got : Bytes} : FileEnds (.body 0 got) (.whole got)
  | short {limit : Int} {got : Bytes} : limit ≠ 0 → FileEnds (.body limit got) .failed

/-! ## A line that arrives -/

variable {safe : Bytes} {c : UInt8}

theorem plain_of_mem_printNat {n : Nat} (member : c ∈ printNat 10 n) : plainChar safe c = true :=
  plainChar_of_alnum (by rw [isAlnum, isDigit_of_mem_printNat member, Bool.or_true])

theorem isSpace_of_plain (plain : plainChar safe c = true) : isSpace c = false := by
  simp only [plainChar, isCntrl, Bool.and_eq_true, Bool.not_eq_true', Bool.or_eq_false_iff, decide_eq_true_eq,
    decide_eq_false_iff_not] at plain
  unfold isSpace
  rw [Bool.or_eq_false_iff, beq_eq_false_iff_ne, Bool.and_eq_false_iff, decide_eq_false_iff_not]
  refine ⟨plain.1.1.2, Or.inr ?_⟩
  rw [decide_eq_false_iff_not]
  exact fun low => plain.1.2.1 (UInt8.lt_of_le_of_lt low (by decide))

theorem solid_of_plain (plain : plainChar safe c = true) : Solid c := by
  refine ⟨?_, ?_, ?_⟩
  · rintro rfl
    cases (plain : false = true)
  · rintro rfl
    cases (plain : false = true)
  · rintro rfl
    cases (plain : false = true)

/-- The characters of a line that arrives are kept up to its end. -/
theorem lineByte_text {room : Nat} {text got rest : Bytes} (solid : ∀ d ∈ text, Solid d) (short : text.length < room)
    (next : got ++ [c] ++ rest = text ++ [10]) :
    (rest = [] ∧ got = text ∧ lineByte room got c = .whole text) ∨
      (rest ≠ [] ∧ lineByte room got c = .more (got ++ [c])) := by
  rcases List.eq_nil_or_concat rest with rfl | ⟨front, last, rfl⟩
  · rw [List.append_nil] at next
    obtain ⟨same, ends⟩ := List.append_inj' next rfl
    cases ends
    exact Or.inl ⟨rfl, same, by rw [lineByte, if_pos rfl, same]⟩
  · rw [List.concat_eq_append, ← List.append_assoc] at next
    obtain ⟨same, -⟩ := List.append_inj' next rfl
    have inside : c ∈ text := by
      rw [← same]
      simp
    have length : got.length + 1 ≤ text.length := by
      rw [← same]
      simp only [List.length_append, List.length_singleton]
      omega
    refine Or.inr ⟨by simp, ?_⟩
    rw [lineByte, if_neg (solid c inside).1, if_neg (solid c inside).2.1, if_neg (by omega)]

theorem isRequest_cons {text : Bytes} (some : text ≠ []) (command : UInt8) : isRequest command (command :: text) = true := by
  have positive := List.length_pos_iff.mpr some
  rw [isRequest, Bool.and_eq_true, decide_eq_true_eq, decide_eq_true_eq, List.length_cons]
  exact ⟨Nat.succ_le_succ positive, List.head?_cons⟩

/-! ## A file that arrives -/

/-- `Link_file_read` when it has read `c` of a file and the 0 behind it. -/
inductive FileRead.At (content : Bytes) : Bytes → FileRead → Prop
  | body {c t : Bytes} : c ++ t = content → t ≠ [] → FileRead.At content c (.body content.length c)
  | marker : FileRead.At content content (.marker content)
  | whole : FileRead.At content (content ++ [0]) (.whole content)

namespace FileRead

variable {content c s rest : Bytes} {file file' : FileRead}

theorem at_fileRead (some : content ≠ []) : At content [] (fileRead content.length) := by
  rw [fileRead, if_neg (Int.not_lt.mpr (Int.natCast_nonneg _))]
  exact At.body rfl some

theorem At.reads (here : At content c file) (read : FileReads file s file') (same : c ++ s ++ rest = content ++ [0]) :
    At content (c ++ s) file' := by
  cases here with
  | @body _ left whole some =>
      cases read with
      | body _ _ below =>
          have less : (c ++ s).length < content.length := by
            rcases below with empty | less
            · rw [← whole, List.length_append] at empty
              have positive := List.length_pos_iff.mpr some
              omega
            · exact Int.ofNat_lt.mp less
          obtain ⟨t, front⟩ : c ++ s <+: content :=
            List.prefix_of_prefix_length_le ⟨rest, same⟩ (List.prefix_append _ _) (Nat.le_of_lt less)
          refine At.body front ?_
          rintro rfl
          rw [List.append_nil] at front
          exact Nat.lt_irrefl _ (front ▸ less)
      | last _ _ _ reached =>
          have all : c ++ s = content := (List.append_inj same (Int.ofNat_inj.mp reached)).1
          rw [all]
          exact At.marker
  | marker =>
      rw [List.append_assoc] at same
      have behind := List.append_cancel_left same
      cases read with
      | marker => exact At.whole
      | noMarker other =>
          rw [List.singleton_append] at behind
          exact absurd (List.cons_eq_cons.mp behind).1 other
  | whole => cases read

/-- Where bytes of the file have arrived, some are read. -/
theorem At.canRead (here : At content c file) (same : c ++ s ++ rest = content ++ [0]) (arrived : s ≠ []) :
    ∃ front back file', s = front ++ back ∧ front ≠ [] ∧ FileReads file front file' := by
  obtain ⟨ch, back, rfl⟩ := List.exists_cons_of_ne_nil arrived
  refine ⟨[ch], back, ?_⟩
  cases here with
  | @body _ left whole some =>
      have length : (c ++ [ch]).length ≤ content.length := by
        have positive := List.length_pos_iff.mpr some
        rw [← whole, List.length_append, List.length_append, List.length_singleton]
        omega
      rcases Nat.lt_or_eq_of_le length with less | equal
      · exact ⟨_, rfl, List.cons_ne_nil _ _, FileReads.body [ch] (Nat.succ_le_of_lt (by decide)) (Or.inr (Int.ofNat_lt.mpr less))⟩
      · refine ⟨_, rfl, List.cons_ne_nil _ _, FileReads.last [ch] (Nat.succ_le_of_lt (by decide)) ?_ (congrArg Int.ofNat equal)⟩
        rw [← equal, List.length_append, List.length_singleton]
        omega
  | marker =>
      rw [List.append_assoc] at same
      have behind := List.append_cancel_left same
      cases (List.cons_eq_cons.mp behind).1
      exact ⟨_, rfl, List.cons_ne_nil _ _, FileReads.marker⟩
  | whole =>
      rw [List.append_assoc] at same
      exact absurd (List.self_eq_append_right.mp same.symm) (by simp)

/-- The end of the connection takes the place of the last byte, or comes too early. -/
theorem At.ends (here : At content c file) (ends : FileEnds file file') :
    (c = content ∧ file' = .whole content) ∨ (file' = .failed ∧ ∃ limit ≠ 0, file = .body limit c) := by
  cases here with
  | @body _ left whole some =>
      have positive : 0 < content.length := by
        rw [← whole, List.length_append]
        exact Nat.lt_of_lt_of_le (List.length_pos_iff.mpr some) (Nat.le_add_left _ _)
      generalize length : (content.length : Int) = limit at ends
      cases ends with
      | unlimited => omega
      | short unlike => exact Or.inr ⟨rfl, _, unlike, length ▸ rfl⟩
  | marker =>
      cases ends
      exact Or.inl ⟨rfl, rfl⟩
  | whole => cases ends

theorem At.canEnd (here : At content c file) (part : c ≠ content ++ [0]) : ∃ file', FileEnds file file' := by
  cases here with
  | @body _ left whole some =>
      refine ⟨_, FileEnds.short ?_⟩
      have positive : 0 < content.length := by
        rw [← whole, List.length_append]
        exact Nat.lt_of_lt_of_le (List.length_pos_iff.mpr some) (Nat.le_add_left _ _)
      omega
  | marker => exact ⟨_, FileEnds.marker⟩
  | whole => exact absurd rfl part

theorem At.of_whole {got : Bytes} (here : At content c (.whole got)) : c = content ++ [0] ∧ got = content := by
  cases here
  exact ⟨rfl, rfl⟩

/-- Behind the last byte, the file is there. -/
theorem At.of_all (here : At content (content ++ [0]) file) : file = .whole content := by
  generalize all : content ++ [0] = c at here
  cases here with
  | @body _ left whole some =>
      have length := congrArg List.length (whole.trans (List.append_nil content).symm)
      rw [← all, List.length_append, List.length_append, List.length_append, List.length_singleton] at length
      simp only [List.length_nil] at length
      omega
  | marker => exact absurd (List.self_eq_append_right.mp all.symm) (by simp)
  | whole => rfl

end FileRead

end LinkReads

end LPRng
