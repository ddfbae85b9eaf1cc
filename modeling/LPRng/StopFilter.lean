import LPRng.Bytes

/-!
# Suspending the output filter

`filter_pgm` copies its input and looks for the stop string in it, at which the filter stops itself until
it is continued. The first character of the string is held back until the next one is read. On the way a
carriage return is put before line feeds and form feeds, but that is written at once.
-/

namespace LPRng

namespace StopFilter

/-- What the filter does. -/
inductive Event where
  | write (c : UInt8)
  | suspend
  deriving DecidableEq, Repr

/-- A character of a string as an `int`, where `signed` tells whether `char` is signed. -/
def promote (signed : Bool) (c : UInt8) : Int := if signed ∧ 128 ≤ c then (c.toNat : Int) - 256 else c.toNat

/-- The options of the filter, `literal` and `crlf` turn the translation off, and the kind of `char` it was compiled
with. -/
structure FilterConfig where
  literal : Bool
  crlf : Bool
  length : Int
  signedChar : Bool

/-- The variables of `filter_pgm`: how much of the stop string is held back, the last character, and the counts of
lines and pages. -/
structure FilterState where
  state : Nat
  lastc : UInt8
  lines : Int
  npages : Int

def FilterState.start : FilterState := ⟨0, 0, 0, 1⟩

section

variable (config : FilterConfig)

def translates : Bool := !config.literal && !config.crlf

/-- The carriage return before a character. -/
def returns (lastc c : UInt8) : List Event :=
  (if c = 10 ∧ translates config ∧ lastc ≠ 13 then [.write 13] else []) ++
    if c = 12 ∧ translates config then [.write 13] else []

/-- The count of lines and pages with one more character. -/
def count (σ : FilterState) (c : UInt8) : FilterState :=
  if c = 10 then
    if config.length < σ.lines + 1 then { σ with lines := σ.lines + 1 - config.length, npages := σ.npages + 1 }
    else { σ with lines := σ.lines + 1 }
  else if c = 12 then { σ with lines := 0, npages := σ.npages + 1 }
  else σ

/-- What is done with a character and the stop string. -/
def matchStop (stop : Bytes) (state : Nat) (c : UInt8) : Nat × List Event :=
  if (c.toNat : Int) = promote config.signedChar (stop.getD state 0) then
    if stop.getD (state + 1) 0 = 0 then (0, [.suspend]) else (state + 1, [])
  else if state ≠ 0 then (0, (stop.take state).map .write ++ [.write c])
  else (0, [.write c])

/-- One turn of the loop of `filter_pgm`. -/
def turn (stop : Option (Bytes)) (σ : FilterState) (c : UInt8) : FilterState × List Event :=
  let matched := match stop with
    | some stop => matchStop config stop σ.state c
    | none => (σ.state, [.write c])
  ({ count config σ c with state := matched.1, lastc := c }, returns config σ.lastc c ++ matched.2)

/-- The loop, with what is still held back at the end of the input. -/
def run (stop : Option (Bytes)) : FilterState → Bytes → FilterState × List Event
  | σ, [] => (σ, ((stop.getD []).take σ.state).map .write)
  | σ, c :: rest =>
      let next := turn config stop σ c
      let result := run stop next.1 rest
      (result.1, next.2 ++ result.2)

/-- `filter_pgm`: the events and the number of pages. -/
def filterPgm (stop : Option (Bytes)) (input : Bytes) : List Event × Int :=
  let result := run config stop .start input
  (result.2, if 0 < result.1.lines then result.1.npages + 1 else result.1.npages)

end

/-! ## What is expected -/

/-- A stop string of two different characters. -/
structure StopString where
  first : UInt8
  second : UInt8
  apart : first ≠ second
  first_ne : first ≠ 0
  second_ne : second ≠ 0

def StopString.text (stop : StopString) : Bytes := [stop.first, stop.second]

/-- The stop string of the server. -/
def filterStop : StopString := ⟨25, 1, by decide, by decide, by decide⟩

/-- The input with its occurrences of the stop string marked. -/
def marked (stop : StopString) : Bytes → List (Option UInt8)
  | [] => []
  | [c] => [some c]
  | c :: d :: rest =>
      if c = stop.first ∧ d = stop.second then none :: marked stop rest else some c :: marked stop (d :: rest)

section

variable (config : FilterConfig)

/-- The characters are translated behind the last one that was no part of an occurrence, and each occurrence
suspends the filter. -/
def translated : UInt8 → List (Option UInt8) → List Event
  | _, [] => []
  | last, none :: rest => .suspend :: translated last rest
  | last, some c :: rest => returns config last c ++ .write c :: translated c rest

def expected (stop : StopString) (input : Bytes) : List Event :=
  translated config 0 (marked stop input)

end

/-! ## Where the filter does it -/

section

variable (config : FilterConfig) (stop : StopString)

/-- A character of the stop string that can be read: with a signed `char` those from 128 on are none. -/
def Known (c : UInt8) : Prop := config.signedChar = true → c < 128

instance (c : UInt8) : Decidable (Known config c) := inferInstanceAs (Decidable (_ → _))

/-- What stands before the rest of an input: no start of the stop string, one that is held back, or one that is
written already. -/
inductive Before where
  | clear | held | missed

/-- The rest of an input that is filtered well, behind a character `lastc` that was read and a last one that was no part
of an occurrence. -/
def Filtered : Before → UInt8 → UInt8 → Bytes → Prop
  | .clear, _, _, [] => True
  | .clear, lastc, last, c :: rest =>
      if c = stop.first then
        if Known config c then Filtered .held lastc last rest
        else returns config lastc c = returns config last c ∧ Filtered .missed lastc last rest
      else returns config lastc c = returns config last c ∧ Filtered .clear c c rest
  | .held, lastc, last, [] => returns config lastc stop.first = returns config last stop.first
  | .held, lastc, last, c :: rest =>
      if c = stop.second then
        Known config c ∧ returns config lastc stop.first = [] ∧ returns config stop.first c = [] ∧ Filtered .clear c last rest
      else
        returns config lastc stop.first = returns config last stop.first ∧
          (returns config stop.first c = [] ∨ stop.first = 13) ∧
          if c = stop.first then Filtered .missed stop.first stop.first rest
          else Filtered .clear c c rest
  | .missed, _, _, [] => True
  | .missed, _, _, c :: rest =>
      c ≠ stop.second ∧
        if c = stop.first then
          if Known config c then Filtered .held c c rest else Filtered .missed c c rest
        else Filtered .clear c c rest

end

/-! ## Single characters -/

variable {config : FilterConfig} {stop : StopString} {c d lastc last : UInt8} {input : Bytes}

theorem promote_eq_iff : ((c.toNat : Int) = promote config.signedChar d) ↔ c = d ∧ Known config c := by
  have bound := c.toNat_lt
  have bound' := d.toNat_lt
  have half : (128 : UInt8).toNat = 128 := rfl
  unfold promote Known
  rw [← UInt8.toNat_inj, UInt8.lt_iff_toNat_lt, half]
  cases config.signedChar with
  | false => simp
  | true =>
      simp only [true_and, forall_const]
      split
      · next high =>
          rw [UInt8.le_iff_toNat_le, half] at high
          omega
      · next low =>
          rw [UInt8.le_iff_toNat_le, half] at low
          omega

/-- What is written before a character is nothing or one carriage return. -/
theorem returns_cases (config : FilterConfig) (lastc c : UInt8) :
    returns config lastc c = [] ∨ returns config lastc c = [.write 13] ∧ (c = 10 ∧ lastc ≠ 13 ∨ c = 12) := by
  unfold returns
  split
  · next feed =>
      have other : ¬ (c = 12 ∧ translates config) := fun both => nomatch feed.1.symm.trans both.1
      rw [if_neg other]
      exact .inr ⟨rfl, .inl ⟨feed.1, feed.2.2⟩⟩
  · split
    · next form => exact .inr ⟨rfl, .inr form.1⟩
    · exact .inl rfl

/-! ## The events of a run -/

/-- The events of a run, for which the counts do not matter. -/
def acts (config : FilterConfig) (stop : Bytes) : Nat → UInt8 → Bytes → List Event
  | state, _, [] => (stop.take state).map .write
  | state, lastc, c :: rest =>
      returns config lastc c ++ (matchStop config stop state c).2 ++ acts config stop (matchStop config stop state c).1 c rest

theorem run_snd (config : FilterConfig) (stop : Bytes) (σ : FilterState) (input : Bytes) :
    (run config (some stop) σ input).2 = acts config stop σ.state σ.lastc input := by
  induction input generalizing σ with
  | nil => rfl
  | cons c rest ih =>
      rw [run, acts]
      exact congrArg (_ ++ ·) (ih _)

section

variable (stop)

theorem text_zero : stop.text.getD 0 0 = stop.first := rfl

theorem text_one : stop.text.getD 1 0 = stop.second := rfl

theorem text_two : stop.text.getD 2 0 = 0 := rfl

end

theorem acts_clear_first (known : Known config stop.first) (lastc : UInt8) (rest : Bytes) :
    acts config stop.text 0 lastc (stop.first :: rest) =
      returns config lastc stop.first ++ acts config stop.text 1 stop.first rest := by
  have matched : matchStop config stop.text 0 stop.first = (1, []) := by
    unfold matchStop
    rw [text_zero, text_one, if_pos (promote_eq_iff.mpr ⟨rfl, known⟩), if_neg stop.second_ne]
  rw [acts, matched, List.append_nil]

theorem acts_clear (plain : c ≠ stop.first ∨ ¬ Known config c) (lastc : UInt8) (rest : Bytes) :
    acts config stop.text 0 lastc (c :: rest) =
      returns config lastc c ++ .write c :: acts config stop.text 0 c rest := by
  have matched : matchStop config stop.text 0 c = (0, [.write c]) := by
    unfold matchStop
    rw [if_neg fun same => ?_, if_neg fun some_ => some_ rfl]
    rcases promote_eq_iff.mp same with ⟨first, known⟩
    exact plain.elim (fun other => other first) fun unknown => unknown known
  rw [acts, matched, List.append_assoc]
  rfl

theorem acts_held_second (known : Known config stop.second) (lastc : UInt8) (rest : Bytes) :
    acts config stop.text 1 lastc (stop.second :: rest) =
      returns config lastc stop.second ++ .suspend :: acts config stop.text 0 stop.second rest := by
  have matched : matchStop config stop.text 1 stop.second = (0, [.suspend]) := by
    unfold matchStop
    rw [text_one, text_two, if_pos (promote_eq_iff.mpr ⟨rfl, known⟩), if_pos rfl]
  rw [acts, matched, List.append_assoc]
  rfl

theorem acts_held (plain : c ≠ stop.second ∨ ¬ Known config c) (lastc : UInt8) (rest : Bytes) :
    acts config stop.text 1 lastc (c :: rest) =
      returns config lastc c ++ .write stop.first :: .write c :: acts config stop.text 0 c rest := by
  have matched : matchStop config stop.text 1 c = (0, [.write stop.first, .write c]) := by
    unfold matchStop
    rw [if_neg fun same => ?_, if_pos Nat.one_ne_zero]
    · rfl
    · rcases promote_eq_iff.mp same with ⟨second, known⟩
      exact plain.elim (fun other => other second) fun unknown => unknown known
  rw [acts, matched, List.append_assoc]
  rfl

/-! ## The marked input -/

theorem marked_occurrence (stop : StopString) (rest : Bytes) :
    marked stop (stop.first :: stop.second :: rest) = none :: marked stop rest := by
  rw [marked, if_pos ⟨rfl, rfl⟩]

theorem marked_plain (plain : c ≠ stop.first) (rest : Bytes) : marked stop (c :: rest) = some c :: marked stop rest := by
  cases rest with
  | nil => rfl
  | cons d rest => rw [marked, if_neg fun both => plain both.1]

theorem marked_first (other : d ≠ stop.second) (rest : Bytes) :
    marked stop (c :: d :: rest) = some c :: marked stop (d :: rest) := by
  rw [marked, if_neg fun both => other both.2]

/-! ## The translation -/

/-- The characters that are written are the translation of the input without the occurrences. -/
theorem translated_written (config : FilterConfig) (last : UInt8) (input : List (Option UInt8)) :
    (translated config last input).filter (· ≠ .suspend) = translated config last (input.filter Option.isSome) := by
  have kept (lastc c : UInt8) : (returns config lastc c).filter (· ≠ .suspend) = returns config lastc c := by
    rcases returns_cases config lastc c with none | ⟨some_, -⟩
    · rw [none]
      rfl
    · rw [some_]
      rfl
  induction input generalizing last with
  | nil => rfl
  | cons mark rest ih =>
      cases mark with
      | none => exact ih last
      | some c =>
          rw [List.filter_cons_of_pos rfl, translated, translated, List.filter_append, kept, List.filter_cons_of_pos rfl, ih]

/-- Without a stop string the filter writes the translation of its input. -/
theorem filterPgm_none (config : FilterConfig) (input : Bytes) :
    (filterPgm config none input).1 = translated config 0 (input.map some) := by
  have written (σ : FilterState) : (run config none σ input).2 = translated config σ.lastc (input.map some) := by
    induction input generalizing σ with
    | nil => exact congrArg (List.map Event.write) List.take_nil
    | cons c rest ih =>
        rw [run, List.map_cons, translated, ih]
        exact List.append_assoc _ _ _
  exact written .start

/-! ## What the two write -/

/-- A character that both write stands in the same place only if both or none put a carriage return before it. -/
theorem returns_write {x y : List Event} :
    returns config lastc c ++ .write c :: x = returns config last c ++ .write c :: y ↔
      returns config lastc c = returns config last c ∧ x = y := by
  rcases returns_cases config lastc c with none | ⟨some_, char⟩ <;>
    rcases returns_cases config last c with none' | ⟨some_', char'⟩
  · rw [none, none']
    simp
  · rw [none, some_']
    have other : c ≠ 13 := by rintro rfl; simp at char'
    simp [other]
  · rw [some_, none']
    have other : c ≠ 13 := by rintro rfl; simp at char
    simp [other.symm]
  · rw [some_, some_']
    simp

theorem returns_suspend {x y : List Event} :
    returns config lastc c ++ .suspend :: x = .suspend :: y ↔ returns config lastc c = [] ∧ x = y := by
  rcases returns_cases config lastc c with none | ⟨some_, -⟩
  · rw [none]
    simp
  · rw [some_]
    simp

/-- The first character of the stop string is marked with the second, or stands for itself. -/
theorem marked_first_cases (stop : StopString) (rest : Bytes) :
    (∃ more, marked stop (stop.first :: rest) = none :: more) ∨
      marked stop (stop.first :: rest) = some stop.first :: marked stop rest := by
  cases rest with
  | nil => exact .inr rfl
  | cons d rest =>
      by_cases second : d = stop.second
      · rw [second, marked_occurrence]
        exact .inl ⟨_, rfl⟩
      · exact .inr (marked_first second rest)

/-- What is written for an input is what is expected exactly if it is filtered well, for each of the things that may
stand before it. -/
structure Reads (config : FilterConfig) (stop : StopString) (input : Bytes) : Prop where
  clear : ∀ lastc last, acts config stop.text 0 lastc input = translated config last (marked stop input) ↔
    Filtered config stop .clear lastc last input
  held : ∀ lastc last, returns config lastc stop.first ++ acts config stop.text 1 stop.first input =
    translated config last (marked stop (stop.first :: input)) ↔ Filtered config stop .held lastc last input
  missed : ∀ lastc last, returns config lastc stop.first = returns config last stop.first →
    (returns config lastc stop.first ++ .write stop.first :: acts config stop.text 0 stop.first input =
      translated config last (marked stop (stop.first :: input)) ↔ Filtered config stop .missed lastc last input)

theorem reads_nil (config : FilterConfig) (stop : StopString) : Reads config stop [] where
  clear _ _ := iff_of_true rfl trivial
  held lastc last := by
    have cancelled : returns config lastc stop.first ++ [.write stop.first] =
        returns config last stop.first ++ [.write stop.first] ↔ _ := returns_write
    exact cancelled.trans (and_iff_left rfl)
  missed lastc last same := by
    refine iff_of_true ?_ trivial
    rw [same]
    rfl

theorem filtered_clear_cons {rest : Bytes} : Filtered config stop .clear lastc last (c :: rest) ↔
    if c = stop.first then
      if Known config c then Filtered config stop .held lastc last rest
      else returns config lastc c = returns config last c ∧ Filtered config stop .missed lastc last rest
    else returns config lastc c = returns config last c ∧ Filtered config stop .clear c c rest := Iff.rfl

/-- An input that starts with a character that is no start of the stop string, or is not known as one. -/
theorem Reads.clear_cons {rest : Bytes} (reads : Reads config stop rest) (lastc last c : UInt8) :
    acts config stop.text 0 lastc (c :: rest) = translated config last (marked stop (c :: rest)) ↔
      Filtered config stop .clear lastc last (c :: rest) := by
  unfold Filtered
  by_cases first : c = stop.first
  · rw [if_pos first, first]
    by_cases known : Known config stop.first
    · rw [if_pos known, acts_clear_first known]
      exact reads.held lastc last
    · rw [if_neg known, acts_clear (.inr known)]
      by_cases same : returns config lastc stop.first = returns config last stop.first
      · rw [and_iff_right same]
        exact reads.missed lastc last same
      · refine iff_of_false (fun equal => ?_) fun both => same both.1
        rcases marked_first_cases stop rest with ⟨more, suspends⟩ | plain
        · rw [suspends, translated] at equal
          rcases returns_cases config lastc stop.first with none | ⟨some_, -⟩
          · rw [none] at equal
            cases equal
          · rw [some_] at equal
            cases equal
        · rw [plain, translated] at equal
          exact same (returns_write.mp equal).1
  · rw [if_neg first, acts_clear (.inl first), marked_plain first, translated, returns_write, reads.clear]

/-- Behind a first character that is written, one that is not the second is read as behind any other. -/
theorem Reads.missed_cons {rest : Bytes} (reads : Reads config stop rest) (lastc last c : UInt8)
    (same : returns config lastc stop.first = returns config last stop.first) :
    returns config lastc stop.first ++ .write stop.first :: acts config stop.text 0 stop.first (c :: rest) =
      translated config last (marked stop (stop.first :: c :: rest)) ↔ Filtered config stop .missed lastc last (c :: rest) := by
  unfold Filtered
  by_cases second : c = stop.second
  · refine iff_of_false (fun equal => ?_) fun both => both.1 second
    rw [second, marked_occurrence, translated] at equal
    rcases returns_cases config lastc stop.first with none | ⟨some_, -⟩
    · rw [none] at equal
      cases equal
    · rw [some_] at equal
      cases equal
  · rw [and_iff_right second, marked_first second, translated, returns_write, and_iff_right same, reads.clear_cons,
      filtered_clear_cons]
    by_cases first : c = stop.first
    · rw [if_pos first, if_pos first, first]
      split
      · rfl
      · exact and_iff_right rfl
    · rw [if_neg first, if_neg first]
      exact and_iff_right rfl

/-- A carriage return that is written before the character held back is out of place, unless that is one too. -/
theorem held_returns {x y : List Event} {rest : Bytes} (second : c ≠ stop.second)
    (due : returns config stop.first c = [.write 13]) (other : stop.first ≠ 13)
    (expects : y = translated config stop.first (marked stop (c :: rest))) :
    returns config lastc stop.first ++ .write 13 :: .write stop.first :: .write c :: x ≠
      returns config last stop.first ++ .write stop.first :: y := by
  intro equal
  rcases returns_cases config lastc stop.first with none | ⟨some_, -⟩
  · rcases returns_cases config last stop.first with none' | ⟨some_', -⟩
    · rw [none, none'] at equal
      injection equal with head
      injection head with same
      exact other same.symm
    · rw [none, some_'] at equal
      -- behind the character held back, `c` stands against a return or a suspension
      injection equal with _ tail
      injection tail with _ tail
      have char : c ≠ 13 := by
        rintro rfl
        rcases returns_cases config stop.first 13 with absent | ⟨-, feed | form⟩
        · cases absent.symm.trans due
        · cases feed.1
        · cases form
      rw [← tail] at expects
      by_cases first : c = stop.first
      · rcases marked_first_cases stop rest with ⟨more, suspends⟩ | plain
        · rw [first, suspends] at expects
          cases expects
        · rw [first, plain, translated, ← first] at expects
          rw [← first] at due
          rw [due] at expects
          injection expects with head
          injection head with same
          exact char same
      · rw [marked_plain first, translated, due] at expects
        injection expects with head
        injection head with same
        exact char same
  · rcases returns_cases config last stop.first with none' | ⟨some_', -⟩
    · rw [some_, none'] at equal
      injection equal with head
      injection head with same
      exact other same.symm
    · rw [some_, some_'] at equal
      injection equal with head tail
      injection tail with head
      injection head with same
      exact other same.symm

/-- No carriage return stands before a carriage return. -/
theorem returns_return (config : FilterConfig) (lastc : UInt8) : returns config lastc 13 = [] := by
  rcases returns_cases config lastc 13 with none | ⟨-, feed | form⟩
  · exact none
  · cases feed.1
  · cases form

/-- Behind a first character that is held back. -/
theorem Reads.held_cons {rest : Bytes} (reads : Reads config stop rest) (lastc last c : UInt8) :
    returns config lastc stop.first ++ acts config stop.text 1 stop.first (c :: rest) =
      translated config last (marked stop (stop.first :: c :: rest)) ↔ Filtered config stop .held lastc last (c :: rest) := by
  unfold Filtered
  by_cases second : c = stop.second
  · rw [if_pos second, second, marked_occurrence, translated]
    by_cases known : Known config stop.second
    · rw [acts_held_second known, and_iff_right known]
      rcases returns_cases config lastc stop.first with none | ⟨some_, -⟩
      · rw [none, List.nil_append, returns_suspend, reads.clear]
        exact (and_iff_right rfl).symm
      · rw [some_]
        exact iff_of_false (fun equal => nomatch equal) fun both => nomatch both.1
    · rw [acts_held (.inr known)]
      refine iff_of_false (fun equal => ?_) fun both => known both.1
      rcases returns_cases config lastc stop.first with none | ⟨some_, -⟩ <;>
        rcases returns_cases config stop.first stop.second with none' | ⟨some_', -⟩
      · rw [none, none'] at equal
        cases equal
      · rw [none, some_'] at equal
        cases equal
      · rw [some_, none'] at equal
        cases equal
      · rw [some_, some_'] at equal
        cases equal
  · rw [if_neg second, acts_held (.inl second), marked_first second, translated]
    rcases returns_cases config stop.first c with none | ⟨due, char⟩
    · rw [none, List.nil_append, returns_write]
      refine and_congr_right fun _ => Iff.trans ?_ (and_iff_right (.inl rfl)).symm
      by_cases first : c = stop.first
      · subst first
        have missed := reads.missed stop.first stop.first rfl
        rw [none] at missed
        rw [if_pos rfl]
        exact missed
      · rw [if_neg first, marked_plain first, translated, none, ← reads.clear]
        exact List.cons_inj_right _
    · by_cases return_ : stop.first = 13
      · have other : c ≠ stop.first := by
          rintro rfl
          rw [return_] at char
          simp at char
        rw [return_, returns_return, returns_return, and_iff_right rfl, and_iff_right (.inr rfl), ← return_, if_neg other,
          marked_plain other, translated, due, ← reads.clear, return_]
        simp
      · rw [due]
        refine iff_of_false (held_returns second due return_ rfl) fun both => ?_
        rcases both.2.1 with none | same
        · cases none
        · exact return_ same

theorem reads (config : FilterConfig) (stop : StopString) (input : Bytes) : Reads config stop input := by
  induction input with
  | nil => exact reads_nil config stop
  | cons c rest ih => exact ⟨fun lastc last => ih.clear_cons lastc last c, fun lastc last => ih.held_cons lastc last c,
      fun lastc last same => ih.missed_cons lastc last c same⟩

/-- The filter writes the translation of its input without the stop strings, and suspends itself where they were, exactly if
the input is filtered well. -/
theorem filterPgm_iff (config : FilterConfig) (stop : StopString) (input : Bytes) :
    (filterPgm config (some stop.text) input).1 = expected config stop input ↔ Filtered config stop .clear 0 0 input := by
  rw [filterPgm, run_snd]
  exact (reads config stop input).clear 0 0

/-- The filter as it is called for an output filter. -/
def outputFilter : FilterConfig := ⟨false, false, 72, true⟩

/-- A data byte that equals the first stop character right before the stop string: the filter is not suspended. -/
theorem not_suspended : ¬ ∀ config stop input, (filterPgm config (some stop.text) input).1 = expected config stop input := by
  intro claimed
  have missed : (filterPgm outputFilter (some filterStop.text) [25, 25, 1]).1 ≠ expected outputFilter filterStop [25, 25, 1] := by
    decide
  exact missed (claimed outputFilter filterStop [25, 25, 1])

end StopFilter

end LPRng
