import LPRng.FixDollars

/-!
# How far the escapes of a filter command are read

`Fix_dollars` goes on behind each replacement, but the flags that take the place of `$*` are read once more. An
argument is read to its end and not beyond unless it ends behind a `$`, or the flags have a `$*` of their own.
-/

namespace LPRng

namespace FixDollars

/-! ## Runs -/

/-- Some turns read a text to its end, each of them from a position of the text. -/
def Setting.Inside (env : Setting) : Nat → Bytes → Nat → Prop
  | 0, _, _ => False
  | turns + 1, strv, position =>
      position ≤ strv.length ∧
        match env.turn strv position with
        | .ends _ => True
        | .outside => False
        | .goesOn _ strv position => env.Inside turns strv position

/-! ## The reading of an argument -/

/-- What has been read: text, the start of an escape up to its key, a name in braces, a backslash, or a digit that
one or two characters are read with. -/
inductive Scan where
  | plain
  | escape
  | option
  | slash
  | octal
  | lastOctal
deriving DecidableEq

namespace Scan

/-- What has been read with one more character. A `$*` is not read on. -/
def next : Scan → UInt8 → Option Scan
  | plain, c => some (if c = 36 then escape else if c = 92 then slash else plain)
  | escape, c =>
      if modifierChars.contains c then some escape
      else if c = 42 then none
      else some (if c = 123 then option else plain)
  | option, c => some (if c = 125 then plain else option)
  | slash, c => some (if isDigit c then octal else plain)
  | octal, _ => some lastOctal
  | lastOctal, _ => some plain

/-- An argument that is read to its end, with the flags in the place of each `$*`. Without flags, nothing is read
behind it. -/
def settles (flags : Option Bytes) : Scan → Bytes → Bool
  | scan, [] => scan ≠ escape
  | scan, c :: s =>
      match scan.next c with
      | some scan => settles flags scan s
      | none =>
          match flags with
          | none => true
          | some text =>
              match text.foldlM next plain with
              | none => false
              | some scan => settles flags scan s

/-- How the turn ends in which a text is read. -/
inductive Outcome where
  | ends
  | outside
  | flags (rest : Bytes)
  | goesOn (rest : Bytes)

def finish : Scan → Bytes → Outcome
  | escape, [] => .outside
  | octal, [] => .goesOn []
  | lastOctal, [] => .goesOn []
  | _, [] => .ends
  | scan, c :: s =>
      match scan.next c with
      | none => .flags s
      | some next => if scan ≠ plain ∧ next = plain then .goesOn s else finish next s

variable {flags : Option Bytes} {scan after : Scan} {s u : Bytes}

theorem settles_cons (flags : Option Bytes) (scan : Scan) (c : UInt8) (s : Bytes) :
    settles flags scan (c :: s) =
      match scan.next c with
      | some scan => settles flags scan s
      | none =>
          match flags with
          | none => true
          | some text =>
              match text.foldlM next plain with
              | none => false
              | some scan => settles flags scan s := rfl

theorem finish_cons (scan : Scan) (c : UInt8) (s : Bytes) :
    finish scan (c :: s) =
      match scan.next c with
      | none => .flags s
      | some next => if scan ≠ plain ∧ next = plain then .goesOn s else finish next s := by
  cases scan <;> rfl

theorem settles_finish (flags : Option Bytes) (scan : Scan) (s : Bytes) :
    settles flags scan s =
      match finish scan s with
      | .ends => true
      | .outside => false
      | .goesOn rest => settles flags plain rest
      | .flags rest =>
          match flags with
          | none => true
          | some text =>
              match text.foldlM next plain with
              | none => false
              | some scan => settles flags scan rest := by
  induction s generalizing scan with
  | nil => cases scan <;> rfl
  | cons c s ih =>
      rw [settles_cons, finish_cons]
      rcases step : scan.next c with - | next
      · rfl
      · dsimp only
        by_cases done : scan ≠ plain ∧ next = plain
        · rw [if_pos done, done.2]
        · rw [if_neg done]
          exact ih next

/-- Text without a `$*` of its own is read as it is in front of any other. -/
theorem settles_append (read : u.foldlM next scan = some after) : settles flags scan (u ++ s) = settles flags after s := by
  induction u generalizing scan with
  | nil =>
      rw [← Option.some.inj read]
      rfl
  | cons c u ih =>
      rw [List.foldlM_cons] at read
      rcases Option.bind_eq_some_iff.mp read with ⟨scan', step, read⟩
      rw [List.cons_append, settles_cons, step]
      exact ih read

/-- Flags with a `$*` of their own are put in without end. -/
theorem settles_repeats {text : Bytes} (repeats : text.foldlM next plain = none) (read : u.foldlM next scan = none) :
    settles (some text) scan (u ++ s) = false := by
  induction u generalizing scan with
  | nil => cases read
  | cons c u ih =>
      rw [List.cons_append, settles_cons]
      rw [List.foldlM_cons] at read
      rcases step : scan.next c with - | scan'
      · simp only [repeats]
      · rw [step] at read
        exact ih read

/-- A turn that begins in a text ends in it, or it is behind the text what it is at its end. -/
theorem finish_append (read : u.foldlM next scan = some after) :
    finish scan (u ++ s) = finish after s ∨
      ∃ v, v.length < u.length ∧ v.foldlM next plain = some after ∧ finish scan (u ++ s) = .goesOn (v ++ s) := by
  induction u generalizing scan with
  | nil =>
      rw [← Option.some.inj read]
      exact .inl rfl
  | cons c u ih =>
      rw [List.foldlM_cons] at read
      rcases Option.bind_eq_some_iff.mp read with ⟨scan', step, read⟩
      rw [List.cons_append, finish_cons, step]
      dsimp only
      split
      · next done =>
          rw [done.2] at read
          exact .inr ⟨u, Nat.lt_succ_self _, read, rfl⟩
      · rcases ih read with same | ⟨v, shorter, rest, goes⟩
        · exact .inl same
        · exact .inr ⟨v, Nat.lt_succ_of_lt shorter, rest, goes⟩

/-- What is left behind a turn is shorter than the text. -/
theorem finish_shorter {rest : Bytes} (goes : finish scan s = .goesOn rest ∨ finish scan s = .flags rest) :
    rest.length < s.length ∨ s = [] ∧ rest = [] := by
  induction s generalizing scan with
  | nil =>
      cases scan <;> rcases goes with goes | goes <;> cases goes
      · exact .inr ⟨rfl, rfl⟩
      · exact .inr ⟨rfl, rfl⟩
  | cons c s ih =>
      rw [finish_cons] at goes
      refine .inl ?_
      rw [List.length_cons]
      rcases step : scan.next c with - | scan'
      · rw [step] at goes
        rcases goes with goes | goes
        · cases goes
        · cases goes
          exact Nat.lt_succ_self _
      · rw [step] at goes
        dsimp only at goes
        split at goes
        · rcases goes with goes | goes
          · cases goes
            exact Nat.lt_succ_self _
          · cases goes
        · rcases ih goes with shorter | ⟨empty, nothing⟩
          · exact Nat.lt_succ_of_lt shorter
          · rw [nothing]
            exact Nat.succ_pos _

theorem finish_plain (free : Plain u) : finish plain (u ++ s) = finish plain s := by
  induction u with
  | nil => rfl
  | cons c u ih =>
      have dollar : c ≠ 36 := fun same => free.1 (same ▸ List.mem_cons_self)
      have slash : c ≠ 92 := fun same => free.2 (same ▸ List.mem_cons_self)
      have stays : plain.next c = some plain := by rw [next, if_neg dollar, if_neg slash]
      rw [List.cons_append, finish_cons, stays]
      exact ih ⟨fun member => free.1 (List.mem_cons_of_mem c member), fun member => free.2 (List.mem_cons_of_mem c member)⟩

theorem finish_octal (s : Bytes) : finish octal s = .goesOn (s.drop 2) := by
  rcases s with - | ⟨c, - | ⟨d, s⟩⟩
  · rfl
  · rfl
  · rfl

theorem finish_modifiers (inside : ∀ d ∈ u, modifierChars.contains d = true) : finish escape (u ++ s) = finish escape s := by
  induction u with
  | nil => rfl
  | cons c u ih =>
      have stays : escape.next c = some escape := if_pos (inside c List.mem_cons_self)
      rw [List.cons_append, finish_cons, stays]
      exact ih fun d member => inside d (List.mem_cons_of_mem c member)

theorem finish_name (inside : ∀ d ∈ u, d ≠ 125) : finish option (u ++ s) = finish option s := by
  induction u with
  | nil => rfl
  | cons c u ih =>
      have stays : option.next c = some option := by rw [next, if_neg (inside c List.mem_cons_self)]
      rw [List.cons_append, finish_cons, stays]
      exact ih fun d member => inside d (List.mem_cons_of_mem c member)

end Scan

/-! ## Turns -/

/-- A turn of the loop that ends as the text is read. Quotes may stand in front of what is still to be read. -/
inductive Scan.Outcome.Of (env : Setting) : Scan.Outcome → Turn → Prop
  | ends (strv : Bytes) : Of env .ends (.ends strv)
  | outside : Of env .outside .outside
  | goesOn (before : List Bytes) (strv rest : Bytes) : Of env (.goesOn rest) (.goesOn before (strv ++ rest) strv.length)
  | quoted (before : List Bytes) (strv rest : Bytes) :
      Of env (.goesOn rest) (.goesOn before (strv ++ 39 :: rest) strv.length)
  | flags (strv text rest : Bytes) (given : env.flags.filter (· ≠ []) = some text) :
      Of env (.flags rest) (.goesOn [] (strv ++ (text ++ rest)) strv.length)
  | absent (strv rest : Bytes) (none_given : env.flags.filter (· ≠ []) = none) :
      Of env (.flags rest) (.goesOn [] (strv ++ []) strv.length)

section

open Scan (finish)

variable {env : Setting} {strv rest s : Bytes}

theorem of_goesOn {before : List Bytes} {out : Bytes} {position : Nat} (front : Bytes) (text : out = front ++ rest)
    (length : position = front.length) : Scan.Outcome.Of env (.goesOn rest) (.goesOn before out position) := by
  rw [text, length]
  exact .goesOn before front rest

theorem of_substitute (c : UInt8) (str : Option Bytes) (space notag quote : Bool) :
    Scan.Outcome.Of env (.goesOn rest) (env.substitute strv c str space notag quote rest) := by
  unfold Setting.substitute
  split
  · exact .goesOn [] strv rest
  · next value given =>
      dsimp only
      generalize (if notag then ([] : Bytes) else _ ++ [45, c]) = tag
      split
      · split
        · have quoted : Scan.Outcome.Of env (.goesOn rest)
              (.goesOn [] (strv ++ tag ++ lit " '" ++ value ++ 39 :: rest) (strv ++ tag ++ lit " '" ++ value).length) :=
            .quoted [] _ rest
          have length : (strv ++ tag ++ lit " '" ++ value).length = (strv ++ tag).length + value.length + 2 := by
            have two : (lit " '").length = 2 := rfl
            rw [List.length_append, List.length_append, two]
            omega
          have text : strv ++ tag ++ lit " '" ++ value ++ lit "'" ++ rest = strv ++ tag ++ lit " '" ++ value ++ 39 :: rest := by
            have one : lit "'" = [39] := rfl
            rw [one, List.append_assoc _ [39] rest]
            rfl
          rw [length] at quoted
          rw [text]
          exact quoted
        · exact .goesOn _ value rest
      · refine of_goesOn _ rfl ?_
        simp only [List.length_append]

theorem turn_slash (s : Bytes) : env.turn (strv ++ 92 :: s) strv.length = backslash strv s := by
  have behind : (strv ++ 92 :: s).drop strv.length = 92 :: s := List.drop_left
  have none_ahead : (92 :: s).takeWhile (!(lit "$\\").contains ·) = [] := List.takeWhile_cons_of_neg (by decide)
  rw [Setting.turn, behind, none_ahead, List.length_nil, Nat.add_zero]
  simp only [behind]
  rw [List.take_left]
  rfl

theorem of_backslash (s : Bytes) : Scan.Outcome.Of env (finish .slash s) (backslash strv s) := by
  rcases s with - | ⟨c, s⟩
  · exact .ends strv
  · have front : ∀ (d : UInt8) (rest : Bytes), Scan.Outcome.Of env (.goesOn rest)
        (.goesOn [] (strv ++ d :: rest) (strv.length + 1)) := by
      intro d rest
      refine of_goesOn (strv ++ [d]) ?_ ?_
      · rw [List.append_assoc]
        rfl
      · rw [List.length_append]
        rfl
    have digits : (lit "rnt").all (!isDigit ·) = true := rfl
    rw [Scan.finish_cons, backslash]
    by_cases digit : isDigit c = true
    · have letter : (lit "rnt").contains c = false := by
        refine Bool.eq_false_iff.mpr fun member => ?_
        have none_ := List.all_eq_true.mp digits c (List.contains_iff_mem.mp member)
        rw [digit] at none_
        cases none_
      have step : Scan.slash.next c = some .octal := by rw [Scan.next, if_pos digit]
      simp only [step, letter, digit, if_true, Bool.false_eq_true, if_false]
      rw [if_neg (by decide), Scan.finish_octal]
      exact front _ _
    · have step : Scan.slash.next c = some .plain := by rw [Scan.next, if_neg digit]
      simp only [step, digit, Bool.false_eq_true, if_false]
      rw [if_pos (by decide)]
      split
      · exact front _ _
      · exact front _ _

theorem of_dollar (s : Bytes) : Scan.Outcome.Of env (finish .escape s) (env.dollar strv s) := by
  rcases exists_front modifierChars.contains s with ⟨u, t, rfl, front, inside, rfl | ⟨c, rest, rfl, stop⟩⟩
  · rw [Scan.finish_modifiers inside, Setting.dollar, front, List.drop_left]
    exact .outside
  · have step : Scan.escape.next c = if c = 42 then none else some (if c = 123 then .option else .plain) := by
      rw [Scan.next, if_neg (Bool.eq_false_iff.mp stop)]
    rw [Scan.finish_modifiers inside, Scan.finish_cons, step, Setting.dollar, front, List.drop_left]
    dsimp only
    by_cases star : c = 42
    · rw [if_pos star, if_pos star]
      rcases given : env.flags.filter (· ≠ []) with - | text
      · have absent : Scan.Outcome.Of env (.flags rest) (.goesOn [] (strv ++ []) strv.length) := .absent strv rest given
        rwa [List.append_nil] at absent
      · have flags : Scan.Outcome.Of env (.flags rest) (.goesOn [] (strv ++ (text ++ rest)) strv.length) :=
          .flags strv text rest given
        rwa [← List.append_assoc] at flags
    · rw [if_neg star, if_neg star]
      by_cases brace : c = 123
      · rw [if_pos brace, if_pos brace]
        rcases exists_front (· ≠ 125) rest with ⟨name, t, rfl, whole, inName, rfl | ⟨c, rest, rfl, close⟩⟩
        · rw [whole, List.drop_left]
          have open_ : finish .option (name ++ []) = .ends := by
            rw [Scan.finish_name fun d member => of_decide_eq_true (inName d member)]
            rfl
          show Scan.Outcome.Of env (finish .option (name ++ [])) (.ends strv)
          rw [open_]
          exact .ends strv
        · have closed : finish .option (name ++ c :: rest) = .goesOn rest := by
            have same : c = 125 := by simpa using close
            rw [Scan.finish_name fun d member => of_decide_eq_true (inName d member), same]
            rfl
          rw [whole, List.drop_left]
          show Scan.Outcome.Of env (finish .option (name ++ c :: rest)) _
          rw [closed]
          exact of_substitute ..
      · rw [if_neg brace, if_neg brace]
        show Scan.Outcome.Of env (.goesOn rest) _
        split
        · exact of_substitute ..
        · exact of_substitute ..

theorem of_turn (s : Bytes) : Scan.Outcome.Of env (finish .plain s) (env.turn (strv ++ s) strv.length) := by
  rcases exists_front (!(lit "$\\").contains ·) s with ⟨u, t, rfl, -, inside, t_cases⟩
  have free : Plain u := by
    refine ⟨fun member => ?_, fun member => ?_⟩
    · exact absurd (inside 36 member) (by decide)
    · exact absurd (inside 92 member) (by decide)
  rw [Scan.finish_plain free, turn_skip free, ← List.append_assoc]
  rcases t_cases with rfl | ⟨c, rest, rfl, stop⟩
  · have behind : (strv ++ u ++ []).drop (strv ++ u).length = [] := List.drop_left
    rw [Setting.turn, behind]
    simp only [List.takeWhile_nil, List.length_nil, Nat.add_zero, behind]
    exact .ends _
  · have special : c = 36 ∨ c = 92 := by
      have found : (lit "$\\").contains c = true := by simpa using stop
      rcases List.mem_cons.mp (List.contains_iff_mem.mp found) with dollar | slash
      · exact .inl dollar
      · exact .inr (List.mem_singleton.mp slash)
    rcases special with rfl | rfl
    · rw [turn_dollar]
      exact of_dollar rest
    · rw [turn_slash]
      exact of_backslash rest

/-! ## Runs that end inside -/

/-- A run that ends inside the text has read it to its end. -/
theorem settles_of_inside {turns : Nat} {position : Nat} (run : env.Inside turns strv position) :
    Scan.settles (env.flags.filter (· ≠ [])) .plain (strv.drop position) = true := by
  induction turns generalizing strv position with
  | zero => exact run.elim
  | succ turns ih =>
      rcases run with ⟨within, run⟩
      have shape : strv.take position ++ strv.drop position = strv := List.take_append_drop position strv
      have length : (strv.take position).length = position := List.length_take_of_le within
      have turn : Scan.Outcome.Of env (finish .plain (strv.drop position))
          (env.turn (strv.take position ++ strv.drop position) (strv.take position).length) := of_turn _
      rw [shape, length] at turn
      rw [Scan.settles_finish]
      generalize finish .plain (strv.drop position) = outcome at turn ⊢
      generalize env.turn strv position = t at turn run
      cases turn with
      | ends strv => rfl
      | outside => exact run.elim
      | goesOn before strv rest =>
          have later := ih run
          rwa [List.drop_left] at later
      | quoted before strv rest =>
          have later := ih run
          rwa [List.drop_left] at later
      | flags strv text rest given =>
          have later := ih run
          rw [List.drop_left, given] at later
          rw [given]
          rcases read : text.foldlM Scan.next .plain with - | after
          · rw [Scan.settles_repeats read read] at later
            cases later
          · rw [Scan.settles_append read] at later
            simp only [read]
            exact later
      | absent strv rest none_given => rw [none_given]

/-- From every place where this text is still to be read, some turns end inside. -/
def Ends (env : Setting) (s : Bytes) : Prop := ∀ strv, ∃ turns, env.Inside turns (strv ++ s) strv.length

theorem Ends.quoted {s : Bytes} (ends : Ends env s) : Ends env (39 :: s) := by
  intro strv
  rcases ends (strv ++ [39]) with ⟨turns, run⟩
  cases turns with
  | zero => exact run.elim
  | succ turns =>
      refine ⟨turns + 1, ?_, ?_⟩
      · rw [List.length_append]
        exact Nat.le_add_right ..
      · have quote : Plain [39] := ⟨by decide, by decide⟩
        have skip : env.turn (strv ++ ([39] ++ s)) strv.length = env.turn (strv ++ ([39] ++ s)) (strv ++ [39]).length :=
          turn_skip quote
        have shape : strv ++ ([39] ++ s) = strv ++ [39] ++ s := (List.append_assoc ..).symm
        have later := run.2
        rw [← shape, ← skip] at later
        exact later

/-- A text is read to its end if what is left behind the first turn is. -/
theorem ends_of_finish {s : Bytes} {outcome : Scan.Outcome} (turn : finish .plain s = outcome)
    (inside : outcome ≠ .outside) (goesOn : ∀ rest, outcome = .goesOn rest → Ends env rest)
    (flags : ∀ rest text, outcome = .flags rest → env.flags.filter (· ≠ []) = some text → Ends env (text ++ rest))
    (nothing : Ends env []) : Ends env s := by
  intro strv
  have within : strv.length ≤ (strv ++ s).length := by
    rw [List.length_append]
    exact Nat.le_add_right ..
  have later : ∀ {before : List Bytes} {out rest : Bytes}, env.turn (strv ++ s) strv.length =
      .goesOn before (out ++ rest) out.length → Ends env rest → ∃ turns, env.Inside turns (strv ++ s) strv.length := by
    intro before out rest goes more
    rcases more out with ⟨turns, run⟩
    refine ⟨turns + 1, within, ?_⟩
    rw [goes]
    exact run
  have found : Scan.Outcome.Of env (finish .plain s) (env.turn (strv ++ s) strv.length) := of_turn s
  rw [turn] at found
  generalize same : env.turn (strv ++ s) strv.length = t at found
  cases found with
  | ends out =>
      refine ⟨1, within, ?_⟩
      rw [same]
      trivial
  | outside => exact absurd rfl inside
  | goesOn before out rest => exact later same (goesOn rest rfl)
  | quoted before out rest => exact later same (goesOn rest rfl).quoted
  | flags out text rest given => exact later same (flags rest text rfl given)
  | absent out rest none_given => exact later same nothing

theorem ends_nil : Ends env [] := by
  intro strv
  have found : Scan.Outcome.Of env (finish .plain []) (env.turn (strv ++ []) strv.length) := of_turn []
  generalize same : env.turn (strv ++ []) strv.length = t at found
  cases found with
  | ends out =>
      refine ⟨1, ?_, ?_⟩
      · rw [List.append_nil]
      · rw [same]
        trivial

/-- A text that is read to its end is read by some turns, behind flags as well. The induction is on the text, and
within it on what is left of the flags. -/
theorem ends_of_settles {s u : Bytes} {scan : Scan} (read : u.foldlM Scan.next .plain = some scan)
    (settles : Scan.settles (env.flags.filter (· ≠ [])) scan s = true) : Ends env (u ++ s) := by
  induction n : s.length using Nat.strong_induction_on generalizing s u scan with
  | _ n behind =>
  induction m : u.length using Nat.strong_induction_on generalizing u with
  | _ m within =>
  rcases Scan.finish_append (s := s) read with same | ⟨v, shorter, rest, goes⟩
  · rw [Scan.settles_finish] at settles
    refine ends_of_finish same (fun outside => ?_) (fun rest goes => ?_) (fun rest text goes given => ?_) ends_nil
    · rw [outside] at settles
      cases settles
    · rw [goes] at settles
      rcases Scan.finish_shorter (.inl goes) with shorter | ⟨-, nothing⟩
      · have start : ([] : Bytes).foldlM Scan.next .plain = some .plain := rfl
        exact behind rest.length (n ▸ shorter) start settles rfl
      · rw [nothing]
        exact ends_nil
    · rw [goes, given] at settles
      rcases plain : text.foldlM Scan.next .plain with - | after
      · simp only [plain] at settles
        cases settles
      · simp only [plain] at settles
        rw [← given] at settles
        rcases Scan.finish_shorter (.inr goes) with shorter | ⟨empty, -⟩
        · exact behind rest.length (n ▸ shorter) plain settles rfl
        · rw [empty] at goes
          cases scan <;> cases goes
  · refine ends_of_finish goes nofun (fun more same => ?_) (fun _ _ => nofun) ends_nil
    cases same
    exact within v.length (m ▸ shorter) rest rfl

/-- An argument is read to its end and only inside, exactly when it does not end behind a `$`, with the flags in the
place of each `$*`, and no flags are put in that have a `$*` of their own. -/
theorem inside_iff (env : Setting) (line : Bytes) :
    (∃ turns, env.Inside turns line 0) ↔ Scan.settles (env.flags.filter (· ≠ [])) .plain line = true := by
  constructor
  · intro ⟨turns, run⟩
    exact settles_of_inside run
  · intro settles
    have start : ([] : Bytes).foldlM Scan.next .plain = some .plain := rfl
    exact ends_of_settles start settles []

/-! ## Commands -/

theorem Inside.succ {turns position : Nat} (run : env.Inside turns strv position) :
    env.Inside (turns + 1) strv position := by
  induction turns generalizing strv position with
  | zero => exact run.elim
  | succ turns ih =>
      rcases run with ⟨within, run⟩
      refine ⟨within, ?_⟩
      generalize env.turn strv position = t at run ⊢
      cases t with
      | ends out => exact run
      | outside => exact run
      | goesOn before out position => exact ih run

theorem Inside.mono {turns more position : Nat} (enough : turns ≤ more) (run : env.Inside turns strv position) :
    env.Inside more strv position := by
  induction enough with
  | refl => exact run
  | step _ ih => exact Inside.succ ih

theorem fixLine_of_inside {turns position : Nat} (run : env.Inside turns strv position) :
    ∃ entries, env.fixLine turns strv position = some entries := by
  induction turns generalizing strv position with
  | zero => exact run.elim
  | succ turns ih =>
      rcases run with ⟨-, run⟩
      rw [Setting.fixLine]
      generalize env.turn strv position = t at run ⊢
      cases t with
      | ends out => exact ⟨[out], rfl⟩
      | outside => exact run.elim
      | goesOn before out position =>
          rcases ih run with ⟨entries, found⟩
          exact ⟨before ++ entries, by simp only [found, Option.map_some]⟩

/-- The turns that are enough for each argument are enough for all. -/
theorem exists_turns {l : LineList} (each : ∀ line ∈ l, ∃ turns, env.Inside turns line 0) :
    ∃ turns out, (∀ line ∈ l, env.Inside turns line 0) ∧ l.mapM (env.fixLine turns · 0) = some out := by
  induction l with
  | nil => exact ⟨0, [], fun _ => nofun, rfl⟩
  | cons line l ih =>
      rcases List.forall_mem_cons.mp each with ⟨⟨first, run⟩, others⟩
      rcases ih others with ⟨more, out, runs, found⟩
      have one := Inside.mono (Nat.le_max_left first more) run
      rcases fixLine_of_inside one with ⟨entries, here⟩
      refine ⟨max first more, entries :: out, List.forall_mem_cons.mpr ⟨one, fun line member => ?_⟩, ?_⟩
      · exact Inside.mono (Nat.le_max_right first more) (runs line member)
      · rw [List.mapM_cons, here]
        show (l.mapM (env.fixLine (max first more) · 0)).bind _ = _
        rw [mapM_mono (Nat.le_max_right first more) found]
        rfl

/-- A command is expanded and its arguments are read only inside, exactly when no argument ends behind a `$`, with
the flags in the place of each `$*`, and no flags are put in that have a `$*` of their own. -/
theorem fixDollars_inside_iff (env : Setting) (l : LineList) :
    (∃ turns out, (∀ line ∈ l, env.Inside turns line 0) ∧ env.fixDollars turns l = some out) ↔
      ∀ line ∈ l, Scan.settles (env.flags.filter (· ≠ [])) .plain line = true := by
  constructor
  · intro ⟨turns, out, run, _⟩ line member
    exact (inside_iff env line).mp ⟨turns, run line member⟩
  · intro settles
    rcases exists_turns fun line member => (inside_iff env line).mpr (settles line member) with ⟨turns, out, run, found⟩
    exact ⟨turns, _, run, by rw [Setting.fixDollars, found, Option.map_some]⟩

/-- Behind a `$` at the end the text is read on, and flags with a `$*` are put in again and again. -/
theorem dollar_unsettled :
    (¬∃ turns out, (∀ line ∈ [lit "$"], (oneJob none).Inside turns line 0) ∧
        (oneJob none).fixDollars turns [lit "$"] = some out) ∧
      ¬∃ turns out, (∀ line ∈ [lit "$*"], (oneJob (some (lit "-x $*"))).Inside turns line 0) ∧
        (oneJob (some (lit "-x $*"))).fixDollars turns [lit "$*"] = some out := by
  refine ⟨fun asked => ?_, fun asked => ?_⟩
  · rcases asked with ⟨turns, -, run, -⟩
    exact nomatch (inside_iff _ _).mp ⟨turns, run (lit "$") (List.mem_singleton.mpr rfl)⟩
  · rcases asked with ⟨turns, -, run, -⟩
    exact nomatch (inside_iff _ _).mp ⟨turns, run (lit "$*") (List.mem_singleton.mpr rfl)⟩

end

end FixDollars

end LPRng
