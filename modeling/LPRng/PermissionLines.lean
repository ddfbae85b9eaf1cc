import LPRng.PermissionBlanks

/-!
# What a permission line comes to

`Perms_check` carries its state from token to token and from line to line. What it comes to is
stated here for lines of any bytes: the tests of a line, each with or without a `NOT` before it, the
action it names and the default it sets. The first line without a test that fails decides, if there is
something to answer.
-/

namespace LPRng

namespace Permission

/-! ## The tokens of a line -/

/-- The tokens of a line that are no `NOT`, and whether one stands before them. Only what has no
pieces at all may stand between. -/
def lineTests : Bool → List Bytes → List (Bool × Bytes)
  | _, [] => []
  | negated, value :: rest =>
      if pieces permSep value = [] then lineTests negated rest
      else if tokenKey value = some .not then lineTests true rest
      else (negated, value) :: lineTests false rest

/-- The action a token names. -/
def tokenAction (value : Bytes) : Option PermKey :=
  match tokenKey value with
  | some .accept => some .accept
  | some .reject => some .reject
  | _ => none

/-- The action of a line is that of its last action token. -/
def lineAction (line : Bytes) : Option PermKey :=
  ((pieces whitespace line).filterMap tokenAction).getLast?

section

variable (db : Databases) (job : JobLists) (jobCheck : Bool) (check : PermCheck)

/-- Whether the search leaves the line at a token. -/
def tokenMisses (negated : Bool) (value : Bytes) : Bool :=
  match tokenKey value with
  | some (.test key) => (test db check job jobCheck key (pieces permSep value).tail negated).1
  | some .accept | some .reject => false
  | _ => true

def lineMisses (line : Bytes) : Bool :=
  (lineTests false (pieces whitespace line)).any fun token => tokenMisses db job jobCheck check token.1 token.2

end

/-- The answer to lines of which some fail: that of the first other line that has one. -/
def decideLines (misses : Bytes → Bool) : Option PermKey → List Bytes → Option PermKey
  | last, [] => last
  | last, line :: lines =>
      let last := (givenDefault line).or last
      if pieces whitespace line = [] || misses line then decideLines misses last lines
      else ((lineAction line).or last).or (decideLines misses last lines)

/-! ## Steps -/

section

variable {db : Databases} {job : JobLists} {jobCheck : Bool} {check check' : PermCheck} {st : Scan}
  {values : List Bytes} {value line : Bytes} {last : Option PermKey}

theorem tokenMisses_lower (same : check.lower = check'.lower) (negated : Bool) (value : Bytes) :
    tokenMisses db job jobCheck check negated value = tokenMisses db job jobCheck check' negated value := by
  unfold tokenMisses
  split
  · rw [← test_lower check, same, test_lower]
  · rfl
  · rfl
  · rfl

theorem lineMisses_lower (same : check.lower = check'.lower) (line : Bytes) :
    lineMisses db job jobCheck check line = lineMisses db job jobCheck check' line := by
  unfold lineMisses
  exact congrArg (List.any _) (funext fun token => tokenMisses_lower same token.1 token.2)

/-- A token without pieces changes nothing, and a `NOT` is kept for the next one. -/
theorem scanValue_blank (blank : pieces permSep value = []) :
    scanValue db job jobCheck values st value = st := by
  unfold scanValue
  rw [split_pieces, blank]

theorem scanValue_negation (negation : tokenKey value = some .not) :
    scanValue db job jobCheck values st value = { st with invert := 1 } := by
  unfold tokenKey at negation
  unfold scanValue
  rw [split_pieces]
  cases parts : pieces permSep value with
  | nil =>
      rw [parts] at negation
      cases negation
  | cons word args =>
      rw [parts] at negation
      have key : permVal word = some .not := negation
      dsimp only
      rw [key]

/-- What any other token leaves. -/
structure Scan.Takes (st st' : Scan) (missed : Bool) (action : Option PermKey) : Prop where
  m : st'.m = missed
  settled : st'.invert ≤ 0
  result : missed = false → st'.result = action.or st.result
  check : st'.check.lower = st.check.lower

theorem scanValue_takes (given : pieces permSep value ≠ []) (other : tokenKey value ≠ some .not) :
    st.Takes (scanValue db job jobCheck values st value)
      (tokenMisses db job jobCheck st.check (decide (st.invert > 0)) value) (tokenAction value) := by
  obtain ⟨word, args, parts⟩ := List.exists_cons_of_ne_nil given
  have settled : (if st.invert > 0 then -1 else 0 : Int) ≤ 0 := by split <;> decide
  have inverts : decide ((if st.invert > 0 then -1 else 0 : Int) ≠ 0) = decide (st.invert > 0) := by
    split <;> simp_all
  have key : tokenKey value = permVal word := by rw [tokenKey, parts]; rfl
  rw [key] at other
  unfold scanValue tokenMisses tokenAction
  rw [split_pieces, key, parts]
  cases found : permVal word with
  | none =>
      simp only [found]
      exact ⟨rfl, settled, nofun, rfl⟩
  | some kind =>
      cases kind with
      | accept =>
          simp only [found]
          exact ⟨rfl, settled, fun _ => rfl, rfl⟩
      | reject =>
          simp only [found]
          exact ⟨rfl, settled, fun _ => rfl, rfl⟩
      | not => exact absurd found other
      | default =>
          simp only [found]
          exact ⟨rfl, settled, nofun, rfl⟩
      | test key =>
          simp only [found, inverts]
          exact ⟨rfl, settled, fun _ => rfl, lower_test st.check key args _⟩

/-- The loop over the tokens of a line, whichever tests it reaches. -/
theorem scanValues_takes (passed : st.m = false) (parts : List Bytes) :
    (scanValues db job jobCheck values st parts).m =
        ((lineTests (decide (st.invert > 0)) parts).any fun token =>
          tokenMisses db job jobCheck st.check token.1 token.2) ∧
      ((scanValues db job jobCheck values st parts).m = false →
        (scanValues db job jobCheck values st parts).result =
          ((parts.filterMap tokenAction).getLast?).or st.result) ∧
      (scanValues db job jobCheck values st parts).check.lower = st.check.lower := by
  induction parts generalizing st with
  | nil => exact ⟨passed, fun _ => rfl, rfl⟩
  | cons value parts ih =>
      rw [scanValues_cons passed, lineTests]
      by_cases blank : pieces permSep value = []
      · have none : tokenAction value = none := by
          rw [tokenAction, tokenKey, blank]
          rfl
        rw [scanValue_blank blank, if_pos blank, List.filterMap_cons, none]
        exact ih passed
      · rw [if_neg blank]
        by_cases negation : tokenKey value = some .not
        · have none : tokenAction value = none := by rw [tokenAction, negation]
          rw [scanValue_negation negation, if_pos negation, List.filterMap_cons, none]
          have kept : Scan.m { st with invert := 1 } = false := passed
          exact ih kept
        · rw [if_neg negation, List.any_cons]
          have step : st.Takes (scanValue db job jobCheck values st value)
              (tokenMisses db job jobCheck st.check (decide (st.invert > 0)) value) (tokenAction value) :=
            scanValue_takes blank negation
          cases missed : tokenMisses db job jobCheck st.check (decide (st.invert > 0)) value with
          | true =>
              have failed := step.m.trans missed
              rw [scanValues_of_m failed, Bool.true_or]
              exact ⟨failed, fun kept => absurd (failed.symm.trans kept) (by decide), step.check⟩
          | false =>
              have on := step.m.trans missed
              obtain ⟨m, result, same⟩ := ih on
              have settled : decide ((scanValue db job jobCheck values st value).invert > 0) = false :=
                decide_eq_false (not_lt.mpr step.settled)
              rw [settled] at m
              refine ⟨?_, fun kept => ?_, same.trans step.check⟩
              · rw [m, Bool.false_or]
                exact congrArg (List.any _) (funext fun token => tokenMisses_lower step.check token.1 token.2)
              · rw [result kept, step.result missed, List.filterMap_cons]
                cases tokenAction value with
                | none => rfl
                | some action =>
                    dsimp only
                    rw [List.getLast?_cons]
                    cases (parts.filterMap tokenAction).getLast? <;> rfl

/-! ## Lines -/

theorem behindLine_misses (line : Bytes) :
    (behindLine db job jobCheck last check line).m = lineMisses db job jobCheck check line :=
  (scanValues_takes rfl (pieces whitespace line)).1

theorem behindLine_result (kept : lineMisses db job jobCheck check line = false) :
    (behindLine db job jobCheck last check line).result = lineAction line :=
  ((scanValues_takes rfl (pieces whitespace line)).2.1 ((behindLine_misses line).trans kept)).trans Option.or_none

theorem behindLine_check (line : Bytes) :
    (behindLine db job jobCheck last check line).check.lower = check.lower :=
  (scanValues_takes rfl (pieces whitespace line)).2.2

theorem scanLines_eq_decideLines (last : Option PermKey) (same : check.lower = check'.lower) (lines : List Bytes) :
    scanLines db job jobCheck last check lines = decideLines (lineMisses db job jobCheck check') last lines := by
  induction lines generalizing last check with
  | nil => rfl
  | cons line lines ih =>
      rw [decideLines]
      by_cases empty : pieces whitespace line = []
      · have none : givenDefault line = none := by rw [givenDefault, empty]
        rw [scanLines, split_pieces, if_pos empty, none, if_pos (by rw [empty]; rfl)]
        exact ih last same
      · rw [scanLines_cons empty]
        dsimp only
        rw [behindLine_default, behindLine_misses, lineMisses_lower same]
        have kept : (behindLine db job jobCheck last check line).check.lower = check.lower := behindLine_check line
        have rest := ih ((givenDefault line).or last) (kept.trans same)
        cases missed : lineMisses db job jobCheck check' line with
        | true =>
            rw [if_pos rfl, if_pos (by simp)]
            exact rest
        | false =>
            rw [if_neg (by simp), if_neg (by simp [empty]), behindLine_result ((lineMisses_lower same line).trans missed)]
            cases (lineAction line).or ((givenDefault line).or last) with
            | none => exact rest
            | some result => rfl

/-- The first line without a test that fails decides. -/
theorem permsCheck_eq_decideLines (defaultPermission : Bytes) (perms : List Bytes) (check : PermCheck) :
    permsCheck db job jobCheck defaultPermission perms check =
      decideLines (lineMisses db job jobCheck check) (permVal defaultPermission) perms :=
  scanLines_eq_decideLines _ rfl perms

end

end Permission

end LPRng
