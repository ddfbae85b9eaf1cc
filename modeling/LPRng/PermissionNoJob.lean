import LPRng.PermissionLines

/-!
# Checks without a job

Connections and queues are checked with a job pointer of 0. Most tests have no use for the job, and some
of those that have are left out unless the flag for job checks is set. The others look into the job
that is not there. This is where the check ends in a fault, and the rules decide whether it gets there.
-/

namespace LPRng

namespace Permission

/-! ## What looks into the job -/

/-- The tests that look into the job. A control line test does so at the first letter. -/
def looksIntoJob (check : PermCheck) (jobCheck : Bool) (key : TestKey) (args : List Bytes) : Bool :=
  match key with
  | .controlline => jobCheck && args.any fun arg => isUpper (arg.headD 0)
  | .authsameuser => jobCheck && (lit "QMC").contains check.service
  | .authjob => (lit "QMC").contains check.service
  | _ => false

def tokenLooks (check : PermCheck) (jobCheck : Bool) (value : Bytes) : Bool :=
  match tokenKey value with
  | some (.test key) => looksIntoJob check jobCheck key (pieces permSep value).tail
  | _ => false

/-- What stands for a job where none is looked at. -/
def noJob : JobLists := ⟨[], []⟩

theorem test_of_not_looksIntoJob {db : Databases} {check : PermCheck} {jobCheck : Bool} {key : TestKey} {args : List Bytes}
    (blind : looksIntoJob check jobCheck key args = false) (job job' : JobLists) (invert : Bool) :
    test db check job jobCheck key args invert = test db check job' jobCheck key args invert := by
  cases key with
  | controlline =>
      dsimp only [test]
      cases jobCheck with
      | false => rfl
      | true =>
          have unlettered : args.any (fun arg => isUpper (arg.headD 0)) = false := blind
          have letterless : ∀ job : JobLists, args.all (controllineMisses db job) = true := by
            intro job
            rw [List.all_eq_true]
            intro arg member
            have small := List.any_eq_false.mp unlettered arg member
            cases arg with
            | nil => rfl
            | cons c t => exact if_neg small
          rw [letterless job, letterless job']
  | authsameuser =>
      dsimp only [test, whenService]
      cases jobCheck with
      | false => rfl
      | true =>
          have other : (lit "QMC").contains check.service = false := blind
          rw [other]
          rfl
  | authjob =>
      have other : (lit "QMC").contains check.service = false := blind
      dsimp only [test, whenService]
      rw [other]
      rfl
  | _ => rfl

/-! ## The check -/

section Check

variable (db : Databases) (job : Option JobLists) (jobCheck : Bool)

/-- One token. There is no result if it looks into a job that is not there. -/
def scanValueOf (values : List Bytes) (st : Scan) (value : Bytes) : Option Scan :=
  match job with
  | some job => some (scanValue db job jobCheck values st value)
  | none => if tokenLooks st.check jobCheck value then none else some (scanValue db noJob jobCheck values st value)

def scanValuesOf (values : List Bytes) (st : Scan) : List Bytes → Option Scan
  | [] => some st
  | value :: rest =>
      if st.m then some st
      else (scanValueOf db job jobCheck values st value).bind fun st => scanValuesOf values st rest

def scanLinesOf (lastDefaultPerm : Option PermKey) (check : PermCheck) : List Bytes → Option (Option PermKey)
  | [] => some lastDefaultPerm
  | line :: lines =>
      let values := split [] line whitespace false [] false false false
      if values = [] then scanLinesOf lastDefaultPerm check lines
      else (scanValuesOf db job jobCheck values ⟨false, 0, none, lastDefaultPerm, check⟩ values).bind fun st =>
        match if st.m then none else st.result.or st.lastDefaultPerm with
        | some result => some (some result)
        | none => scanLinesOf st.lastDefaultPerm st.check lines

/-- `Perms_check` with a job pointer. -/
def permsCheckOf (defaultPermission : Bytes) (perms : List Bytes) (check : PermCheck) : Option (Option PermKey) :=
  scanLinesOf db job jobCheck (permVal defaultPermission) check perms

end Check

/-! ## Where the check gets to -/

section

variable (db : Databases) (jobCheck : Bool) (check : PermCheck)

/-- The tests of a line up to the first that fails. -/
def reachedTests : List (Bool × Bytes) → List (Bool × Bytes)
  | [] => []
  | token :: tokens =>
      if tokenMisses db noJob jobCheck check token.1 token.2 then [token] else token :: reachedTests tokens

/-- The lines up to the first that decides. -/
def reachedLines (last : Option PermKey) : List Bytes → List Bytes
  | [] => []
  | line :: lines =>
      let last := (givenDefault line).or last
      if pieces whitespace line = [] || lineMisses db noJob jobCheck check line || (lineAction line).or last = none then
        line :: reachedLines last lines
      else [line]

/-- Whether a test of the line that is reached looks into the job. -/
def lineLooks (line : Bytes) : Bool :=
  (reachedTests db jobCheck check (lineTests false (pieces whitespace line))).any fun token =>
    tokenLooks check jobCheck token.2

end

section

variable {db : Databases} {jobCheck : Bool} {check check' : PermCheck} {st : Scan} {values : List Bytes} {line : Bytes}

theorem tokenLooks_lower (same : check.lower = check'.lower) (value : Bytes) :
    tokenLooks check jobCheck value = tokenLooks check' jobCheck value := by
  have kept : check.lower.service = check'.lower.service := congrArg PermCheck.service same
  have service : check.service = check'.service := kept
  unfold tokenLooks looksIntoJob
  rw [service]

theorem reachedTests_lower (same : check.lower = check'.lower) (tokens : List (Bool × Bytes)) :
    reachedTests db jobCheck check tokens = reachedTests db jobCheck check' tokens := by
  induction tokens with
  | nil => rfl
  | cons token tokens ih => rw [reachedTests, reachedTests, tokenMisses_lower same, ih]

theorem lineLooks_lower (same : check.lower = check'.lower) (line : Bytes) :
    lineLooks db jobCheck check line = lineLooks db jobCheck check' line := by
  unfold lineLooks
  rw [reachedTests_lower same]
  exact congrArg (List.any _) (funext fun token => tokenLooks_lower same token.2)

/-- The loop over the tokens of a line. -/
theorem scanValuesOf_none (passed : st.m = false) (parts : List Bytes) :
    scanValuesOf db none jobCheck values st parts =
      if (reachedTests db jobCheck st.check (lineTests (decide (st.invert > 0)) parts)).any (fun token =>
        tokenLooks st.check jobCheck token.2) then none
      else some (scanValues db noJob jobCheck values st parts) := by
  induction parts generalizing st with
  | nil => rfl
  | cons value parts ih =>
      rw [scanValuesOf, if_neg (by rw [passed]; decide), scanValueOf, scanValues_cons passed, lineTests]
      by_cases blank : pieces permSep value = []
      · have unlooked : tokenLooks st.check jobCheck value = false := by
          rw [tokenLooks, tokenKey, blank]
          rfl
        rw [if_neg (by rw [unlooked]; decide), scanValue_blank blank, if_pos blank]
        exact ih passed
      · rw [if_neg blank]
        by_cases negation : tokenKey value = some .not
        · have unlooked : tokenLooks st.check jobCheck value = false := by rw [tokenLooks, negation]
          rw [if_neg (by rw [unlooked]; decide), scanValue_negation negation, if_pos negation]
          have kept : Scan.m { st with invert := 1 } = false := passed
          exact ih kept
        · rw [if_neg negation, reachedTests]
          have step : st.Takes (scanValue db noJob jobCheck values st value)
              (tokenMisses db noJob jobCheck st.check (decide (st.invert > 0)) value) (tokenAction value) :=
            scanValue_takes blank negation
          cases looks : tokenLooks st.check jobCheck value with
          | true =>
              rw [if_pos rfl, if_pos]
              · rfl
              · split <;> rw [List.any_cons, looks, Bool.true_or]
          | false =>
              rw [if_neg Bool.false_ne_true, Option.bind_some]
              cases missed : tokenMisses db noJob jobCheck st.check (decide (st.invert > 0)) value with
              | true =>
                  have failed := step.m.trans missed
                  rw [scanValues_of_m failed, if_pos rfl, List.any_cons, looks, List.any_nil, if_neg (by decide)]
                  cases parts with
                  | nil => rfl
                  | cons next parts => rw [scanValuesOf, if_pos failed]
              | false =>
                  have settled : decide ((scanValue db noJob jobCheck values st value).invert > 0) = false :=
                    decide_eq_false (not_lt.mpr step.settled)
                  rw [ih (step.m.trans missed), settled, if_neg Bool.false_ne_true, List.any_cons, looks, Bool.false_or,
                    reachedTests_lower step.check]
                  congr 2
                  exact congrArg (List.any _) (funext fun token => tokenLooks_lower step.check token.2)

/-- Where nothing is decided, the check goes on behind the line. -/
theorem reachedLines_on (last : Option PermKey) (lines : List Bytes)
    (on : pieces whitespace line = [] ∨ lineMisses db noJob jobCheck check line = true ∨
      (lineAction line).or ((givenDefault line).or last) = none) :
    reachedLines db jobCheck check last (line :: lines) =
      line :: reachedLines db jobCheck check ((givenDefault line).or last) lines := by
  rw [reachedLines]
  refine if_pos ?_
  rw [Bool.or_eq_true, Bool.or_eq_true, decide_eq_true_iff, decide_eq_true_iff, or_assoc]
  exact on

/-- The loop over the lines. -/
theorem scanLinesOf_none (last : Option PermKey) (same : check.lower = check'.lower) (lines : List Bytes) :
    scanLinesOf db none jobCheck last check lines =
      if (reachedLines db jobCheck check' last lines).any (lineLooks db jobCheck check') then none
      else some (scanLines db noJob jobCheck last check lines) := by
  induction lines generalizing last check with
  | nil => rfl
  | cons line lines ih =>
      rw [scanLinesOf, split_pieces]
      by_cases empty : pieces whitespace line = []
      · have unset : givenDefault line = none := by rw [givenDefault, empty]
        have unlooked : lineLooks db jobCheck check' line = false := by
          rw [lineLooks, empty]
          rfl
        rw [if_pos empty, reachedLines_on last lines (.inl empty), unset, List.any_cons, unlooked, Bool.false_or,
          scanLines, split_pieces, if_pos empty]
        exact ih last same
      · rw [if_neg empty, scanValuesOf_none rfl, scanLines_cons empty]
        change (if lineLooks db jobCheck check line then none else some (behindLine db noJob jobCheck last check line)).bind _ = _
        rw [lineLooks_lower same]
        cases looks : lineLooks db jobCheck check' line with
        | true =>
            rw [if_pos rfl, Option.bind_none, reachedLines, if_pos]
            split <;> rw [List.any_cons, looks, Bool.true_or]
        | false =>
            rw [if_neg Bool.false_ne_true, Option.bind_some]
            have kept : (behindLine db noJob jobCheck last check line).check.lower = check.lower := behindLine_check line
            have rest := ih ((givenDefault line).or last) (kept.trans same)
            dsimp only
            rw [behindLine_default, behindLine_misses, lineMisses_lower same]
            cases missed : lineMisses db noJob jobCheck check' line with
            | true =>
                rw [if_pos rfl, reachedLines_on last lines (.inr (.inl missed)), List.any_cons, looks, Bool.false_or]
                exact rest
            | false =>
                rw [if_neg Bool.false_ne_true, behindLine_result ((lineMisses_lower same line).trans missed)]
                cases action : (lineAction line).or ((givenDefault line).or last) with
                | none =>
                    rw [reachedLines_on last lines (.inr (.inr action)), List.any_cons, looks, Bool.false_or]
                    exact rest
                | some result =>
                    have last_line : reachedLines db jobCheck check' last (line :: lines) = [line] := by
                      rw [reachedLines]
                      exact if_neg (by simp [empty, missed, action])
                    rw [last_line, List.any_cons, looks, List.any_nil]
                    rfl

/-- A check without a job ends exactly if no test that is reached looks into the job. -/
theorem permsCheckOf_ends_iff (db : Databases) (jobCheck : Bool) (defaultPermission : Bytes) (perms : List Bytes) (check : PermCheck) :
    permsCheckOf db none jobCheck defaultPermission perms check ≠ none ↔
      ∀ line ∈ reachedLines db jobCheck check (permVal defaultPermission) perms,
        ∀ token ∈ reachedTests db jobCheck check (lineTests false (pieces whitespace line)),
          tokenLooks check jobCheck token.2 = false := by
  have unlooked : (∀ line ∈ reachedLines db jobCheck check (permVal defaultPermission) perms,
      ∀ token ∈ reachedTests db jobCheck check (lineTests false (pieces whitespace line)),
        tokenLooks check jobCheck token.2 = false) ↔
      (reachedLines db jobCheck check (permVal defaultPermission) perms).any (lineLooks db jobCheck check) = false := by
    simp only [List.any_eq_false, lineLooks, Bool.not_eq_true]
  rw [permsCheckOf, scanLinesOf_none _ rfl, unlooked]
  cases (reachedLines db jobCheck check (permVal defaultPermission) perms).any (lineLooks db jobCheck check) with
  | true => exact iff_of_false (not_not.mpr rfl) Bool.true_eq_false.mp
  | false => exact iff_of_true (by rw [if_neg Bool.false_ne_true]; exact Option.some_ne_none _) rfl

/-- With a job the check is that of its source. -/
theorem permsCheckOf_some (db : Databases) (job : JobLists) (jobCheck : Bool) (defaultPermission : Bytes) (perms : List Bytes)
    (check : PermCheck) :
    permsCheckOf db (some job) jobCheck defaultPermission perms check =
      some (permsCheck db job jobCheck defaultPermission perms check) := by
  have tokens : ∀ (values parts : List Bytes) (st : Scan),
      scanValuesOf db (some job) jobCheck values st parts = some (scanValues db job jobCheck values st parts) := by
    intro values parts
    induction parts with
    | nil => exact fun st => rfl
    | cons value parts ih =>
        intro st
        rw [scanValuesOf, scanValues]
        split
        · rfl
        · exact ih _
  rw [permsCheckOf, permsCheck]
  generalize permVal defaultPermission = last
  induction perms generalizing check last with
  | nil => rfl
  | cons line lines ih =>
      rw [scanLinesOf, scanLines]
      split
      · exact ih check last
      · rw [tokens, Option.bind_some]
        generalize scanValues db job jobCheck _ _ _ = st
        cases outcome : if st.m then none else st.result.or st.lastDefaultPerm with
        | none =>
            simp only [outcome]
            exact ih _ _
        | some result => simp only [outcome]

end

/-! ## A rule for jobs -/

/-- `ACCEPT AUTHJOB`, when the status of a queue is asked for. -/
theorem authjob_looks :
    permsCheckOf noDatabases none false (lit "ACCEPT") [lit "ACCEPT AUTHJOB"] { connectionCheck with service := 81 } = none := by
  decide

end Permission

end LPRng
