import LPRng.PermissionLines

/-!
# `FORWARD` and `NOT SAMEHOST`

A line in which every `FORWARD` is written as `NOT SAMEHOST`, and every `NOT FORWARD` as `SAMEHOST`, is
meant to have the same effect. For a queue as a whole the tests that look at a job are meant to succeed,
as there is no job yet. `FORWARD` inverts its answer behind this rule, as a control line test does
with `NOT`, and `AUTHJOB` does not know the rule.
-/

namespace LPRng

namespace Permission

/-! ## Writing `FORWARD` as `NOT SAMEHOST` -/

/-- The tokens of a line without `FORWARD`. A `NOT` is held back until it is known what follows. -/
def withoutForward : Bool → List Bytes → List Bytes
  | negated, [] => if negated then [lit "NOT"] else []
  | negated, value :: rest =>
      if pieces permSep value = [] then value :: withoutForward negated rest
      else if tokenKey value = some .not then withoutForward true rest
      else if tokenKey value = some (.test .forward) then
        (if negated then [lit "SAMEHOST"] else [lit "NOT", lit "SAMEHOST"]) ++ withoutForward false rest
      else (if negated then [lit "NOT"] else []) ++ value :: withoutForward false rest

/-- Whether one of the tokens of a line has the key. -/
def hasTest (key : TestKey) (line : Bytes) : Bool :=
  (lineTests false (pieces whitespace line)).any fun token => tokenKey token.2 = some (.test key)

/-- A line with a `FORWARD` test is written anew. -/
def replaceForward (line : Bytes) : Bytes :=
  if hasTest .forward line then (withoutForward false (pieces whitespace line)).flatMap (· ++ [32]) else line

/-- What stands for a token in the line without `FORWARD`. -/
def aliasToken (token : Bool × Bytes) : Bool × Bytes :=
  if tokenKey token.2 = some (.test .forward) then (!token.1, lit "SAMEHOST") else token

theorem alias_words :
    (tokenKey (lit "NOT") = some .not ∧ tokenKey (lit "SAMEHOST") = some (.test .samehost)) ∧
      (pieces permSep (lit "NOT") = [lit "NOT"] ∧ pieces permSep (lit "SAMEHOST") = [lit "SAMEHOST"]) ∧
      (∀ c ∈ lit "NOT", c ∉ whitespace) ∧ ∀ c ∈ lit "SAMEHOST", c ∉ whitespace := by
  decide

theorem lineTests_not (negated : Bool) (rest : List Bytes) :
    lineTests negated (lit "NOT" :: rest) = lineTests true rest := by
  obtain ⟨⟨key, -⟩, ⟨parts, -⟩, -⟩ := alias_words
  rw [lineTests, parts, if_neg (List.cons_ne_nil _ _), if_pos key]

theorem lineTests_samehost (negated : Bool) (rest : List Bytes) :
    lineTests negated (lit "SAMEHOST" :: rest) = (negated, lit "SAMEHOST") :: lineTests false rest := by
  obtain ⟨⟨-, key⟩, ⟨-, parts⟩, -⟩ := alias_words
  rw [lineTests, parts, if_neg (List.cons_ne_nil _ _), if_neg (by rw [key]; decide)]

theorem lineTests_withoutForward (negated : Bool) (parts : List Bytes) :
    lineTests false (withoutForward negated parts) = (lineTests negated parts).map aliasToken := by
  induction parts generalizing negated with
  | nil =>
      cases negated with
      | false => rfl
      | true => exact lineTests_not false []
  | cons value rest ih =>
      rw [withoutForward, lineTests]
      by_cases blank : pieces permSep value = []
      · rw [if_pos blank, if_pos blank, lineTests, if_pos blank]
        exact ih negated
      · rw [if_neg blank, if_neg blank]
        by_cases negation : tokenKey value = some .not
        · rw [if_pos negation, if_pos negation]
          exact ih true
        · rw [if_neg negation, if_neg negation, List.map_cons, aliasToken, ← ih false]
          by_cases forward : tokenKey value = some (.test .forward)
          · rw [if_pos forward, if_pos forward]
            cases negated with
            | false =>
                rw [if_neg Bool.false_ne_true, List.cons_append, lineTests_not]
                exact lineTests_samehost true _
            | true =>
                rw [if_pos rfl]
                exact lineTests_samehost false _
          · rw [if_neg forward, if_neg forward]
            cases negated with
            | false =>
                rw [if_neg Bool.false_ne_true, List.nil_append, lineTests, if_neg blank, if_neg negation]
            | true =>
                rw [if_pos rfl, List.singleton_append, lineTests_not, lineTests, if_neg blank, if_neg negation]

theorem tokenAction_of_key {value : Bytes} (key : tokenKey value ≠ some .accept) (key' : tokenKey value ≠ some .reject) :
    tokenAction value = none := by
  unfold tokenAction
  split
  · exact absurd ‹_› key
  · exact absurd ‹_› key'
  · rfl

theorem filterMap_withoutForward (negated : Bool) (parts : List Bytes) :
    (withoutForward negated parts).filterMap tokenAction = parts.filterMap tokenAction := by
  obtain ⟨⟨notKey, samehostKey⟩, -⟩ := alias_words
  have plainNot : tokenAction (lit "NOT") = none := tokenAction_of_key (by rw [notKey]; decide) (by rw [notKey]; decide)
  have plainHost : tokenAction (lit "SAMEHOST") = none :=
    tokenAction_of_key (by rw [samehostKey]; decide) (by rw [samehostKey]; decide)
  induction parts generalizing negated with
  | nil =>
      cases negated with
      | false => rfl
      | true =>
          rw [withoutForward, if_pos rfl, List.filterMap_cons, plainNot]
  | cons value rest ih =>
      rw [withoutForward, List.filterMap_cons]
      by_cases blank : pieces permSep value = []
      · rw [if_pos blank, List.filterMap_cons, ih]
      · rw [if_neg blank]
        by_cases negation : tokenKey value = some .not
        · rw [if_pos negation, ih, tokenAction_of_key (by rw [negation]; decide) (by rw [negation]; decide)]
        · rw [if_neg negation]
          by_cases forward : tokenKey value = some (.test .forward)
          · rw [if_pos forward, List.filterMap_append, ih,
              tokenAction_of_key (by rw [forward]; decide) (by rw [forward]; decide)]
            cases negated with
            | false =>
                rw [if_neg Bool.false_ne_true, List.filterMap_cons, plainNot, List.filterMap_cons, plainHost]
                rfl
            | true =>
                rw [if_pos rfl, List.filterMap_cons, plainHost]
                rfl
          · rw [if_neg forward, List.filterMap_append, List.filterMap_cons, ih]
            cases negated with
            | false => rfl
            | true =>
                rw [if_pos rfl, List.filterMap_cons, plainNot]
                rfl

/-! ## The line that is written -/

theorem whole_withoutForward (negated : Bool) {parts : List Bytes}
    (whole : ∀ value ∈ parts, ∀ d ∈ value, d ∉ whitespace) :
    ∀ value ∈ withoutForward negated parts, ∀ d ∈ value, d ∉ whitespace := by
  obtain ⟨-, -, notWhole, samehostWhole⟩ := alias_words
  have front : ∀ (b : Bool), ∀ value ∈ (if b then [lit "NOT"] else []), ∀ d ∈ value, d ∉ whitespace := by
    intro b value member
    cases b with
    | false => cases member
    | true => exact List.mem_singleton.mp member ▸ notWhole
  induction parts generalizing negated with
  | nil => exact front negated
  | cons value rest ih =>
      rw [List.forall_mem_cons] at whole
      rw [withoutForward]
      split
      · exact List.forall_mem_cons.mpr ⟨whole.1, ih negated whole.2⟩
      · split
        · exact ih true whole.2
        · split
          · refine List.forall_mem_append.mpr ⟨?_, ih false whole.2⟩
            split
            · exact fun value member => List.mem_singleton.mp member ▸ samehostWhole
            · exact List.forall_mem_cons.mpr ⟨notWhole, fun value member => List.mem_singleton.mp member ▸ samehostWhole⟩
          · exact List.forall_mem_append.mpr ⟨front negated, List.forall_mem_cons.mpr ⟨whole.1, ih false whole.2⟩⟩

theorem pieces_replaceForward {line : Bytes} (replaced : hasTest .forward line = true) :
    pieces whitespace (replaceForward line) = withoutForward false (pieces whitespace line) := by
  have blank : (32 : UInt8) ∈ whitespace := by decide
  have whole := whole_withoutForward false fun value (member : value ∈ pieces whitespace line) =>
    not_mem_of_mem_pieces member
  have parts := pieces_flatMap whole blank []
  rw [List.append_nil] at parts
  rw [replaceForward, if_pos replaced, parts]
  exact List.append_nil _

/-- A line with a test sets no default. -/
theorem givenDefault_of_hasTest {key : TestKey} {line : Bytes} (tested : hasTest key line = true) :
    givenDefault line = none := by
  unfold givenDefault
  split
  · next word value two =>
      by_cases sets : tokenKey word = some .default
      · rw [if_pos sets]
        by_contra given
        have action : tokenKey value = some .accept ∨ tokenKey value = some .reject := by
          unfold newDefault at given
          split at given
          · rename_i known
            rw [tokenKey, pieces_of_permVal (by simp [known])]
            exact .inr known
          · rename_i known
            rw [tokenKey, pieces_of_permVal (by simp [known])]
            exact .inl known
          · exact absurd rfl given
        have parts : ∀ {v : Bytes}, tokenKey v ≠ none → pieces permSep v ≠ [] := by
          intro v known empty
          rw [tokenKey, empty] at known
          exact known rfl
        have other : tokenKey value ≠ none ∧ tokenKey value ≠ some .not ∧ tokenKey value ≠ some (.test key) := by
          rcases action with accept | reject
          · rw [accept]
            exact ⟨by simp, by simp, by simp⟩
          · rw [reject]
            exact ⟨by simp, by simp, by simp⟩
        unfold hasTest at tested
        rw [two, lineTests, if_neg (parts (by simp [sets])), if_neg (by simp [sets]), lineTests,
          if_neg (parts other.1), if_neg other.2.1, lineTests, List.any_cons, List.any_cons, List.any_nil,
          decide_eq_false (by simp [sets]), decide_eq_false other.2.2] at tested
        cases tested
      · rw [if_neg sets]
  · rfl

theorem hasTest_samehost_replaceForward {line : Bytes} (replaced : hasTest .forward line = true) :
    hasTest .samehost (replaceForward line) = true := by
  unfold hasTest
  rw [pieces_replaceForward replaced, lineTests_withoutForward]
  obtain ⟨token, member, key⟩ := List.any_eq_true.mp replaced
  refine List.any_eq_true.mpr ⟨aliasToken token, List.mem_map_of_mem member, ?_⟩
  rw [aliasToken, if_pos (of_decide_eq_true key)]
  exact decide_eq_true alias_words.1.2

/-! ## The effect of the line -/

section

variable (db : Databases) (job : JobLists) (check : PermCheck)

/-- With a job, `FORWARD` answers what `NOT SAMEHOST` does. -/
theorem tokenMisses_aliasToken (token : Bool × Bytes) :
    tokenMisses db job true check (aliasToken token).1 (aliasToken token).2 =
      tokenMisses db job true check token.1 token.2 := by
  unfold aliasToken
  split
  · rename_i forward
    unfold tokenMisses
    rw [forward, alias_words.1.2]
    dsimp only [test]
    rw [if_neg (by decide), if_pos rfl]
    cases token.1 with
    | false => rfl
    | true => exact (Bool.not_not _).symm
  · rfl

theorem lineMisses_replaceForward (line : Bytes) :
    lineMisses db job true check (replaceForward line) = lineMisses db job true check line := by
  by_cases replaced : hasTest .forward line = true
  · unfold lineMisses
    rw [pieces_replaceForward replaced, lineTests_withoutForward, List.any_map]
    exact congrArg (List.any _) (funext fun token => tokenMisses_aliasToken db job check token)
  · rw [replaceForward, if_neg replaced]

theorem pieces_replaceForward_eq_nil_iff (line : Bytes) :
    pieces whitespace (replaceForward line) = [] ↔ pieces whitespace line = [] := by
  by_cases replaced : hasTest .forward line = true
  · have some_ : ∀ {l : Bytes} {key : TestKey}, hasTest key l = true → pieces whitespace l ≠ [] := by
      intro l key tested empty
      rw [hasTest, empty] at tested
      cases tested
    exact iff_of_false (some_ (hasTest_samehost_replaceForward replaced)) (some_ replaced)
  · rw [replaceForward, if_neg replaced]

theorem lineAction_replaceForward (line : Bytes) : lineAction (replaceForward line) = lineAction line := by
  by_cases replaced : hasTest .forward line = true
  · rw [lineAction, pieces_replaceForward replaced, filterMap_withoutForward]
    rfl
  · rw [replaceForward, if_neg replaced]

theorem givenDefault_replaceForward (line : Bytes) : givenDefault (replaceForward line) = givenDefault line := by
  by_cases replaced : hasTest .forward line = true
  · rw [givenDefault_of_hasTest (hasTest_samehost_replaceForward replaced), givenDefault_of_hasTest replaced]
  · rw [replaceForward, if_neg replaced]

theorem decideLines_replaceForward (last : Option PermKey) (perms : List Bytes) :
    decideLines (lineMisses db job true check) last (perms.map replaceForward) =
      decideLines (lineMisses db job true check) last perms := by
  induction perms generalizing last with
  | nil => rfl
  | cons line perms ih =>
      have empty : (decide (pieces whitespace (replaceForward line) = [])) = decide (pieces whitespace line = []) :=
        decide_eq_decide.mpr (pieces_replaceForward_eq_nil_iff line)
      rw [List.map_cons, decideLines, decideLines, empty, lineMisses_replaceForward, lineAction_replaceForward,
        givenDefault_replaceForward, ih]

end

/-! ## Queue-level checks -/

/-- The tests that look at a job. -/
def TestKey.OfJob : TestKey → Bool
  | user | host | ip | group | sameuser | samehost | forward | authsameuser | authjob | controlline => true
  | _ => false

/-- A test of a job that holds without a job: it is no `FORWARD`, no control line test with `NOT`, and
`AUTHJOB` only where it holds of the job by itself. -/
def HoldsWithoutJob (job : JobLists) (check : PermCheck) (negated : Bool) : TestKey → Prop
  | .forward => False
  | .controlline => negated = false
  | .authjob =>
      check.service ∈ lit "QMC" ∧ (negated = true ↔ job.info.findStrValue authuser = none)
  | _ => True

theorem tokenMisses_withoutJob {db : Databases} {job : JobLists} {check : PermCheck} {negated : Bool} {value : Bytes}
    {key : TestKey} (known : tokenKey value = some (.test key)) (ofJob : key.OfJob = true) :
    tokenMisses db job false check negated value = false ↔ HoldsWithoutJob job check negated key := by
  unfold tokenMisses
  rw [known]
  cases key with
  | user | host | ip | group | sameuser | samehost | authsameuser => exact iff_of_true rfl trivial
  | forward => exact iff_of_false nofun id
  | controlline =>
      cases negated with
      | false => exact iff_of_true rfl rfl
      | true => exact iff_of_false nofun nofun
  | authjob =>
      dsimp only [test, HoldsWithoutJob, whenService]
      rw [List.contains_iff_mem.symm]
      cases (lit "QMC").contains check.service with
      | false => exact iff_of_false nofun fun both => nomatch both.1
      | true =>
          rw [if_pos rfl]
          cases negated with
          | false =>
              simp
          | true =>
              simp
  | _ => cases ofJob

/-- A permission list means the same with `NOT SAMEHOST` for `FORWARD`, and in a check of a queue its
tests of a job succeed, exactly if there is a job to check or all tests of a job in it are such that
hold without one. -/
theorem forward_alias_iff (db : Databases) (job : JobLists) (jobCheck : Bool) (defaultPermission : Bytes)
    (perms : List Bytes) (check : PermCheck) :
    (permsCheck db job jobCheck defaultPermission (perms.map replaceForward) check =
        permsCheck db job jobCheck defaultPermission perms check ∧
      (jobCheck = false → ∀ line ∈ perms, ∀ token ∈ lineTests false (pieces whitespace line), ∀ key : TestKey,
        tokenKey token.2 = some (.test key) → key.OfJob = true →
          tokenMisses db job jobCheck check token.1 token.2 = false)) ↔
      (jobCheck = false → ∀ line ∈ perms, ∀ token ∈ lineTests false (pieces whitespace line), ∀ key : TestKey,
        tokenKey token.2 = some (.test key) → key.OfJob = true → HoldsWithoutJob job check token.1 key) := by
  have tests : (jobCheck = false → ∀ line ∈ perms, ∀ token ∈ lineTests false (pieces whitespace line),
        ∀ key : TestKey, tokenKey token.2 = some (.test key) → key.OfJob = true →
          tokenMisses db job jobCheck check token.1 token.2 = false) ↔
      (jobCheck = false → ∀ line ∈ perms, ∀ token ∈ lineTests false (pieces whitespace line), ∀ key : TestKey,
        tokenKey token.2 = some (.test key) → key.OfJob = true → HoldsWithoutJob job check token.1 key) := by
    refine forall_congr' fun queue => forall₂_congr fun line _ => forall₂_congr fun token _ =>
      forall_congr' fun key => forall₂_congr fun known ofJob => ?_
    rw [queue]
    exact tokenMisses_withoutJob known ofJob
  rw [tests]
  refine ⟨fun both => both.2, fun holds => ⟨?_, holds⟩⟩
  cases jobCheck with
  | true => rw [permsCheck_eq_decideLines, permsCheck_eq_decideLines, decideLines_replaceForward]
  | false =>
      have none : perms.map replaceForward = perms := by
        have kept : ∀ line ∈ perms, replaceForward line = id line := by
          intro line member
          refine if_neg fun replaced => ?_
          obtain ⟨token, inside, key⟩ := List.any_eq_true.mp replaced
          exact holds rfl line member token inside .forward (of_decide_eq_true key) rfl
        rw [List.map_congr_left kept, List.map_id]
      rw [none]

/-- The check of a queue for a status request. -/
def queueCheck : PermCheck :=
  ⟨none, some (lit "papa"), none, none, 0, some (lit "lp"), false, 81, none, none, none, none, none⟩

/-- A queue whose status `REJECT FORWARD` leaves open is closed by `REJECT NOT SAMEHOST`. -/
theorem forward_differs :
    permsCheck noDatabases ⟨[], []⟩ false (lit "ACCEPT") ([lit "REJECT FORWARD"].map replaceForward) queueCheck ≠
      permsCheck noDatabases ⟨[], []⟩ false (lit "ACCEPT") [lit "REJECT FORWARD"] queueCheck := by
  decide

end Permission

end LPRng
