import LPRng.PermissionTests

/-!
# Permissions

`Perms_check` reads the lines of a permission list one after the other, and each line token
by token: tests, `NOT` in front of a test, actions, and lines that set the default. One
loop carries a match flag, a result, an inversion flag and the record of the request from
token to token and from line to line. What it comes to is that the first line of which all
tests hold decides.
-/

namespace LPRng

namespace Permission

/-! ## Keys -/

/-- The keys of tokens. -/
inductive PermKey where
  | accept
  | reject
  | not
  | default
  | test (key : TestKey)
  deriving DecidableEq

def permwords : List (Bytes × Option PermKey) :=
  [(lit "ACCEPT", some .accept), (lit "AUTH", some (.test .auth)),
    (lit "AUTHFROM", some (.test .authfrom)), (lit "AUTHJOB", some (.test .authjob)),
    (lit "AUTHSAMEUSER", some (.test .authsameuser)), (lit "AUTHTYPE", some (.test .authtype)),
    (lit "AUTHUSER", some (.test .authuser)), (lit "CONTROLLINE", some (.test .controlline)),
    (lit "DEFAULT", some .default), (lit "FORWARD", some (.test .forward)),
    (lit "GROUP", some (.test .group)), (lit "HOST", some (.test .host)),
    (lit "IFIP", some (.test .ifip)), (lit "IP", some (.test .ip)), (lit "LPC", some (.test .lpc)),
    (lit "NOMATCHFOUND", none), (lit "NOT", some .not), (lit "PORT", some (.test .port)),
    (lit "PRINTER", some (.test .printer)), (lit "REJECT", some .reject),
    (lit "REMOTEGROUP", some (.test .remotegroup)), (lit "REMOTEHOST", some (.test .remotehost)),
    (lit "REMOTEIP", some (.test .remoteip)), (lit "REMOTEPORT", some (.test .remoteport)),
    (lit "REMOTEUSER", some (.test .remoteuser)), (lit "SAMEHOST", some (.test .samehost)),
    (lit "SAMEUSER", some (.test .sameuser)), (lit "SERVER", some (.test .server)),
    (lit "SERVICE", some (.test .service)), (lit "USER", some (.test .user)),
    (lit "UNIXSOCKET", some (.test .unixsocket)), (lit "AUTHCA", some (.test .authca))]

def getKeyval (s : Bytes) (controlwords : List (Bytes × Option PermKey)) : Option PermKey :=
  (controlwords.find? fun word => strcasecmp s word.1 = .eq).bind Prod.snd

/-- `perm_val`. An upper case letter stands for a control line. -/
def permVal (s : Bytes) : Option PermKey :=
  if s.length = 1 && isUpper (s.headD 0) then some (.test .controlline) else getKeyval s permwords

/-! ## The check -/

def whitespace : Bytes := [32, 9, 10, 12]

def permSep : Bytes := lit "=,;"

/-- What the loop carries from token to token. -/
structure Scan where
  m : Bool
  invert : Int
  result : Option PermKey
  lastDefaultPerm : Option PermKey
  check : PermCheck

/-- The default behind a `DEFAULT` line with the value. -/
def newDefault (last : Option PermKey) (value : Bytes) : Option PermKey :=
  match permVal value with
  | some .reject => some .reject
  | some .accept => some .accept
  | _ => last

section Check

variable (db : Databases) (job : JobLists) (jobCheck : Bool)

/-- One token of the line `values`. -/
def scanValue (values : List Bytes) (st : Scan) (value : Bytes) : Scan :=
  match split [] value permSep false [] false false false with
  | [] => st
  | word :: args =>
      let invert : Int := if st.invert > 0 then -1 else 0
      match permVal word with
      | none => { st with m := true, invert }
      | some .not => { st with invert := 1 }
      | some .reject => { st with m := false, invert, result := some .reject }
      | some .accept => { st with m := false, invert, result := some .accept }
      | some (.test key) =>
          let (m, check) := test db st.check job jobCheck key args (invert ≠ 0)
          { st with m, invert, check }
      | some .default =>
          { st with m := true, invert, lastDefaultPerm :=
              if values.length = 2 then newDefault st.lastDefaultPerm (values.getD 1 [])
              else st.lastDefaultPerm }

def scanValues (values : List Bytes) (st : Scan) : List Bytes → Scan
  | [] => st
  | value :: rest =>
      if st.m then st else scanValues values (scanValue db job jobCheck values st value) rest

def scanLines (lastDefaultPerm : Option PermKey) (check : PermCheck) : List Bytes → Option PermKey
  | [] => lastDefaultPerm
  | line :: lines =>
      let values := split [] line whitespace false [] false false false
      if values = [] then scanLines lastDefaultPerm check lines
      else
        let st := scanValues db job jobCheck values ⟨false, 0, none, lastDefaultPerm, check⟩ values
        match if st.m then none else st.result.or st.lastDefaultPerm with
        | some result => some result
        | none => scanLines st.lastDefaultPerm st.check lines

/-- `Perms_check`, with the default permission of the configuration. -/
def permsCheck (defaultPermission : Bytes) (perms : List Bytes) (check : PermCheck) :
    Option PermKey :=
  scanLines db job jobCheck (permVal defaultPermission) check perms

end Check

/-! ## Permission lines -/

/-- A token: a text without white space. -/
structure Token where
  text : Bytes
  nonempty : text ≠ []
  whole : ∀ c ∈ text, c ∉ whitespace

namespace Token

/-- The word in front of the first separator. -/
def word (token : Token) : Bytes := (pieces permSep token.text).headD []

def args (token : Token) : List Bytes := (pieces permSep token.text).tail

def key (token : Token) : Option PermKey := permVal token.word

end Token

/-- A test token, with the key of a test or with an unknown one. -/
structure TestToken extends Token where
  isTest : toToken.key = none ∨ ∃ key, toToken.key = some (.test key)

structure NotToken extends Token where
  isNot : toToken.key = some .not

structure ActionToken extends Token where
  isAction : toToken.key = some .accept ∨ toToken.key = some .reject

structure DefaultToken extends Token where
  isDefault : toToken.key = some .default

/-- A test, or `NOT` and a test. -/
structure Literal where
  negation : Option NotToken
  test : TestToken

inductive Item where
  | literal (l : Literal)
  | action (a : ActionToken)

inductive Line where
  | rule (items : List Item)
  | default (word : DefaultToken) (value : Token)

def Literal.tokens (l : Literal) : List Token :=
  l.negation.toList.map NotToken.toToken ++ [l.test.toToken]

def Item.tokens : Item → List Token
  | .literal l => l.tokens
  | .action a => [a.toToken]

def Line.tokens : Line → List Token
  | .rule items => items.flatMap Item.tokens
  | .default word value => [word.toToken, value]

/-- The tokens of a line, separated by single blanks. -/
def Line.text (line : Line) : Bytes := [32].intercalate (line.tokens.map Token.text)

/-- The action of the last action token. -/
def lastAction (items : List Item) : Option PermKey :=
  (items.filterMap fun item =>
    match item with
    | .literal _ => none
    | .action a => a.key).getLast?

/-- The action of the first line a test of lines stops at, or the default. The test is given
the default then in force. -/
def firstMatch (stops : Option PermKey → List Item → Bool) :
    Option PermKey → List Line → Option PermKey
  | last, [] => last
  | last, .default _ value :: lines => firstMatch stops (newDefault last value.text) lines
  | last, .rule items :: lines =>
      if stops last items then (lastAction items).or last else firstMatch stops last lines

/-- The token `ACCEPT`. -/
def acceptToken : ActionToken :=
  ⟨⟨lit "ACCEPT", by decide, by decide⟩, .inl (by decide)⟩

section Holds

variable (db : Databases) (check : PermCheck) (job : JobLists) (jobCheck : Bool)

/-- Whether the list of one line with the literal and `ACCEPT` is accepted, while the default
is to reject. -/
def Literal.holds (l : Literal) : Bool :=
  permsCheck db job jobCheck (lit "REJECT") [Line.text (.rule [.literal l, .action acceptToken])]
    check = some .accept

def allHold (items : List Item) : Bool :=
  items.all fun item =>
    match item with
    | .literal l => l.holds db check job jobCheck
    | .action _ => true

/-- A line stops the search if it has a token, if all of its literals hold, and if there is
something to answer: an action, or a default in force. -/
def stopsAt (last : Option PermKey) (items : List Item) : Bool :=
  !items.isEmpty && allHold db check job jobCheck items && ((lastAction items).or last).isSome

end Holds

/-! ## Tokens of a line -/

theorem pieces_ne_nil {sep s : Bytes} (nonempty : s ≠ []) : pieces sep s ≠ [] := by
  cases s with
  | nil => exact absurd rfl nonempty
  | cons c s =>
      rw [pieces]
      split
      · exact List.cons_ne_nil _ _
      · split <;> exact List.cons_ne_nil _ _

theorem Token.pieces_eq (token : Token) : pieces permSep token.text = token.word :: token.args := by
  have some_piece : pieces permSep token.text ≠ [] := pieces_ne_nil token.nonempty
  obtain ⟨word, args, parts⟩ := List.exists_cons_of_ne_nil some_piece
  rw [Token.word, Token.args, parts]
  rfl

/-- The tokens of a line are found again. -/
theorem pieces_intercalate (tokens : List Token) :
    pieces whitespace ([32].intercalate (tokens.map Token.text)) = tokens.map Token.text := by
  have blank : (32 : UInt8) ∈ whitespace := by decide
  induction tokens with
  | nil => rfl
  | cons token tokens ih =>
      cases tokens with
      | nil =>
          rw [List.map_singleton, List.intercalate_singleton]
          exact pieces_of_whole token.whole token.nonempty
      | cons other tokens =>
          have front := pieces_append token.whole blank
            ([32].intercalate ((other :: tokens).map Token.text))
          rw [ih] at front
          exact front

theorem Line.split_text (line : Line) :
    split [] line.text whitespace false [] false false false = line.tokens.map Token.text := by
  rw [split_pieces, Line.text, pieces_intercalate]

/-! ## Steps of the loop -/

section Check

variable {db : Databases} {job : JobLists} {jobCheck : Bool} {values : List Bytes} {st : Scan}

theorem scanValues_of_m (failed : st.m = true) (rest : List Bytes) :
    scanValues db job jobCheck values st rest = st := by
  cases rest with
  | nil => rfl
  | cons value rest => rw [scanValues, if_pos failed]

theorem scanValues_cons (passed : st.m = false) (value : Bytes) (rest : List Bytes) :
    scanValues db job jobCheck values st (value :: rest) =
      scanValues db job jobCheck values (scanValue db job jobCheck values st value) rest := by
  rw [scanValues, passed]
  rfl

theorem scanValues_append (front rest : List Bytes) :
    scanValues db job jobCheck values st (front ++ rest) =
      scanValues db job jobCheck values (scanValues db job jobCheck values st front) rest := by
  induction front generalizing st with
  | nil => rfl
  | cons value front ih =>
      rw [List.cons_append, scanValues, scanValues]
      split
      · next failed => rw [scanValues_of_m failed]
      · exact ih

/-- What a token of a test does. -/
def testMisses (db : Databases) (job : JobLists) (jobCheck : Bool) (check : PermCheck)
    (token : Token) (invert : Bool) : Bool :=
  match token.key with
  | some (.test key) => (test db check job jobCheck key token.args invert).1
  | _ => true

theorem testMisses_lower (check : PermCheck) (token : Token) (invert : Bool) :
    testMisses db job jobCheck check.lower token invert =
      testMisses db job jobCheck check token invert := by
  unfold testMisses
  split
  · exact test_lower check _ _ _
  · rfl

/-- The state behind tokens that leave result and default alone. -/
structure Scan.Follows (st st' : Scan) (m : Bool) : Prop where
  m : st'.m = m
  settled : st'.invert ≤ 0
  result : st'.result = st.result
  lastDefaultPerm : st'.lastDefaultPerm = st.lastDefaultPerm
  check : st'.check.lower = st.check.lower

theorem scanValue_test (st : Scan) (token : TestToken) :
    st.Follows (scanValue db job jobCheck values st token.text)
      (testMisses db job jobCheck st.check token.toToken (st.invert > 0)) := by
  have settled : (if st.invert > 0 then -1 else 0 : Int) ≤ 0 := by split <;> decide
  have inverts : decide ((if st.invert > 0 then -1 else 0 : Int) ≠ 0) = decide (st.invert > 0) := by
    split <;> simp_all
  unfold scanValue testMisses
  rw [split_pieces, token.pieces_eq]
  rcases token.isTest with unknown | ⟨key, known⟩
  · have word : permVal token.word = none := unknown
    simp only [unknown, word]
    exact ⟨rfl, settled, rfl, rfl, rfl⟩
  · have word : permVal token.word = some (.test key) := known
    simp only [known, word, inverts]
    exact ⟨rfl, settled, rfl, rfl, lower_test st.check key _ _⟩

theorem scanValue_not (token : NotToken) :
    scanValue db job jobCheck values st token.text = { st with invert := 1 } := by
  have word : permVal token.word = some .not := token.isNot
  unfold scanValue
  rw [split_pieces, token.pieces_eq]
  simp only [word]

theorem scanValue_action (token : ActionToken) :
    scanValue db job jobCheck values st token.text =
      { st with m := false, invert := if st.invert > 0 then -1 else 0, result := token.key } := by
  unfold scanValue
  rw [split_pieces, token.pieces_eq]
  rcases token.isAction with accept | reject
  · have word : permVal token.word = some .accept := accept
    simp only [accept, word]
  · have word : permVal token.word = some .reject := reject
    simp only [reject, word]

/-- Whether a literal fails. -/
def Literal.misses (db : Databases) (job : JobLists) (jobCheck : Bool) (check : PermCheck)
    (l : Literal) : Bool :=
  testMisses db job jobCheck check l.test.toToken l.negation.isSome

theorem scanValues_literal (passed : st.m = false) (settled : st.invert ≤ 0) (l : Literal) :
    st.Follows (scanValues db job jobCheck values st (l.tokens.map Token.text))
      (l.misses db job jobCheck st.check) := by
  obtain ⟨negation, tested⟩ := l
  cases negation with
  | none =>
      have step : st.Follows (scanValue db job jobCheck values st tested.text)
          (testMisses db job jobCheck st.check tested.toToken (st.invert > 0)) := scanValue_test st tested
      have plain : decide (st.invert > 0) = false := by simpa using settled
      rw [plain] at step
      exact scanValues_cons passed tested.text [] ▸ step
  | some negation =>
      have negated : Scan.m { st with invert := 1 } = false := passed
      have order : (Literal.tokens ⟨some negation, tested⟩).map Token.text =
          [negation.text, tested.text] := rfl
      have step : Scan.Follows { st with invert := 1 }
          (scanValue db job jobCheck values { st with invert := 1 } tested.text)
          (testMisses db job jobCheck st.check tested.toToken true) :=
        scanValue_test { st with invert := 1 } tested
      rw [order, scanValues_cons passed, scanValue_not, scanValues_cons negated]
      exact ⟨step.m, step.settled, step.result, step.lastDefaultPerm, step.check⟩

/-! ## Lines -/

theorem lastAction_cons_literal (l : Literal) (items : List Item) :
    lastAction (.literal l :: items) = lastAction items := rfl

theorem ActionToken.exists_key (a : ActionToken) : ∃ key, a.key = some key := by
  rcases a.isAction with accept | reject
  · exact ⟨_, accept⟩
  · exact ⟨_, reject⟩

theorem lastAction_cons_action (a : ActionToken) (items : List Item) :
    lastAction (.action a :: items) = (lastAction items).or a.key := by
  obtain ⟨key, known⟩ := a.exists_key
  unfold lastAction
  rw [List.filterMap_cons]
  simp only [known]
  rw [List.getLast?_cons]
  cases (items.filterMap _).getLast? <;> rfl

theorem Literal.misses_lower (l : Literal) {check check' : PermCheck}
    (same : check.lower = check'.lower) :
    l.misses db job jobCheck check = l.misses db job jobCheck check' := by
  unfold Literal.misses
  rw [← testMisses_lower check, same, testMisses_lower]

/-- No literal of the line fails. -/
def passes (db : Databases) (job : JobLists) (jobCheck : Bool) (check : PermCheck)
    (items : List Item) : Bool :=
  items.all fun item =>
    match item with
    | .literal l => !l.misses db job jobCheck check
    | .action _ => true

theorem passes_lower {check check' : PermCheck} (same : check.lower = check'.lower)
    (items : List Item) :
    passes db job jobCheck check items = passes db job jobCheck check' items := by
  unfold passes
  refine congrArg (items.all ·) (funext fun item => ?_)
  cases item with
  | literal l => exact congrArg (!·) (l.misses_lower same)
  | action a => rfl

/-- What the loop over the tokens of a line comes to. -/
structure Scan.Ends (st st' : Scan) (passed : Bool) (action : Option PermKey) : Prop where
  m : st'.m = !passed
  result : passed = true → st'.result = action.or st.result
  lastDefaultPerm : st'.lastDefaultPerm = st.lastDefaultPerm
  check : st'.check.lower = st.check.lower

theorem scanValues_items (passed : st.m = false) (settled : st.invert ≤ 0) (items : List Item) :
    st.Ends (scanValues db job jobCheck values st ((items.flatMap Item.tokens).map Token.text))
      (passes db job jobCheck st.check items) (lastAction items) := by
  induction items generalizing st with
  | nil => exact ⟨passed, fun _ => rfl, rfl, rfl⟩
  | cons item items ih =>
      rw [List.flatMap_cons, List.map_append, scanValues_append]
      cases item with
      | literal l =>
          have step : st.Follows (scanValues db job jobCheck values st (l.tokens.map Token.text))
              (l.misses db job jobCheck st.check) := scanValues_literal passed settled l
          change st.Ends (scanValues db job jobCheck values
            (scanValues db job jobCheck values st (l.tokens.map Token.text)) _)
            (!l.misses db job jobCheck st.check && passes db job jobCheck st.check items) (lastAction items)
          cases missed : l.misses db job jobCheck st.check with
          | true =>
              rw [scanValues_of_m (step.m.trans missed)]
              exact ⟨step.m.trans missed, nofun, step.lastDefaultPerm, step.check⟩
          | false =>
              have rest := ih (step.m.trans missed) step.settled
              rw [passes_lower step.check] at rest
              exact ⟨rest.m, fun all => (rest.result all).trans (congrArg _ step.result),
                rest.lastDefaultPerm.trans step.lastDefaultPerm, rest.check.trans step.check⟩
      | action a =>
          have single : (Item.action a).tokens.map Token.text = [a.text] := rfl
          have inverted : (if st.invert > 0 then -1 else 0 : Int) ≤ 0 := by split <;> decide
          have reset : Scan.m { st with
            m := false, invert := if st.invert > 0 then -1 else 0, result := a.key } = false := rfl
          have rest := ih reset inverted
          rw [single, scanValues_cons passed, scanValue_action]
          refine ⟨rest.m, fun all => (rest.result all).trans ?_, rest.lastDefaultPerm, rest.check⟩
          obtain ⟨key, known⟩ := a.exists_key
          rw [lastAction_cons_action, known]
          cases lastAction items <;> rfl

theorem Item.tokens_ne_nil (item : Item) : item.tokens ≠ [] := by
  cases item with
  | literal l => exact List.append_ne_nil_of_right_ne_nil _ (List.cons_ne_nil _ _)
  | action a => exact List.cons_ne_nil _ _

/-- A line of tests and actions. -/
theorem scanLines_rule (db : Databases) (job : JobLists) (jobCheck : Bool) (last : Option PermKey) (check : PermCheck) {items : List Item}
    (tokens : items ≠ []) (lines : List Bytes) :
    ∃ check', check'.lower = check.lower ∧
      scanLines db job jobCheck last check (Line.text (.rule items) :: lines) =
        if passes db job jobCheck check items && ((lastAction items).or last).isSome then
          (lastAction items).or last
        else scanLines db job jobCheck last check' lines := by
  have values : (Line.rule items).tokens.map Token.text ≠ [] := by
    obtain ⟨item, rest, rfl⟩ := List.exists_cons_of_ne_nil tokens
    intro empty
    exact item.tokens_ne_nil (List.append_eq_nil_iff.mp (List.map_eq_nil_iff.mp empty)).1
  rw [scanLines, Line.split_text, if_neg values]
  have ends : Scan.Ends ⟨false, 0, none, last, check⟩
      (scanValues db job jobCheck ((Line.rule items).tokens.map Token.text)
        ⟨false, 0, none, last, check⟩ ((Line.rule items).tokens.map Token.text))
      (passes db job jobCheck check items) (lastAction items) :=
    scanValues_items rfl (Int.le_refl 0) items
  generalize scanValues db job jobCheck ((Line.rule items).tokens.map Token.text) _ _ = st at ends ⊢
  refine ⟨st.check, ends.check, ?_⟩
  dsimp only
  rw [ends.m, show st.lastDefaultPerm = last from ends.lastDefaultPerm]
  cases passed : passes db job jobCheck check items with
  | false => rfl
  | true =>
      have result : st.result = lastAction items := (ends.result passed).trans Option.or_none
      rw [result]
      cases (lastAction items).or last <;> rfl

/-- A line that sets the default. -/
theorem scanLines_default (last : Option PermKey) (check : PermCheck) (word : DefaultToken)
    (value : Token) (lines : List Bytes) :
    scanLines db job jobCheck last check (Line.text (.default word value) :: lines) =
      scanLines db job jobCheck (newDefault last value.text) check lines := by
  have key : permVal word.word = some .default := word.isDefault
  have values : (Line.default word value).tokens.map Token.text = [word.text, value.text] := rfl
  rw [scanLines, Line.split_text, values, if_neg (List.cons_ne_nil _ _), scanValues, scanValue,
    split_pieces, word.pieces_eq]
  simp only [key, Bool.false_eq_true, if_false, List.length_cons, List.length_nil,
    Nat.reduceAdd, if_true, List.getD_cons_succ, List.getD_cons_zero]
  rw [scanValues_of_m rfl]
  rfl

/-- A line without tokens is passed by. -/
theorem scanLines_empty (last : Option PermKey) (check : PermCheck) (lines : List Bytes) :
    scanLines db job jobCheck last check (Line.text (.rule []) :: lines) =
      scanLines db job jobCheck last check lines := by
  rw [scanLines, Line.split_text]
  rfl

/-- A literal holds by itself exactly if it does not fail in the loop. -/
theorem Literal.holds_eq (l : Literal) (check : PermCheck) :
    l.holds db check job jobCheck = !l.misses db job jobCheck check := by
  have rejects : permVal (lit "REJECT") = some .reject := by decide
  have accepts : acceptToken.key = some .accept := by decide
  have action : lastAction [.literal l, .action acceptToken] = some .accept := by
    rw [lastAction_cons_literal, lastAction_cons_action, accepts]
    rfl
  unfold Literal.holds permsCheck
  obtain ⟨check', -, line⟩ := scanLines_rule db job jobCheck (permVal (lit "REJECT")) check
    (List.cons_ne_nil (Item.literal l) [.action acceptToken]) []
  rw [line, action, rejects]
  have whole : passes db job jobCheck check [.literal l, .action acceptToken] =
      !l.misses db job jobCheck check := by
    unfold passes
    simp
  rw [whole]
  cases l.misses db job jobCheck check <;> rfl

theorem allHold_eq (check : PermCheck) (items : List Item) :
    allHold db check job jobCheck items = passes db job jobCheck check items := by
  unfold allHold passes
  refine congrArg (items.all ·) (funext fun item => ?_)
  cases item with
  | literal l => exact l.holds_eq check
  | action a => rfl

/-- The loop over the lines finds the first line that stops it. -/
theorem scanLines_eq (last : Option PermKey) {check original : PermCheck}
    (same : check.lower = original.lower) (lines : List Line) :
    scanLines db job jobCheck last check (lines.map Line.text) =
      firstMatch (stopsAt db original job jobCheck) last lines := by
  induction lines generalizing last check with
  | nil => rfl
  | cons line lines ih =>
      rw [List.map_cons]
      cases line with
      | default word value =>
          rw [scanLines_default, firstMatch]
          exact ih _ same
      | rule items =>
          rw [firstMatch, stopsAt, allHold_eq, ← passes_lower same]
          cases items with
          | nil =>
              rw [scanLines_empty]
              exact ih _ same
          | cons item items =>
              obtain ⟨check', kept, found⟩ := scanLines_rule db job jobCheck last check
                (List.cons_ne_nil item items) (lines.map Line.text)
              rw [found, ih last (kept.trans same)]
              rfl

/-- The first line whose literals all hold decides, whatever stands around a literal. A
literal with an unknown key never holds. -/
theorem permsCheck_eq_firstMatch (defaultPermission : Bytes) (check : PermCheck) (lines : List Line) :
    permsCheck db job jobCheck defaultPermission (lines.map Line.text) check =
        firstMatch (stopsAt db check job jobCheck) (permVal defaultPermission) lines ∧
      ∀ l : Literal, l.test.key = none → l.holds db check job jobCheck = false := by
  refine ⟨scanLines_eq _ rfl lines, fun l unknown => ?_⟩
  rw [l.holds_eq, Literal.misses, testMisses, unknown]
  rfl

end Check

/-! ### Lines the search does not stop at -/

def emptyHost : HostInformation := ⟨none, none, [], .inet, []⟩

/-- A server that knows of nobody. -/
def noDatabases : Databases :=
  ⟨fun _ _ _ => false, fun _ => [], fun _ => none, fun _ => none, [], fun _ _ => none, emptyHost,
    emptyHost, []⟩

def connectionCheck : PermCheck :=
  ⟨none, none, none, none, 0, none, false, 88, none, none, none, none, none⟩

def rejectToken : ActionToken :=
  ⟨⟨lit "REJECT", by decide, by decide⟩, .inr (by decide)⟩

/-- `SERVICE=X`. -/
def serviceLiteral : Literal :=
  ⟨none, ⟨⟨lit "SERVICE=X", by decide, by decide⟩,
    .inr ⟨.service, by decide⟩⟩⟩

/-- The result for lines, and what the first line would answer whose literals hold. -/
def Differs (defaultPermission : Bytes) (lines : List Line) : Prop :=
  permsCheck noDatabases ⟨[], []⟩ false defaultPermission (lines.map Line.text) connectionCheck ≠
    firstMatch (fun _ => allHold noDatabases connectionCheck ⟨[], []⟩ false)
      (permVal defaultPermission) lines

/-- A line without a token is passed by, and so is one without an action while there is no
default. -/
theorem permsCheck_passes_by :
    Differs (lit "ACCEPT") [.rule [], .rule [.action rejectToken]] ∧
      Differs (lit "none") [.rule [.literal serviceLiteral], .rule [.action acceptToken]] := by
  unfold Differs
  exact ⟨by decide, by decide⟩

end Permission

end LPRng
