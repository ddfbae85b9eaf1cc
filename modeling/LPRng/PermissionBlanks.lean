import LPRng.Permission

/-!
# Blanks in permission lines

`Perms_check` splits a line at every blank and passes by the empty pieces between them. A line that
sets the default is the exception: it sets nothing unless it has two pieces, counted with the empty
ones. Lines with the same tokens have the same effect if they set the same default.
-/

namespace LPRng

namespace Permission

/-! ## Tokens and blanks -/

/-- The pieces of a line that are not empty. -/
def tokens (line : Bytes) : List Bytes := (pieces whitespace line).filter (· ≠ [])

variable {line line' piece : Bytes} {c : UInt8}

theorem tokens_whole (whole : ∀ d ∈ piece, d ∉ whitespace) :
    tokens piece = [piece].filter (· ≠ []) := by
  rcases piece with - | ⟨d, piece⟩
  · rfl
  · rw [tokens, pieces_of_whole whole (List.cons_ne_nil d piece)]

theorem tokens_whole_append (whole : ∀ d ∈ piece, d ∉ whitespace) (blank : c ∈ whitespace)
    (rest : Bytes) : tokens (piece ++ c :: rest) = [piece].filter (· ≠ []) ++ tokens rest := by
  rw [tokens, pieces_append whole blank, tokens, ← List.filter_append, List.singleton_append]

theorem tokens_append (blank : c ∈ whitespace) (front rest : Bytes) :
    tokens (front ++ c :: rest) = tokens front ++ tokens rest := by
  -- the front is read into a piece that has no blank yet
  suffices general : ∀ piece, (∀ d ∈ piece, d ∉ whitespace) →
      tokens (piece ++ front ++ c :: rest) = tokens (piece ++ front) ++ tokens rest from
    general [] fun _ => nofun
  induction front with
  | nil =>
      intro piece whole
      rw [List.append_nil, tokens_whole_append whole blank, tokens_whole whole]
  | cons d front ih =>
      intro piece whole
      by_cases first : d ∈ whitespace
      · rw [List.append_assoc, List.cons_append, tokens_whole_append whole first,
          tokens_whole_append whole first, List.append_assoc]
        exact congrArg _ (ih [] fun _ => nofun)
      · have longer : ∀ e ∈ piece ++ [d], e ∉ whitespace := by
          intro e member
          rcases List.mem_append.mp member with inside | last
          · exact whole e inside
          · exact List.mem_singleton.mp last ▸ first
        have step := ih (piece ++ [d]) longer
        rwa [List.append_assoc piece, List.singleton_append] at step

/-- The same tokens, of which there are some, with other blanks between them. -/
structure Respaced (line line' : Bytes) : Prop where
  tokens : tokens line = tokens line'
  nonempty : Permission.tokens line ≠ []

theorem Respaced.given (respaced : Respaced line line') : pieces whitespace line ≠ [] := by
  intro none_
  apply respaced.nonempty
  rw [Permission.tokens, none_]
  rfl

theorem Respaced.given' (respaced : Respaced line line') : pieces whitespace line' ≠ [] := by
  intro none_
  apply respaced.nonempty
  rw [respaced.tokens, Permission.tokens, none_]
  rfl

/-- A blank between two tokens that is replaced by any number of blanks and tabs. -/
theorem respaced_of_blanks {front rest blanks : Bytes} {blank : UInt8} (space : blank ∈ whitespace)
    (spaces : ∀ c ∈ blanks, c ∈ whitespace) (some_ : blanks ≠ []) (before : tokens front ≠ []) :
    Respaced (front ++ blank :: rest) (front ++ blanks ++ rest) := by
  have behind : ∀ rest, tokens (front ++ blanks ++ rest) = tokens front ++ tokens rest := by
    induction blanks using List.reverseRecOn with
    | nil => exact absurd rfl some_
    | append_singleton blanks last ih =>
        intro rest
        have first : last ∈ whitespace := spaces last (List.mem_append_right _ (List.mem_singleton_self _))
        rcases blanks with - | ⟨c, blanks⟩
        · rw [List.nil_append, List.append_assoc, List.singleton_append, tokens_append first]
        · have skipped := ih (fun c member => spaces c (List.mem_append_left _ member)) (List.cons_ne_nil _ _)
          rw [← List.append_assoc front, List.append_assoc _ [last], List.singleton_append, skipped]
          exact congrArg _ (tokens_append first [] rest)
  refine ⟨?_, ?_⟩
  · rw [tokens_append space, behind]
  · rw [tokens_append space]
    exact List.append_ne_nil_of_left_ne_nil before _

/-! ## The pieces of a line -/

section Check

variable {db : Databases} {job : JobLists} {jobCheck : Bool} {values values' : List Bytes}
  {st st' : Scan} {last last' : Option PermKey} {check : PermCheck} {value : Bytes}

/-- All that is carried is the same, apart from the default. -/
structure Scan.Agrees (st st' : Scan) : Prop where
  m : st.m = st'.m
  invert : st.invert = st'.invert
  result : st.result = st'.result
  check : st.check = st'.check

theorem scanValue_agrees (agrees : st.Agrees st') (value : Bytes) :
    (scanValue db job jobCheck values st value).Agrees (scanValue db job jobCheck values' st' value) := by
  obtain ⟨m, invert, result, last, check⟩ := st
  obtain ⟨m', invert', result', last', check'⟩ := st'
  obtain ⟨rfl, rfl, rfl, rfl⟩ : m = m' ∧ invert = invert' ∧ result = result' ∧ check = check' :=
    ⟨agrees.m, agrees.invert, agrees.result, agrees.check⟩
  unfold scanValue
  rcases split [] value permSep false [] false false false with - | ⟨word, args⟩
  · exact ⟨rfl, rfl, rfl, rfl⟩
  · rcases found : permVal word with - | - | - | - | - | key
    all_goals
      simp only [found]
      exact ⟨rfl, rfl, rfl, rfl⟩

theorem scanValues_agrees (agrees : st.Agrees st') (parts : List Bytes) :
    (scanValues db job jobCheck values st parts).Agrees
      (scanValues db job jobCheck values' st' parts) := by
  induction parts generalizing st st' with
  | nil => exact agrees
  | cons value parts ih =>
      rw [scanValues, scanValues, ← agrees.m]
      split
      · exact agrees
      · exact ih (scanValue_agrees agrees value)

/-- Empty pieces are passed by. -/
theorem scanValues_filter (parts : List Bytes) :
    scanValues db job jobCheck values st (parts.filter (· ≠ [])) =
      scanValues db job jobCheck values st parts := by
  induction parts generalizing st with
  | nil => rfl
  | cons value parts ih =>
      rcases value with - | ⟨c, value⟩
      · refine ih.trans ?_
        rw [scanValues]
        split
        · next failed => exact scanValues_of_m failed parts
        · rfl
      · rw [List.filter_cons_of_pos (by simp), scanValues, scanValues, ih]

/-- The state behind the pieces of a line. -/
def behindLine (db : Databases) (job : JobLists) (jobCheck : Bool) (last : Option PermKey)
    (check : PermCheck) (line : Bytes) : Scan :=
  scanValues db job jobCheck (pieces whitespace line) ⟨false, 0, none, last, check⟩
    (pieces whitespace line)

theorem behindLine_agrees (respaced : Respaced line line') :
    (behindLine db job jobCheck last check line).Agrees
      (behindLine db job jobCheck last' check line') := by
  unfold behindLine
  rw [← scanValues_filter (pieces whitespace line), ← scanValues_filter (pieces whitespace line')]
  have same : (pieces whitespace line).filter (· ≠ []) = (pieces whitespace line').filter (· ≠ []) :=
    respaced.tokens
  rw [same]
  refine scanValues_agrees ?_ _
  exact ⟨rfl, rfl, rfl, rfl⟩

/-! ## The default a line sets -/

/-- The key of a piece: that of its first word. -/
def tokenKey (value : Bytes) : Option PermKey := (pieces permSep value).head?.bind permVal

/-- The default that a line of two pieces sets. -/
def givenDefault (line : Bytes) : Option PermKey :=
  match pieces whitespace line with
  | [word, value] => if tokenKey word = some .default then newDefault none value else none
  | _ => none

theorem newDefault_eq (last : Option PermKey) (value : Bytes) :
    newDefault last value = (newDefault none value).or last := by
  unfold newDefault
  rcases permVal value with - | - | - | - | - | key
  all_goals rfl

theorem scanValue_default (value : Bytes) :
    (scanValue db job jobCheck values st value).lastDefaultPerm =
      if tokenKey value = some .default ∧ values.length = 2 then
        newDefault st.lastDefaultPerm (values.getD 1 [])
      else st.lastDefaultPerm := by
  unfold scanValue tokenKey
  rw [split_pieces]
  rcases pieces permSep value with - | ⟨word, args⟩
  · rfl
  · rw [List.head?_cons, Option.bind_some]
    rcases found : permVal word with - | - | - | - | - | key
    all_goals simp [found]

theorem scanValue_m (sets : tokenKey value = some .default) :
    (scanValue db job jobCheck values st value).m = true := by
  unfold tokenKey at sets
  unfold scanValue
  rw [split_pieces]
  rcases parts : pieces permSep value with - | ⟨word, args⟩ <;> rw [parts] at sets
  · exact absurd sets nofun
  · have found : permVal word = some .default := sets
    simp only [found]

/-- A key has no separator in it. -/
theorem pieces_of_permVal (known : permVal value ≠ none) : pieces permSep value = [value] := by
  have upper : ∀ c : UInt8, (!isUpper c || !permSep.contains (toLower c)) = true :=
    forall_byte (by decide +kernel)
  have plain : ∀ c : UInt8, (!permSep.contains c || toLower c = c) = true :=
    forall_byte (by decide +kernel)
  have keys : permwords.all (fun word => word.1.all isUpper && !word.1.isEmpty) = true := by decide
  have free : ∀ {c d : UInt8}, isUpper d = true → toLower c = toLower d → c ∉ permSep := by
    intro c d letter same separator
    have itself : toLower c = c := by simpa [separator] using plain c
    have other := upper d
    rw [letter, ← same, itself] at other
    simp [separator] at other
  unfold permVal at known
  split at known
  · next single =>
      obtain ⟨one, letter⟩ := Bool.and_eq_true_iff.mp single
      obtain ⟨c, rfl⟩ := List.length_eq_one_iff.mp (of_decide_eq_true one)
      refine pieces_of_whole (fun d member => ?_) (List.cons_ne_nil c [])
      rw [List.mem_singleton.mp member]
      exact free letter rfl
  · unfold getKeyval at known
    obtain ⟨key, found⟩ := Option.ne_none_iff_exists'.mp known
    obtain ⟨word, first, -⟩ := Option.bind_eq_some_iff.mp found
    have member := List.mem_of_find?_eq_some first
    have same : strcasecmp value word.1 = .eq := by simpa using List.find?_some first
    have folded : foldCase value = foldCase word.1 := by
      have compares := strcasecmp_compares value word.1
      rwa [same] at compares
    obtain ⟨letters, given⟩ := Bool.and_eq_true_iff.mp (List.all_eq_true.mp keys word member)
    refine pieces_of_whole (fun c inside => ?_) fun empty => ?_
    · have inside' : (toLower c).toNat ∈ foldCase word.1 := folded ▸ List.mem_map_of_mem inside
      obtain ⟨d, among, equal⟩ := List.mem_map.mp inside'
      exact free (List.all_eq_true.mp letters d among) (UInt8.toNat_inj.mp equal.symm)
    · rw [empty] at folded
      have none_ : word.1 = [] := List.map_eq_nil_iff.mp folded.symm
      rw [none_] at given
      cases given

/-- A value that is an action is no `DEFAULT`. -/
theorem newDefault_of_tokenKey (sets : tokenKey value = some .default) (last : Option PermKey) :
    newDefault last value = last := by
  unfold newDefault
  by_cases known : permVal value = none
  · rw [known]
  · unfold tokenKey at sets
    rw [pieces_of_permVal known] at sets
    have key : permVal value = some .default := sets
    rw [key]

/-- Only a line of two pieces sets the default. -/
theorem scanValues_keepsDefault (other : values.length ≠ 2) (parts : List Bytes) :
    (scanValues db job jobCheck values st parts).lastDefaultPerm = st.lastDefaultPerm := by
  induction parts generalizing st with
  | nil => rfl
  | cons value parts ih =>
      rw [scanValues]
      split
      · rfl
      · rw [ih, scanValue_default, if_neg fun both => other both.2]

theorem behindLine_default (line : Bytes) :
    (behindLine db job jobCheck last check line).lastDefaultPerm = (givenDefault line).or last := by
  unfold behindLine givenDefault
  split
  · next word value two =>
      rw [two, scanValues_cons rfl]
      by_cases sets : tokenKey word = some .default
      · rw [scanValues_of_m (scanValue_m sets), scanValue_default, if_pos ⟨sets, rfl⟩, if_pos sets]
        exact newDefault_eq last value
      · rw [if_neg sets, Option.none_or, scanValues]
        have kept : (scanValue db job jobCheck [word, value] ⟨false, 0, none, last, check⟩ word).lastDefaultPerm
            = last := by
          rw [scanValue_default, if_neg fun both => sets both.1]
        split
        · exact kept
        · rw [scanValues, scanValue_default, kept]
          split
          · next both => exact newDefault_of_tokenKey both.1 last
          · rfl
  · next other =>
      refine scanValues_keepsDefault (fun two => ?_) _
      obtain ⟨word, value, parts⟩ := List.length_eq_two.mp two
      exact other word value parts

theorem behindLine_m (sets : givenDefault line ≠ none) :
    (behindLine db job jobCheck last check line).m = true := by
  unfold givenDefault at sets
  unfold behindLine
  split at sets
  · next word value two =>
      rw [two, scanValues_cons rfl]
      have key : tokenKey word = some .default := by
        by_contra other
        exact sets (if_neg other)
      rw [scanValues_of_m (scanValue_m key)]
      exact scanValue_m key
  · exact absurd rfl sets

/-! ## The check -/

theorem scanLines_cons (given : pieces whitespace line ≠ []) (lines : List Bytes) :
    scanLines db job jobCheck last check (line :: lines) =
      let st := behindLine db job jobCheck last check line
      match if st.m then none else st.result.or st.lastDefaultPerm with
      | some result => some result
      | none => scanLines db job jobCheck st.lastDefaultPerm st.check lines := by
  rw [scanLines, split_pieces, if_neg given]
  rfl

theorem Scan.Agrees.eq (agrees : st.Agrees st') (same : st.lastDefaultPerm = st'.lastDefaultPerm) :
    st = st' := by
  rcases st with ⟨_, _, _, _, _⟩
  rcases st' with ⟨_, _, _, _, _⟩
  obtain ⟨rfl, rfl, rfl, rfl⟩ := agrees
  cases same
  rfl

theorem scanLines_respaced (respaced : Respaced line line')
    (same : givenDefault line = givenDefault line') (rest : List Bytes) :
    scanLines db job jobCheck last check (line :: rest) =
      scanLines db job jobCheck last check (line' :: rest) := by
  have agrees : (behindLine db job jobCheck last check line).Agrees
      (behindLine db job jobCheck last check line') := behindLine_agrees respaced
  have equal := agrees.eq (by rw [behindLine_default, behindLine_default, same])
  rw [scanLines_cons respaced.given, scanLines_cons respaced.given', equal]

theorem scanLines_append {lines lines' : List Bytes}
    (same : ∀ last check, scanLines db job jobCheck last check lines =
      scanLines db job jobCheck last check lines') (front : List Bytes) :
    scanLines db job jobCheck last check (front ++ lines) =
      scanLines db job jobCheck last check (front ++ lines') := by
  induction front generalizing last check with
  | nil => exact same last check
  | cons line front ih => simp only [List.cons_append, scanLines, ih]

/-- A line that sets the default, or that sets it under another spacing, answers nothing itself. -/
theorem scanLines_single (respaced : Respaced line line')
    (sets : ¬(givenDefault line = none ∧ givenDefault line' = none)) :
    scanLines db job jobCheck last check [line] = (givenDefault line).or last ∧
      scanLines db job jobCheck last check [line'] = (givenDefault line').or last := by
  have agrees : (behindLine db job jobCheck last check line).Agrees
      (behindLine db job jobCheck last check line') := behindLine_agrees respaced
  have passed : (behindLine db job jobCheck last check line).m = true := by
    rcases not_and_or.mp sets with here | there
    · exact behindLine_m here
    · exact agrees.m.trans (behindLine_m there)
  have passed' := agrees.m.symm.trans passed
  rw [scanLines_cons respaced.given, scanLines_cons respaced.given']
  dsimp only
  rw [passed, passed', if_pos rfl, scanLines, scanLines, behindLine_default, behindLine_default]
  exact ⟨rfl, rfl⟩

theorem eq_of_or_eq {g g' : Option PermKey} (accept : g.or (some .accept) = g'.or (some .accept))
    (reject : g.or (some .reject) = g'.or (some .reject)) : g = g' := by
  rcases g with - | a <;> rcases g' with - | b
  · rfl
  · rw [← Option.some.inj accept] at reject
    cases reject
  · rw [Option.some.inj accept] at reject
    cases reject
  · exact accept

/-- Other blanks between the tokens of a line change no answer, whatever the lines around it and
the default are, exactly if the line sets the same default with them. -/
theorem permsCheck_respaced_iff (respaced : Respaced line line') :
    (∀ defaultPermission front rest,
      permsCheck db job jobCheck defaultPermission (front ++ line :: rest) check =
        permsCheck db job jobCheck defaultPermission (front ++ line' :: rest) check) ↔
      givenDefault line = givenDefault line' := by
  refine ⟨fun same => ?_, fun same defaultPermission front rest => ?_⟩
  · by_cases sets : givenDefault line = none ∧ givenDefault line' = none
    · rw [sets.1, sets.2]
    · have words : permVal (lit "ACCEPT") = some .accept ∧ permVal (lit "REJECT") = some .reject := by
        decide
      have accept := same (lit "ACCEPT") [] []
      have reject := same (lit "REJECT") [] []
      unfold permsCheck at accept reject
      rw [words.1] at accept
      rw [words.2] at reject
      simp only [List.nil_append, (scanLines_single respaced sets).1,
        (scanLines_single respaced sets).2] at accept reject
      exact eq_of_or_eq accept reject
  · exact scanLines_append (fun _ _ => scanLines_respaced respaced same rest) front

end Check

/-- A line that sets the default, with a tab in it and with two blanks. -/
theorem default_spellings :
    tokens (lit "DEFAULT ACCEPT") = tokens (lit "DEFAULT\tACCEPT") ∧
      tokens (lit "DEFAULT ACCEPT") = tokens (lit "DEFAULT  ACCEPT") ∧
      tokens (lit "DEFAULT ACCEPT") ≠ [] ∧
      givenDefault (lit "DEFAULT ACCEPT") = givenDefault (lit "DEFAULT\tACCEPT") := by
  decide

theorem tab_keeps_default :
    permsCheck noDatabases ⟨[], []⟩ false (lit "REJECT") [lit "DEFAULT\tACCEPT"] connectionCheck =
      some .accept := by
  obtain ⟨tab, -, given, same⟩ := default_spellings
  refine ((permsCheck_respaced_iff ⟨tab, given⟩).mpr same (lit "REJECT") [] []).symm.trans ?_
  decide

/-- With two blanks, the default is not set. -/
theorem blanks_lose_default :
    ¬∀ (db : Databases) (job : JobLists) (jobCheck : Bool) (check : PermCheck) (line line' : Bytes),
      Respaced line line' → ∀ defaultPermission front rest,
        permsCheck db job jobCheck defaultPermission (front ++ line :: rest) check =
          permsCheck db job jobCheck defaultPermission (front ++ line' :: rest) check := by
  intro same
  obtain ⟨-, blanks, given, -⟩ := default_spellings
  have kept := same noDatabases ⟨[], []⟩ false connectionCheck _ _ ⟨blanks, given⟩ (lit "REJECT") [] []
  exact absurd kept (by decide)

end Permission

end LPRng
