import LPRng.PermissionLines
import LPRng.GlobPattern

/-!
# Control line tests

The test `C=A*,B*` is meant to look at the class of a job, the line of its control information for the
letter `C`. `Perms_check` takes the key off the test before it looks at the patterns, and then reads
the letter of the line from the front of each pattern.
-/

namespace LPRng

namespace Permission

/-- What the manual says of the test: the job has a line for the letter, and its text matches one of
the patterns. -/
def HasLine (db : Databases) (job : JobLists) (letter : UInt8) (patterns : List Bytes) : Prop :=
  ∃ s, job.info.findStrValue [letter] = some s ∧ ∃ p ∈ patterns, globPattern db.behind p s = false

/-- The patterns match the same texts as they do without their letters, where each has the letter of
the test; a pattern with another letter matches nothing behind it. -/
structure PatternsAgree (db : Databases) (letter : UInt8) (patterns : List Bytes) : Prop where
  own : ∀ s, (∃ t, letter :: t ∈ patterns ∧ globPattern db.behind t s = false) ↔
    ∃ p ∈ patterns, globPattern db.behind p s = false
  other : ∀ c t, c :: t ∈ patterns → isUpper c = true → c ≠ letter → ∀ s, globPattern db.behind t s = true

section

variable {db : Databases} {job : JobLists} {check : PermCheck} {letter c : UInt8} {patterns : List Bytes} {value : Bytes}

/-- What the test is: some pattern begins with a letter whose line matches the rest of it. -/
theorem controlline_iff (upper : isUpper letter = true) (parts : pieces permSep value = [letter] :: patterns) :
    tokenMisses db job true check false value = false ↔
      ∃ c t, c :: t ∈ patterns ∧ isUpper c = true ∧
        ∃ s, job.info.findStrValue [c] = some s ∧ globPattern db.behind t s = false := by
  have key : tokenKey value = some (.test .controlline) := by
    rw [tokenKey, parts, List.head?_cons, Option.bind_some, permVal, List.headD_cons, upper]
    rfl
  unfold tokenMisses
  rw [key, parts]
  dsimp only [test, List.tail_cons]
  rw [if_neg Bool.false_ne_true, if_pos rfl, List.all_eq_false]
  constructor
  · rintro ⟨pattern, member, matched⟩
    cases pattern with
    | nil => exact absurd rfl matched
    | cons c t =>
        rw [controllineMisses] at matched
        split at matched
        · cases found : job.info.findStrValue [c] with
          | none =>
              rw [found] at matched
              exact absurd rfl matched
          | some s =>
              rw [found] at matched
              exact ⟨c, t, member, ‹_›, s, found, Bool.eq_false_iff.mpr matched⟩
        · exact absurd rfl matched
  · rintro ⟨c, t, member, capital, s, found, matched⟩
    refine ⟨c :: t, member, ?_⟩
    rw [controllineMisses, if_pos capital, found]
    exact Bool.eq_false_iff.mp matched

/-- A job with one line. -/
def oneLine (c : UInt8) (s : Bytes) : JobLists := ⟨[c :: 61 :: s], []⟩

theorem upper_free (upper : isUpper c = true) : SepFree [c] := by
  have table : ∀ c : UInt8, (!isUpper c || !optionValueSep.contains c) = true := forall_byte (by decide +kernel)
  intro d member
  rw [List.mem_singleton.mp member]
  have outside := table c
  rw [upper] at outside
  simpa using outside

theorem foldCase_upper (upper : isUpper letter = true) (upper' : isUpper c = true) (same : foldCase [c] = foldCase [letter]) :
    c = letter := by
  have table : ∀ c : UInt8, (!isUpper c || (toLower c).toNat = c.toNat + 32) = true := forall_byte (by decide +kernel)
  have shifted : ∀ {d : UInt8}, isUpper d = true → (toLower d).toNat = d.toNat + 32 := by
    intro d capital
    have shape := table d
    rw [capital] at shape
    simpa using shape
  have heads : (toLower c).toNat = (toLower letter).toNat := (List.cons.inj same).1
  rw [shifted upper, shifted upper'] at heads
  exact UInt8.toNat_inj.mp (by omega)

theorem findStrValue_oneLine (upper : isUpper letter = true) (upper' : isUpper c = true) (s : Bytes) :
    (oneLine c s).info.findStrValue [letter] = if c = letter then some s else none := by
  have free := upper_free upper'
  have clear : Clear ([c] ++ 61 :: s) := clear_keyValue free s
  have found : LineList.findStrValue [[c] ++ 61 :: s] [letter] =
      if foldCase [letter] = lineKey ([c] ++ 61 :: s) then valueOf ([c] ++ 61 :: s)
      else LineList.findStrValue [] [letter] := LineList.keyed_nil.findStrValue_insert clear
  rw [lineKey_keyValue free, valueOf_keyValue free] at found
  change LineList.findStrValue [[c] ++ 61 :: s] [letter] = _
  rw [found]
  by_cases same : c = letter
  · rw [if_pos same, if_pos (by rw [same])]
  · rw [if_neg same, if_neg fun equal => same (foldCase_upper upper upper' equal.symm), LineList.keyed_nil.findStrValue]
    rfl

/-- The test holds of every job as the manual says exactly if its patterns agree with what they match
behind their letters. -/
theorem controlline_documented_iff (db : Databases) (upper : isUpper letter = true)
    (parts : pieces permSep value = [letter] :: patterns) :
    (∀ job check, tokenMisses db job true check false value = false ↔ HasLine db job letter patterns) ↔
      PatternsAgree db letter patterns := by
  constructor
  · intro documented
    have single : ∀ {c : UInt8}, isUpper c = true → ∀ s,
        (∃ t, c :: t ∈ patterns ∧ globPattern db.behind t s = false) ↔ HasLine db (oneLine c s) letter patterns := by
      intro c capital s
      rw [← documented (oneLine c s) connectionCheck, controlline_iff upper parts]
      constructor
      · rintro ⟨t, member, matched⟩
        refine ⟨c, t, member, capital, s, ?_, matched⟩
        rw [findStrValue_oneLine capital capital, if_pos rfl]
      · rintro ⟨d, t, member, capital', s', found, matched⟩
        rw [findStrValue_oneLine capital' capital] at found
        split at found
        · rename_i same
          cases found
          exact ⟨t, same ▸ member, matched⟩
        · cases found
    constructor
    · intro s
      rw [single upper s, HasLine]
      constructor
      · rintro ⟨s', found, matched⟩
        rw [findStrValue_oneLine upper upper, if_pos rfl] at found
        cases found
        exact matched
      · intro matched
        exact ⟨s, by rw [findStrValue_oneLine upper upper, if_pos rfl], matched⟩
    · intro c t member capital different s
      by_contra matched
      obtain ⟨s', found, -⟩ := (single capital s).mp ⟨t, member, Bool.eq_false_iff.mpr matched⟩
      rw [findStrValue_oneLine upper capital, if_neg different] at found
      cases found
  · intro agree job check
    rw [controlline_iff upper parts]
    constructor
    · rintro ⟨c, t, member, capital, s, found, matched⟩
      have same : c = letter := by
        by_contra other
        rw [agree.other c t member capital other s] at matched
        cases matched
      subst same
      exact ⟨s, found, (agree.own s).mp ⟨t, member, matched⟩⟩
    · rintro ⟨s, found, matched⟩
      obtain ⟨t, member, matched⟩ := (agree.own s).mpr matched
      exact ⟨letter, t, member, upper, s, found, matched⟩

end

/-! ## The class of a job -/

theorem globPattern_star (behind s : Bytes) : globPattern behind [42] s = false := by
  rw [Globmatch.globPattern_wild (by decide)]
  rfl

/-- With `C*,*` the letter stands in front of a pattern, and both readings hold of every class. -/
theorem class_accepted :
    tokenMisses noDatabases (oneLine 67 (lit "Alpha")) true connectionCheck false (lit "C=C*,*") = false ↔
      HasLine noDatabases (oneLine 67 (lit "Alpha")) 67 [[67, 42], [42]] := by
  have agree : PatternsAgree noDatabases 67 [[67, 42], [42]] := by
    refine ⟨fun s => ?_, fun c t member capital different s => ?_⟩
    · constructor
      · intro _
        exact ⟨[42], by simp, globPattern_star _ _⟩
      · intro _
        exact ⟨[42], by simp, globPattern_star _ _⟩
    · simp only [List.mem_cons, List.cons.injEq, List.not_mem_nil, or_false] at member
      rcases member with ⟨own, -⟩ | ⟨rfl, -⟩
      · exact absurd own different
      · cases capital
  have parts : pieces permSep (lit "C=C*,*") = [67] :: [[67, 42], [42]] := by decide
  exact (controlline_documented_iff noDatabases (by decide) parts).mpr agree _ _

/-- `C=A*,B*` for a job of the class `Alpha` without a line for the letter `A`. -/
theorem class_refused :
    tokenMisses noDatabases (oneLine 67 (lit "Alpha")) true connectionCheck false (lit "C=A*,B*") = true ∧
      HasLine noDatabases (oneLine 67 (lit "Alpha")) 67 [lit "A*", lit "B*"] := by
  have parts : pieces permSep (lit "C=A*,B*") = [67] :: [lit "A*", lit "B*"] := by decide
  constructor
  · rw [← Bool.not_eq_false, controlline_iff (by decide) parts]
    rintro ⟨c, t, member, capital, s, found, -⟩
    rw [findStrValue_oneLine capital (by decide)] at found
    have other : c = 65 ∨ c = 66 := by
      rcases List.mem_pair.mp member with same | same
      · exact .inl (List.cons.inj same).1
      · exact .inr (List.cons.inj same).1
    rcases other with rfl | rfl <;> cases found
  · have capital : isUpper 67 = true := by decide
    have found := findStrValue_oneLine capital capital (lit "Alpha")
    refine ⟨lit "Alpha", found, lit "A*", by simp, ?_⟩
    refine Globmatch.globPattern_of_globReads ?_
    rw [Globmatch.globReads_eq_search (by decide)]
    rfl

end Permission

end LPRng
