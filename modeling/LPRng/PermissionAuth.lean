import LPRng.PermissionAlias

/-!
# Requests without authentication

A request that is not authenticated has no `authuser`, `authfrom` and `authtype`. A line that asks for
authentication is then meant to be as good as absent. `AUTHSAMEUSER` compares the user of the request
with the one of the job, and finds them equal when both are missing.
-/

namespace LPRng

namespace Permission

/-! ## Lines that are passed by -/

/-- Lines that fail and set no default may be left out. -/
theorem decideLines_filter {misses keep : Bytes → Bool} {perms : List Bytes}
    (passed : ∀ line ∈ perms, keep line = false → misses line = true ∧ givenDefault line = none)
    (last : Option PermKey) :
    decideLines misses last (perms.filter keep) = decideLines misses last perms := by
  induction perms generalizing last with
  | nil => rfl
  | cons line perms ih =>
      rw [List.forall_mem_cons] at passed
      cases kept : keep line with
      | true =>
          rw [List.filter_cons_of_pos kept, decideLines, decideLines, ih passed.2]
      | false =>
          obtain ⟨missed, none⟩ := passed.1 kept
          rw [List.filter_cons_of_neg (by rw [kept]; decide), decideLines, missed, none, Bool.or_true, if_pos rfl,
            Option.none_or]
          exact ih passed.2 last

/-! ## Tests of authentication -/

/-- The tests that ask for authentication. -/
def TestKey.OfAuthentication : TestKey → Bool
  | auth | authtype | authuser | authfrom | authsameuser => true
  | _ => false

/-- Whether a line has a test with one of the keys and without `NOT`. -/
def asksFor (keys : TestKey → Bool) (line : Bytes) : Bool :=
  (lineTests false (pieces whitespace line)).any fun token =>
    match tokenKey token.2 with
    | some (.test key) => !token.1 && keys key
    | _ => false

/-- A record without authentication. -/
structure PermCheck.Anonymous (check : PermCheck) : Prop where
  authuser : check.authuser = none
  authfrom : check.authfrom = none
  authtype : check.authtype = none

/-- `AUTHSAMEUSER` tells an anonymous request from the job: it is no request for a job, or the job has
an authenticated user. -/
def TellsApart (job : JobLists) (check : PermCheck) : Prop :=
  check.service ∈ lit "QMC" → job.info.findStrValue authuser ≠ none

section

variable {db : Databases} {job : JobLists} {check : PermCheck} {line : Bytes}

theorem test_anonymous (anonymous : check.Anonymous) {key : TestKey} (asks : key.OfAuthentication = true)
    (apart : key = .authsameuser → TellsApart job check) (args : List Bytes) :
    (test db check job true key args false).1 = true := by
  cases key with
  | auth =>
      dsimp only [test, unlessConnection]
      rw [anonymous.authuser]
      split <;> rfl
  | authtype =>
      dsimp only [test, unlessConnection]
      rw [anonymous.authtype]
      split <;> rfl
  | authuser =>
      dsimp only [test, unlessConnection]
      rw [anonymous.authuser]
      split <;> rfl
  | authfrom =>
      dsimp only [test, unlessConnection]
      rw [anonymous.authfrom]
      split <;> rfl
  | authsameuser =>
      dsimp only [test, whenService]
      rw [anonymous.authuser, if_pos rfl]
      split
      · rename_i served
        have sent := apart rfl (List.contains_iff_mem.mp served)
        simpa using sent.symm
      · rfl
  | _ => cases asks

/-- What a line asks for is one test. -/
theorem asksFor_exists {keys : TestKey → Bool} (asks : asksFor keys line = true) :
    ∃ token ∈ lineTests false (pieces whitespace line), ∃ key,
      tokenKey token.2 = some (.test key) ∧ token.1 = false ∧ keys key = true := by
  obtain ⟨token, member, asked⟩ := List.any_eq_true.mp asks
  split at asked
  · rename_i key known
    obtain ⟨plain, among⟩ := Bool.and_eq_true_iff.mp asked
    exact ⟨token, member, key, known, by simpa using plain, among⟩
  · cases asked

theorem asksFor_of_mem {keys : TestKey → Bool} {token : Bool × Bytes} {key : TestKey}
    (member : token ∈ lineTests false (pieces whitespace line)) (known : tokenKey token.2 = some (.test key))
    (plain : token.1 = false) (among : keys key = true) : asksFor keys line = true := by
  refine List.any_eq_true.mpr ⟨token, member, ?_⟩
  rw [known, plain]
  exact among

/-- A list without lines that ask for authentication is as good as the list, unless `AUTHSAMEUSER` is
taken to hold. -/
theorem permsCheck_anonymous (anonymous : check.Anonymous) (defaultPermission : Bytes) {perms : List Bytes}
    (apart : ∀ line ∈ perms, asksFor (· = .authsameuser) line = true → TellsApart job check) :
    permsCheck db job true defaultPermission (perms.filter (!asksFor TestKey.OfAuthentication ·)) check =
      permsCheck db job true defaultPermission perms check := by
  rw [permsCheck_eq_decideLines, permsCheck_eq_decideLines]
  refine decideLines_filter (fun line member left => ?_) _
  have asks : asksFor TestKey.OfAuthentication line = true := by simpa using left
  obtain ⟨token, inside, key, known, plain, among⟩ := asksFor_exists asks
  constructor
  · refine List.any_eq_true.mpr ⟨token, inside, ?_⟩
    unfold tokenMisses
    rw [known, plain]
    refine test_anonymous anonymous among (fun same => apart line member ?_) _
    exact asksFor_of_mem inside known plain (decide_eq_true same)
  · have tested : hasTest key line = true := List.any_eq_true.mpr ⟨token, inside, decide_eq_true known⟩
    exact givenDefault_of_hasTest tested

/-! ## A line that asks for the user of the job -/

def sameUserLine : Bytes := lit "ACCEPT AUTHSAMEUSER"

theorem sameUserLine_texts :
    (lineTests false (pieces whitespace sameUserLine) = [(false, lit "ACCEPT"), (false, lit "AUTHSAMEUSER")] ∧
      pieces whitespace sameUserLine ≠ [] ∧ lineAction sameUserLine = some .accept) ∧
    (asksFor TestKey.OfAuthentication sameUserLine = true ∧ permVal (lit "REJECT") = some .reject) ∧
      tokenKey (lit "ACCEPT") = some .accept ∧ tokenKey (lit "AUTHSAMEUSER") = some (.test .authsameuser) := by
  decide

variable (db) in
/-- Where nothing tells an anonymous request from the job, the line accepts it. -/
theorem permsCheck_sameUserLine (anonymous : check.Anonymous) (alike : ¬TellsApart job check) :
    permsCheck db job true (lit "REJECT") [sameUserLine] check = some .accept ∧
      permsCheck db job true (lit "REJECT")
        ([sameUserLine].filter (!asksFor TestKey.OfAuthentication ·)) check = some .reject := by
  obtain ⟨⟨tests, given, action⟩, ⟨asks, rejects⟩, acceptKey, sameuserKey⟩ := sameUserLine_texts
  obtain ⟨served, unsent⟩ := Classical.not_imp.mp alike
  have none : job.info.findStrValue authuser = none := Decidable.not_not.mp unsent
  have holds : lineMisses db job true check sameUserLine = false := by
    unfold lineMisses
    rw [tests, List.any_cons, List.any_cons, List.any_nil, tokenMisses, acceptKey, tokenMisses, sameuserKey]
    dsimp only [test, whenService]
    rw [List.contains_iff_mem.mpr served, anonymous.authuser, none]
    rfl
  constructor
  · rw [permsCheck_eq_decideLines, decideLines, holds, if_neg (by simp [given]), action]
    rfl
  · rw [List.filter_cons_of_neg (by simp [asks]), permsCheck_eq_decideLines]
    exact rejects

/-- An anonymous request gains nothing from tests of authentication, in any list and with any default,
exactly if it is no request for a job or the job has an authenticated user. -/
theorem anonymous_gains_nothing_iff (db : Databases) (job : JobLists) (anonymous : check.Anonymous) :
    (∀ defaultPermission perms,
      permsCheck db job true defaultPermission perms check =
        permsCheck db job true defaultPermission (perms.filter (!asksFor TestKey.OfAuthentication ·)) check) ↔
      TellsApart job check := by
  constructor
  · intro same
    by_contra alike
    obtain ⟨accepted, rejected⟩ := permsCheck_sameUserLine db anonymous alike
    have equal := same (lit "REJECT") [sameUserLine]
    rw [accepted, rejected] at equal
    cases equal
  · intro apart defaultPermission perms
    exact (permsCheck_anonymous anonymous defaultPermission fun _ _ _ => apart).symm

end

/-! ## Two removals -/

/-- A request of `papa` to remove jobs, without authentication. -/
def removeCheck : PermCheck :=
  ⟨some (lit "mama"), some (lit "papa"), none, none, 0, some (lit "lp"), false, 77, none, none, none, none, none⟩

/-- The job of an authenticated user. -/
def authenticatedJob : JobLists := ⟨[lit "authuser=mama"], []⟩

theorem removeCheck_anonymous : removeCheck.Anonymous := ⟨rfl, rfl, rfl⟩

theorem authenticatedJob_protected :
    permsCheck noDatabases authenticatedJob true (lit "REJECT") [sameUserLine] removeCheck =
      permsCheck noDatabases authenticatedJob true (lit "REJECT")
        ([sameUserLine].filter (!asksFor TestKey.OfAuthentication ·)) removeCheck := by
  have sent : authenticatedJob.info.findStrValue authuser ≠ none := by decide +kernel
  exact (anonymous_gains_nothing_iff noDatabases authenticatedJob removeCheck_anonymous).mpr (fun _ => sent)
    (lit "REJECT") [sameUserLine]

/-- The job of a user without authentication is given away: the request is accepted for `AUTHSAMEUSER`. -/
theorem anonymous_accepted :
    permsCheck noDatabases ⟨[], []⟩ true (lit "REJECT") [sameUserLine] removeCheck ≠
      permsCheck noDatabases ⟨[], []⟩ true (lit "REJECT")
        ([sameUserLine].filter (!asksFor TestKey.OfAuthentication ·)) removeCheck := by
  have alike : ¬TellsApart ⟨[], []⟩ removeCheck := fun apart => apart (by decide) (by decide +kernel)
  obtain ⟨accepted, rejected⟩ := permsCheck_sameUserLine noDatabases removeCheck_anonymous alike
  rw [accepted, rejected]
  decide

end Permission

end LPRng
