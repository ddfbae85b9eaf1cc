import LPRng.DoneJobs
import LPRng.Job
import LPRng.PermissionTests

/-!
# The jobs lprm removes

`Get_queue_remove` goes over the sort order of a queue. With words in the request it removes the
jobs that a word selects, without one the first job, and of these only jobs that the requester may
remove. For a printer of another host the request is passed on: the user is put in front of the
words in their list, and is taken out again.
-/

namespace LPRng

namespace JobLists

namespace Lprm

open Permission (globPattern)
open JobNumber (ofBase)
open DoneJobs (WellKept without)

def logname : Bytes := lit "P"
def identifier : Bytes := lit "A"

/-! ## Words -/

/-- The number of a job. -/
def jobNumber (job : JobLists) : Int := decimalOfText (job.info.findValue number)

/-- Whether a word of the request selects a job. -/
def wordSelects (behind : Bytes) (job : JobLists) (key : Bytes) : Bool :=
  strcasecmp key (lit "all") = .eq ||
    if (strtol 10 key).2 = [] then toInt32 (strtol 10 key).1 = jobNumber job
    else [logname, identifier].any fun field => (job.info.findStrValue field).any (!globPattern behind key ·)

/-- `Patselect` on the ticket of a job, which answers 0 if there is a match. -/
def patselect (behind : Bytes) (tokens : List Bytes) (job : JobLists) : Bool :=
  tokens.all (!wordSelects behind job ·)

/-! ## The list of words -/

/-- The loop that moves the first `i` lines up by one, from the last one on. -/
def moveUp (list : Nat → Option Bytes) : Nat → Nat → Option Bytes
  | 0 => list
  | i + 1 => moveUp (Function.update list (i + 1) (list i)) i

/-- The loop that moves `i` lines down by one, from the first one on. -/
def moveDown (list : Nat → Option Bytes) (i : Nat) : Nat → Option Bytes :=
  (List.range i).foldl (fun list i => Function.update list i (list (i + 1))) list

theorem moveUp_apply (list : Nat → Option Bytes) (n i : Nat) :
    moveUp list n i = if 0 < i ∧ i ≤ n then list (i - 1) else list i := by
  induction n generalizing list with
  | zero =>
      rw [moveUp, if_neg]
      omega
  | succ n ih =>
      rw [moveUp, ih]
      by_cases last : i = n + 1
      · subst last
        rw [if_neg (by omega), if_pos (by omega), Function.update_self, Nat.add_sub_cancel]
      · by_cases inside : 0 < i ∧ i ≤ n
        · rw [if_pos inside, if_pos (by omega), Function.update_of_ne (by omega)]
        · rw [if_neg inside, if_neg (by omega), Function.update_of_ne last]

theorem moveDown_apply (list : Nat → Option Bytes) (n i : Nat) :
    moveDown list n i = if i < n then list (i + 1) else list i := by
  induction n generalizing i with
  | zero => rfl
  | succ n ih =>
      rw [moveDown, List.range_succ, List.foldl_append, List.foldl_cons, List.foldl_nil, ← moveDown]
      by_cases last : i = n
      · subst last
        rw [Function.update_self, ih, if_neg (by omega), if_pos (by omega)]
      · rw [Function.update_of_ne last, ih]
        exact if_congr (by omega) rfl rfl

/-- The memory of a list, and how many of its lines are used. -/
structure Tokens where
  list : Nat → Option Bytes
  count : Nat
  full : ∀ i < count, (list i).isSome

namespace Tokens

def lines (tokens : Tokens) : List Bytes := (List.range tokens.count).filterMap tokens.list

/-- The user is put in front, and a null pointer behind. -/
def putUser (user : Bytes) (tokens : Tokens) : Tokens where
  list := Function.update (Function.update (moveUp tokens.list tokens.count) 0 (some user)) (tokens.count + 1) none
  count := tokens.count + 1
  full i inside := by
    rw [Function.update_of_ne (by omega)]
    cases i with
    | zero => rfl
    | succ i =>
        rw [Function.update_of_ne (Nat.succ_ne_zero i), moveUp_apply, if_pos (by omega)]
        exact tokens.full i (by omega)

def dropUser (tokens : Tokens) : Tokens where
  list := moveDown tokens.list tokens.count
  count := tokens.count - 1
  full i inside := by
    rw [moveDown_apply, if_pos (by omega)]
    exact tokens.full (i + 1) (by omega)

/-- Other hosts get the user in front of the words. -/
theorem lines_putUser (user : Bytes) (tokens : Tokens) : (tokens.putUser user).lines = user :: tokens.lines := by
  have front : (tokens.putUser user).list 0 = some user := rfl
  have rest : ∀ i < tokens.count, (tokens.putUser user).list (i + 1) = tokens.list i := by
    intro i inside
    change Function.update (Function.update _ _ _) _ _ _ = _
    rw [Function.update_of_ne (by omega), Function.update_of_ne (Nat.succ_ne_zero i), moveUp_apply, if_pos (by omega)]
    rfl
  change (List.range (tokens.count + 1)).filterMap _ = _
  rw [List.range_succ_eq_map, List.filterMap_cons, front, List.filterMap_map]
  exact congrArg (user :: ·) (List.filterMap_congr fun i member => rest i (List.mem_range.mp member))

theorem lines_dropUser (tokens : Tokens) : tokens.dropUser.lines = tokens.lines.tail := by
  have shape : ∀ i < tokens.count - 1, tokens.dropUser.list i = tokens.list (i + 1) := by
    intro i inside
    change moveDown _ _ _ = _
    rw [moveDown_apply, if_pos (by omega)]
  change (List.range (tokens.count - 1)).filterMap _ = _
  rw [List.filterMap_congr fun i member => shape i (List.mem_range.mp member), lines]
  cases size : tokens.count with
  | zero => rfl
  | succ n =>
      rcases Option.isSome_iff_exists.mp (tokens.full 0 (by omega)) with ⟨first, here⟩
      rw [List.range_succ_eq_map, List.filterMap_cons, here, List.filterMap_map, Nat.add_sub_cancel]
      rfl

end Tokens

/-! ## One queue -/

/-- What a removal depends on besides the queue: what stands in memory behind a text that is compared
with a pattern, whether the requester has control permission, whether permission for a job is
rejected, and the files that can be unlinked. -/
structure Requester where
  user : Bytes
  behind : Bytes
  control : Bool
  rejects : JobLists → Bool
  unlinks : Bytes → Bool

/-- The lines of the jobs that were removed, the directory behind that, and whether a removal failed. -/
structure Swept where
  removed : List Bytes
  dir : SpoolDir
  failed : Bool

/-- The loop over the sort order. -/
def sweep (requester : Requester) (tokens : List Bytes) (dir : SpoolDir) : LineList → Swept
  | [] => ⟨[], dir, false⟩
  | line :: lines =>
      let job := readTicket dir line
      if tokens ≠ [] ∧ patselect requester.behind tokens job then sweep requester tokens dir lines
      else if !requester.control && requester.rejects job then sweep requester tokens dir lines
      else
        let (dir, failed) := removeJob requester.unlinks dir job
        if failed then ⟨[], dir, true⟩
        else if tokens = [] then ⟨[line], dir, false⟩
        else
          let rest := sweep requester tokens dir lines
          { rest with removed := line :: rest.removed }

/-- What a request leaves: the lines of the jobs removed, the directory, the list of words, and the
words that other hosts were sent. -/
structure Handled where
  removed : List Bytes
  dir : SpoolDir
  tokens : Tokens
  sent : List (List Bytes)

/-- `Get_queue_remove` at a queue that was not met before, with the printers of other hosts it leads to. -/
def getQueueRemove (requester : Requester) (config : OrderConfig) (remotes : Nat) (tokens : Tokens) (dir : SpoolDir) :
    Handled :=
  let swept := sweep requester tokens.lines dir (scanQueue config scanAll dir)
  if swept.failed then ⟨swept.removed, swept.dir, tokens, []⟩
  else
    (List.range remotes).foldl (fun handled _ =>
      let tokens := handled.tokens.putUser requester.user
      { handled with tokens := tokens.dropUser, sent := handled.sent ++ [tokens.lines] })
      ⟨swept.removed, swept.dir, tokens, []⟩

/-! ## What is expected -/

/-- A decimal number as C reads it: white space, a sign, and digits. -/
def Decimal (word : Bytes) (n : Int) : Prop :=
  ∃ blanks sign digits : Bytes, word = blanks ++ sign ++ digits ∧ (∀ c ∈ blanks, isSpace c = true) ∧
    (sign = [] ∨ sign = [43] ∨ sign = [45]) ∧ digits ≠ [] ∧ (∀ c ∈ digits, isDigit c = true) ∧
    n = if sign = [45] then -(ofBase 10 digits : Int) else ofBase 10 digits

/-- Whether a word means a job: it is `all`, the number of the job, or no number but a pattern for the name
of the user or for the identifier. -/
def Means (behind word : Bytes) (job : JobLists) : Prop :=
  strcasecmp word (lit "all") = .eq ∨ Decimal word (jobNumber job) ∨
    (∀ n, ¬ Decimal word n) ∧ ∃ field ∈ [logname, identifier], ∃ text, job.info.findStrValue field = some text ∧
      globPattern behind word text = false

/-- A word that is not empty and no number beyond an `int`. -/
def Proper (word : Bytes) : Prop := word ≠ [] ∧ ∀ n, Decimal word n → -2 ^ 31 ≤ n ∧ n < 2 ^ 31

/-- A job that the requester may remove. -/
def Requester.Allowed (requester : Requester) (job : JobLists) : Prop :=
  requester.control = true ∨ requester.rejects job = false

/-- The jobs a request removes of those in the sort order. -/
structure Selects (requester : Requester) (tokens : List Bytes) (tickets removed : List (Bytes × JobLists)) : Prop where
  order : removed.Sublist tickets
  /-- With words all that a word means. -/
  words : tokens ≠ [] → ∀ ticket, ticket ∈ removed ↔ ticket ∈ tickets ∧
    (∃ word ∈ tokens, Means requester.behind word ticket.2) ∧ requester.Allowed ticket.2
  /-- Without words the first one. -/
  first : tokens = [] → ∀ ticket, ticket ∈ removed ↔ ∃ before rest, tickets = before ++ ticket :: rest ∧
    requester.Allowed ticket.2 ∧ ∀ other ∈ before, ¬ requester.Allowed other.2

/-- The files of the jobs removed are gone, and those of all other jobs are there as before. -/
structure Unlinked (removed : List (Bytes × JobLists)) (dir after : SpoolDir) : Prop where
  gone : ∀ ticket ∈ removed, ∀ name ∈ ticket.1 :: ticket.2.files, after.lookup name = none
  kept : ∀ ticket ∈ listed scanAll dir, ticket ∉ removed → ∀ name ∈ ticket.1 :: ticket.2.files,
    after.lookup name = dir.lookup name
  others : ∀ name, (∀ ticket ∈ removed, name ∉ ticket.2.files) → after.lookup name = dir.lookup name

/-! ## Words and numbers -/

variable {word : Bytes} {n : Int} {behind : Bytes} {job : JobLists}

theorem isDigit_iff (c : UInt8) : isDigit c = true ↔ digitVal c < 10 := by
  have table : ∀ c : UInt8, (isDigit c == decide (digitVal c < 10)) = true := forall_byte (by decide +kernel)
  rw [beq_iff_eq.mp (table c), decide_eq_true_eq]

/-- What stands behind white space. -/
theorem dropWhile_blanks {blanks rest : Bytes} (spaces : ∀ c ∈ blanks, isSpace c = true)
    (stops : ∀ c ∈ rest.head?, isSpace c = false) : (blanks ++ rest).dropWhile isSpace = rest := by
  rw [List.dropWhile_append_of_pos spaces]
  cases rest with
  | nil => rfl
  | cons c rest => rw [List.dropWhile_cons, stops c rfl, if_neg Bool.false_ne_true]

theorem Decimal.strtol_eq (decimal : Decimal word n) : strtol 10 word = (clampLong n, []) := by
  rcases decimal with ⟨blanks, sign, digits, rfl, spaces, signs, nonempty, decimals, rfl⟩
  rcases List.exists_cons_of_ne_nil nonempty with ⟨d, ds, rfl⟩
  have plain := plain_of_isDigit (decimals d List.mem_cons_self)
  have small : ∀ c ∈ d :: ds, digitVal c < 10 := fun c member => (isDigit_iff c).mp (decimals c member)
  have begins : ∀ c ∈ (sign ++ d :: ds).head?, isSpace c = false := by
    intro c first
    rcases signs with rfl | rfl | rfl <;> cases first
    · exact plain.1
    · rfl
    · rfl
  have unsigned : (if (sign ++ d :: ds).head? = some 45 ∨ (sign ++ d :: ds).head? = some 43 then
      (sign ++ d :: ds).tail else sign ++ d :: ds) = d :: ds := by
    rcases signs with rfl | rfl | rfl
    · rw [if_neg]
      · rfl
      · intro signed
        exact signed.elim (fun minus => plain.2.1 (Option.some.inj minus)) fun plus => plain.2.2 (Option.some.inj plus)
    · rfl
    · rfl
  have negative : (sign ++ d :: ds).head? = some 45 ↔ sign = [45] := by
    rcases signs with rfl | rfl | rfl
    · exact ⟨fun minus => absurd (Option.some.inj minus) plain.2.1, nofun⟩
    · exact ⟨nofun, nofun⟩
    · exact ⟨fun _ => rfl, fun _ => rfl⟩
  rw [List.append_assoc, strtol, dropWhile_blanks spaces begins]
  dsimp only
  have base : strtolBase 10 (d :: ds) = (10, d :: ds) := rfl
  rw [unsigned, base, if_pos ⟨d, rfl, small d List.mem_cons_self⟩, JobNumber.scanNat_eq_ofBase small]
  exact congrArg (fun m => (clampLong m, ([] : Bytes))) (if_congr negative rfl rfl)

/-- A word that is read up to its end is empty or a number. -/
theorem decimal_of_strtol (whole : (strtol 10 word).2 = []) : word = [] ∨ ∃ n, Decimal word n := by
  have parts := List.takeWhile_append_dropWhile (p := isSpace) (l := word)
  have spaces : ∀ c ∈ word.takeWhile isSpace, isSpace c = true := fun c member => List.mem_takeWhile_imp member
  rw [strtol] at whole
  dsimp only at whole
  generalize word.takeWhile isSpace = blanks at parts spaces
  generalize word.dropWhile isSpace = rest at parts whole
  have signed : ∃ sign, (sign = [] ∨ sign = [43] ∨ sign = [45]) ∧
      rest = sign ++ if rest.head? = some 45 ∨ rest.head? = some 43 then rest.tail else rest := by
    by_cases signs : rest.head? = some 45 ∨ rest.head? = some 43
    · rw [if_pos signs]
      cases rest with
      | nil => rcases signs with ends | ends <;> cases ends
      | cons c rest =>
          have same : c = 45 ∨ c = 43 := signs.imp Option.some.inj Option.some.inj
          refine ⟨[c], ?_, rfl⟩
          rcases same with rfl | rfl
          · exact .inr (.inr rfl)
          · exact .inr (.inl rfl)
    · rw [if_neg signs]
      exact ⟨[], .inl rfl, rfl⟩
  rcases signed with ⟨sign, signs, shape⟩
  generalize (if rest.head? = some 45 ∨ rest.head? = some 43 then rest.tail else rest) = digits at whole shape
  have base : strtolBase 10 digits = (10, digits) := rfl
  rw [base] at whole
  split at whole
  next first =>
      rcases first with ⟨c, first, -⟩
      have small := digitVal_of_scanNat whole
      refine .inr ⟨_, blanks, sign, digits, ?_, spaces, signs, ?_, fun c member => (isDigit_iff c).mpr (small c member), rfl⟩
      · rw [List.append_assoc, ← shape, parts]
      · intro empty
        rw [empty] at first
        cases first
  next => exact .inl whole

/-- A proper number is read as it is. -/
theorem Decimal.toInt32_strtol (decimal : Decimal word n) (proper : Proper word) : toInt32 (strtol 10 word).1 = n := by
  have bounds := proper.2 n decimal
  have clamped : clampLong n = n := by
    unfold clampLong
    omega
  rw [decimal.strtol_eq, clamped]
  exact Int.bmod_eq_of_le (by omega) (by omega)

theorem wordSelects_iff (proper : Proper word) : wordSelects behind job word = true ↔ Means behind word job := by
  unfold wordSelects Means
  rw [Bool.or_eq_true, decide_eq_true_eq]
  refine or_congr Iff.rfl ?_
  by_cases whole : (strtol 10 word).2 = []
  · rcases (decimal_of_strtol whole).resolve_left proper.1 with ⟨n, decimal⟩
    rw [if_pos whole, decide_eq_true_eq, decimal.toInt32_strtol proper]
    constructor
    · intro same
      exact .inl (same ▸ decimal)
    · intro means
      rcases means with same | other
      · rw [← decimal.toInt32_strtol proper, same.toInt32_strtol proper]
      · exact absurd decimal (other.1 n)
  · have none : ∀ n, ¬ Decimal word n := by
      intro n decimal
      exact whole (congrArg Prod.snd decimal.strtol_eq)
    rw [if_neg whole, List.any_eq_true]
    simp only [none, false_or, not_false_eq_true, forall_const, true_and, Option.any_eq_true, Bool.not_eq_true']

theorem patselect_iff {tokens : List Bytes} (proper : ∀ word ∈ tokens, Proper word) :
    patselect behind tokens job = false ↔ ∃ word ∈ tokens, Means behind word job := by
  rw [patselect, List.all_eq_false]
  refine exists_congr fun word => and_congr_right fun member => ?_
  rw [Bool.not_eq_true', Bool.not_eq_false, wordSelects_iff (proper word member)]

/-! ## The loop -/

variable {requester : Requester} {tokens : List Bytes} {tickets removed : List (Bytes × JobLists)} {config : OrderConfig}
  {dir after : SpoolDir} {ticket : Bytes × JobLists}

def Requester.allows (requester : Requester) (job : JobLists) : Bool := requester.control || !requester.rejects job

theorem Requester.allows_iff (requester : Requester) (job : JobLists) :
    requester.allows job = true ↔ requester.Allowed job := by
  rw [allows, Bool.or_eq_true, Bool.not_eq_true']
  exact Iff.rfl

/-- The jobs the loop removes, in their order. -/
def chosen (requester : Requester) (tokens : List Bytes) (tickets : List (Bytes × JobLists)) : List (Bytes × JobLists) :=
  if tokens = [] then (tickets.find? fun ticket => requester.allows ticket.2).toList
  else tickets.filter fun ticket => !patselect requester.behind tokens ticket.2 && requester.allows ticket.2

theorem chosen_cons (requester : Requester) (tokens : List Bytes) (ticket : Bytes × JobLists)
    (tickets : List (Bytes × JobLists)) : chosen requester tokens (ticket :: tickets) =
      if tokens ≠ [] ∧ patselect requester.behind tokens ticket.2 then chosen requester tokens tickets
      else if !requester.allows ticket.2 then chosen requester tokens tickets
      else ticket :: if tokens = [] then [] else chosen requester tokens tickets := by
  unfold chosen
  by_cases none : tokens = []
  · simp only [none, ne_eq, not_true_eq_false, false_and, if_false, List.find?_cons]
    cases requester.allows ticket.2 <;> rfl
  · simp only [none, ne_eq, not_false_eq_true, true_and, List.filter_cons]
    cases patselect requester.behind tokens ticket.2 <;> cases requester.allows ticket.2 <;> rfl

/-- The loop removes the chosen jobs, as each ticket reads as before when its turn comes. -/
theorem sweep_eq (unlinks : ∀ name, requester.unlinks name = true) (config : OrderConfig)
    (apart : tickets.Pairwise fun s t => t.1 ∉ s.2.files) (dir : SpoolDir)
    (reads : ∀ t ∈ tickets, readTicket dir (sortLine config t) = t.2) :
    sweep requester tokens dir (tickets.map (sortLine config)) =
      ⟨(chosen requester tokens tickets).map (sortLine config),
        without requester.unlinks (chosen requester tokens tickets) dir, false⟩ := by
  induction tickets generalizing dir with
  | nil =>
      have nothing : chosen requester tokens [] = [] := by
        unfold chosen
        split <;> rfl
      rw [nothing, DoneJobs.without_nil]
      rfl
  | cons ticket tickets ih =>
      rcases List.pairwise_cons.mp apart with ⟨here, others⟩
      rcases List.forall_mem_cons.mp reads with ⟨read, reads⟩
      have refused : (!requester.control && requester.rejects ticket.2) = !requester.allows ticket.2 := by
        rw [Requester.allows, Bool.not_or, Bool.not_not]
      rw [List.map_cons, sweep, chosen_cons]
      dsimp only
      rw [read, refused]
      by_cases passed : tokens ≠ [] ∧ patselect requester.behind tokens ticket.2 = true
      · rw [if_pos passed, if_pos passed]
        exact ih others dir reads
      rw [if_neg passed, if_neg passed]
      by_cases rejected : (!requester.allows ticket.2) = true
      · rw [if_pos rejected, if_pos rejected]
        exact ih others dir reads
      have reads' : ∀ t ∈ tickets, readTicket (removeJob requester.unlinks dir ticket.2).1 (sortLine config t) = t.2 := by
        intro t member
        rw [DoneJobs.removeJob_without, DoneJobs.readTicket_without fun s only => List.mem_singleton.mp only ▸ here t member]
        exact reads t member
      rw [if_neg rejected, if_neg rejected, removeJob_succeeds unlinks dir ticket.2, if_neg Bool.false_ne_true]
      by_cases none : tokens = []
      · rw [if_pos none, if_pos none, DoneJobs.removeJob_without]
        rfl
      · rw [if_neg none, if_neg none, ih others _ reads', DoneJobs.removeJob_without, ← DoneJobs.without_append]
        rfl

theorem selects_chosen (proper : ∀ word ∈ tokens, Proper word) (tickets : List (Bytes × JobLists)) :
    Selects requester tokens tickets (chosen requester tokens tickets) := by
  refine ⟨?_, fun some ticket => ?_, fun none ticket => ?_⟩
  · unfold chosen
    split
    · cases found : tickets.find? fun ticket => requester.allows ticket.2 with
      | none => exact List.nil_sublist tickets
      | some ticket => exact List.singleton_sublist.mpr (List.mem_of_find?_eq_some found)
    · exact List.filter_sublist
  · rw [chosen, if_neg some, List.mem_filter, Bool.and_eq_true, Bool.not_eq_true', patselect_iff proper,
      Requester.allows_iff]
  · rw [chosen, if_pos none, Option.mem_toList, List.find?_eq_some_iff_append]
    simp only [Requester.allows_iff, Bool.not_eq_true', ← Bool.not_eq_true]
    constructor
    · intro found
      rcases found with ⟨allowed, before, rest, parts, refused⟩
      exact ⟨before, rest, parts, allowed, refused⟩
    · intro first
      rcases first with ⟨before, rest, parts, allowed, refused⟩
      exact ⟨allowed, before, rest, parts, refused⟩

/-! ## The files -/

theorem lookup_without (unlinks : ∀ name, requester.unlinks name = true) (name : Bytes) :
    (without requester.unlinks removed dir).lookup name =
      if ∃ ticket ∈ removed, name ∈ ticket.2.files then none else dir.lookup name := by
  have keep : ∀ name, (removed.any fun ticket => ticket.2.files.contains name && requester.unlinks name) = true ↔
      ∃ ticket ∈ removed, name ∈ ticket.2.files := by
    intro name
    rw [List.any_eq_true]
    simp only [unlinks, Bool.and_true, List.contains_iff_mem]
  split
  next gone =>
      rw [List.lookup_eq_none_iff]
      intro file member
      rw [bne_iff_ne]
      intro same
      subst same
      have stays := (List.mem_filter.mp member).2
      rw [(keep _).mpr gone] at stays
      cases stays
  next kept =>
      refine @lookup_filter _ _ (fun name => !(removed.any fun ticket =>
        ticket.2.files.contains name && requester.unlinks name)) ?_
      rw [Bool.not_eq_true', ← Bool.not_eq_true, keep]
      exact kept

theorem unlinked_without (unlinks : ∀ name, requester.unlinks name = true) (kept : WellKept dir)
    (named : ∀ ticket ∈ listed scanAll dir, ticket.2.info.findStrValue hfName = some ticket.1)
    (members : ∀ ticket ∈ removed, ticket ∈ listed scanAll dir) :
    Unlinked removed dir (without requester.unlinks removed dir) := by
  refine ⟨?_, ?_, ?_⟩
  · intro ticket member name inside
    rw [lookup_without unlinks, if_pos]
    refine ⟨ticket, member, (List.mem_cons.mp inside).elim (fun own => ?_) id⟩
    rw [own, files, List.mem_filterMap]
    refine ⟨some ticket.1, ?_, rfl⟩
    rw [namedFiles, ← named ticket (members ticket member)]
    exact List.mem_append_right _ (List.mem_cons_of_mem _ List.mem_cons_self)
  · intro ticket here stays name inside
    rw [lookup_without unlinks, if_neg]
    intro clash
    rcases clash with ⟨other, member, shared⟩
    have there := members other member
    have names : ticket.1 ≠ other.1 := by
      intro same
      have job : ticket.2 = other.2 := by
        rw [← readTicket_of_listed here, same, readTicket_of_listed there]
      have whole : ticket = other := Prod.ext same job
      exact stays (whole ▸ member)
    exact kept.apart ticket here other there names name inside shared
  · intro name outside
    rw [lookup_without unlinks, if_neg]
    intro clash
    rcases clash with ⟨ticket, member, inside⟩
    exact outside ticket member inside

/-! ## A request -/

/-- Requests to other hosts leave the words as they were. -/
theorem foldl_remotes (user : Bytes) (handled : Handled) (remotes : Nat) :
    let behind := (List.range remotes).foldl (fun handled _ =>
      let tokens := handled.tokens.putUser user
      { handled with tokens := tokens.dropUser, sent := handled.sent ++ [tokens.lines] }) handled
    behind.removed = handled.removed ∧ behind.dir = handled.dir ∧ behind.tokens.lines = handled.tokens.lines ∧
      behind.sent = handled.sent ++ List.replicate remotes (user :: handled.tokens.lines) := by
  dsimp only
  induction remotes with
  | zero => exact ⟨rfl, rfl, rfl, (List.append_nil _).symm⟩
  | succ remotes ih =>
      rcases ih with ⟨same, files, words, sent⟩
      rw [List.range_succ, List.foldl_append, List.foldl_cons, List.foldl_nil]
      refine ⟨same, files, ?_, ?_⟩
      · rw [Tokens.lines_dropUser, Tokens.lines_putUser, List.tail_cons, words]
      · rw [sent, Tokens.lines_putUser, words, List.append_assoc, List.replicate_succ']

/-- A request removes the jobs it selects, and their files only. The words are there again for the next queue. -/
theorem getQueueRemove_spec (requester : Requester) (config : OrderConfig) (remotes : Nat) (tokens : Tokens)
    (dir : SpoolDir) (unlinks : ∀ name, requester.unlinks name = true) (proper : ∀ word ∈ tokens.lines, Proper word)
    (kept : WellKept dir)
    (named : ∀ ticket ∈ listed scanAll dir, ticket.2.info.findStrValue hfName = some ticket.1) :
    ∃ tickets removed, scanQueue config scanAll dir = tickets.map (sortLine config) ∧
      (∀ ticket ∈ tickets, ticket ∈ listed scanAll dir) ∧ Selects requester tokens.lines tickets removed ∧
      let handled := getQueueRemove requester config remotes tokens dir
      handled.removed = removed.map (sortLine config) ∧ Unlinked removed dir handled.dir ∧
        handled.tokens.lines = tokens.lines ∧
        handled.sent = List.replicate remotes (requester.user :: tokens.lines) := by
  rcases exists_tickets config scanAll dir with ⟨tickets, order, members, sorted⟩
  have apart := DoneJobs.apart_of_sorted kept members sorted
  have reads : ∀ t ∈ tickets, readTicket dir (sortLine config t) = t.2 := fun t member =>
    readTicket_sortLine (kept.plain t (members t member)) (members t member) config
  have selects : Selects requester tokens.lines tickets (chosen requester tokens.lines tickets) :=
    selects_chosen proper tickets
  have swept : sweep requester tokens.lines dir (tickets.map (sortLine config)) = ⟨_, _, false⟩ :=
    sweep_eq unlinks config (apart.imp fun both => both.2.1) dir reads
  have behind := foldl_remotes requester.user ⟨(chosen requester tokens.lines tickets).map (sortLine config),
    without requester.unlinks (chosen requester tokens.lines tickets) dir, tokens, []⟩ remotes
  refine ⟨tickets, chosen requester tokens.lines tickets, order, members, selects, ?_⟩
  rw [getQueueRemove, order, swept]
  dsimp only
  rw [if_neg Bool.false_ne_true]
  refine ⟨behind.1, ?_, behind.2.2.1, behind.2.2.2⟩
  rw [behind.2.1]
  exact unlinked_without unlinks kept named fun ticket member => members ticket (selects.order.subset member)

/-! ## Numbers and users -/

def Tokens.ofLines (lines : List Bytes) : Tokens where
  list := (lines[·]?)
  count := lines.length
  full i inside := by rw [List.getElem?_eq_getElem inside, Option.isSome_some]

theorem proper_of_strtol (nonempty : word ≠ []) (low : -2 ^ 31 ≤ (strtol 10 word).1) (high : (strtol 10 word).1 < 2 ^ 31) :
    Proper word := by
  refine ⟨nonempty, fun n decimal => ?_⟩
  rw [decimal.strtol_eq, clampLong] at low high
  omega

/-- Job 5 of user 7. -/
def ownSpool : SpoolDir := [(lit "hfA005", some (lit "P=7\nhf_name=hfA005\nnumber=5\n"))]

/-- A user who may remove any job. -/
def anyone : Requester := ⟨lit "root", [], true, fun _ => false, fun _ => true⟩

theorem getQueueRemove_spec_ownSpool :
    ∃ tickets removed, scanQueue ⟨false, false⟩ scanAll ownSpool = tickets.map (sortLine ⟨false, false⟩) ∧
      (∀ ticket ∈ tickets, ticket ∈ listed scanAll ownSpool) ∧
      Selects anyone (Tokens.ofLines [lit "5"]).lines tickets removed ∧
      let handled := getQueueRemove anyone ⟨false, false⟩ 1 (Tokens.ofLines [lit "5"]) ownSpool
      handled.removed = removed.map (sortLine ⟨false, false⟩) ∧ Unlinked removed ownSpool handled.dir ∧
        handled.tokens.lines = (Tokens.ofLines [lit "5"]).lines ∧
        handled.sent = List.replicate 1 (anyone.user :: (Tokens.ofLines [lit "5"]).lines) := by
  have facts : ((∀ ticket ∈ listed scanAll ownSpool, 61 ∉ ticket.1) ∧
      ∀ s ∈ listed scanAll ownSpool, ∀ t ∈ listed scanAll ownSpool, s.1 ≠ t.1 →
        ∀ name ∈ s.1 :: s.2.files, name ∉ t.2.files) ∧
      ∀ ticket ∈ listed scanAll ownSpool, ticket.2.info.findStrValue hfName = some ticket.1 := by decide +kernel
  refine getQueueRemove_spec anyone ⟨false, false⟩ 1 (Tokens.ofLines [lit "5"]) ownSpool (fun _ => rfl) ?_
    ⟨facts.1.1, facts.1.2⟩ facts.2
  intro word member
  have one : word = lit "5" := List.mem_singleton.mp member
  rw [one]
  exact proper_of_strtol (by decide) (by decide) (by decide)

/-- A word that is a number selects no job by its user: with 7 job 5 of user 7 stays, though the user
matches the word. -/
theorem number_not_user : ¬ ∀ (requester : Requester) (config : OrderConfig) (tokens : Tokens) (dir : SpoolDir),
    (∀ name, requester.unlinks name = true) → ∀ ticket ∈ listed scanAll dir,
      sortLine config ticket ∈ scanQueue config scanAll dir → requester.Allowed ticket.2 →
      (∃ word ∈ tokens.lines, ∃ field ∈ [logname, identifier], ∃ text, ticket.2.info.findStrValue field = some text ∧
        globPattern requester.behind word text = false) →
      sortLine config ticket ∈ (getQueueRemove requester config 0 tokens dir).removed := by
  have stays : ((listed scanAll ownSpool).any fun ticket =>
      (scanQueue ⟨false, false⟩ scanAll ownSpool).contains (sortLine ⟨false, false⟩ ticket) &&
        ticket.2.info.findStrValue logname == some (lit "7") && !globPattern [] (lit "7") (lit "7")) = true ∧
      (getQueueRemove anyone ⟨false, false⟩ 0 (Tokens.ofLines [lit "7"]) ownSpool).removed = [] := by decide +kernel
  intro claimed
  rcases List.any_eq_true.mp stays.1 with ⟨ticket, member, found⟩
  simp only [Bool.and_eq_true, Bool.not_eq_true', List.contains_iff_mem, beq_iff_eq] at found
  have gone := claimed anyone ⟨false, false⟩ (Tokens.ofLines [lit "7"]) ownSpool (fun _ => rfl) ticket member
    found.1.1 (.inl rfl) ⟨lit "7", List.mem_singleton_self _, logname, List.mem_cons_self, lit "7", found.1.2, found.2⟩
  rw [stays.2] at gone
  cases gone

end Lprm

end JobLists

end LPRng
