import LPRng.RemoveJob

/-!
# Cleaning up finished jobs

`Remove_done_jobs` goes over the sort order of a queue and removes the jobs that stopped
coming in and the finished and failed ones that are too old. The other finished ones go into a
list under a key that is printed from the time they are to be removed at, and all but the last
ones of this list are removed.
-/

namespace LPRng

namespace JobLists

namespace DoneJobs

open JobNumber

def doneTime : Bytes := lit "done_time"
def errorTime : Bytes := lit "error_time"
def incomingTime : Bytes := lit "incoming_time"
def incomingPid : Bytes := lit "incoming_pid"
def server : Bytes := lit "server"

/-! ## The pass -/

/-- The settings and what the pass finds: the time, the processes that are alive, and the
files that can be unlinked. -/
structure Setup where
  saveWhenDone : Bool
  saveOnError : Bool
  doneJobs : Int
  doneJobsMaxAge : Int
  now : Int
  alive : Int → Bool
  unlinks : Bytes → Bool

/-- The variables of the first loop, with the lines of the jobs that were removed. -/
structure Walk where
  dir : SpoolDir
  lastRemove : Int
  removeCount : Int
  info : LineList
  removed : List Bytes

/-- A job that stopped coming in. -/
def stale (setup : Setup) (job : JobLists) : Bool :=
  job.info.findFlagValue incomingTime ≠ 0 && job.info.findFlagValue incomingPid ≠ 0 &&
    !setup.alive (job.info.findFlagValue incomingPid)

/-- A job that is done or has failed. -/
def finished (job : JobLists) : Bool :=
  job.info.findFlagValue removeTime ≠ 0 || job.info.findFlagValue errorTime ≠ 0

/-- A job with a server. -/
def active (setup : Setup) (job : JobLists) : Bool :=
  job.info.findFlagValue server ≠ 0 && setup.alive (job.info.findFlagValue server)

def expired (setup : Setup) (job : JobLists) : Bool :=
  let done := job.info.findFlagValue doneTime
  let error := job.info.findFlagValue errorTime
  0 < setup.doneJobsMaxAge &&
    (error ≠ 0 && setup.doneJobsMaxAge < setup.now - error ||
      done ≠ 0 && setup.doneJobsMaxAge < setup.now - done)

/-- A time as `%x` prints it. -/
def stamp (time : Int) : Nat := (time % 2 ^ 32).toNat

/-- `0x%06x.%03d`. -/
def entryKey (remove removeCount : Int) : Bytes :=
  lit "0x" ++ padLeft 6 (printNat 16 (stamp remove)) ++ 46 :: printPadded 3 removeCount

def Walk.remove (setup : Setup) (st : Walk) (line : Bytes) (job : JobLists) : Walk :=
  { st with dir := (removeJob setup.unlinks st.dir job).1, removed := st.removed ++ [line] }

/-- One turn of the first loop. -/
def walkTicket (setup : Setup) (st : Walk) (line : Bytes) : Walk :=
  if line = [] then st
  else
    let job := readTicket st.dir line
    let remove := job.info.findFlagValue removeTime
    if job.info = [] then st
    else if stale setup job then st.remove setup line job
    else if !(remove ≠ 0 || job.info.findFlagValue errorTime ≠ 0 && !setup.saveOnError) then st
    else
      let removeCount := (if st.lastRemove ≠ remove then 0 else st.removeCount) + 1
      let st := { st with lastRemove := remove, removeCount := removeCount }
      if active setup job then st
      else if expired setup job then st.remove setup line job
      else if 0 < setup.doneJobs then
        { st with info := st.info.setStrValue (entryKey remove removeCount) (some line) }
      else st

/-- One turn of the second loop. An entry without a `=` is fatal. -/
def removeEntry (setup : Setup) (st : Walk) (entry : Bytes) : Option Walk :=
  if 61 ∈ entry then
    let line := (entry.dropWhile (· ≠ 61)).tail
    some (st.remove setup line (readTicket st.dir line))
  else none

/-- The lines of the jobs that were removed, the directory behind the pass, and what it
returns. -/
structure Cleared where
  removed : List Bytes
  dir : SpoolDir
  status : Bool

def Setup.saves (setup : Setup) : Bool :=
  setup.saveWhenDone || setup.saveOnError || !(0 < setup.doneJobs || 0 < setup.doneJobsMaxAge)

/-- `Remove_done_jobs`. There is no result when an entry behind the end of the list is read. -/
def removeDoneJobs (setup : Setup) (sortOrder : LineList) (dir : SpoolDir) : Option Cleared :=
  if setup.saves then some ⟨[], dir, false⟩
  else do
    let st := sortOrder.foldl (walkTicket setup) ⟨dir, 0, 0, [], []⟩
    let count := (st.info.length - setup.doneJobs).toNat
    let entries ← (List.range count).mapM (st.info[·]?)
    let st ← entries.foldlM (removeEntry setup) st
    some ⟨st.removed, st.dir, decide (0 < count)⟩

/-! ## What is expected -/

/-- The time of removal, as the sort order prints it. -/
def removal (job : JobLists) : Nat := stamp (job.info.findFlagValue removeTime)

/-- A finished job that is neither served nor too old. -/
def candidate (setup : Setup) (job : JobLists) : Bool :=
  !stale setup job && finished job && !active setup job && !expired setup job

/-- What is removed whatever the count is. -/
def goes (setup : Setup) (job : JobLists) : Bool :=
  stale setup job || finished job && !active setup job && expired setup job

/-- A directory without the files of jobs. -/
def without (unlinks : Bytes → Bool) (removed : List (Bytes × JobLists)) (dir : SpoolDir) : SpoolDir :=
  dir.filter fun file => !(removed.any fun ticket => ticket.2.files.contains file.1 && unlinks file.1)

/-- The jobs a pass removes of those in the sort order. -/
structure Clears (setup : Setup) (tickets removed : List (Bytes × JobLists)) : Prop where
  once : removed.Nodup
  listed : ∀ ticket ∈ removed, ticket ∈ tickets
  /-- Nothing else than jobs that stopped coming in and finished jobs that are not served. -/
  only : ∀ ticket ∈ removed, stale setup ticket.2 ∨ finished ticket.2 ∧ ¬ active setup ticket.2
  /-- Nothing at all when jobs are saved or there are no limits. -/
  saved : setup.saves → removed = []
  /-- All jobs that stopped coming in. -/
  stopped : ¬ setup.saves → ∀ ticket ∈ tickets, stale setup ticket.2 → ticket ∈ removed
  /-- All that are too old. -/
  aged : ¬ setup.saves → ∀ ticket ∈ tickets, finished ticket.2 → ¬ active setup ticket.2 →
    expired setup ticket.2 → ticket ∈ removed
  /-- Without a limit on the count none of the others. -/
  unlimited : setup.doneJobs = 0 → ∀ ticket ∈ removed, goes setup ticket.2
  /-- With a limit as many of the others are kept as it says. -/
  count : ¬ setup.saves → 0 < setup.doneJobs →
    ((tickets.filter (candidate setup ·.2)).filter (· ∉ removed)).length =
      min (tickets.filter (candidate setup ·.2)).length setup.doneJobs.toNat
  /-- They are the newest ones. -/
  newest : ∀ kept ∈ tickets, candidate setup kept.2 → kept ∉ removed →
    ∀ gone ∈ tickets, candidate setup gone.2 → gone ∈ removed → removal gone.2 ≤ removal kept.2

/-- A spool directory in which no file belongs to two jobs and no name of a ticket has a `=`. -/
structure WellKept (dir : SpoolDir) : Prop where
  plain : ∀ ticket ∈ listed scanAll dir, 61 ∉ ticket.1
  apart : ∀ s ∈ listed scanAll dir, ∀ t ∈ listed scanAll dir, s.1 ≠ t.1 →
    ∀ name ∈ s.1 :: s.2.files, name ∉ t.2.files

/-! ## The keys of the list -/

variable {config : OrderConfig} {a b : JobLists} {m n : Int}

/-- The time of removal is the first thing the sort order looks at. -/
theorem removal_le (before : strcasecmp (makeSortKey config a) (makeSortKey config b) = .lt) :
    removal a ≤ removal b := by
  have first : ∀ job, ∃ rest, ranks config job = (removeTime, hex8 (removal job)) :: rest := fun _ => ⟨_, rfl⟩
  rcases first a with ⟨rest, whole⟩
  rcases first b with ⟨rest', whole'⟩
  have size : (field (removeTime, hex8 (removal a))).length = (field (removeTime, hex8 (removal b))).length := by
    rw [length_field, length_field, shape, shape, removal, removal, stamp, stamp, length_hex8, length_hex8]
  have small : ∀ job, removal job < 2 ^ 32 := by
    intro job
    unfold removal stamp
    omega
  rw [makeSortKey_eq, makeSortKey_eq, whole, whole', List.flatMap_cons, List.flatMap_cons,
    strcasecmp_append size, field, field, strcasecmp_append rfl, strcasecmp_self, Ordering.eq_then,
    strcasecmp, compare_eq_iff_eq.mpr rfl, Ordering.eq_then, strcasecmp_hex8 (small a) (small b)] at before
  by_contra later
  rw [compare_gt_iff_gt.mpr (Nat.lt_of_not_le later)] at before
  cases before

/-- A number that is printed with eight digits. -/
theorem length_eight {r : Nat} (low : 2 ^ 28 ≤ r) (high : r < 2 ^ 32) : (printNat 16 r).length = 8 := by
  have most := length_printNat_le (by decide : 2 ≤ 16) (by decide : 0 < 8) (by omega : r < 16 ^ 8)
  have least : 7 < (printNat 16 r).length := by
    rw [printNat, if_neg (by omega), List.length_map, List.length_reverse]
    exact (Nat.lt_digits_length_iff (by decide) r).mpr (by omega)
  omega

/-- The times whose texts are in the order of the times: none at all, and those that have
eight digits. -/
def Ordered (r : Nat) : Prop := r = 0 ∨ 2 ^ 28 ≤ r

/-- The text of the time. -/
def stampText (r : Nat) : Bytes := lit "0x" ++ padLeft 6 (printNat 16 r)

theorem padLeft_eight {r : Nat} (low : 2 ^ 28 ≤ r) (high : r < 2 ^ 32) : padLeft 6 (printNat 16 r) = printNat 16 r := by
  rw [padLeft, length_eight low high]
  rfl

/-- A digit that is no zero comes behind the zero. -/
theorem lt_digitByte {d : Nat} (positive : d ≠ 0) (small : d < 16) : (toLower 48).toNat < (toLower (digitByte d)).toNat := by
  have table : ∀ d : Fin 16, d.val ≠ 0 → (toLower 48).toNat < (toLower (digitByte d)).toNat := by decide
  exact table ⟨d, small⟩ positive

/-- Of two times the earlier one has the key that comes first. -/
theorem strcasecmp_stamp {r s : Nat} (left : Ordered r) (right : Ordered s) (high : s < 2 ^ 32) (less : r < s)
    (u v : Bytes) : strcasecmp (stampText r ++ u) (stampText s ++ v) = .lt := by
  have low : 2 ^ 28 ≤ s := right.resolve_left (by omega)
  unfold stampText
  rw [List.append_assoc, List.append_assoc, strcasecmp_append rfl, strcasecmp_self, Ordering.eq_then,
    padLeft_eight low high]
  rcases left with rfl | big
  · rcases printNat_head (by decide : 2 ≤ 16) s with ⟨d, small, ds, text, positive⟩
    have first : padLeft 6 (printNat 16 0) = 48 :: List.replicate 5 48 := by decide
    rw [text, first, List.cons_append, List.cons_append, strcasecmp,
      compare_lt_iff_lt.mpr (lt_digitByte (positive (by omega)) small)]
    rfl
  · have size : (printNat 16 r).length = (printNat 16 s).length := by
      rw [length_eight big (by omega), length_eight low high]
    have whole : ∀ n, 2 ^ 28 ≤ n → n < 2 ^ 32 → padLeft 8 (printNat 16 n) = printNat 16 n := by
      intro n low high
      rw [padLeft, length_eight low high]
      rfl
    have order := strcasecmp_padLeft (by decide : 0 < 8) (by omega : r < 16 ^ 8) (by omega : s < 16 ^ 8)
    rw [whole r big (by omega), whole s low high, compare_lt_iff_lt.mpr less] at order
    rw [padLeft_eight big (by omega), strcasecmp_append size, order]
    rfl

theorem all_isKeyByte_printPadded (n : Nat) : (printPadded 3 n).all isKeyByte = true := by
  have zero : isKeyByte 48 = true := by decide
  have table : ∀ c : UInt8, (!isDigit c || isKeyByte c) = true := forall_byte (by decide +kernel)
  rw [printPadded, if_neg (by omega), Int.natAbs_natCast]
  refine List.all_eq_true.mpr fun c member => ?_
  rcases List.mem_append.mp member with padding | digit
  · rw [List.eq_of_mem_replicate padding, zero]
  · have shape := table c
    rwa [isDigit_of_mem_printNat digit, Bool.not_true, Bool.false_or] at shape

theorem printPadded_inj {m n : Nat} (same : printPadded 3 (m : Int) = printPadded 3 (n : Int)) : m = n := by
  rw [printPadded, printPadded, if_neg (by omega), if_neg (by omega), Int.natAbs_natCast, Int.natAbs_natCast] at same
  have read : ∀ k : Nat, (scanNat 10 0 (padLeft 3 (printNat 10 k))).1 = k := by
    intro k
    have whole := scanNat_printNat (by decide : 2 ≤ 10) (by decide) k (stopsDigits_nil 10)
    rw [List.append_nil] at whole
    rw [scanNat_padLeft (by decide), whole]
  rw [← read m, same, read n]

theorem all_isKeyByte_entryKey (remove : Int) (n : Nat) : (entryKey remove n).all isKeyByte = true := by
  have front : (lit "0x").all isKeyByte = true := by decide
  have dot : isKeyByte 46 = true := by decide
  rw [entryKey, List.all_append, List.all_append, List.all_cons, front, dot, all_isKeyByte_printNat,
    all_isKeyByte_printPadded]
  rfl

theorem sepFree_entryKey (remove : Int) (n : Nat) : SepFree (entryKey remove n) := by
  intro c member
  have byte := List.all_eq_true.mp (all_isKeyByte_entryKey remove n) c member
  simp only [isKeyByte, Bool.and_eq_true, Bool.not_eq_true'] at byte
  simpa using byte.2

/-! ## The entries of the list -/

/-- The jobs that the first loop puts into the list, with their counts. -/
def numbered (setup : Setup) : Int → Nat → List (Bytes × JobLists) → List ((Bytes × JobLists) × Nat)
  | _, _, [] => []
  | last, count, ticket :: tickets =>
      let remove := ticket.2.info.findFlagValue removeTime
      let number := (if last ≠ remove then 0 else count) + 1
      if stale setup ticket.2 || !finished ticket.2 then numbered setup last count tickets
      else if candidate setup ticket.2 then (ticket, number) :: numbered setup remove number tickets
      else numbered setup remove number tickets

variable {setup : Setup} {tickets : List (Bytes × JobLists)}

theorem candidate_of_skipped {job : JobLists} (skipped : (stale setup job || !finished job) = true) :
    candidate setup job = false := by
  unfold candidate
  rcases Bool.or_eq_true_iff.mp skipped with gone | open_
  · rw [gone]
    rfl
  · rw [Bool.not_eq_true'] at open_
    rw [open_, Bool.and_false]
    rfl

theorem map_fst_numbered (setup : Setup) (last : Int) (count : Nat) (tickets : List (Bytes × JobLists)) :
    (numbered setup last count tickets).map Prod.fst = tickets.filter (candidate setup ·.2) := by
  induction tickets generalizing last count with
  | nil => rfl
  | cons ticket tickets ih =>
      rw [numbered]
      by_cases skipped : (stale setup ticket.2 || !finished ticket.2) = true
      · rw [if_pos skipped, ih, List.filter_cons_of_neg]
        rw [candidate_of_skipped skipped]
        exact Bool.false_ne_true
      · rw [if_neg skipped]
        by_cases chosen : candidate setup ticket.2 = true
        · rw [if_pos chosen, List.map_cons, ih, List.filter_cons, if_pos chosen]
        · rw [if_neg chosen, ih, List.filter_cons, if_neg chosen]

/-- An entry is put in before another one: its time is earlier, or it is the same and its
count is less. -/
def Before (a b : (Bytes × JobLists) × Nat) : Prop :=
  removal a.1.2 < removal b.1.2 ∨ removal a.1.2 = removal b.1.2 ∧ a.2 < b.2

/-- No two entries have both their times and their counts in common. -/
theorem numbered_before (last : Int) (count : Nat) (sorted : tickets.Pairwise fun s t => removal s.2 ≤ removal t.2)
    (bounds : -2 ^ 31 ≤ last ∧ last < 2 ^ 31) (behind : ∀ t ∈ tickets, stamp last ≤ removal t.2) :
    (∀ e ∈ numbered setup last count tickets, stamp last < removal e.1.2 ∨
        stamp last = removal e.1.2 ∧ count < e.2) ∧
      (numbered setup last count tickets).Pairwise Before := by
  induction tickets generalizing last count with
  | nil => exact ⟨nofun, .nil⟩
  | cons ticket tickets ih =>
      rcases List.pairwise_cons.mp sorted with ⟨first, others⟩
      have here := behind ticket List.mem_cons_self
      rw [numbered]
      by_cases skipped : (stale setup ticket.2 || !finished ticket.2) = true
      · rw [if_pos skipped]
        exact ih last count others bounds fun t member => behind t (List.mem_cons_of_mem ticket member)
      · have flag := findFlagValue_bounds ticket.2.info removeTime
        rcases ih _ ((if last ≠ ticket.2.info.findFlagValue removeTime then 0 else count) + 1)
          others flag first with ⟨later, apart⟩
        rw [← removal] at later
        -- the count starts again exactly if the time is another one
        have counted : stamp last < removal ticket.2 ∨ stamp last = removal ticket.2 ∧
            count < (if last ≠ ticket.2.info.findFlagValue removeTime then 0 else count) + 1 := by
          unfold removal stamp at here ⊢
          split <;> omega
        have all : ∀ e ∈ numbered setup (ticket.2.info.findFlagValue removeTime)
            ((if last ≠ ticket.2.info.findFlagValue removeTime then 0 else count) + 1) tickets,
            stamp last < removal e.1.2 ∨ stamp last = removal e.1.2 ∧ count < e.2 := by
          intro e member
          have next := later e member
          omega
        rw [if_neg skipped]
        split
        · exact ⟨List.forall_mem_cons.mpr ⟨counted, all⟩, List.pairwise_cons.mpr ⟨later, apart⟩⟩
        · exact ⟨all, apart⟩

/-- The line of an entry. -/
def entryLine (config : OrderConfig) (entry : (Bytes × JobLists) × Nat) : Bytes :=
  entryKey (entry.1.2.info.findFlagValue removeTime) entry.2 ++ 61 :: sortLine config entry.1

theorem lineKey_entryLine (config : OrderConfig) (entry : (Bytes × JobLists) × Nat) :
    lineKey (entryLine config entry) =
      foldCase (entryKey (entry.1.2.info.findFlagValue removeTime) entry.2) :=
  lineKey_keyValue (sepFree_entryKey _ entry.2) _

theorem removal_lt (job : JobLists) : removal job < 2 ^ 32 := by
  unfold removal stamp
  omega

theorem lineKey_lt {e f : (Bytes × JobLists) × Nat} (left : Ordered (removal e.1.2)) (right : Ordered (removal f.1.2))
    (less : removal e.1.2 < removal f.1.2) : lineKey (entryLine config e) < lineKey (entryLine config f) := by
  rw [lineKey_entryLine, lineKey_entryLine]
  exact (strcasecmp_compares _ _).eq_lt.mp (strcasecmp_stamp left right (removal_lt f.1.2) less _ _)

theorem removal_le_of_lineKey {e f : (Bytes × JobLists) × Nat} (left : Ordered (removal e.1.2))
    (right : Ordered (removal f.1.2)) (less : lineKey (entryLine config e) < lineKey (entryLine config f)) :
    removal e.1.2 ≤ removal f.1.2 := by
  by_contra later
  exact lt_asymm less (lineKey_lt right left (Nat.lt_of_not_le later))

theorem lineKey_ne_of_before {e f : (Bytes × JobLists) × Nat} (left : Ordered (removal e.1.2))
    (right : Ordered (removal f.1.2)) (before : Before e f) :
    lineKey (entryLine config e) ≠ lineKey (entryLine config f) := by
  rcases before with less | ⟨same, less⟩
  · exact (lineKey_lt left right less).ne
  · intro equal
    rw [lineKey_entryLine, lineKey_entryLine,
      foldCase_inj (all_isKeyByte_entryKey _ e.2) (all_isKeyByte_entryKey _ f.2)] at equal
    have stamps : stampText (removal e.1.2) ++ 46 :: printPadded 3 (e.2 : Int) =
        stampText (removal f.1.2) ++ 46 :: printPadded 3 (f.2 : Int) := equal
    rw [same] at stamps
    have counts := printPadded_inj (List.cons.inj (List.append_cancel_left stamps)).2
    omega

/-! ## The first loop -/

variable {dir : SpoolDir} {unlinks : Bytes → Bool} {args : ScanArgs} {ticket : Bytes × JobLists} {st : Walk}
  {count : Nat}

theorem without_nil (unlinks : Bytes → Bool) (dir : SpoolDir) : without unlinks [] dir = dir :=
  List.filter_eq_self.mpr fun _ _ => rfl

theorem without_append (unlinks : Bytes → Bool) (before behind : List (Bytes × JobLists)) (dir : SpoolDir) :
    without unlinks (before ++ behind) dir = without unlinks behind (without unlinks before dir) := by
  unfold without
  rw [List.filter_filter]
  refine List.filter_congr fun file _ => ?_
  rw [List.any_append, Bool.not_or, Bool.and_comm]

theorem removeJob_without (unlinks : Bytes → Bool) (dir : SpoolDir) (ticket : Bytes × JobLists) :
    (removeJob unlinks dir ticket.2).1 = without unlinks [ticket] dir := by
  rw [removeJob_dir]
  refine List.filter_congr fun file _ => ?_
  rw [List.any_cons, List.any_nil, Bool.or_false]

/-- The ticket of a job that shares no file with those that go reads as before. -/
theorem readTicket_without {removed : List (Bytes × JobLists)} (apart : ∀ s ∈ removed, ticket.1 ∉ s.2.files) :
    readTicket (without unlinks removed dir) (sortLine config ticket) = readTicket dir (sortLine config ticket) := by
  refine readTicket_filter (fun name => !(removed.any fun s => s.2.files.contains name && unlinks name)) ?_
  rw [ticketName_sortLine, Bool.not_eq_true', List.any_eq_false]
  intro s member named
  rw [Bool.and_eq_true, List.contains_iff_mem] at named
  exact apart s member named.1

theorem sortLine_ne_nil (config : OrderConfig) (ticket : Bytes × JobLists) : sortLine config ticket ≠ [] :=
  List.append_ne_nil_of_right_ne_nil _ (List.cons_ne_nil _ _)

/-- One turn, at a ticket that can be read. -/
theorem walkTicket_eq (unsaved : setup.saveOnError = false) (readable : ticket.2.info ≠ [])
    (read : readTicket st.dir (sortLine config ticket) = ticket.2) (counted : st.removeCount = count) :
    walkTicket setup st (sortLine config ticket) =
      let remove := ticket.2.info.findFlagValue removeTime
      let number := (if st.lastRemove ≠ remove then 0 else count) + 1
      let st' := { st with lastRemove := remove, removeCount := number }
      if stale setup ticket.2 then st.remove setup (sortLine config ticket) ticket.2
      else if !finished ticket.2 then st
      else if active setup ticket.2 then st'
      else if expired setup ticket.2 then st'.remove setup (sortLine config ticket) ticket.2
      else if 0 < setup.doneJobs then
        { st' with info := st.info.setStrValue (entryKey remove number) (some (sortLine config ticket)) }
      else st' := by
  have number (remove : Int) : (if st.lastRemove ≠ remove then 0 else st.removeCount) + 1 =
      (((if st.lastRemove ≠ remove then 0 else count) + 1 : Nat) : Int) := by
    rw [counted]
    split <;> rfl
  have open_ : (ticket.2.info.findFlagValue removeTime ≠ 0 ||
      ticket.2.info.findFlagValue errorTime ≠ 0 && !setup.saveOnError) = finished ticket.2 := by
    rw [unsaved, Bool.not_false, Bool.and_true]
    rfl
  rw [walkTicket, if_neg (sortLine_ne_nil config ticket)]
  dsimp only
  rw [read, if_neg readable, number, open_]

theorem goes_of_expired {job : JobLists} (fresh : ¬ stale setup job = true) (done : finished job = true)
    (idle : ¬ active setup job = true) : goes setup job = expired setup job := by
  rw [Bool.not_eq_true] at fresh idle
  rw [goes, fresh, done, idle]
  rfl

theorem candidate_of_expired {job : JobLists} (fresh : ¬ stale setup job = true) (done : finished job = true)
    (idle : ¬ active setup job = true) : candidate setup job = !expired setup job := by
  rw [Bool.not_eq_true] at fresh idle
  rw [candidate, fresh, done, idle]
  rfl

theorem setStrValue_entry (keyed : st.info.Keyed) (config : OrderConfig) (ticket : Bytes × JobLists) (number : Nat) :
    st.info.setStrValue (entryKey (ticket.2.info.findFlagValue removeTime) number) (some (sortLine config ticket)) =
      insertKey lineKey (entryLine config (ticket, number)) st.info := by
  rw [keyed.setStrValue (sepFree_entryKey _ number), Option.filter_some,
    if_pos (decide_eq_true (sortLine_ne_nil config ticket))]
  rfl

theorem clear_entryLine (config : OrderConfig) (entry : (Bytes × JobLists) × Nat) : Clear (entryLine config entry) :=
  clear_keyValue (sepFree_entryKey _ entry.2) _

/-- What the first loop does to a queue: the jobs that go whatever the count is are removed,
and the others are put into the list. -/
structure Walked (setup : Setup) (config : OrderConfig) (tickets : List (Bytes × JobLists)) (count : Nat)
    (st st' : Walk) : Prop where
  dir : st'.dir = without setup.unlinks (tickets.filter (goes setup ·.2)) st.dir
  removed : st'.removed = st.removed ++ (tickets.filter (goes setup ·.2)).map (sortLine config)
  info : st'.info = insertInto lineKey st.info
    (if 0 < setup.doneJobs then (numbered setup st.lastRemove count tickets).map (entryLine config) else [])

/-- The first turn and the turns behind it. -/
theorem Walked.cons {st₁ st' : Walk} {count₁ : Nat} (rest : Walked setup config tickets count₁ st₁ st')
    (dir : st₁.dir = without setup.unlinks ([ticket].filter (goes setup ·.2)) st.dir)
    (removed : st₁.removed = st.removed ++ ([ticket].filter (goes setup ·.2)).map (sortLine config))
    (info : insertInto lineKey st₁.info
        (if 0 < setup.doneJobs then (numbered setup st₁.lastRemove count₁ tickets).map (entryLine config) else []) =
      insertInto lineKey st.info
        (if 0 < setup.doneJobs then (numbered setup st.lastRemove count (ticket :: tickets)).map (entryLine config)
          else [])) : Walked setup config (ticket :: tickets) count st st' := by
  have parts : (ticket :: tickets).filter (goes setup ·.2) =
      [ticket].filter (goes setup ·.2) ++ tickets.filter (goes setup ·.2) := by
    rw [← List.filter_append, List.singleton_append]
  refine ⟨?_, ?_, rest.info.trans info⟩
  · rw [rest.dir, dir, parts, without_append]
  · rw [rest.removed, removed, parts, List.map_append, List.append_assoc]

/-- The first turn removes the job. -/
theorem Walked.goes {st₁ st' : Walk} {count₁ : Nat} (rest : Walked setup config tickets count₁ st₁ st')
    (first : goes setup ticket.2 = true) (dir : st₁.dir = (removeJob setup.unlinks st.dir ticket.2).1)
    (removed : st₁.removed = st.removed ++ [sortLine config ticket])
    (info : insertInto lineKey st₁.info
        (if 0 < setup.doneJobs then (numbered setup st₁.lastRemove count₁ tickets).map (entryLine config) else []) =
      insertInto lineKey st.info
        (if 0 < setup.doneJobs then (numbered setup st.lastRemove count (ticket :: tickets)).map (entryLine config)
          else [])) : Walked setup config (ticket :: tickets) count st st' := by
  have chosen : [ticket].filter (DoneJobs.goes setup ·.2) = [ticket] := by
    rw [List.filter_cons, if_pos first, List.filter_nil]
  refine rest.cons ?_ ?_ info
  · rw [chosen, dir, removeJob_without]
  · rw [chosen, removed]
    rfl

/-- The first turn leaves the job where it is. -/
theorem Walked.stays {st₁ st' : Walk} {count₁ : Nat} (rest : Walked setup config tickets count₁ st₁ st')
    (first : DoneJobs.goes setup ticket.2 = false) (dir : st₁.dir = st.dir) (removed : st₁.removed = st.removed)
    (info : insertInto lineKey st₁.info
        (if 0 < setup.doneJobs then (numbered setup st₁.lastRemove count₁ tickets).map (entryLine config) else []) =
      insertInto lineKey st.info
        (if 0 < setup.doneJobs then (numbered setup st.lastRemove count (ticket :: tickets)).map (entryLine config)
          else [])) : Walked setup config (ticket :: tickets) count st st' := by
  have none : [ticket].filter (DoneJobs.goes setup ·.2) = [] := by
    rw [List.filter_cons, first, if_neg Bool.false_ne_true, List.filter_nil]
  refine rest.cons ?_ ?_ info
  · rw [none, without_nil, dir]
  · rw [none, List.map_nil, List.append_nil, removed]

theorem walk_eq (unsaved : setup.saveOnError = false) (config : OrderConfig) (readable : ∀ t ∈ tickets, t.2.info ≠ [])
    (apart : tickets.Pairwise fun s t => t.1 ∉ s.2.files) (count : Nat) (st : Walk) (counted : st.removeCount = count)
    (keyed : st.info.Keyed) (reads : ∀ t ∈ tickets, readTicket st.dir (sortLine config t) = t.2) :
    Walked setup config tickets count st ((tickets.map (sortLine config)).foldl (walkTicket setup) st) := by
  induction tickets generalizing st count with
  | nil =>
      refine ⟨(without_nil _ _).symm, (List.append_nil _).symm, ?_⟩
      split <;> rfl
  | cons ticket tickets ih =>
      rcases List.pairwise_cons.mp apart with ⟨here, others⟩
      rcases List.forall_mem_cons.mp reads with ⟨read, reads⟩
      rcases List.forall_mem_cons.mp readable with ⟨shown, readable⟩
      have reads' : ∀ t ∈ tickets, readTicket (removeJob setup.unlinks st.dir ticket.2).1 (sortLine config t) = t.2 := by
        intro t member
        rw [removeJob_without, readTicket_without fun s only => List.mem_singleton.mp only ▸ here t member]
        exact reads t member
      rw [List.map_cons, List.foldl_cons, walkTicket_eq unsaved shown read counted]
      dsimp only
      generalize numberEq :
        (if st.lastRemove ≠ ticket.2.info.findFlagValue removeTime then 0 else count) + 1 = number
      by_cases fresh : stale setup ticket.2 = true
      · have first : goes setup ticket.2 = true := by rw [goes, fresh, Bool.true_or]
        have skipped : (stale setup ticket.2 || !finished ticket.2) = true := by rw [fresh, Bool.true_or]
        rw [if_pos fresh]
        refine Walked.goes (ih readable others count _ ?_ ?_ ?_) first rfl rfl ?_
        · exact counted
        · exact keyed
        · exact reads'
        · rw [numbered, if_pos skipped]
          rfl
      rw [if_neg fresh]
      by_cases done : finished ticket.2 = true
      · have shownDone : ¬ (!finished ticket.2) = true := by rw [done]; exact Bool.false_ne_true
        have counting : ¬ (stale setup ticket.2 || !finished ticket.2) = true := by
          rw [Bool.or_eq_true]
          exact fun either => either.elim fresh shownDone
        rw [if_neg shownDone]
        by_cases idle : active setup ticket.2 = true
        · have first : goes setup ticket.2 = false := by
            rw [Bool.not_eq_true] at fresh
            rw [goes, fresh, idle, Bool.not_true, Bool.and_false]
            rfl
          have passed : ¬ candidate setup ticket.2 = true := by
            rw [candidate, idle, Bool.not_true, Bool.and_false]
            exact Bool.false_ne_true
          rw [if_pos idle]
          refine Walked.stays (ih readable others number _ ?_ ?_ ?_) first rfl rfl ?_
          · rfl
          · exact keyed
          · exact reads
          · rw [numbered, numberEq, if_neg counting, if_neg passed]
        rw [if_neg idle]
        have firstGoes := goes_of_expired fresh done idle
        have firstStays := candidate_of_expired fresh done idle
        by_cases old : expired setup ticket.2 = true
        · rw [old] at firstGoes firstStays
          rw [if_pos old]
          refine Walked.goes (ih readable others number _ ?_ ?_ ?_) firstGoes rfl rfl ?_
          · rfl
          · exact keyed
          · exact reads'
          · rw [numbered, numberEq, if_neg counting, firstStays, Bool.not_true, if_neg Bool.false_ne_true]
            rfl
        · rw [Bool.not_eq_true] at old
          rw [old] at firstGoes firstStays
          rw [old, if_neg Bool.false_ne_true]
          by_cases limited : 0 < setup.doneJobs
          · rw [if_pos limited, setStrValue_entry keyed]
            have entered := keyed.insert (clear_entryLine config (ticket, number))
            refine Walked.stays (ih readable others number _ ?_ ?_ ?_) firstGoes rfl rfl ?_
            · rfl
            · exact entered
            · exact reads
            · rw [if_pos limited, if_pos limited, numbered, numberEq, if_neg counting, firstStays, Bool.not_false, if_pos rfl]
              rfl
          · rw [if_neg limited]
            refine Walked.stays (ih readable others number _ ?_ ?_ ?_) firstGoes rfl rfl ?_
            · rfl
            · exact keyed
            · exact reads
            · rw [if_neg limited, if_neg limited]
      · rw [Bool.not_eq_true] at done fresh
        have first : goes setup ticket.2 = false := by
          rw [goes, fresh, done]
          rfl
        have skipped : (stale setup ticket.2 || !finished ticket.2) = true := by
          rw [done, Bool.not_false, Bool.or_true]
        rw [done, Bool.not_false, if_pos rfl]
        refine Walked.stays (ih readable others count _ ?_ ?_ ?_) first rfl rfl ?_
        · exact counted
        · exact keyed
        · exact reads
        · rw [numbered, if_pos skipped]

/-! ## The second loop -/

theorem mapM_getElem? {l : LineList} {m : Nat} (inside : m ≤ l.length) :
    (List.range m).mapM (l[·]?) = some (l.take m) := by
  induction m with
  | zero => rfl
  | succ m ih =>
      rw [List.range_succ, List.mapM_append, ih (by omega), List.take_add_one]
      simp only [List.mapM_cons, List.mapM_nil, List.getElem?_eq_getElem (by omega : m < l.length)]
      rfl

/-- What stands behind the first `=`. -/
theorem behind_key {key value : Bytes} (free : SepFree key) : ((key ++ 61 :: value).dropWhile (· ≠ 61)).tail = value := by
  have other : ∀ c ∈ key, decide (c ≠ 61) = true := by
    intro c member
    rw [decide_eq_true_eq]
    intro same
    subst same
    exact free 61 member (by decide)
  rw [List.dropWhile_append_of_pos other]
  rfl

theorem removeEntry_eq (read : readTicket st.dir (sortLine config ticket) = ticket.2) (number : Nat) :
    removeEntry setup st (entryLine config (ticket, number)) =
      some (st.remove setup (sortLine config ticket) ticket.2) := by
  have behind : ((entryLine config (ticket, number)).dropWhile (· ≠ 61)).tail = sortLine config ticket :=
    behind_key (sepFree_entryKey _ number)
  have shown : 61 ∈ entryLine config (ticket, number) := List.mem_append_right _ List.mem_cons_self
  rw [removeEntry, if_pos shown]
  dsimp only
  rw [behind, read]

/-- The second loop removes the jobs of all entries. -/
theorem foldlM_removeEntry (entries : List ((Bytes × JobLists) × Nat))
    (apart : entries.Pairwise fun e f => f.1.1 ∉ e.1.2.files) (st : Walk)
    (reads : ∀ e ∈ entries, readTicket st.dir (sortLine config e.1) = e.1.2) :
    (entries.map (entryLine config)).foldlM (removeEntry setup) st =
      some { st with
        dir := without setup.unlinks (entries.map Prod.fst) st.dir
        removed := st.removed ++ (entries.map Prod.fst).map (sortLine config) } := by
  induction entries generalizing st with
  | nil =>
      rw [List.map_nil, List.map_nil, without_nil, List.map_nil, List.append_nil]
      rfl
  | cons entry entries ih =>
      rcases List.pairwise_cons.mp apart with ⟨here, others⟩
      rcases List.forall_mem_cons.mp reads with ⟨read, reads⟩
      have reads' : ∀ e ∈ entries, readTicket (removeJob setup.unlinks st.dir entry.1.2).1 (sortLine config e.1) = e.1.2 := by
        intro e member
        rw [removeJob_without, readTicket_without fun s only => List.mem_singleton.mp only ▸ here e member]
        exact reads e member
      have rest := ih others (st.remove setup (sortLine config entry.1) entry.1.2) reads'
      rw [List.map_cons, List.foldlM_cons, removeEntry_eq read, Option.bind_eq_bind, Option.bind_some, rest]
      have parts : (entry :: entries).map Prod.fst = [entry.1] ++ entries.map Prod.fst := rfl
      rw [parts, without_append, ← removeJob_without, List.map_append, ← List.append_assoc]
      rfl

/-! ## The jobs that are removed -/

/-- A list in another order of what a function makes of members is made of them in another order. -/
theorem exists_perm_map {α β : Type*} {f : α → β} {l : List β} {source : List α} (perm : l.Perm (source.map f)) :
    ∃ part : List α, l = part.map f ∧ part.Perm source := by
  induction source generalizing l with
  | nil => exact ⟨[], perm.eq_nil, .nil⟩
  | cons a source ih =>
      rcases List.append_of_mem (perm.mem_iff.mpr List.mem_cons_self) with ⟨front, behind, rfl⟩
      rcases ih ((List.perm_middle.symm.trans perm).cons_inv) with ⟨part, parts, same⟩
      rcases List.append_eq_map_iff.mp parts with ⟨before, rest, rfl, rfl, rfl⟩
      refine ⟨before ++ a :: rest, by rw [List.map_append, List.map_cons], ?_⟩
      exact List.perm_middle.trans (same.cons a)

theorem not_goes_of_candidate {job : JobLists} (chosen : candidate setup job = true) : goes setup job = false := by
  simp only [candidate, Bool.and_eq_true, Bool.not_eq_true'] at chosen
  rw [goes, chosen.1.1.1, chosen.2, Bool.and_false]
  rfl

/-- All that go whatever the count is, and of the others the first ones in the order of their times. -/
theorem clears_of_olds (unsaved : ¬ setup.saves = true) (nodup : tickets.Nodup)
    {olds : List (Bytes × JobLists)}
    (perm : olds.Perm (if 0 < setup.doneJobs then tickets.filter (candidate setup ·.2) else []))
    (sorted : olds.Pairwise fun s t => removal s.2 ≤ removal t.2) :
    Clears setup tickets (tickets.filter (goes setup ·.2) ++ olds.take (olds.length - setup.doneJobs).toNat) := by
  generalize size : (olds.length - setup.doneJobs).toNat = m
  have candidates : ∀ t ∈ olds, t ∈ tickets ∧ candidate setup t.2 = true ∧ 0 < setup.doneJobs := by
    intro t member
    have inside := perm.mem_iff.mp member
    split at inside
    next limited => exact ⟨(List.mem_filter.mp inside).1, (List.mem_filter.mp inside).2, limited⟩
    next => cases inside
  have oldsNodup : olds.Nodup := by
    refine perm.nodup_iff.mpr ?_
    split
    · exact nodup.filter _
    · exact List.nodup_nil
  -- of the candidates only those at the front of the list are removed
  have gone_iff : ∀ t, candidate setup t.2 = true →
      (t ∈ tickets.filter (goes setup ·.2) ++ olds.take m ↔ t ∈ olds.take m) := by
    intro t chosen
    rw [List.mem_append, or_iff_right]
    intro member
    have stays := not_goes_of_candidate chosen
    rw [(List.mem_filter.mp member).2] at stays
    cases stays
  have goes_listed : ∀ t ∈ tickets, goes setup t.2 = true → t ∈ tickets.filter (goes setup ·.2) ++ olds.take m :=
    fun t member first => List.mem_append_left _ (List.mem_filter.mpr ⟨member, first⟩)
  constructor
  · refine (nodup.filter _).append (oldsNodup.sublist (List.take_sublist m olds)) ?_
    intro t here there
    have stays := not_goes_of_candidate (candidates t (List.mem_of_mem_take there)).2.1
    rw [(List.mem_filter.mp here).2] at stays
    cases stays
  · intro t member
    rcases List.mem_append.mp member with first | old
    · exact (List.mem_filter.mp first).1
    · exact (candidates t (List.mem_of_mem_take old)).1
  · intro t member
    rcases List.mem_append.mp member with first | old
    · have reason := (List.mem_filter.mp first).2
      simp only [goes, Bool.or_eq_true, Bool.and_eq_true, Bool.not_eq_true'] at reason
      exact reason.imp_right fun done => ⟨done.1.1, by rw [done.1.2]; exact Bool.false_ne_true⟩
    · have chosen := (candidates t (List.mem_of_mem_take old)).2.1
      simp only [candidate, Bool.and_eq_true, Bool.not_eq_true'] at chosen
      exact .inr ⟨chosen.1.1.2, by rw [chosen.1.2]; exact Bool.false_ne_true⟩
  · exact fun saves => absurd saves unsaved
  · intro _ t member gone
    exact goes_listed t member (by rw [goes, gone, Bool.true_or])
  · intro _ t member done idle old
    rw [Bool.not_eq_true] at idle
    exact goes_listed t member (by rw [goes, done, idle, old, Bool.not_false, Bool.true_and, Bool.true_and, Bool.or_true])
  · intro none t member
    rcases List.mem_append.mp member with first | old
    · exact (List.mem_filter.mp first).2
    · have limited := (candidates t (List.mem_of_mem_take old)).2.2
      omega
  · intro _ limited
    rw [if_pos limited] at perm
    have kept : (tickets.filter (candidate setup ·.2)).filter
          (fun t => decide (t ∉ tickets.filter (goes setup ·.2) ++ olds.take m)) =
        (tickets.filter (candidate setup ·.2)).filter fun t => decide (t ∉ olds.take m) := by
      refine List.filter_congr fun t member => ?_
      rw [decide_eq_decide, gone_iff t (List.mem_filter.mp member).2]
    have split : (olds.filter fun t => decide (t ∉ olds.take m)) = olds.drop m := by
      have disjoint := List.disjoint_take_drop oldsNodup (le_refl m)
      conv_lhs => rw [← List.take_append_drop m olds]
      rw [List.filter_append, List.filter_eq_nil_iff.mpr, List.filter_eq_self.mpr, List.nil_append]
      · intro t member
        rw [decide_eq_true_eq, List.take_append_drop]
        exact fun front => disjoint front member
      · intro t member
        rw [decide_eq_true_eq, List.take_append_drop, not_not]
        exact member
    rw [kept, ← (perm.filter _).length_eq, split, List.length_drop, ← perm.length_eq]
    omega
  · intro kept keptHere keptChosen stays gone goneHere goneChosen member
    have old := (gone_iff gone goneChosen).mp member
    have limited := (candidates gone (List.mem_of_mem_take old)).2.2
    rw [if_pos limited] at perm
    have listed : kept ∈ olds := perm.mem_iff.mpr (List.mem_filter.mpr ⟨keptHere, keptChosen⟩)
    rw [← List.take_append_drop m olds] at listed sorted
    rcases List.mem_append.mp listed with front | behind
    · exact absurd ((gone_iff kept keptChosen).mpr front) stays
    · exact (List.pairwise_append.mp sorted).2.2 gone old kept behind

/-! ## A pass -/

theorem listed_scanAll (member : ticket ∈ listed args dir) : ticket ∈ listed scanAll dir := by
  rcases List.mem_filterMap.mp member with ⟨file, inside, kept⟩
  refine List.mem_filterMap.mpr ⟨file, inside, ?_⟩
  dsimp only at kept ⊢
  split at kept
  · cases kept
  next shown =>
      simp only [Bool.or_eq_true, not_or, Bool.not_eq_true] at shown
      rw [if_neg]
      · exact kept
      · simp only [shown.1.2, shown.1.1.2, scanAll, ScanArgs.removes, ne_eq, not_true_eq_false, decide_false,
          Bool.false_and, Bool.or_false, Bool.false_eq_true, not_false_eq_true]

/-- No ticket of the sort order has the name of another one, or names one of its files. -/
theorem apart_of_sorted (kept : WellKept dir) (members : ∀ t ∈ tickets, t ∈ listed args dir)
    (sorted : tickets.Pairwise fun s t => strcasecmp (makeSortKey config s.2) (makeSortKey config t.2) = .lt) :
    tickets.Pairwise fun s t => s.1 ≠ t.1 ∧ t.1 ∉ s.2.files ∧ s.1 ∉ t.2.files := by
  refine sorted.imp_of_mem fun {s t} left right less => ?_
  have names : s.1 ≠ t.1 := by
    intro same
    have job : s.2 = t.2 := by
      rw [← readTicket_of_listed (members s left), same, readTicket_of_listed (members t right)]
    rw [job, strcasecmp_self] at less
    cases less
  have first := listed_scanAll (members s left)
  have second := listed_scanAll (members t right)
  exact ⟨names, kept.apart t second s first names.symm t.1 List.mem_cons_self,
    kept.apart s first t second names s.1 List.mem_cons_self⟩

/-- The list behind the first loop has an entry for each of the jobs that may be removed, in
the order of their times. -/
theorem exists_entries (members : ∀ t ∈ tickets, t ∈ listed args dir)
    (times : ∀ ticket ∈ listed args dir, Ordered (removal ticket.2))
    (sorted : tickets.Pairwise fun s t => strcasecmp (makeSortKey config s.2) (makeSortKey config t.2) = .lt) :
    ∃ part : List ((Bytes × JobLists) × Nat),
      insertInto lineKey []
          (if 0 < setup.doneJobs then (numbered setup 0 0 tickets).map (entryLine config) else []) =
        part.map (entryLine config) ∧
      (part.map Prod.fst).Perm (if 0 < setup.doneJobs then tickets.filter (candidate setup ·.2) else []) ∧
      (part.map Prod.fst).Pairwise fun s t => removal s.2 ≤ removal t.2 := by
  by_cases limited : 0 < setup.doneJobs
  · rw [if_pos limited, if_pos limited]
    have inside : ∀ e ∈ numbered setup 0 0 tickets, Ordered (removal e.1.2) := by
      intro e member
      have first : e.1 ∈ tickets.filter (candidate setup ·.2) := by
        rw [← map_fst_numbered setup 0 0]
        exact List.mem_map_of_mem member
      exact times e.1 (members e.1 (List.mem_filter.mp first).1)
    have before : (numbered setup 0 0 tickets).Pairwise Before :=
      (numbered_before 0 0 (sorted.imp removal_le) (by decide) fun t _ => Nat.zero_le _).2
    have distinct : ((numbered setup 0 0 tickets).map (entryLine config)).Pairwise fun s t => lineKey s ≠ lineKey t := by
      rw [List.pairwise_map]
      exact before.imp_of_mem fun left right first => lineKey_ne_of_before (inside _ left) (inside _ right) first
    rcases exists_perm_map (insertAll_perm distinct) with ⟨part, info, perm⟩
    have keys := KeySorted.insertAll lineKey ((numbered setup 0 0 tickets).map (entryLine config))
    refine ⟨part, info, ?_, ?_⟩
    · rw [← map_fst_numbered setup 0 0]
      exact perm.map Prod.fst
    · rw [info, KeySorted, List.pairwise_map] at keys
      rw [List.pairwise_map]
      exact keys.imp_of_mem fun left right less => removal_le_of_lineKey (inside _ (perm.mem_iff.mp left))
        (inside _ (perm.mem_iff.mp right)) less
  · rw [if_neg limited, if_neg limited]
    exact ⟨[], rfl, .nil, .nil⟩

/-- A pass over the sort order of a fresh scan removes the jobs it is to remove, and their files. -/
theorem removeDoneJobs_spec (setup : Setup) (config : OrderConfig) (args : ScanArgs) (dir : SpoolDir)
    (natural : 0 ≤ setup.doneJobs) (kept : WellKept dir)
    (times : ∀ ticket ∈ listed args dir, Ordered (removal ticket.2)) :
    ∃ tickets removed cleared, scanQueue config args dir = tickets.map (sortLine config) ∧
      (∀ ticket ∈ tickets, ticket ∈ listed args dir) ∧
      removeDoneJobs setup (scanQueue config args dir) dir = some cleared ∧
      cleared.removed = removed.map (sortLine config) ∧ Clears setup tickets removed ∧
      cleared.dir = without setup.unlinks removed dir := by
  rcases exists_tickets config args dir with ⟨tickets, order, members, sorted⟩
  have apart := apart_of_sorted kept members sorted
  have nodup : tickets.Nodup := apart.imp fun both same => both.1 (congrArg Prod.fst same)
  by_cases saves : setup.saves = true
  · refine ⟨tickets, [], ⟨[], dir, false⟩, order, members, ?_, rfl, ?_, (without_nil _ _).symm⟩
    · rw [removeDoneJobs, if_pos saves]
    · exact {
        once := List.nodup_nil
        listed := nofun
        only := nofun
        saved := fun _ => rfl
        stopped := fun unsaved => absurd saves unsaved
        aged := fun unsaved => absurd saves unsaved
        unlimited := fun _ => nofun
        count := fun unsaved => absurd saves unsaved
        newest := fun _ _ _ _ _ _ _ => nofun }
  · have unsaved : setup.saveOnError = false := by
      simp only [Setup.saves, Bool.or_eq_true, not_or, Bool.not_eq_true] at saves
      exact saves.1.2
    have readable : ∀ t ∈ tickets, t.2.info ≠ [] := fun t member => readable_of_listed (members t member)
    have reads : ∀ t ∈ tickets, readTicket dir (sortLine config t) = t.2 := fun t member =>
      readTicket_sortLine (kept.plain t (listed_scanAll (members t member))) (members t member) config
    have foreign : ∀ s ∈ tickets, ∀ t ∈ tickets, s ≠ t → t.1 ∉ s.2.files := by
      intro s left t right differ
      have symmetric : Std.Symm fun s t : Bytes × JobLists => s.1 ≠ t.1 ∧ t.1 ∉ s.2.files ∧ s.1 ∉ t.2.files :=
        ⟨fun _ _ both => ⟨both.1.symm, both.2.2, both.2.1⟩⟩
      exact (apart.forall left right differ).2.1
    have walked := walk_eq unsaved config readable (apart.imp fun both => both.2.1) 0 ⟨dir, 0, 0, [], []⟩ rfl
      LineList.keyed_nil reads
    generalize walk : (tickets.map (sortLine config)).foldl (walkTicket setup) ⟨dir, 0, 0, [], []⟩ = st at walked
    rcases exists_entries members times sorted with ⟨part, info, perm, ordered⟩
    have entries : st.info = part.map (entryLine config) := walked.info.trans info
    generalize size : (st.info.length - setup.doneJobs).toNat = m
    have inside : m ≤ st.info.length := by omega
    have olds : ∀ e ∈ part, e.1 ∈ tickets ∧ candidate setup e.1.2 = true := by
      intro e member
      have old := perm.mem_iff.mp (List.mem_map_of_mem member)
      split at old
      · exact List.mem_filter.mp old
      · cases old
    have oldsNodup : (part.map Prod.fst).Nodup := by
      refine perm.nodup_iff.mpr ?_
      split
      · exact nodup.filter _
      · exact List.nodup_nil
    have readsOlds : ∀ e ∈ part.take m, readTicket st.dir (sortLine config e.1) = e.1.2 := by
      intro e member
      rcases olds e (List.mem_of_mem_take member) with ⟨listed, chosen⟩
      rw [walked.dir, readTicket_without]
      · exact reads e.1 listed
      · intro s first
        rcases List.mem_filter.mp first with ⟨before, goesFirst⟩
        refine foreign s before e.1 listed fun same => ?_
        rw [same, not_goes_of_candidate chosen] at goesFirst
        cases goesFirst
    have apartOlds : (part.take m).Pairwise fun e f => f.1.1 ∉ e.1.2.files := by
      rw [List.Nodup, List.pairwise_map] at oldsNodup
      refine (oldsNodup.sublist (List.take_sublist m part)).imp_of_mem fun {e f} left right differ => ?_
      exact foreign e.1 (olds e (List.mem_of_mem_take left)).1 f.1 (olds f (List.mem_of_mem_take right)).1 differ
    refine ⟨tickets, tickets.filter (goes setup ·.2) ++ (part.map Prod.fst).take m,
      ⟨st.removed ++ ((part.take m).map Prod.fst).map (sortLine config),
        without setup.unlinks ((part.take m).map Prod.fst) st.dir, decide (0 < m)⟩, order, members, ?_, ?_, ?_, ?_⟩
    · rw [removeDoneJobs, if_neg saves, order, walk]
      dsimp only
      rw [size, mapM_getElem? inside, Option.bind_eq_bind, Option.bind_some, entries, ← List.map_take,
        foldlM_removeEntry (part.take m) apartOlds st readsOlds]
      rfl
    · rw [walked.removed, List.nil_append, List.map_append, List.map_take]
    · have length : m = ((part.map Prod.fst).length - setup.doneJobs).toNat := by
        rw [← size, entries, List.length_map, List.length_map]
      exact length ▸ clears_of_olds saves nodup perm ordered
    · rw [walked.dir, ← without_append, List.map_take]

/-- A queue with a job that stopped coming in and one that is done. -/
def doneSpool : SpoolDir :=
  [(lit "hfA001", some (lit "hf_name=hfA001\nincoming_pid=7\nincoming_time=9\n")),
    (lit "hfA002", some (lit "done_time=0x65000000\nhf_name=hfA002\nremove_time=0x65000000\n"))]

/-- No process is alive, a day after the job was done. -/
def dayAfter (saveWhenDone : Bool) (doneJobs doneJobsMaxAge : Int) : Setup :=
  ⟨saveWhenDone, false, doneJobs, doneJobsMaxAge, 0x65000000 + 86400, fun _ => false, fun _ => true⟩

theorem removeDoneJobs_spec_doneSpool :
    ∃ tickets removed cleared, scanQueue ⟨false, false⟩ scanAll doneSpool = tickets.map (sortLine ⟨false, false⟩) ∧
      (∀ ticket ∈ tickets, ticket ∈ listed scanAll doneSpool) ∧
      removeDoneJobs (dayAfter false 1 0) (scanQueue ⟨false, false⟩ scanAll doneSpool) doneSpool = some cleared ∧
      cleared.removed = removed.map (sortLine ⟨false, false⟩) ∧ Clears (dayAfter false 1 0) tickets removed ∧
      cleared.dir = without (fun _ => true) removed doneSpool := by
  have facts : ((∀ ticket ∈ listed scanAll doneSpool, 61 ∉ ticket.1) ∧
      ∀ s ∈ listed scanAll doneSpool, ∀ t ∈ listed scanAll doneSpool, s.1 ≠ t.1 →
        ∀ name ∈ s.1 :: s.2.files, name ∉ t.2.files) ∧
      ∀ ticket ∈ listed scanAll doneSpool, removal ticket.2 = 0 ∨ 2 ^ 28 ≤ removal ticket.2 := by decide +kernel
  exact removeDoneJobs_spec (dayAfter false 1 0) ⟨false, false⟩ scanAll doneSpool (by decide)
    ⟨facts.1.1, facts.1.2⟩ facts.2

/-- A job that stopped coming in is removed though it is not finished. Without a limit on the
count finished jobs stay, and so do they, however old, when jobs are saved. -/
theorem stopped_removed :
    (¬ ∀ setup config args dir cleared, removeDoneJobs setup (scanQueue config args dir) dir = some cleared →
        ∀ line ∈ cleared.removed, finished (readTicket dir line) = true) ∧
      (¬ ∀ setup config args dir cleared, removeDoneJobs setup (scanQueue config args dir) dir = some cleared →
        setup.doneJobs = 0 → ∀ line ∈ scanQueue config args dir,
          candidate setup (readTicket dir line) = true → line ∈ cleared.removed) ∧
      ¬ ∀ setup config args dir cleared, removeDoneJobs setup (scanQueue config args dir) dir = some cleared →
        ∀ line ∈ scanQueue config args dir, finished (readTicket dir line) = true →
          active setup (readTicket dir line) = false → expired setup (readTicket dir line) = true →
          line ∈ cleared.removed := by
  let lines := scanQueue ⟨false, false⟩ scanAll doneSpool
  have ran : ((removeDoneJobs (dayAfter false 1 0) lines doneSpool).any fun cleared =>
        cleared.removed.any fun line => !finished (readTicket doneSpool line)) = true ∧
      ((removeDoneJobs (dayAfter false 0 100000) lines doneSpool).any fun cleared =>
        lines.any fun line => candidate (dayAfter false 0 100000) (readTicket doneSpool line) &&
          !cleared.removed.contains line) = true ∧
      ((removeDoneJobs (dayAfter true 1 60) lines doneSpool).any fun cleared =>
        lines.any fun line => finished (readTicket doneSpool line) &&
          !active (dayAfter true 1 60) (readTicket doneSpool line) &&
          expired (dayAfter true 1 60) (readTicket doneSpool line) && !cleared.removed.contains line) = true := by
    decide +kernel
  refine ⟨fun claimed => ?_, fun claimed => ?_, fun claimed => ?_⟩
  · rcases (Option.any_eq_true _ _).mp ran.1 with ⟨cleared, there, found⟩
    rcases List.any_eq_true.mp found with ⟨line, member, unfinished⟩
    rw [claimed _ _ _ _ cleared there line member] at unfinished
    cases unfinished
  · rcases (Option.any_eq_true _ _).mp ran.2.1 with ⟨cleared, there, found⟩
    rcases List.any_eq_true.mp found with ⟨line, member, stays⟩
    rw [Bool.and_eq_true, Bool.not_eq_true', ← Bool.not_eq_true, List.contains_iff_mem] at stays
    exact stays.2 (claimed _ _ _ _ cleared there rfl line member stays.1)
  · rcases (Option.any_eq_true _ _).mp ran.2.2 with ⟨cleared, there, found⟩
    rcases List.any_eq_true.mp found with ⟨line, member, stays⟩
    simp only [Bool.and_eq_true, Bool.not_eq_true'] at stays
    rcases stays with ⟨⟨⟨done, idle⟩, old⟩, outside⟩
    rw [← Bool.not_eq_true, List.contains_iff_mem] at outside
    exact outside (claimed _ _ _ _ cleared there line member done idle old)

end DoneJobs

end JobLists

end LPRng
