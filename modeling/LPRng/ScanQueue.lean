import LPRng.JobNumber
import LPRng.TicketFile

/-!
# The order of a queue

`Scan_queue` reads the ticket of every job in the spool directory and puts the names of the
tickets into a line list under a key that is printed from their fields, so that the list
comes out in the order in which the jobs are served.
-/

namespace LPRng

namespace JobLists

open JobNumber

def removeTime : Bytes := lit "remove_time"
def holdClass : Bytes := lit "hold_class"
def holdTime : Bytes := lit "hold_time"
def move : Bytes := lit "move"
def priority : Bytes := lit "priority"
def priorityTime : Bytes := lit "priority_time"
def jobTime : Bytes := lit "job_time"
def jobTimeUsec : Bytes := lit "job_time_usec"
def number : Bytes := lit "number"

/-! ## Sort keys -/

/-- `0x%08x` and `%02x`. -/
def hex8 (n : Nat) : Bytes := lit "0x" ++ padLeft 8 (printNat 16 n)
def hex2 (n : Nat) : Bytes := padLeft 2 (printNat 16 n)

/-- What is printed behind the sort key, into what is left of its 512 bytes. -/
def addKey (sortKey key value : Bytes) : Bytes :=
  sortKey ++ plpSnprintf (512 - sortKey.length) (124 :: key ++ 46 :: value)

def intval (key : Bytes) (list : LineList) (sortKey : Bytes) : Bytes :=
  addKey sortKey key (hex8 (list.findFlagValue key % 2 ^ 32).toNat)

def revintval (key : Bytes) (list : LineList) (sortKey : Bytes) : Bytes :=
  addKey sortKey key (hex8 ((-1 - list.findFlagValue key) % 2 ^ 32).toNat)

def strnzval (key : Bytes) (list : LineList) (sortKey : Bytes) : Bytes :=
  let s := list.findStrValue key
  addKey sortKey key (if s = none ∨ s = some [] then [49] else [48])

/-- The first character of a value, 0 if there is none. -/
def firstChar (s : Option Bytes) : UInt8 := (s.getD []).headD 0

def strval (key : Bytes) (list : LineList) (sortKey : Bytes) (reverse : Bool) : Bytes :=
  let c := firstChar (list.findStrValue key)
  addKey sortKey key (hex2 (if reverse then c else -c).toNat)

/-- The configuration the order depends on. -/
structure OrderConfig where
  ignoreRequestedUserPriority : Bool
  reversePriorityOrder : Bool

/-- `Make_sort_key` without an order routine of the site. -/
def makeSortKey (config : OrderConfig) (job : JobLists) : Bytes :=
  let key := strnzval move job.info
    (intval holdTime job.info (intval holdClass job.info (intval removeTime job.info [])))
  let key := if config.ignoreRequestedUserPriority then key
    else strval priority job.info key config.reversePriorityOrder
  intval number job.info (intval jobTimeUsec job.info (intval jobTime job.info
    (revintval priorityTime job.info key)))

/-! ## The scan -/

/-- What `Scan_queue` is called with: the prefix and suffix of files to remove, and whether
only jobs to work on are listed. Whether there is work on a job is up to `Job_printable`. -/
structure ScanArgs where
  removePrefix : Bytes
  removeSuffix : Bytes
  onlyQueueProcess : Bool
  toProcess : JobLists → Bool

def ScanArgs.removes (args : ScanArgs) (name : Bytes) : Bool :=
  (args.removePrefix ≠ [] && args.removePrefix.isPrefixOf name) ||
    (args.removeSuffix ≠ [] && args.removeSuffix.isSuffixOf name)

/-- The names of tickets: `hf`, a letter, and a number. -/
def isTicketName (name : Bytes) : Bool :=
  match name with
  | 104 :: 102 :: a :: d :: _ => isAlpha a && isDigit d
  | _ => false

/-- The files of a spool directory in the order they are read, with what is in them. A file
that cannot be opened or locked has no contents. -/
abbrev SpoolDir := List (Bytes × Option Bytes)

/-- `Get_job_ticket_file` by the name of the file. -/
def readTicket (dir : SpoolDir) (name : Bytes) : JobLists :=
  let name := if 61 ∈ name then (name.dropWhile (· ≠ 61)).tail else name
  match dir.lookup name with
  | some (some image) => getJobTicketFile image
  | _ => { info := [], datafiles := [] }

/-- The readable tickets that are to be listed. -/
def listed (args : ScanArgs) (dir : SpoolDir) : List (Bytes × JobLists) :=
  dir.filterMap fun file =>
    let job := readTicket dir file.1
    if args.removes file.1 || !isTicketName file.1 || job.info = [] ||
      (args.onlyQueueProcess && !args.toProcess job) then none
    else some (file.1, job)

/-- `Scan_queue`. -/
def scanQueue (config : OrderConfig) (args : ScanArgs) (dir : SpoolDir) : LineList :=
  (listed args dir).foldl
    (fun sortOrder ticket => sortOrder.setStrValue (makeSortKey config ticket.2) (some ticket.1)) []

/-! ## What a sort key says -/

/-- One part of a sort key. -/
def field (rank : Bytes × Bytes) : Bytes := 124 :: rank.1 ++ 46 :: rank.2

/-- The parts of the sort key of a job. -/
def ranks (config : OrderConfig) (job : JobLists) : List (Bytes × Bytes) :=
  let flag := fun key => (key, hex8 (job.info.findFlagValue key % 2 ^ 32).toNat)
  [flag removeTime, flag holdClass, flag holdTime,
    (move, if job.info.findStrValue move = none ∨ job.info.findStrValue move = some [] then [49]
      else [48])] ++
  (if config.ignoreRequestedUserPriority then []
    else [(priority, hex2 (if config.reversePriorityOrder then firstChar (job.info.findStrValue priority)
      else -firstChar (job.info.findStrValue priority)).toNat)]) ++
  [(priorityTime, hex8 ((-1 - job.info.findFlagValue priorityTime) % 2 ^ 32).toNat),
    flag jobTime, flag jobTimeUsec, flag number]

variable {config : OrderConfig} {a b : JobLists}

theorem makeSortKey_eq_foldl (config : OrderConfig) (job : JobLists) :
    makeSortKey config job = (ranks config job).foldl (fun s rank => addKey s rank.1 rank.2) [] := by
  unfold makeSortKey ranks
  cases config.ignoreRequestedUserPriority <;> rfl

theorem foldl_addKey {parts : List (Bytes × Bytes)} {s : Bytes}
    (fits : s.length + (parts.flatMap field).length < 512) :
    parts.foldl (fun s rank => addKey s rank.1 rank.2) s = s ++ parts.flatMap field := by
  induction parts generalizing s with
  | nil => exact (List.append_nil s).symm
  | cons rank parts ih =>
      rw [List.flatMap_cons, List.length_append] at fits
      have whole : addKey s rank.1 rank.2 = s ++ field rank := by
        rw [addKey, plpSnprintf, List.take_of_length_le]
        · rfl
        · change (field rank).length ≤ _
          omega
      rw [List.foldl_cons, whole, ih, List.flatMap_cons, List.append_assoc]
      rw [List.length_append]
      omega

theorem length_hex8 (n : Int) : (hex8 (n % 2 ^ 32).toNat).length = 10 := by
  have fits : (n % 2 ^ 32).toNat < 16 ^ 8 := by omega
  have width := length_padLeft (length_printNat_le (by decide : 2 ≤ 16) (by decide : 0 < 8) fits)
  rw [hex8, List.length_append, width]
  rfl

theorem length_hex2 (c : UInt8) : (hex2 c.toNat).length = 2 :=
  length_padLeft (length_printNat_le (by decide : 2 ≤ 16) (by decide : 0 < 2) c.toNat_lt)

/-- A number behind the zeros is read back. -/
theorem scanNat_padLeft_printNat (width n : Nat) :
    (scanNat 16 0 (padLeft width (printNat 16 n))).1 = n := by
  have read := scanNat_printNat (by decide : 2 ≤ 16) (by decide) n (stopsDigits_nil 16)
  rw [List.append_nil] at read
  rw [scanNat_padLeft (by decide), read]

theorem hex8_inj {m n : Nat} : hex8 m = hex8 n ↔ m = n := by
  refine ⟨fun same => ?_, congrArg hex8⟩
  have digits := List.append_cancel_left same
  rw [← scanNat_padLeft_printNat 8 m, digits, scanNat_padLeft_printNat]

theorem hex2_inj {m n : Nat} : hex2 m = hex2 n ↔ m = n := by
  refine ⟨fun same => ?_, congrArg hex2⟩
  rw [← scanNat_padLeft_printNat 2 m, ← hex2, same, hex2, scanNat_padLeft_printNat]

/-- The key of a part and the length of its value, which do not depend on the job. -/
def shape (rank : Bytes × Bytes) : Bytes × Nat := (rank.1, rank.2.length)

def shapes (ignored : Bool) : List (Bytes × Nat) :=
  [(removeTime, 10), (holdClass, 10), (holdTime, 10), (move, 1)] ++
  (if ignored then [] else [(priority, 2)]) ++
  [(priorityTime, 10), (jobTime, 10), (jobTimeUsec, 10), (number, 10)]

theorem map_shape_ranks (config : OrderConfig) (job : JobLists) :
    (ranks config job).map shape = shapes config.ignoreRequestedUserPriority := by
  have single : ∀ p : Prop, [Decidable p] → (if p then [49] else [48] : Bytes).length = 1 := by
    intro p _
    split <;> rfl
  unfold ranks shapes
  cases config.ignoreRequestedUserPriority <;>
    simp only [Bool.false_eq_true, if_false, if_true, List.map_append, List.map_cons, List.map_nil,
      shape, length_hex8, length_hex2, single]

theorem length_field (rank : Bytes × Bytes) :
    (field rank).length = (shape rank).1.length + (shape rank).2 + 2 := by
  rw [field, List.length_append, List.length_cons, List.length_cons]
  dsimp only [shape]
  omega

theorem length_flatMap_field (parts : List (Bytes × Bytes)) :
    (parts.flatMap field).length = ((parts.map shape).map fun s => s.1.length + s.2 + 2).sum := by
  induction parts with
  | nil => rfl
  | cons rank parts ih =>
      rw [List.flatMap_cons, List.length_append, ih, length_field]
      rfl

/-- Parts of one shape are told apart by the texts printed for them. -/
theorem flatMap_field_inj {parts others : List (Bytes × Bytes)}
    (alike : parts.map shape = others.map shape) :
    parts.flatMap field = others.flatMap field ↔ parts = others := by
  refine ⟨fun same => ?_, congrArg _⟩
  induction parts generalizing others with
  | nil => exact (List.map_eq_nil_iff.mp alike.symm).symm
  | cons rank parts ih =>
      cases others with
      | nil => cases alike
      | cons other others =>
          obtain ⟨first, rest⟩ := List.cons.inj alike
          have sameKey : rank.1 = other.1 := (Prod.mk.inj first).1
          rw [List.flatMap_cons, List.flatMap_cons] at same
          have size : (field rank).length = (field other).length := by
            rw [length_field, length_field, first]
          obtain ⟨here, behind⟩ := List.append_inj same size
          rw [field, field, sameKey] at here
          have value := List.cons.inj (List.append_cancel_left here)
          rw [ih rest behind, Prod.ext sameKey value.2]

/-- The key fits into its 512 bytes. -/
theorem makeSortKey_eq (config : OrderConfig) (job : JobLists) :
    makeSortKey config job = (ranks config job).flatMap field := by
  have fits : ∀ ignored, ((shapes ignored).map fun s => s.1.length + s.2 + 2).sum < 512 := by
    decide
  rw [makeSortKey_eq_foldl, foldl_addKey, List.nil_append]
  rw [length_flatMap_field, map_shape_ranks, List.length_nil, Nat.zero_add]
  exact fits _

theorem makeSortKey_inj (config : OrderConfig) (a b : JobLists) :
    makeSortKey config a = makeSortKey config b ↔ ranks config a = ranks config b := by
  rw [makeSortKey_eq, makeSortKey_eq]
  exact flatMap_field_inj ((map_shape_ranks config a).trans (map_shape_ranks config b).symm)

/-! ## Jobs of one rank -/

/-- Two jobs that only their numbers can tell apart. -/
structure SameRank (config : OrderConfig) (a b : JobLists) : Prop where
  flags : ∀ key ∈ [removeTime, holdClass, holdTime, priorityTime, jobTime, jobTimeUsec],
    a.info.findFlagValue key = b.info.findFlagValue key
  moved : (a.info.findStrValue move).getD [] = [] ↔ (b.info.findStrValue move).getD [] = []
  priority : config.ignoreRequestedUserPriority = false →
    firstChar (a.info.findStrValue priority) = firstChar (b.info.findStrValue priority)

/-- A flag is an `int`. -/
theorem findFlagValue_bounds (l : LineList) (key : Bytes) :
    -2 ^ 31 ≤ l.findFlagValue key ∧ l.findFlagValue key < 2 ^ 31 := by
  unfold LineList.findFlagValue flagOfText
  split
  · have low := Int.le_bmod (x := (strtol 0 (l.findValue key)).1) (m := 2 ^ 32) (by decide)
    have high := toInt32_lt (strtol 0 (l.findValue key)).1
    unfold toInt32 at high ⊢
    omega
  · decide

theorem hex8_findFlagValue_inj {l m : LineList} {key : Bytes} :
    hex8 (l.findFlagValue key % 2 ^ 32).toNat = hex8 (m.findFlagValue key % 2 ^ 32).toNat ↔
      l.findFlagValue key = m.findFlagValue key := by
  have left := findFlagValue_bounds l key
  have right := findFlagValue_bounds m key
  rw [hex8_inj]
  omega

/-- The inverted flag. -/
theorem hex8_inverted_inj {l m : LineList} {key : Bytes} :
    hex8 ((-1 - l.findFlagValue key) % 2 ^ 32).toNat =
        hex8 ((-1 - m.findFlagValue key) % 2 ^ 32).toNat ↔
      l.findFlagValue key = m.findFlagValue key := by
  have left := findFlagValue_bounds l key
  have right := findFlagValue_bounds m key
  rw [hex8_inj]
  omega

theorem hex2_turned_inj {reverse : Bool} {c d : UInt8} :
    hex2 (if reverse then c else -c).toNat = hex2 (if reverse then d else -d).toNat ↔ c = d := by
  rw [hex2_inj, UInt8.toNat_inj]
  cases reverse
  · exact UInt8.neg_inj
  · exact Iff.rfl

theorem emptiness_inj {p q : Prop} [Decidable p] [Decidable q] :
    (if p then [49] else [48] : Bytes) = (if q then [49] else [48]) ↔ (p ↔ q) := by
  by_cases left : p <;> by_cases right : q <;> simp [left, right]

theorem eq_none_or_eq_nil {s : Option Bytes} : s = none ∨ s = some [] ↔ s.getD [] = [] := by
  cases s <;> simp

/-- The sort keys of two jobs are equal if the jobs are of one rank and their numbers are
read as one. -/
theorem ranks_inj {config : OrderConfig} {a b : JobLists} :
    ranks config a = ranks config b ↔ SameRank config a b ∧
      a.info.findFlagValue number = b.info.findFlagValue number := by
  have fields : SameRank config a b ↔
      (∀ key ∈ [removeTime, holdClass, holdTime, priorityTime, jobTime, jobTimeUsec],
        a.info.findFlagValue key = b.info.findFlagValue key) ∧
      ((a.info.findStrValue move).getD [] = [] ↔ (b.info.findStrValue move).getD [] = []) ∧
      (config.ignoreRequestedUserPriority = false →
        firstChar (a.info.findStrValue priority) = firstChar (b.info.findStrValue priority)) :=
    ⟨fun same => ⟨same.flags, same.moved, same.priority⟩,
      fun ⟨flags, moved, first⟩ => ⟨flags, moved, first⟩⟩
  rw [fields]
  unfold ranks
  cases config.ignoreRequestedUserPriority <;>
    simp only [List.cons_append, List.nil_append, List.cons.injEq, Prod.mk.injEq, true_and, and_true,
      hex8_findFlagValue_inj, hex8_inverted_inj, hex2_turned_inj, emptiness_inj, eq_none_or_eq_nil,
      Bool.false_eq_true, if_false, if_true, List.forall_mem_cons, List.not_mem_nil, false_imp_iff,
      implies_true, forall_const, reduceCtorEq, and_assoc]
  · constructor
    · exact fun ⟨f₁, f₂, f₃, moved, first, f₄, f₅, f₆, same⟩ => ⟨f₁, f₂, f₃, f₄, f₅, f₆, moved, first, same⟩
    · exact fun ⟨f₁, f₂, f₃, f₄, f₅, f₆, moved, first, same⟩ => ⟨f₁, f₂, f₃, moved, first, f₄, f₅, f₆, same⟩
  · constructor
    · exact fun ⟨f₁, f₂, f₃, moved, f₄, f₅, f₆, same⟩ => ⟨f₁, f₂, f₃, f₄, f₅, f₆, moved, same⟩
    · exact fun ⟨f₁, f₂, f₃, f₄, f₅, f₆, moved, same⟩ => ⟨f₁, f₂, f₃, moved, f₄, f₅, f₆, same⟩

/-- The characters of sort keys are no separators, and no letters in upper case. -/
def isKeyByte (c : UInt8) : Bool := !isUpper c && !optionValueSep.contains c

theorem all_isKeyByte_printNat (width n : Nat) :
    (padLeft width (printNat 16 n)).all isKeyByte = true :=
  all_padLeft_printNat (by decide) (by decide) width n

theorem all_isKeyByte_hex8 (n : Nat) : (hex8 n).all isKeyByte = true := by
  have front : (lit "0x").all isKeyByte = true := by decide
  rw [hex8, List.all_append, front, all_isKeyByte_printNat]
  rfl

theorem all_isKeyByte_makeSortKey (config : OrderConfig) (job : JobLists) :
    (makeSortKey config job).all isKeyByte = true := by
  have names : [removeTime, holdClass, holdTime, move, priority, priorityTime, jobTime, jobTimeUsec,
      number].all (·.all isKeyByte) = true := by decide
  have digits : ∀ p : Prop, [Decidable p] → (if p then [49] else [48] : Bytes).all isKeyByte = true := by
    intro p _
    split <;> decide
  have between : isKeyByte 124 = true ∧ isKeyByte 46 = true := by decide
  have printed : ∀ n, (hex2 n).all isKeyByte = true := fun n => all_isKeyByte_printNat 2 n
  simp only [List.all_cons, List.all_nil, Bool.and_true, Bool.and_eq_true] at names
  rw [makeSortKey_eq]
  unfold ranks
  cases config.ignoreRequestedUserPriority <;>
    simp only [Bool.false_eq_true, if_false, if_true, List.cons_append, List.nil_append,
      List.flatMap_cons, List.flatMap_nil, List.append_nil, field, List.all_append, List.all_cons,
      names, between, digits, printed, all_isKeyByte_hex8, Bool.and_self]

theorem foldCase_inj {s t : Bytes} (left : s.all isKeyByte = true) (right : t.all isKeyByte = true) :
    foldCase s = foldCase t ↔ s = t := by
  have plain : ∀ s : Bytes, s.all isKeyByte = true → foldCase s = s.map UInt8.toNat := by
    intro s bytes
    refine List.map_congr_left fun c member => ?_
    have byte := List.all_eq_true.mp bytes c member
    simp only [isKeyByte, Bool.and_eq_true, Bool.not_eq_true'] at byte
    rw [toLower, byte.1]
    rfl
  rw [plain s left, plain t right]
  exact List.map_inj_right fun c d same => UInt8.toNat_inj.mp same

theorem sepFree_makeSortKey (config : OrderConfig) (job : JobLists) :
    SepFree (makeSortKey config job) := by
  intro c member
  have byte := List.all_eq_true.mp (all_isKeyByte_makeSortKey config job) c member
  simp only [isKeyByte, Bool.and_eq_true, Bool.not_eq_true'] at byte
  simpa using byte.2

/-! ## What the scan keeps -/

/-- The line of a ticket in the sort order. -/
def sortLine (config : OrderConfig) (ticket : Bytes × JobLists) : Bytes :=
  makeSortKey config ticket.2 ++ 61 :: ticket.1

theorem lineKey_sortLine (config : OrderConfig) (ticket : Bytes × JobLists) :
    lineKey (sortLine config ticket) = foldCase (makeSortKey config ticket.2) :=
  lineKey_keyValue (sepFree_makeSortKey config ticket.2) ticket.1

theorem keyed_insertAll_sortLine (config : OrderConfig) (tickets : List (Bytes × JobLists)) :
    LineList.Keyed (insertAll lineKey (tickets.map (sortLine config))) := by
  induction tickets using List.reverseRecOn with
  | nil => exact LineList.keyed_nil
  | append_singleton tickets ticket ih =>
      rw [List.map_append, List.map_singleton, insertAll_snoc]
      exact ih.insert (clear_keyValue (sepFree_makeSortKey config ticket.2) _)

/-- The names of tickets are no empty texts, so each one is put in. -/
theorem foldl_setStrValue_eq (config : OrderConfig) {tickets : List (Bytes × JobLists)}
    (named : ∀ ticket ∈ tickets, ticket.1 ≠ []) :
    tickets.foldl (fun sortOrder ticket =>
      LineList.setStrValue sortOrder (makeSortKey config ticket.2) (some ticket.1)) [] =
    insertAll lineKey (tickets.map (sortLine config)) := by
  induction tickets using List.reverseRecOn with
  | nil => rfl
  | append_singleton tickets ticket ih =>
      have before := ih fun other member => named other (List.mem_append_left _ member)
      have name := named ticket (List.mem_append_right _ List.mem_cons_self)
      have free := sepFree_makeSortKey config ticket.2
      rw [List.foldl_append, before, List.map_append, List.map_singleton, insertAll_snoc, List.foldl_cons,
        List.foldl_nil, (keyed_insertAll_sortLine config tickets).setStrValue free]
      simp only [Option.filter_some, name, ne_eq, not_false_eq_true, decide_true, if_true]
      rfl

theorem name_of_mem_listed {args : ScanArgs} {dir : SpoolDir} {ticket : Bytes × JobLists}
    (member : ticket ∈ listed args dir) : ticket.1 ≠ [] := by
  obtain ⟨file, -, kept⟩ := List.mem_filterMap.mp member
  dsimp only at kept
  split at kept
  · cases kept
  · next passed =>
      cases kept
      intro empty
      rw [show file.1 = [] from empty] at passed
      simp [isTicketName] at passed

theorem scanQueue_eq (config : OrderConfig) (args : ScanArgs) (dir : SpoolDir) :
    scanQueue config args dir = insertAll lineKey ((listed args dir).map (sortLine config)) :=
  foldl_setStrValue_eq config fun _ member => name_of_mem_listed member

/-- The names in the sort order. -/
theorem filterMap_valueOf_sortLine (config : OrderConfig) (tickets : List (Bytes × JobLists)) :
    (tickets.map (sortLine config)).filterMap valueOf = tickets.map Prod.fst := by
  rw [List.filterMap_map, ← List.filterMap_eq_map]
  refine List.filterMap_congr fun ticket _ => ?_
  exact valueOf_keyValue (sepFree_makeSortKey config ticket.2)

/-- A scan lists each of its jobs once exactly if their sort keys are different. -/
theorem scanQueue_perm_iff (config : OrderConfig) (args : ScanArgs) (dir : SpoolDir) :
    ((scanQueue config args dir).filterMap valueOf).Perm ((listed args dir).map Prod.fst) ↔
      (listed args dir).Pairwise fun s t => makeSortKey config s.2 ≠ makeSortKey config t.2 := by
  have keys : ((listed args dir).map (sortLine config)).Pairwise (fun s t => lineKey s ≠ lineKey t) ↔
      (listed args dir).Pairwise fun s t => makeSortKey config s.2 ≠ makeSortKey config t.2 := by
    rw [List.pairwise_map]
    refine List.Pairwise.iff fun s t => ?_
    rw [lineKey_sortLine, lineKey_sortLine, ne_eq, foldCase_inj (all_isKeyByte_makeSortKey _ _)
      (all_isKeyByte_makeSortKey _ _)]
  rw [← keys, scanQueue_eq]
  constructor
  · intro perm
    refine length_insertAll_iff.mp (Nat.le_antisymm (length_insertAll_le _ _) ?_)
    have names := perm.length_eq
    have kept := List.length_filterMap_le valueOf
      (insertAll lineKey ((listed args dir).map (sortLine config)))
    rw [List.length_map] at names ⊢
    omega
  · intro distinct
    rw [← filterMap_valueOf_sortLine config]
    exact (insertAll_perm distinct).filterMap valueOf

/-! ## The jobs a scan loses -/

/-- The number of a job, as it stands in its ticket. -/
def numberText (job : JobLists) : Bytes := (job.info.findStrValue number).getD []

/-- Two jobs the sort order does not tell apart. -/
def Collide (config : OrderConfig) (a b : JobLists) : Prop :=
  SameRank config a b ∧ octalTrap (numberText a) = true ∧ octalTrap (numberText b) = true

theorem makeSortKey_eq_iff {a b : JobLists} {long : Bool} {m n : Int}
    (left : a.info.findStrValue number = some (fixJobNumber long m))
    (right : b.info.findStrValue number = some (fixJobNumber long n))
    (differ : a.info.findStrValue number ≠ b.info.findStrValue number) :
    makeSortKey config a = makeSortKey config b ↔ Collide config a b := by
  have texts : fixJobNumber long m ≠ fixJobNumber long n := fun same =>
    differ (left.trans ((congrArg some same).trans right.symm))
  rw [makeSortKey_inj, ranks_inj, LineList.findFlagValue_of_findStrValue left (head_fixJobNumber long m),
    LineList.findFlagValue_of_findStrValue right (head_fixJobNumber long n), flagOfText_fixJobNumber_inj,
    or_iff_right texts, Collide, numberText, numberText, left, right]
  rfl

/-- Tickets of jobs that came in the same moment. -/
def spoolOf (numbers : List String) : SpoolDir :=
  numbers.map fun n => (lit "hfA" ++ lit n, some (lit "job_time=0x5\nnumber=" ++ lit n ++ lit "\n"))

def scanAll : ScanArgs := ⟨[], [], false, fun _ => true⟩

end JobLists

end LPRng
