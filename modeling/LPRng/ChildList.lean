import LPRng.Job
import LPRng.Transition

/-!
# The list of child processes

A process keeps the pids of the children it forked in `Process_list`, so that it can signal them
when it ends. `dofork` adds a pid, `plp_waitpid` takes the pid it waited for off the list when the
wait reports something, and `Countpid` and `Killchildren` keep the pids that take a signal. The
list is right in every state of a run in which each wait that collects a child names its pid, and
no wait that only reports a stop does.
-/

namespace LPRng.ChildList

/-- What the system has on a child that was not collected: a stop or a continuation is reported
once. -/
inductive ChildStatus where
  | running
  | stopped (reported : Bool)
  | continued
  | terminated
  deriving DecidableEq, Repr

/-- The kind of status `waitpid` reports. -/
inductive Report where
  | terminated
  | stopped
  | continued
  deriving DecidableEq, Repr

structure WaitOptions where
  nohang : Bool
  untraced : Bool
  continued : Bool
  deriving DecidableEq, Repr

/-- What `waitpid` returns: a pid with its status, 0, or an error. -/
inductive WaitResult where
  | reported (pid : Pid) (report : Report)
  | nothing
  | failed

/-- The children of a process that are not collected yet, its `Process_list`, and which of the
pids `Countpid` or `Killchildren` took off the list since they were forked. -/
structure Process where
  children : Pid → Option ChildStatus
  list : List Pid
  foundDead : Pid → Bool

namespace Process

/-- A process starts without children: `dofork` clears the list in the child. -/
def start : Process := ⟨fun _ => none, [], fun _ => false⟩

end Process

inductive Event where
  /-- `dofork`, with the pid the parent gets, if there is one. -/
  | dofork (pid : Option Pid)
  /-- A child stops, continues or terminates. -/
  | change (pid : Pid) (status : ChildStatus)
  | waitpid (pid : Int) (options : WaitOptions) (result : WaitResult)
  /-- `Countpid`, with the pids that take a signal. -/
  | countpid (takes : Pid → Bool)
  | killchildren (takes : Pid → Bool)

/-! ## What the list operations do -/

/-- `forget_child`: the last entry takes the place of the first one that is equal. -/
def forgetChild (pid : Int) (list : List Pid) : List Pid :=
  match list.findIdx? fun p => (p.val : Int) = pid, list.getLast? with
  | some i, some last => (list.set i last).dropLast
  | _, _ => list

/-- What a child may turn to. -/
def ChildStatus.turns : ChildStatus → ChildStatus → Bool
  | .running, .stopped false | .continued, .stopped false => true
  | .stopped _, .continued => true
  | .terminated, _ => false
  | _, .terminated => true
  | _, _ => false

/-- The wait reports a status the child has, if it asks for the child. -/
def WaitOptions.reports (options : WaitOptions) : Report → ChildStatus → Bool
  | .terminated, .terminated => true
  | .stopped, .stopped false => options.untraced
  | .continued, .continued => options.continued
  | _, _ => false

/-- What the system has on a child that was reported. -/
def Report.leaves : Report → Option ChildStatus
  | .terminated => none
  | .stopped => some (.stopped true)
  | .continued => some .running

namespace Process

/-- `waitpid`, as the system does it. -/
def collect (s : Process) (pid : Int) (options : WaitOptions) : WaitResult → Option Process
  | .reported p report =>
      match s.children p with
      | some status =>
          if (0 < pid → (p.val : Int) = pid) ∧ options.reports report status then
            some { s with children := Function.update s.children p report.leaves }
          else none
      | none => none
  | .nothing => if options.nohang then some s else none
  | .failed => some s

/-- `plp_waitpid`. -/
def plpWaitpid (s : Process) (pid : Int) (options : WaitOptions) (result : WaitResult) :
    Option Process := do
  let s ← s.collect pid options result
  match result with
  | .reported _ _ => return { s with list := forgetChild pid s.list }
  | _ => return s

/-- The loop of `Countpid` and `Killchildren`. -/
def keepTaking (s : Process) (takes : Pid → Bool) : Process :=
  { s with
    list := s.list.filter takes
    foundDead := fun p => s.foundDead p || (decide (p ∈ s.list) && !takes p) }

def next (s : Process) : Event → Option Process
  | .dofork none => some s
  | .dofork (some pid) =>
      if s.children pid = none then
        some ⟨Function.update s.children pid (some .running), s.list ++ [pid],
          Function.update s.foundDead pid false⟩
      else none
  | .change pid status =>
      match s.children pid with
      | some before =>
          if before.turns status then
            some { s with children := Function.update s.children pid (some status) }
          else none
      | none => none
  | .waitpid pid options result => s.plpWaitpid pid options result
  | .countpid takes | .killchildren takes => some (s.keepTaking takes)

/-- The list has the pids of all children that are not collected, each once, but for those that
were found dead. -/
structure Accurate (s : Process) : Prop where
  nodup : s.list.Nodup
  mem_iff : ∀ p, p ∈ s.list ↔ s.children p ≠ none ∧ s.foundDead p = false

end Process

def system : System Process Event := .ofNext (· = Process.start) Process.next

/-- A wait that collects a child names its pid, and one that reports a child that is not collected
does not; or the child was found dead before. -/
def NamesCollected (s : Process) : Event → Prop
  | .waitpid pid _ (.reported p .terminated) => pid = p.val ∨ s.foundDead p = true
  | .waitpid pid _ (.reported p _) => pid ≠ p.val ∨ s.foundDead p = true
  | _ => True

/-! ## The list after one removal -/

variable {pid : Int} {list : List Pid} {s s' : Process} {p : Pid}

theorem pid_eq_iff {p q : Pid} : (p.val : Int) = q.val ↔ p = q := by
  rw [Int.natCast_inj]
  refine ⟨fun same => ?_, congrArg Pid.val⟩
  cases p
  cases q
  cases same
  rfl

/-- The last entry in place of another one: what is left is a permutation of the rest. -/
theorem dropLast_set_perm {α : Type*} (front : List α) (a : α) (back : List α) (last : α)
    (ends : (front ++ a :: back).getLast? = some last) :
    ((front ++ a :: back).set front.length last).dropLast.Perm (front ++ back) := by
  rcases List.eq_nil_or_concat back with rfl | ⟨back, b, rfl⟩
  · rw [List.set_append_right _ _ (Nat.le_refl _), Nat.sub_self, List.set_cons_zero,
      List.dropLast_concat, List.append_nil]
  · rw [List.concat_eq_append] at ends ⊢
    have whole : front ++ a :: (back ++ [b]) = (front ++ a :: back) ++ [b] := by simp
    rw [whole, List.getLast?_concat] at ends
    have swapped : (front ++ a :: (back ++ [b])).set front.length last = (front ++ last :: back) ++ [b] := by
      rw [List.set_append_right _ _ (Nat.le_refl _), Nat.sub_self, List.set_cons_zero]
      simp
    rw [swapped, List.dropLast_concat, ← Option.some.inj ends]
    exact (List.perm_append_singleton b back).symm.append_left front

/-- The pid of a wait is taken off the list. -/
theorem forgetChild_perm (member : p ∈ list) :
    ∃ front back, list = front ++ p :: back ∧ (forgetChild p.val list).Perm (front ++ back) := by
  obtain ⟨front, back, rfl, earlier⟩ := List.eq_append_cons_of_mem member
  refine ⟨front, back, rfl, ?_⟩
  have found : (front ++ p :: back).findIdx? (fun q => (q.val : Int) = p.val) = some front.length := by
    have none_found : front.findIdx? (fun q => (q.val : Int) = p.val) = none := by
      rw [List.findIdx?_eq_none_iff]
      intro q inside
      rw [decide_eq_false_iff_not, pid_eq_iff]
      rintro rfl
      exact earlier inside
    rw [List.findIdx?_append, none_found, List.findIdx?_cons, if_pos (decide_eq_true rfl)]
    simp
  obtain ⟨last, ends⟩ : ∃ last, (front ++ p :: back).getLast? = some last :=
    Option.ne_none_iff_exists'.mp (by simp)
  unfold forgetChild
  rw [found, ends]
  exact dropLast_set_perm front p back last ends

/-- Any other pid changes nothing. -/
theorem forgetChild_of_absent (absent : ∀ q ∈ list, (q.val : Int) ≠ pid) :
    forgetChild pid list = list := by
  have none_found : list.findIdx? (fun q => (q.val : Int) = pid) = none := by
    rw [List.findIdx?_eq_none_iff]
    exact fun q member => decide_eq_false (absent q member)
  unfold forgetChild
  rw [none_found]

/-- What is left on a list without repetitions. -/
theorem forgetChild_spec (nodup : list.Nodup) (p : Pid) :
    (forgetChild p.val list).Nodup ∧ ∀ q, q ∈ forgetChild p.val list ↔ q ∈ list ∧ q ≠ p := by
  by_cases member : p ∈ list
  · obtain ⟨front, back, rfl, left⟩ := forgetChild_perm member
    have parts : p ∉ front ++ back ∧ (front ++ back).Nodup := by
      rw [← List.nodup_cons]
      exact List.perm_middle.nodup_iff.mp nodup
    refine ⟨left.nodup_iff.mpr parts.2, fun q => ?_⟩
    rw [left.mem_iff, List.perm_middle.mem_iff, List.mem_cons]
    refine ⟨fun inside => ⟨Or.inr inside, ?_⟩, fun both => both.1.resolve_left both.2⟩
    rintro rfl
    exact parts.1 inside
  · have same : forgetChild p.val list = list := forgetChild_of_absent fun q inside equal =>
      member (pid_eq_iff.mp equal ▸ inside)
    rw [same]
    refine ⟨nodup, fun q => ⟨fun inside => ⟨inside, ?_⟩, And.left⟩⟩
    rintro rfl
    exact member inside

/-! ## One step -/

theorem collect_reported {options : WaitOptions} {report : Report}
    (collected : s.collect pid options (.reported p report) = some s') :
    s.children p ≠ none ∧ (0 < pid → (p.val : Int) = pid) ∧
      s' = { s with children := Function.update s.children p report.leaves } := by
  rw [Process.collect] at collected
  split at collected
  · next status known =>
      split at collected
      · next reports => exact ⟨by rw [known]; exact Option.some_ne_none _, reports.1, (Option.some.inj collected).symm⟩
      · cases collected
  · cases collected

theorem plpWaitpid_reported {options : WaitOptions} {report : Report}
    (waited : s.plpWaitpid pid options (.reported p report) = some s') :
    s.children p ≠ none ∧ (0 < pid → (p.val : Int) = pid) ∧
      s' = { s with
        children := Function.update s.children p report.leaves
        list := forgetChild pid s.list } := by
  obtain ⟨collected, known, result⟩ := Option.bind_eq_some_iff.mp waited
  obtain ⟨child, named, rfl⟩ := collect_reported known
  exact ⟨child, named, (Option.some.inj result).symm⟩

/-- A wait that reports nothing leaves everything alone. -/
theorem plpWaitpid_nothing {options : WaitOptions} {result : WaitResult}
    (silent : ∀ p report, result ≠ .reported p report) (waited : s.plpWaitpid pid options result = some s') :
    s' = s := by
  obtain ⟨collected, known, final⟩ := Option.bind_eq_some_iff.mp waited
  have same : s' = collected := by
    cases result with
    | reported p report => exact absurd rfl (silent p report)
    | nothing => exact (Option.some.inj final).symm
    | failed => exact (Option.some.inj final).symm
  rw [same]
  cases result with
  | reported p report => exact absurd rfl (silent p report)
  | nothing =>
      rw [Process.collect] at known
      split at known
      · exact (Option.some.inj known).symm
      · cases known
  | failed => exact (Option.some.inj known).symm

/-- A list that stays right while one child changes. -/
theorem accurate_update_iff (accurate : s.Accurate) (child : s.children p ≠ none)
    (after : Option ChildStatus) :
    ({ s with children := Function.update s.children p after } : Process).Accurate ↔
      after ≠ none ∨ s.foundDead p = true := by
  refine ⟨fun right => ?_, fun kept => ⟨accurate.nodup, fun q => ?_⟩⟩
  · have before := accurate.mem_iff p
    have now := right.mem_iff p
    dsimp only at now
    rw [Function.update_self, before] at now
    by_cases dead : s.foundDead p = true
    · exact Or.inr dead
    · exact Or.inl (now.mp ⟨child, Bool.eq_false_iff.mpr dead⟩).1
  · rw [accurate.mem_iff q]
    dsimp only
    by_cases same : q = p
    · rw [same, Function.update_self]
      rcases kept with given | dead
      · exact ⟨fun both => ⟨given, both.2⟩, fun both => ⟨child, both.2⟩⟩
      · rw [dead]
        exact ⟨fun both => absurd both.2 (by decide), fun both => absurd both.2 (by decide)⟩
    · rw [Function.update_of_ne same]

/-- A list from which the pid of the child is taken. -/
theorem accurate_forget_iff (accurate : s.Accurate) (p : Pid)
    (after : Option ChildStatus) :
    ({ s with
        children := Function.update s.children p after
        list := forgetChild p.val s.list } : Process).Accurate ↔
      after = none ∨ s.foundDead p = true := by
  obtain ⟨nodup, members⟩ := forgetChild_spec accurate.nodup p
  have gone : p ∉ forgetChild p.val s.list := fun member => ((members p).mp member).2 rfl
  refine ⟨fun right => ?_, fun kept => ⟨nodup, fun q => ?_⟩⟩
  · have now := right.mem_iff p
    dsimp only at now
    rw [Function.update_self] at now
    by_cases left : after = none
    · exact Or.inl left
    · exact Or.inr (Bool.not_eq_false _ ▸ fun alive => gone (now.mpr ⟨left, alive⟩))
  · rw [members q, accurate.mem_iff q]
    dsimp only
    by_cases same : q = p
    · rw [same, Function.update_self]
      refine ⟨fun both => absurd rfl both.2, fun both => ?_⟩
      rcases kept with none_left | dead
      · exact absurd none_left both.1
      · exact absurd (dead.symm.trans both.2) (by decide)
    · rw [Function.update_of_ne same]
      exact and_iff_left same

/-- A wait from an accurate list leaves an accurate one exactly where it names what it collects. -/
theorem plpWaitpid_accurate_iff {options : WaitOptions} {report : Report} (accurate : s.Accurate)
    (waited : s.plpWaitpid pid options (.reported p report) = some s') :
    s'.Accurate ↔ NamesCollected s (.waitpid pid options (.reported p report)) := by
  obtain ⟨child, named, rfl⟩ := plpWaitpid_reported waited
  by_cases same : pid = p.val
  · subst same
    rw [accurate_forget_iff accurate p]
    cases report <;> simp [Report.leaves, NamesCollected]
  · have group : ¬0 < pid := fun positive => same (named positive).symm
    have unchanged : forgetChild pid s.list = s.list := forgetChild_of_absent fun q _ equal => by
      have positive := q.positive
      omega
    rw [unchanged, accurate_update_iff accurate child]
    cases report <;> simp [Report.leaves, NamesCollected, same]

theorem accurate_dofork (accurate : s.Accurate) (new : s.children p = none) :
    (⟨Function.update s.children p (some .running), s.list ++ [p],
      Function.update s.foundDead p false⟩ : Process).Accurate := by
  have absent : p ∉ s.list := fun member => ((accurate.mem_iff p).mp member).1 new
  refine ⟨?_, fun q => ?_⟩
  · rw [List.nodup_append]
    exact ⟨accurate.nodup, List.nodup_singleton p, fun q member r single same =>
      absent (List.mem_singleton.mp single ▸ same ▸ member)⟩
  · dsimp only
    rw [List.mem_append, List.mem_singleton, accurate.mem_iff q]
    by_cases same : q = p
    · rw [same, Function.update_self, Function.update_self]
      exact iff_of_true (Or.inr rfl) ⟨Option.some_ne_none _, rfl⟩
    · rw [Function.update_of_ne same, Function.update_of_ne same]
      exact or_iff_left same

theorem accurate_keepTaking (accurate : s.Accurate) (takes : Pid → Bool) :
    (s.keepTaking takes).Accurate := by
  refine ⟨accurate.nodup.filter takes, fun q => ?_⟩
  have before := accurate.mem_iff q
  unfold Process.keepTaking
  dsimp only
  rw [List.mem_filter]
  by_cases member : q ∈ s.list
  · obtain ⟨child, alive⟩ := before.mp member
    simp [member, child, alive]
  · have kept : ¬(s.children q ≠ none ∧ s.foundDead q = false) := fun both => member (before.mpr both)
    simpa [member] using kept

/-- A status that changes but is not collected. -/
theorem accurate_change (accurate : s.Accurate) {status : ChildStatus}
    (changed : s.next (.change p status) = some s') : s'.Accurate := by
  rw [Process.next] at changed
  split at changed
  · next before known =>
      split at changed
      · rw [← Option.some.inj changed]
        exact (accurate_update_iff accurate (by rw [known]; exact Option.some_ne_none before) _).mpr
          (Or.inl (Option.some_ne_none status))
      · cases changed
  · cases changed

/-- Every step leaves an accurate list exactly where it names what it collects. -/
theorem next_accurate_iff {e : Event} (accurate : s.Accurate) (ran : s.next e = some s') :
    s'.Accurate ↔ NamesCollected s e := by
  rcases e with pid | ⟨pid, status⟩ | ⟨pid, options, result⟩ | takes | takes
  · refine iff_of_true ?_ trivial
    rcases pid with - | pid
    · exact Option.some.inj ran ▸ accurate
    · rw [Process.next] at ran
      split at ran
      · next new => exact Option.some.inj ran ▸ accurate_dofork accurate new
      · cases ran
  · exact iff_of_true (accurate_change accurate ran) trivial
  · rcases result with ⟨p, report⟩ | - | -
    · exact plpWaitpid_accurate_iff accurate ran
    · exact iff_of_true (plpWaitpid_nothing (by simp) ran ▸ accurate) trivial
    · exact iff_of_true (plpWaitpid_nothing (by simp) ran ▸ accurate) trivial
  · exact iff_of_true (Option.some.inj ran ▸ accurate_keepTaking accurate takes) trivial
  · exact iff_of_true (Option.some.inj ran ▸ accurate_keepTaking accurate takes) trivial

/-! ## Whole runs -/

theorem accurate_start : Process.start.Accurate := by
  refine ⟨List.nodup_nil, fun q => ?_⟩
  simp [Process.start]

/-- In a run whose waits name what they collect, the list always has exactly the pids of the
children that are not collected. -/
theorem Process.accurate (reached : system.Reachable NamesCollected s) : s.Accurate := by
  refine reached.invariant (fun s start => ?_) fun s e s' accurate named step => ?_
  · rw [show s = Process.start from start]
    exact accurate_start
  · exact (next_accurate_iff accurate step).mpr named

def pid7 : Pid := ⟨7, by decide, by decide⟩

/-- A child is forked, stops and is waited for, goes on, terminates and is collected. -/
def namedWaits : List Event :=
  [.dofork (some pid7), .change pid7 (.stopped false),
    .waitpid (-1) ⟨true, true, false⟩ (.reported pid7 .stopped), .change pid7 .continued,
    .change pid7 .terminated, .waitpid 7 ⟨false, false, false⟩ (.reported pid7 .terminated)]

theorem Process.accurate_namedWaits :
    ∃ s, namedWaits.foldlM Process.next Process.start = some s ∧ s.Accurate := by
  have named : ∀ e ∈ namedWaits, ∀ s, NamesCollected s e := by
    simp [namedWaits, NamesCollected, pid7]
  obtain ⟨s, ran⟩ : ∃ s, namedWaits.foldlM Process.next Process.start = some s :=
    Option.isSome_iff_exists.mp (by decide)
  exact ⟨s, ran, Process.accurate (System.reachable_foldlM (.init rfl) named ran)⟩

/-- The server collects any child that terminated. -/
def wildcardWait : List Event :=
  [.dofork (some pid7), .change pid7 .terminated,
    .waitpid (-1) ⟨true, false, false⟩ (.reported pid7 .terminated)]

/-- An output filter is waited for until it suspends itself. -/
def suspendedFilter : List Event :=
  [.dofork (some pid7), .change pid7 (.stopped false),
    .waitpid 7 ⟨false, true, false⟩ (.reported pid7 .stopped)]

/-- A collected pid stays on the list, and a child that stopped is dropped from it. -/
theorem waits_lose : (∃ s, wildcardWait.foldlM Process.next Process.start = some s ∧
      pid7 ∈ s.list ∧ s.children pid7 = none) ∧
    ∃ s, suspendedFilter.foldlM Process.next Process.start = some s ∧
      pid7 ∉ s.list ∧ s.children pid7 = some (.stopped true) ∧ s.foundDead pid7 = false := by
  have collected : (wildcardWait.foldlM Process.next Process.start).map (fun s =>
      (s.list, s.children pid7)) = some ([pid7], none) := by decide
  have suspended : (suspendedFilter.foldlM Process.next Process.start).map (fun s =>
      (s.list, s.children pid7, s.foundDead pid7)) = some ([], some (.stopped true), false) := by decide
  obtain ⟨s, ran, left⟩ := Option.map_eq_some_iff.mp collected
  obtain ⟨t, ran', lost⟩ := Option.map_eq_some_iff.mp suspended
  rw [Prod.mk.injEq] at left
  rw [Prod.mk.injEq, Prod.mk.injEq] at lost
  exact ⟨⟨s, ran, by simp [left.1], left.2⟩, ⟨t, ran', by simp [lost.1], lost.2⟩⟩

end LPRng.ChildList
