import Mathlib.Logic.Function.Basic
import Mathlib.Tactic.Simps.Basic
import LPRng.Transition

/-!
# The lock file of a queue

Every process that enters `Do_queue_jobs` for a queue tries to lock the lock file. The one that
has the lock is the server: it writes its PID into the file, scans the queue and serves it. The
others signal the process whose PID they read, and exit. The server truncates the file before it
gives up the lock, and looks once more whether it was signalled before it exits. This is a queue
that has its own server: a process that finds the queue to be served by another one goes there.
-/

namespace LPRng.QueueLock

variable {Proc Request : Type*}

/-! ## One process -/

/-- Where a process is in `Do_queue_jobs`. The name of a phase says what comes next, or where
the process waits. -/
inductive Phase (Proc : Type*) where
  | outside
  /-- A request is stored, or a signal was found at the end: `again` comes next. -/
  | entering
  | locking
  | reading
  | signalling (pid : Proc)
  | locked
  | announced
  | scanning (rescan : Bool)
  | mainLoop
  | rescanned
  | checking
  | working
  | finishing
  | truncated
  | unlocked
  | leaving
  deriving DecidableEq, Repr

namespace Phase

/-- `SIGUSR1` is blocked from `again` on, up to the end. -/
def blocked : Phase Proc → Bool
  | outside | entering | leaving => false
  | _ => true

/-- The process is past the lock. -/
def pastLock : Phase Proc → Bool
  | locked | announced | scanning _ | mainLoop | rescanned | checking | working | finishing
  | truncated => true
  | _ => false

/-- The PID of the process is in the file. -/
def listed : Phase Proc → Bool
  | announced | scanning _ | mainLoop | rescanned | checking | working | finishing => true
  | _ => false

/-- The PID of the process was written, and its last look at the flag is still to come. -/
def wakes (phase : Phase Proc) : Bool :=
  phase.listed ||
    match phase with
    | truncated | unlocked | leaving => true
    | _ => false

/-- The process tries to get the lock. -/
def attempts : Phase Proc → Bool
  | entering | locking | reading | signalling _ => true
  | _ => false

end Phase

/-- A process: its phase, the flag the signal handler sets, and whether a signal is pending. -/
structure Starter (Proc : Type*) where
  phase : Phase Proc
  susr1 : Bool
  pending : Bool
  deriving DecidableEq, Repr

namespace Starter

@[simps] def absent : Starter Proc := ⟨.outside, false, false⟩

def moveTo (t : Starter Proc) (phase : Phase Proc) : Starter Proc := { t with phase }

/-- `SIGUSR1` is sent to the process. -/
def signal (t : Starter Proc) : Starter Proc :=
  if t.phase.blocked then { t with pending := true } else { t with susr1 := true }

/-- Signals are unblocked, and those that were pending are taken. -/
def takeSignals (t : Starter Proc) : Starter Proc :=
  { t with susr1 := t.susr1 || t.pending, pending := false }

/-- The process was signalled since it last cleared the flag. -/
def woken (t : Starter Proc) : Bool := t.susr1 || t.pending

end Starter

namespace Starter

variable (t : Starter Proc) (phase : Phase Proc)

@[simp] theorem moveTo_phase : (t.moveTo phase).phase = phase := rfl

@[simp] theorem moveTo_susr1 : (t.moveTo phase).susr1 = t.susr1 := rfl

@[simp] theorem moveTo_pending : (t.moveTo phase).pending = t.pending := rfl

@[simp] theorem moveTo_woken : (t.moveTo phase).woken = t.woken := rfl

@[simp] theorem takeSignals_phase : t.takeSignals.phase = t.phase := rfl

@[simp] theorem takeSignals_susr1 : t.takeSignals.susr1 = (t.susr1 || t.pending) := rfl

@[simp] theorem takeSignals_pending : t.takeSignals.pending = false := rfl

@[simp] theorem takeSignals_woken : t.takeSignals.woken = t.woken := Bool.or_false _

@[simp] theorem signal_phase : t.signal.phase = t.phase := by
  unfold signal
  split <;> rfl

@[simp] theorem signal_woken : t.signal.woken = true := by
  unfold signal woken
  split <;> simp

end Starter

/-- What the processes share: who has the lock, the PID in the file, the requests that were
stored behind the last scan that is over, and those of them that were stored since a scan that
is still going on began. -/
structure Queue (Proc Request : Type*) where
  lock : Option Proc
  pidFile : Option Proc
  unscanned : Request → Bool
  missed : Request → Bool

inductive Action (Request : Type*) where
  | store (request : Request)
  | openLock
  | tryLock
  | readPid
  | kill
  | writePid
  | scan
  /-- A scan that is over saw these of the requests that were stored while it went on. -/
  | scanned (saw : Request → Bool)
  /-- Signals are taken; at the top of the main loop old jobs may set the flag too. -/
  | unblock (doneJobs : Bool)
  | check
  /-- The main loop goes on, after a wait for a subserver or without one. -/
  | resume (waits : Bool)
  | finish
  | truncate
  | unlock
  | lastCheck

section Steps

variable [DecidableEq Request]

namespace Queue

@[simps] def store (q : Queue Proc Request) (request : Request) : Queue Proc Request :=
  { q with
    unscanned := Function.update q.unscanned request true
    missed := Function.update q.missed request true }

/-- `Scan_queue` starts to read the spool directory. -/
@[simps] def startScan (q : Queue Proc Request) : Queue Proc Request := { q with missed := fun _ => false }

@[simps] def endScan (q : Queue Proc Request) (saw : Request → Bool) : Queue Proc Request :=
  { q with
    unscanned := fun request => q.missed request && !saw request
    missed := fun request => q.missed request && !saw request }

end Queue

/-- One step of process `p` in `Do_queue_jobs`: the process and the queue behind it, and the
process that is signalled. -/
def Starter.act (p : Proc) (alive : Proc → Bool) (q : Queue Proc Request) (t : Starter Proc)
    (action : Action Request) : Option (Starter Proc × Queue Proc Request × Option Proc) :=
  match t.phase, action with
  | .outside, .store request => some (t.moveTo .entering, q.store request, none)
  | .entering, .store request => some (t, q.store request, none)
  | .entering, .openLock => some ({ t with phase := .locking, susr1 := false }, q, none)
  | .locking, .tryLock =>
      match q.lock with
      | none => some (t.moveTo .locked, { q with lock := some p }, none)
      | some _ => some (t.moveTo .reading, q, none)
  | .reading, .readPid =>
      match q.pidFile with
      | none => some (t.moveTo .locking, q, none)
      | some pid => some (t.moveTo (.signalling pid), q, none)
  | .signalling pid, .kill =>
      if alive pid then some (.absent, q, some pid) else some (t.moveTo .locking, q, none)
  | .locked, .writePid => some (t.moveTo .announced, { q with pidFile := some p }, none)
  | .announced, .scan => some (t.moveTo (.scanning false), q.startScan, none)
  | .scanning false, .scanned saw => some (t.moveTo .mainLoop, q.endScan saw, none)
  | .scanning true, .scanned saw => some (t.moveTo .rescanned, q.endScan saw, none)
  | .mainLoop, .unblock doneJobs =>
      some ({ t.takeSignals with phase := .checking, susr1 := t.woken || doneJobs }, q, none)
  | .rescanned, .unblock _ => some (t.takeSignals.moveTo .checking, q, none)
  | .checking, .check =>
      if t.susr1 then
        some ({ t with phase := .scanning true, susr1 := false }, q.startScan, none)
      else some (t.moveTo .working, q, none)
  | .working, .resume true => some (t.takeSignals.moveTo .mainLoop, q, none)
  | .working, .resume false => some (t.moveTo .mainLoop, q, none)
  | .working, .finish => some (t.moveTo .finishing, q, none)
  | .finishing, .truncate => some (t.moveTo .truncated, { q with pidFile := none }, none)
  | .truncated, .unlock => some (t.moveTo .unlocked, { q with lock := none }, none)
  | .unlocked, .unblock _ => some (t.takeSignals.moveTo .leaving, q, none)
  | .leaving, .lastCheck =>
      if t.susr1 then some ({ t with phase := .entering, susr1 := false }, q, none)
      else some (.absent, q, none)
  | _, _ => none

/-- The cases of a step, which `fun_cases` goes through. -/
alias Starter.act_cases := Starter.act.fun_cases_unfolding

end Steps

/-! ## All processes -/

/-- The processes and what they share. -/
structure Processes (Proc Request : Type*) extends Queue Proc Request where
  starter : Proc → Starter Proc

namespace Processes

variable [DecidableEq Proc] [DecidableEq Request]

def alive (s : Processes Proc Request) (p : Proc) : Bool := (s.starter p).phase ≠ .outside

/-- The starters behind a step of `p` that may signal a process. -/
def settle (s : Processes Proc Request) (p : Proc) (t : Starter Proc) (target : Option Proc) :
    Proc → Starter Proc :=
  match target with
  | none => Function.update s.starter p t
  | some pid => Function.update (Function.update s.starter pid (s.starter pid).signal) p t

def next (s : Processes Proc Request) : Proc × Action Request → Option (Processes Proc Request)
  | (p, action) =>
      ((s.starter p).act p s.alive s.toQueue action).map fun (t, q, target) =>
        { toQueue := q, starter := s.settle p t target }

/-- Nothing is stored and no process has been started. -/
def Init (s : Processes Proc Request) : Prop :=
  s.lock = none ∧ s.pidFile = none ∧
    (∀ request, s.unscanned request = false ∧ s.missed request = false) ∧
    ∀ p, s.starter p = .absent

/-- A starter that read a PID sends its signal before that process looks at its flag for the
last time. -/
def Prompt (s : Processes Proc Request) : Proc × Action Request → Prop
  | (p, .lastCheck) => ∀ other, (s.starter other).phase ≠ .signalling p
  | _ => True

end Processes

/-- The processes that enter `Do_queue_jobs` for one queue. -/
def system (Proc Request : Type*) [DecidableEq Proc] [DecidableEq Request] :
    System (Processes Proc Request) (Proc × Action Request) :=
  .ofNext Processes.Init Processes.next

namespace Starter

/-- A process that was signalled too late for its last scan starts again. -/
def startsAgain (t : Starter Proc) : Bool :=
  match t.phase with
  | .unlocked | .leaving => t.woken
  | _ => false

/-- The process is trying to get the lock, or will have to. -/
def tries (t : Starter Proc) : Bool := t.phase.attempts || t.startsAgain

/-- The process will scan the queue for a request, or has someone scan it; `missed` says whether
the request was stored since a scan that goes on began. -/
def serves (missed : Bool) (t : Starter Proc) : Bool :=
  match t.phase with
  | .outside => false
  | .entering | .locking | .reading | .signalling _ | .locked | .announced => true
  | .scanning _ => !missed || t.woken
  | _ => t.woken

end Starter

namespace Processes

structure Invariant (s : Processes Proc Request) : Prop where
  lock : ∀ p, s.lock = some p ↔ (s.starter p).phase.pastLock = true
  pidFile : ∀ p, s.pidFile = some p → (s.starter p).phase.listed = true
  reader : ∀ p pid, (s.starter p).phase = .signalling pid → (s.starter pid).phase.wakes = true
  taken : ∀ p, (s.starter p).phase.blocked = false → (s.starter p).pending = false
  missed : ∀ request, s.missed request = true → s.unscanned request = true
  served : ∀ request, s.unscanned request = true →
    ∃ p, (s.starter p).serves (s.missed request) = true

end Processes

/-! ## What one step does -/

namespace Starter

section

variable {t : Starter Proc}

theorem signal_taken (taken : t.phase.blocked = false → t.pending = false) :
    t.signal.phase.blocked = false → t.signal.pending = false := by
  intro unblocked
  rw [signal_phase] at unblocked
  unfold signal
  rw [if_neg (Bool.eq_false_iff.mp unblocked)]
  exact taken unblocked

/-- A process that may be signalled serves every request once it is. -/
theorem signal_serves (wakes : t.phase.wakes = true) (missed : Bool) :
    t.signal.serves missed = true := by
  have woken := t.signal_woken
  unfold serves
  rw [signal_phase]
  cases phase : t.phase <;> simp_all [Phase.wakes, Phase.listed]

theorem serves_mono {missed missed' : Bool}
    (fewer : missed' = true → missed = true) (serves : t.serves missed = true) :
    t.serves missed' = true := by
  unfold Starter.serves at serves ⊢
  cases phase : t.phase with
  | scanning rescan =>
      rw [phase] at serves
      cases missed' with
      | false => rfl
      | true => rwa [fewer rfl] at serves
  | _ => simp_all

/-- A process that serves a request is past the lock or tries to get it. -/
theorem pastLock_or_tries {missed : Bool} (serves : t.serves missed = true) :
    t.phase.pastLock = true ∨ t.tries = true := by
  unfold Starter.serves at serves
  cases phase : t.phase <;>
    simp_all [Phase.pastLock, Starter.tries, startsAgain, Phase.attempts]

end

section

variable [DecidableEq Request] {p : Proc} {alive : Proc → Bool} {q q' : Queue Proc Request}
  {t t' : Starter Proc} {action : Action Request} {target : Option Proc} {request : Request}

theorem act_lock (ran : t.act p alive q action = some (t', q', target))
    (own : q.lock = some p ↔ t.phase.pastLock = true) :
    (q'.lock = some p ↔ t'.phase.pastLock = true) ∧
      ∀ other, p ≠ other → (q'.lock = some other ↔ q.lock = some other) := by
  revert ran
  fun_cases act p alive q t action <;> rintro ⟨⟩
  all_goals simp_all [Phase.pastLock]

theorem act_pidFile (ran : t.act p alive q action = some (t', q', target))
    (own : q.pidFile = some p → t.phase.listed = true) :
    (q'.pidFile = some p → t'.phase.listed = true) ∧
      ∀ other, p ≠ other → q'.pidFile = some other → q.pidFile = some other := by
  revert ran
  fun_cases act p alive q t action <;> rintro ⟨⟩
  all_goals simp_all [Phase.listed]

theorem act_wakes (ran : t.act p alive q action = some (t', q', target))
    (wakes : t.phase.wakes = true) : t'.phase.wakes = true ∨ action = .lastCheck := by
  revert ran
  fun_cases act p alive q t action <;> rintro ⟨⟩
  all_goals simp_all [Phase.wakes, Phase.listed]

/-- The PID a process is to signal was in the file when it read it. -/
theorem act_reads {pid : Proc} (ran : t.act p alive q action = some (t', q', target))
    (reads : t'.phase = .signalling pid) : t.phase = .reading ∧ q.pidFile = some pid := by
  revert ran
  fun_cases act p alive q t action <;> rintro ⟨⟩
  all_goals simp_all

theorem act_signals {pid : Proc} (ran : t.act p alive q action = some (t', q', some pid)) :
    t.phase = .signalling pid := by
  revert ran
  fun_cases act p alive q t action <;> rintro ⟨⟩
  assumption

theorem act_taken (ran : t.act p alive q action = some (t', q', target))
    (taken : t.phase.blocked = false → t.pending = false) :
    t'.phase.blocked = false → t'.pending = false := by
  revert ran
  fun_cases act p alive q t action <;> rintro ⟨⟩
  all_goals simp_all [Phase.blocked]

/-- A request that is not scanned behind a step was so before, or the process serves it. -/
theorem act_left (ran : t.act p alive q action = some (t', q', target))
    (missed : q.missed request = true → q.unscanned request = true)
    (left : q'.unscanned request = true) :
    t'.serves (q'.missed request) = true ∨
      q.unscanned request = true ∧ (q'.missed request = true → q.missed request = true) := by
  revert ran
  fun_cases act p alive q t action <;> rintro ⟨⟩
  all_goals simp_all [serves]

theorem act_missed (ran : t.act p alive q action = some (t', q', target))
    (missed : q.missed request = true → q.unscanned request = true) :
    q'.missed request = true → q'.unscanned request = true := by
  revert ran
  fun_cases act p alive q t action <;> rintro ⟨⟩
  case case1 stored _ | case2 stored _ => by_cases same : request = stored <;> simp_all
  all_goals simp_all

/-- A process that serves a request does so until the request is scanned, or has another
process do it. -/
theorem act_serves (ran : t.act p alive q action = some (t', q', target))
    (taken : t.phase.blocked = false → t.pending = false)
    (left : q'.unscanned request = true) (serves : t.serves (q.missed request) = true) :
    t'.serves (q'.missed request) = true ∨ ∃ pid, target = some pid := by
  revert ran
  fun_cases act p alive q t action <;> rintro ⟨⟩
  all_goals simp_all [Phase.blocked, Starter.serves, woken]

end

end Starter

/-! ## Runs -/

namespace Processes

variable {s s' : Processes Proc Request} {p : Proc} {action : Action Request}

theorem init_invariant (init : s.Init) : s.Invariant := by
  obtain ⟨lock, pidFile, unscanned, absent⟩ := init
  refine ⟨fun p => ?_, fun p => ?_, fun p pid => ?_, fun p _ => ?_, fun request => ?_,
    fun request => ?_⟩
  · rw [lock, absent]
    exact ⟨nofun, nofun⟩
  · rw [pidFile]
    exact nofun
  · rw [absent]
    exact nofun
  · rw [absent]
    rfl
  · rw [(unscanned request).2]
    exact nofun
  · rw [(unscanned request).1]
    exact nofun

variable [DecidableEq Proc]

theorem settle_self (t : Starter Proc) (target : Option Proc) : s.settle p t target p = t := by
  cases target <;> exact Function.update_self _ _ _

theorem settle_of_ne {other : Proc} (apart : other ≠ p) (t : Starter Proc) (target : Option Proc) :
    s.settle p t target other =
      if target = some other then (s.starter other).signal else s.starter other := by
  cases target with
  | none => exact Function.update_of_ne apart _ _
  | some pid =>
      refine (Function.update_of_ne apart _ _).trans ?_
      rw [Function.update_apply]
      by_cases same : other = pid
      · rw [if_pos same, if_pos (congrArg some same.symm), same]
      · rw [if_neg same, if_neg fun equal => same (Option.some.inj equal).symm]

theorem settle_phase_of_ne {other : Proc} (apart : other ≠ p) (t : Starter Proc)
    (target : Option Proc) : (s.settle p t target other).phase = (s.starter other).phase := by
  rw [settle_of_ne apart]
  split
  · exact Starter.signal_phase _
  · rfl

variable [DecidableEq Request]

theorem step_invariant (invariant : s.Invariant) (prompt : s.Prompt (p, action))
    (step : s.next (p, action) = some s') : s'.Invariant := by
  obtain ⟨⟨t, q, target⟩, ran, rfl⟩ := Option.map_eq_some_iff.mp step
  have reads : ∀ pid, t.phase = .signalling pid → p ≠ pid ∧ (s.starter pid).phase.wakes = true := by
    intro pid reads
    obtain ⟨reading, file⟩ := Starter.act_reads ran reads
    have listed := invariant.pidFile pid file
    refine ⟨?_, by simp [Phase.wakes, listed]⟩
    rintro rfl
    rw [reading] at listed
    cases listed
  refine ⟨fun x => ?_, fun x file => ?_, fun x pid reading => ?_, fun x => ?_, fun request => ?_,
    fun request left => ?_⟩ <;> dsimp only at *
  · by_cases same : x = p
    · subst same
      rw [settle_self]
      exact (Starter.act_lock ran (invariant.lock x)).1
    · rw [settle_phase_of_ne same, ← invariant.lock x]
      exact (Starter.act_lock ran (invariant.lock p)).2 x (Ne.symm same)
  · by_cases same : x = p
    · subst same
      rw [settle_self]
      exact (Starter.act_pidFile ran (invariant.pidFile x)).1 file
    · rw [settle_phase_of_ne same]
      exact invariant.pidFile x
        ((Starter.act_pidFile ran (invariant.pidFile p)).2 x (Ne.symm same) file)
  · by_cases same : x = p
    · subst same
      rw [settle_self] at reading
      rw [settle_phase_of_ne (reads pid reading).1.symm]
      exact (reads pid reading).2
    · rw [settle_phase_of_ne same] at reading
      have wakes := invariant.reader x pid reading
      by_cases own : pid = p
      · subst own
        rw [settle_self]
        refine (Starter.act_wakes ran wakes).resolve_right fun last => ?_
        subst last
        exact prompt x reading
      · rwa [settle_phase_of_ne own]
  · by_cases same : x = p
    · subst same
      rw [settle_self]
      exact Starter.act_taken ran (invariant.taken x)
    · rw [settle_of_ne same]
      split
      · exact Starter.signal_taken (invariant.taken x)
      · exact invariant.taken x
  · exact Starter.act_missed ran (invariant.missed request)
  · rcases Starter.act_left ran (invariant.missed request) left with serves | ⟨before, fewer⟩
    · exact ⟨p, by rwa [settle_self]⟩
    · obtain ⟨x, serves⟩ := invariant.served request before
      by_cases same : x = p
      · subst same
        rcases Starter.act_serves ran (invariant.taken x) left serves with still | ⟨pid, rfl⟩
        · exact ⟨x, by rwa [settle_self]⟩
        · have wakes := invariant.reader x pid (Starter.act_signals ran)
          have apart : pid ≠ x := by
            rintro rfl
            rw [Starter.act_signals ran] at wakes
            cases wakes
          refine ⟨pid, ?_⟩
          rw [settle_of_ne apart, if_pos rfl]
          exact Starter.signal_serves wakes _
      · refine ⟨x, ?_⟩
        rw [settle_of_ne same]
        split
        · next sent =>
            subst sent
            exact Starter.signal_serves (invariant.reader p x (Starter.act_signals ran)) _
        · exact Starter.serves_mono fewer serves

theorem reachable_invariant (reached : (system Proc Request).Reachable Prompt s) : s.Invariant :=
  reached.invariant (fun _ init => init_invariant init)
    fun _ _ _ invariant prompt step => step_invariant invariant prompt step

/-- Process 1 stores its request behind the last scan of process 0, and signals it behind the
unlock. -/
def lateSignal : List (Fin 2 × Action (Fin 2)) :=
  [(0, .store 0), (0, .openLock), (0, .tryLock), (0, .writePid), (0, .scan),
    (0, .scanned fun _ => false), (0, .unblock false), (0, .check), (0, .finish),
    (1, .store 1), (1, .openLock), (1, .tryLock), (1, .readPid),
    (0, .truncate), (0, .unlock), (1, .kill), (0, .unblock false)]

def idle : Processes (Fin 2) (Fin 2) :=
  { lock := none, pidFile := none, unscanned := fun _ => false, missed := fun _ => false
    starter := fun _ => .absent }

/-- When the last process is gone, no request is left. -/
theorem all_scanned (reached : (system Proc Request).Reachable Prompt s)
    (gone : ∀ p, (s.starter p).phase = .outside) (request : Request) :
    s.unscanned request = false := by
  by_contra left
  obtain ⟨p, serves⟩ := (reachable_invariant reached).served request (Bool.not_eq_false _ ▸ left)
  unfold Starter.serves at serves
  rw [gone p] at serves
  cases serves

end Processes

end LPRng.QueueLock
