import LPRng.IncludeFiles
import LPRng.Split
import LPRng.Transition
import LPRng.WaitingList

/-!
# Requests to start queue servers

A process that leaves work in a spool queue writes the name of the queue to the request pipe
of lpd, and a poll of the spool queues reports through a pipe of its own, with a dot in front
of each name. lpd reads both in pieces of its line buffer, keeps the names in
`Servers_line_list` and starts their queue servers as it can. When no piece ends inside a
name, no request is lost. A name that is cut leaves fragments in the list.
-/

namespace LPRng.StartRequests

open IncludeFiles (whitespace)

/-! ## Names -/

/-- `LINEBUFFER`. -/
def lineBuffer : Nat := 180

/-- A line of `Servers_line_list` that a poll has reported. -/
def isPolled (line : Bytes) : Bool := line.head? = some 46

/-- The name behind the dot of a polled queue. -/
def queueName (line : Bytes) : Bytes := if isPolled line then line.tail else line

/-- The names in what a pipe holds. -/
def names (s : Bytes) : List Bytes := (pieces whitespace s).filter (· ≠ [])

/-! ## Reading a pipe -/

/-- One name, in the loop of `Read_server_status`. -/
def recordName (servers : LineList) (name : Bytes) : LineList :=
  if name = [] then servers
  else if servers.any fun line => strcasecmp line name = .eq then servers
  else servers.addLineList name [] false false

/-- What `Read_server_status` does with the buffer of one read. -/
def recordInput (servers : LineList) (buffer : Bytes) : LineList :=
  (split [] (cstr buffer) whitespace false [] false false false).foldl recordName servers

/-! ## Starting servers -/

/-- The pipe of the start requests and the one of a poll. -/
inductive Pipe where
  | request
  | scan
deriving DecidableEq

/-- What has happened: a name was written, it was read to its end, or the server of a line
of the list was started under a name. -/
inductive Happening where
  | wrote (p : Pipe) (name : Bytes)
  | read (p : Pipe) (name : Bytes)
  | started (line name : Bytes)
deriving DecidableEq

/-- What the main loop finds on one pass: the time since the last start, the settings
`poll_start_interval`, `poll_servers_started` and the largest number of servers, how many
run, and whether a process can be forked each time it tries. -/
structure StartPass where
  elapsed : Int
  pollStartInterval : Int
  pollServersStarted : Int
  maxServers : Int
  numberOfServers : Int
  forks : Nat → Bool

/-- The variables of the start loop. -/
structure StartLoop where
  servers : LineList
  forcedStart : Bool
  numberOfServers : Int
  serverProcessesStarted : Int
  forked : Nat
  log : List Happening

/-- The line to start: its index, whether it is a request, and the name. A request goes
before a polled queue. -/
def serverToStart (servers : LineList) : Nat × Bool × Bytes :=
  match servers.findIdx? (!isPolled ·) with
  | some doit => (doit, true, servers.getD doit [])
  | none => (0, false, queueName (servers.getD 0 []))

theorem serverToStart_eq (servers : LineList) :
    (serverToStart servers).1 = WaitingList.next (!isPolled ·) servers := by
  unfold serverToStart WaitingList.next
  cases servers.findIdx? (!isPolled ·) <;> rfl

theorem serverToStart_lt {servers : LineList} (some : 0 < servers.length) :
    (serverToStart servers).1 < servers.length := by
  unfold serverToStart
  cases found : servers.findIdx? (!isPolled ·) with
  | none => exact some
  | some doit => exact (List.findIdx?_eq_some_iff_getElem.mp found).1

/-- The loop of the main program. -/
def startServers (pass : StartPass) (st : StartLoop) : StartLoop :=
  if _more : (pass.pollStartInterval < pass.elapsed ∨ st.forcedStart = true) ∧ 0 < st.servers.length ∧
      st.serverProcessesStarted < pass.pollServersStarted ∧
      st.numberOfServers + st.serverProcessesStarted < pass.maxServers - 4 then
    let doit := (serverToStart st.servers).1
    let forced := (serverToStart st.servers).2.1
    let name := (serverToStart st.servers).2.2
    let servers := st.servers.removeLineList doit
    if name ≠ [] then
      if pass.forks st.forked then
        startServers pass {
          servers := servers
          forcedStart := forced
          numberOfServers := if forced then st.numberOfServers + 1 else st.numberOfServers
          serverProcessesStarted :=
            if forced then st.serverProcessesStarted else st.serverProcessesStarted + 1
          forked := st.forked + 1
          log := .started (st.servers.getD doit []) name :: st.log }
      else { st with forcedStart := forced }
    else startServers pass { st with servers := servers, forcedStart := forced }
  else st
termination_by st.servers.length
decreasing_by
  all_goals
    have inside := serverToStart_lt _more.2.1
    exact (List.length_eraseIdx_of_lt inside).trans_lt (Nat.sub_one_lt_of_lt inside)

/-- The start loop as the main program enters it. -/
def startPass (pass : StartPass) (servers : LineList) (log : List Happening) : StartLoop :=
  startServers pass ⟨servers, servers.any (!isPolled ·), pass.numberOfServers, 0, 0, log⟩

/-! ## The daemon -/

/-- The bytes in the pipes and `Servers_line_list`, and as history the names that are not
read to their end, in the order they were written, and what has happened, the latest first. -/
structure Daemon where
  pipe : Pipe → Bytes
  servers : LineList
  unread : Pipe → List Bytes
  log : List Happening

/-- What is written: a name of a queue, maybe behind the dot of a polled one. -/
def IsRequest (name : Bytes) : Prop := queueName name ≠ [] ∧ 0 ∉ name ∧ ∀ c ∈ name, c ∉ whitespace

instance (name : Bytes) : Decidable (IsRequest name) :=
  inferInstanceAs (Decidable (queueName name ≠ [] ∧ 0 ∉ name ∧ ∀ c ∈ name, c ∉ whitespace))

/-- What can happen: a process writes a name, the end of a child writes a newline, a poll of
the queues starts with a new pipe, a read returns some of what a pipe holds, and the main
program goes through its start loop. -/
inductive Event where
  | write (p : Pipe) (name : Bytes)
  | kick
  | rescan
  | read (p : Pipe) (count : Nat)
  | start (pass : StartPass)

namespace Daemon

def write (s : Daemon) (p : Pipe) (name : Bytes) : Daemon where
  pipe := Function.update s.pipe p (s.pipe p ++ name ++ [10])
  servers := s.servers
  unread := Function.update s.unread p (s.unread p ++ [name])
  log := .wrote p name :: s.log

/-- One read. The names of which nothing is left in the pipe have been read. -/
def read (s : Daemon) (p : Pipe) (count : Nat) : Daemon :=
  let rest := (s.pipe p).drop count
  let done := (s.unread p).length - (names rest).length
  { pipe := Function.update s.pipe p rest
    servers := recordInput s.servers ((s.pipe p).take count)
    unread := Function.update s.unread p ((s.unread p).drop done)
    log := (((s.unread p).take done).map (Happening.read p)).reverse ++ s.log }

def next (s : Daemon) : Event → Option Daemon
  | .write p name => if IsRequest name then some (s.write p name) else none
  | .kick => some { s with pipe := Function.update s.pipe .request (s.pipe .request ++ [10]) }
  | .rescan =>
      some { s with pipe := Function.update s.pipe .scan [], unread := Function.update s.unread .scan [] }
  | .read p count =>
      if 0 < count ∧ count < lineBuffer ∧ count ≤ (s.pipe p).length then some (s.read p count) else none
  | .start pass =>
      let st := startPass pass s.servers s.log
      some { s with servers := st.servers, log := st.log }

/-- The daemon before its first request. -/
def idle : Daemon := ⟨fun _ => [], [], fun _ => [], []⟩

end Daemon

/-- lpd and the processes that write to its pipes, in any order. -/
def startRequests : System Daemon Event := System.ofNext (· = Daemon.idle) Daemon.next

/-! ## What is expected -/

/-- The names that have been written to a pipe, in their order. -/
def writtenNames (p : Pipe) (log : List Happening) : List Bytes :=
  (log.filterMap fun
    | .wrote q name => if q = p then some name else none
    | _ => none).reverse

/-- The names that have been read from a pipe, in their order. -/
def readNames (p : Pipe) (log : List Happening) : List Bytes :=
  (log.filterMap fun
    | .read q name => if q = p then some name else none
    | _ => none).reverse

/-- How many names have been read. -/
def readCount (log : List Happening) : Nat := log.countP fun | .read .. => true | _ => false

/-- How many servers have been started. -/
def startCount (log : List Happening) : Nat := log.countP fun | .started .. => true | _ => false

/-- A server was started for the name, the case of letters aside. -/
def Started (log : List Happening) (name : Bytes) : Prop :=
  ∃ line, .started line (queueName line) ∈ log ∧ foldCase line = foldCase name

/-- The name is in the list, or the server it asks for has been started. -/
def Awaited (servers : LineList) (later : List Happening) (name : Bytes) : Prop :=
  (∃ line ∈ servers, foldCase line = foldCase name) ∨ Started later name

/-- The requests are served as they should. -/
structure Sound (s : Daemon) : Prop where
  /-- What has not been read is in the pipes, name by name. -/
  unread : ∀ p, names (s.pipe p) = s.unread p
  /-- The requests are read in the order they were written, and none is left out. -/
  inOrder : writtenNames .request s.log = readNames .request s.log ++ s.unread .request
  /-- The list has nothing but names that were written. -/
  listed : ∀ line ∈ s.servers, ∃ p, .wrote p line ∈ s.log
  /-- It has none of them twice. -/
  once : (s.servers.map foldCase).Nodup
  /-- A server is started only under a name that was written before, without the dot. -/
  started : ∀ later line name earlier, s.log = later ++ .started line name :: earlier →
    name = queueName line ∧ ∃ p, .wrote p line ∈ earlier
  /-- From the time it is read a name is in the list until its server has been started. -/
  kept : ∀ later p name earlier, s.log = later ++ .read p name :: earlier → Awaited s.servers later name
  /-- A request that is not in the pipe any more is in the list, or its server has been
  started since it was written. -/
  served : ∀ later name earlier, s.log = later ++ .wrote .request name :: earlier →
    (readNames .request s.log).length ≤ (writtenNames .request earlier).length ∨
      Awaited s.servers later name
  /-- A request waits for no more starts than there were names before it. -/
  prompt : ∀ later p name earlier, s.log = later ++ .read p name :: earlier → isPolled name = false →
    readCount earlier < startCount later → Started later name

/-- One of two neighbouring bytes of a text is white, so that no name goes from `a` on to `b`. -/
def Apart (a b : Bytes) : Prop := ∀ c ∈ a.getLast?, ∀ d ∈ b.head?, c ∈ whitespace ∨ d ∈ whitespace

/-- A read does not end inside a name. -/
def CutsNoName (s : Daemon) : Event → Prop
  | .read p count => Apart ((s.pipe p).take count) ((s.pipe p).drop count)
  | _ => True

/-! ## Names in a text -/

variable {a b : Bytes} {sep : Bytes}

theorem pieces_ne_nil (nonempty : a ≠ []) : pieces sep a ≠ [] := by
  cases a with
  | nil => exact absurd rfl nonempty
  | cons c a =>
      rw [pieces]
      split
      · exact List.cons_ne_nil _ _
      · split <;> exact List.cons_ne_nil _ _

theorem pieces_end {c : UInt8} (ends : c ∈ sep) : pieces sep [c] = [[]] := if_pos (by simpa using ends)

/-- A text that ends in a separator is taken apart by itself. -/
theorem pieces_ended {c : UInt8} (ends : c ∈ sep) (a b : Bytes) :
    pieces sep (a ++ c :: b) = pieces sep (a ++ [c]) ++ pieces sep b := by
  induction a with
  | nil =>
      rw [List.nil_append, List.nil_append, pieces_end ends, pieces, if_pos (by simpa using ends)]
      rfl
  | cons d a ih =>
      rw [List.cons_append, List.cons_append, pieces, pieces, ih]
      split
      · rfl
      · cases parts : pieces sep (a ++ [c]) with
        | nil => exact absurd parts (pieces_ne_nil (List.append_ne_nil_of_right_ne_nil a (List.cons_ne_nil c [])))
        | cons first others => rfl

/-- A separator at the end adds an empty piece at most. -/
theorem pieces_snoc {c : UInt8} (ends : c ∈ sep) (a : Bytes) :
    pieces sep (a ++ [c]) = pieces sep a ∨ pieces sep (a ++ [c]) = pieces sep a ++ [[]] := by
  induction a with
  | nil => exact .inr (pieces_end ends)
  | cons d a ih =>
      rw [List.cons_append, pieces, pieces]
      by_cases white : sep.contains d = true
      · rw [if_pos white, if_pos white]
        rcases ih with same | more
        · exact .inl (congrArg _ same)
        · exact .inr (congrArg _ more)
      · rw [if_neg white, if_neg white]
        cases a with
        | nil =>
            left
            rw [List.nil_append, pieces_end ends]
            rfl
        | cons e a =>
            cases parts : pieces sep (e :: a) with
            | nil => exact absurd parts (pieces_ne_nil (List.cons_ne_nil e a))
            | cons first others =>
                rw [parts] at ih
                rcases ih with same | more
                · exact .inl (by rw [same])
                · exact .inr (by rw [more]; rfl)

theorem names_snoc {c : UInt8} (ends : c ∈ whitespace) (a : Bytes) : names (a ++ [c]) = names a := by
  unfold names
  rcases pieces_snoc ends a with same | more
  · rw [same]
  · rw [more, List.filter_append]
    exact List.append_nil _

theorem names_ended {c : UInt8} (ends : c ∈ whitespace) (a b : Bytes) :
    names (a ++ c :: b) = names a ++ names b := by
  rw [← names_snoc ends a]
  unfold names
  rw [pieces_ended ends, List.filter_append]

/-- The names in two texts that are apart are those in the one and those in the other. -/
theorem names_append (apart : Apart a b) : names (a ++ b) = names a ++ names b := by
  rcases List.eq_nil_or_concat a with rfl | ⟨front, c, rfl⟩
  · rfl
  · cases b with
    | nil => exact (congrArg names (List.append_nil _)).trans (List.append_nil _).symm
    | cons d b =>
        rcases apart c (by simp) d rfl with white | white
        · rw [List.concat_eq_append, List.append_assoc, List.singleton_append, names_ended white,
            names_snoc white]
        · have first : names (d :: b) = names b := names_ended white [] b
          rw [names_ended white, first]

theorem names_name {name : Bytes} (request : IsRequest name) : names name = [name] := by
  have nonempty : name ≠ [] := by
    intro empty
    rw [empty] at request
    exact request.1 rfl
  unfold names
  rw [pieces_of_whole request.2.2 nonempty]
  exact List.filter_cons_of_pos (by simpa using nonempty)

/-! ## A read records the names -/

theorem recordName_eq {name : Bytes} (nonempty : name ≠ []) (servers : LineList) :
    recordName servers name = WaitingList.arrive foldCase servers name := by
  have found : (servers.any fun line => strcasecmp line name = .eq) = true ↔
      foldCase name ∈ servers.map foldCase := by
    rw [List.any_eq_true, List.mem_map]
    refine exists_congr fun line => and_congr_right fun _ => ?_
    rw [decide_eq_true_iff, (strcasecmp_compares line name).eq_eq]
  rw [recordName, WaitingList.arrive, if_neg nonempty]
  by_cases waiting : foldCase name ∈ servers.map foldCase
  · rw [if_pos (found.mpr waiting), if_pos waiting]
  · rw [if_neg (found.not.mpr waiting), if_neg waiting]
    rfl

theorem recordInput_eq {buffer : Bytes} (noNul : 0 ∉ buffer) (servers : LineList) :
    recordInput servers buffer = (names buffer).foldl (WaitingList.arrive foldCase) servers := by
  rw [recordInput, cstr_of_noNul noNul, split_pieces, names]
  induction pieces whitespace buffer generalizing servers with
  | nil => rfl
  | cons piece others ih =>
      rw [List.foldl_cons, ih]
      by_cases empty : piece = []
      · rw [empty, recordName, if_pos rfl, List.filter_cons_of_neg (by simp)]
      · rw [recordName_eq empty, List.filter_cons_of_pos (by simpa using empty), List.foldl_cons]

/-! ## The books -/

/-- What happened as turns of a waiting list. -/
def turn : Happening → Option (Turn Bytes)
  | .wrote .. => none
  | .read _ name => some (.came name)
  | .started line _ => some (.served line)

def turns (log : List Happening) : List (Turn Bytes) := log.filterMap turn

/-- The list, the names that are not read and the history agree. -/
structure Books (servers : LineList) (unread : Pipe → List Bytes) (log : List Happening) : Prop where
  run : WaitingList.Run foldCase (!isPolled ·) (turns log) servers
  requests : ∀ p name, .wrote p name ∈ log → IsRequest name
  startedName : ∀ line name, .started line name ∈ log → name = queueName line
  readWritten : ∀ later p name earlier, log = later ++ .read p name :: earlier → .wrote p name ∈ earlier
  unreadWritten : ∀ p name, name ∈ unread p → .wrote p name ∈ log
  order : writtenNames .request log = readNames .request log ++ unread .request
  fifo : ∀ earlier, earlier <:+ log → readNames .request earlier <+: writtenNames .request earlier

variable {servers : LineList} {unread : Pipe → List Bytes} {log later earlier : List Happening}
  {p : Pipe} {name line : Bytes}

theorem mem_turns_came : .came name ∈ turns log ↔ ∃ p, .read p name ∈ log := by
  unfold turns
  rw [List.mem_filterMap]
  constructor
  · rintro ⟨happening, member, shown⟩
    cases happening with
    | wrote => cases shown
    | read p other =>
        cases shown
        exact ⟨p, member⟩
    | started => cases shown
  · rintro ⟨p, member⟩
    exact ⟨_, member, rfl⟩

theorem mem_turns_served : .served line ∈ turns log ↔ ∃ name, .started line name ∈ log := by
  unfold turns
  rw [List.mem_filterMap]
  constructor
  · rintro ⟨happening, member, shown⟩
    cases happening with
    | wrote => cases shown
    | read => cases shown
    | started other name =>
        cases shown
        exact ⟨name, member⟩
  · rintro ⟨name, member⟩
    exact ⟨_, member, rfl⟩

theorem turns_append (later earlier : List Happening) : turns (later ++ earlier) = turns later ++ turns earlier :=
  List.filterMap_append

theorem readNames_cons (p : Pipe) (happening : Happening) (log : List Happening) :
    readNames p (happening :: log) = readNames p log ++ readNames p [happening] := by
  unfold readNames
  rw [← List.reverse_append, ← List.filterMap_append]
  rfl

theorem writtenNames_cons (p : Pipe) (happening : Happening) (log : List Happening) :
    writtenNames p (happening :: log) = writtenNames p log ++ writtenNames p [happening] := by
  unfold writtenNames
  rw [← List.reverse_append, ← List.filterMap_append]
  rfl

/-- A part of the history that ends now is the whole of it, or one that ended before. -/
theorem fifo_cons (before : ∀ earlier, earlier <:+ log →
      readNames .request earlier <+: writtenNames .request earlier)
    {happening : Happening} {rest : List Bytes}
    (now : writtenNames .request (happening :: log) = readNames .request (happening :: log) ++ rest) :
    ∀ earlier, earlier <:+ happening :: log →
      readNames .request earlier <+: writtenNames .request earlier := by
  intro earlier part
  rcases List.suffix_cons_iff.mp part with rfl | part
  · exact ⟨rest, now.symm⟩
  · exact before earlier part

theorem split_log {happening other : Happening} (differs : happening ≠ other)
    (split : happening :: log = later ++ other :: earlier) : ∃ later', log = later' ++ other :: earlier := by
  cases later with
  | nil => exact absurd (List.cons.inj split).1 differs
  | cons first later' => exact ⟨later', (List.cons.inj split).2⟩

namespace Books

theorem idle : Books [] (fun _ => []) [] where
  run := .nil
  requests := fun _ _ member => nomatch member
  startedName := fun _ _ member => nomatch member
  readWritten := fun later _ _ _ split =>
    absurd split.symm (List.append_ne_nil_of_right_ne_nil later (List.cons_ne_nil _ _))
  unreadWritten := fun _ _ member => nomatch member
  order := rfl
  fifo := fun earlier part => by
    rw [List.suffix_nil.mp part]
    exact List.nil_prefix

/-- A name is written. -/
theorem wrote (books : Books servers unread log) (request : IsRequest name) (p : Pipe) :
    Books servers (Function.update unread p (unread p ++ [name])) (.wrote p name :: log) := by
  have order : writtenNames .request (.wrote p name :: log) =
      readNames .request (.wrote p name :: log) ++ Function.update unread p (unread p ++ [name]) .request := by
    rw [writtenNames_cons, readNames_cons, books.order]
    cases p with
    | request =>
        rw [Function.update_self]
        simp [readNames, writtenNames]
    | scan =>
        rw [Function.update_of_ne (by decide)]
        simp [readNames, writtenNames]
  refine ⟨books.run, ?_, ?_, ?_, ?_, order, fifo_cons books.fifo order⟩
  · intro q other member
    rcases List.mem_cons.mp member with here | before
    · cases here
      exact request
    · exact books.requests q other before
  · intro line other member
    rcases List.mem_cons.mp member with here | before
    · cases here
    · exact books.startedName line other before
  · intro later q other earlier split
    rcases split_log (by simp) split with ⟨later', rest⟩
    exact books.readWritten later' q other earlier rest
  · intro q other member
    by_cases same : q = p
    · subst same
      rw [Function.update_self] at member
      rcases List.mem_append.mp member with before | new
      · exact List.mem_cons_of_mem _ (books.unreadWritten q other before)
      · rw [List.mem_singleton.mp new]
        exact List.mem_cons_self
    · rw [Function.update_of_ne same] at member
      exact List.mem_cons_of_mem _ (books.unreadWritten q other member)

/-- A new pipe for a poll. What the old one held is not read. -/
theorem rescan (books : Books servers unread log) : Books servers (Function.update unread .scan []) log where
  run := books.run
  requests := books.requests
  startedName := books.startedName
  readWritten := books.readWritten
  unreadWritten := by
    intro q name member
    cases q with
    | request =>
        rw [Function.update_of_ne (by decide)] at member
        exact books.unreadWritten .request name member
    | scan =>
        rw [Function.update_self] at member
        cases member
  order := books.order
  fifo := books.fifo

/-- The next name of a pipe is read. -/
theorem read (books : Books servers unread log) {rest : List Bytes} (next : unread p = name :: rest) :
    Books (WaitingList.arrive foldCase servers name) (Function.update unread p rest) (.read p name :: log) := by
  have order : writtenNames .request (.read p name :: log) =
      readNames .request (.read p name :: log) ++ Function.update unread p rest .request := by
    rw [writtenNames_cons, readNames_cons, books.order]
    cases p with
    | request =>
        rw [Function.update_self, next]
        simp [readNames, writtenNames]
    | scan =>
        rw [Function.update_of_ne (by decide)]
        simp [readNames, writtenNames]
  refine ⟨.came name books.run, ?_, ?_, ?_, ?_, order, fifo_cons books.fifo order⟩
  · intro q other member
    rcases List.mem_cons.mp member with here | before
    · cases here
    · exact books.requests q other before
  · intro line other member
    rcases List.mem_cons.mp member with here | before
    · cases here
    · exact books.startedName line other before
  · intro later q other earlier split
    cases later with
    | nil =>
        cases split
        exact books.unreadWritten p name (next ▸ List.mem_cons_self)
    | cons first later' => exact books.readWritten later' q other earlier (List.cons.inj split).2
  · intro q other member
    have before : other ∈ unread q := by
      by_cases same : q = p
      · subst same
        rw [Function.update_self] at member
        exact next ▸ List.mem_cons_of_mem name member
      · rwa [Function.update_of_ne same] at member
    exact List.mem_cons_of_mem _ (books.unreadWritten q other before)

/-- The first names of a pipe are read, one after the other. -/
theorem readAll {done rest : List Bytes} (books : Books servers unread log) (next : unread p = done ++ rest) :
    Books (done.foldl (WaitingList.arrive foldCase) servers) (Function.update unread p rest)
      ((done.map (Happening.read p)).reverse ++ log) := by
  induction done generalizing servers unread log with
  | nil =>
      rw [← List.nil_append rest, ← next, Function.update_eq_self]
      exact books
  | cons name done ih =>
      have one := ih (books.read next) (Function.update_self p (done ++ rest) unread)
      rw [Function.update_idem] at one
      rw [List.foldl_cons, List.map_cons, List.reverse_cons, List.append_assoc]
      exact one

/-- The server of the line whose turn it is is started. -/
theorem started (books : Books servers unread log)
    (found : servers[WaitingList.next (!isPolled ·) servers]? = some line) :
    Books (servers.eraseIdx (WaitingList.next (!isPolled ·) servers)) unread
      (.started line (queueName line) :: log) := by
  have order : writtenNames .request (.started line (queueName line) :: log) =
      readNames .request (.started line (queueName line) :: log) ++ unread .request := by
    rw [writtenNames_cons, readNames_cons, books.order]
    simp [readNames, writtenNames]
  refine ⟨.served books.run found, ?_, ?_, ?_, ?_, order, fifo_cons books.fifo order⟩
  · intro q other member
    rcases List.mem_cons.mp member with here | before
    · cases here
    · exact books.requests q other before
  · intro other name member
    rcases List.mem_cons.mp member with here | before
    · cases here
      rfl
    · exact books.startedName other name before
  · intro later q other earlier split
    rcases split_log (by simp) split with ⟨later', rest⟩
    exact books.readWritten later' q other earlier rest
  · exact fun q other member => List.mem_cons_of_mem _ (books.unreadWritten q other member)

/-- Every line of the list was written. -/
theorem written_of_mem (books : Books servers unread log) (listed : line ∈ servers) : ∃ p, .wrote p line ∈ log := by
  rcases mem_turns_came.mp (books.run.came_of_mem listed) with ⟨p, member⟩
  rcases List.append_of_mem member with ⟨later, earlier, split⟩
  refine ⟨p, ?_⟩
  rw [split]
  exact List.mem_append_right later (List.mem_cons_of_mem _ (books.readWritten later p line earlier split))

end Books

/-! ## The start loop -/

theorem queueName_of_plain (plain : isPolled line = false) : queueName line = line :=
  if_neg (Bool.eq_false_iff.mp plain)

theorem serverToStart_line (found : servers[WaitingList.next (!isPolled ·) servers]? = some line) :
    servers.getD (serverToStart servers).1 [] = line ∧ (serverToStart servers).2.2 = queueName line := by
  have here : servers.getD (serverToStart servers).1 [] = line := by
    rw [serverToStart_eq, List.getD_eq_getElem?_getD, found, Option.getD_some]
  refine ⟨here, ?_⟩
  unfold serverToStart at here ⊢
  cases chosen : servers.findIdx? (!isPolled ·) with
  | none =>
      rw [chosen] at here
      exact congrArg queueName here
  | some doit =>
      rw [chosen] at here
      rcases List.findIdx?_eq_some_iff_getElem.mp chosen with ⟨inside, plain, _⟩
      have same : servers[doit] = line := by
        rw [← here, List.getD_eq_getElem?_getD, List.getElem?_eq_getElem inside]
        rfl
      have unmarked : isPolled line = false := by
        rw [same] at plain
        simpa using plain
      exact here.trans (queueName_of_plain unmarked).symm

/-- The start loop keeps the books. -/
theorem startServers_books (pass : StartPass) (st : StartLoop) (books : Books st.servers unread st.log) :
    Books (startServers pass st).servers unread (startServers pass st).log := by
  induction size : st.servers.length using Nat.strong_induction_on generalizing st with
  | _ n ih =>
      rw [startServers]
      split
      next more =>
          have inside : (serverToStart st.servers).1 < st.servers.length := serverToStart_lt more.2.1
          have found : st.servers[WaitingList.next (!isPolled ·) st.servers]? =
              some (st.servers[(serverToStart st.servers).1]) := by
            rw [← serverToStart_eq]
            exact List.getElem?_eq_getElem inside
          generalize st.servers[(serverToStart st.servers).1] = line at found
          rcases serverToStart_line found with ⟨entry, named⟩
          have waiting : line ∈ st.servers := List.mem_of_getElem? found
          have request : IsRequest line := by
            rcases books.written_of_mem waiting with ⟨p, wrote⟩
            exact books.requests p line wrote
          have started := books.started found
          dsimp only
          rw [named, entry, if_pos request.1]
          split
          · refine ih _ ?_ _ ?_ rfl
            · exact size ▸ (List.length_eraseIdx_of_lt inside).trans_lt (Nat.sub_one_lt_of_lt inside)
            · exact (serverToStart_eq st.servers).symm ▸ started
          · exact books
      next => exact books

/-! ## One step -/

/-- The books agree with what is in the pipes. -/
structure Invariant (s : Daemon) : Prop where
  books : Books s.servers s.unread s.log
  unread : ∀ p, names (s.pipe p) = s.unread p
  ended : ∀ p, ∀ c ∈ (s.pipe p).getLast?, c ∈ whitespace
  noNul : ∀ p, 0 ∉ s.pipe p

namespace Invariant

variable {s s' : Daemon} {text : Bytes} {left : List Bytes}

theorem newline : (10 : UInt8) ∈ whitespace := by decide

/-- A pipe gets new contents. -/
theorem update (inv : Invariant s) (p : Pipe) (unread : names text = left)
    (ended : ∀ c ∈ text.getLast?, c ∈ whitespace) (noNul : 0 ∉ text)
    (books : Books servers (Function.update s.unread p left) log) :
    Invariant ⟨Function.update s.pipe p text, servers, Function.update s.unread p left, log⟩ where
  books := books
  unread := by
    intro q
    by_cases same : q = p
    · subst same
      simpa only [Function.update_self] using unread
    · simpa only [Function.update_of_ne same] using inv.unread q
  ended := by
    intro q
    by_cases same : q = p
    · subst same
      simpa only [Function.update_self] using ended
    · simpa only [Function.update_of_ne same] using inv.ended q
  noNul := by
    intro q
    by_cases same : q = p
    · subst same
      simpa only [Function.update_self] using noNul
    · simpa only [Function.update_of_ne same] using inv.noNul q

theorem idle : Invariant Daemon.idle where
  books := Books.idle
  unread := fun _ => rfl
  ended := fun _ _ member => nomatch member
  noNul := fun _ member => nomatch member

/-- A name behind what is in a pipe is one more name. -/
theorem names_write (inv : Invariant s) (request : IsRequest name) (p : Pipe) :
    names (s.pipe p ++ name ++ [10]) = s.unread p ++ [name] := by
  have apart : Apart (s.pipe p) name := fun c last _ _ => .inl (inv.ended p c last)
  rw [names_snoc newline, names_append apart, inv.unread, names_name request]

theorem write (inv : Invariant s) (request : IsRequest name) (p : Pipe) : Invariant (s.write p name) := by
  refine inv.update p (inv.names_write request p) ?_ ?_ (inv.books.wrote request p)
  · intro c last
    rw [List.getLast?_concat] at last
    cases last
    exact newline
  · intro member
    rcases List.mem_append.mp member with front | tail
    · rcases List.mem_append.mp front with before | inside
      · exact inv.noNul p before
      · exact request.2.1 inside
    · exact absurd tail (by decide)

theorem kick (inv : Invariant s) :
    Invariant { s with pipe := Function.update s.pipe .request (s.pipe .request ++ [10]) } := by
  have same : names (s.pipe .request ++ [10]) = s.unread .request := by
    rw [names_snoc newline, inv.unread]
  have books : Books s.servers (Function.update s.unread .request (s.unread .request)) s.log := by
    rw [Function.update_eq_self]
    exact inv.books
  have updated := inv.update .request same (fun c last => ?_) (fun member => ?_) books
  · rwa [Function.update_eq_self] at updated
  · rw [List.getLast?_concat] at last
    cases last
    exact newline
  · rcases List.mem_append.mp member with before | tail
    · exact inv.noNul .request before
    · exact absurd tail (by decide)

/-- A read that ends between names takes the first names of the pipe and no others. -/
theorem read (inv : Invariant s) {count : Nat} (cut : Apart ((s.pipe p).take count) ((s.pipe p).drop count)) :
    Invariant (s.read p count) := by
  have whole : names ((s.pipe p).take count) ++ names ((s.pipe p).drop count) = s.unread p := by
    rw [← names_append cut, List.take_append_drop, inv.unread]
  have done : (s.unread p).length - (names ((s.pipe p).drop count)).length =
      (names ((s.pipe p).take count)).length := by
    rw [← whole, List.length_append, Nat.add_sub_cancel]
  have clean : 0 ∉ (s.pipe p).take count := fun member => inv.noNul p (List.mem_of_mem_take member)
  unfold Daemon.read
  dsimp only
  rw [done, recordInput_eq clean, ← whole, List.take_left, List.drop_left]
  refine inv.update p rfl ?_ ?_ (inv.books.readAll whole.symm)
  · intro c last
    rw [List.getLast?_drop] at last
    split at last
    · cases last
    · exact inv.ended p c last
  · exact fun member => inv.noNul p (List.mem_of_mem_drop member)

theorem step {e : Event} (inv : Invariant s) (cut : CutsNoName s e) (step : s.next e = some s') : Invariant s' := by
  cases e with
  | write p name =>
      rw [Daemon.next, Option.ite_none_right_eq_some] at step
      rcases step with ⟨request, same⟩
      cases same
      exact inv.write request p
  | kick =>
      cases step
      exact inv.kick
  | rescan =>
      cases step
      exact inv.update .scan rfl (fun _ member => nomatch member) (fun member => nomatch member) inv.books.rescan
  | read p count =>
      rw [Daemon.next, Option.ite_none_right_eq_some] at step
      rcases step with ⟨_, same⟩
      cases same
      exact inv.read cut
  | start pass =>
      cases step
      exact ⟨startServers_books pass _ inv.books, inv.unread, inv.ended, inv.noNul⟩

end Invariant

/-! ## The requests are served -/

theorem arrivals_turns (log : List Happening) : WaitingList.arrivals (turns log) = readCount log := by
  rw [WaitingList.arrivals, turns, List.countP_filterMap]
  refine List.countP_congr fun happening _ => ?_
  cases happening <;> exact Iff.rfl

theorem services_turns (log : List Happening) : WaitingList.services (turns log) = startCount log := by
  rw [WaitingList.services, turns, List.countP_filterMap]
  refine List.countP_congr fun happening _ => ?_
  cases happening <;> exact Iff.rfl

/-- A dot has no case. -/
theorem isPolled_eq (line : Bytes) : isPolled line = decide ((foldCase line).head? = some 46) := by
  have dot : ∀ c : UInt8, decide (c = 46) = decide ((toLower c).toNat = 46) := fun c =>
    of_decide_eq_true (forall_byte (p := fun c => decide (decide (c = 46) = decide ((toLower c).toNat = 46)))
      (by decide +kernel) c)
  cases line with
  | nil => rfl
  | cons c line => simpa [isPolled, foldCase] using dot c

theorem turns_split {happening : Happening} {turn' : Turn Bytes} (shown : turn happening = some turn')
    (split : log = later ++ happening :: earlier) : turns log = turns later ++ turn' :: turns earlier := by
  rw [split, turns_append]
  unfold turns
  rw [List.filterMap_cons_some shown]

namespace Books

theorem started_of_served (books : Books servers unread log) (part : ∀ happening ∈ later, happening ∈ log)
    (served : WaitingList.Served foldCase (turns later) name) : Started later name := by
  rcases served with ⟨line, member, same⟩
  rcases mem_turns_served.mp member with ⟨other, started⟩
  exact ⟨line, books.startedName line other (part _ started) ▸ started, same⟩

theorem kept (books : Books servers unread log) (split : log = later ++ .read p name :: earlier) :
    Awaited servers later name := by
  rcases books.run.kept (turns_split rfl split) with waiting | served
  · exact .inl waiting
  · exact .inr (books.started_of_served (fun _ member => split ▸ List.mem_append_left _ member) served)

theorem prompt (books : Books servers unread log) (split : log = later ++ .read p name :: earlier)
    (plain : isPolled name = false) (enough : readCount earlier < startCount later) : Started later name := by
  have respects : ∀ {a b : Bytes}, foldCase a = foldCase b → (!isPolled a) = !isPolled b := by
    intro a b same
    rw [isPolled_eq, isPolled_eq, same]
  have counts : WaitingList.arrivals (turns earlier) < WaitingList.services (turns later) := by
    rwa [arrivals_turns, services_turns]
  have served := books.run.prompt respects (by rw [plain]; rfl) (turns_split rfl split) counts
  exact books.started_of_served (fun _ member => split ▸ List.mem_append_left _ member) served

theorem started_split (books : Books servers unread log) (split : log = later ++ .started line name :: earlier) :
    name = queueName line ∧ ∃ p, .wrote p line ∈ earlier := by
  constructor
  · exact books.startedName line name (split ▸ List.mem_append_right _ List.mem_cons_self)
  · rcases mem_turns_came.mp (books.run.came_of_served (turns_split rfl split)) with ⟨p, member⟩
    rcases List.append_of_mem member with ⟨later', earlier', parts⟩
    refine ⟨p, parts ▸ List.mem_append_right _ (List.mem_cons_of_mem _ ?_)⟩
    refine books.readWritten (later ++ .started line name :: later') p line earlier' ?_
    rw [split, parts, List.append_assoc, List.cons_append]

end Books

theorem readNames_other {happening : Happening} (other : ∀ name, happening ≠ .read p name)
    (log : List Happening) : readNames p (happening :: log) = readNames p log := by
  rw [readNames_cons]
  cases happening with
  | wrote => exact List.append_nil _
  | started => exact List.append_nil _
  | read q name =>
      have different : q ≠ p := fun same => other name (same ▸ rfl)
      unfold readNames
      simp [different]

theorem readNames_read (p : Pipe) (name : Bytes) (log : List Happening) :
    readNames p (.read p name :: log) = readNames p log ++ [name] := by
  rw [readNames_cons]
  unfold readNames
  simp

theorem writtenNames_wrote (p : Pipe) (name : Bytes) (log : List Happening) :
    writtenNames p (.wrote p name :: log) = writtenNames p log ++ [name] := by
  rw [writtenNames_cons]
  unfold writtenNames
  simp

/-- Later names stand behind the earlier ones. -/
theorem isPrefix_writtenNames (p : Pipe) (later earlier : List Happening) :
    writtenNames p earlier <+: writtenNames p (later ++ earlier) := by
  unfold writtenNames
  rw [List.filterMap_append, List.reverse_append]
  exact List.prefix_append _ _

theorem isPrefix_readNames (p : Pipe) (later earlier : List Happening) :
    readNames p earlier <+: readNames p (later ++ earlier) := by
  unfold readNames
  rw [List.filterMap_append, List.reverse_append]
  exact List.prefix_append _ _

theorem Started.mono (started : Started earlier name) (part : ∀ happening ∈ earlier, happening ∈ later) :
    Started later name := by
  rcases started with ⟨line, member, same⟩
  exact ⟨line, part _ member, same⟩

/-- The moment at which a name that has been read was read. -/
theorem exists_read {i : Nat} (inside : i < (readNames p log).length) :
    ∃ later name earlier, log = later ++ .read p name :: earlier ∧ (readNames p earlier).length = i ∧
      (readNames p log)[i]? = some name := by
  induction log with
  | nil => exact absurd inside (Nat.not_lt_zero i)
  | cons happening log ih =>
      by_cases here : ∃ name, happening = .read p name
      · rcases here with ⟨name, rfl⟩
        rw [readNames_read] at inside ⊢
        by_cases before : i < (readNames p log).length
        · rcases ih before with ⟨later, other, earlier, rfl, size, same⟩
          refine ⟨.read p name :: later, other, earlier, rfl, size, ?_⟩
          rwa [List.getElem?_append_left before]
        · have last : i = (readNames p log).length := by
            rw [List.length_append, List.length_singleton] at inside
            omega
          refine ⟨[], name, log, rfl, last.symm, ?_⟩
          rw [last, List.getElem?_concat_length]
      · have other : ∀ name, happening ≠ .read p name := fun name same => here ⟨name, same⟩
        rw [readNames_other other] at inside ⊢
        rcases ih inside with ⟨later, name, earlier, rfl, size, same⟩
        exact ⟨happening :: later, name, earlier, rfl, size, same⟩

/-- A request that has been read was read after it was written. -/
theorem Books.served (books : Books servers unread log)
    (split : log = later ++ .wrote .request name :: earlier)
    (read : (writtenNames .request earlier).length < (readNames .request log).length) :
    Awaited servers later name := by
  rcases exists_read read with ⟨later', other, earlier', parts, size, there⟩
  have same : other = name := by
    have front : readNames .request log <+: writtenNames .request log := books.fifo log List.suffix_rfl
    have upTo : writtenNames .request earlier ++ [name] <+: writtenNames .request log := by
      rw [← writtenNames_wrote, split]
      exact isPrefix_writtenNames .request later _
    have first := List.prefix_iff_getElem?.mp front _ read
    have atEnd : (writtenNames .request earlier).length < (writtenNames .request earlier ++ [name]).length := by
      rw [List.length_append]
      exact Nat.lt_succ_self _
    have second := List.prefix_iff_getElem?.mp upTo _ atEnd
    rw [List.getElem_concat_length rfl] at second
    rw [List.getElem?_eq_getElem read] at there
    exact Option.some.inj (there.symm.trans (first.symm.trans second))
  have readLater : .read .request other :: earlier' <:+ log := ⟨later', parts.symm⟩
  have wroteLater : .wrote .request name :: earlier <:+ log := ⟨later, split.symm⟩
  rcases List.suffix_or_suffix_of_suffix readLater wroteLater with early | late
  · rcases List.suffix_cons_iff.mp early with clash | inside
    · cases clash
    · rcases inside with ⟨between, rfl⟩
      have more := (isPrefix_readNames .request between (.read .request other :: earlier')).length_le
      have bound := (books.fifo _ ((List.suffix_cons _ _).trans wroteLater)).length_le
      rw [readNames_read, List.length_append, List.length_singleton] at more
      omega
  · rcases List.suffix_cons_iff.mp late with clash | inside
    · cases clash
    · rcases inside with ⟨between, rfl⟩
      have whole : later = later' ++ .read .request other :: between := by
        refine List.append_cancel_right (split.symm.trans (parts.trans ?_))
        rw [List.append_assoc, List.cons_append]
      rw [whole, ← same]
      rcases books.kept parts with waiting | started
      · exact .inl waiting
      · exact .inr (started.mono fun _ member => List.mem_append_left _ member)

theorem Invariant.sound {s : Daemon} (inv : Invariant s) : Sound s where
  unread := inv.unread
  inOrder := inv.books.order
  listed := fun _ listed => inv.books.written_of_mem listed
  once := inv.books.run.nodup
  started := fun _ _ _ _ split => inv.books.started_split split
  kept := fun _ _ _ _ split => inv.books.kept split
  served := fun _ _ _ split => (Nat.lt_or_ge _ _).symm.imp_right (inv.books.served split)
  prompt := fun _ _ _ _ split plain enough => inv.books.prompt split plain enough

/-- When no read ends inside a name, every request is served, and nothing else is. -/
theorem startRequests_sound {s : Daemon} (reached : startRequests.Reachable CutsNoName s) : Sound s := by
  refine Invariant.sound (reached.invariant ?_ ?_)
  · intro s start
    exact start ▸ Invariant.idle
  · exact fun s e s' inv cut step => inv.step cut step

/-- A pass on which servers can be started. -/
def eager : StartPass := ⟨0, 0, 10, 20, 0, fun _ => true⟩

theorem startRequests_sound_lp :
    ∃ s, s.servers = [] ∧ .started (lit "lp") (lit "lp") ∈ s.log ∧ Sound s := by
  have idle : startRequests.Reachable CutsNoName Daemon.idle := .init rfl
  have named : IsRequest (lit "lp") := by decide
  have write : Daemon.idle.next (.write .request (lit "lp")) = some (Daemon.idle.write .request (lit "lp")) := by
    rw [Daemon.next, if_pos named]
  have written : startRequests.Reachable CutsNoName (Daemon.idle.write .request (lit "lp")) :=
    idle.step (show CutsNoName _ (.write .request (lit "lp")) from trivial) write
  have whole : CutsNoName (Daemon.idle.write .request (lit "lp")) (.read .request 3) :=
    fun _ _ _ behind => nomatch behind
  have read : startRequests.Reachable CutsNoName ((Daemon.idle.write .request (lit "lp")).read .request 3) :=
    written.step whole rfl
  have any : ∀ s, CutsNoName s (.start eager) := fun _ => trivial
  refine ⟨_, ?_, ?_, startRequests_sound (read.step (any _) rfl)⟩
  · decide +kernel
  · decide +kernel

/-- As many requests as fill the line buffer: the last name is cut. -/
def fullBuffer : List Event :=
  List.replicate 44 (.write .request (lit "lp1")) ++
    [.write .request (lit "lp12"), .read .request 179, .read .request 2, .start eager]

/-- The end of a name that is cut becomes the name of a queue of its own. -/
theorem fragment_started :
    ¬ ∀ s, startRequests.Reachable (fun _ _ => True) s → Sound s := by
  intro all
  have ran : ((fullBuffer.foldlM Daemon.next Daemon.idle).any fun s =>
      s.log.contains (.started (lit "2") (lit "2")) && !s.log.contains (.wrote .request (lit "2")) &&
        !s.log.contains (.wrote .scan (lit "2"))) = true := by decide +kernel
  generalize there : fullBuffer.foldlM Daemon.next Daemon.idle = result at ran
  cases result with
  | none => cases ran
  | some s =>
  simp only [Option.any_some, Bool.and_eq_true, List.contains_iff_mem, Bool.not_eq_true', Bool.eq_false_iff] at ran
  rcases ran with ⟨⟨started, notWritten⟩, notScanned⟩
  have reached : startRequests.Reachable (fun _ _ => True) s :=
    System.reachable_foldlM (.init rfl) (fun _ _ _ => trivial) there
  rcases List.append_of_mem started with ⟨later, earlier, split⟩
  rcases ((all s reached).started later _ _ earlier split).2 with ⟨p, wrote⟩
  have inLog : .wrote p (lit "2") ∈ s.log := split ▸ List.mem_append_right _ (List.mem_cons_of_mem _ wrote)
  cases p with
  | request => exact notWritten (List.contains_iff_mem.mpr inLog)
  | scan => exact notScanned (List.contains_iff_mem.mpr inLog)

end LPRng.StartRequests
