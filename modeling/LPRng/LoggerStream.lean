import LPRng.Bytes
import LPRng.Transition
import Mathlib.Data.List.Infix

/-!
# The stream of the logger

`Logger` forwards what it reads from the server to a remote monitor. What is to be sent goes through a temporary file,
which has an offset for writing and one for reading, and from there in pieces to a buffer. Each new connection is to get
the status of the queues first and then all that was read since. That holds as long as nothing of an earlier connection
is left when one is opened.
-/

namespace LPRng

namespace LoggerStream

/-! ## The loop -/

/-- What goes over one connection: the status dump made when it was opened, what was read from the server since then,
and what was written. -/
structure Connection where
  dump : Bytes
  input : Bytes
  written : Bytes
  deriving DecidableEq

/-- `writefd`: -2 where a connection is tried at once, -1 where that waits for a while, else a connection. -/
inductive Link where
  | retry
  | wait
  | up (conn : Connection)
  deriving DecidableEq

/-- The variables of `Logger`, and the connections that were closed. The buffer is `outbuffer` up to `outlen`, and
`readOpen` tells whether `readfd` is. -/
structure LoggerState where
  readOpen : Bool
  link : Link
  file : Bytes
  writeOffset : Nat
  readOffset : Nat
  inputRead : Bool
  outbuffer : Bytes
  past : List Connection
  exited : Bool

def LoggerState.start : LoggerState := ⟨true, .retry, [], 0, 0, false, [], [], false⟩

/-- What happens in one turn of the loop: whether it is time to try a connection, the dump for it if it opens, whether the
monitor closes the connection, what is read from the server, where nothing is the end of it, and how a write ends, which
is with a count or an error. -/
structure Round where
  due : Bool
  connect : Option Bytes
  closed : Bool
  input : Option Bytes
  write : Option (Option Nat)

/-- `sizeof(inbuffer)-1`. -/
def inbufferSize : Nat := 10239

/-- A file with `data` written at an offset. -/
def writeAt (file : Bytes) (offset : Nat) (data : Bytes) : Bytes :=
  file.take offset ++ List.replicate (offset - file.length) 0 ++ data ++ file.drop (offset + data.length)

/-- More output is taken from the file. A read that comes to its end empties it. -/
def refill (s : LoggerState) : LoggerState :=
  if s.outbuffer = [] ∧ s.inputRead = true then
    let m := (s.file.drop s.readOffset).take inbufferSize
    if m.length < inbufferSize then
      { s with outbuffer := m, file := [], writeOffset := 0, readOffset := 0, inputRead := false }
    else { s with outbuffer := m, readOffset := s.readOffset + m.length }
  else s

/-- The connection is opened, and the file is emptied for the dump. -/
def openLink (dump : Bytes) (s : LoggerState) : LoggerState :=
  { s with
    link := .up ⟨dump, [], []⟩
    file := writeAt [] 0 dump, writeOffset := dump.length, readOffset := 0, inputRead := true }

/-- The monitor closes the connection. -/
def closeLink (closed : Bool) (s : LoggerState) : LoggerState :=
  match s.link with
  | .up conn => if closed then { s with link := .retry, outbuffer := [], past := s.past ++ [conn] } else s
  | .retry | .wait => s

/-- What is read from the server goes to the file, if there is a connection. -/
def readInput (input : Option Bytes) (s : LoggerState) : LoggerState :=
  if s.readOpen then
    match input with
    | none => s
    | some [] => { s with readOpen := false }
    | some (c :: cs) =>
        match s.link with
        | .up conn =>
            { s with
              file := writeAt s.file s.writeOffset (c :: cs), writeOffset := s.writeOffset + (c :: cs).length
              inputRead := true, link := .up { conn with input := conn.input ++ c :: cs } }
        | .retry | .wait => s
  else s

/-- The buffer is written. A write error closes the connection. -/
def writeOut (write : Option (Option Nat)) (s : LoggerState) : LoggerState :=
  match s.link with
  | .up conn =>
      if s.outbuffer = [] then s
      else
        match write with
        | none => s
        | some none => { s with link := .retry, past := s.past ++ [conn] }
        | some (some m) =>
            { s with
              outbuffer := s.outbuffer.drop m
              link := .up { conn with written := conn.written ++ s.outbuffer.take m } }
  | .retry | .wait => s

/-- What is done after `select`. -/
def service (round : Round) (s : LoggerState) : LoggerState :=
  writeOut round.write (readInput round.input (closeLink round.closed s))

/-- A connection is to be tried. -/
def Tries (round : Round) (s : LoggerState) : Prop := s.link = .retry ∨ s.link = .wait ∧ round.due = true

instance (round : Round) (s : LoggerState) : Decidable (Tries round s) := inferInstanceAs (Decidable (_ ∨ _))

/-- One turn of the loop of `Logger`. -/
def turn (round : Round) (s : LoggerState) : LoggerState :=
  let s := refill s
  if s.readOpen = false ∧ s.outbuffer = [] then { s with exited := true }
  else if Tries round s then
    match round.connect with
    | some dump => openLink dump s
    | none => service round { s with link := .wait }
  else service round s

/-- The loop of `Logger`, up to its end. -/
def logger : System LoggerState Round :=
  .ofNext (· = .start) fun s round => if s.exited then none else some (turn round s)

/-! ## What is expected -/

/-- Nothing of an earlier connection is left, neither in the buffer nor in the file. -/
def NothingLeft (s : LoggerState) : Prop :=
  s.outbuffer = [] ∧ (s.inputRead = true → s.file.drop s.readOffset = [])

/-- If a connection is opened then nothing of an earlier one is left. -/
def OpensFresh (s : LoggerState) (round : Round) : Prop := Tries round s → round.connect ≠ none → NothingLeft s

/-- What was written on each connection is a part of its stream from the start on, and all of it if the logger has come to
an end with the connection up. -/
structure Faithful (s : LoggerState) : Prop where
  past : ∀ conn ∈ s.past, conn.written <+: conn.dump ++ conn.input
  current : ∀ conn, s.link = .up conn → conn.written <+: conn.dump ++ conn.input
  whole : s.exited = true → ∀ conn, s.link = .up conn → conn.written = conn.dump ++ conn.input

/-! ## One turn -/

variable {s : LoggerState}

/-- What is still to be sent stands in the buffer and behind it in the file. -/
structure Carries (s : LoggerState) : Prop where
  past : ∀ conn ∈ s.past, conn.written <+: conn.dump ++ conn.input
  current : ∀ conn, s.link = .up conn →
    conn.written ++ (s.outbuffer ++ s.file.drop s.readOffset) = conn.dump ++ conn.input
  writes : s.writeOffset = s.file.length
  reads : s.readOffset ≤ s.file.length
  unread : s.inputRead = false → s.file = []

theorem carries_start : Carries .start where
  past := nofun
  current := nofun
  writes := rfl
  reads := le_rfl
  unread _ := rfl

theorem Carries.written_prefix (carries : Carries s) {conn : Connection} (up : s.link = .up conn) :
    conn.written <+: conn.dump ++ conn.input := ⟨_, carries.current conn up⟩

/-- Data that is written at the end. -/
theorem writeAt_length (file data : Bytes) : writeAt file file.length data = file ++ data := by
  unfold writeAt
  rw [List.take_length, Nat.sub_self, List.drop_eq_nil_of_le (Nat.le_add_right _ _)]
  simp

theorem Carries.refill (carries : Carries s) : Carries (refill s) := by
  unfold LoggerStream.refill
  split
  swap
  · exact carries
  next idle =>
    have taken : (s.file.drop s.readOffset).take inbufferSize <+: s.file.drop s.readOffset := List.take_prefix _ _
    have rest := List.prefix_append_drop taken
    dsimp only
    split
    · next short =>
        have all : (s.file.drop s.readOffset).take inbufferSize = s.file.drop s.readOffset := by
          rw [List.length_take] at short
          exact List.take_of_length_le (by omega)
        refine ⟨carries.past, fun conn up => ?_, rfl, le_rfl, fun _ => rfl⟩
        have before := carries.current conn up
        rw [idle.1, List.nil_append] at before
        rw [all, List.drop_nil, List.append_nil, before]
    · refine ⟨carries.past, fun conn up => ?_, carries.writes, ?_, fun unset => ?_⟩
      · have before := carries.current conn up
        rw [idle.1, List.nil_append] at before
        rw [← List.drop_drop, ← rest, before]
      · have length := taken.length_le
        rw [List.length_drop] at length
        have within := carries.reads
        show s.readOffset + _ ≤ s.file.length
        omega
      · cases idle.2.symm.trans unset

/-- A connection that is opened with nothing left of an earlier one has its dump to send. -/
theorem Carries.openLink (carries : Carries s) (left : s.outbuffer = []) (dump : Bytes) :
    Carries (openLink dump s) := by
  have empty : writeAt [] 0 dump = dump := writeAt_length [] dump
  refine ⟨carries.past, ?_, ?_, Nat.zero_le _, nofun⟩
  · intro conn up
    cases up
    show [] ++ (s.outbuffer ++ (writeAt [] 0 dump).drop 0) = dump ++ []
    rw [left, empty, List.drop_zero, List.append_nil]
    rfl
  · show dump.length = (writeAt [] 0 dump).length
    rw [empty]

/-- A connection that is given up belongs to the past. -/
theorem Carries.past_append (carries : Carries s) {conn : Connection} (up : s.link = .up conn) :
    ∀ other ∈ s.past ++ [conn], other.written <+: other.dump ++ other.input := by
  intro other member
  rcases List.mem_append.mp member with before | now
  · exact carries.past other before
  · cases List.mem_singleton.mp now
    exact carries.written_prefix up

theorem Carries.closeLink (carries : Carries s) (closed : Bool) : Carries (closeLink closed s) := by
  unfold LoggerStream.closeLink
  split
  · next conn up =>
      split
      · exact ⟨carries.past_append up, nofun, carries.writes, carries.reads, carries.unread⟩
      · exact carries
  · exact carries
  · exact carries

theorem Carries.readInput (carries : Carries s) (input : Option Bytes) : Carries (readInput input s) := by
  unfold LoggerStream.readInput
  split
  swap
  · exact carries
  split
  · exact carries
  · exact ⟨carries.past, carries.current, carries.writes, carries.reads, carries.unread⟩
  · next c cs =>
      split
      · next conn up =>
          have appended : writeAt s.file s.writeOffset (c :: cs) = s.file ++ c :: cs := by
            rw [carries.writes, writeAt_length]
          refine ⟨carries.past, ?_, ?_, ?_, nofun⟩
          · intro other same
            cases same
            have before := carries.current conn up
            dsimp only
            rw [appended, List.drop_append_of_le_length carries.reads, ← List.append_assoc s.outbuffer,
              ← List.append_assoc conn.written, before, List.append_assoc]
          · dsimp only
            rw [appended, List.length_append, carries.writes]
          · dsimp only
            rw [appended, List.length_append]
            exact Nat.le_add_right_of_le carries.reads
      · exact carries
      · exact carries

theorem Carries.writeOut (carries : Carries s) (write : Option (Option Nat)) : Carries (writeOut write s) := by
  unfold LoggerStream.writeOut
  split
  swap
  · exact carries
  swap
  · exact carries
  next conn up =>
    split
    · exact carries
    · split
      · exact carries
      · exact ⟨carries.past_append up, nofun, carries.writes, carries.reads, carries.unread⟩
      · next m =>
          refine ⟨carries.past, ?_, carries.writes, carries.reads, carries.unread⟩
          intro other same
          cases same
          have before := carries.current conn up
          dsimp only
          rw [List.append_assoc, ← List.append_assoc (s.outbuffer.take m), List.take_append_drop, before]

theorem Carries.service (carries : Carries s) (round : Round) : Carries (service round s) :=
  ((carries.closeLink round.closed).readInput round.input).writeOut round.write

/-- A turn does nothing to `exited` but at its end. -/
theorem exited_service (round : Round) (s : LoggerState) : (service round s).exited = s.exited := by
  have closed : (closeLink round.closed s).exited = s.exited := by
    unfold closeLink
    split
    · split
      · rfl
      · rfl
    · rfl
    · rfl
  have read (s : LoggerState) : (readInput round.input s).exited = s.exited := by
    unfold readInput
    split
    · split
      · rfl
      · rfl
      · split
        · rfl
        · rfl
        · rfl
    · rfl
  have written (s : LoggerState) : (writeOut round.write s).exited = s.exited := by
    unfold writeOut
    split
    · split
      · rfl
      · split
        · rfl
        · rfl
        · rfl
    · rfl
    · rfl
  rw [service, written, read, closed]

theorem exited_refill (s : LoggerState) : (refill s).exited = s.exited := by
  unfold refill
  split
  · dsimp only
    split
    · rfl
    · rfl
  · rfl

theorem link_refill (s : LoggerState) : (refill s).link = s.link := by
  unfold refill
  split
  · dsimp only
    split
    · rfl
    · rfl
  · rfl

/-- What is left can be seen once the buffer is filled. -/
theorem refill_left (carries : Carries s) :
    (NothingLeft s → (refill s).outbuffer = []) ∧
      ((refill s).outbuffer = [] → (refill s).file.drop (refill s).readOffset = []) := by
  unfold refill NothingLeft
  split
  · next idle =>
      dsimp only
      constructor
      · intro left
        rw [left.2 idle.2, List.take_nil]
        split
        · rfl
        · rfl
      · split
        · exact fun _ => List.drop_nil
        · next long =>
            intro none
            have empty : (s.file.drop s.readOffset).take inbufferSize = [] := none
            rw [empty] at long
            exact absurd (Nat.zero_lt_succ _) long
  · next busy =>
      constructor
      · exact fun left => left.1
      · intro none
        have unset : s.inputRead = false := by
          rw [← Bool.not_eq_true]
          exact fun some_ => busy ⟨none, some_⟩
        rw [carries.unread unset, List.drop_nil]

/-! ## A run -/

/-- What holds from turn to turn. -/
structure Flows (s : LoggerState) : Prop where
  carries : Carries s
  whole : s.exited = true → ∀ conn, s.link = .up conn → conn.written = conn.dump ++ conn.input

theorem Flows.faithful (flows : Flows s) : Faithful s where
  past := flows.carries.past
  current _ up := flows.carries.written_prefix up
  whole := flows.whole

theorem flows_turn (carries : Carries s) (running : s.exited = false) (round : Round) (fresh : OpensFresh s round) :
    Flows (turn round s) := by
  have filled := carries.refill
  have runs : (refill s).exited = false := (exited_refill s).trans running
  have left := refill_left carries
  unfold turn
  dsimp only
  split
  · next ends =>
      refine ⟨⟨filled.past, filled.current, filled.writes, filled.reads, filled.unread⟩, fun _ conn up => ?_⟩
      have sent := filled.current conn up
      rwa [ends.2, left.2 ends.2, List.append_nil, List.append_nil] at sent
  · split
    · next tries =>
        have again : Tries round s := by
          unfold Tries at tries ⊢
          rwa [link_refill] at tries
        split
        · next dump opens =>
            have clear := left.1 (fresh again fun none => nomatch none.symm.trans opens)
            exact ⟨filled.openLink clear dump, fun exits => nomatch exits.symm.trans runs⟩
        · have waits : Carries { refill s with link := .wait } :=
            ⟨filled.past, nofun, filled.writes, filled.reads, filled.unread⟩
          refine ⟨waits.service round, fun exits => ?_⟩
          rw [exited_service] at exits
          cases exits.symm.trans runs
    · refine ⟨filled.service round, fun exits => ?_⟩
      rw [exited_service] at exits
      cases exits.symm.trans runs

/-- In every run in which connections are only opened with nothing left of an earlier one, each connection gets its dump and
then all that was read since, as far as it lasts. -/
theorem faithful_of_reachable (reached : logger.Reachable OpensFresh s) : Faithful s := by
  have flows : Flows s := by
    refine reached.invariant ?_ ?_
    · intro s start
      have same : s = .start := start
      rw [same]
      exact ⟨carries_start, nofun⟩
    · intro s round s' flows fresh step
      have next : (if s.exited then none else some (turn round s)) = some s' := step
      split at next
      · cases next
      · next running =>
          cases next
          exact flows_turn flows.carries (Bool.eq_false_iff.mpr running) round fresh
  exact flows.faithful

/-- A connection is opened, where no queue is there to be dumped. -/
def opens : Round := ⟨false, some (lit "END\n"), false, none, none⟩

/-- The server sends a line. -/
def sends : Round := ⟨false, none, false, some (lit "a\n"), none⟩

/-- The buffer is written as far as it goes. -/
def writes : Round := ⟨false, none, false, none, some (some inbufferSize)⟩

theorem faithful_of_reachable_written : Faithful (turn writes (turn sends (turn opens .start))) := by
  have opened : logger.Reachable OpensFresh (turn opens .start) :=
    .step (.init rfl) (fun _ _ => ⟨rfl, nofun⟩) rfl
  have sent : logger.Reachable OpensFresh (turn sends (turn opens .start)) :=
    .step opened (fun _ some_ => absurd rfl some_) rfl
  exact faithful_of_reachable (.step sent (fun _ some_ => absurd rfl some_) rfl)

/-- The monitor closes the connection. -/
def closes : Round := ⟨false, none, true, none, none⟩

/-- A line that was read before the monitor closed its connection is what it gets first on the next one. -/
theorem left_from_earlier : ¬ ∀ s, logger.Reachable (fun _ _ => True) s → Faithful s := by
  intro claimed
  have ran : [opens, sends, closes, opens, writes].foldlM
      (fun s round => if s.exited then none else some (turn round s)) .start =
        some (turn writes (turn opens (turn closes (turn sends (turn opens .start))))) := rfl
  have reached : logger.Reachable (fun _ _ => True) _ := System.reachable_foldlM (.init rfl) (fun _ _ _ => trivial) ran
  have sent := (claimed _ reached).current ⟨lit "END\n", [], lit "a\n"⟩ rfl
  exact absurd sent (by decide)

end LoggerStream

end LPRng
