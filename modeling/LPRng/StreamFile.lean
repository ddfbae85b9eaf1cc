import LPRng.Bytes

/-!
# Data files of unknown length

`Receive_job` reads a data file with `Link_file_read`, up to the length that was announced and one
byte more for the end marker. A length of 0 announces a file that ends with the connection; what
is read then is bounded by the largest size of a job, and the bound is taken for the length.
-/

namespace LPRng

/-! ## The connection -/

/-- What a read gives behind the last byte. -/
inductive ReadEnd where
  | eof
  | failed
  | timedOut
  deriving DecidableEq, Repr

/-- How a connection ends: the sender closes it, which every further read says, or a read fails or
takes too long, and another read gives what it may. -/
inductive Ending where
  | closed
  | broken (first : ReadEnd) (again : ReadEnd) (fails : first ≠ .eof)

/-- What the first read behind the last byte gives, and what any later one. -/
def Ending.read : Ending → Nat → ReadEnd
  | .closed, _ => .eof
  | .broken first _ _, 0 => first
  | .broken _ again _, _ + 1 => again

/-- The bytes that arrive, how many of them a read gets at most, how the connection ends, and which
writes to the file the bytes are copied to succeed. -/
structure Connection where
  bytes : Bytes
  sizes : Nat → Nat
  ending : Ending
  writes : Nat → Bool

inductive LinkStatus where
  | success
  | transferFail
  | ackFail
  deriving DecidableEq, Repr

/-! ## Reading -/

/-- `LARGEBUFFER`. -/
def largeBuffer : Nat := 10240

/-- Where the loop of `Link_file_read` stops: whether it failed, what it copied, the bytes it left,
and how often it read behind them. -/
structure LoopEnd where
  success : Bool
  stored : Bytes
  rest : Bytes
  ends : Nat

/-- The loop of `Link_file_read`, at read `k`, with `len` bytes to go if there is a limit. -/
def Connection.readLoop (conn : Connection) (limited : Bool) (k len : Nat) (stored : Bytes) :
    Bytes → LoopEnd
  | [] =>
      if limited && len = 0 then ⟨true, stored, [], 0⟩
      else if conn.ending.read 0 = .timedOut ∨ limited then ⟨false, stored, [], 1⟩
      else ⟨true, stored, [], 1⟩
  | c :: s =>
      if limited && len = 0 then ⟨true, stored, c :: s, 0⟩
      else
        let l := if limited then min largeBuffer len else largeBuffer
        let n := max 1 (min (conn.sizes k) l)
        let stored := stored ++ (c :: s).take n
        let rest := (c :: s).drop n
        if conn.writes k then
          conn.readLoop limited (k + 1) (len - (s.length + 1 - rest.length)) stored rest
        else ⟨false, stored, rest, 0⟩
termination_by s => s.length
decreasing_by
  rw [List.length_drop, List.length_cons]
  omega

/-- The byte behind a file, which is 0, or missing where the connection was closed. -/
def Connection.endMarker (conn : Connection) (stop : LoopEnd) : LinkStatus :=
  match stop.rest with
  | marker :: _ => if marker = 0 then .success else .ackFail
  | [] => if conn.ending.read stop.ends = .eof then .success else .transferFail

/-- `Link_file_read` with an end marker. The result has the bytes that were copied; their number
is left in `*count`. -/
def Connection.linkFileRead (conn : Connection) (count : Int) : LinkStatus × Bytes :=
  let stop := conn.readLoop (count ≠ 0) 0 count.toNat [] conn.bytes
  if !stop.success then (.transferFail, stop.stored)
  else if stop.stored = [] then (.success, [])
  else (conn.endMarker stop, stop.stored)

/-! ## Receiving -/

def ackRetry : UInt8 := 2

/-- What becomes of a data file. -/
inductive Reception where
  | rejected (ack : UInt8)
  | accepted (stored : Bytes)
  | discarded
  deriving DecidableEq

/-- The settings for the size of a job, and what `Check_space` says for a number of bytes. -/
structure SizeLimits where
  maxJobSize : Nat
  discardLargeJobs : Bool
  checkSpace : Int → Bool

/-- The part of `Receive_job` for the bytes of one data file, where `jobsize` bytes of the job
were announced before and `acked` tells whether the 0 that asks for the bytes was sent. -/
def SizeLimits.receiveDataFile (limits : SizeLimits) (jobsize : Nat) (acked : Bool) (fileLen : Nat)
    (conn : Connection) : Reception :=
  let jobsize := jobsize + fileLen
  let readLen : Int := if fileLen = 0 then toInt32 (limits.maxJobSize * 1024) else fileLen
  let large : Bool := 0 < limits.maxJobSize && limits.maxJobSize * 1024 < jobsize
  if large && !limits.discardLargeJobs then .rejected ackRetry
  else if !large && !limits.checkSpace readLen then .rejected ackRetry
  else if !acked then .rejected ackRetry
  else
    let (status, stored) := conn.linkFileRead readLen
    if status ≠ .success ∨ (fileLen = 0 ∧ stored.length = 0) ∨
        (fileLen ≠ 0 ∧ fileLen ≠ stored.length) then .rejected ackRetry
    else if large then .discarded
    else .accepted stored

/-! ## What the loop reads -/

variable {conn : Connection} {s stored : Bytes} {k len : Nat}

/-- Without a limit, everything is read. -/
theorem readLoop_unlimited (written : ∀ k, conn.writes k = true) :
    (conn.readLoop false k len stored s).success = decide (conn.ending.read 0 ≠ .timedOut) ∧
      (conn.ending.read 0 ≠ .timedOut →
        conn.readLoop false k len stored s = ⟨true, stored ++ s, [], 1⟩) := by
  induction h : s.length using Nat.strongRecOn generalizing k len stored s with
  | ind n ih =>
      cases s with
      | nil =>
          rw [Connection.readLoop]
          by_cases late : conn.ending.read 0 = .timedOut <;> simp [late]
      | cons c s =>
          rw [Connection.readLoop, written k]
          simp only [Bool.false_and, Bool.false_eq_true, if_false, if_true]
          generalize size : max 1 (min (conn.sizes k) largeBuffer) = m
          have shorter : ((c :: s).drop m).length < n := by
            rw [List.length_drop, ← h, List.length_cons]
            omega
          obtain ⟨success, whole⟩ := ih _ shorter rfl
          refine ⟨success, fun intime => (whole intime).trans ?_⟩
          rw [List.append_assoc, List.take_append_drop]

/-- With a limit, that many bytes are read, or the loop fails. -/
theorem readLoop_limited (written : ∀ k, conn.writes k = true) :
    (conn.readLoop true k len stored s).success = decide (len ≤ s.length) ∧
      (len ≤ s.length →
        conn.readLoop true k len stored s = ⟨true, stored ++ s.take len, s.drop len, 0⟩) := by
  induction h : s.length using Nat.strongRecOn generalizing k len stored s with
  | ind n ih =>
      cases s with
      | nil =>
          rw [Connection.readLoop]
          subst h
          cases len <;> simp
      | cons c s =>
          rw [Connection.readLoop, written k]
          rcases len with - | len
          · simp
          simp only [Bool.true_and, decide_eq_true_eq, Nat.add_one_ne_zero, if_false, if_true]
          generalize size : max 1 (min (conn.sizes k) (min largeBuffer (len + 1))) = m
          have small : 1 ≤ m ∧ m ≤ len + 1 := by omega
          have shorter : ((c :: s).drop m).length < n := by
            rw [List.length_drop, ← h, List.length_cons]
            omega
          have left : ((c :: s).drop m).length = s.length + 1 - m := by
            rw [List.length_drop, List.length_cons]
          obtain ⟨success, whole⟩ : (conn.readLoop true (k + 1)
              (len + 1 - (s.length + 1 - ((c :: s).drop m).length)) (stored ++ (c :: s).take m)
              ((c :: s).drop m)).success = _ ∧ _ :=
            ih _ shorter rfl
          rw [left] at success whole
          have enough : len + 1 - (s.length + 1 - (s.length + 1 - m)) ≤ s.length + 1 - m ↔
              len + 1 ≤ (c :: s).length := by
            rw [List.length_cons]
            omega
          rw [left]
          refine ⟨success.trans (decide_eq_decide.mpr (h ▸ enough)), fun given => ?_⟩
          have given : len + 1 ≤ (c :: s).length := h ▸ given
          rw [List.length_cons] at given
          have rest : len + 1 - (s.length + 1 - (s.length + 1 - m)) = len + 1 - m := by omega
          rw [whole (by omega), rest, List.append_assoc, List.drop_drop]
          have taken : (c :: s).take m ++ ((c :: s).drop m).take (len + 1 - m) = (c :: s).take (len + 1) := by
            rw [← List.take_add]
            congr 1
            omega
          rw [taken, show m + (len + 1 - m) = len + 1 by omega]

/-! ## What is read of a file -/

theorem linkFileRead_unlimited (written : ∀ k, conn.writes k = true) :
    conn.linkFileRead 0 =
      if conn.ending.read 0 = .timedOut then (.transferFail, (conn.linkFileRead 0).2)
      else if conn.bytes = [] then (.success, [])
      else (if conn.ending.read 1 = .eof then .success else .transferFail, conn.bytes) := by
  obtain ⟨success, whole⟩ : (conn.readLoop false 0 0 [] conn.bytes).success = _ ∧ _ :=
    readLoop_unlimited written
  unfold Connection.linkFileRead
  simp only [ne_eq, not_true_eq_false, decide_false, Int.toNat_zero]
  by_cases late : conn.ending.read 0 = .timedOut
  · rw [if_pos late, success, late]
    rfl
  · rw [if_neg late, whole late]
    rfl

theorem linkFileRead_negative {count : Int} (negative : count < 0) :
    conn.linkFileRead count = (.success, []) := by
  have none_left : conn.readLoop true 0 0 [] conn.bytes = ⟨true, [], conn.bytes, 0⟩ := by
    rcases conn.bytes with - | ⟨c, s⟩ <;> rw [Connection.readLoop] <;> rfl
  have limited : decide (count ≠ 0) = true := decide_eq_true (Int.ne_of_lt negative)
  unfold Connection.linkFileRead
  rw [limited, Int.toNat_of_nonpos (Int.le_of_lt negative), none_left]
  rfl

theorem linkFileRead_limited (written : ∀ k, conn.writes k = true) {n : Nat} (positive : 0 < n) :
    (conn.bytes.length < n → (conn.linkFileRead n).1 = .transferFail) ∧
      (n ≤ conn.bytes.length → conn.linkFileRead n =
        (conn.endMarker ⟨true, conn.bytes.take n, conn.bytes.drop n, 0⟩, conn.bytes.take n)) := by
  obtain ⟨success, whole⟩ : (conn.readLoop true 0 n [] conn.bytes).success = _ ∧ _ :=
    readLoop_limited written
  have limited : decide ((n : Int) ≠ 0) = true := decide_eq_true (by omega)
  unfold Connection.linkFileRead
  rw [limited, Int.toNat_natCast]
  refine ⟨fun short => ?_, fun enough => ?_⟩
  · dsimp only
    rw [success, decide_eq_false (by omega)]
    rfl
  · have given : conn.bytes.take n ≠ [] := by
      rw [ne_eq, List.take_eq_nil_iff, not_or]
      refine ⟨by omega, fun empty => ?_⟩
      rw [empty] at enough
      exact absurd enough (by simp; omega)
    rw [whole enough, List.nil_append]
    simp only [Bool.not_true, Bool.false_eq_true, if_false, given]

/-! ## A file that ends with the connection -/

/-- A file that was closed by its sender is stored whole if it is not too large, and rejected if it
is; a file that broke off is not accepted. -/
def StoredWhole (maxJobSize : Nat) (conn : Connection) (reception : Reception) : Prop :=
  match conn.ending with
  | .closed =>
      if maxJobSize = 0 ∨ conn.bytes.length ≤ maxJobSize * 1024 then reception = .accepted conn.bytes
      else ∃ ack, ack ≠ 0 ∧ reception = .rejected ack
  | .broken _ _ _ => ∀ stored, reception ≠ .accepted stored

/-- The connections that suit a limit. Without one, as it is read in a machine word, everything is
read, and a broken connection is only noticed by the read for the end marker. A limit is suited by
files of just that length, and by larger ones that are too large where the next byte is not 0. -/
def Suits (maxJobSize : Nat) (conn : Connection) : Prop :=
  let limit := toInt32 (maxJobSize * 1024)
  match conn.ending with
  | .closed =>
      if limit = 0 then maxJobSize = 0 ∨ conn.bytes.length ≤ maxJobSize * 1024
      else if limit < 0 then maxJobSize * 1024 < conn.bytes.length
      else conn.bytes.length = limit.toNat ∨
        (maxJobSize * 1024 < conn.bytes.length ∧ conn.bytes[limit.toNat]? ≠ some 0)
  | .broken first again _ =>
      if limit = 0 then conn.bytes = [] ∨ first ≠ .failed ∨ again ≠ .eof
      else limit < 0 ∨ conn.bytes[limit.toNat]? ≠ some 0

variable {limits : SizeLimits} {jobsize : Nat}

/-- Nothing else stands in the way of the file: the job was not too large before it, there is space,
and all writes succeed. -/
structure Undisturbed (limits : SizeLimits) (jobsize : Nat) (conn : Connection) : Prop where
  fits : limits.maxJobSize = 0 ∨ jobsize ≤ limits.maxJobSize * 1024
  space : limits.checkSpace (toInt32 (limits.maxJobSize * 1024)) = true
  written : ∀ k, conn.writes k = true

theorem receiveStream_eq (undisturbed : Undisturbed limits jobsize conn) :
    limits.receiveDataFile jobsize true 0 conn =
      if (conn.linkFileRead (toInt32 (limits.maxJobSize * 1024))).1 = .success ∧
          (conn.linkFileRead (toInt32 (limits.maxJobSize * 1024))).2 ≠ [] then
        .accepted (conn.linkFileRead (toInt32 (limits.maxJobSize * 1024))).2
      else .rejected ackRetry := by
  have large : (0 < limits.maxJobSize && limits.maxJobSize * 1024 < jobsize : Bool) = false := by
    rcases undisturbed.fits with unlimited | small
    · simp [unlimited]
    · simp [small]
  unfold SizeLimits.receiveDataFile
  simp only [Nat.add_zero, if_true, large, undisturbed.space, Bool.false_and, Bool.not_false,
    Bool.not_true, Bool.and_false, Bool.false_eq_true, if_false, true_and, ne_eq, not_true_eq_false,
    false_and, or_false, List.length_eq_zero_iff]
  by_cases success : (conn.linkFileRead (toInt32 (limits.maxJobSize * 1024))).1 = .success <;>
    by_cases empty : (conn.linkFileRead (toInt32 (limits.maxJobSize * 1024))).2 = [] <;>
    simp [success, empty]

theorem ackRetry_ne_zero : ackRetry ≠ 0 := by decide

/-- A file that is rejected is treated right if it is too large, or broke off. -/
theorem storedWhole_rejected_iff {maxJobSize : Nat} :
    StoredWhole maxJobSize conn (.rejected ackRetry) ↔
      match conn.ending with
      | .closed => 0 < maxJobSize ∧ maxJobSize * 1024 < conn.bytes.length
      | .broken _ _ _ => True := by
  unfold StoredWhole
  rcases conn.ending with - | ⟨first, again, fails⟩
  · dsimp only
    split
    · next small => exact iff_of_false nofun (by omega)
    · next large => exact iff_of_true ⟨ackRetry, ackRetry_ne_zero, rfl⟩ (by omega)
  · exact iff_of_true nofun trivial

theorem storedWhole_accepted_iff {maxJobSize : Nat} :
    StoredWhole maxJobSize conn (.accepted stored) ↔
      match conn.ending with
      | .closed => (maxJobSize = 0 ∨ conn.bytes.length ≤ maxJobSize * 1024) ∧ stored = conn.bytes
      | .broken _ _ _ => False := by
  unfold StoredWhole
  rcases conn.ending with - | ⟨first, again, fails⟩
  · dsimp only
    split
    · next small => simp [small]
    · next large => exact iff_of_false (fun ⟨ack, _, same⟩ => nomatch same) fun both => large both.1
  · exact iff_of_false (fun never => never stored rfl) id

theorem toInt32_le_natCast (n : Nat) : toInt32 n ≤ n := by
  unfold toInt32
  rw [Int.bmod_def]
  split <;> omega

/-- The bound of a job that has one is not read as none by its sign. -/
theorem maxJobSize_pos {maxJobSize : Nat} (signed : toInt32 (maxJobSize * 1024) ≠ 0) : 0 < maxJobSize := by
  refine Nat.pos_of_ne_zero ?_
  rintro rfl
  exact signed (by decide)

section Cases

variable {maxJobSize : Nat}

theorem suits_unlimited (unlimited : toInt32 (maxJobSize * 1024) = 0)
    (written : ∀ k, conn.writes k = true) (given : conn.ending = .closed → conn.bytes ≠ []) :
    StoredWhole maxJobSize conn
        (if (conn.linkFileRead 0).1 = .success ∧ (conn.linkFileRead 0).2 ≠ [] then
          .accepted (conn.linkFileRead 0).2 else .rejected ackRetry) ↔ Suits maxJobSize conn := by
  have read := linkFileRead_unlimited written
  rcases ending : conn.ending with - | ⟨first, again, fails⟩
  · have stored : conn.linkFileRead 0 = (.success, conn.bytes) := by
      rw [read, ending]
      simp [Ending.read, given ending]
    have nonempty := given ending
    rw [stored, if_pos ⟨rfl, nonempty⟩, storedWhole_accepted_iff, Suits, ending, unlimited]
    simp
  · by_cases lost : conn.bytes = [] ∨ first ≠ .failed ∨ again ≠ .eof
    · have rejected : ¬((conn.linkFileRead 0).1 = .success ∧ (conn.linkFileRead 0).2 ≠ []) := by
        rw [read, ending]
        rcases first with - | - | -
        · exact absurd rfl fails
        · by_cases empty : conn.bytes = []
          · simp [Ending.read, empty]
          · have other : again ≠ .eof := by simpa [empty] using lost
            simp [Ending.read, empty, other]
        · simp [Ending.read]
      rw [if_neg rejected, storedWhole_rejected_iff, Suits, ending, unlimited]
      simpa using lost
    · obtain ⟨bytes, same⟩ := not_or.mp lost
      obtain ⟨rfl, rfl⟩ := not_or.mp same |>.imp not_not.mp not_not.mp
      have stored : conn.linkFileRead 0 = (.success, conn.bytes) := by
        rw [read, ending]
        simp [Ending.read, bytes]
      rw [stored, if_pos ⟨rfl, bytes⟩, storedWhole_accepted_iff, Suits, ending, unlimited]
      simpa using bytes

theorem suits_negative (negative : toInt32 (maxJobSize * 1024) < 0) :
    StoredWhole maxJobSize conn (.rejected ackRetry) ↔ Suits maxJobSize conn := by
  have positive := maxJobSize_pos (Int.ne_of_lt negative)
  rw [storedWhole_rejected_iff, Suits]
  rcases conn.ending with - | ⟨first, again, fails⟩
  · simp [negative, Int.ne_of_lt negative, positive]
  · simp [negative, Int.ne_of_lt negative]

theorem suits_some {limit : Nat} (limited : toInt32 (maxJobSize * 1024) = limit) (some_ : 0 < limit) :
    Suits maxJobSize conn ↔
      match conn.ending with
      | .closed => conn.bytes.length = limit ∨
          (maxJobSize * 1024 < conn.bytes.length ∧ conn.bytes[limit]? ≠ some 0)
      | .broken _ _ _ => conn.bytes[limit]? ≠ some 0 := by
  have nonzero : limit ≠ 0 := by omega
  have nonnegative : ¬ (limit : Int) < 0 := by omega
  rw [Suits, limited]
  rcases conn.ending with - | ⟨first, again, fails⟩ <;> simp [nonzero, nonnegative]

theorem suits_limited {limit : Nat} (limited : toInt32 (maxJobSize * 1024) = limit) (some_ : 0 < limit)
    (written : ∀ k, conn.writes k = true) :
    StoredWhole maxJobSize conn
        (if (conn.linkFileRead limit).1 = .success ∧ (conn.linkFileRead limit).2 ≠ [] then
          .accepted (conn.linkFileRead limit).2 else .rejected ackRetry) ↔ Suits maxJobSize conn := by
  obtain ⟨cut_short, whole⟩ := linkFileRead_limited written some_
  have bound : limit ≤ maxJobSize * 1024 := by
    have below := toInt32_le_natCast (maxJobSize * 1024)
    push_cast at below
    omega
  have positive : 0 < maxJobSize := by omega
  rw [suits_some limited some_]
  rcases Nat.lt_or_ge conn.bytes.length limit with short | enough
  · -- the limit is not reached, which the loop takes for an error
    have rejected : ¬((conn.linkFileRead limit).1 = .success ∧ (conn.linkFileRead limit).2 ≠ []) := by
      rw [cut_short short]
      exact nofun
    have missing : conn.bytes[limit]? = none := List.getElem?_eq_none (Nat.le_of_lt short)
    rw [if_neg rejected, storedWhole_rejected_iff, missing]
    rcases conn.ending with - | ⟨first, again, fails⟩
    · simp [positive, Nat.ne_of_lt short]
    · simp
  · have taken : conn.bytes.take limit ≠ [] := by
      rw [ne_eq, List.take_eq_nil_iff, not_or]
      refine ⟨by omega, fun empty => ?_⟩
      rw [empty, List.length_nil] at enough
      omega
    rw [whole enough]
    rcases behind : conn.bytes.drop limit with - | ⟨marker, rest⟩
    · -- the end of the connection stands for the marker
      have exact_ : conn.bytes.length = limit := by
        have := List.drop_eq_nil_iff.mp behind
        omega
      have missing : conn.bytes[limit]? = none := List.getElem?_eq_none (Nat.le_of_eq exact_)
      have all : conn.bytes.take limit = conn.bytes := List.take_of_length_le (Nat.le_of_eq exact_)
      rw [all] at taken ⊢
      rcases ending : conn.ending with - | ⟨first, again, fails⟩
      · rw [if_pos ⟨by rw [Connection.endMarker, ending]; rfl, taken⟩, storedWhole_accepted_iff,
          ending]
        simp [exact_, bound]
      · have rejected : ¬((conn.endMarker ⟨true, conn.bytes, [], 0⟩) = .success ∧ conn.bytes ≠ []) := by
          simp [Connection.endMarker, ending, Ending.read, fails]
        rw [if_neg rejected, storedWhole_rejected_iff, missing, ending]
        simp
    · -- the next byte stands for the marker
      have longer : limit < conn.bytes.length := by
        have := congrArg List.length behind
        rw [List.length_drop, List.length_cons] at this
        omega
      have next_byte : conn.bytes[limit]? = some marker := by
        rw [← List.head?_drop, behind, List.head?_cons]
      by_cases end_ : marker = 0
      · rw [if_pos ⟨by simp [Connection.endMarker, end_], taken⟩, storedWhole_accepted_iff, next_byte,
          end_]
        rcases conn.ending with - | ⟨first, again, fails⟩
        · have lost : conn.bytes.take limit ≠ conn.bytes := fun same => by
            have := congrArg List.length same
            rw [List.length_take] at this
            omega
          have too_long : conn.bytes.length ≠ limit := by omega
          simp [too_long, lost]
        · simp
      · have rejected : ¬((conn.endMarker ⟨true, conn.bytes.take limit, marker :: rest, 0⟩) = .success ∧
            conn.bytes.take limit ≠ []) := by
          simp [Connection.endMarker, end_]
        rw [if_neg rejected, storedWhole_rejected_iff, next_byte]
        rcases conn.ending with - | ⟨first, again, fails⟩
        · have too_long : conn.bytes.length ≠ limit := by omega
          simp [too_long, end_, positive]
        · simp [end_]

end Cases

/-- A file of unknown length is received as it should be exactly on the connections that suit the
limit. -/
theorem receiveStream_storedWhole_iff (undisturbed : Undisturbed limits jobsize conn)
    (given : conn.ending = .closed → conn.bytes ≠ []) :
    StoredWhole limits.maxJobSize conn (limits.receiveDataFile jobsize true 0 conn) ↔
      Suits limits.maxJobSize conn := by
  rw [receiveStream_eq undisturbed]
  rcases Int.lt_trichotomy (toInt32 (limits.maxJobSize * 1024)) 0 with negative | unlimited | positive
  · rw [linkFileRead_negative negative, if_neg fun both => both.2 rfl]
    exact suits_negative negative
  · rw [unlimited]
    exact suits_unlimited unlimited undisturbed.written given
  · obtain ⟨limit, limited⟩ := Int.eq_ofNat_of_zero_le (Int.le_of_lt positive)
    rw [limited]
    exact suits_limited limited (by omega) undisturbed.written

/-- The three bytes of a short file, sent on a connection that is closed behind them. -/
def shortFile : Connection := ⟨lit "abc", fun _ => 3, .closed, fun _ => true⟩

/-- The settings for a largest size of `maxJobSize` kilobytes, with space for everything. -/
def roomy (maxJobSize : Nat) : SizeLimits := ⟨maxJobSize, false, fun _ => true⟩

theorem roomy_undisturbed (maxJobSize : Nat) : Undisturbed (roomy maxJobSize) 0 shortFile where
  fits := .inr (Nat.zero_le _)
  space := rfl
  written _ := rfl

theorem shortFile_stored : (roomy 0).receiveDataFile 0 true 0 shortFile = .accepted (lit "abc") := by
  have unlimited : toInt32 ((roomy 0).maxJobSize * 1024) = 0 := by decide
  have suits : Suits (roomy 0).maxJobSize shortFile := by
    rw [Suits, unlimited]
    exact .inl rfl
  have stored := (receiveStream_storedWhole_iff (roomy_undisturbed 0) fun _ => nofun).mpr suits
  rw [StoredWhole] at stored
  exact stored

/-- Below a limit, the end of a short file is taken for an error. -/
theorem shortFile_rejected :
    ¬∀ (limits : SizeLimits) (jobsize : Nat) (conn : Connection), Undisturbed limits jobsize conn →
      (conn.ending = .closed → conn.bytes ≠ []) →
        StoredWhole limits.maxJobSize conn (limits.receiveDataFile jobsize true 0 conn) := by
  intro whole
  have stored := whole (roomy 1) 0 shortFile (roomy_undisturbed 1) fun _ => nofun
  have limited : toInt32 ((roomy 1).maxJobSize * 1024) = (1024 : Nat) := by decide
  rw [receiveStream_eq (roomy_undisturbed 1), limited] at stored
  have suits := (suits_limited limited (by decide) fun _ => rfl).mp stored
  rcases (suits_some limited (by decide)).mp suits with long | ⟨long, _⟩
  · exact absurd long (by decide)
  · exact absurd long (by decide)

end LPRng
