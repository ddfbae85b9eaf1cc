import LPRng.Bytes

/-!
# Messages of filters

`Write_outbuf_to_OF` and `Get_status_from_OF` read what a filter writes to its standard error into a buffer of their
caller, behind what stands there, and report each line when its end has been read. Every turn of their loops finds the
end of what stands in the buffer by its NUL. The turns of a call are those of one loop, as many as the reads and the
clock allow, and the next call goes on with the same buffer.
-/

namespace LPRng

namespace FilterMessages

/-- The loops: that which polls after writing, that which reads while it writes, and those that wait for the exit and for
the suspension of the filter. -/
inductive Mode where
  | poll
  | write
  | exit
  | suspend
  deriving DecidableEq, Repr

/-- Whether a NUL is put behind what was read. -/
def Mode.terminates : Mode → Bool
  | suspend => false
  | _ => true

def strlen (msg : Bytes) : Nat := (cstr msg).length

/-- A buffer with `s` put at a place in it. -/
def store (msg : Bytes) (place : Nat) (s : Bytes) : Bytes := msg.take place ++ s ++ msg.drop (place + s.length)

/-- The lines of the buffer are reported one by one, and what is behind each is moved to the front. -/
def reportLines : Nat → Bytes → List Bytes × Bytes
  | 0, msg => ([], msg)
  | turns + 1, msg =>
      if 10 ∈ cstr msg then
        let place := ((cstr msg).takeWhile (· ≠ 10)).length
        let msg := store msg place [0]
        let s := cstr (msg.drop (place + 1))
        let later := reportLines turns (store msg 0 (s ++ [0]))
        (cstr msg :: later.1, later.2)
      else ([], msg)

/-- The buffer, what the filter writes and nobody has read yet, and the messages. -/
structure State where
  msg : Bytes
  text : Bytes
  reported : List Bytes
  deriving DecidableEq

section

variable (msgmax : Nat)

/-- A full buffer is reported as it is. -/
def makeRoom (s : State) : State :=
  if msgmax ≤ strlen s.msg then { s with msg := store s.msg 0 [0], reported := s.reported ++ [cstr s.msg] } else s

/-- What one read gives, of which at most `k` bytes have been written. -/
def chunk (k : Nat) (s : State) : Bytes := s.text.take (min k (msgmax - strlen s.msg))

/-- The buffer with what was read. -/
def fill (mode : Mode) (k : Nat) (s : State) : Bytes :=
  store s.msg (strlen s.msg) (if mode.terminates then chunk msgmax k s ++ [0] else chunk msgmax k s)

/-- One turn of a loop, where `k` is 0 if there is nothing to read. Where the buffer has no NUL, the behaviour is
undefined. -/
def turn (mode : Mode) (k : Nat) (s : State) : Option State :=
  if 0 ∉ s.msg then none
  else
    let s := makeRoom msgmax s
    if chunk msgmax k s = [] then some s
    else if 0 ∉ fill msgmax mode k s then none
    else
      let found := reportLines (msgmax + 1) (fill msgmax mode k s)
      some ⟨found.2, s.text.drop (chunk msgmax k s).length, s.reported ++ found.1⟩

def run : List (Mode × Nat) → State → Option State
  | [], s => some s
  | (mode, k) :: turns, s => (turn msgmax mode k s).bind (run turns)

/-- A message as it stood in the text: with the end of its line, unless it is one that filled the buffer. -/
def close (m : Bytes) : Bytes := if m.length = msgmax then m else m ++ [10]

/-- The messages of a text and what is left of it: the lines, where one is broken only when the buffer is full. -/
structure Breakdown (text : Bytes) (messages : List Bytes) (left : Bytes) : Prop where
  whole : messages.flatMap (close msgmax) ++ left = text
  lines : ∀ m ∈ messages, 10 ∉ m ∧ m.length ≤ msgmax
  unfinished : 10 ∉ left ∧ left.length ≤ msgmax

/-- While the suspension is waited for, a NUL stands behind what is read. -/
def NulBehind (mode : Mode) (k : Nat) (s : State) : Prop :=
  mode = .suspend → chunk msgmax k (makeRoom msgmax s) ≠ [] →
    (makeRoom msgmax s).msg.getD (strlen (makeRoom msgmax s).msg + (chunk msgmax k (makeRoom msgmax s)).length) 0 = 0

/-- In every turn a NUL stands behind what is read. -/
def NulsBehind : List (Mode × Nat) → State → Prop
  | [], _ => True
  | (mode, k) :: turns, s => NulBehind msgmax mode k s ∧ ∀ t, turn msgmax mode k s = some t → NulsBehind turns t

end

variable {msgmax k : Nat} {mode : Mode} {s t : State} {msg p rest : Bytes}

/-! ## The buffer -/

theorem cstr_append_nul (clean : 0 ∉ p) (rest : Bytes) : cstr (p ++ 0 :: rest) = p := by
  rw [cstr, List.takeWhile_append_of_pos, List.takeWhile_cons_of_neg, List.append_nil]
  · decide
  · exact fun c member => decide_eq_true fun nul => clean (nul ▸ member)

theorem nul_not_mem_cstr (msg : Bytes) : 0 ∉ cstr msg := by
  intro member
  obtain ⟨u, t, -, front, inside, -⟩ := exists_front (· ≠ 0) msg
  have within : 0 ∈ u := front ▸ member
  exact absurd rfl (of_decide_eq_true (inside 0 within))

theorem exists_behind (terminated : 0 ∈ msg) : ∃ rest, msg = cstr msg ++ 0 :: rest := by
  obtain ⟨u, t, whole, front, -, ends⟩ := exists_front (· ≠ 0) msg
  have same : cstr msg = u := front
  rcases ends with rfl | ⟨c, rest, rfl, zero⟩
  · rw [List.append_nil] at whole
    rw [whole, ← same] at terminated
    exact absurd terminated (nul_not_mem_cstr msg)
  · have nul : c = 0 := by simpa using zero
    exact ⟨rest, by rw [same, whole, nul]⟩

theorem store_front (p s rest : Bytes) : store (p ++ rest) p.length s = p ++ s ++ rest.drop s.length := by
  rw [store, List.take_left, ← List.drop_drop, List.drop_left]

/-- The lines that are reported and what is left make up what stood in the buffer. -/
theorem reportLines_spec (turns : Nat) (clean : 0 ∉ p) (rest : Bytes) (enough : p.length ≤ turns) :
    ∃ lines q behind, reportLines turns (p ++ 0 :: rest) = (lines, q ++ 0 :: behind) ∧
      (q ++ 0 :: behind).length = (p ++ 0 :: rest).length ∧ p = lines.flatMap (· ++ [10]) ++ q ∧ 0 ∉ q ∧ 10 ∉ q ∧
        ∀ m ∈ lines, 10 ∉ m := by
  induction turns generalizing p rest with
  | zero =>
      have empty : p = [] := List.eq_nil_of_length_eq_zero (Nat.le_zero.mp enough)
      subst empty
      exact ⟨[], [], rest, rfl, rfl, rfl, nofun, nofun, fun _ => nofun⟩
  | succ turns ih =>
      rw [reportLines, cstr_append_nul clean]
      by_cases newline : 10 ∈ p
      · obtain ⟨a, u, rfl, front, inside, ends⟩ := exists_front (· ≠ 10) p
        have none_ : (10 : UInt8) ∉ a := fun member => by simpa using inside 10 member
        rcases ends with rfl | ⟨c, b, rfl, isNewline⟩
        · rw [List.append_nil] at newline
          exact absurd newline none_
        · have same : c = 10 := by simpa using isNewline
          subst same
          have cleanA : (0 : UInt8) ∉ a := fun member => clean (List.mem_append_left _ member)
          have cleanB : (0 : UInt8) ∉ b := fun member =>
            clean (List.mem_append_right _ (List.mem_cons_of_mem _ member))
          have cut : store ((a ++ 10 :: b) ++ 0 :: rest) a.length [0] = a ++ 0 :: (b ++ 0 :: rest) := by
            rw [List.append_assoc, store_front, List.append_assoc]
            rfl
          have behind : (a ++ 0 :: (b ++ 0 :: rest)).drop (a.length + 1) = b ++ 0 :: rest := by
            rw [← List.drop_drop, List.drop_left]
            rfl
          have moved : store (a ++ 0 :: (b ++ 0 :: rest)) 0 (b ++ [0]) =
              b ++ 0 :: (a ++ 0 :: (b ++ 0 :: rest)).drop (b ++ [0]).length := by
            rw [store, Nat.zero_add, List.take_zero, List.nil_append, List.append_assoc]
            rfl
          have few : b.length ≤ turns := by
            rw [List.length_append, List.length_cons] at enough
            omega
          obtain ⟨lines, q, tail, found, long, whole, cleanQ, open_, each⟩ :=
            ih cleanB ((a ++ 0 :: (b ++ 0 :: rest)).drop (b ++ [0]).length) few
          rw [if_pos newline, front]
          dsimp only
          rw [cut, cstr_append_nul cleanA, behind, cstr_append_nul cleanB, moved, found]
          refine ⟨a :: lines, q, tail, rfl, ?_, ?_, cleanQ, open_, List.forall_mem_cons.mpr ⟨none_, each⟩⟩
          · rw [long]
            simp only [List.length_append, List.length_cons, List.length_drop, List.length_nil]
            omega
          · rw [List.flatMap_cons, List.append_assoc, ← whole, List.append_assoc]
            rfl
      · rw [if_neg newline]
        exact ⟨[], p, rest, rfl, rfl, rfl, clean, newline, fun _ => nofun⟩

/-! ## One turn -/

/-- What has been read so far, as the messages and the buffer tell. -/
def stream (msgmax : Nat) (s : State) : Bytes := s.reported.flatMap (close msgmax) ++ cstr s.msg

/-- The buffer ends in memory of its own, has no whole line in it, and the messages fitted into it. -/
structure Sound (msgmax : Nat) (s : State) : Prop where
  long : s.msg.length = msgmax + 1
  terminated : 0 ∈ s.msg
  unfinished : 10 ∉ cstr s.msg
  lines : ∀ m ∈ s.reported, 10 ∉ m ∧ m.length ≤ msgmax

namespace Sound

theorem strlen_le (sound : Sound msgmax s) : strlen s.msg ≤ msgmax := by
  obtain ⟨rest, whole⟩ := exists_behind sound.terminated
  have long := sound.long
  rw [whole, List.length_append, List.length_cons] at long
  exact Nat.le_of_lt_succ (by unfold strlen; omega)

/-- Room is made without losing a byte. -/
theorem makeRoom (sound : Sound msgmax s) : Sound msgmax (makeRoom msgmax s) ∧
    stream msgmax (FilterMessages.makeRoom msgmax s) = stream msgmax s ∧
      (FilterMessages.makeRoom msgmax s).text = s.text := by
  unfold FilterMessages.makeRoom
  split
  · rename_i full
    have exact_ : (cstr s.msg).length = msgmax := le_antisymm sound.strlen_le full
    have shape : store s.msg 0 [0] = 0 :: s.msg.drop 1 := rfl
    have empty : cstr (0 :: s.msg.drop 1) = [] := cstr_append_nul List.not_mem_nil _
    refine ⟨⟨?_, ?_, ?_, ?_⟩, ?_, rfl⟩
    · show (store s.msg 0 [0]).length = msgmax + 1
      rw [shape, List.length_cons, List.length_drop, sound.long]
      omega
    · exact shape ▸ List.mem_cons_self
    · show 10 ∉ cstr (store s.msg 0 [0])
      rw [shape, empty]
      exact List.not_mem_nil
    · exact List.forall_mem_append.mpr ⟨sound.lines, List.forall_mem_singleton.mpr
        ⟨sound.unfinished, exact_.le⟩⟩
    · show (s.reported ++ [cstr s.msg]).flatMap (close msgmax) ++ cstr (store s.msg 0 [0]) = _
      rw [shape, empty, List.append_nil, List.flatMap_append, List.flatMap_cons, List.flatMap_nil, List.append_nil,
        close, if_pos exact_]
      rfl
  · exact ⟨sound, rfl, rfl⟩

/-- The lines in the buffer are reported without losing a byte. -/
theorem reported (sound : Sound msgmax s) {filled : Bytes} (terminated : 0 ∈ filled) (long : filled.length = msgmax + 1)
    {added : Bytes} (content : cstr filled = cstr s.msg ++ added) (text : Bytes) :
    let found := reportLines (msgmax + 1) filled
    Sound msgmax ⟨found.2, text, s.reported ++ found.1⟩ ∧
      stream msgmax ⟨found.2, text, s.reported ++ found.1⟩ = stream msgmax s ++ added := by
  obtain ⟨rest, whole⟩ := exists_behind terminated
  have clean := nul_not_mem_cstr filled
  have short : (cstr filled).length ≤ msgmax := by
    rw [whole, List.length_append, List.length_cons] at long
    omega
  obtain ⟨lines, q, behind, found, same, parts, cleanQ, unfinished, each⟩ :=
    reportLines_spec (msgmax + 1) clean rest (short.trans (Nat.le_succ _))
  rw [← whole] at found same
  have bounds : ∀ m ∈ lines, m.length < msgmax := by
    intro m member
    obtain ⟨front, back, rfl⟩ := List.append_of_mem member
    rw [parts] at short
    simp only [List.flatMap_append, List.flatMap_cons, List.length_append, List.length_cons] at short
    omega
  have closed : lines.flatMap (close msgmax) = lines.flatMap (· ++ [10]) :=
    List.flatMap_congr fun m member => if_neg (bounds m member).ne
  rw [found]
  refine ⟨⟨same.trans long, List.mem_append_right _ List.mem_cons_self, ?_, ?_⟩, ?_⟩
  · show 10 ∉ cstr (q ++ 0 :: behind)
    rwa [cstr_append_nul cleanQ]
  · exact List.forall_mem_append.mpr ⟨sound.lines, fun m member => ⟨each m member, (bounds m member).le⟩⟩
  · show (s.reported ++ lines).flatMap (close msgmax) ++ cstr (q ++ 0 :: behind) = _
    rw [cstr_append_nul cleanQ, List.flatMap_append, closed, List.append_assoc, ← parts, content, stream,
      List.append_assoc]

end Sound

/-- The buffer with what was read: behind it the NUL that was put there, or what stood there. -/
theorem fill_eq (sound : Sound msgmax s) (mode : Mode) (k : Nat) : ∃ behind,
    fill msgmax mode k s = cstr s.msg ++ chunk msgmax k s ++ behind ∧ behind ≠ [] ∧
      (fill msgmax mode k s).length = msgmax + 1 ∧
        (behind.head? = some 0 ↔ (mode = .suspend → s.msg.getD (strlen s.msg + (chunk msgmax k s).length) 0 = 0)) := by
  obtain ⟨rest, whole⟩ := exists_behind sound.terminated
  have long := sound.long
  have fits : strlen s.msg + (chunk msgmax k s).length ≤ msgmax := by
    have few : (chunk msgmax k s).length ≤ msgmax - strlen s.msg :=
      (List.length_take_le _ _).trans (Nat.min_le_right _ _)
    have most := sound.strlen_le
    omega
  have front : s.msg.take (strlen s.msg) = cstr s.msg :=
    (congrArg (List.take (strlen s.msg)) whole).trans List.take_left
  unfold fill store
  rw [front]
  cases stops : mode.terminates with
  | true =>
      have other : mode ≠ .suspend := by
        rintro rfl
        cases stops
      refine ⟨0 :: s.msg.drop (strlen s.msg + ((chunk msgmax k s).length + 1)), ?_, List.cons_ne_nil _ _, ?_, ?_⟩
      · rw [if_pos rfl, List.length_append, List.length_singleton, ← List.append_assoc, List.append_assoc _ [0]]
        rfl
      · rw [if_pos rfl]
        simp only [List.length_append, List.length_drop, List.length_singleton, long]
        change strlen s.msg + _ + _ = _
        omega
      · exact ⟨fun _ same => absurd same other, fun _ => rfl⟩
  | false =>
      have last : mode = .suspend := by
        cases mode <;> first | rfl | cases stops
      have inside : strlen s.msg + (chunk msgmax k s).length < s.msg.length := by omega
      refine ⟨s.msg.drop (strlen s.msg + (chunk msgmax k s).length), by rw [if_neg Bool.false_ne_true], ?_, ?_, ?_⟩
      · exact fun empty => absurd (List.drop_eq_nil_iff.mp empty) (by omega)
      · rw [if_neg Bool.false_ne_true]
        simp only [List.length_append, List.length_drop, long]
        change strlen s.msg + _ + _ = _
        omega
      · rw [List.head?_drop, List.getD_eq_getElem?_getD, List.getElem?_eq_getElem inside, Option.getD_some,
          Option.some_inj]
        exact ⟨fun zero _ => zero, fun zero => zero last⟩

/-- What one turn does. Exactly if a NUL stands behind what is read, nothing else gets into the stream. -/
theorem turn_spec (sound : Sound msgmax s) (plain : 0 ∉ s.text) (mode : Mode) (k : Nat) :
    (turn msgmax mode k s = none ∧ ¬ NulBehind msgmax mode k s) ∨ ∃ t read stale,
      turn msgmax mode k s = some t ∧ Sound msgmax t ∧ s.text = read ++ t.text ∧
        stream msgmax t = stream msgmax s ++ read ++ stale ∧ (stale = [] ↔ NulBehind msgmax mode k s) := by
  obtain ⟨room, same, text⟩ := sound.makeRoom
  unfold turn NulBehind
  rw [if_neg (not_not.mpr sound.terminated)]
  revert room same text
  generalize FilterMessages.makeRoom msgmax s = r
  intro room same text
  dsimp only
  by_cases nothing : chunk msgmax k r = []
  · rw [if_pos nothing]
    refine .inr ⟨r, [], [], rfl, room, text.symm, ?_, ?_⟩
    · rw [same, List.append_nil, List.append_nil]
    · exact ⟨fun _ _ given => absurd nothing given, fun _ => rfl⟩
  · rw [if_neg nothing]
    obtain ⟨behind, shape, given, long, nul⟩ := fill_eq room mode k
    have cleanRead : 0 ∉ chunk msgmax k r := fun member => plain (text ▸ List.mem_of_mem_take member)
    have cleanFront : 0 ∉ cstr r.msg ++ chunk msgmax k r := fun member =>
      (List.mem_append.mp member).elim (nul_not_mem_cstr r.msg) cleanRead
    have condition : (mode = .suspend → chunk msgmax k r ≠ [] →
        r.msg.getD (strlen r.msg + (chunk msgmax k r).length) 0 = 0) ↔ behind.head? = some 0 :=
      ⟨fun zero => nul.mpr fun last => zero last nothing, fun zero last _ => nul.mp zero last⟩
    rw [condition]
    by_cases terminated : 0 ∈ fill msgmax mode k r
    · obtain ⟨stale, content, none_⟩ : ∃ stale, cstr (fill msgmax mode k r) =
          cstr r.msg ++ (chunk msgmax k r ++ stale) ∧ (stale = [] ↔ behind.head? = some 0) := by
        refine ⟨cstr behind, ?_, ?_⟩
        · rw [shape, ← List.append_assoc]
          exact List.takeWhile_append_of_pos fun c member => decide_eq_true fun zero => cleanFront (zero ▸ member)
        · rcases behind with - | ⟨c, behind⟩
          · exact absurd rfl given
          · by_cases zero : c = 0
            · exact ⟨fun _ => congrArg some zero, fun _ => zero ▸ cstr_append_nul List.not_mem_nil behind⟩
            · have kept : cstr (c :: behind) = c :: cstr behind :=
                List.takeWhile_cons_of_pos (decide_eq_true zero)
              rw [kept]
              exact ⟨fun empty => absurd empty (List.cons_ne_nil _ _), fun first => absurd (Option.some.inj first) zero⟩
      rw [if_neg (not_not.mpr terminated)]
      obtain ⟨later, whole⟩ := room.reported terminated long content (r.text.drop (chunk msgmax k r).length)
      refine .inr ⟨_, chunk msgmax k r, stale, rfl, later, ?_, ?_, none_⟩
      · rw [← text]
        exact (List.prefix_iff_eq_append.mp (List.take_prefix _ _)).symm
      · rw [whole, same, List.append_assoc]
    · rw [if_pos terminated]
      refine .inl ⟨rfl, fun zero => terminated ?_⟩
      rw [shape]
      rcases behind with - | ⟨c, behind⟩
      · exact absurd rfl given
      · rw [Option.some.inj zero]
        exact List.mem_append_right _ List.mem_cons_self

/-! ## Runs -/

/-- A run loses nothing that was read, and exactly if a NUL always stands behind what is read, it adds nothing. -/
theorem run_spec (turns : List (Mode × Nat)) (sound : Sound msgmax s) (plain : 0 ∉ s.text) :
    (run msgmax turns s = none ∧ ¬ NulsBehind msgmax turns s) ∨ ∃ t read,
      run msgmax turns s = some t ∧ Sound msgmax t ∧ s.text = read ++ t.text ∧
        (stream msgmax s).length + read.length ≤ (stream msgmax t).length ∧
          (NulsBehind msgmax turns s → stream msgmax t = stream msgmax s ++ read) ∧
            ((stream msgmax t).length = (stream msgmax s).length + read.length → NulsBehind msgmax turns s) := by
  induction turns generalizing s with
  | nil =>
      exact .inr ⟨s, [], rfl, sound, rfl, le_rfl, fun _ => (List.append_nil _).symm, fun _ => trivial⟩
  | cons first turns ih =>
      obtain ⟨mode, k⟩ := first
      rcases turn_spec sound plain mode k with ⟨undefined, stale⟩ | ⟨r, read, stale, done, soundR, text, whole, exact_⟩
      · exact .inl ⟨by rw [run, undefined]; rfl, fun all => stale all.1⟩
      · have plainR : 0 ∉ r.text := fun member => plain (text ▸ List.mem_append_right _ member)
        have ran : run msgmax ((mode, k) :: turns) s = run msgmax turns r := by
          rw [run, done]
          rfl
        have all : NulsBehind msgmax ((mode, k) :: turns) s ↔ stale = [] ∧ NulsBehind msgmax turns r := by
          refine ⟨fun all => ⟨exact_.mpr all.1, all.2 r done⟩, fun both => ⟨exact_.mp both.1, fun t same => ?_⟩⟩
          rw [done] at same
          exact Option.some.inj same ▸ both.2
        have measure_ : (stream msgmax r).length = (stream msgmax s).length + read.length + stale.length := by
          rw [whole, List.length_append, List.length_append]
        rw [ran, all]
        rcases ih soundR plainR with ⟨undefined, stale_⟩ | ⟨t, later, rest, soundT, textT, least, same, exactT⟩
        · exact .inl ⟨undefined, fun both => stale_ both.2⟩
        · refine .inr ⟨t, read ++ later, rest, soundT, ?_, ?_, ?_, ?_⟩
          · rw [text, textT, List.append_assoc]
          · rw [List.length_append]
            omega
          · rintro ⟨none_, behind⟩
            rw [same behind, whole, none_, List.append_nil, List.append_assoc]
          · intro long
            rw [List.length_append] at long
            refine ⟨List.eq_nil_of_length_eq_zero (by omega), exactT (by omega)⟩

/-- Only while the suspension is waited for, something else can stand behind what is read. -/
theorem nulsBehind_of_terminating {turns : List (Mode × Nat)} (others : ∀ turn ∈ turns, turn.1 ≠ .suspend) (s : State) :
    NulsBehind msgmax turns s := by
  induction turns generalizing s with
  | nil => exact trivial
  | cons first turns ih =>
      obtain ⟨other, later⟩ := List.forall_mem_cons.mp others
      exact ⟨fun last => absurd last other, fun t _ => ih later t⟩

theorem close_append_ne {m rest last : Bytes} (short : last.length < msgmax) (clean : 10 ∉ last) :
    close msgmax m ++ rest ≠ last := by
  intro same
  unfold close at same
  split at same
  · rw [← same, List.length_append] at short
    omega
  · exact clean (same ▸ List.mem_append_left _ (List.mem_append_right _ List.mem_cons_self))

/-- The first message is known from the text. -/
theorem close_append_inj {m n a b : Bytes} (cleanN : 10 ∉ n) (leN : n.length ≤ msgmax) (le : m.length ≤ n.length)
    (same : close msgmax m ++ a = close msgmax n ++ b) : m = n ∧ a = b := by
  have equal : m.length = n.length := by
    refine le_antisymm le (not_lt.mp fun less => ?_)
    have partial_ : ¬ m.length = msgmax := by omega
    rw [close, if_neg partial_] at same
    have here : (close msgmax n ++ b)[m.length]? = some 10 := by
      rw [← same, List.append_assoc, List.getElem?_append_right le_rfl, Nat.sub_self]
      rfl
    have inside : (close msgmax n ++ b)[m.length]? = n[m.length]? := by
      unfold close
      split
      · rw [List.getElem?_append_left less]
      · rw [List.append_assoc, List.getElem?_append_left less]
    exact cleanN (List.mem_of_getElem? (inside.symm.trans here))
  by_cases full : m.length = msgmax
  · rw [close, if_pos full, close, if_pos (equal ▸ full)] at same
    exact List.append_inj same equal
  · rw [close, if_neg full, close, if_neg (equal ▸ full), List.append_assoc, List.append_assoc] at same
    obtain ⟨heads, tails⟩ := List.append_inj same equal
    exact ⟨heads, List.tail_eq_of_cons_eq tails⟩

/-- A text breaks down in one way, but for a piece that fills the buffer at its end. -/
theorem Breakdown.unique {text left left' : Bytes} {messages messages' : List Bytes}
    (one : Breakdown msgmax text messages left) (other : Breakdown msgmax text messages' left')
    (room : left.length < msgmax) (room' : left'.length < msgmax) : messages = messages' ∧ left = left' := by
  obtain ⟨whole, lines, unfinished⟩ := one
  obtain ⟨whole', lines', unfinished'⟩ := other
  rw [← whole'] at whole
  clear whole'
  induction messages generalizing messages' with
  | nil =>
      cases messages' with
      | nil => exact ⟨rfl, whole⟩
      | cons n messages' =>
          rw [List.flatMap_cons, List.append_assoc] at whole
          exact absurd whole.symm (close_append_ne room unfinished.1)
  | cons m messages ih =>
      cases messages' with
      | nil =>
          rw [List.flatMap_cons, List.append_assoc] at whole
          exact absurd whole (close_append_ne room' unfinished'.1)
      | cons n messages' =>
          obtain ⟨first, later⟩ := List.forall_mem_cons.mp lines
          obtain ⟨first', later'⟩ := List.forall_mem_cons.mp lines'
          rw [List.flatMap_cons, List.append_assoc, List.flatMap_cons, List.append_assoc] at whole
          obtain ⟨rfl, rest⟩ : m = n ∧ messages.flatMap (close msgmax) ++ left =
              messages'.flatMap (close msgmax) ++ left' := by
            rcases le_total m.length n.length with le | ge
            · exact close_append_inj first'.1 first'.2 le whole
            · exact (close_append_inj first.1 first.2 ge whole.symm).imp Eq.symm Eq.symm
          obtain ⟨rfl, same⟩ := ih rest later later'
          exact ⟨rfl, same⟩

/-- The messages are those of what stood in the buffer and was read, and what is left of it stays in the buffer, exactly
if in each turn of the wait for the suspension a NUL stands behind what is read. -/
theorem reports_lines_iff (long : msg.length = msgmax + 1) (terminated : 0 ∈ msg) (unfinished : 10 ∉ cstr msg)
    {text : Bytes} (plain : 0 ∉ text) (turns : List (Mode × Nat)) :
    (∃ t read, run msgmax turns ⟨msg, text, []⟩ = some t ∧ text = read ++ t.text ∧
      Breakdown msgmax (cstr msg ++ read) t.reported (cstr t.msg)) ↔ NulsBehind msgmax turns ⟨msg, text, []⟩ := by
  have sound : Sound msgmax ⟨msg, text, []⟩ := ⟨long, terminated, unfinished, fun _ => nofun⟩
  rcases run_spec turns sound plain with ⟨undefined, stale⟩ | ⟨t, read, ran, soundT, parts, -, same, exact_⟩
  · rw [undefined]
    exact ⟨fun ⟨t, _, ran, _⟩ => (nomatch ran), fun all => absurd all stale⟩
  · constructor
    · rintro ⟨u, got, again, partsU, breakdown⟩
      obtain rfl : t = u := Option.some.inj (ran.symm.trans again)
      obtain rfl : got = read := List.append_cancel_right (partsU.symm.trans parts)
      exact exact_ ((congrArg List.length breakdown.whole).trans List.length_append)
    · intro all
      exact ⟨t, read, ran, parts, same all, soundT.lines, soundT.unfinished, soundT.strlen_le⟩

/-- `a` and a line feed, read while the suspension is waited for. -/
theorem reports_lines_suspended : ∃ t read, run 3 [(.suspend, 2)] ⟨[0, 0, 0, 0], [97, 10], []⟩ = some t ∧
    [97, 10] = read ++ t.text ∧ Breakdown 3 (cstr [0, 0, 0, 0] ++ read) t.reported (cstr t.msg) :=
  (reports_lines_iff rfl (by decide) (by decide) (by decide) _).mpr ⟨fun _ _ => rfl, fun _ _ => trivial⟩

/-- Of `abc`, a line feed and `x`, where the filter writes `x` later, `xbc` is left in a buffer that was all NUL. -/
theorem stale_bytes_left : ¬ ∀ (msgmax : Nat) (msg text : Bytes) (turns : List (Mode × Nat)),
    msg.length = msgmax + 1 → 0 ∈ msg → 10 ∉ cstr msg → 0 ∉ text →
      ∃ t read, run msgmax turns ⟨msg, text, []⟩ = some t ∧ text = read ++ t.text ∧
        Breakdown msgmax (cstr msg ++ read) t.reported (cstr t.msg) := by
  intro every
  obtain ⟨t, read, ran, parts, breakdown⟩ := every 7 (List.replicate 8 0) [97, 98, 99, 10, 120] [(.suspend, 4), (.suspend, 1)]
    (by decide) (by decide) (by decide) (by decide)
  have result : run 7 [(.suspend, 4), (.suspend, 1)] ⟨List.replicate 8 0, [97, 98, 99, 10, 120], []⟩ =
      some ⟨[120, 98, 99, 0, 0, 0, 0, 0], [], [[97, 98, 99]]⟩ := by decide
  obtain rfl := Option.some.inj (result.symm.trans ran)
  have all : read = [97, 98, 99, 10, 120] := (List.append_nil read).symm.trans parts.symm
  have whole := breakdown.whole
  rw [all] at whole
  exact absurd whole (by decide)

end FilterMessages

end LPRng
