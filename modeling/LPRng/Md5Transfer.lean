import LPRng.IncludeFiles

/-!
# MD5 authenticated transfers

`md5_send` answers the challenge of a server with a digest over the challenge, a key, the file and
the name of the key; `md5_receive` computes the same digest from its own key file and compares. The
two read the key in their own way, and the name travels in the line of the answer.
-/

namespace LPRng

namespace Md5

open IncludeFiles

/-! ## Digests and keys -/

def keyLength : Nat := 16

/-- The MD5 digest, of which only the length is known. -/
structure Digest where
  hash : Bytes → Bytes
  length : ∀ s, (hash s).length = keyLength

def hexDigit (n : UInt8) : UInt8 := if n < 10 then 48 + n else 87 + n

def hexByte (c : UInt8) : Bytes := [hexDigit (c / 16), hexDigit (c % 16)]

/-- `hexstr`, into a buffer that is large enough. -/
def hexstr (s : Bytes) : Bytes := s.flatMap hexByte

/-- The bytes of a challenge from their digits. -/
def decodeChallenge (line : Bytes) : Option Bytes :=
  let n := line.length
  if n = 0 ∨ n % 2 ≠ 0 ∨ n / 2 > keyLength then none
  else some <| (List.range keyLength).map fun i =>
    UInt8.ofInt (strtol 16 ((line.drop (2 * i)).take 2)).1

/-- A challenge, with the bytes of a key over it as often as they fit. -/
def xorKey (challenge key : Bytes) : Bytes :=
  (List.range keyLength).map fun i => challenge.getD i 0 ^^^ key.getD (i % key.length) 0

/-- A challenge, with the bytes of a name over it from the start again and again. -/
def xorName (challenge name : Bytes) : Bytes :=
  name.zipIdx.foldl (fun challenge c => challenge.modify (c.2 % keyLength) (· ^^^ c.1)) challenge

/-- The digest that answers a challenge. -/
def response (md5 : Digest) (challenge key file name : Bytes) : Bytes :=
  md5.hash (xorName (xorKey (xorKey challenge key) (md5.hash file)) name)

/-! ## Key files -/

def keyReading : IncludeFiles.Reading := ⟨true, optionValueSep, true, 1⟩

/-- The value of a name in a key file. -/
def keyValue (keyfile name : Bytes) : Option Bytes :=
  let keys := keyReading.readFileAndSplit [] keyfile
  match keys.findFirstKey name hashValueSep with
  | (.eq, mid) => some (LineList.fixVal ((keys.getD mid []).dropWhile (!hashValueSep.contains ·)))
  | _ => none

/-- `md5key`: the text in a buffer for `keysize` characters. A value that fills the buffer is not
ended there, and goes on with what lies `behind` it. -/
def md5key (keyfile name : Bytes) (keysize : Nat) (behind : Bytes) : Option Bytes :=
  match keyValue keyfile name with
  | none | some [] => none
  | some value =>
      some (if value.length < keysize then value else value.take keysize ++ cstr behind)

/-- The text behind the first white space. -/
def behindBlank (buffer : Bytes) : Option Bytes :=
  match buffer.dropWhile (!isWhite ·) with
  | [] => none
  | _ :: s => some (s.dropWhile isSpace)

/-! ## The client -/

/-- What the client is started with: its key file, the destination, the sender, and what lies behind
its buffer for the key. -/
structure Client where
  keyfile : Bytes
  destination : Bytes
  sender : Option Bytes
  behind : Bytes

/-- The name of the key and the key. -/
def Client.destkey (client : Client) : Option (Bytes × Bytes) := do
  let buffer ← md5key client.keyfile client.destination 512 client.behind
  match behindBlank buffer with
  | some [] => none
  | some s => some (buffer.takeWhile (!isWhite ·), s.take keyLength)
  | none => client.sender.map (·, buffer.take keyLength)

/-- The name as it is printed for the answer. -/
def printedName (name : Bytes) : Bytes := plpSnprintf 512 (fmtString name)

/-- The line of the answer. -/
def answerLine (printed hash : Bytes) : Bytes :=
  printed ++ plpSnprintf (512 - printed.length - 1) (32 :: hash) ++ [10]

/-- `Link_line_read`, with room for that many characters: the line, and what is left to be read. -/
def linkLineRead : Nat → Bytes → Option (Bytes × Bytes)
  | 0, _ => none
  | _ + 1, [] => none
  | room + 1, c :: s =>
      if c = 10 then some ([], s)
      else if c = 13 then linkLineRead (room + 1) s
      else (linkLineRead room s).map fun read => (c :: read.1, read.2)

/-- `md5_send`, up to the answer to a challenge. -/
def Client.md5Send (client : Client) (md5 : Digest) (challenge file : Bytes) : Option Bytes := do
  let (name, key) ← client.destkey
  let (line, _) ← linkLineRead 10239 challenge
  let challenge ← decodeChallenge line
  let printed := printedName name
  some (answerLine printed (hexstr (response md5 challenge key file printed)))

/-! ## The server -/

/-- The key file of the server, and what lies behind the part of its buffer the key is copied to. -/
structure Receiver where
  keyfile : Bytes
  behind : Bytes

def Receiver.destkey (server : Receiver) (name : Bytes) : Option Bytes := do
  let buffer ← md5key server.keyfile name keyLength server.behind
  some (((behindBlank buffer).getD buffer).take keyLength)

/-- `md5_receive`, from the answer on: the file that is processed. An empty key is a division
by zero. -/
def Receiver.md5Receive (server : Receiver) (md5 : Digest) (challenge answer file : Bytes) :
    Option Bytes := do
  let (input, _) ← linkLineRead 510 answer
  if input = [] ∨ input.length ≥ 510 then none
  else match input.dropWhile (· ≠ 32) with
    | [] => none
    | _ :: hash =>
        let dest := input.takeWhile (· ≠ 32)
        if hash.any isWhite ∨ hash.length = 0 ∨ hash.length % 2 ≠ 0 then none
        else
          let key ← server.destkey dest
          if key = [] then none
          else if hexstr (response md5 challenge key file dest) = hash then some file else none

/-- One transfer: the server sends its challenge, the client answers and sends the file. -/
def transfer (client : Client) (server : Receiver) (md5 : Digest) (challenge file : Bytes) :
    Option Bytes := do
  let answer ← client.md5Send md5 (hexstr challenge ++ [10]) file
  server.md5Receive md5 challenge answer file

/-! ## Digits -/

theorem hexByte_spec (c : UInt8) :
    UInt8.ofInt (strtol 16 (hexByte c)).1 = c ∧
      ∀ d ∈ hexByte c, d ≠ 10 ∧ d ≠ 13 ∧ d ≠ 32 ∧ isWhite d = false := by
  have table : ∀ c : UInt8, (UInt8.ofInt (strtol 16 (hexByte c)).1 = c &&
      (hexByte c).all fun d => d ≠ 10 && d ≠ 13 && d ≠ 32 && !isWhite d) = true :=
    forall_byte (by decide +kernel)
  simpa [and_assoc] using table c

theorem length_hexstr (s : Bytes) : (hexstr s).length = 2 * s.length := by
  induction s with
  | nil => rfl
  | cons c s ih =>
      rw [hexstr, List.flatMap_cons, List.length_append, ← hexstr, ih, List.length_cons]
      change 2 + _ = _
      omega

theorem hexstr_clean {s : Bytes} {d : UInt8} (member : d ∈ hexstr s) :
    d ≠ 10 ∧ d ≠ 13 ∧ d ≠ 32 ∧ isWhite d = false := by
  obtain ⟨c, -, inside⟩ := List.mem_flatMap.mp member
  exact (hexByte_spec c).2 d inside

theorem hexstr_pair {s : Bytes} {i : Nat} (below : i < s.length) :
    ((hexstr s).drop (2 * i)).take 2 = hexByte (s.getD i 0) := by
  induction s generalizing i with
  | nil => exact absurd below (Nat.not_lt_zero i)
  | cons c s ih =>
      rw [hexstr, List.flatMap_cons, ← hexstr]
      rcases i with - | i
      · exact List.take_left' rfl
      · have twice : 2 * (i + 1) = (hexByte c).length + 2 * i := by
          change _ = 2 + _
          omega
        rw [twice, List.drop_length_add_append, ih (Nat.lt_of_succ_lt_succ below), List.getD_cons_succ]

/-- The challenge arrives. -/
theorem decodeChallenge_hexstr {challenge : Bytes} (length : challenge.length = keyLength) :
    decodeChallenge (hexstr challenge) = some challenge := by
  have digits : (hexstr challenge).length = 32 := by
    rw [length_hexstr, length]
    rfl
  unfold decodeChallenge
  dsimp only
  rw [digits, if_neg (by decide)]
  refine congrArg some (List.ext_getElem ?_ fun i below within => ?_)
  · rw [List.length_map, List.length_range, length]
  · rw [List.getElem_map, List.getElem_range, hexstr_pair within, (hexByte_spec _).1,
      List.getD_eq_getElem?_getD, List.getElem?_eq_getElem within, Option.getD_some]

/-- Digits stand for one text. -/
theorem hexstr_injective {s t : Bytes} (length : s.length = keyLength) (length' : t.length = keyLength)
    (same : hexstr s = hexstr t) : s = t := by
  have decoded := decodeChallenge_hexstr length
  rw [same, decodeChallenge_hexstr length'] at decoded
  exact (Option.some.inj decoded).symm

/-! ## The line of the answer -/

section Line

variable {s rest : Bytes} {room : Nat}

theorem linkLineRead_line (clean : ∀ c ∈ s, c ≠ 10 ∧ c ≠ 13) (short : s.length < room) :
    linkLineRead room (s ++ 10 :: rest) = some (s, rest) := by
  induction s generalizing room with
  | nil =>
      obtain ⟨room, rfl⟩ := Nat.exists_eq_add_one_of_ne_zero (Nat.ne_of_gt short)
      rfl
  | cons c s ih =>
      obtain ⟨room, rfl⟩ := Nat.exists_eq_add_one_of_ne_zero (Nat.ne_of_gt (Nat.zero_lt_of_lt short))
      obtain ⟨notEnd, notReturn⟩ := clean c List.mem_cons_self
      rw [List.cons_append, linkLineRead, if_neg notEnd, if_neg notReturn,
        ih (fun d member => clean d (List.mem_cons_of_mem c member)) (Nat.lt_of_succ_lt_succ short)]
      rfl

theorem linkLineRead_long (clean : ∀ c ∈ s, c ≠ 10 ∧ c ≠ 13) (long : room ≤ s.length) :
    linkLineRead room (s ++ rest) = none := by
  induction s generalizing room with
  | nil =>
      rw [Nat.le_zero.mp long, linkLineRead]
  | cons c s ih =>
      rcases room with - | room
      · rw [linkLineRead]
      obtain ⟨notEnd, notReturn⟩ := clean c List.mem_cons_self
      rw [List.cons_append, linkLineRead, if_neg notEnd, if_neg notReturn,
        ih (fun d member => clean d (List.mem_cons_of_mem c member)) (Nat.le_of_succ_le_succ long)]
      rfl

end Line

/-! ## What the digest is taken of -/

theorem length_xorKey (challenge key : Bytes) : (xorKey challenge key).length = keyLength := by
  rw [xorKey, List.length_map, List.length_range]

theorem modify_xor_twice (challenge : Bytes) (i : Nat) (a : UInt8) :
    (challenge.modify i (· ^^^ a)).modify i (· ^^^ a) = challenge := by
  have twice : ((· ^^^ a) ∘ (· ^^^ a) : UInt8 → UInt8) = id := by
    funext c
    simp [UInt8.xor_assoc]
  rw [List.modify_modify_eq, twice, List.modify_id]

theorem length_xorName (challenge name : Bytes) : (xorName challenge name).length = challenge.length := by
  unfold xorName
  induction name.zipIdx generalizing challenge with
  | nil => rfl
  | cons c name ih => rw [List.foldl_cons, ih, List.length_modify]

theorem xorName_injective {challenge challenge' : Bytes} (name : Bytes)
    (same : xorName challenge name = xorName challenge' name) : challenge = challenge' := by
  unfold xorName at same
  generalize name.zipIdx = parts at same
  induction parts generalizing challenge challenge' with
  | nil => exact same
  | cons c parts ih =>
      have modified : challenge.modify (c.2 % keyLength) (· ^^^ c.1) = challenge'.modify _ _ := ih same
      rw [← modify_xor_twice challenge (c.2 % keyLength) c.1, modified, modify_xor_twice]

/-- Two keys that repeat to the same bytes. -/
def SameBytes (key key' : Bytes) : Prop :=
  ∀ i < keyLength, key.getD (i % key.length) 0 = key'.getD (i % key'.length) 0

theorem xorKey_eq_iff {challenge key key' : Bytes} :
    xorKey challenge key = xorKey challenge key' ↔ SameBytes key key' := by
  unfold xorKey SameBytes
  rw [List.map_inj_left]
  refine forall_congr' fun i => ?_
  rw [List.mem_range]
  refine imp_congr_right fun _ => ⟨fun same => ?_, fun same => by rw [same]⟩
  have cancelled := congrArg (challenge.getD i 0 ^^^ ·) same
  simpa [← UInt8.xor_assoc] using cancelled

theorem xorKey_injective {challenge challenge' key : Bytes} (length : challenge.length = keyLength)
    (length' : challenge'.length = keyLength) (same : xorKey challenge key = xorKey challenge' key) :
    challenge = challenge' := by
  unfold xorKey at same
  rw [List.map_inj_left] at same
  refine List.ext_getElem (length.trans length'.symm) fun i below below' => ?_
  have here := congrArg (· ^^^ key.getD (i % key.length) 0) (same i (List.mem_range.mpr (length ▸ below)))
  simpa [UInt8.xor_assoc, below, below'] using here

/-- A digest that tells texts of its length apart. -/
def plainDigest : Digest where
  hash s := (s ++ List.replicate keyLength 0).take keyLength
  length s := by
    rw [List.length_take, List.length_append, List.length_replicate]
    omega

theorem plainDigest_hash {s : Bytes} (length : s.length = keyLength) : plainDigest.hash s = s :=
  List.take_left' length

theorem plainDigest_response {challenge challenge' key key' file name : Bytes}
    (same : response plainDigest challenge key file name = response plainDigest challenge' key' file name) :
    xorKey challenge key = xorKey challenge' key' := by
  have length : ∀ challenge key : Bytes,
      (xorName (xorKey (xorKey challenge key) (plainDigest.hash file)) name).length = keyLength :=
    fun _ _ => (length_xorName ..).trans (length_xorKey ..)
  unfold response at same
  rw [plainDigest_hash (length _ _), plainDigest_hash (length _ _)] at same
  exact xorKey_injective (length_xorKey ..) (length_xorKey ..) (xorName_injective name same)

/-! ## The answer at the server -/

section Server

variable {server : Receiver} {md5 : Digest} {challenge file printed hash : Bytes}

/-- No white space that would end the name or the line. -/
structure Travels (printed : Bytes) : Prop where
  noBlank : 32 ∉ printed
  noEnd : 10 ∉ printed
  short : printed.length ≤ 476

theorem answerLine_short (short : printed.length ≤ 476) (digits : hash.length = 32) :
    answerLine printed hash = printed ++ 32 :: hash ++ [10] := by
  have whole : plpSnprintf (512 - printed.length - 1) (32 :: hash) = 32 :: hash := by
    refine List.take_of_length_le ?_
    rw [List.length_cons, digits]
    omega
  rw [answerLine, whole]

theorem answerLine_long (long : 477 ≤ printed.length) (digits : hash.length = 32) :
    ∃ text, answerLine printed hash = text ++ [10] ∧ 510 ≤ text.length ∧
      ∀ c ∈ text, c ∈ printed ∨ c = 32 ∨ c ∈ hash := by
  refine ⟨_, rfl, ?_, fun c member => ?_⟩
  · rw [List.length_append, plpSnprintf, List.length_take, List.length_cons, digits]
    omega
  · rcases List.mem_append.mp member with front | behind
    · exact .inl front
    · exact .inr (List.mem_cons.mp (List.mem_of_mem_take behind))

theorem answer_clean (noReturn : 13 ∉ printed) (noEnd : 10 ∉ printed)
    (digits : ∀ d ∈ hash, d ≠ 10 ∧ d ≠ 13) {c : UInt8}
    (among : c ∈ printed ∨ c = 32 ∨ c ∈ hash) : c ≠ 10 ∧ c ≠ 13 := by
  rcases among with front | rfl | behind
  · exact ⟨fun same => noEnd (same ▸ front), fun same => noReturn (same ▸ front)⟩
  · exact ⟨by decide, by decide⟩
  · exact digits c behind

/-- What it takes for the server to accept an answer. -/
theorem md5Receive_some {answer processed : Bytes}
    (accepted : server.md5Receive md5 challenge answer file = some processed) :
    ∃ input rest hash key, linkLineRead 510 answer = some (input, rest) ∧
      input.dropWhile (· ≠ 32) = 32 :: hash ∧ hash.any isWhite = false ∧
      server.destkey (input.takeWhile (· ≠ 32)) = some key ∧ key ≠ [] ∧
      hexstr (response md5 challenge key file (input.takeWhile (· ≠ 32))) = hash ∧
      processed = file := by
  unfold Receiver.md5Receive at accepted
  obtain ⟨⟨input, rest⟩, read, accepted⟩ := Option.bind_eq_some_iff.mp accepted
  dsimp only at accepted
  split at accepted
  · cases accepted
  split at accepted
  · cases accepted
  next c hash shape =>
  split at accepted
  · cases accepted
  next plain =>
  obtain ⟨key, found, accepted⟩ := Option.bind_eq_some_iff.mp accepted
  split at accepted
  · cases accepted
  next some_ =>
  split at accepted
  · next same =>
      have first : c = 32 := by
        have stopped := List.head?_dropWhile_not (fun d : UInt8 => decide (d ≠ 32)) input
        rw [shape] at stopped
        simpa using stopped
      refine ⟨input, rest, hash, key, read, first ▸ shape, ?_, found, some_, same,
        (Option.some.inj accepted).symm⟩
      exact Bool.eq_false_iff.mpr fun white => plain (.inl white)
  · cases accepted

theorem parts_of_name {dest rest : Bytes} (noBlank : 32 ∉ dest) :
    (dest ++ 32 :: rest).takeWhile (fun c => decide (c ≠ 32)) = dest ∧
      (dest ++ 32 :: rest).dropWhile (fun c => decide (c ≠ 32)) = 32 :: rest := by
  have inside : ∀ c ∈ dest, decide (c ≠ 32) = true := fun c member =>
    decide_eq_true fun same => noBlank (same ▸ member)
  rw [List.takeWhile_append_of_pos inside, List.dropWhile_append_of_pos inside]
  exact ⟨by simp, by simp⟩

/-- The line is read as it was sent. -/
theorem linkLineRead_answer (noReturn : 13 ∉ printed) (noEnd : 10 ∉ printed)
    (short : printed.length ≤ 476) (digits : hash.length = 32) (clean : ∀ d ∈ hash, d ≠ 10 ∧ d ≠ 13) :
    linkLineRead 510 (answerLine printed hash) = some (printed ++ 32 :: hash, []) := by
  rw [answerLine_short short digits]
  refine linkLineRead_line (fun c member => answer_clean noReturn noEnd clean ?_) ?_
  · exact (List.mem_append.mp member).imp_right List.mem_cons.mp
  · rw [List.length_append, List.length_cons, digits]
    omega

/-- A name that is too long keeps the line from being read. -/
theorem linkLineRead_tooLong (noReturn : 13 ∉ printed) (noEnd : 10 ∉ printed)
    (long : 477 ≤ printed.length) (digits : hash.length = 32) (clean : ∀ d ∈ hash, d ≠ 10 ∧ d ≠ 13) :
    linkLineRead 510 (answerLine printed hash) = none := by
  obtain ⟨text, line, length, among⟩ := answerLine_long long digits
  rw [line]
  exact linkLineRead_long (fun c member => answer_clean noReturn noEnd clean (among c member)) length

/-- The server accepts an answer that travels if its own key gives the same digest. -/
theorem md5Receive_travels (travels : Travels printed) (noReturn : 13 ∉ printed)
    (digits : hash.length = 32)
    (clean : ∀ d ∈ hash, d ≠ 10 ∧ d ≠ 13 ∧ d ≠ 32 ∧ isWhite d = false) {key : Bytes}
    (found : server.destkey printed = some key) (some_ : key ≠ [])
    (same : hexstr (response md5 challenge key file printed) = hash) :
    server.md5Receive md5 challenge (answerLine printed hash) file = some file := by
  obtain ⟨name, behind⟩ : (printed ++ 32 :: hash).takeWhile (fun c => decide (c ≠ 32)) = printed ∧
      (printed ++ 32 :: hash).dropWhile (fun c => decide (c ≠ 32)) = 32 :: hash :=
    parts_of_name travels.noBlank
  have plain : ¬(hash.any isWhite = true ∨ hash.length = 0 ∨ hash.length % 2 ≠ 0) := by
    rw [digits, List.any_eq_true]
    rintro (⟨d, member, white⟩ | odd)
    · exact absurd ((clean d member).2.2.2.symm.trans white) (by decide)
    · exact absurd odd (by decide)
  have fits : ¬(printed ++ 32 :: hash = [] ∨ (printed ++ 32 :: hash).length ≥ 510) := by
    have := travels.short
    simp [digits]
    omega
  unfold Receiver.md5Receive
  rw [linkLineRead_answer noReturn travels.noEnd travels.short digits fun d member =>
    ⟨(clean d member).1, (clean d member).2.1⟩]
  simp only [Option.bind_eq_bind, Option.bind_some, if_neg fits, behind, name, if_neg plain, found,
    if_neg some_, if_pos same]

end Server

/-! ## Transfers -/

/-- An entry of the server's key file stands for a key if, cut off and with the text up to its first
white space left out, it repeats to the same bytes. -/
def Stands (entry behind key : Bytes) : Prop :=
  let text := if entry.length < keyLength then entry else entry.take keyLength ++ cstr behind
  let key' := ((behindBlank text).getD text).take keyLength
  key' ≠ [] ∧ SameBytes key' key

/-- The server has an entry for the name as it is printed, and the entry stands for the key. -/
def ReadsKey (server : Receiver) (printed key : Bytes) : Prop :=
  ∃ entry, keyValue server.keyfile printed = some entry ∧ entry ≠ [] ∧ Stands entry server.behind key

variable {client : Client} {server : Receiver} {name key : Bytes}

theorem readsKey_iff {printed : Bytes} : ReadsKey server printed key ↔
    ∃ key', server.destkey printed = some key' ∧ key' ≠ [] ∧ SameBytes key' key := by
  unfold ReadsKey Receiver.destkey md5key
  rcases keyValue server.keyfile printed with - | (- | ⟨c, entry⟩)
  · simp
  · simp
  · simp [Stands]

theorem printedName_noReturn (name : Bytes) : 13 ∉ printedName name := by
  intro member
  rcases visible_of_mem_fmtString (List.mem_of_mem_take member) with visible | tab | newline
  · exact absurd visible (by decide)
  · exact absurd tab (by decide)
  · exact absurd newline (by decide)

theorem transfer_eq (known : client.destkey = some (name, key)) (md5 : Digest) {challenge : Bytes}
    (length : challenge.length = keyLength) (file : Bytes) :
    transfer client server md5 challenge file =
      server.md5Receive md5 challenge (answerLine (printedName name)
        (hexstr (response md5 challenge key file (printedName name)))) file := by
  have arrives : linkLineRead 10239 (hexstr challenge ++ [10]) = some (hexstr challenge, []) := by
    refine linkLineRead_line (fun c member => ?_) ?_
    · obtain ⟨notEnd, notReturn, -⟩ := hexstr_clean member
      exact ⟨notEnd, notReturn⟩
    · rw [length_hexstr, length]
      decide
  have sent : client.md5Send md5 (hexstr challenge ++ [10]) file =
      some (answerLine (printedName name)
        (hexstr (response md5 challenge key file (printedName name)))) := by
    unfold Client.md5Send
    rw [known, arrives]
    simp only [Option.bind_eq_bind, Option.bind_some, decodeChallenge_hexstr length]
  rw [transfer, sent]
  rfl

/-! ## When the server accepts -/

theorem length_response (md5 : Digest) (challenge key file printed : Bytes) :
    (hexstr (response md5 challenge key file printed)).length = 32 := by
  rw [length_hexstr, response, md5.length]
  rfl

theorem response_clean {md5 : Digest} {challenge key file printed : Bytes} :
    ∀ d ∈ hexstr (response md5 challenge key file printed), d ≠ 10 ∧ d ≠ 13 := by
  intro d member
  obtain ⟨notEnd, notReturn, -⟩ := hexstr_clean member
  exact ⟨notEnd, notReturn⟩

/-- Two digests that are written the same are answers to the same challenge. -/
theorem response_hexstr {challenge challenge' key key' file printed : Bytes}
    (same : hexstr (response plainDigest challenge key file printed) =
      hexstr (response plainDigest challenge' key' file printed)) :
    xorKey challenge key = xorKey challenge' key' :=
  plainDigest_response (hexstr_injective (plainDigest.length _) (plainDigest.length _) same)

section Accepted

variable {printed : Bytes} (noReturn : 13 ∉ printed)
  (accepted : ∀ challenge : Bytes, challenge.length = keyLength →
    server.md5Receive plainDigest challenge
      (answerLine printed (hexstr (response plainDigest challenge key [] printed))) [] = some [])

include noReturn accepted

/-- A line that ends in the name is the same for all challenges. -/
theorem noEnd_of_accepted : 10 ∉ printed := by
  intro member
  obtain ⟨front, rest, whole, noEnd⟩ := List.eq_append_cons_of_mem member
  have reads : ∀ challenge : Bytes, challenge.length = keyLength → ∃ key',
      server.destkey (front.takeWhile (· ≠ 32)) = some key' ∧
      32 :: hexstr (response plainDigest challenge key' [] (front.takeWhile (· ≠ 32))) =
        front.dropWhile (· ≠ 32) := by
    intro challenge length
    obtain ⟨input, rest', hash, key', read, shape, -, found, -, same, -⟩ :=
      md5Receive_some (accepted challenge length)
    have line : ∀ tail, printed ++ tail ++ [10] = front ++ 10 :: (rest ++ tail ++ [10]) := by
      intro tail
      rw [whole]
      simp
    have clean : ∀ c ∈ front, c ≠ 10 ∧ c ≠ 13 := fun c inside =>
      ⟨fun same => noEnd (same ▸ inside),
        fun same => noReturn (whole ▸ List.mem_append_left _ (same ▸ inside))⟩
    rw [answerLine, line] at read
    rcases Nat.lt_or_ge front.length 510 with short | long
    · rw [linkLineRead_line clean short] at read
      obtain rfl : front = input := congrArg Prod.fst (Option.some.inj read)
      exact ⟨key', found, by rw [same, shape]⟩
    · rw [linkLineRead_long clean long] at read
      cases read
  obtain ⟨key₁, found₁, first⟩ := reads (List.replicate keyLength 0) List.length_replicate
  obtain ⟨key₂, found₂, second⟩ := reads (List.replicate keyLength 1) List.length_replicate
  obtain rfl : key₁ = key₂ := Option.some.inj (found₁.symm.trans found₂)
  have same := response_hexstr (List.cons.inj (first.trans second.symm)).2
  have challenges := xorKey_injective List.length_replicate List.length_replicate same
  exact absurd challenges (by decide)

theorem short_of_accepted : printed.length ≤ 476 := by
  by_contra long
  have none := linkLineRead_tooLong noReturn (noEnd_of_accepted noReturn accepted)
    (Nat.lt_of_not_le long) (length_response plainDigest (List.replicate keyLength 0) key [] printed)
    response_clean
  obtain ⟨_, _, _, _, read, -⟩ := md5Receive_some (accepted _ List.length_replicate)
  cases none.symm.trans read

/-- What the server takes of the line. -/
theorem input_of_accepted (challenge : Bytes) (length : challenge.length = keyLength) :
    ∃ hash key', (printed ++ 32 :: hexstr (response plainDigest challenge key [] printed)).dropWhile
        (· ≠ 32) = 32 :: hash ∧
      hash.any isWhite = false ∧
      server.destkey ((printed ++ 32 :: hexstr (response plainDigest challenge key [] printed)).takeWhile
        (· ≠ 32)) = some key' ∧ key' ≠ [] ∧
      hexstr (response plainDigest challenge key' []
        ((printed ++ 32 :: hexstr (response plainDigest challenge key [] printed)).takeWhile
          (· ≠ 32))) = hash := by
  obtain ⟨input, rest, hash, key', read, shape, plain, found, some_, same, -⟩ :=
    md5Receive_some (accepted challenge length)
  rw [linkLineRead_answer noReturn (noEnd_of_accepted noReturn accepted)
    (short_of_accepted noReturn accepted) (length_response ..) response_clean] at read
  obtain rfl := congrArg Prod.fst (Option.some.inj read)
  exact ⟨hash, key', shape, plain, found, some_, same⟩

theorem noBlank_of_accepted : 32 ∉ printed := by
  intro member
  obtain ⟨front, rest, whole, noBlank⟩ := List.eq_append_cons_of_mem member
  obtain ⟨hash, _, shape, plain, -⟩ :=
    input_of_accepted noReturn accepted (List.replicate keyLength 0) List.length_replicate
  generalize hexstr _ = digits at shape
  rw [whole, List.append_assoc, List.cons_append, (parts_of_name noBlank).2] at shape
  obtain rfl := (List.cons.inj shape).2
  have white : (rest ++ 32 :: digits).any isWhite = true :=
    List.any_eq_true.mpr ⟨32, List.mem_append_right _ List.mem_cons_self, rfl⟩
  exact absurd (plain.symm.trans white) (by decide)

theorem readsKey_of_accepted : ReadsKey server printed key := by
  obtain ⟨hash, key', shape, -, found, some_, same⟩ :=
    input_of_accepted noReturn accepted (List.replicate keyLength 0) List.length_replicate
  have noBlank := noBlank_of_accepted noReturn accepted
  rw [(parts_of_name noBlank).1] at found same
  rw [(parts_of_name noBlank).2] at shape
  rw [← (List.cons.inj shape).2] at same
  exact readsKey_iff.mpr ⟨key', found, some_, xorKey_eq_iff.mp (response_hexstr same)⟩

end Accepted

/-- For a client with a key, the server accepts every transfer and goes on with the file exactly if
the name of the key is printed without blanks and line ends and is not too long for the line, and the
server's entry for it stands for the key. -/
theorem transfer_accepted_iff (known : client.destkey = some (name, key)) :
    (∀ (md5 : Digest) (challenge : Bytes), challenge.length = keyLength → ∀ file,
        transfer client server md5 challenge file = some file) ↔
      Travels (printedName name) ∧ ReadsKey server (printedName name) key := by
  have noReturn := printedName_noReturn name
  constructor
  · intro all
    have accepted : ∀ challenge : Bytes, challenge.length = keyLength →
        server.md5Receive plainDigest challenge (answerLine (printedName name)
          (hexstr (response plainDigest challenge key [] (printedName name)))) [] = some [] :=
      fun challenge length =>
        (transfer_eq known plainDigest length []).symm.trans (all plainDigest challenge length [])
    exact ⟨⟨noBlank_of_accepted noReturn accepted, noEnd_of_accepted noReturn accepted,
      short_of_accepted noReturn accepted⟩, readsKey_of_accepted noReturn accepted⟩
  · rintro ⟨travels, reads⟩ md5 challenge length file
    obtain ⟨key', found, some_, same⟩ := readsKey_iff.mp reads
    rw [transfer_eq known md5 length file]
    refine md5Receive_travels travels noReturn (length_response ..) (fun d => hexstr_clean) found some_ ?_
    rw [response, xorKey_eq_iff.mpr same, response]

/-- The client `joe`, for the destination `lp`. -/
def joe (key : Bytes) : Client := ⟨lit "lp=joe " ++ key ++ [10], lit "lp", none, []⟩

def joesServer (key : Bytes) : Receiver := ⟨lit "joe=" ++ key ++ [10], []⟩

theorem secret_accepted :
    transfer (joe (lit "secret")) (joesServer (lit "secret")) plainDigest (List.replicate keyLength 7)
      (lit "a job") = some (lit "a job") := by
  have known : (joe (lit "secret")).destkey = some (lit "joe", lit "secret") := by decide +kernel
  have travels : 32 ∉ printedName (lit "joe") ∧ 10 ∉ printedName (lit "joe") ∧
      (printedName (lit "joe")).length ≤ 476 := by decide
  have entry : keyValue (joesServer (lit "secret")).keyfile (printedName (lit "joe")) =
      some (lit "secret") := by decide +kernel
  have stands : Stands (lit "secret") [] (lit "secret") := ⟨by decide, fun _ _ => rfl⟩
  exact (transfer_accepted_iff known).mpr
    ⟨⟨travels.1, travels.2.1, travels.2.2⟩, lit "secret", entry, by decide, stands⟩
    plainDigest (List.replicate keyLength 7) List.length_replicate (lit "a job")

/-- With a blank in the key, the server takes the text up to it for a name. -/
theorem passPhrase_refused : ¬∀ (client : Client) (server : Receiver) (name key : Bytes),
    client.destkey = some (name, key) → keyValue server.keyfile name = some key →
    ∀ (md5 : Digest) (challenge : Bytes), challenge.length = keyLength → ∀ file,
      transfer client server md5 challenge file = some file := by
  intro accepts
  have known : (joe (lit "pass phrase")).destkey = some (lit "joe", lit "pass phrase") ∧
      keyValue (joesServer (lit "pass phrase")).keyfile (lit "joe") = some (lit "pass phrase") ∧
      transfer (joe (lit "pass phrase")) (joesServer (lit "pass phrase")) plainDigest
        (List.replicate keyLength 0) [] = none := by decide +kernel
  obtain ⟨known, same, refused⟩ := known
  have accepted := accepts _ _ _ _ known same plainDigest (List.replicate keyLength 0)
    List.length_replicate []
  cases refused.symm.trans accepted

end Md5

end LPRng
