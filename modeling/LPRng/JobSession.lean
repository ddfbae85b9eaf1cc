import LPRng.BlockReception

/-!
# The jobs of a session

`Receive_job` makes jobs of the files it receives one by one. A control file behind data files completes its job at once;
else it waits for its data files, up to the next control file or the end of the session. The files are kept in a table of
their names until the job they belong to is checked.
-/

namespace LPRng

namespace JobSession

open BlockReception

/-! ## What is received -/

/-- A file that was received, and the length that was announced for it. -/
structure Arrival where
  item : Item
  len : Nat

/-- The control file of a job, with the names of its data files. -/
structure Control where
  name : Bytes
  content : Bytes
  names : List Bytes

/-- A job that was stored, with the temporary files of its data files, in the order of their names. A job that is too large
is stored without files, and marked with an error. -/
structure Stored where
  control : Control
  opened : Option (List Bytes)

/-- The variables of `Receive_job`, and the jobs that it has stored. -/
structure Session where
  job : Option Control
  inProgress : Bool
  files : LineList
  jobsize : Nat
  discarding : Bool
  stored : List Stored

def Session.start : Session := ⟨none, false, [], 0, false, []⟩

/-- What a session comes to: the jobs that are stored, and whether the sender is told of an error. -/
structure Outcome where
  stored : List Stored
  error : Bool

section

variable (receiver : Receiver)

/-- The size of one more file. A job that is too large is discarded, or refused. -/
def addSize (σ : Session) (len : Nat) : Except Outcome Session :=
  let jobsize := σ.jobsize + len
  if 0 < receiver.limits.maxJobSize ∧ receiver.limits.maxJobSize * 1024 < jobsize then
    if receiver.limits.discardLargeJobs then .ok { σ with jobsize := jobsize, discarding := true }
    else .error ⟨σ.stored, true⟩
  else .ok { σ with jobsize := jobsize }

/-- The end of a job. One that is discarded gets a ticket with an error. -/
def finishJob (ending : BlockReception.Ending) (σ : Session) (control : Control) : Except Outcome Session :=
  let next (opened : Option (List Bytes)) : Session :=
    { σ with job := none, inProgress := false, files := [], jobsize := 0, discarding := false,
             stored := σ.stored ++ [⟨control, opened⟩] }
  if σ.discarding then if ending.writes then .ok (next none) else .error ⟨σ.stored, true⟩
  else
    match matchFiles σ.files control.names, ending.admits with
    | none, _ => .error ⟨σ.stored, true⟩
    | some _, .refused => .error ⟨σ.stored, true⟩
    | some _, .removed => .error ⟨σ.stored, false⟩
    | some opened, .stored => .ok (next (some opened))

/-- The names in a control file. -/
def fileNames (item : Item) : List Bytes :=
  let hpformat := (TransferName.checkFormat receiver.longNumber receiver.garbled .controlFile item.name .empty).1.findFlagValue
    .hpformat
  controlNames receiver.safe (hpformat ≠ 0) item.content

/-- What is known of a control file. Nothing is read of one that is discarded. -/
def controlOf (σ : Session) (item : Item) : Control :=
  ⟨item.name, item.content, if σ.discarding then [] else fileNames receiver item⟩

/-- The job of a new control file. -/
def newJob (turn : Turn) (σ : Session) (control : Control) : Except Outcome Session :=
  if turn.setUp then
    if σ.files = [] then .ok { σ with job := some control, inProgress := true }
    else finishJob turn.completes σ control
  else .error ⟨σ.stored, true⟩

/-- A control file. It ends the job whose control file waits. -/
def controlFile (turn : Turn) (σ : Session) (item : Item) : Except Outcome Session :=
  let control := controlOf receiver σ item
  if σ.inProgress then (finishJob turn.ends σ (σ.job.getD ⟨[], [], []⟩)).bind fun σ => newJob turn σ control
  else newJob turn σ control

/-- A data file. One that is discarded takes its name out of the table. -/
def dataFile (n : Nat) (σ : Session) (item : Item) : Session :=
  { σ with files := σ.files.setCasekeyStrValue item.name (if σ.discarding then none else some (receiver.temp n)) }

/-- What `Receive_job` does with file `n`, from its header line to the last answer. Whether it gets there without a refusal
is not only up to the file. -/
def takeFile (n : Nat) (σ : Session) (arrival : Arrival) : Except Outcome Session :=
  (addSize receiver σ arrival.len).bind fun σ =>
    if (receiver.turn n).copied then
      match arrival.item.type with
      | .control => controlFile receiver (receiver.turn n) σ arrival.item
      | .data => .ok (dataFile receiver n σ arrival.item)
    else .error ⟨σ.stored, true⟩

/-- The loop of `Receive_job`. -/
def takeFiles : Nat → Session → List Arrival → Except Outcome Session
  | _, σ, [] => .ok σ
  | n, σ, arrival :: arrivals => (takeFile receiver n σ arrival).bind fun σ => takeFiles (n + 1) σ arrivals

/-- The end of the files. A job without a control file has no ticket to write, which is fatal. -/
def endSession (σ : Session) : Option Outcome :=
  if σ.discarding then
    match σ.job with
    | none => some ⟨σ.stored, false⟩
    | some control => if receiver.last.writes then some ⟨σ.stored ++ [⟨control, none⟩], false⟩ else some ⟨σ.stored, true⟩
  else if σ.files = [] then some ⟨σ.stored, false⟩
  else
    match matchFiles σ.files ((σ.job.map Control.names).getD []), receiver.last.admits with
    | none, _ => some ⟨σ.stored, true⟩
    | some _, .refused => some ⟨σ.stored, true⟩
    | some _, .removed => some ⟨σ.stored, false⟩
    | some opened, .stored => σ.job.map fun control => ⟨σ.stored ++ [⟨control, some opened⟩], false⟩

/-- A session with the files that come until one is refused, or no more come. -/
def receiveFiles (arrivals : List Arrival) : Option Outcome :=
  match takeFiles receiver 0 .start arrivals with
  | .error outcome => some outcome
  | .ok σ => endSession receiver σ

end

/-! ## Tables of names -/

/-- A table of pairs, as `Set_casekey_str_value` makes it. -/
def table (pairs : List (Bytes × Bytes)) : LineList :=
  pairs.foldl (fun table pair => table.setCasekeyStrValue pair.1 (some pair.2)) []

/-- The last value of a name. -/
def LastOf (pairs : List (Bytes × Bytes)) (name value : Bytes) : Prop :=
  ∃ front back, pairs = front ++ (name, value) :: back ∧ ∀ pair ∈ back, pair.1 ≠ name

/-- Pairs that a table can keep. -/
def Tabled (pairs : List (Bytes × Bytes)) : Prop := ∀ pair ∈ pairs, LineList.CasekeyFree pair.1 ∧ pair.2 ≠ []

variable {pairs : List (Bytes × Bytes)} {pair : Bytes × Bytes} {name value : Bytes}

theorem table_snoc (pairs : List (Bytes × Bytes)) (pair : Bytes × Bytes) :
    table (pairs ++ [pair]) = (table pairs).setCasekeyStrValue pair.1 (some pair.2) := by
  rw [table, List.foldl_append, List.foldl_cons, List.foldl_nil, ← table]

theorem lastOf_snoc : LastOf (pairs ++ [pair]) name value ↔
    pair = (name, value) ∨ pair.1 ≠ name ∧ LastOf pairs name value := by
  constructor
  · rintro ⟨front, back, parts, later⟩
    rcases List.eq_nil_or_concat back with rfl | ⟨back, last, rfl⟩
    · exact Or.inl (List.singleton_inj.mp (List.append_inj' parts rfl).2)
    · rw [List.concat_eq_append, ← List.cons_append, ← List.append_assoc] at parts
      obtain ⟨same, ends⟩ := List.append_inj' parts rfl
      cases List.singleton_inj.mp ends
      rw [List.concat_eq_append] at later
      exact Or.inr ⟨later _ (List.mem_append_right _ (List.mem_singleton_self _)),
        front, back, same, fun p member => later p (List.mem_append_left _ member)⟩
  · rintro (rfl | ⟨other, front, back, rfl, later⟩)
    · exact ⟨pairs, [], rfl, fun p member => (by cases member)⟩
    · refine ⟨front, back ++ [pair], by rw [List.append_assoc, List.cons_append], fun p member => ?_⟩
      rcases List.mem_append.mp member with before | last
      · exact later p before
      · rwa [List.mem_singleton.mp last]

theorem Tabled.of_append {more : List (Bytes × Bytes)} (tabled : Tabled (pairs ++ more)) : Tabled pairs :=
  fun pair member => tabled pair (List.mem_append_left _ member)

theorem keySorted_table (tabled : Tabled pairs) : KeySorted LineList.casekeyOf (table pairs) := by
  induction pairs using List.reverseRecOn with
  | nil => exact keySorted_nil
  | append_singleton pairs pair ih =>
      rw [table_snoc]
      exact LineList.keySorted_setCasekeyStrValue (ih tabled.of_append)
        (tabled pair (List.mem_append_right _ (List.mem_singleton_self _))).2

/-- A name is found in a table with its last value. -/
theorem find_table (tabled : Tabled pairs) :
    (table pairs).findCasekeyStrValue name hashValueSep = some value ↔ LastOf pairs name value := by
  induction pairs using List.reverseRecOn with
  | nil =>
      rw [show table [] = [] from rfl, LineList.findCasekeyStrValue_nil]
      refine iff_of_false (fun found => (by cases found)) ?_
      rintro ⟨front, back, parts, -⟩
      exact absurd parts.symm (by simp)
  | append_singleton pairs pair ih =>
      obtain ⟨free, given⟩ := tabled pair (List.mem_append_right _ (List.mem_singleton_self _))
      rw [table_snoc, LineList.findCasekeyStrValue_set (keySorted_table tabled.of_append) free given, lastOf_snoc]
      by_cases same : name = pair.1
      · rw [if_pos same]
        constructor
        · intro found
          exact Or.inl (Prod.ext same.symm (Option.some.inj found))
        · rintro (rfl | ⟨other, -⟩)
          · rfl
          · exact absurd same.symm other
      · rw [if_neg same, ih tabled.of_append]
        constructor
        · exact fun last => Or.inr ⟨fun equal => same equal.symm, last⟩
        · rintro (rfl | ⟨-, last⟩)
          · exact absurd rfl same
          · exact last

theorem mem_insertKey_table (tabled : Tabled (pairs ++ [pair])) {line : Bytes} : line ∈ table (pairs ++ [pair]) ↔
    line = pair.1 ++ 61 :: pair.2 ∨ line ∈ table pairs ∧ LineList.casekeyOf line ≠ codes pair.1 := by
  obtain ⟨free, given⟩ := tabled pair (List.mem_append_right _ (List.mem_singleton_self _))
  obtain ⟨c, cs, value⟩ := List.exists_cons_of_ne_nil given
  rw [table_snoc, value, LineList.setCasekeyStrValue, LineList.addCasekeyLineList_eq (keySorted_table tabled.of_append),
    mem_insertKey, (LineList.casekey_keyValue free _).1]

/-- The keys of a table are the names. -/
theorem mem_keys_table (tabled : Tabled pairs) {key : List ℕ} :
    key ∈ (table pairs).map LineList.casekeyOf ↔ ∃ pair ∈ pairs, codes pair.1 = key := by
  induction pairs using List.reverseRecOn with
  | nil => simp [table]
  | append_singleton pairs pair ih =>
      have free := (tabled pair (List.mem_append_right _ (List.mem_singleton_self _))).1
      have own := (LineList.casekey_keyValue free pair.2).1
      have before := ih tabled.of_append
      simp only [List.mem_map, List.mem_append, List.mem_singleton, mem_insertKey_table tabled] at before ⊢
      constructor
      · rintro ⟨line, rfl | ⟨member, -⟩, rfl⟩
        · exact ⟨pair, Or.inr rfl, own.symm⟩
        · obtain ⟨p, inside, same⟩ := before.mp ⟨line, member, rfl⟩
          exact ⟨p, Or.inl inside, same⟩
      · rintro ⟨p, inside | rfl, rfl⟩
        · by_cases same : codes p.1 = codes pair.1
          · exact ⟨_, Or.inl rfl, own.trans same.symm⟩
          · obtain ⟨line, member, key⟩ := before.mpr ⟨p, inside, rfl⟩
            exact ⟨line, Or.inr ⟨member, fun equal => same (key.symm.trans equal)⟩, key⟩
        · exact ⟨_, Or.inl rfl, own⟩

theorem nodup_keys_table (tabled : Tabled pairs) : ((table pairs).map LineList.casekeyOf).Nodup :=
  List.pairwise_map.mpr ((keySorted_table tabled).imp ne_of_lt)

/-- Two tables of one size, of which one has the names of the other, have the same names. -/
theorem names_of_length {more : List (Bytes × Bytes)} (tabled : Tabled pairs) (tabled' : Tabled more)
    (inside : ∀ p ∈ more, ∃ pair ∈ pairs, pair.1 = p.1) (length : (table pairs).length = (table more).length)
    (member : pair ∈ pairs) : ∃ p ∈ more, p.1 = pair.1 := by
  have subset : (table more).map LineList.casekeyOf ⊆ (table pairs).map LineList.casekeyOf := by
    intro key hit
    obtain ⟨p, there, rfl⟩ := (mem_keys_table tabled').mp hit
    obtain ⟨own, here, same⟩ := inside p there
    exact (mem_keys_table tabled).mpr ⟨own, here, congrArg codes same⟩
  have perm : ((table more).map LineList.casekeyOf).Perm ((table pairs).map LineList.casekeyOf) := by
    refine (List.subperm_of_subset (nodup_keys_table tabled') subset).perm_of_length_le ?_
    rw [List.length_map, List.length_map, length]
  obtain ⟨p, there, same⟩ := (mem_keys_table tabled').mp (perm.mem_iff.mpr ((mem_keys_table tabled).mpr ⟨pair, member, rfl⟩))
  exact ⟨p, there, codes_inj.mp same⟩

theorem casekeyTable_eq (names opened : List Bytes) : casekeyTable names opened = table (names.zip opened) := rfl

theorem forall₂_of_mapM {α β : Type} {f : α → Option β} {as : List α} {bs : List β} (mapped : as.mapM f = some bs) :
    as.Forall₂ (fun a b => f a = some b) bs := by
  induction as generalizing bs with
  | nil =>
      cases mapped
      exact List.Forall₂.nil
  | cons a as ih =>
      rw [List.mapM_cons] at mapped
      obtain ⟨b, first, mapped⟩ := Option.bind_eq_some_iff.mp mapped
      obtain ⟨rest, others, mapped⟩ := Option.bind_eq_some_iff.mp mapped
      cases mapped
      exact List.Forall₂.cons first (ih others)

/-- The files that a job with some names gets from a table: the last one of each name, and no name is left. Without names
it gets all of them. -/
theorem matchFiles_table {names opened : List Bytes} (tabled : Tabled pairs)
    (matched : matchFiles (table pairs) names = some opened) :
    ∃ used, (names ≠ [] → used = names) ∧ used.Forall₂ (LastOf pairs) opened ∧ ∀ pair ∈ pairs, pair.1 ∈ used := by
  unfold matchFiles at matched
  dsimp only at matched
  generalize chosen : (if names = [] then (table pairs).map (keyOf hashValueSep) else names) = used at matched
  cases found : used.mapM ((table pairs).findCasekeyStrValue · hashValueSep) with
  | none =>
      rw [found] at matched
      cases matched
  | some files =>
      rw [found] at matched
      dsimp only at matched
      split at matched
      next length =>
          cases matched
          have lasts : used.Forall₂ (LastOf pairs) opened :=
            (forall₂_of_mapM found).imp fun _ _ hit => (find_table tabled).mp hit
          refine ⟨used, fun named => ?_, lasts, fun pair member => ?_⟩
          · rw [← chosen, if_neg named]
          · have each : ∀ p ∈ used.zip opened, p ∈ pairs := by
              intro p hit
              obtain ⟨front, back, parts, -⟩ := (List.forall₂_iff_zip.mp lasts).2 hit
              rw [parts]
              exact List.mem_append_right _ List.mem_cons_self
            obtain ⟨p, hit, same⟩ := names_of_length tabled (fun p hit => tabled p (each p hit))
              (fun p hit => ⟨p, each p hit, rfl⟩) length member
            exact same ▸ (List.of_mem_zip hit).1
      next => cases matched

/-! ## The files of a job -/

/-- The files of a job in the order they came, with their numbers. -/
structure Group where
  before : List (Arrival × Nat)
  control : Arrival × Nat
  after : List (Arrival × Nat)

def Group.arrivals (group : Group) : List (Arrival × Nat) := group.before ++ group.control :: group.after

section

variable (receiver : Receiver)

/-- The names of data files and the temporary files that they are in. -/
def namesOf (data : List (Arrival × Nat)) : List (Bytes × Bytes) :=
  data.map fun file => (file.1.item.name, receiver.temp file.2)

/-- What a job has of its control file. -/
structure Known (file : Arrival × Nat) (control : Control) : Prop where
  type : file.1.item.type = .control
  name : control.name = file.1.item.name
  content : control.content = file.1.item.content
  names : control.names = [] ∨ control.names = fileNames receiver file.1.item

/-- A job with files has the last one of each name that came with its control file, and no name is left. -/
structure Group.Makes (group : Group) (stored : Stored) : Prop where
  control : Known receiver group.control stored.control
  data : ∀ file ∈ group.before ++ group.after, file.1.item.type = .data
  opened : ∀ opened, stored.opened = some opened → (group.before = [] ∨ group.after = []) ∧
    ∃ used, (stored.control.names ≠ [] → used = stored.control.names) ∧
      used.Forall₂ (LastOf (namesOf receiver (group.before ++ group.after))) opened ∧
        ∀ file ∈ group.before ++ group.after, file.1.item.name ∈ used

/-- The files that wait for the end of their job. Data files are kept before the control file or behind it. -/
structure Waits (σ : Session) (before : List (Arrival × Nat)) (control : Option (Arrival × Nat))
    (after : List (Arrival × Nat)) : Prop where
  progress : σ.inProgress = σ.job.isSome
  job : Option.Rel (Known receiver) control σ.job
  alone : control = none → after = []
  data : ∀ file ∈ before ++ after, file.1.item.type = .data
  files : σ.discarding = false → (control = none ∨ before = []) ∧ σ.files = table (namesOf receiver (before ++ after))

/-- Stored jobs are made of the files that came, one job behind the other. -/
def Made (came : List (Arrival × Nat)) (stored : List Stored) : Prop :=
  ∃ (groups : List Group) (rest : List (Arrival × Nat)), came = groups.flatMap Group.arrivals ++ rest ∧
    groups.Forall₂ (Group.Makes receiver) stored

/-- The files that came are those of the stored jobs, one job behind the other, and those that wait. -/
def Grouped (came : List (Arrival × Nat)) (σ : Session) : Prop :=
  ∃ (groups : List Group) (before : List (Arrival × Nat)) (control : Option (Arrival × Nat)) (after : List (Arrival × Nat)), came = groups.flatMap Group.arrivals ++ (before ++ control.toList ++ after) ∧
    groups.Forall₂ (Group.Makes receiver) σ.stored ∧ Waits receiver σ before control after

end

section

variable {receiver : Receiver} {came before after : List (Arrival × Nat)} {control : Option (Arrival × Nat)}
  {σ σ' : Session} {ending : BlockReception.Ending} {waiting : Control} {arrival : Arrival} {n : Nat} {turn : Turn}

theorem grouped_start : Grouped receiver [] .start :=
  ⟨[], [], none, [], rfl, List.Forall₂.nil, rfl, Option.Rel.none, fun _ => rfl, fun file member => (by cases member),
    fun _ => ⟨Or.inl rfl, rfl⟩⟩

theorem of_bind_ok {α : Type} {x : Except Outcome α} {f : α → Except Outcome Session} (ran : x.bind f = .ok σ) :
    ∃ a, x = .ok a ∧ f a = .ok σ := by
  cases x with
  | error outcome => cases ran
  | ok a => exact ⟨a, rfl, ran⟩

theorem of_bind_error {α : Type} {x : Except Outcome α} {f : α → Except Outcome Session} {outcome : Outcome}
    (ran : x.bind f = .error outcome) : x = .error outcome ∨ ∃ a, x = .ok a ∧ f a = .error outcome := by
  cases x with
  | error stopped =>
      cases ran
      exact Or.inl rfl
  | ok a => exact Or.inr ⟨a, rfl, ran⟩

/-- What the end of a job leaves. -/
theorem finishJob_ok (finished : finishJob ending σ waiting = .ok σ') :
    ∃ opened, σ' = { σ with job := none, inProgress := false, files := [], jobsize := 0, discarding := false,
                            stored := σ.stored ++ [⟨waiting, opened⟩] } ∧
      (opened = none → σ.discarding = true) ∧
        ∀ files, opened = some files → σ.discarding = false ∧ matchFiles σ.files waiting.names = some files := by
  unfold finishJob at finished
  dsimp only at finished
  split at finished
  next large =>
      split at finished
      · cases finished
        exact ⟨none, rfl, fun _ => large, fun files some => (by cases some)⟩
      · cases finished
  next small =>
      split at finished
      next => cases finished
      next => cases finished
      next => cases finished
      next opened matched _ =>
          cases finished
          refine ⟨some opened, rfl, fun none => absurd none (Option.some_ne_none _), fun files same => ?_⟩
          cases same
          exact ⟨Bool.eq_false_iff.mpr small, matched⟩

/-- A job that does not end is not stored. -/
theorem finishJob_error {outcome : Outcome} (failed : finishJob ending σ waiting = .error outcome) :
    outcome.stored = σ.stored := by
  unfold finishJob at failed
  dsimp only at failed
  split at failed
  · split at failed
    · cases failed
    · cases failed
      rfl
  · split at failed
    next =>
      cases failed
      rfl
    next =>
      cases failed
      rfl
    next =>
      cases failed
      rfl
    next => cases failed

/-- The size of a file changes nothing else, and what was discarded is discarded. -/
theorem addSize_ok {len : Nat} (added : addSize receiver σ len = .ok σ') :
    ∃ jobsize discarding, σ' = { σ with jobsize := jobsize, discarding := discarding } ∧
      (discarding = false → σ.discarding = false) := by
  unfold addSize at added
  dsimp only at added
  split at added
  · split at added
    · cases added
      exact ⟨_, true, rfl, fun same => (by cases same)⟩
    · cases added
  · cases added
    exact ⟨_, σ.discarding, rfl, id⟩

theorem Waits.addSize {len : Nat} (waits : Waits receiver σ before control after) (added : addSize receiver σ len = .ok σ') :
    Waits receiver σ' before control after ∧ σ'.stored = σ.stored := by
  obtain ⟨jobsize, discarding, rfl, kept⟩ := addSize_ok added
  exact ⟨⟨waits.progress, waits.job, waits.alone, waits.data, fun small => waits.files (kept small)⟩, rfl⟩

/-- Nothing waits behind the end of a job. -/
theorem waits_nothing (done : σ.job = none) (idle : σ.inProgress = false) (empty : σ.files = []) :
    Waits receiver σ [] none [] :=
  ⟨by rw [idle, done]; rfl, done ▸ Option.Rel.none, fun _ => rfl, fun file member => (by cases member),
    fun _ => ⟨Or.inl rfl, empty⟩⟩

/-- A table of some names is not empty. -/
theorem table_ne_nil {pairs : List (Bytes × Bytes)} (tabled : Tabled pairs) (some : pairs ≠ []) : table pairs ≠ [] := by
  obtain ⟨pair, rest, rfl⟩ := List.exists_cons_of_ne_nil some
  intro empty
  have key := (mem_keys_table tabled).mpr ⟨pair, List.mem_cons_self, rfl⟩
  rw [empty] at key
  cases key

/-- The names of the data files can be kept in a table. -/
def Kept (receiver : Receiver) (data : List (Arrival × Nat)) : Prop := Tabled (namesOf receiver data)

/-- A job whose names are found among the files that waited for it is made of them. -/
theorem makes_of_matched {file : Arrival × Nat} {opened : Option (List Bytes)} (kept : Kept receiver (before ++ after))
    (known : Known receiver file waiting) (data : ∀ file ∈ before ++ after, file.1.item.type = .data)
    (files : σ.discarding = false → (before = [] ∨ after = []) ∧ σ.files = table (namesOf receiver (before ++ after)))
    (matched : ∀ files, opened = some files → σ.discarding = false ∧ matchFiles σ.files waiting.names = some files) :
    Group.Makes receiver ⟨before, file, after⟩ ⟨waiting, opened⟩ := by
  refine ⟨known, data, fun files' some => ?_⟩
  obtain ⟨small, all⟩ := matched files' some
  obtain ⟨side, same⟩ := files small
  rw [same] at all
  obtain ⟨used, named, lasts, whole⟩ := matchFiles_table kept all
  exact ⟨side, used, named, lasts, fun file member => whole _ (List.mem_map_of_mem member)⟩

/-- A job that ends is made of the files that waited for it. -/
theorem finishJob_makes {file : Arrival × Nat} (kept : Kept receiver (before ++ after)) (known : Known receiver file waiting)
    (data : ∀ file ∈ before ++ after, file.1.item.type = .data)
    (files : σ.discarding = false → (before = [] ∨ after = []) ∧ σ.files = table (namesOf receiver (before ++ after)))
    (finished : finishJob ending σ waiting = .ok σ') :
    (∃ stored, σ'.stored = σ.stored ++ [stored] ∧ Group.Makes receiver ⟨before, file, after⟩ stored ∧
      (stored.opened = none → σ.discarding = true)) ∧ Waits receiver σ' [] none [] := by
  obtain ⟨opened, rfl, large, matched⟩ := finishJob_ok finished
  exact ⟨⟨_, rfl, makes_of_matched kept known data files matched, large⟩, waits_nothing rfl rfl rfl⟩

theorem known_controlOf (type : arrival.item.type = .control) :
    Known receiver (arrival, n) (controlOf receiver σ arrival.item) := by
  refine ⟨type, rfl, rfl, ?_⟩
  unfold controlOf
  dsimp only
  split
  · exact Or.inl rfl
  · exact Or.inr rfl

/-- A new control file, where none waits: its job ends at once if data files wait. -/
theorem newJob_grouped (groups : List Group) (kept : Kept receiver before) (known : Known receiver (arrival, n) waiting)
    (made : groups.Forall₂ (Group.Makes receiver) σ.stored) (waits : Waits receiver σ before none [])
    (set : newJob turn σ waiting = .ok σ') :
    Grouped receiver (groups.flatMap Group.arrivals ++ (before ++ [(arrival, n)])) σ' := by
  have all : before ++ [] = before := List.append_nil before
  unfold newJob at set
  split at set
  · split at set
    next empty =>
        cases set
        refine ⟨groups, before, some (arrival, n), [], by rw [Option.toList_some, List.append_nil], made, rfl,
          Option.Rel.some known, fun _ => rfl, waits.data, fun small => ?_⟩
        have files := (waits.files small).2
        refine ⟨Or.inr ?_, files⟩
        by_contra filled
        refine table_ne_nil kept (fun none => filled (List.map_eq_nil_iff.mp none)) ?_
        rw [← all, ← files]
        exact empty
    next =>
        have kept' : Kept receiver (before ++ []) := all.symm ▸ kept
        obtain ⟨⟨stored, same, makes, -⟩, after⟩ := finishJob_makes kept' known waits.data
          (fun small => ⟨Or.inr rfl, (waits.files small).2⟩) set
        refine ⟨groups ++ [⟨before, (arrival, n), []⟩], [], none, [], ?_, ?_, after⟩
        · rw [List.flatMap_append, List.flatMap_singleton, Group.arrivals, List.nil_append, Option.toList_none,
            List.append_nil, List.append_nil]
        · rw [same]
          exact List.rel_append made (List.Forall₂.cons makes List.Forall₂.nil)
  · cases set

theorem Kept.left {data more : List (Arrival × Nat)} (kept : Kept receiver (data ++ more)) : Kept receiver data := by
  unfold Kept namesOf at kept
  rw [List.map_append] at kept
  exact Tabled.of_append kept

/-- A job that does not begin changes nothing. -/
theorem newJob_error {outcome : Outcome} (failed : newJob turn σ waiting = .error outcome) : outcome.stored = σ.stored := by
  unfold newJob at failed
  split at failed
  · split at failed
    · cases failed
    · exact finishJob_error failed
  · cases failed
    rfl

/-- The names of the files that wait can be kept if those of all that came can. -/
theorem Kept.inner {done : List (Arrival × Nat)}
    (kept : Kept receiver ((done ++ (before ++ control.toList ++ after)).filter fun file => file.1.item.type = .data))
    (data : ∀ file ∈ before ++ after, file.1.item.type = .data) : Kept receiver (before ++ after) := by
  intro pair member
  obtain ⟨file, here, rfl⟩ := List.mem_map.mp member
  refine kept _ (List.mem_map_of_mem (List.mem_filter.mpr ⟨?_, decide_eq_true (data file here)⟩))
  rcases List.mem_append.mp here with first | last
  · exact List.mem_append_right _ (List.mem_append_left _ (List.mem_append_left _ first))
  · exact List.mem_append_right _ (List.mem_append_right _ last)

/-- A waiting control file is known. -/
theorem Waits.known (waits : Waits receiver σ before control after) (job : σ.job = some waiting) :
    ∃ file, control = some file ∧ Known receiver file waiting := by
  have related := waits.job
  rw [job] at related
  cases related with
  | some known => exact ⟨_, rfl, known⟩

/-- A control file finds that none waits, or ends the job of the one that does. -/
theorem controlFile_cases (turn : Turn) (item : Item) (waits : Waits receiver σ before control after) :
    (control = none ∧ after = [] ∧ controlFile receiver turn σ item = newJob turn σ (controlOf receiver σ item)) ∨
      ∃ file own, control = some file ∧ Known receiver file own ∧
        controlFile receiver turn σ item =
          (finishJob turn.ends σ own).bind fun middle => newJob turn middle (controlOf receiver σ item) := by
  have progress := waits.progress
  unfold controlFile
  dsimp only
  cases job : σ.job with
  | none =>
      rw [job, Option.isSome_none] at progress
      have related := waits.job
      rw [job] at related
      cases related
      exact Or.inl ⟨rfl, waits.alone rfl, if_neg (by rw [progress]; exact Bool.false_ne_true)⟩
  | some own =>
      rw [job, Option.isSome_some] at progress
      obtain ⟨file, same, known⟩ := waits.known job
      exact Or.inr ⟨file, own, same, known, if_pos progress⟩

/-- The job that a control file ends is made of the files that waited. -/
theorem ended_made (groups : List Group) {file : Arrival × Nat} (kept : Kept receiver (before ++ after))
    (known : Known receiver file waiting) (made : groups.Forall₂ (Group.Makes receiver) σ.stored)
    (waits : Waits receiver σ before (some file) after) (ended : finishJob ending σ waiting = .ok σ') :
    (groups ++ ([⟨before, file, after⟩] : List Group)).Forall₂ (Group.Makes receiver) σ'.stored ∧
      Waits receiver σ' [] none [] := by
  have files : σ.discarding = false → (before = [] ∨ after = []) ∧ σ.files = table (namesOf receiver (before ++ after)) := by
    intro small
    obtain ⟨side, files⟩ := waits.files small
    exact ⟨Or.inl (side.resolve_left (Option.some_ne_none _)), files⟩
  obtain ⟨⟨stored, same, makes, -⟩, none⟩ := finishJob_makes kept known waits.data files ended
  rw [same]
  exact ⟨List.rel_append made (List.Forall₂.cons makes List.Forall₂.nil), none⟩

theorem arrivals_ended (groups : List Group) (before after : List (Arrival × Nat)) (file : Arrival × Nat)
    (rest : List (Arrival × Nat)) :
    groups.flatMap Group.arrivals ++ (before ++ (some file).toList ++ after) ++ rest =
      (groups ++ ([⟨before, file, after⟩] : List Group)).flatMap Group.arrivals ++ rest := by
  rw [List.flatMap_append, List.flatMap_singleton, Group.arrivals, Option.toList_some, List.append_assoc before,
    List.singleton_append]

/-- A control file ends the job that waits, and begins its own. -/
theorem controlFile_grouped (groups : List Group) (kept : Kept receiver (before ++ after))
    (type : arrival.item.type = .control) (made : groups.Forall₂ (Group.Makes receiver) σ.stored)
    (waits : Waits receiver σ before control after) (done : controlFile receiver turn σ arrival.item = .ok σ') :
    Grouped receiver (groups.flatMap Group.arrivals ++ (before ++ control.toList ++ after) ++ [(arrival, n)]) σ' := by
  have known : Known receiver (arrival, n) (controlOf receiver σ arrival.item) := known_controlOf type
  rcases controlFile_cases turn arrival.item waits with ⟨rfl, rfl, same⟩ | ⟨file, own, rfl, old, same⟩
  · rw [same] at done
    rw [Option.toList_none, List.append_nil, List.append_nil, List.append_assoc]
    exact newJob_grouped groups kept.left known made waits done
  · rw [same] at done
    obtain ⟨middle, ended, begun⟩ := of_bind_ok done
    obtain ⟨made', none⟩ := ended_made groups kept old made waits ended
    rw [arrivals_ended]
    exact newJob_grouped _ (fun pair member => (by cases member)) known made' none begun

/-- A control file that is refused may have ended the job that waited. -/
theorem controlFile_made (groups : List Group) {outcome : Outcome} (kept : Kept receiver (before ++ after))
    (made : groups.Forall₂ (Group.Makes receiver) σ.stored) (waits : Waits receiver σ before control after)
    (failed : controlFile receiver turn σ arrival.item = .error outcome) :
    Made receiver (groups.flatMap Group.arrivals ++ (before ++ control.toList ++ after) ++ [(arrival, n)]) outcome.stored := by
  rcases controlFile_cases turn arrival.item waits with ⟨-, -, same⟩ | ⟨file, own, rfl, old, same⟩
  · rw [same] at failed
    rw [newJob_error failed, List.append_assoc]
    exact ⟨groups, _, rfl, made⟩
  · rw [same] at failed
    rcases of_bind_error failed with stopped | ⟨middle, ended, stopped⟩
    · rw [finishJob_error stopped, List.append_assoc]
      exact ⟨groups, _, rfl, made⟩
    · rw [newJob_error stopped, arrivals_ended]
      exact ⟨_, _, rfl, (ended_made groups kept old made waits ended).1⟩

/-- A data file waits for its job. -/
theorem dataFile_grouped (groups : List Group) (type : arrival.item.type = .data)
    (made : groups.Forall₂ (Group.Makes receiver) σ.stored) (waits : Waits receiver σ before control after) :
    Grouped receiver (groups.flatMap Group.arrivals ++ (before ++ control.toList ++ after) ++ [(arrival, n)])
      (dataFile receiver n σ arrival.item) := by
  have file : ∀ data, (∀ file ∈ data, file.1.item.type = .data) →
      ∀ file ∈ data ++ [(arrival, n)], file.1.item.type = .data := by
    intro data same file member
    rcases List.mem_append.mp member with old | new
    · exact same file old
    · rw [List.mem_singleton.mp new]
      exact type
  have files : σ.discarding = false →
      (dataFile receiver n σ arrival.item).files = table (namesOf receiver (before ++ after ++ [(arrival, n)])) := by
    intro small
    unfold namesOf dataFile
    rw [List.map_append, List.map_singleton, table_snoc]
    dsimp only
    rw [small, (waits.files small).2]
    rfl
  cases waiting : control with
  | none =>
      subst waiting
      obtain rfl := waits.alone rfl
      rw [List.append_nil] at files
      refine ⟨groups, before ++ [(arrival, n)], none, [], ?_, made, waits.progress, waits.job, fun _ => rfl, ?_,
        fun small => ⟨Or.inl rfl, ?_⟩⟩
      · simp only [Option.toList_none, List.append_nil, List.append_assoc]
      · rw [List.append_nil]
        exact file before fun file member => waits.data file (List.mem_append_left _ member)
      · rw [List.append_nil]
        exact files small
  | some own =>
      subst waiting
      refine ⟨groups, before, some own, after ++ [(arrival, n)], ?_, made, waits.progress, waits.job,
        fun none => absurd none (Option.some_ne_none _), ?_, fun small => ⟨(waits.files small).1, ?_⟩⟩
      · simp only [List.append_assoc]
      · rw [← List.append_assoc]
        exact file _ waits.data
      · rw [← List.append_assoc]
        exact files small

/-- A file joins those that came. -/
theorem takeFile_grouped (kept : Kept receiver (came.filter fun file => file.1.item.type = .data))
    (grouped : Grouped receiver came σ) (taken : takeFile receiver n σ arrival = .ok σ') :
    Grouped receiver (came ++ [(arrival, n)]) σ' := by
  obtain ⟨groups, before, control, after, rfl, made, waits⟩ := grouped
  unfold takeFile at taken
  obtain ⟨middle, added, taken⟩ := of_bind_ok taken
  obtain ⟨waits', same⟩ := waits.addSize added
  rw [← same] at made
  have kept' := kept.inner waits.data
  split at taken
  · cases type : arrival.item.type with
    | control =>
        rw [type] at taken
        exact controlFile_grouped groups kept' type made waits' taken
    | data =>
        rw [type] at taken
        cases taken
        exact dataFile_grouped groups type made waits'
  · cases taken

/-- A file that is refused leaves the jobs that are stored. -/
theorem takeFile_made {outcome : Outcome} (kept : Kept receiver (came.filter fun file => file.1.item.type = .data))
    (grouped : Grouped receiver came σ) (failed : takeFile receiver n σ arrival = .error outcome) :
    Made receiver (came ++ [(arrival, n)]) outcome.stored := by
  obtain ⟨groups, before, control, after, rfl, made, waits⟩ := grouped
  have unchanged : Made receiver (groups.flatMap Group.arrivals ++ (before ++ control.toList ++ after) ++ [(arrival, n)])
      σ.stored := ⟨groups, _, List.append_assoc _ _ _, made⟩
  unfold takeFile at failed
  rcases of_bind_error failed with stopped | ⟨middle, added, stopped⟩
  · unfold addSize at stopped
    dsimp only at stopped
    split at stopped
    · split at stopped
      · cases stopped
      · cases stopped
        exact unchanged
    · cases stopped
  · obtain ⟨waits', same⟩ := waits.addSize added
    rw [← same] at made unchanged
    split at stopped
    · cases type : arrival.item.type with
      | control =>
          rw [type] at stopped
          exact controlFile_made groups (kept.inner waits.data) made waits' stopped
      | data =>
          rw [type] at stopped
          cases stopped
    · cases stopped
      exact unchanged

theorem takeFiles_grouped {arrivals : List Arrival} (kept : Kept receiver ((came ++ arrivals.zipIdx n).filter
      fun file => file.1.item.type = .data)) (grouped : Grouped receiver came σ) :
    (∀ σ', takeFiles receiver n σ arrivals = .ok σ' → Grouped receiver (came ++ arrivals.zipIdx n) σ') ∧
      ∀ outcome, takeFiles receiver n σ arrivals = .error outcome → Made receiver (came ++ arrivals.zipIdx n) outcome.stored := by
  induction arrivals generalizing came σ n with
  | nil =>
      rw [List.zipIdx_nil, List.append_nil]
      constructor
      · intro σ' taken
        cases taken
        exact grouped
      · intro outcome failed
        cases failed
  | cons arrival arrivals ih =>
      have parts : came ++ (arrival :: arrivals).zipIdx n = came ++ [(arrival, n)] ++ arrivals.zipIdx (n + 1) := by
        rw [List.zipIdx_cons, List.append_assoc, List.singleton_append]
      rw [parts] at kept ⊢
      have kept' : Kept receiver (came.filter fun file => file.1.item.type = .data) := by
        rw [List.append_assoc, List.filter_append] at kept
        exact kept.left
      constructor
      · intro σ' taken
        obtain ⟨middle, first, rest⟩ := of_bind_ok taken
        exact (ih kept (takeFile_grouped kept' grouped first)).1 σ' rest
      · intro outcome failed
        rcases of_bind_error failed with stopped | ⟨middle, first, stopped⟩
        · obtain ⟨groups, rest, split, made⟩ := takeFile_made kept' grouped stopped
          exact ⟨groups, rest ++ arrivals.zipIdx (n + 1), by rw [split, List.append_assoc], made⟩
        · exact (ih kept (takeFile_grouped kept' grouped first)).2 outcome stopped

/-- At the end of the files, nothing is stored, or the job whose control file waits. -/
theorem endSession_cases {outcome : Outcome} (ended : endSession receiver σ = some outcome) :
    outcome.stored = σ.stored ∨ ∃ own opened, σ.job = some own ∧ outcome.stored = σ.stored ++ [⟨own, opened⟩] ∧
      (opened = none → σ.discarding = true) ∧
        ∀ files, opened = some files → σ.discarding = false ∧ matchFiles σ.files own.names = some files := by
  unfold endSession at ended
  split at ended
  next large =>
      split at ended
      · cases ended
        exact Or.inl rfl
      next own job =>
          split at ended
          · cases ended
            exact Or.inr ⟨own, none, job, rfl, fun _ => large, fun files some => (by cases some)⟩
          · cases ended
            exact Or.inl rfl
  next small =>
      split at ended
      next =>
          cases ended
          exact Or.inl rfl
      next =>
          split at ended
          next =>
              cases ended
              exact Or.inl rfl
          next =>
              cases ended
              exact Or.inl rfl
          next =>
              cases ended
              exact Or.inl rfl
          next opened matched _ =>
              cases job : σ.job with
              | none =>
                  rw [job] at ended
                  cases ended
              | some own =>
                  rw [job] at ended matched
                  cases ended
                  refine Or.inr ⟨own, some opened, rfl, rfl, fun none => absurd none (Option.some_ne_none _), ?_⟩
                  intro files same
                  cases same
                  exact ⟨Bool.eq_false_iff.mpr small, matched⟩

/-- The files that wait make the last job, if there is one. -/
theorem endSession_makes {outcome : Outcome} (kept : Kept receiver (before ++ after))
    (waits : Waits receiver σ before control after) (ended : endSession receiver σ = some outcome) :
    outcome.stored = σ.stored ∨ ∃ file stored, control = some file ∧ outcome.stored = σ.stored ++ [stored] ∧
      Group.Makes receiver ⟨before, file, after⟩ stored ∧ (stored.opened = none → σ.discarding = true) := by
  rcases endSession_cases ended with same | ⟨own, opened, job, same, large, matched⟩
  · exact Or.inl same
  · obtain ⟨file, rfl, known⟩ := waits.known job
    refine Or.inr ⟨file, _, rfl, same, makes_of_matched kept known waits.data (fun small => ?_) matched, large⟩
    obtain ⟨side, files⟩ := waits.files small
    exact ⟨Or.inl (side.resolve_left (Option.some_ne_none _)), files⟩

theorem Grouped.endSession {outcome : Outcome} (kept : Kept receiver (came.filter fun file => file.1.item.type = .data))
    (grouped : Grouped receiver came σ) (ended : endSession receiver σ = some outcome) : Made receiver came outcome.stored := by
  obtain ⟨groups, before, control, after, rfl, made, waits⟩ := grouped
  rcases endSession_makes (kept.inner waits.data) waits ended with same | ⟨file, stored, rfl, same, makes, -⟩
  · exact ⟨groups, _, rfl, same ▸ made⟩
  · have parts := arrivals_ended groups before after file []
    rw [List.append_nil] at parts
    exact ⟨_, _, parts, same ▸ List.rel_append made (List.Forall₂.cons makes List.Forall₂.nil)⟩

/-- Names that a session can keep. -/
structure Named (receiver : Receiver) (arrivals : List Arrival) : Prop where
  temps : ∀ n, receiver.temp n ≠ []
  free : ∀ arrival ∈ arrivals, arrival.item.type = .data → LineList.CasekeyFree arrival.item.name

theorem Named.kept {arrivals : List Arrival} {files : List (Arrival × Nat)} (named : Named receiver arrivals)
    (came : ∀ file ∈ files, file.1 ∈ arrivals) (data : ∀ file ∈ files, file.1.item.type = .data) : Kept receiver files := by
  intro pair member
  obtain ⟨file, here, rfl⟩ := List.mem_map.mp member
  exact ⟨named.free _ (came file here) (data file here), named.temps _⟩

theorem Named.kept_filter {arrivals : List Arrival} (named : Named receiver arrivals) :
    Kept receiver (([] ++ arrivals.zipIdx).filter fun file : Arrival × Nat => file.1.item.type = FileType.data) :=
  named.kept (fun _ member => List.fst_mem_of_mem_zipIdx (List.mem_filter.mp member).1) fun _ member =>
    of_decide_eq_true (List.mem_filter.mp member).2

/-- Two jobs, each with its control file first. -/
def twoJobs : List Arrival :=
  [⟨⟨.control, lit "cfA001h", lit "fdfA001h\n"⟩, 9⟩, ⟨⟨.data, lit "dfA001h", lit "x"⟩, 1⟩,
    ⟨⟨.control, lit "cfA002h", lit "fdfA002h\n"⟩, 9⟩, ⟨⟨.data, lit "dfA002h", lit "y"⟩, 1⟩]

/-- A receiver that stores every job. -/
def admitting : Receiver := { refusing with last := ⟨.stored, true⟩ }

/-- The lengths that were announced, together. -/
def announced : List Arrival → Nat
  | [] => 0
  | arrival :: arrivals => arrival.len + announced arrivals

/-- A size that a job may have. -/
def Allowed (receiver : Receiver) (jobsize : Nat) : Prop :=
  receiver.limits.maxJobSize ≤ 0 ∨ (jobsize : Int) ≤ receiver.limits.maxJobSize * 1024

theorem Allowed.mono {jobsize less : Nat} (allowed : Allowed receiver jobsize) (below : less ≤ jobsize) :
    Allowed receiver less := by
  refine allowed.imp_right fun fits => ?_
  omega

theorem addSize_eq {len : Nat} (allowed : Allowed receiver (σ.jobsize + len)) :
    addSize receiver σ len = .ok { σ with jobsize := σ.jobsize + len } := by
  refine if_neg ?_
  rintro ⟨limited, large⟩
  rcases allowed with unlimited | fits
  · omega
  · omega

theorem newJob_small {middle : Session} (small : middle.discarding = false) (set : newJob turn middle waiting = .ok σ') :
    σ'.discarding = false ∧ σ'.jobsize ≤ middle.jobsize := by
  unfold newJob at set
  split at set
  · split at set
    · cases set
      exact ⟨small, Nat.le_refl _⟩
    · obtain ⟨opened, rfl, -⟩ := finishJob_ok set
      exact ⟨rfl, Nat.zero_le _⟩
  · cases set

/-- A job of an allowed size is not discarded. -/
theorem takeFile_small (allowed : Allowed receiver (σ.jobsize + arrival.len)) (small : σ.discarding = false)
    (taken : takeFile receiver n σ arrival = .ok σ') :
    σ'.discarding = false ∧ σ'.jobsize ≤ σ.jobsize + arrival.len := by
  unfold takeFile at taken
  rw [addSize_eq allowed] at taken
  dsimp only [Except.bind] at taken
  split at taken
  · split at taken
    next =>
        unfold controlFile at taken
        dsimp only at taken
        split at taken
        · obtain ⟨middle, ended, begun⟩ := of_bind_ok taken
          obtain ⟨opened, rfl, -⟩ := finishJob_ok ended
          obtain ⟨small', less⟩ := newJob_small rfl begun
          exact ⟨small', Nat.le_trans less (Nat.zero_le _)⟩
        · refine newJob_small ?_ taken
          exact small
    next =>
        cases taken
        exact ⟨small, Nat.le_refl _⟩
  · cases taken

theorem takeFiles_small {arrivals : List Arrival} (allowed : Allowed receiver (σ.jobsize + announced arrivals))
    (small : σ.discarding = false) (taken : takeFiles receiver n σ arrivals = .ok σ') :
    σ'.discarding = false ∧ σ'.jobsize ≤ σ.jobsize + announced arrivals := by
  induction arrivals generalizing σ n with
  | nil =>
      cases taken
      exact ⟨small, Nat.le_refl _⟩
  | cons arrival arrivals ih =>
      obtain ⟨middle, first, rest⟩ := of_bind_ok taken
      have sizes : announced (arrival :: arrivals) = arrival.len + announced arrivals := rfl
      rw [sizes] at allowed ⊢
      obtain ⟨small', less⟩ := takeFile_small (allowed.mono (by omega)) small first
      obtain ⟨small'', less'⟩ := ih (allowed.mono (by omega)) small' rest
      exact ⟨small'', by omega⟩

/-- Data files end no job. -/
theorem takeFiles_data {arrivals : List Arrival} (data : ∀ arrival ∈ arrivals, arrival.item.type = .data)
    (taken : takeFiles receiver n σ arrivals = .ok σ') : σ'.stored = σ.stored ∧ σ'.job = σ.job := by
  induction arrivals generalizing σ n with
  | nil =>
      cases taken
      exact ⟨rfl, rfl⟩
  | cons arrival arrivals ih =>
      obtain ⟨middle, first, rest⟩ := of_bind_ok taken
      obtain ⟨stored, job⟩ := ih (fun later member => data later (List.mem_cons_of_mem _ member)) rest
      unfold takeFile at first
      obtain ⟨added, size, first⟩ := of_bind_ok first
      obtain ⟨jobsize, discarding, rfl, -⟩ := addSize_ok size
      rw [data arrival List.mem_cons_self] at first
      split at first
      · cases first
        exact ⟨stored, job⟩
      · cases first

theorem takeFiles_append (n : Nat) (σ : Session) (arrivals more : List Arrival) :
    takeFiles receiver n σ (arrivals ++ more) =
      (takeFiles receiver n σ arrivals).bind fun σ => takeFiles receiver (n + arrivals.length) σ more := by
  induction arrivals generalizing σ n with
  | nil => rfl
  | cons arrival arrivals ih =>
      rw [List.cons_append, takeFiles, takeFiles]
      cases takeFile receiver n σ arrival with
      | error outcome => rfl
      | ok middle =>
          have place : n + 1 + arrivals.length = n + (arrival :: arrivals).length := by
            rw [List.length_cons]
            omega
          exact place ▸ ih (n + 1) middle

/-- Where no job is stored yet, all files wait. -/
theorem takeFiles_waits {arrivals : List Arrival} (named : Named receiver arrivals)
    (taken : takeFiles receiver 0 .start arrivals = .ok σ) (none : σ.stored = []) :
    ∃ before control after, arrivals.zipIdx = before ++ control.toList ++ after ∧ Waits receiver σ before control after := by
  obtain ⟨groups, before, control, after, parts, made, waits⟩ := (takeFiles_grouped named.kept_filter grouped_start).1 σ taken
  rw [none] at made
  cases made
  exact ⟨before, control, after, parts, waits⟩

theorem Named.left {arrivals more : List Arrival} (named : Named receiver (arrivals ++ more)) : Named receiver arrivals :=
  ⟨named.temps, fun arrival member => named.free arrival (List.mem_append_left _ member)⟩

theorem announced_snoc (data : List Arrival) (last : Arrival) : announced (data ++ [last]) = announced data + last.len := by
  induction data with
  | nil => exact Nat.add_comm _ _
  | cons first data ih => rw [List.cons_append, announced, announced, ih, Nat.add_assoc]

theorem of_mem_zipIdx {data : List Arrival} {file : Arrival × Nat} {k : Nat} (member : file ∈ data.zipIdx k) :
    file.1 ∈ data := List.fst_mem_of_mem_zipIdx member

/-- A control file behind data files ends its job: if it is not refused, the job is stored. -/
theorem takeFiles_dataFirst {data : List Arrival} {last : Arrival} (named : Named receiver (data ++ [last]))
    (types : ∀ arrival ∈ data, arrival.item.type = .data) (type : last.item.type = .control) (filled : data ≠ [])
    (allowed : Allowed receiver (announced (data ++ [last])))
    (taken : takeFiles receiver 0 .start (data ++ [last]) = .ok σ) :
    ∃ stored, σ.stored = [stored] ∧ Group.Makes receiver ⟨data.zipIdx, (last, data.length), []⟩ stored ∧
      stored.opened ≠ none := by
  have start : Session.start.jobsize = 0 := rfl
  rw [announced_snoc] at allowed
  rw [takeFiles_append] at taken
  obtain ⟨middle, first, taken⟩ := of_bind_ok taken
  obtain ⟨empty, idle⟩ := takeFiles_data types first
  obtain ⟨before, control, after, parts, waits⟩ := takeFiles_waits named.left first empty
  obtain ⟨small, size⟩ := takeFiles_small (allowed.mono (by omega)) rfl first
  obtain ⟨σ', done, same⟩ := of_bind_ok taken
  cases same
  unfold takeFile at done
  rw [addSize_eq (allowed.mono (by omega))] at done
  dsimp only [Except.bind] at done
  obtain rfl : control = none := by
    have related := waits.job
    rw [idle] at related
    cases related
    rfl
  obtain rfl := waits.alone rfl
  rw [Option.toList_none, List.append_nil, List.append_nil] at parts
  subst parts
  split at done
  next =>
      rw [type] at done
      have waits' : Waits receiver { middle with jobsize := middle.jobsize + last.len } data.zipIdx none [] :=
        ⟨waits.progress, waits.job, waits.alone, waits.data, waits.files⟩
      rcases controlFile_cases (receiver.turn (0 + data.length)) last.item waits' with ⟨-, -, new⟩ | ⟨file, own, none, -⟩
      · have new := new.symm.trans done
        have kept : Kept receiver data.zipIdx := named.left.kept (fun _ member => of_mem_zipIdx member) fun file member =>
          types _ (of_mem_zipIdx member)
        have files : middle.files = table (namesOf receiver data.zipIdx) := by
          rw [(waits.files small).2, List.append_nil]
        unfold newJob at new
        split at new
        · split at new
          next none =>
              refine absurd (files.symm.trans none) (table_ne_nil kept fun empty => filled ?_)
              exact List.zipIdx_eq_nil_iff.mp (List.map_eq_nil_iff.mp empty)
          next =>
              obtain ⟨⟨stored, same, makes, large⟩, -⟩ := finishJob_makes ((List.append_nil data.zipIdx).symm ▸ kept)
                (known_controlOf type) waits.data (fun small => ⟨Or.inr rfl, (waits.files small).2⟩) new
              rw [empty] at same
              exact ⟨stored, same, makes, fun none => absurd (small.symm.trans (large none)) Bool.false_ne_true⟩
        · cases new
      · cases none
  next => cases done

/-- A control file before data files waits for the end of the session: if no file is refused, its job is the only one that can
be stored then. -/
theorem takeFiles_controlFirst {data : List Arrival} {first : Arrival} (named : Named receiver (first :: data))
    (types : ∀ arrival ∈ data, arrival.item.type = .data) (type : first.item.type = .control)
    (allowed : Allowed receiver (announced (first :: data)))
    (taken : takeFiles receiver 0 .start (first :: data) = .ok σ) :
    σ.stored = [] ∧ ∀ outcome, endSession receiver σ = some outcome →
      outcome.stored = [] ∨ ∃ stored, outcome.stored = [stored] ∧
        Group.Makes receiver ⟨[], (first, 0), data.zipIdx 1⟩ stored ∧ stored.opened ≠ none := by
  have zero : Session.start.jobsize = 0 := rfl
  obtain ⟨middle, begun, rest⟩ := of_bind_ok taken
  have start : middle.stored = [] ∧ ∃ own, middle.job = some own := by
    unfold takeFile at begun
    rw [addSize_eq (allowed.mono (by rw [zero, announced]; omega))] at begun
    dsimp only [Except.bind] at begun
    split at begun
    · rw [type] at begun
      unfold controlFile newJob at begun
      dsimp only at begun
      rw [if_neg (by exact Bool.false_ne_true)] at begun
      split at begun
      · cases begun
        exact ⟨rfl, _, rfl⟩
      · cases begun
    · cases begun
  obtain ⟨none, own, job⟩ := start
  obtain ⟨stored, same⟩ := takeFiles_data types rest
  have empty := stored.trans none
  obtain ⟨before, control, after, parts, waits⟩ := takeFiles_waits named taken empty
  obtain ⟨file, rfl, -⟩ := waits.known (same.trans job)
  have alone : before = [] := by
    cases before with
    | nil => rfl
    | cons head before =>
        rw [List.zipIdx_cons, List.cons_append, List.cons_append] at parts
        have data := waits.data head List.mem_cons_self
        rw [← (List.cons_eq_cons.mp parts).1, type] at data
        cases data
  subst alone
  rw [List.zipIdx_cons, Option.toList_some, List.nil_append, List.singleton_append] at parts
  obtain ⟨rfl, rfl⟩ := List.cons_eq_cons.mp parts
  have small := (takeFiles_small (allowed.mono (by omega)) rfl taken).1
  have kept : Kept receiver ([] ++ data.zipIdx 1) :=
    named.kept (fun _ member => List.mem_cons_of_mem _ (of_mem_zipIdx member)) fun file member => types _ (of_mem_zipIdx member)
  refine ⟨empty, fun outcome ended => ?_⟩
  rcases endSession_makes kept waits ended with unchanged | ⟨file, stored, same, last, makes, large⟩
  · exact Or.inl (unchanged.trans empty)
  · cases same
    rw [empty] at last
    exact Or.inr ⟨stored, last, makes, fun none => absurd (small.symm.trans (large none)) Bool.false_ne_true⟩

end

end JobSession

end LPRng
