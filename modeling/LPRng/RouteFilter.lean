import LPRng.DestinationList
import LPRng.LineSearch

/-!
# Destinations from a routing filter

`Get_route` reads the output of the routing filter of a queue: a group of settings for each destination
of the job, with a line `end` behind it. Each group that names a destination gets an index, and an
identifier made of that of the job, and is packed into a field of the job.
-/

namespace LPRng

open SecureHeader

namespace RouteFilter

/-! ## Groups of settings -/

def destKey : Bytes := lit "dest"
def destinationsKey : Bytes := lit "destinations"
def copiesKey : Bytes := lit "copies"
def identifierKey : Bytes := lit "A"
def whitespace : Bytes := lit " \t\n\x0c"

/-- The parts of a line in front of a separator and behind it. -/
def cutAt (sep s : Bytes) : Option (Bytes × Bytes) :=
  match s.dropWhile (!sep.contains ·) with
  | _ :: t => some (s.takeWhile (!sep.contains ·), t)
  | [] => none

/-- What a line sets in the group that is read. -/
def setting (destination : LineList) (s : Bytes) : LineList :=
  if ∃ c ∈ s.head?, isUpper c then destination.setStrValue (s.take 1) (some (s.drop 1))
  else
    match (cutAt hashValueSep s).or (cutAt whitespace s) with
    | some (key, t) => destination.setStrValue key (some (t.dropWhile isSpace))
    | none => destination.setStrValue s (some [])

def isEnd (s : Bytes) : Bool := strcasecmp (lit "end") s = .eq

def namesDest (destination : LineList) : Bool := (destination.findStrValue destKey).isSome

/-- The groups of some lines. The last one is not ended. -/
def groups (destination : LineList) : List Bytes → List LineList
  | [] => [destination]
  | s :: lines => if isEnd s then destination :: groups [] lines else groups (setting destination s) lines

/-- The groups that name a destination. -/
def named (lines : List Bytes) : List LineList := (groups [] lines).filter namesDest

/-! ## Destinations -/

/-- The fields that are added to the settings of a destination. -/
def addFields (identifier : Bytes) (count : Nat) (destination : LineList) : LineList :=
  let destination := destination.setFlagValue destinationKey count
  let n := destination.findFlagValue copiesKey
  let destination := if n < 0 then destination.setFlagValue copiesKey 0 else destination
  destination.setStrValue identifierKey (some identifier)

/-- The identifier of a destination, with its number printed into a buffer of the given size. -/
def numbered (size : Nat) (id : Bytes) (count : Nat) : Bytes := id ++ plpSnprintf size (46 :: printInt (count + 1))

/-- The lines that are read of a text. -/
def readLines (text : Bytes) : List Bytes := split [] (cstr text) lineEnds false [] false false false

/-- What the loop of `Get_route` carries from line to line, with the identifiers that it has given. -/
structure Routing where
  info : LineList
  destination : LineList
  count : Nat
  given : List Bytes

/-- The end of a group. -/
def closeGroup (size : Nat) (id : Bytes) (st : Routing) : Routing :=
  if namesDest st.destination then
    let identifier := numbered size id st.count
    let job : DestJob := ⟨st.info, addFields identifier st.count st.destination⟩
    ⟨job.updateDestination.info, [], st.count + 1, st.given ++ [identifier]⟩
  else { st with destination := [] }

def routeLine (id : Bytes) (st : Routing) (s : Bytes) : Routing :=
  if isEnd s then closeGroup 2 id st else { st with destination := setting st.destination s }

/-- `Get_route`, from the output of the filter on. -/
def getRoute (info : LineList) (text : Bytes) : Option Routing :=
  match info.findStrValue identifierKey with
  | some (c :: id) =>
      let st := closeGroup 32 (c :: id) ((readLines text).foldl (routeLine (c :: id)) ⟨info, [], 0, []⟩)
      some { st with info := st.info.setFlagValue destinationsKey st.count }
  | _ => none

/-! ## Lists that are packed -/

/-- A line that is kept as it is. -/
structure Whole (line : Bytes) : Prop where
  trimmed : trimSpace line = line
  shown : line ≠ []
  noComment : line.head? ≠ some 35
  unbroken : ∀ d ∈ line, d ∉ lineEnds

instance : DecidablePred Whole := fun line =>
  decidable_of_iff (trimSpace line = line ∧ line ≠ [] ∧ line.head? ≠ some 35 ∧ ∀ d ∈ line, d ∉ lineEnds)
    ⟨fun ⟨trimmed, shown, noComment, unbroken⟩ => ⟨trimmed, shown, noComment, unbroken⟩,
      fun whole => ⟨whole.trimmed, whole.shown, whole.noComment, whole.unbroken⟩⟩

/-- A list whose lines are packed and unpacked as they are. -/
structure Packable (l : LineList) : Prop where
  sorted : KeySorted lineKey l
  lines : ∀ line ∈ l, Whole line

/-- What is unpacked of the lines of a list. -/
def unpack (l : LineList) : LineList :=
  split [] (l.flatMap (· ++ [10])) lineEnds true optionValueSep true true true

theorem mem_insertAll {line : Bytes} {l : LineList} (member : line ∈ insertAll lineKey l) : line ∈ l := by
  rcases (mem_insertInto (l := [])).mp member with ⟨none, -⟩ | ⟨before, after, parts, -⟩
  · exact absurd none List.not_mem_nil
  · rw [parts]
    exact List.mem_append_right before List.mem_cons_self

theorem insertAll_self {l : LineList} (sorted : KeySorted lineKey l) : insertAll lineKey l = l := by
  induction l using List.reverseRecOn with
  | nil => rfl
  | append_singleton l line ih =>
      rcases List.pairwise_append.mp sorted with ⟨front, -, below⟩
      rw [insertAll_snoc, ih front, insertKey_of_above fun a member => below a member line List.mem_cons_self]

/-- Exactly the packable lists are unpacked as they were. -/
theorem unpack_eq_iff {l : LineList} : unpack l = l ↔ Packable l := by
  rw [unpack, LineList.split_eq_insertAll]
  constructor
  · intro same
    refine ⟨same ▸ KeySorted.insertAll lineKey _, fun line member => ?_⟩
    rw [← same] at member
    rcases List.mem_filter.mp (mem_insertAll member) with ⟨trimmed, kept⟩
    rcases List.mem_map.mp trimmed with ⟨piece, inside, rfl⟩
    rw [Bool.and_eq_true] at kept
    exact ⟨trimSpace_trimSpace piece, of_decide_eq_true kept.1, of_decide_eq_true kept.2,
      fun d here => not_mem_of_mem_pieces inside d (trimSpace_subset piece here)⟩
  · intro packable
    have parts := pieces_flatMap (fun line member => (packable.lines line member).unbroken)
      (by decide : (10 : UInt8) ∈ lineEnds) []
    rw [List.append_nil, pieces, List.append_nil] at parts
    have trimmed : l.map trimSpace = l :=
      (List.map_congr_left fun line member => (packable.lines line member).trimmed).trans (List.map_id l)
    have kept : LineList.keptPieces lineEnds (l.flatMap (· ++ [10])) = l := by
      rw [LineList.keptPieces, parts, trimmed]
      refine List.filter_eq_self.mpr fun line member => ?_
      rcases packable.lines line member with ⟨-, shown, noComment, -⟩
      simp [shown, noComment]
    rw [kept, insertAll_self packable.sorted]

/-! ## Lines that are put in -/

open LineList

/-- A key that ends before another one does is below what goes on with a smaller byte. -/
theorem lt_of_lt_append {x p rest : List ℕ} {c : ℕ} (large : ∀ d ∈ x, c < d) (other : p ≠ x)
    (above : x < p ++ c :: rest) : x < p := by
  induction x generalizing p with
  | nil =>
      rcases p with _ | ⟨b, p⟩
      · exact absurd rfl other
      · exact List.nil_lt_cons b p
  | cons a x ih =>
      rcases p with _ | ⟨b, p⟩
      · have larger := large a List.mem_cons_self
        rcases List.cons_lt_cons_iff.mp above with less | ⟨same, -⟩ <;> omega
      · rcases List.cons_lt_cons_iff.mp above with less | ⟨rfl, rest⟩
        · exact List.cons_lt_cons_iff.mpr (.inl less)
        · have tails := ih (fun d member => large d (List.mem_cons_of_mem a member))
            (fun same => other (congrArg (a :: ·) same)) rest
          exact List.cons_lt_cons_iff.mpr (.inr ⟨rfl, tails⟩)

/-- The two keys of a line: a blank, a tab or an `@` may end the shorter one. -/
theorem hashKey_eq_or (line : Bytes) :
    hashKey line = lineKey line ∨ ∃ c rest, c ≤ 64 ∧ hashKey line = lineKey line ++ c :: rest := by
  have table : optionValueSep.all (fun c => decide ((toLower c).toNat ≤ 64)) = true := rfl
  have small : ∀ c ∈ optionValueSep, (toLower c).toNat ≤ 64 := by simpa using table
  unfold hashKey lineKey keyOf
  induction line with
  | nil => exact .inl rfl
  | cons c line ih =>
      by_cases option : c ∈ optionValueSep
      · rw [List.takeWhile_cons_of_neg (p := (!optionValueSep.contains ·)) (by simp [option])]
        by_cases hash : c ∈ hashValueSep
        · rw [List.takeWhile_cons_of_neg (p := (!hashValueSep.contains ·)) (by simp [hash])]
          exact .inl rfl
        · rw [List.takeWhile_cons_of_pos (p := (!hashValueSep.contains ·)) (by simp [hash])]
          exact .inr ⟨_, _, small c option, rfl⟩
      · have other : c ∉ hashValueSep := fun hash => option (isSeparator_hashValueSep.most c hash)
        rw [List.takeWhile_cons_of_pos (p := (!optionValueSep.contains ·)) (by simp [option]),
          List.takeWhile_cons_of_pos (p := (!hashValueSep.contains ·)) (by simp [other])]
        rcases ih with same | ⟨d, rest, least, longer⟩
        · exact .inl (congrArg ((toLower c).toNat :: ·) same)
        · exact .inr ⟨d, rest, least, congrArg ((toLower c).toNat :: ·) longer⟩

/-- A line that is put in between others. -/
structure Field (line : Bytes) : Prop where
  clear : Clear line
  letters : ∀ d ∈ lineKey line, 64 < d

theorem Field.hashKey_eq {line : Bytes} (field : Field line) : hashKey line = lineKey line :=
  congrArg foldCase field.clear

theorem packable_insertKey {line : Bytes} {l : LineList} (sorted : KeySorted hashKey l) (field : Field line) :
    Packable (insertKey hashKey line l) ↔ Packable (eraseKey hashKey (lineKey line) l) ∧
      (∀ other ∈ eraseKey hashKey (lineKey line) l, lineKey other ≠ lineKey line) ∧ Whole line := by
  rcases sorted.exists_around (hashKey line) with ⟨lows, found, highs, around⟩
  have erased := around.eraseKey_eq
  rw [field.hashKey_eq] at erased
  rw [around.insertKey_eq, erased]
  have below : ∀ other ∈ lows, lineKey other < lineKey line := by
    intro other member
    have less := around.low other member
    rw [field.hashKey_eq] at less
    rcases hashKey_eq_or other with same | ⟨c, rest, -, longer⟩
    · exact same ▸ less
    · exact (not_lt.mp List.le_append_left).trans_lt (longer ▸ less)
  constructor
  · intro packable
    rcases List.pairwise_append.mp packable.sorted with ⟨front, back, order⟩
    rcases List.pairwise_cons.mp back with ⟨above, back⟩
    refine ⟨⟨List.pairwise_append.mpr ⟨front, back, fun a left b right => order a left b (List.mem_cons_of_mem line right)⟩,
      fun other member => packable.lines other ?_⟩, fun other member => ?_, packable.lines line (by simp)⟩
    · rcases List.mem_append.mp member with left | right
      · exact List.mem_append_left _ left
      · exact List.mem_append_right _ (List.mem_cons_of_mem line right)
    · rcases List.mem_append.mp member with left | right
      · exact (below other left).ne
      · exact (above other right).ne'
  · rintro ⟨packable, apart, whole⟩
    rcases List.pairwise_append.mp packable.sorted with ⟨front, back, order⟩
    refine ⟨List.pairwise_append.mpr ⟨front, List.pairwise_cons.mpr ⟨fun other member => ?_, back⟩,
      fun a left b right => ?_⟩, fun other member => ?_⟩
    · have greater := around.high other member
      rw [field.hashKey_eq] at greater
      have different := apart other (List.mem_append_right lows member)
      rcases hashKey_eq_or other with same | ⟨c, rest, least, longer⟩
      · exact same ▸ greater
      · exact lt_of_lt_append (fun d inside => least.trans_lt (field.letters d inside)) different (longer ▸ greater)
    · rcases List.mem_cons.mp right with rfl | inside
      · exact below a left
      · exact order a left b inside
    · rcases List.mem_append.mp member with left | right
      · exact packable.lines other (List.mem_append_left highs left)
      · rcases List.mem_cons.mp right with rfl | inside
        · exact whole
        · exact packable.lines other (List.mem_append_right lows inside)

/-- The lines whose keys are none of the given ones. -/
def without (keys : List (List ℕ)) (l : LineList) : LineList := l.filter (hashKey · ∉ keys)

theorem KeySorted.without {keys : List (List ℕ)} {l : LineList} (sorted : KeySorted hashKey l) :
    KeySorted hashKey (without keys l) := List.Pairwise.filter _ sorted

theorem without_insertKey {line : Bytes} {keys : List (List ℕ)} {l : LineList} (other : hashKey line ∉ keys) :
    without keys (insertKey hashKey line l) = insertKey hashKey line (without keys l) := by
  unfold without insertKey
  have kept : decide (hashKey line ∉ keys) = true := decide_eq_true other
  rw [List.filter_append, List.filter_cons, if_pos kept, List.filter_filter, List.filter_filter, List.filter_filter,
    List.filter_filter]
  congr 1
  · exact List.filter_congr fun a _ => Bool.and_comm _ _
  · exact congrArg (line :: ·) (List.filter_congr fun a _ => Bool.and_comm _ _)

/-- Lines are put in and packed if what they leave of the list is, and is found by other keys. -/
theorem packable_insertInto {fields l : LineList} (sorted : KeySorted hashKey l)
    (clear : ∀ line ∈ fields, Field line) (distinct : (fields.map lineKey).Nodup) :
    Packable (insertInto hashKey l fields) ↔ Packable (without (fields.map lineKey) l) ∧
      (∀ other ∈ without (fields.map lineKey) l, lineKey other ∉ fields.map lineKey) ∧ ∀ line ∈ fields, Whole line := by
  induction fields generalizing l with
  | nil =>
      have all : without [] l = l := List.filter_eq_self.mpr fun line _ => decide_eq_true List.not_mem_nil
      simp [insertInto, all]
  | cons line fields ih =>
      have field := clear line List.mem_cons_self
      rcases List.nodup_cons.mp distinct with ⟨apart, rest⟩
      have others : hashKey line ∉ fields.map lineKey := field.hashKey_eq ▸ apart
      have erased : eraseKey hashKey (lineKey line) (without (fields.map lineKey) l) =
          without ((line :: fields).map lineKey) l := by
        rw [eraseKey, without, without, List.filter_filter]
        exact List.filter_congr fun a _ => by simp
      have inner : ∀ {other}, other ∈ insertKey hashKey line (without (fields.map lineKey) l) ↔
          other = line ∨ other ∈ without ((line :: fields).map lineKey) l := by
        intro other
        rw [mem_insertKey, ← erased, mem_eraseKey, field.hashKey_eq]
      have run : insertInto hashKey l (line :: fields) = insertInto hashKey (insertKey hashKey line l) fields := rfl
      rw [run, ih sorted.insertKey (fun other member => clear other (List.mem_cons_of_mem line member)) rest,
        without_insertKey others, packable_insertKey (KeySorted.without sorted) field, erased]
      constructor
      · rintro ⟨⟨packable, unlike, whole⟩, different, wholes⟩
        refine ⟨packable, fun other member => ?_, List.forall_mem_cons.mpr ⟨whole, wholes⟩⟩
        refine List.not_mem_cons_of_ne_of_not_mem (unlike other member) ?_
        exact different other (inner.mpr (.inr member))
      · rintro ⟨packable, different, wholes⟩
        rcases List.forall_mem_cons.mp wholes with ⟨whole, wholes⟩
        refine ⟨⟨packable, fun other member => ?_, whole⟩, fun other member => ?_, wholes⟩
        · exact List.ne_of_not_mem_cons (different other member)
        · rcases inner.mp member with rfl | inside
          · exact apart
          · exact List.not_mem_of_not_mem_cons (different other inside)

/-! ## Settings and fields -/

variable {l : LineList} {key identifier : Bytes}

/-- The lines of a group: each has a `=`, and they are in the order they were put in. -/
structure Plain (l : LineList) : Prop where
  sorted : KeySorted hashKey l
  lines : ∀ line ∈ l, 61 ∈ line ∧ 0 ∉ line

theorem plain_nil : Plain [] := ⟨keySorted_nil, fun _ => nofun⟩

theorem Plain.insert {line : Bytes} (plain : Plain l) (equals : 61 ∈ line) (clean : 0 ∉ line) :
    Plain (insertKey hashKey line l) := by
  refine ⟨plain.sorted.insertKey, fun other member => ?_⟩
  rcases mem_insertKey.mp member with rfl | ⟨inside, -⟩
  · exact ⟨equals, clean⟩
  · exact plain.lines other inside

theorem noNul_keyValue {value : Bytes} (cleanKey : 0 ∉ key) (clean : 0 ∉ value) : 0 ∉ key ++ 61 :: value := by
  intro nul
  rcases List.mem_append.mp nul with front | rest
  · exact cleanKey front
  · rcases List.mem_cons.mp rest with equal | inside
    · exact absurd equal (by decide)
    · exact clean inside

theorem Plain.setStrValue (plain : Plain l) (cleanKey : 0 ∉ key) {value : Bytes} (clean : 0 ∉ value) :
    Plain (l.setStrValue key (some value)) := by
  rw [setStrValue_hashKey plain.sorted, Option.filter_some]
  split
  · next v shown =>
      split at shown
      · rw [← Option.some.inj shown]
        exact plain.insert (by simp) (noNul_keyValue cleanKey clean)
      · cases shown
  · exact ⟨plain.sorted.eraseKey, fun line member => plain.lines line (mem_eraseKey.mp member).1⟩

theorem setFlagValue_eq (sorted : KeySorted hashKey l) (word : ∀ d ∈ key, isWordChar d = true)
    (short : key.length < 480) (n : Int) : l.setFlagValue key n = insertKey hashKey (key ++ 61 :: printHex n) l := by
  rw [LineList.setFlagValue, printedLine_printHex word short]
  exact (tells_hashKey sorted _).addLineList rfl

theorem noNul_of_word (word : ∀ d ∈ key, isWordChar d = true) : 0 ∉ key := fun nul =>
  (isWordChar_visible (word 0 nul)).1 rfl

theorem Plain.insertFlag (plain : Plain l) (word : ∀ d ∈ key, isWordChar d = true) (n : Int) :
    Plain (insertKey hashKey (key ++ 61 :: printHex n) l) := by
  refine plain.insert (by simp) (noNul_keyValue (noNul_of_word word) ?_)
  exact noNul_of_word fun d member => isWordChar_of_isAlnum (isAlnum_of_mem_printHex member)

theorem Plain.setting {s : Bytes} (plain : Plain l) (clean : 0 ∉ s) : Plain (setting l s) := by
  unfold RouteFilter.setting
  split
  · exact plain.setStrValue (fun nul => clean (List.mem_of_mem_take nul)) fun nul => clean (List.mem_of_mem_drop nul)
  · split
    · next key t parts =>
        have within : ∀ sep, cutAt sep s = some (key, t) → key ⊆ s ∧ t ⊆ s := by
          intro sep cut
          unfold cutAt at cut
          split at cut
          · next c rest behind =>
              cases cut
              exact ⟨(List.takeWhile_prefix _).subset, fun d member =>
                (List.dropWhile_suffix _).subset (behind ▸ List.mem_cons_of_mem c member)⟩
          · cases cut
        have inside : key ⊆ s ∧ t ⊆ s := by
          rcases Option.or_eq_some_iff.mp parts with first | ⟨-, second⟩
          · exact within _ first
          · exact within _ second
        exact plain.setStrValue (fun nul => clean (inside.1 nul)) fun nul =>
          clean (inside.2 ((List.dropWhile_suffix _).subset nul))
    · exact plain.setStrValue clean List.not_mem_nil

theorem words : (∀ d ∈ destinationKey, isWordChar d = true) ∧ (∀ d ∈ copiesKey, isWordChar d = true) ∧
    (∀ d ∈ identifierKey, isWordChar d = true) ∧ ∀ d ∈ destinationsKey, isWordChar d = true := by
  have table : [destinationKey, copiesKey, identifierKey, destinationsKey].all (·.all isWordChar) = true := rfl
  simpa using table

/-- The lines of the fields that are added. -/
def addedFields (identifier : Bytes) (count : Nat) (l : LineList) : List Bytes :=
  (destinationKey ++ 61 :: printHex count) ::
    ((if (l.setFlagValue destinationKey count).findFlagValue copiesKey < 0 then [copiesKey ++ 61 :: printHex 0] else []) ++
      [identifierKey ++ 61 :: identifier])

theorem mem_addedFields {line : Bytes} {count : Nat} (member : line ∈ addedFields identifier count l) :
    line = destinationKey ++ 61 :: printHex count ∨ line = copiesKey ++ 61 :: printHex 0 ∨
      line = identifierKey ++ 61 :: identifier := by
  rcases List.mem_cons.mp member with index | rest
  · exact .inl index
  · rcases List.mem_append.mp rest with copies | name
    · split at copies
      · exact .inr (.inl (List.mem_singleton.mp copies))
      · cases copies
    · exact .inr (.inr (List.mem_singleton.mp name))

theorem addFields_eq (plain : Plain l) (given : identifier ≠ []) (count : Nat) :
    addFields identifier count l = insertInto hashKey l (addedFields identifier count l) := by
  rcases words with ⟨destination, copies, -, -⟩
  have index := setFlagValue_eq plain.sorted destination (by decide) count
  have after := plain.insertFlag destination count
  have none := setFlagValue_eq after.sorted copies (by decide) 0
  unfold addFields addedFields
  simp only [index, none]
  split
  · rw [setStrValue_hashKey (after.insertFlag copies 0).sorted, Option.filter_some, if_pos (decide_eq_true given)]
    rfl
  · rw [setStrValue_hashKey after.sorted, Option.filter_some, if_pos (decide_eq_true given)]
    rfl

theorem Plain.insertInto {fields : List Bytes} (plain : Plain l) (lines : ∀ line ∈ fields, 61 ∈ line ∧ 0 ∉ line) :
    Plain (insertInto hashKey l fields) := by
  induction fields generalizing l with
  | nil => exact plain
  | cons line fields ih =>
      rcases List.forall_mem_cons.mp lines with ⟨first, rest⟩
      exact ih (plain.insert first.1 first.2) rest

theorem Plain.addFields (plain : Plain l) (given : identifier ≠ []) (clean : 0 ∉ identifier) (count : Nat) :
    Plain (addFields identifier count l) := by
  rcases words with ⟨destination, copies, name, -⟩
  have printed : ∀ n, 0 ∉ printHex n := fun n =>
    noNul_of_word fun d member => isWordChar_of_isAlnum (isAlnum_of_mem_printHex member)
  rw [addFields_eq plain given]
  refine plain.insertInto fun line member => ?_
  rcases mem_addedFields member with rfl | rfl | rfl
  · exact ⟨by simp, noNul_keyValue (noNul_of_word destination) (printed count)⟩
  · exact ⟨by simp, noNul_keyValue (noNul_of_word copies) (printed 0)⟩
  · exact ⟨by simp, noNul_keyValue (noNul_of_word name) clean⟩

/-- A flag is 0 if its own line says so: what else is found by its name has no number behind it. -/
theorem findFlagValue_zero (lines : ∀ line ∈ l, 61 ∈ line)
    (own : ∀ line ∈ l, hashKey line = foldCase key → ∃ front s, line = front ++ 61 :: s ∧
      (∀ c ∈ front, c ∉ optionValueSep) ∧ flagOfText (s.dropWhile isSpace) = 0) : l.findFlagValue key = 0 := by
  unfold LineList.findFlagValue findValue
  split
  · next m found =>
      rcases exists_of_findFirstKey found with ⟨line, entry, same⟩
      have member := List.mem_of_getElem? entry
      rw [List.getD_eq_getElem?_getD, entry, Option.getD_some]
      have equals : 61 ∈ line.dropWhile (!optionValueSep.contains ·) := mem_dropWhile rfl (lines line member)
      rcases rest : line.dropWhile (!optionValueSep.contains ·) with _ | ⟨c, s⟩
      · rw [rest] at equals
        cases equals
      · rw [rest] at equals
        by_cases here : c = 61
        · have parts : line = line.takeWhile (!optionValueSep.contains ·) ++ 61 :: s := by
            rw [← here, ← rest, List.takeWhile_append_dropWhile]
          have free : SepFree (line.takeWhile (!optionValueSep.contains ·)) := by
            intro d inside
            simpa using List.mem_takeWhile_imp inside
          have keys : hashKey line = foldCase key := by
            rw [← same, hashKey, parts, keyOf_keyValue free isSeparator_hashValueSep,
              keyOf_keyValue free isSeparator_optionValueSep]
          rcases own line member keys with ⟨front, value, shape, plain, zero⟩
          have text : valueOf (_ ++ 61 :: value) = some value := valueOf_keyValue plain
          have text' : valueOf (_ ++ 61 :: s) = some s := valueOf_keyValue free
          rw [← shape] at text
          rw [← parts, text] at text'
          rw [here, fixVal, if_neg (by decide), ← Option.some.inj text']
          exact zero
        · rw [fixVal]
          split
          · decide
          · exact flagOfText_of_mem (mem_dropWhile rfl (List.mem_of_ne_of_mem (Ne.symm here) equals))
  · decide

/-- The first destination is packed into the field for index 0. -/
theorem findFlagValue_addFields (plain : Plain l) (given : identifier ≠ []) (clean : 0 ∉ identifier) :
    (addFields identifier 0 l).findFlagValue destinationKey = 0 := by
  have lines := (plain.addFields given clean 0).lines
  have apart : foldCase identifierKey ≠ foldCase destinationKey ∧ foldCase copiesKey ≠ foldCase destinationKey ∧
      flagOfText ((printHex (0 : Nat)).dropWhile isSpace) = 0 := by
    decide
  rcases words with ⟨destination, copies, name, -⟩
  refine findFlagValue_zero (fun line member => (lines line member).1) fun line member same => ?_
  have keyed : ∀ {key value : Bytes}, (∀ d ∈ key, isWordChar d = true) →
      hashKey (key ++ 61 :: value) = foldCase key := fun word =>
    congrArg foldCase (keyOf_keyValue (sepFree_of_word word) isSeparator_hashValueSep)
  have index : line = destinationKey ++ 61 :: printHex (0 : Nat) := by
    rw [addFields_eq plain given] at member
    rcases mem_insertInto.mp member with ⟨-, other⟩ | ⟨before, after, parts, -⟩
    · exact absurd (same.trans (keyed destination).symm) (other _ List.mem_cons_self).symm
    · rcases mem_addedFields (parts ▸ List.mem_append_right before List.mem_cons_self) with own | rfl | rfl
      · exact own
      · exact absurd ((keyed copies).symm.trans same) apart.2.1
      · exact absurd ((keyed name).symm.trans same) apart.1
  exact ⟨destinationKey, printHex (0 : Nat), index, sepFree_of_word destination, apart.2.2⟩

/-! ## Groups that are packed -/

/-- The keys that the first destination of a job is given, whatever the filter set for them. -/
def addedKeys (l : LineList) : List (List ℕ) :=
  (destinationKey ::
    ((if (l.setFlagValue destinationKey 0).findFlagValue copiesKey < 0 then [copiesKey] else []) ++ [identifierKey])).map
    foldCase

/-- The settings stay when they are packed with the fields that are added. -/
structure Packs (id : Bytes) (l : LineList) : Prop where
  identifier : ∀ d ∈ id, d ∉ lineEnds
  kept : Packable (without (addedKeys l) l)
  apart : ∀ line ∈ without (addedKeys l) l, lineKey line ∉ addedKeys l

theorem map_lineKey_addedFields : (addedFields identifier 0 l).map lineKey = addedKeys l := by
  rcases words with ⟨destination, copies, name, -⟩
  have keyed : ∀ {key value : Bytes}, (∀ d ∈ key, isWordChar d = true) → lineKey (key ++ 61 :: value) = foldCase key :=
    fun word => lineKey_keyValue (sepFree_of_word word) _
  have zero : ((0 : Nat) : Int) = 0 := rfl
  unfold addedFields addedKeys
  rw [List.map_cons, List.map_cons, keyed destination, List.map_append, List.map_append, List.map_singleton,
    List.map_singleton, keyed name, zero]
  split
  · rw [List.map_singleton, List.map_singleton, keyed copies]
  · rfl

theorem field_keyValue {value : Bytes} (word : ∀ d ∈ key, isWordChar d = true) (letters : ∀ d ∈ foldCase key, 64 < d) :
    Field (key ++ 61 :: value) := by
  have free := sepFree_of_word word
  exact ⟨clear_keyValue free value, fun d member => letters d (lineKey_keyValue free value ▸ member)⟩

/-- The line of an identifier with a number behind it is whole if the identifier has no line ends. -/
theorem whole_identifier {id : Bytes} :
    Whole (identifierKey ++ 61 :: (id ++ [46, 49])) ↔ ∀ d ∈ id, d ∉ lineEnds := by
  have parts : identifierKey ++ 61 :: (id ++ [46, 49]) = [65, 61] ++ id ++ [46, 49] := rfl
  rw [parts]
  constructor
  · exact fun whole d member => whole.unbroken d (List.mem_append_left _ (List.mem_append_right _ member))
  · intro clean
    refine ⟨trimSpace_of_clean (fun d first => ?_) fun d last => ?_, List.cons_ne_nil _ _, by simp, fun d member => ?_⟩
    · rw [← Option.some.inj first]
      rfl
    · rw [List.getLast?_append_of_ne_nil _ (List.cons_ne_nil _ _)] at last
      rw [← Option.some.inj last]
      rfl
    · have table : ([65, 61, 46, 49] : Bytes).all (fun d => decide (d ∉ lineEnds)) = true := rfl
      have ends : ∀ d ∈ [65, 61, 46, 49], d ∉ lineEnds := fun d here => of_decide_eq_true (List.all_eq_true.mp table d here)
      rcases List.mem_append.mp member with front | number
      · rcases List.mem_append.mp front with start | inside
        · exact ends d (List.mem_append_left [46, 49] start)
        · exact clean d inside
      · exact ends d (List.mem_append_right [65, 61] number)

theorem packable_addFields {id : Bytes} (plain : Plain l) :
    Packable (addFields (id ++ [46, 49]) 0 l) ↔ Packs id l := by
  rcases words with ⟨destination, copies, name, -⟩
  have letters : ∀ key ∈ [destinationKey, copiesKey, identifierKey], ∀ d ∈ foldCase key, 64 < d := by decide
  have fields : ∀ line ∈ addedFields (id ++ [46, 49]) 0 l, Field line := by
    intro line member
    rcases mem_addedFields member with rfl | rfl | rfl
    · exact field_keyValue destination (letters _ (by simp))
    · exact field_keyValue copies (letters _ (by simp))
    · exact field_keyValue name (letters _ (by simp))
  have distinct : ((addedFields (id ++ [46, 49]) 0 l).map lineKey).Nodup := by
    rw [map_lineKey_addedFields, addedKeys]
    split <;> decide
  have whole : (∀ line ∈ addedFields (id ++ [46, 49]) 0 l, Whole line) ↔ ∀ d ∈ id, d ∉ lineEnds := by
    constructor
    · intro wholes
      exact whole_identifier.mp (wholes _ (by simp [addedFields]))
    · intro clean line member
      have flags : Whole (destinationKey ++ 61 :: printHex (0 : Nat)) ∧ Whole (copiesKey ++ 61 :: printHex 0) := by
        decide
      rcases mem_addedFields member with rfl | rfl | rfl
      · exact flags.1
      · exact flags.2
      · exact whole_identifier.mpr clean
  rw [addFields_eq plain (by simp), packable_insertInto plain.sorted fields distinct, map_lineKey_addedFields, whole]
  exact ⟨fun ⟨kept, apart, clean⟩ => ⟨clean, kept, apart⟩, fun ⟨clean, kept, apart⟩ => ⟨kept, apart, clean⟩⟩

/-! ## Runs over the lines -/

variable {id : Bytes} {lines : List Bytes} {st : Routing}

theorem groups_ne_nil (destination : LineList) (lines : List Bytes) : groups destination lines ≠ [] := by
  cases lines with
  | nil => exact List.cons_ne_nil _ _
  | cons s lines =>
      rw [groups]
      split
      · exact List.cons_ne_nil _ _
      · exact groups_ne_nil _ lines

theorem plain_groups (plain : Plain l) (clean : ∀ s ∈ lines, 0 ∉ s) : ∀ g ∈ groups l lines, Plain g := by
  induction lines generalizing l with
  | nil =>
      intro g member
      exact List.mem_singleton.mp member ▸ plain
  | cons s lines ih =>
      rcases List.forall_mem_cons.mp clean with ⟨first, rest⟩
      intro g member
      rw [groups] at member
      split at member
      · rcases List.mem_cons.mp member with rfl | behind
        · exact plain
        · exact ih plain_nil rest g behind
      · exact ih (plain.setting first) rest g member

/-- The end of a group: `routeLine` goes on with the next one. -/
theorem routeLine_end {s : Bytes} (ends : isEnd s = true) : routeLine id st s = closeGroup 2 id st := if_pos ends

theorem routeLine_setting {s : Bytes} (other : isEnd s = false) :
    routeLine id st s = { st with destination := setting st.destination s } :=
  if_neg (other ▸ Bool.false_ne_true)

theorem given_prefix_closeGroup (size : Nat) (st : Routing) : st.given <+: (closeGroup size id st).given := by
  unfold closeGroup
  split
  · exact List.prefix_append st.given _
  · exact List.prefix_rfl

/-- Identifiers that are given stay given. -/
theorem given_prefix_foldl (lines : List Bytes) (st : Routing) : st.given <+: (lines.foldl (routeLine id) st).given := by
  induction lines generalizing st with
  | nil => exact List.prefix_rfl
  | cons s lines ih =>
      have step : st.given <+: (routeLine id st s).given := by
        by_cases ends : isEnd s
        · rw [routeLine_end ends]
          exact given_prefix_closeGroup 2 st
        · rw [routeLine_setting (Bool.eq_false_of_not_eq_true ends)]
      exact step.trans (ih (routeLine id st s))

/-- The first group that is ended and names a destination is given what fits into two bytes. -/
theorem given_of_ended (ended : ∃ g ∈ (groups st.destination lines).dropLast, namesDest g = true) :
    st.given ++ [id ++ [46]] <+: (lines.foldl (routeLine id) st).given := by
  induction lines generalizing st with
  | nil =>
      rcases ended with ⟨g, member, -⟩
      cases member
  | cons s lines ih =>
      rw [groups] at ended
      rw [List.foldl_cons]
      by_cases ends : isEnd s
      · rw [if_pos ends, List.dropLast_cons_of_ne_nil (groups_ne_nil [] lines)] at ended
        rw [routeLine_end ends, closeGroup]
        by_cases here : namesDest st.destination
        · have dot : numbered 2 id st.count = id ++ [46] := rfl
          rw [if_pos here, dot]
          exact given_prefix_foldl lines ⟨_, [], st.count + 1, st.given ++ [id ++ [46]]⟩
        · rw [if_neg here]
          rcases ended with ⟨g, member, names⟩
          rcases List.mem_cons.mp member with rfl | behind
          · exact absurd names here
          · have later : ∃ g ∈ (groups ({ st with destination := [] } : Routing).destination lines).dropLast,
                namesDest g = true := ⟨g, behind, names⟩
            exact ih later
      · rw [if_neg ends] at ended
        rw [routeLine_setting (Bool.eq_false_of_not_eq_true ends)]
        have later : ∃ g ∈ (groups ({ st with destination := setting st.destination s } : Routing).destination
            lines).dropLast, namesDest g = true := ended
        exact ih later

/-- Without such a group, only the group that is read changes. -/
theorem foldl_routeLine (unnamed : ∀ g ∈ (groups st.destination lines).dropLast, namesDest g = false) :
    lines.foldl (routeLine id) st =
      { st with destination := (groups st.destination lines).getLast (groups_ne_nil _ _) } := by
  induction lines generalizing st with
  | nil => rfl
  | cons s lines ih =>
      rw [List.foldl_cons]
      by_cases ends : isEnd s
      · have parts : groups st.destination (s :: lines) = st.destination :: groups [] lines := if_pos ends
        simp only [parts, List.dropLast_cons_of_ne_nil (groups_ne_nil [] lines)] at unnamed
        rcases List.forall_mem_cons.mp unnamed with ⟨here, rest⟩
        have cleared := @ih { st with destination := [] } rest
        rw [routeLine_end ends, closeGroup, if_neg (here ▸ Bool.false_ne_true), cleared]
        simp only [parts, List.getLast_cons (groups_ne_nil [] lines)]
      · have parts : groups st.destination (s :: lines) = groups (setting st.destination s) lines := if_neg ends
        have set_ := @ih { st with destination := setting st.destination s } (parts ▸ unnamed)
        rw [routeLine_setting (Bool.eq_false_of_not_eq_true ends), set_]
        simp only [parts]

/-! ## What a job is routed to -/

/-- The identifier of a destination. -/
def identifierOf (id : Bytes) (k : Nat) : Bytes := id ++ 46 :: printNat 10 (k + 1)

/-- The destinations of a job are the groups that name one, with their settings and with identifiers that
tell them apart. -/
structure Routed (id : Bytes) (lines : List Bytes) (routed : Routing) : Prop where
  count : routed.info.findFlagValue destinationsKey = (named lines).length
  settings : ∀ (k : Nat) (settings : LineList), (named lines)[k]? = some settings →
    (DestJob.mk routed.info []).getDestination k = (⟨routed.info, addFields (identifierOf id k) k settings⟩, true)
  identifiers : routed.given = (List.range (named lines).length).map (identifierOf id)
  distinct : routed.given.Nodup

theorem addFields_ne_nil (plain : Plain l) (given : identifier ≠ []) (count : Nat) :
    addFields identifier count l ≠ [] := by
  rw [addFields_eq plain given]
  have member : identifierKey ++ 61 :: identifier ∈ insertInto hashKey l (addedFields identifier count l) :=
    mem_insertInto.mpr (.inr ⟨_, [], (List.cons_append).symm, fun _ => nofun⟩)
  exact List.ne_nil_of_mem member

/-- What is packed into the field of a destination is read back from it, and what it is unpacked to. -/
theorem getDestination_packed {info : LineList} {count : Nat} (keyed : info.Keyed) (plain : Plain l) (shown : l ≠ [])
    (index : l.findFlagValue destinationKey = count) :
    let packed := (DestJob.mk info l).updateDestination.info
    packed.Keyed ∧ ∃ text, packed.findStrValue (destName count) = some text ∧ unescape text = l.flatMap (· ++ [10]) := by
  intro packed
  rcases updateDestination_info keyed (fun line member => List.ne_nil_of_mem (plain.lines line member).1)
    (fun line member => (plain.lines line member).2) shown with ⟨text, read, stored⟩
  have clear := clear_keyValue (sepFree_destName (count : Int)) text
  rw [index] at stored
  have same : packed = insertKey lineKey (destName count ++ 61 :: text) info := stored
  rw [same]
  refine ⟨keyed.insert clear, text, ?_, read⟩
  rw [keyed.findStrValue_insert clear, lineKey_keyValue (sepFree_destName _), if_pos rfl,
    valueOf_keyValue (sepFree_destName _)]

/-- The number of destinations is read back, and the destinations stay. -/
theorem setFlagValue_destinations {info : LineList} (keyed : info.Keyed) {count : Nat} (fits : count < 2 ^ 31) (k : Nat) :
    (info.setFlagValue destinationsKey count).findFlagValue destinationsKey = count ∧
      (info.setFlagValue destinationsKey count).findStrValue (destName k) = info.findStrValue (destName k) := by
  have word := words.2.2.2
  have free := sepFree_of_word word
  have clear := clear_keyValue free (printHex count)
  have added : info.setFlagValue destinationsKey count =
      insertKey lineKey (destinationsKey ++ 61 :: printHex count) info := by
    rw [LineList.setFlagValue, printedLine_printHex word (by decide)]
    exact keyed.addLineList isSeparator_hashValueSep clear
  have found : LineList.findStrValue _ destinationsKey = _ := keyed.findStrValue_insert clear
  have others : LineList.findStrValue _ (destName k) = _ := keyed.findStrValue_insert clear
  rw [lineKey_keyValue free] at found others
  rw [if_pos rfl, valueOf_keyValue free] at found
  rw [added]
  refine ⟨?_, others.trans (if_neg ?_)⟩
  · rw [findFlagValue_of_findStrValue found (fun c first => ?_), flagOfText_printHex (by omega), toInt32_of_small fits]
    rw [← Option.some.inj first]
    rfl
  · intro same
    have start : foldCase destinationsKey = foldCase (lit "DEST") ++ foldCase (lit "inations") := rfl
    have digits : foldCase (printInt k) = foldCase (lit "inations") := by
      rw [start, destName, foldCase, List.map_append] at same
      exact List.append_cancel_left same
    rw [foldCase_printInt] at digits
    have letter : (105 : ℕ) ∈ (printInt k).map UInt8.toNat := digits ▸ List.mem_cons_self
    rcases List.mem_map.mp letter with ⟨c, member, value⟩
    have here : c = 105 := UInt8.toNat_inj.mp value
    rcases digit_of_mem_printInt member with digit | minus
    · rw [here] at digit
      cases digit
    · exact absurd (here.symm.trans minus) (by decide)

theorem clean_readLines (text : Bytes) : ∀ s ∈ readLines text, 0 ∉ s := by
  intro s member nul
  rw [readLines, split_pieces] at member
  have inside : (0 : UInt8) ∈ text.takeWhile (· ≠ 0) := pieces_subset member nul
  have other := List.mem_takeWhile_imp inside
  simp at other

/-- A group that is ended spoils the identifiers. -/
theorem not_routed_of_ended {routed : Routing} (start : [id ++ [46]] <+: routed.given) : ¬ Routed id lines routed := by
  intro right
  rcases start with ⟨rest, given⟩
  rw [right.identifiers] at given
  rcases count : (named lines).length with _ | n
  · rw [count] at given
    cases given
  · rw [count, List.range_succ_eq_map, List.map_cons] at given
    have first : [46] = 46 :: printNat 10 (0 + 1) := List.append_cancel_left (List.cons.inj given).1
    exact printNat_ne_nil (by decide) 1 (List.cons.inj first).2.symm

theorem named_of_unnamed (unnamed : ∀ g ∈ (groups [] lines).dropLast, namesDest g = false) :
    named lines = [(groups [] lines).getLast (groups_ne_nil [] lines)].filter namesDest := by
  have none : (groups [] lines).dropLast.filter namesDest = [] :=
    List.filter_eq_nil_iff.mpr fun g member => unnamed g member ▸ Bool.false_ne_true
  have parts := List.dropLast_append_getLast (groups_ne_nil [] lines)
  have kept := congrArg (List.filter namesDest) parts
  rw [List.filter_append, none, List.nil_append] at kept
  exact kept.symm

/-- The end of the text after groups that name no destination. -/
theorem routed_last_iff {info g : LineList} (keyed : info.Keyed) (plain : Plain g) (given : id ≠ []) (clean : 0 ∉ id)
    (last : named lines = [g].filter namesDest) :
    let st := closeGroup 32 id ⟨info, g, 0, []⟩
    Routed id lines { st with info := st.info.setFlagValue destinationsKey st.count } ↔
      (namesDest g = true → Packs id g) := by
  intro st
  by_cases names : namesDest g
  · have one : named lines = [g] := last.trans (List.filter_cons_of_pos names)
    have digits : plpSnprintf 32 (46 :: printInt ((0 : Nat) + 1)) = [46, 49] ∧ 46 :: printNat 10 (0 + 1) = [46, 49] := by
      decide
    have dot : numbered 32 id 0 = id ++ [46, 49] := congrArg (id ++ ·) digits.1
    have own : identifierOf id 0 = id ++ [46, 49] := congrArg (id ++ ·) digits.2
    have shown : id ++ [46, 49] ≠ [] := List.append_ne_nil_of_left_ne_nil given _
    have noNul : 0 ∉ id ++ [46, 49] := fun nul => (List.mem_append.mp nul).elim clean (by decide)
    have closed : st = ⟨(DestJob.mk info (addFields (id ++ [46, 49]) 0 g)).updateDestination.info, [], 1,
        [id ++ [46, 49]]⟩ := by
      unfold st closeGroup
      simp only [names, if_true, dot, List.nil_append]
    rcases getDestination_packed keyed (plain.addFields shown noNul 0) (addFields_ne_nil plain shown 0)
      (findFlagValue_addFields plain shown noNul) with ⟨packed, text, found, read⟩
    have flags := setFlagValue_destinations packed (by decide : 1 < 2 ^ 31) 0
    rw [closed]
    generalize (DestJob.mk info (addFields (id ++ [46, 49]) 0 g)).updateDestination.info = packedInfo at packed found flags
    have unpacked : (DestJob.mk (packedInfo.setFlagValue destinationsKey (1 : Nat)) []).getDestination (0 : Nat) =
        (⟨packedInfo.setFlagValue destinationsKey (1 : Nat), unpack (addFields (id ++ [46, 49]) 0 g)⟩, true) := by
      unfold DestJob.getDestination
      dsimp only
      rw [flags.2, found]
      dsimp only
      rw [read]
      rfl
    constructor
    · intro right _
      have whole := right.settings 0 g (one ▸ rfl)
      rw [own] at whole
      have kept : unpack (addFields (id ++ [46, 49]) 0 g) = addFields (id ++ [46, 49]) 0 g :=
        congrArg (·.1.destination) (unpacked.symm.trans whole)
      exact (packable_addFields plain).mp (unpack_eq_iff.mp kept)
    · intro packs
      have kept := unpack_eq_iff.mpr ((packable_addFields plain).mpr (packs names))
      refine ⟨one ▸ flags.1, fun k settings entry => ?_, ?_, List.nodup_singleton _⟩
      · rw [one] at entry
        rcases k with _ | k
        · rw [← Option.some.inj entry, own, ← kept]
          exact unpacked
        · cases entry
      · rw [one]
        exact congrArg ([·]) own.symm
  · have none : named lines = [] := last.trans (List.filter_cons_of_neg names)
    have closed : st = ⟨info, [], 0, []⟩ := by
      unfold st closeGroup
      rw [if_neg names]
    rw [closed]
    refine ⟨fun _ shown => absurd shown names, fun _ => ⟨?_, fun k settings entry => ?_, ?_, List.nodup_nil⟩⟩
    · rw [none]
      exact (setFlagValue_destinations keyed (by decide : 0 < 2 ^ 31) 0).1
    · rw [none] at entry
      cases entry
    · rw [none]
      rfl

/-- The destinations are right if only the last group names one, and has settings that stay when they are
packed. -/
theorem getRoute_routed_iff {info : LineList} {text : Bytes} {routed : Routing} (keyed : info.Keyed)
    (clean : ∀ line ∈ info, 0 ∉ line) (name : info.findStrValue identifierKey = some id)
    (ran : getRoute info text = some routed) :
    Routed id (readLines text) routed ↔ (∀ g ∈ (groups [] (readLines text)).dropLast, namesDest g = false) ∧
      ∀ g ∈ (groups [] (readLines text)).getLast?, namesDest g = true → Packs id g := by
  have noNul : 0 ∉ id := by
    rcases exists_of_findStrValue name with ⟨line, member, -, value⟩
    exact fun nul => clean line member (valueOf_subset value nul)
  have plain := plain_groups plain_nil (clean_readLines text)
  have whole : ∃ st, st = closeGroup 32 id ((readLines text).foldl (routeLine id) ⟨info, [], 0, []⟩) ∧ id ≠ [] ∧
      routed = { st with info := st.info.setFlagValue destinationsKey st.count } := by
    unfold getRoute at ran
    rw [name] at ran
    rcases id with _ | ⟨c, id⟩
    · cases ran
    · exact ⟨_, rfl, List.cons_ne_nil c id, (Option.some.inj ran).symm⟩
  rcases whole with ⟨st, closed, given, rfl⟩
  generalize readLines text = lines at plain closed
  by_cases unnamed : ∀ g ∈ (groups [] lines).dropLast, namesDest g = false
  · have last := List.getLast?_eq_some_getLast (groups_ne_nil [] lines)
    have unchanged : (lines.foldl (routeLine id) ⟨info, [], 0, []⟩) = _ := foldl_routeLine unnamed
    rw [closed, unchanged]
    refine (routed_last_iff keyed (plain _ (List.getLast_mem _)) given noNul (named_of_unnamed unnamed)).trans ?_
    rw [last]
    constructor
    · intro packs
      exact ⟨unnamed, fun g here => Option.some.inj here ▸ packs⟩
    · intro right
      exact right.2 _ rfl
  · have ended : ∃ g ∈ (groups [] lines).dropLast, namesDest g = true := by
      simpa using unnamed
    have start : _ <+: (lines.foldl (routeLine id) ⟨info, [], 0, []⟩).given := given_of_ended ended
    refine iff_of_false (not_routed_of_ended ?_) fun right => unnamed right.1
    rw [closed]
    exact start.trans (given_prefix_closeGroup 32 _)

/-! ## Two printers -/

def papaInfo : LineList := [lit "A=papa@h1+23"]

/-- A destination whose group is ended by the end of the text. -/
def onePrinter : Bytes := lit "dest t5\nBtesting\n"

theorem onePrinter_routed :
    ∃ routed, getRoute papaInfo onePrinter = some routed ∧ Routed (lit "papa@h1+23") (readLines onePrinter) routed := by
  have keyed : papaInfo.Keyed := ⟨List.pairwise_singleton _ _, List.forall_mem_singleton.mpr rfl⟩
  have read : (getRoute papaInfo onePrinter).isSome = true ∧ papaInfo.findStrValue identifierKey = some (lit "papa@h1+23") ∧
      groups [] (readLines onePrinter) = [[lit "B=testing", lit "dest=t5"]] ∧
      without (addedKeys [lit "B=testing", lit "dest=t5"]) [lit "B=testing", lit "dest=t5"] =
        [lit "B=testing", lit "dest=t5"] ∧
      (∀ line ∈ [lit "B=testing", lit "dest=t5"], lineKey line ∉ addedKeys [lit "B=testing", lit "dest=t5"] ∧ Whole line) ∧
      lineKey (lit "B=testing") < lineKey (lit "dest=t5") ∧
      (∀ line ∈ papaInfo, 0 ∉ line) ∧ ∀ d ∈ lit "papa@h1+23", d ∉ lineEnds := by
    decide +kernel
  rcases read with ⟨accepted, name, parts, kept, lines, order, clean, unbroken⟩
  rcases Option.isSome_iff_exists.mp accepted with ⟨routed, ran⟩
  refine ⟨routed, ran, (getRoute_routed_iff keyed clean name ran).mpr ?_⟩
  rw [parts]
  refine ⟨fun _ => nofun, fun g last _ => ?_⟩
  have same : [lit "B=testing", lit "dest=t5"] = g := Option.some.inj last
  rw [← same]
  refine ⟨unbroken, ?_, ?_⟩
  · rw [kept]
    exact ⟨List.pairwise_pair.mpr order, fun line member => (lines line member).2⟩
  · rw [kept]
    exact fun line member => (lines line member).1

/-- Two destinations whose groups are ended. -/
def twoRoutes : Bytes := lit "dest t5\nBtesting\nend\ndest t4\nend\n"

/-- Both destinations are given one identifier, without a number. -/
theorem twoRoutes_not_routed :
    ∃ routed, getRoute papaInfo twoRoutes = some routed ∧
      routed.given = [lit "papa@h1+23.", lit "papa@h1+23."] ∧
        ¬ Routed (lit "papa@h1+23") (readLines twoRoutes) routed := by
  have read : (getRoute papaInfo twoRoutes).map (·.given) = some [lit "papa@h1+23.", lit "papa@h1+23."] := by
    decide +kernel
  rcases Option.map_eq_some_iff.mp read with ⟨routed, ran, given⟩
  refine ⟨routed, ran, given, fun right => ?_⟩
  have distinct := right.distinct
  rw [given] at distinct
  exact absurd distinct (by decide)

end RouteFilter

end LPRng
