import LPRng.PermissionTests
import LPRng.Split

/-!
# The Z options of a job

`Fix_Z_opts` changes the options of a job by the configuration: options of single letters are put in front of another
one, and of the options in the Z option some are taken out and others are put behind and in front of them.
-/

namespace LPRng

open Permission (globPattern)

namespace ZOptions

/-! ## Options of a text -/

/-- The options that a text lists between commas. -/
def options (s : Bytes) : List Bytes := (pieces (lit ",") s).filter (· ≠ [])

variable {s w a b v text old pattern : Bytes} {c d : UInt8} {vs : List Bytes}

/-- A text up to its first comma, and from there on. -/
theorem comma_induction {motive : Bytes → Prop} (last : ∀ w, (44 : UInt8) ∉ w → motive w)
    (more : ∀ w s, (44 : UInt8) ∉ w → motive s → motive (w ++ 44 :: s)) (s : Bytes) : motive s := by
  induction length : s.length using Nat.strong_induction_on generalizing s with
  | _ n ih =>
      by_cases comma : (44 : UInt8) ∈ s
      · obtain ⟨w, rest, rfl, whole⟩ := List.eq_append_cons_of_mem comma
        apply more w rest whole
        refine ih rest.length ?_ rest rfl
        rw [← length, List.length_append, List.length_cons]
        omega
      · exact last s comma

theorem whole_piece (whole : (44 : UInt8) ∉ w) : ∀ c ∈ w, c ∉ lit "," := by
  intro c member comma
  cases List.mem_singleton.mp comma
  exact whole member

theorem options_of_whole (whole : (44 : UInt8) ∉ w) : options w = [w].filter (· ≠ []) := by
  by_cases empty : w = []
  · subst empty
    rfl
  · rw [options, pieces_of_whole (whole_piece whole) empty]

theorem options_more (whole : (44 : UInt8) ∉ w) (s : Bytes) :
    options (w ++ 44 :: s) = [w].filter (· ≠ []) ++ options s := by
  have comma : (44 : UInt8) ∈ lit "," := List.mem_singleton_self _
  rw [options, pieces_append (whole_piece whole) comma, options, ← List.filter_append]
  rfl

theorem options_word (whole : (44 : UInt8) ∉ w) (shown : w ≠ []) : options w = [w] := by
  rw [options_of_whole whole]
  exact List.filter_eq_self.mpr fun v member => decide_eq_true (List.mem_singleton.mp member ▸ shown)

theorem options_comma (s : Bytes) : options (44 :: s) = options s := options_more (List.not_mem_nil) s

theorem options_cons (whole : (44 : UInt8) ∉ w) (shown : w ≠ []) (s : Bytes) :
    options (w ++ 44 :: s) = w :: options s := by
  rw [options_more whole, ← options_of_whole whole, options_word whole shown]
  rfl

/-- A comma keeps the options on both of its sides apart. -/
theorem options_join (a b : Bytes) : options (a ++ 44 :: b) = options a ++ options b := by
  induction a using comma_induction with
  | last w whole => rw [options_more whole, options_of_whole whole]
  | more w s whole ih =>
      rw [List.append_assoc, List.cons_append, options_more whole, ih, options_more whole, List.append_assoc]

/-! ## Texts behind each other -/

/-- Nothing of two texts is put together to one option where the second stands behind the first. -/
def Apart (a b : Bytes) : Prop := a = [] ∨ b = [] ∨ a.getLast? = some 44 ∨ b.head? = some 44

instance : Decidable (Apart a b) := inferInstanceAs (Decidable (_ ∨ _ ∨ _ ∨ _))

theorem options_append (apart : Apart a b) : options (a ++ b) = options a ++ options b := by
  rcases apart with rfl | rfl | last | head
  · rfl
  · rw [List.append_nil]
    exact (List.append_nil _).symm
  · obtain ⟨front, rfl⟩ := List.getLast?_eq_some_iff.mp last
    rw [List.append_assoc, List.singleton_append, options_join, options_join]
    exact congrArg (· ++ _) (List.append_nil _).symm
  · obtain ⟨rest, rfl⟩ := List.head?_eq_some_iff.mp head
    rw [options_join, options_comma]

/-- Else one option is missing. -/
theorem length_options_fused (fused : ¬ Apart a b) :
    (options (a ++ b)).length + 1 = (options a).length + (options b).length := by
  simp only [Apart, not_or] at fused
  obtain ⟨some, other, last, head⟩ := fused
  induction a using comma_induction with
  | last w whole =>
      have shown (v : Bytes) : w ++ v ≠ [] := fun empty => some (List.append_eq_nil_iff.mp empty).1
      have joined {v : Bytes} (rest : (44 : UInt8) ∉ v) : (44 : UInt8) ∉ w ++ v :=
        fun member => (List.mem_append.mp member).elim whole rest
      rw [options_word whole some]
      induction b using comma_induction with
      | last v rest =>
          rw [options_word rest other, options_word (joined rest) (shown v)]
          rfl
      | more v t rest _ =>
          have first : v ≠ [] := by
            rintro rfl
            exact head rfl
          rw [← List.append_assoc, options_cons (joined rest) (shown v), options_cons rest first]
          simp only [List.length_cons, List.length_nil]
          omega
  | more w s whole ih =>
      have shown : s ≠ [] := by
        rintro rfl
        exact last (List.getLast?_concat)
      have behind : s.getLast? ≠ Option.some 44 := by
        intro ends
        apply last
        rw [List.getLast?_append, List.getLast?_cons_of_ne_nil shown, ends]
        rfl
      have parts := ih shown behind
      rw [List.append_assoc, List.cons_append, options_join, options_join]
      simp only [List.length_append]
      omega

theorem length_options_append (a b : Bytes) :
    (options (a ++ b)).length ≤ (options a).length + (options b).length := by
  by_cases apart : Apart a b
  · rw [options_append apart, List.length_append]
  · have fused := length_options_fused apart
    omega

/-- Whether texts stand apart, each from those behind it. -/
def Parted : List Bytes → Prop
  | [] => True
  | v :: vs => Apart v vs.flatten ∧ Parted vs

/-- Texts one behind the other list the options of all of them exactly where they stand apart. -/
theorem options_flatten_iff (vs : List Bytes) : options vs.flatten = vs.flatMap options ↔ Parted vs := by
  have few (vs : List Bytes) : (options vs.flatten).length ≤ (vs.flatMap options).length := by
    induction vs with
    | nil => exact Nat.le_refl 0
    | cons v vs ih =>
        rw [List.flatten_cons, List.flatMap_cons, List.length_append]
        exact (length_options_append v vs.flatten).trans (Nat.add_le_add_left ih _)
  induction vs with
  | nil => exact iff_of_true rfl trivial
  | cons v vs ih =>
      rw [List.flatten_cons, List.flatMap_cons, Parted]
      constructor
      · intro same
        have lengths := congrArg List.length same
        rw [List.length_append] at lengths
        have apart : Apart v vs.flatten := by
          by_contra fused
          have short := length_options_fused fused
          have bound := few vs
          omega
        rw [options_append apart] at same
        exact ⟨apart, ih.mp (List.append_cancel_left same)⟩
      · intro ⟨apart, parted⟩
        rw [options_append apart, ih.mpr parted]

/-! ## Options taken out -/

/-- One pass over the options of a text: those that match the pattern are cut out of it, each with the comma behind
it. -/
def removeMatching (behind pattern s : Bytes) : Bytes :=
  let start := s.takeWhile (· ≠ 44)
  match _rest : s.dropWhile (· ≠ 44) with
  | [] => if globPattern behind pattern start then start else []
  | _ :: after =>
      if globPattern behind pattern start then start ++ 44 :: removeMatching behind pattern after
      else removeMatching behind pattern after
termination_by s.length
decreasing_by
  all_goals
    have shorter := (List.dropWhile_sublist (· ≠ 44) (l := s)).length_le
    rw [_rest, List.length_cons] at shorter
    omega

theorem removeMatching_of_whole (whole : (44 : UInt8) ∉ w) (behind pattern : Bytes) :
    removeMatching behind pattern w = if globPattern behind pattern w then w else [] := by
  have inside : ∀ c ∈ w, decide (c ≠ 44) = true := fun c member => decide_eq_true fun comma => whole (comma ▸ member)
  rw [removeMatching]
  split
  · rw [List.takeWhile_eq_self_iff.mpr inside]
  · next after found =>
      rw [List.dropWhile_eq_nil_iff.mpr inside] at found
      cases found

theorem removeMatching_more (whole : (44 : UInt8) ∉ w) (behind pattern s : Bytes) :
    removeMatching behind pattern (w ++ 44 :: s) =
      if globPattern behind pattern w then w ++ 44 :: removeMatching behind pattern s
      else removeMatching behind pattern s := by
  have inside : ∀ c ∈ w, decide (c ≠ 44) = true := fun c member => decide_eq_true fun comma => whole (comma ▸ member)
  have rest : (w ++ 44 :: s).dropWhile (· ≠ 44) = 44 :: s := List.dropWhile_append_of_pos inside
  have start : (w ++ 44 :: s).takeWhile (· ≠ 44) = w :=
    (List.takeWhile_append_of_pos inside).trans (List.append_nil w)
  rw [removeMatching]
  split
  · next found =>
      rw [rest] at found
      cases found
  · next after found =>
      rw [rest] at found
      cases found
      rw [start]

/-- The options that match are taken out. -/
theorem options_removeMatching (behind pattern s : Bytes) :
    options (removeMatching behind pattern s) = (options s).filter (globPattern behind pattern) := by
  induction s using comma_induction with
  | last w whole =>
      rw [removeMatching_of_whole whole]
      by_cases shown : w = []
      · subst shown
        rw [ite_self]
        rfl
      · rw [options_word whole shown]
        split
        · next missed => rw [options_word whole shown, List.filter_cons_of_pos missed, List.filter_nil]
        · next found =>
            rw [List.filter_cons_of_neg found, List.filter_nil]
            rfl
  | more w s whole ih =>
      rw [removeMatching_more whole]
      by_cases shown : w = []
      · subst shown
        rw [List.nil_append, List.nil_append, options_comma, ← ih]
        split
        · exact options_comma _
        · rfl
      · rw [options_cons whole shown]
        split
        · next missed => rw [options_cons whole shown, List.filter_cons_of_pos missed, ih]
        · next found => rw [List.filter_cons_of_neg found, ih]

/-! ## Commas -/

/-- Of commas one behind the other only the last stays. -/
def collapse : Bytes → Bytes
  | [] => []
  | c :: s => if c = 44 ∧ s.head? = some 44 then collapse s else c :: collapse s

def tidy (str : Bytes) : Bytes :=
  let str := collapse str
  let str := if str.head? = some 44 then str.tail else str
  if str.getLast? = some 44 then str.dropLast else str

theorem collapse_append (whole : (44 : UInt8) ∉ w) (s : Bytes) : collapse (w ++ s) = w ++ collapse s := by
  induction w with
  | nil => rfl
  | cons c w ih =>
      rw [List.mem_cons, not_or] at whole
      rw [List.cons_append, collapse, if_neg (fun comma => whole.1 comma.1.symm), ih whole.2]
      rfl

theorem collapse_eq (s : Bytes) :
    ∃ back, (back = [] ∨ back = [44] ∧ options s ≠ []) ∧
      collapse s = (if s.head? = some 44 then [44] else []) ++ (List.intercalate [44] (options s) ++ back) := by
  induction s using comma_induction with
  | last w whole =>
      have front : w.head? ≠ some 44 := fun head => whole (List.mem_of_mem_head? head)
      have stays := collapse_append whole []
      rw [collapse, List.append_nil] at stays
      refine ⟨[], .inl rfl, ?_⟩
      rw [stays, if_neg front, List.nil_append, List.append_nil]
      by_cases shown : w = []
      · rw [shown]
        rfl
      · rw [options_word whole shown, List.intercalate_singleton]
  | more w s whole ih =>
      obtain ⟨back, ends, eq⟩ := ih
      have comma : collapse (44 :: s) = 44 :: (List.intercalate [44] (options s) ++ back) := by
        rw [collapse]
        by_cases head : s.head? = some 44
        · rw [if_pos ⟨rfl, head⟩, eq, if_pos head]
          rfl
        · rw [if_neg (fun both => head both.2), eq, if_neg head]
          rfl
      rw [collapse_append whole, comma]
      rcases w with - | ⟨c, w⟩
      · rw [List.nil_append, options_comma]
        exact ⟨back, ends, rfl⟩
      · have shown : c :: w ≠ [] := List.cons_ne_nil c w
        have front : (c :: w ++ 44 :: s).head? ≠ some 44 := by
          intro head
          exact whole (Option.some.inj head ▸ List.mem_cons_self)
        rw [options_cons whole shown, if_neg front]
        by_cases none : options s = []
        · rcases ends with rfl | ⟨-, more⟩
          · refine ⟨[44], .inr ⟨rfl, List.cons_ne_nil _ _⟩, ?_⟩
            rw [none, List.intercalate_singleton]
            rfl
          · exact absurd none more
        · refine ⟨back, ends.imp id fun ends => ⟨ends.1, List.cons_ne_nil _ _⟩, ?_⟩
          rw [List.intercalate_cons_of_ne_nil none]
          simp only [List.append_assoc, List.cons_append, List.nil_append]

theorem mem_options (member : w ∈ options s) : w ≠ [] ∧ (44 : UInt8) ∉ w := by
  obtain ⟨piece, shown⟩ := List.mem_filter.mp member
  exact ⟨of_decide_eq_true shown, fun comma => not_mem_of_mem_pieces piece 44 comma (List.mem_singleton_self _)⟩

theorem intercalate_ne_nil (words : ∀ w ∈ vs, w ≠ [] ∧ (44 : UInt8) ∉ w) (some : vs ≠ []) :
    List.intercalate [44] vs ≠ [] := by
  obtain ⟨v, rest, rfl⟩ := List.exists_cons_of_ne_nil some
  have first := (words v List.mem_cons_self).1
  by_cases single : rest = []
  · rw [single, List.intercalate_singleton]
    exact first
  · rw [List.intercalate_cons_of_ne_nil single, List.append_assoc]
    exact List.append_ne_nil_of_left_ne_nil first _

/-- A list of words has no comma at its ends. -/
theorem intercalate_ends (words : ∀ w ∈ vs, w ≠ [] ∧ (44 : UInt8) ∉ w) :
    (List.intercalate [44] vs).head? ≠ some 44 ∧ (List.intercalate [44] vs).getLast? ≠ some 44 := by
  induction vs with
  | nil => exact ⟨nofun, nofun⟩
  | cons w vs ih =>
      obtain ⟨⟨shown, whole⟩, others⟩ := List.forall_mem_cons.mp words
      by_cases none : vs = []
      · rw [none, List.intercalate_singleton]
        exact ⟨fun head => whole (List.mem_of_mem_head? head), fun last => whole (List.mem_of_getLast? last)⟩
      · rw [List.intercalate_cons_of_ne_nil none]
        constructor
        · rw [List.append_assoc, List.head?_append_of_ne_nil _ shown]
          exact fun head => whole (List.mem_of_mem_head? head)
        · rw [List.getLast?_append_of_ne_nil _ (intercalate_ne_nil others none)]
          exact (ih others).2

theorem tidy_eq (s : Bytes) : tidy s = List.intercalate [44] (options s) := by
  obtain ⟨back, ends, eq⟩ := collapse_eq s
  obtain ⟨head, last⟩ := intercalate_ends fun w => mem_options (s := s) (w := w)
  have middle : (if (collapse s).head? = some 44 then (collapse s).tail else collapse s) =
      List.intercalate [44] (options s) ++ back := by
    rw [eq]
    by_cases front : s.head? = some 44
    · rw [if_pos front, List.singleton_append, List.head?_cons, if_pos rfl, List.tail_cons]
    · rw [if_neg front, List.nil_append]
      by_cases none : options s = []
      · rcases ends with rfl | ⟨-, more⟩
        · rw [none]
          rfl
        · exact absurd none more
      · have shown := intercalate_ne_nil (fun w => mem_options (s := s) (w := w)) none
        rw [List.head?_append_of_ne_nil _ shown, if_neg head]
  rw [tidy, middle]
  rcases ends with rfl | ⟨rfl, -⟩
  · rw [List.append_nil, if_neg last]
  · rw [List.getLast?_concat, if_pos rfl, List.dropLast_concat]

/-! ## The job -/

/-- The options of the configuration. -/
structure Settings where
  prefixOptionToOption : Option Bytes
  removeZ : Option Bytes
  appendZ : Option Bytes
  prefixZ : Option Bytes

/-- The value of a key is written over in its line. -/
def writeValue (info : LineList) (key value : Bytes) : LineList :=
  match info.findFirstKey key optionValueSep with
  | (.eq, mid) => info.set mid (keyOf optionValueSep (info.getD mid []) ++ 61 :: value)
  | _ => info

/-- The value of an option is put behind those found before, and the option is taken away. -/
def takeOption : Option Bytes × LineList → UInt8 → Option Bytes × LineList
  | (str, info), c =>
      match info.findStrValue [c] with
      | some start => (some (str.getD [] ++ start), info.setStrValue [c] none)
      | none => (str, info)

def takeOptions (letters : Bytes) (info : LineList) : Option Bytes × LineList := letters.foldl takeOption (none, info)

/-- The options that the letters of the configuration name are put in front of the last one. It is fatal if there are
less than two letters. -/
def moveOptions (settings : Settings) (info : LineList) : Option LineList :=
  match settings.prefixOptionToOption with
  | none => some info
  | some text =>
      match (text.filter isAlpha).reverse with
      | last :: first :: more =>
          match takeOptions (first :: more).reverse info with
          | (some str, info) =>
              let start := match info.findStrValue [last] with
                | some start => str ++ 44 :: start
                | none => str
              some (info.setStrValue [last] (some start))
          | (none, info) => some info
      | _ => none

def removeOptions (behind : Bytes) (settings : Settings) (info : LineList) : LineList :=
  match settings.removeZ, info.findStrValue (lit "Z") with
  | some remove, some str =>
      let patterns := split [] remove (lit ",") false [] false false false
      writeValue info (lit "Z") (patterns.foldl (fun str pattern => removeMatching behind pattern str) str)
  | _, _ => info

def appendOptions (settings : Settings) (info : LineList) : LineList :=
  match settings.appendZ with
  | some (c :: append) =>
      info.setStrValue (lit "Z") (some ((info.findStrValue (lit "Z")).getD [] ++ 44 :: c :: append))
  | _ => info

def prefixOptions (settings : Settings) (info : LineList) : LineList :=
  match settings.prefixZ with
  | some (c :: front) =>
      info.setStrValue (lit "Z") (some (c :: front ++ 44 :: (info.findStrValue (lit "Z")).getD []))
  | _ => info

def tidyOptions (info : LineList) : LineList :=
  match info.findStrValue (lit "Z") with
  | some str => writeValue info (lit "Z") (tidy str)
  | none => info

/-- `Fix_Z_opts`, on the options of a job. -/
def fixZOpts (behind : Bytes) (settings : Settings) (info : LineList) : Option LineList :=
  (moveOptions settings info).map fun info =>
    tidyOptions (prefixOptions settings (appendOptions settings (removeOptions behind settings info)))

/-! ## Values of keys -/

variable {info : LineList} {key value : Bytes} {settings : Settings} {letters : Bytes}

theorem findStrValue_removeKey (keyed : info.Keyed) (key other : Bytes) :
    (info.setStrValue key none).findStrValue other =
      if foldCase other = foldCase key then none else info.findStrValue other := by
  have removed : info.setStrValue key none = eraseKey lineKey (foldCase key) info := keyed.removeKey
  rw [removed, keyed.findStrValue_erase]

theorem keyed_removeKey (keyed : info.Keyed) (key : Bytes) : (info.setStrValue key none).Keyed := by
  have removed : info.setStrValue key none = eraseKey lineKey (foldCase key) info := keyed.removeKey
  rw [removed]
  exact keyed.erase

theorem keyed_setStrValue (keyed : info.Keyed) (free : SepFree key) (given : Option Bytes) :
    (info.setStrValue key given).Keyed := by
  rw [keyed.setStrValue free]
  split
  · exact keyed.insert (clear_keyValue free _)
  · exact keyed.erase

theorem findStrValue_setStrValue (keyed : info.Keyed) (free : SepFree key) (given : Option Bytes) (other : Bytes) :
    (info.setStrValue key given).findStrValue other =
      if foldCase other = foldCase key then given.filter (· ≠ []) else info.findStrValue other := by
  rw [keyed.setStrValue free]
  split
  · next value found =>
      rw [keyed.findStrValue_insert (clear_keyValue free _), lineKey_keyValue free, valueOf_keyValue free, found]
  · next found => rw [keyed.findStrValue_erase, found]

/-- The line of a value that is written over is that of its key. -/
theorem writeValue_eq (keyed : info.Keyed) (found : info.findStrValue key = some old) (value : Bytes) :
    ∃ line, Clear line ∧ lineKey line = foldCase key ∧ valueOf line = some value ∧
      writeValue info key value = insertKey lineKey line info := by
  obtain ⟨lows, place, highs, around, outcome⟩ := (keyed.tells isSeparator_optionValueSep key).findFirstKey
  rw [keyed.findStrValue, around.lookupKey_eq] at found
  rcases place with - | a
  · cases found
  · have free : SepFree (keyOf optionValueSep a) := by
      intro c member
      have inside := List.mem_takeWhile_imp member
      simpa using inside
    have same : lineKey (keyOf optionValueSep a ++ 61 :: value) = foldCase key :=
      (lineKey_keyValue free value).trans (around.equal a rfl)
    refine ⟨_, clear_keyValue free value, same, valueOf_keyValue free, ?_⟩
    rw [← same] at around
    rw [writeValue, outcome]
    dsimp only
    rw [List.getD_eq_getElem?_getD, around.getElem?_found]
    exact around.set_found

theorem keyed_writeValue (keyed : info.Keyed) (found : info.findStrValue key = some old) (value : Bytes) :
    (writeValue info key value).Keyed := by
  obtain ⟨line, clear, -, -, eq⟩ := writeValue_eq keyed found value
  rw [eq]
  exact keyed.insert clear

theorem findStrValue_writeValue (keyed : info.Keyed) (found : info.findStrValue key = some old) (value other : Bytes) :
    (writeValue info key value).findStrValue other =
      if foldCase other = foldCase key then some value else info.findStrValue other := by
  obtain ⟨line, clear, same, read, eq⟩ := writeValue_eq keyed found value
  rw [eq, keyed.findStrValue_insert clear, same, read]

/-! ## Moved options -/

/-- The letters that options are moved from, and the one they are moved to. -/
def sources (settings : Settings) : Bytes := ((settings.prefixOptionToOption.getD []).filter isAlpha).dropLast

def target (settings : Settings) : Option UInt8 := ((settings.prefixOptionToOption.getD []).filter isAlpha).getLast?

/-- The letters, each only the first time. -/
def firsts : Bytes → Bytes
  | [] => []
  | c :: s => c :: (firsts s).filter (toLower · ≠ toLower c)

/-- The values of the options of the letters. -/
def moved (letters : Bytes) (info : LineList) : List Bytes := (firsts letters).filterMap fun c => info.findStrValue [c]

def listed (info : LineList) (c : UInt8) : List Bytes := options ((info.findStrValue [c]).getD [])

/-- What an option lists after the moves. -/
def expected (settings : Settings) (info : LineList) (c : UInt8) : List Bytes :=
  (if (target settings).map toLower = some (toLower c) then (moved (sources settings) info).flatMap options else []) ++
    if toLower c ∈ (sources settings).map toLower then [] else listed info c

theorem foldCase_letter : foldCase [c] = foldCase [d] ↔ toLower c = toLower d := by
  constructor
  · intro same
    exact UInt8.toNat_inj.mp (List.cons.inj same).1
  · intro same
    rw [foldCase, foldCase, List.map_singleton, List.map_singleton, same]

theorem findStrValue_letter (keyed : info.Keyed) (same : toLower c = toLower d) :
    info.findStrValue [c] = info.findStrValue [d] := by
  rw [keyed.findStrValue, keyed.findStrValue, foldCase_letter.mpr same]

theorem moved_absent (keyed : info.Keyed) (absent : info.findStrValue [d] = none) (letters : Bytes) :
    moved (d :: letters) info = moved letters info := by
  have values : (fun c => if decide (toLower c ≠ toLower d) = true then info.findStrValue [c] else none) =
      fun c => info.findStrValue [c] := by
    funext c
    by_cases same : toLower c = toLower d
    · rw [if_neg (by simpa using same), findStrValue_letter keyed same, absent]
    · rw [if_pos (by simpa using same)]
  rw [moved, firsts, List.filterMap_cons_none (f := fun c => info.findStrValue [c]) absent, List.filterMap_filter, values, moved]

theorem moved_found (keyed : info.Keyed) (found : info.findStrValue [d] = some v) (letters : Bytes) :
    moved (d :: letters) info = v :: moved letters (info.setStrValue [d] none) := by
  have values : (fun c => if decide (toLower c ≠ toLower d) = true then info.findStrValue [c] else none) =
      fun c => (info.setStrValue [d] none).findStrValue [c] := by
    funext c
    rw [findStrValue_removeKey keyed]
    by_cases same : toLower c = toLower d
    · rw [if_neg (by simpa using same), if_pos (foldCase_letter.mpr same)]
    · rw [if_pos (by simpa using same), if_neg (mt foldCase_letter.mp same)]
  rw [moved, firsts, List.filterMap_cons_some (f := fun c => info.findStrValue [c]) found, List.filterMap_filter, values, moved]

theorem foldl_takeOption (keyed : info.Keyed) (letters : Bytes) (str : Option Bytes) :
    (letters.foldl takeOption (str, info)).1 =
        (if moved letters info = [] then str else some (str.getD [] ++ (moved letters info).flatten)) ∧
      (letters.foldl takeOption (str, info)).2.Keyed ∧
      ∀ c, (letters.foldl takeOption (str, info)).2.findStrValue [c] =
        if toLower c ∈ letters.map toLower then none else info.findStrValue [c] := by
  induction letters generalizing info str with
  | nil => exact ⟨rfl, keyed, fun _ => rfl⟩
  | cons d letters ih =>
      have member_self {c : UInt8} (same : toLower c = toLower d) : toLower c ∈ (d :: letters).map toLower := by
        rw [same]
        exact List.mem_cons_self
      have member_cons {c : UInt8} (other : toLower c ≠ toLower d) :
          toLower c ∈ (d :: letters).map toLower ↔ toLower c ∈ letters.map toLower := by
        rw [List.map_cons, List.mem_cons, or_iff_right other]
      rw [List.foldl_cons]
      rcases found : info.findStrValue [d] with - | v
      · have step : takeOption (str, info) d = (str, info) := by rw [takeOption, found]
        obtain ⟨text, stays, values⟩ := ih keyed str
        rw [step, moved_absent keyed found]
        refine ⟨text, stays, fun c => ?_⟩
        rw [values]
        by_cases same : toLower c = toLower d
        · rw [if_pos (member_self same), findStrValue_letter keyed same, found, ite_self]
        · exact if_congr (member_cons same).symm rfl rfl
      · have step : takeOption (str, info) d = (some (str.getD [] ++ v), info.setStrValue [d] none) := by
          rw [takeOption, found]
        obtain ⟨text, stays, values⟩ := ih (keyed_removeKey keyed [d]) (some (str.getD [] ++ v))
        rw [step, moved_found keyed found, if_neg (List.cons_ne_nil _ _), List.flatten_cons, ← List.append_assoc]
        refine ⟨?_, stays, fun c => ?_⟩
        · rw [text]
          split
          · next none => rw [none, List.flatten_nil, List.append_nil]
          · rfl
        · rw [values, findStrValue_removeKey keyed]
          by_cases same : toLower c = toLower d
          · rw [if_pos (foldCase_letter.mpr same), ite_self, if_pos (member_self same)]
          · rw [if_neg (mt foldCase_letter.mp same)]
            exact if_congr (member_cons same).symm rfl rfl

theorem listed_letter (keyed : info.Keyed) (same : toLower c = toLower d) : listed info c = listed info d := by
  rw [listed, listed, findStrValue_letter keyed same]

theorem sepFree_letter (letter : isAlpha d = true) : SepFree [d] := by
  apply sepFree_of_word
  intro c member
  rw [List.mem_singleton.mp member, isWordChar, isAlnum, letter]
  rfl

theorem listed_setStrValue (keyed : info.Keyed) (free : SepFree [d]) (v : Bytes) (c : UInt8) :
    listed (info.setStrValue [d] (some v)) c = if toLower c = toLower d then options v else listed info c := by
  rw [listed, findStrValue_setStrValue keyed free]
  by_cases same : toLower c = toLower d
  · rw [if_pos (foldCase_letter.mpr same), if_pos same]
    rcases v with - | ⟨b, v⟩
    · rfl
    · rfl
  · rw [if_neg (mt foldCase_letter.mp same), if_neg same, listed]

/-- What the options list after the moves. -/
theorem moveOptions_listed (keyed : info.Keyed) {after : LineList} (moves : moveOptions settings info = some after) :
    after.Keyed ∧ ∀ c, listed after c =
      (if (target settings).map toLower = some (toLower c) then options (moved (sources settings) info).flatten else []) ++
        if toLower c ∈ (sources settings).map toLower then [] else listed info c := by
  rcases given : settings.prefixOptionToOption with - | text
  · rw [moveOptions, given] at moves
    cases moves
    rw [target, sources, given]
    exact ⟨keyed, fun c => rfl⟩
  · rw [moveOptions, given] at moves
    rw [target, sources, given, Option.getD_some]
    dsimp only at moves
    split at moves
    · next last first more letters =>
        have order : text.filter isAlpha = (first :: more).reverse ++ [last] := by
          rw [← List.reverse_cons, ← letters, List.reverse_reverse]
        have alpha : isAlpha last = true :=
          (List.mem_filter.mp (order ▸ List.mem_append_right _ (List.mem_singleton_self last))).2
        rw [order, List.dropLast_concat, List.getLast?_concat, Option.map_some]
        generalize (first :: more).reverse = letters at moves order
        obtain ⟨text, stays, values⟩ := foldl_takeOption keyed letters none
        rw [takeOptions] at moves
        have taken (c : UInt8) : listed (letters.foldl takeOption (none, info)).2 c =
            if toLower c ∈ letters.map toLower then [] else listed info c := by
          rw [listed, values, listed]
          split
          · rfl
          · rfl
        rcases found : letters.foldl takeOption (none, info) with ⟨str, info'⟩
        rw [found] at moves text stays taken
        by_cases none : moved letters info = []
        · rw [if_pos none] at text
          subst text
          cases moves
          have nothing : options [] = [] := rfl
          refine ⟨stays, fun c => ?_⟩
          rw [taken, none, List.flatten_nil, nothing, ite_self, List.nil_append]
        · rw [if_neg none, Option.getD_none, List.nil_append] at text
          subst text
          dsimp only at moves stays taken
          cases moves
          refine ⟨keyed_setStrValue stays (sepFree_letter alpha) _, fun c => ?_⟩
          rw [listed_setStrValue stays (sepFree_letter alpha)]
          by_cases same : toLower c = toLower last
          · have start : ∀ given, info'.findStrValue [last] = given →
                options (match given with
                  | some start => (moved letters info).flatten ++ 44 :: start
                  | Option.none => (moved letters info).flatten) =
                  options (moved letters info).flatten ++ listed info' last := by
              intro given found
              rw [listed, found]
              rcases given with - | start
              · exact (List.append_nil _).symm
              · exact options_join _ start
            rw [if_pos same, if_pos (congrArg some same.symm), start _ rfl, taken, same, listed_letter keyed same]
          · rw [if_neg same, if_neg fun equal => same (Option.some.inj equal).symm, taken, List.nil_append]
    · cases moves

/-- With an option to move from, the letters are enough. -/
theorem moveOptions_of_sources (some : sources settings ≠ []) (info : LineList) :
    ∃ after, moveOptions settings info = Option.some after := by
  rcases given : settings.prefixOptionToOption with - | text
  · rw [sources, given] at some
    exact absurd rfl some
  · rw [sources, given, Option.getD_some] at some
    rw [moveOptions, given]
    dsimp only
    split
    · split
      · exact ⟨_, rfl⟩
      · exact ⟨_, rfl⟩
    · next few =>
        exfalso
        apply some
        rcases letters : (text.filter isAlpha).reverse with - | ⟨last, - | ⟨first, more⟩⟩
        · rw [List.reverse_eq_nil_iff.mp letters]
          rfl
        · rw [List.reverse_eq_iff.mp letters]
          rfl
        · exact absurd letters (few last first more)

/-- The options are moved as they should be exactly where the values of those moved stand apart. -/
theorem moveOptions_iff (keyed : info.Keyed) :
    (∀ after, moveOptions settings info = some after → ∀ c, listed after c = expected settings info c) ↔
      Parted (moved (sources settings) info) := by
  constructor
  · intro right
    by_cases none : moved (sources settings) info = []
    · rw [none]
      trivial
    · have some : sources settings ≠ [] := by
        intro empty
        rw [empty] at none
        exact none rfl
      obtain ⟨c, last⟩ : ∃ c, target settings = Option.some c := by
        refine Option.ne_none_iff_exists'.mp fun missing => some ?_
        rw [sources, List.getLast?_eq_none_iff.mp missing]
        rfl
      obtain ⟨after, moves⟩ := moveOptions_of_sources some info
      have same := right after moves c
      rw [(moveOptions_listed keyed moves).2, expected, last, Option.map_some, if_pos rfl, if_pos rfl] at same
      exact (options_flatten_iff _).mp (List.append_cancel_right same)
  · intro parted after moves c
    rw [(moveOptions_listed keyed moves).2, expected, (options_flatten_iff _).mpr parted]

/-! ## The Z option -/

def unmatched (behind : Bytes) (settings : Settings) (option : Bytes) : Bool :=
  (pieces (lit ",") (settings.removeZ.getD [])).all (globPattern behind · option)

/-- The text of the Z option. -/
def textZ (info : LineList) : Bytes := (info.findStrValue (lit "Z")).getD []

theorem sepFree_Z : SepFree (lit "Z") := sepFree_letter rfl

theorem options_foldl_removeMatching (behind : Bytes) (patterns : List Bytes) (str : Bytes) :
    options (patterns.foldl (fun str pattern => removeMatching behind pattern str) str) =
      (options str).filter fun o => patterns.all (globPattern behind · o) := by
  induction patterns generalizing str with
  | nil => exact (List.filter_eq_self.mpr fun _ _ => rfl).symm
  | cons pattern patterns ih =>
      rw [List.foldl_cons, ih, options_removeMatching, List.filter_filter]
      congr 1
      funext o
      exact Bool.and_comm _ _

theorem removeOptions_spec (keyed : info.Keyed) (behind : Bytes) (settings : Settings) :
    (removeOptions behind settings info).Keyed ∧
      options (textZ (removeOptions behind settings info)) = (listed info 90).filter (unmatched behind settings) := by
  rw [removeOptions]
  split
  · next remove str given found =>
      refine ⟨keyed_writeValue keyed found _, ?_⟩
      have text : listed info 90 = options str := congrArg (fun value : Option Bytes => options (value.getD [])) found
      rw [textZ, findStrValue_writeValue keyed found, if_pos rfl, Option.getD_some, split_pieces,
        options_foldl_removeMatching, text]
      congr 1
      funext o
      rw [unmatched, given, Option.getD_some]
  · next none =>
      refine ⟨keyed, ?_⟩
      rcases given : settings.removeZ with - | remove
      · symm
        apply List.filter_eq_self.mpr
        intro o _
        rw [unmatched, given]
        rfl
      · rcases found : info.findStrValue (lit "Z") with - | str
        · have empty : listed info 90 = [] := congrArg (fun value : Option Bytes => options (value.getD [])) found
          rw [textZ, found, empty]
          rfl
        · exact absurd found (none remove str given)

theorem appendOptions_spec (keyed : info.Keyed) (settings : Settings) :
    (appendOptions settings info).Keyed ∧
      options (textZ (appendOptions settings info)) = options (textZ info) ++ options (settings.appendZ.getD []) := by
  rw [appendOptions]
  split
  · next c append given =>
      refine ⟨keyed_setStrValue keyed sepFree_Z _, ?_⟩
      rw [textZ, findStrValue_setStrValue keyed sepFree_Z, if_pos rfl, Option.filter_some_pos, given]
      · exact options_join _ _
      · exact decide_eq_true (List.append_ne_nil_of_right_ne_nil _ (List.cons_ne_nil _ _))
  · next empty =>
      refine ⟨keyed, ?_⟩
      rcases given : settings.appendZ with - | - | ⟨c, append⟩
      · exact (List.append_nil _).symm
      · exact (List.append_nil _).symm
      · exact absurd given (empty c append)

theorem prefixOptions_spec (keyed : info.Keyed) (settings : Settings) :
    (prefixOptions settings info).Keyed ∧
      options (textZ (prefixOptions settings info)) = options (settings.prefixZ.getD []) ++ options (textZ info) := by
  rw [prefixOptions]
  split
  · next c front given =>
      refine ⟨keyed_setStrValue keyed sepFree_Z _, ?_⟩
      rw [textZ, findStrValue_setStrValue keyed sepFree_Z, if_pos rfl, Option.filter_some_pos, given]
      · exact options_join _ _
      · exact decide_eq_true (List.cons_ne_nil _ _)
  · next empty =>
      refine ⟨keyed, ?_⟩
      rcases given : settings.prefixZ with - | - | ⟨c, front⟩
      · rfl
      · rfl
      · exact absurd given (empty c front)

theorem textZ_tidyOptions (keyed : info.Keyed) :
    textZ (tidyOptions info) = List.intercalate [44] (options (textZ info)) := by
  rw [tidyOptions]
  split
  · next str found =>
      rw [textZ, findStrValue_writeValue keyed found, if_pos rfl, Option.getD_some, tidy_eq, textZ, found,
        Option.getD_some]
  · next none =>
      rw [textZ, none]
      rfl

theorem fixZOpts_eq (keyed : info.Keyed) (behind : Bytes) {after : LineList}
    (moves : moveOptions settings info = some after) :
    ∃ final, fixZOpts behind settings info = some final ∧ textZ final =
      List.intercalate [44] (options (settings.prefixZ.getD []) ++
        ((listed after 90).filter (unmatched behind settings) ++ options (settings.appendZ.getD []))) := by
  have stays := (moveOptions_listed keyed moves).1
  obtain ⟨removed, remove⟩ := removeOptions_spec stays behind settings
  obtain ⟨appended, append⟩ := appendOptions_spec removed settings
  obtain ⟨prefixed, front⟩ := prefixOptions_spec appended settings
  refine ⟨_, congrArg _ moves, ?_⟩
  rw [textZ_tidyOptions prefixed, front, append, remove]

/-- A job with the options S and O, and a configuration that moves them to Z. -/
def twoOptions : LineList := (LineList.setStrValue [] (lit "O") (some (lit "b"))).setStrValue (lit "S") (some (lit "a"))

def twoMoved : Settings := ⟨some (lit "S,O Z"), none, none, none⟩

theorem keyed_twoOptions : twoOptions.Keyed :=
  keyed_setStrValue (keyed_setStrValue LineList.keyed_nil (sepFree_letter rfl) _) (sepFree_letter rfl) _

end ZOptions

end LPRng
