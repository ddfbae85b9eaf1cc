import LPRng.HeaderLine
import LPRng.LastWrite
import LPRng.SortedKeys
import Mathlib.Data.List.Lex

/-!
# Keyed line lists

What lprng knows about a queue, a job or a request is a `line_list`: lines of the form
`key=value`, kept in the order of their keys and found by a binary search that ignores
the case of letters. Lines are put in with the separators `=#` and found again with
` \t=#@`.
-/

namespace LPRng

/-! ## The order of keys -/

/-- `safestrcasecmp`. -/
def strcasecmp : Bytes → Bytes → Ordering
  | [], [] => .eq
  | [], _ :: _ => .lt
  | _ :: _, [] => .gt
  | c :: s, d :: t => (compare (toLower c).toNat (toLower d).toNat).then (strcasecmp s t)

/-- A text with the case of its letters taken out. -/
def foldCase (s : Bytes) : List ℕ := s.map fun c => (toLower c).toNat

/-- The first two characters decide, unless they are equal. -/
theorem compares_cons {a b : ℕ} {s t : List ℕ} {outcome : Ordering}
    (rest : a = b → outcome.Compares s t) :
    ((compare a b).then outcome).Compares (a :: s) (b :: t) := by
  rcases lt_trichotomy a b with less | rfl | greater
  · rw [compare_lt_iff_lt.mpr less]
    exact List.cons_lt_cons_iff.mpr (.inl less)
  · rw [compare_eq_iff_eq.mpr rfl, Ordering.eq_then]
    cases outcome with
    | lt => exact List.cons_lt_cons_iff.mpr (.inr ⟨rfl, rest rfl⟩)
    | eq => exact congrArg _ (rest rfl)
    | gt => exact List.cons_lt_cons_iff.mpr (.inr ⟨rfl, rest rfl⟩)
  · rw [compare_gt_iff_gt.mpr greater]
    exact List.cons_lt_cons_iff.mpr (.inl greater)

theorem strcasecmp_compares (s t : Bytes) :
    (strcasecmp s t).Compares (foldCase s) (foldCase t) := by
  induction s generalizing t with
  | nil =>
      cases t with
      | nil => rfl
      | cons d t => exact List.nil_lt_cons _ _
  | cons c s ih =>
      cases t with
      | nil => exact List.nil_lt_cons _ _
      | cons d t => exact compares_cons fun _ => ih t

/-! ## Lines and their keys -/

def hashValueSep : Bytes := lit "=#"

def optionValueSep : Bytes := lit " \t=#@"

/-- The key of a line: what stands before the first separator. -/
def keyOf (sep line : Bytes) : Bytes := line.takeWhile (!sep.contains ·)

/-- The value of a line, which stands behind the key and a `=`. -/
def valueOf (line : Bytes) : Option Bytes :=
  match line.dropWhile (!optionValueSep.contains ·) with
  | 61 :: value => some value
  | _ => none

abbrev LineList := List Bytes

namespace LineList

/-- The key with each line it is compared with. -/
def compareKey (l : LineList) (key sep : Bytes) (i : Nat) : Ordering :=
  strcasecmp key (keyOf sep (l.getD i []))

/-- Whether a line has the key. -/
def hasKey (key sep line : Bytes) : Bool := strcasecmp (keyOf sep line) key = .eq

/-- `Find_last_key`: an equal line is followed up to the last of its neighbours that are
equal too. -/
def findLastKey (l : LineList) (key sep : Bytes) : Ordering × Nat :=
  search (l.compareKey key sep)
    (fun mid => mid + ((l.drop (mid + 1)).takeWhile (hasKey key sep)).length) .lt 0 0 l.length

/-- `Find_first_key`: an equal line is followed back to the first. -/
def findFirstKey (l : LineList) (key sep : Bytes) : Ordering × Nat :=
  search (l.compareKey key sep)
    (fun mid => mid - ((l.take mid).reverse.takeWhile (hasKey key sep)).length) .lt 0 0 l.length

/-! ## Operations -/

/-- `Add_line_list`. A new line is put behind the last line tested, or before it if it is
less. -/
def addLineList (l : LineList) (str sep : Bytes) (sort uniq : Bool) : LineList :=
  if sort then
    match l.findLastKey (keyOf sep str) sep with
    | (.lt, mid) => l.take mid ++ str :: l.drop mid
    | (.gt, mid) => l.take (mid + 1) ++ str :: l.drop (mid + 1)
    | (.eq, mid) => if uniq then l.set mid str else l.take (mid + 1) ++ str :: l.drop (mid + 1)
  else l ++ [str]

def mergeLineList (dest src : LineList) (sep : Bytes) (sort uniq : Bool) : LineList :=
  src.foldl (fun l line => l.addLineList line sep sort uniq) dest

def removeLineList (l : LineList) (mid : Nat) : LineList := l.eraseIdx mid

def findStrValue (l : LineList) (key : Bytes) : Option Bytes :=
  match l.findFirstKey key optionValueSep with
  | (.eq, mid) => valueOf (l.getD mid [])
  | _ => none

/-- `Fix_val`, on what stands behind the key: the value of a flag, which is 1 for a bare key
and 0 for one with an `@`. -/
def fixVal : Bytes → Bytes
  | [] => lit "1"
  | c :: s => if c = 64 then lit "0" else s.dropWhile isSpace

def findValue (l : LineList) (key : Bytes) : Bytes :=
  match l.findFirstKey key optionValueSep with
  | (.eq, mid) => fixVal ((l.getD mid []).dropWhile (!optionValueSep.contains ·))
  | _ => lit "0"

def findFlagValue (l : LineList) (key : Bytes) : Int := flagOfText (l.findValue key)

/-- The branch of `Set_str_value` for an empty value and for none. -/
def removeKey (l : LineList) (key : Bytes) : LineList :=
  match l.findFirstKey key hashValueSep with
  | (.eq, mid) => l.removeLineList mid
  | _ => l

def setStrValue (l : LineList) (key : Bytes) : Option Bytes → LineList
  | some (c :: cs) => l.addLineList (key ++ 61 :: c :: cs) hashValueSep true true
  | some [] | none => l.removeKey key

/-- The line `Set_flag_value` and `Set_decimal_value` print into a buffer of `SMALLBUFFER`
bytes. -/
def printedLine (key number : Bytes) : Bytes := plpSnprintf 512 (fmtString key ++ 61 :: number)

def setFlagValue (l : LineList) (key : Bytes) (value : Int) : LineList :=
  l.addLineList (printedLine key (printHex value)) hashValueSep true true

def setDecimalValue (l : LineList) (key : Bytes) (value : Int) : LineList :=
  l.addLineList (printedLine key (printInt value)) hashValueSep true true

end LineList

/-! ## The separators -/

/-- A set of separators at least as large as `Hash_value_sep` and at most as large as
`Option_value_sep`. -/
structure IsSeparator (sep : Bytes) : Prop where
  least : ∀ c ∈ hashValueSep, c ∈ sep
  most : ∀ c ∈ sep, c ∈ optionValueSep

/-- A line whose key is the same for all separators: none of the blank, the tab and the
`@` stands before the first `=` or `#`. -/
def Clear (line : Bytes) : Prop := keyOf hashValueSep line = keyOf optionValueSep line

instance : DecidablePred Clear := fun line =>
  inferInstanceAs (Decidable (keyOf hashValueSep line = keyOf optionValueSep line))

/-- The key lines are sorted by. -/
def lineKey (line : Bytes) : List ℕ := foldCase (keyOf optionValueSep line)

variable {sep line key value : Bytes} {l : LineList}

theorem isSeparator_hashValueSep : IsSeparator hashValueSep :=
  ⟨fun _ member => member, by decide⟩

theorem isSeparator_optionValueSep : IsSeparator optionValueSep :=
  ⟨by decide, fun _ member => member⟩

/-- More separators end a key earlier. -/
theorem keyOf_eq_of_between {more less : Bytes} (within : ∀ c ∈ less, c ∈ sep)
    (around : ∀ c ∈ sep, c ∈ more) (same : keyOf less line = keyOf more line) :
    keyOf sep line = keyOf more line := by
  unfold keyOf at *
  induction line with
  | nil => rfl
  | cons c line ih =>
      simp only [List.takeWhile_cons] at same ⊢
      by_cases ends : c ∈ more
      · have atLess : c ∈ less := by
          by_contra goesOn
          simp [ends, goesOn] at same
        simp [ends, within c atLess]
      · have goesOn : c ∉ sep := fun member => ends (around c member)
        have goesOn' : c ∉ less := fun member => goesOn (within c member)
        have atMore : more.contains c = false := by simpa using ends
        have atSep : sep.contains c = false := by simpa using goesOn
        have atLess : less.contains c = false := by simpa using goesOn'
        rw [atMore, atLess] at same
        rw [atMore, atSep]
        exact congrArg (c :: ·) (ih (List.cons.inj same).2)

theorem Clear.keyOf_eq (clear : Clear line) (separator : IsSeparator sep) :
    keyOf sep line = keyOf optionValueSep line :=
  keyOf_eq_of_between separator.least separator.most clear

/-! ## Lines of a key and a value -/

/-- A key without any separator. -/
def SepFree (key : Bytes) : Prop := ∀ c ∈ key, c ∉ optionValueSep

instance : DecidablePred SepFree := fun key =>
  inferInstanceAs (Decidable (∀ c ∈ key, c ∉ optionValueSep))

/-- A key without separators ends at the first `=`. -/
theorem takeWhile_sepFree {p : UInt8 → Bool} (inside : ∀ c ∈ key, p c = true)
    (ends : p 61 = false) : (key ++ 61 :: value).takeWhile p = key ∧
      (key ++ 61 :: value).dropWhile p = 61 :: value := by
  induction key with
  | nil => exact ⟨by rw [List.nil_append, List.takeWhile_cons, ends]; rfl,
      by rw [List.nil_append, List.dropWhile_cons, ends]; rfl⟩
  | cons c key ih =>
      obtain ⟨taken, dropped⟩ := ih fun d member => inside d (List.mem_cons_of_mem c member)
      rw [List.cons_append, List.takeWhile_cons, List.dropWhile_cons,
        inside c List.mem_cons_self, if_pos rfl, if_pos rfl, taken, dropped]
      exact ⟨rfl, rfl⟩

theorem keyOf_keyValue (free : SepFree key) (separator : IsSeparator sep) :
    keyOf sep (key ++ 61 :: value) = key := by
  refine (takeWhile_sepFree (fun c member => ?_) ?_).1
  · have outside : c ∉ sep := fun inside => free c member (separator.most c inside)
    simpa using outside
  · have inside : (61 : UInt8) ∈ sep := separator.least 61 (by decide)
    simpa using inside

theorem clear_keyValue (free : SepFree key) (value : Bytes) :
    Clear (key ++ 61 :: value) :=
  (keyOf_keyValue free isSeparator_hashValueSep).trans
    (keyOf_keyValue free isSeparator_optionValueSep).symm

theorem valueOf_keyValue (free : SepFree key) :
    valueOf (key ++ 61 :: value) = some value := by
  unfold valueOf
  have inside : ∀ c ∈ key, (!optionValueSep.contains c) = true := by
    intro c member
    simpa using free c member
  rw [(takeWhile_sepFree inside (by decide)).2]
  rfl

theorem lineKey_keyValue (free : SepFree key) (value : Bytes) :
    lineKey (key ++ 61 :: value) = foldCase key :=
  congrArg foldCase (keyOf_keyValue free isSeparator_optionValueSep)

/-! ## Searches in sorted lines -/

namespace LineList

variable {k : Bytes → List ℕ}

/-- The lines are sorted strictly by keys `k`, and a key that is compared with what is read
of a line before a separator compares to the key `k` of this line. -/
structure Tells (k : Bytes → List ℕ) (key sep : Bytes) (l : LineList) : Prop where
  sorted : KeySorted k l
  compares : ∀ line ∈ l, (strcasecmp key (keyOf sep line)).Compares (foldCase key) (k line)

theorem Tells.probes (tells : l.Tells k key sep) :
    Probes (l.compareKey key sep) k (foldCase key) l := by
  intro i inside
  rw [compareKey, List.getD_eq_getElem?_getD, List.getElem?_eq_getElem inside, Option.getD_some]
  exact tells.compares _ (List.getElem_mem inside)

theorem Tells.key_of_hasKey (tells : l.Tells k key sep) :
    ∀ line ∈ l, hasKey key sep line = true → k line = foldCase key := by
  intro line member equal
  have same := (strcasecmp_compares _ _).eq_eq.mp (of_decide_eq_true equal)
  have turned := (strcasecmp_compares key (keyOf sep line)).eq_eq.mpr same.symm
  exact ((tells.compares line member).eq_eq.mp turned).symm

theorem Tells.findLastKey (tells : l.Tells k key sep) :
    ∃ lows found highs, Around k (foldCase key) l lows found highs ∧
      match found with
      | some _ => l.findLastKey key sep = (.eq, lows.length)
      | none => l.findLastKey key sep = (.lt, lows.length) ∨
          ∃ mid, l.findLastKey key sep = (.gt, mid) ∧ mid + 1 = lows.length := by
  obtain ⟨lows, found, highs, around, outcome⟩ :=
    tells.sorted.search_last tells.probes tells.key_of_hasKey
  exact ⟨lows, found, highs, around, by cases found <;> exact outcome⟩

theorem Tells.findFirstKey (tells : l.Tells k key sep) :
    ∃ lows found highs, Around k (foldCase key) l lows found highs ∧
      match found with
      | some _ => l.findFirstKey key sep = (.eq, lows.length)
      | none => ∀ mid, l.findFirstKey key sep ≠ (.eq, mid) := by
  obtain ⟨lows, found, highs, around, outcome⟩ :=
    tells.sorted.search_first tells.probes tells.key_of_hasKey
  exact ⟨lows, found, highs, around, by cases found <;> exact outcome⟩

theorem Tells.addLineList (tells : l.Tells k (keyOf sep line) sep)
    (same : foldCase (keyOf sep line) = k line) :
    l.addLineList line sep true true = insertKey k line l := by
  obtain ⟨lows, found, highs, around, outcome⟩ := tells.findLastKey
  rw [same] at around
  unfold LineList.addLineList
  rw [if_pos rfl]
  cases found with
  | some a =>
      rw [outcome]
      exact around.set_found
  | none =>
      rcases outcome with before | ⟨mid, after, next⟩
      · rw [before]
        exact around.insert_absent
      · rw [after]
        dsimp only
        rw [next]
        exact around.insert_absent

theorem Tells.findStrValue (tells : l.Tells k key optionValueSep) :
    l.findStrValue key = (lookupKey k (foldCase key) l).bind valueOf := by
  obtain ⟨lows, found, highs, around, outcome⟩ := tells.findFirstKey
  rw [around.lookupKey_eq]
  unfold LineList.findStrValue
  cases found with
  | some a =>
      rw [outcome]
      dsimp only
      rw [List.getD_eq_getElem?_getD, around.getElem?_found]
      rfl
  | none =>
      split
      · next mid equal => exact absurd equal (outcome mid)
      · rfl

theorem Tells.removeKey (tells : l.Tells k key hashValueSep) :
    l.removeKey key = eraseKey k (foldCase key) l := by
  obtain ⟨lows, found, highs, around, outcome⟩ := tells.findFirstKey
  unfold LineList.removeKey
  cases found with
  | some a =>
      rw [outcome]
      exact around.eraseIdx_found
  | none =>
      rw [around.eraseKey_absent]
      split
      · next mid equal => exact absurd equal (outcome mid)
      · rfl

/-- A flag is read from the value of its key. -/
theorem findFlagValue_of_findStrValue {text : Bytes} (found : l.findStrValue key = some text)
    (front : ∀ c ∈ text.head?, isSpace c = false) : l.findFlagValue key = flagOfText text := by
  have value : l.findValue key = text := by
    unfold findStrValue at found
    unfold findValue
    split at found
    · next mid equal =>
        unfold valueOf at found
        split at found
        · next read behind =>
            cases found
            have kept : text.dropWhile isSpace = text := by
              cases text with
              | nil => rfl
              | cons c cs => rw [List.dropWhile_cons, front c rfl]; rfl
            rw [behind]
            exact kept
        · cases found
    · cases found
  rw [findFlagValue, value]

/-! ## Lists with clear keys -/

/-- The lines are sorted strictly by their keys, which do not depend on the separators. -/
structure Keyed (l : LineList) : Prop where
  sorted : KeySorted lineKey l
  clear : ∀ line ∈ l, Clear line

theorem keyed_nil : Keyed [] := ⟨keySorted_nil, fun _ => nofun⟩

theorem Keyed.tells (keyed : l.Keyed) (separator : IsSeparator sep) (key : Bytes) :
    l.Tells lineKey key sep := by
  refine ⟨keyed.sorted, fun line member => ?_⟩
  rw [(keyed.clear line member).keyOf_eq separator]
  exact strcasecmp_compares key _

theorem Keyed.addLineList (keyed : l.Keyed) (separator : IsSeparator sep) (clear : Clear line) :
    l.addLineList line sep true true = insertKey lineKey line l :=
  (keyed.tells separator _).addLineList (congrArg foldCase (clear.keyOf_eq separator))

theorem Keyed.findStrValue (keyed : l.Keyed) :
    l.findStrValue key = (lookupKey lineKey (foldCase key) l).bind valueOf :=
  (keyed.tells isSeparator_optionValueSep key).findStrValue

theorem Keyed.removeKey (keyed : l.Keyed) :
    l.removeKey key = eraseKey lineKey (foldCase key) l :=
  (keyed.tells isSeparator_hashValueSep key).removeKey

theorem Keyed.insert (keyed : l.Keyed) (clear : Clear line) :
    Keyed (insertKey lineKey line l) := by
  refine ⟨keyed.sorted.insertKey, fun other member => ?_⟩
  rcases List.mem_append.mp member with low | rest
  · exact keyed.clear other (List.mem_filter.mp low).1
  · rcases List.mem_cons.mp rest with rfl | high
    · exact clear
    · exact keyed.clear other (List.mem_filter.mp high).1

theorem Keyed.erase (keyed : l.Keyed) {x : List ℕ} : Keyed (eraseKey lineKey x l) :=
  ⟨keyed.sorted.eraseKey, fun other member => keyed.clear other (List.mem_filter.mp member).1⟩

theorem Keyed.findStrValue_insert (keyed : l.Keyed) (clear : Clear line) :
    LineList.findStrValue (insertKey lineKey line l) key =
      if foldCase key = lineKey line then valueOf line else l.findStrValue key := by
  rw [(keyed.insert clear).findStrValue, lookupKey_insertKey]
  by_cases same : foldCase key = lineKey line
  · rw [if_pos same, if_pos same]
    rfl
  · rw [if_neg same, if_neg same, keyed.findStrValue]

theorem Keyed.findStrValue_erase (keyed : l.Keyed) {x : List ℕ} :
    LineList.findStrValue (eraseKey lineKey x l) key =
      if foldCase key = x then none else l.findStrValue key := by
  rw [keyed.erase.findStrValue, lookupKey_eraseKey]
  by_cases same : foldCase key = x
  · rw [if_pos same, if_pos same]
    rfl
  · rw [if_neg same, if_neg same, keyed.findStrValue]

/-- What `Set_str_value` does: the line of the key is replaced, or taken out. -/
theorem Keyed.setStrValue (keyed : l.Keyed) (free : SepFree key) (given : Option Bytes) :
    l.setStrValue key given =
      match given.filter (· ≠ []) with
      | some value => insertKey lineKey (key ++ 61 :: value) l
      | none => eraseKey lineKey (foldCase key) l := by
  rcases given with _ | ⟨_ | ⟨c, cs⟩⟩
  · exact keyed.removeKey
  · exact keyed.removeKey
  · exact keyed.addLineList isSeparator_hashValueSep (clear_keyValue free _)

end LineList

/-! ## Sequences of operations -/

/-- An operation on a list, with lines sorted and unique. -/
inductive LineOp where
  | setStrValue (key : Bytes) (value : Option Bytes)
  | setFlagValue (key : Bytes) (value : Int)
  | setDecimalValue (key : Bytes) (value : Int)
  | addLineList (str sep : Bytes)
  | mergeLineList (src : LineList) (sep : Bytes)

namespace LineOp

def run (l : LineList) : LineOp → LineList
  | setStrValue key value => l.setStrValue key value
  | setFlagValue key value => l.setFlagValue key value
  | setDecimalValue key value => l.setDecimalValue key value
  | addLineList str sep => l.addLineList str sep true true
  | mergeLineList src sep => l.mergeLineList src sep true true

/-- The keys an operation is given, and the value it sets for each, in their order. No
value stands for a removal, and for a line without a `=` behind its key. -/
def writes : LineOp → List (Bytes × Option Bytes)
  | setStrValue key value => [(key, value.filter (· ≠ []))]
  | setFlagValue key value => [(key, some (printHex value))]
  | setDecimalValue key value => [(key, some (printInt value))]
  | addLineList str sep => [(keyOf sep str, valueOf str)]
  | mergeLineList src sep => src.map fun str => (keyOf sep str, valueOf str)

/-- An operation with the separators of the program, and none of them in a key. -/
def KeysFree (op : LineOp) : Prop :=
  (match op with
    | addLineList _ sep | mergeLineList _ sep => IsSeparator sep
    | _ => True) ∧ ∀ w ∈ op.writes, SepFree w.1

/-- A key that is printed as it is, into a buffer large enough. -/
def Prints (key number : Bytes) : Prop :=
  fmtString key = key ∧ key.length + number.length < 511

/-- The operations the map is kept for: keys without separators, lines with a `=`, a `#`
or nothing behind their key, and numbers for keys that are printed as they are. -/
def Plain : LineOp → Prop
  | setStrValue key _ => SepFree key
  | setFlagValue key value => SepFree key ∧ Prints key (printHex value)
  | setDecimalValue key value => SepFree key ∧ Prints key (printInt value)
  | addLineList str sep => IsSeparator sep ∧ Clear str
  | mergeLineList src sep => IsSeparator sep ∧ ∀ str ∈ src, Clear str

end LineOp

/-- The value set last for each key, whatever the case of its letters. -/
def lastSet (writes : List (Bytes × Option Bytes)) (key : Bytes) : Option Bytes :=
  (Assignment.ofTable (writes.reverse.map fun w => (foldCase w.1, w.2))).apply (fun _ => none)
    (foldCase key)

@[simp] theorem lastSet_nil : lastSet [] key = none := rfl

theorem lastSet_snoc (writes : List (Bytes × Option Bytes)) (set : Bytes) (given : Option Bytes) :
    lastSet (writes ++ [(set, given)]) key =
      if foldCase key = foldCase set then given else lastSet writes key := by
  unfold lastSet
  rw [List.reverse_append, List.reverse_singleton, List.singleton_append, List.map_cons,
    Assignment.ofTable_cons_apply, Function.update_apply]

theorem printedLine_of_prints {number : Bytes} (prints : LineOp.Prints key number) :
    LineList.printedLine key number = key ++ 61 :: number := by
  obtain ⟨visible, fits⟩ := prints
  rw [LineList.printedLine, visible, plpSnprintf, List.take_of_length_le]
  rw [List.length_append, List.length_cons]
  omega

/-! ### One operation -/

namespace LineList

variable {writes : List (Bytes × Option Bytes)} {set : Bytes} {given : Option Bytes}

/-- The list is in order, and a key is found with the value set last. -/
structure Holds (l : LineList) (writes : List (Bytes × Option Bytes)) : Prop where
  keyed : l.Keyed
  found : ∀ key, l.findStrValue key = lastSet writes key

theorem holds_nil : Holds [] [] := ⟨keyed_nil, fun _ => keyed_nil.findStrValue⟩

theorem Holds.insert (holds : l.Holds writes) (clear : Clear line) :
    Holds (insertKey lineKey line l)
      (writes ++ [(keyOf optionValueSep line, valueOf line)]) := by
  refine ⟨holds.keyed.insert clear, fun key => ?_⟩
  rw [holds.keyed.findStrValue_insert clear, lastSet_snoc, holds.found]
  rfl

theorem Holds.erase (holds : l.Holds writes) :
    Holds (eraseKey lineKey (foldCase set) l) (writes ++ [(set, none)]) := by
  refine ⟨holds.keyed.erase, fun key => ?_⟩
  rw [holds.keyed.findStrValue_erase, lastSet_snoc, holds.found]

theorem Holds.addLineList (holds : l.Holds writes) (separator : IsSeparator sep)
    (clear : Clear line) :
    (l.addLineList line sep true true).Holds (writes ++ [(keyOf sep line, valueOf line)]) := by
  rw [holds.keyed.addLineList separator clear, clear.keyOf_eq separator]
  exact holds.insert clear

/-- A key without separators is set to a value. -/
theorem Holds.addKeyValue (holds : l.Holds writes) (free : SepFree key) :
    (l.addLineList (key ++ 61 :: value) hashValueSep true true).Holds
      (writes ++ [(key, some value)]) := by
  have added := holds.addLineList isSeparator_hashValueSep (clear_keyValue free value)
  rw [keyOf_keyValue free isSeparator_hashValueSep, valueOf_keyValue free] at added
  exact added

theorem Holds.mergeLineList (holds : l.Holds writes) (separator : IsSeparator sep)
    {src : LineList} (clear : ∀ str ∈ src, Clear str) :
    (l.mergeLineList src sep true true).Holds
      (writes ++ src.map fun str => (keyOf sep str, valueOf str)) := by
  unfold LineList.mergeLineList
  induction src generalizing l writes with
  | nil =>
      rw [List.map_nil, List.append_nil]
      exact holds
  | cons str src ih =>
      have added := holds.addLineList separator (clear str List.mem_cons_self)
      have rest := ih added fun other member => clear other (List.mem_cons_of_mem str member)
      rw [List.append_assoc] at rest
      exact rest

theorem Holds.setStrValue (holds : l.Holds writes) (free : SepFree key) :
    (l.setStrValue key given).Holds (writes ++ [(key, given.filter (· ≠ []))]) := by
  rw [holds.keyed.setStrValue free given]
  cases given.filter (· ≠ []) with
  | none => exact holds.erase
  | some value =>
      have added := holds.insert (clear_keyValue free value)
      rw [keyOf_keyValue free isSeparator_optionValueSep, valueOf_keyValue free] at added
      exact added

theorem Holds.run (holds : l.Holds writes) {op : LineOp} (plain : op.Plain) :
    (op.run l).Holds (writes ++ op.writes) := by
  cases op with
  | setStrValue key given => exact holds.setStrValue plain
  | setFlagValue key number =>
      obtain ⟨free, prints⟩ := plain
      change (l.addLineList (printedLine key (printHex number)) hashValueSep true true).Holds _
      rw [printedLine_of_prints prints]
      exact holds.addKeyValue free
  | setDecimalValue key number =>
      obtain ⟨free, prints⟩ := plain
      change (l.addLineList (printedLine key (printInt number)) hashValueSep true true).Holds _
      rw [printedLine_of_prints prints]
      exact holds.addKeyValue free
  | addLineList str sep => exact holds.addLineList plain.1 plain.2
  | mergeLineList src sep => exact holds.mergeLineList plain.1 plain.2

/-- The list after a sequence of operations on an empty one. -/
def afterAll (ops : List LineOp) : LineList := ops.foldl LineOp.run []

theorem holds_afterAll {ops : List LineOp} (plain : ∀ op ∈ ops, op.Plain) :
    (afterAll ops).Holds (ops.flatMap LineOp.writes) := by
  induction ops using List.reverseRecOn with
  | nil => exact holds_nil
  | append_singleton ops op ih =>
      have before := ih fun other member => plain other (List.mem_append_left _ member)
      have after := before.run (plain op (List.mem_append_right _ List.mem_cons_self))
      rw [List.flatMap_append, List.flatMap_cons, List.flatMap_nil, List.append_nil]
      unfold afterAll at after ⊢
      rw [List.foldl_append]
      exact after

/-- The lines are sorted strictly by their keys, with the case of letters taken out, for
the separators lines are put in with and for those they are found with. -/
def Sorted (l : LineList) : Prop :=
  ∀ sep, sep = hashValueSep ∨ sep = optionValueSep →
    l.Pairwise fun s t => strcasecmp (keyOf sep s) (keyOf sep t) = .lt

theorem Keyed.toSorted (keyed : l.Keyed) : l.Sorted := by
  intro sep which
  have separator : IsSeparator sep := by
    rcases which with rfl | rfl
    · exact isSeparator_hashValueSep
    · exact isSeparator_optionValueSep
  refine List.Pairwise.imp_of_mem (fun left right below => ?_) keyed.sorted
  rw [(strcasecmp_compares _ _).eq_lt, (keyed.clear _ left).keyOf_eq separator,
    (keyed.clear _ right).keyOf_eq separator]
  exact below

/-- After any sequence of operations the lines are sorted by their keys, no two keys are
equal, and every key is found with the value set last, or with none. -/
theorem keyed_store {ops : List LineOp} (plain : ∀ op ∈ ops, op.Plain) :
    (afterAll ops).Sorted ∧
      ∀ key, (afterAll ops).findStrValue key = lastSet (ops.flatMap LineOp.writes) key :=
  ⟨(holds_afterAll plain).keyed.toSorted, (holds_afterAll plain).found⟩

/-- Keys that start alike, letters of either case, and a removal. -/
theorem keyed_store_prefixes :
    let ops := [.setStrValue (lit "hold") (some (lit "x")), .setFlagValue (lit "Hold_all") 1,
      .addLineList (lit "HOLD=y") optionValueSep, .mergeLineList [lit "b#", lit "c=1"] hashValueSep,
      .setDecimalValue (lit "c") 2, .setStrValue (lit "HOLD_ALL") none]
    (afterAll ops).Sorted ∧
      ∀ key, (afterAll ops).findStrValue key = lastSet (ops.flatMap LineOp.writes) key := by
  refine keyed_store fun op member => ?_
  simp only [List.mem_cons, List.not_mem_nil, or_false] at member
  rcases member with rfl | rfl | rfl | rfl | rfl | rfl
  · exact (by decide : SepFree (lit "hold"))
  · exact ⟨by decide, by decide, by decide⟩
  · exact ⟨isSeparator_optionValueSep, by decide⟩
  · exact ⟨isSeparator_hashValueSep, by decide⟩
  · exact ⟨by decide, by decide, by decide⟩
  · exact (by decide : SepFree (lit "HOLD_ALL"))

/-- The operations keep to keys without separators, and the list is not the map. -/
def Loses (ops : List LineOp) : Prop :=
  (∀ op ∈ ops, LineOp.KeysFree op) ∧
    ¬ ((afterAll ops).Sorted ∧ ∀ key, SepFree key →
      (afterAll ops).findStrValue key = lastSet (ops.flatMap LineOp.writes) key)

/-- A number for a key that is not printed as it is cannot be found, and a line with a blank
behind its key is not seen when the key is set again. -/
theorem keyed_store_loses :
    Loses [.setFlagValue [1] 1] ∧ Loses [.setFlagValue (List.replicate 600 97) 1] ∧
      Loses [.addLineList (lit "a b") optionValueSep, .setStrValue (lit "a") (some (lit "c"))] := by
  refine ⟨⟨List.forall_mem_singleton.mpr ⟨trivial, by decide⟩, fun claimed => ?_⟩,
    ⟨List.forall_mem_singleton.mpr ⟨trivial, by decide +kernel⟩, fun claimed => ?_⟩,
    ⟨List.forall_mem_cons.mpr ⟨⟨isSeparator_optionValueSep, by decide⟩,
      List.forall_mem_singleton.mpr ⟨trivial, by decide⟩⟩, fun claimed => ?_⟩⟩
  · exact absurd (claimed.2 [1] (by decide +kernel)) (by decide +kernel)
  · exact absurd (claimed.2 (List.replicate 600 97) (by decide +kernel)) (by decide +kernel)
  · have order := claimed.1 optionValueSep (.inr rfl)
    exact absurd order (by decide +kernel)

end LineList

end LPRng
