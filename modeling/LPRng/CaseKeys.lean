import LPRng.LineList

/-!
# Line lists with case sensitive keys

`Find_casekey_str_value` and `Set_casekey_str_value` work on sorted line lists as their relatives
do, but compare keys by `safestrcmp`. Names of files are kept in such lists. A list that is only
written through these two is a table.
-/

namespace LPRng

/-- `safestrcmp`. -/
def strcmp : Bytes → Bytes → Ordering
  | [], [] => .eq
  | [], _ :: _ => .lt
  | _ :: _, [] => .gt
  | c :: s, d :: t => (compare c.toNat d.toNat).then (strcmp s t)

def codes (s : Bytes) : List ℕ := s.map UInt8.toNat

theorem strcmp_compares (s t : Bytes) : (strcmp s t).Compares (codes s) (codes t) := by
  induction s generalizing t with
  | nil =>
      cases t with
      | nil => rfl
      | cons d t => exact List.nil_lt_cons _ _
  | cons c s ih =>
      cases t with
      | nil => exact List.nil_lt_cons _ _
      | cons d t => exact compares_cons fun _ => ih t

theorem codes_inj {s t : Bytes} : codes s = codes t ↔ s = t :=
  (List.map_injective_iff.mpr fun _ _ => UInt8.toNat_inj.mp).eq_iff

namespace LineList

/-! ## Operations -/

def compareCasekey (l : LineList) (key sep : Bytes) (i : Nat) : Ordering :=
  strcmp key (keyOf sep (l.getD i []))

def hasCasekey (key sep line : Bytes) : Bool := strcmp (keyOf sep line) key = .eq

/-- `Find_last_casekey`. -/
def findLastCasekey (l : LineList) (key sep : Bytes) : Ordering × Nat :=
  search (l.compareCasekey key sep)
    (fun mid => mid + ((l.drop (mid + 1)).takeWhile (hasCasekey key sep)).length) .lt 0 0 l.length

/-- `Find_first_casekey`. -/
def findFirstCasekey (l : LineList) (key sep : Bytes) : Ordering × Nat :=
  search (l.compareCasekey key sep)
    (fun mid => mid - ((l.take mid).reverse.takeWhile (hasCasekey key sep)).length) .lt 0 0 l.length

/-- `Add_casekey_line_list`, which always sorts and keeps one line for a key. -/
def addCasekeyLineList (l : LineList) (str sep : Bytes) : LineList :=
  match l.findLastCasekey (keyOf sep str) sep with
  | (.eq, mid) => l.set mid str
  | (.gt, mid) => l.take (mid + 1) ++ str :: l.drop (mid + 1)
  | (.lt, mid) => l.take mid ++ str :: l.drop mid

/-- What stands behind the first separator of a line, if that is a `=`. -/
def casekeyValue (sep line : Bytes) : Option Bytes :=
  match line.dropWhile (!sep.contains ·) with
  | 61 :: value => some value
  | _ => none

def findCasekeyStrValue (l : LineList) (key sep : Bytes) : Option Bytes :=
  match l.findFirstCasekey key sep with
  | (.eq, mid) => casekeyValue sep (l.getD mid [])
  | _ => none

def setCasekeyStrValue (l : LineList) (key : Bytes) : Option Bytes → LineList
  | some (c :: cs) => l.addCasekeyLineList (key ++ 61 :: c :: cs) hashValueSep
  | some [] | none =>
      match l.findFirstCasekey key hashValueSep with
      | (.eq, mid) => l.removeLineList mid
      | _ => l

/-! ## Sorted lists -/

def casekeyOf (line : Bytes) : List ℕ := codes (keyOf hashValueSep line)

variable {l : LineList} {key line : Bytes}

theorem casekey_probes (key : Bytes) :
    Probes (l.compareCasekey key hashValueSep) casekeyOf (codes key) l := by
  intro i inside
  rw [compareCasekey, List.getD_eq_getElem?_getD, List.getElem?_eq_getElem inside, Option.getD_some]
  exact strcmp_compares _ _

theorem casekeyOf_of_hasCasekey :
    ∀ line ∈ l, hasCasekey key hashValueSep line = true → casekeyOf line = codes key :=
  fun _ _ equal => (strcmp_compares _ _).eq_eq.mp (of_decide_eq_true equal)

theorem addCasekeyLineList_eq (sorted : KeySorted casekeyOf l) :
    l.addCasekeyLineList line hashValueSep = insertKey casekeyOf line l := by
  obtain ⟨lows, found, highs, around, outcome⟩ :=
    sorted.search_last (casekey_probes (keyOf hashValueSep line)) casekeyOf_of_hasCasekey
  have around : Around casekeyOf (casekeyOf line) l lows found highs := around
  unfold addCasekeyLineList findLastCasekey
  cases found with
  | some a =>
      rw [outcome]
      exact around.set_found
  | none =>
      rcases outcome with before | ⟨mid, after, next⟩
      · rw [before]
        exact around.insert_absent
      · rw [after]
        dsimp only
        rw [next]
        exact around.insert_absent

theorem findCasekeyStrValue_eq (sorted : KeySorted casekeyOf l) :
    l.findCasekeyStrValue key hashValueSep =
      (lookupKey casekeyOf (codes key) l).bind (casekeyValue hashValueSep) := by
  obtain ⟨lows, found, highs, around, outcome⟩ :=
    sorted.search_first (casekey_probes key) casekeyOf_of_hasCasekey
  rw [around.lookupKey_eq]
  unfold findCasekeyStrValue findFirstCasekey
  cases found with
  | some a =>
      rw [outcome]
      dsimp only
      rw [List.getD_eq_getElem?_getD, around.getElem?_found]
      rfl
  | none =>
      split
      · next mid equal => exact absurd equal (outcome mid)
      · rfl

/-- A key that is read as it was written: it has no separator in it. -/
def CasekeyFree (key : Bytes) : Prop := ∀ c ∈ key, hashValueSep.contains c = false

theorem casekey_keyValue (free : CasekeyFree key) (value : Bytes) :
    casekeyOf (key ++ 61 :: value) = codes key ∧
      casekeyValue hashValueSep (key ++ 61 :: value) = some value := by
  have inside : ∀ c ∈ key, (!hashValueSep.contains c) = true := fun c member => by rw [free c member]; rfl
  obtain ⟨taken, dropped⟩ := takeWhile_sepFree inside (by decide)
  exact ⟨congrArg codes taken, by rw [casekeyValue, dropped]; rfl⟩

theorem keySorted_setCasekeyStrValue (sorted : KeySorted casekeyOf l) {value : Bytes} (given : value ≠ []) :
    KeySorted casekeyOf (l.setCasekeyStrValue key (some value)) := by
  obtain ⟨c, cs, rfl⟩ := List.exists_cons_of_ne_nil given
  rw [setCasekeyStrValue, addCasekeyLineList_eq sorted]
  exact sorted.insertKey

/-- A value that is set is found under its key, and no other value changes. -/
theorem findCasekeyStrValue_set (sorted : KeySorted casekeyOf l) (free : CasekeyFree key)
    {value : Bytes} (given : value ≠ []) (other : Bytes) :
    (l.setCasekeyStrValue key (some value)).findCasekeyStrValue other hashValueSep =
      if other = key then some value else l.findCasekeyStrValue other hashValueSep := by
  obtain ⟨c, cs, rfl⟩ := List.exists_cons_of_ne_nil given
  obtain ⟨keyed, valued⟩ := casekey_keyValue free (c :: cs)
  rw [findCasekeyStrValue_eq (keySorted_setCasekeyStrValue sorted given), setCasekeyStrValue,
    addCasekeyLineList_eq sorted, lookupKey_insertKey, keyed, findCasekeyStrValue_eq sorted]
  by_cases same : other = key
  · rw [if_pos (codes_inj.mpr same), if_pos same]
    exact valued
  · rw [if_neg (codes_inj.not.mpr same), if_neg same]

theorem findCasekeyStrValue_nil (key : Bytes) :
    findCasekeyStrValue [] key hashValueSep = none :=
  findCasekeyStrValue_eq keySorted_nil

end LineList

end LPRng
