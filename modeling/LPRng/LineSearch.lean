import LPRng.EscapedLines
import LPRng.JobNumber

/-!
# Searches in lists of any lines

A line with a blank or an `@` in its key is put in by another key than it is found with. Lists that hold
such lines are still in the order of the keys that were used to put them in, and a line that is found in
them still has the key that was searched for.
-/

namespace LPRng

/-! ## What a search finds -/

/-- A search that ends at an equal entry has compared with one. -/
theorem search_eq {probe : Nat → Ordering} {settle : Nat → Nat} {cmp : Ordering} {mid bot past m : Nat}
    (start : cmp ≠ .eq) (found : search probe settle cmp mid bot past = (.eq, m)) :
    ∃ i < past, probe i = .eq ∧ m = settle i := by
  fun_induction search probe settle cmp mid bot past with
  | case1 cmp mid bot past open_ half less ih => exact ih (by decide) found
  | case2 cmp mid bot past open_ half greater ih =>
      rcases ih (by decide) found with ⟨i, inside, equal, settled⟩
      exact ⟨i, by omega, equal, settled⟩
  | case3 cmp mid bot past open_ half equal =>
      exact ⟨half, by omega, equal, (Prod.ext_iff.mp found).2.symm⟩
  | case4 cmp mid bot past closed => exact absurd (Prod.ext_iff.mp found).1 start

/-- Going back over entries that all hit ends at one of them. -/
theorem hit_of_takeWhile {α : Type*} {hit : α → Bool} {l : List α} {i : Nat} (inside : i < l.length)
    (here : ∀ a ∈ l[i]?, hit a = true) :
    ∃ a, l[i - ((l.take i).reverse.takeWhile hit).length]? = some a ∧ hit a = true := by
  rcases run : (l.take i).reverse.takeWhile hit with _ | ⟨b, more⟩
  · have entry : l[i]? = some l[i] := List.getElem?_eq_getElem inside
    exact ⟨l[i], entry, here l[i] entry⟩
  · have length : ((l.take i).reverse.takeWhile hit).length = more.length + 1 := by
      rw [run, List.length_cons]
    have within := (List.takeWhile_prefix hit (l := (l.take i).reverse)).length_le
    rw [length, List.length_reverse, List.length_take] at within
    have last : ((l.take i).reverse.takeWhile hit)[more.length]? = l[i - (more.length + 1)]? := by
      have front := List.prefix_iff_getElem?.mp (List.takeWhile_prefix (l := (l.take i).reverse) hit) more.length (by omega)
      rw [List.getElem?_eq_getElem (by omega), ← front, List.getElem?_reverse (by rw [List.length_take]; omega),
        List.length_take, List.getElem?_take, if_pos (by omega)]
      congr 1
      omega
    have earlier : i - (more.length + 1) < l.length := by omega
    have entry : l[i - (more.length + 1)]? = some l[i - (more.length + 1)] := List.getElem?_eq_getElem earlier
    refine ⟨_, entry, ?_⟩
    rw [entry] at last
    exact List.mem_takeWhile_imp (List.mem_of_getElem? last)

namespace LineList

variable {l : LineList} {key sep line value : Bytes}

theorem hasKey_iff : hasKey key sep line = true ↔ foldCase (keyOf sep line) = foldCase key := by
  rw [hasKey, decide_eq_true_iff]
  exact (strcasecmp_compares _ _).eq_eq

/-- What is found has the key. -/
theorem exists_of_findFirstKey {m : Nat} (found : l.findFirstKey key sep = (.eq, m)) :
    ∃ line, l[m]? = some line ∧ foldCase (keyOf sep line) = foldCase key := by
  rcases search_eq (by decide) found with ⟨i, inside, equal, rfl⟩
  rw [compareKey, List.getD_eq_getElem?_getD, List.getElem?_eq_getElem inside, Option.getD_some] at equal
  have same := (strcasecmp_compares key (keyOf sep l[i])).eq_eq.mp equal
  have here : ∀ a ∈ l[i]?, hasKey key sep a = true := by
    intro a entry
    rw [List.getElem?_eq_getElem inside] at entry
    rw [← Option.some.inj entry]
    exact hasKey_iff.mpr same.symm
  rcases hit_of_takeWhile inside here with ⟨line, entry, hit⟩
  exact ⟨line, entry, hasKey_iff.mp hit⟩

theorem valueOf_subset (given : valueOf line = some value) : value ⊆ line := by
  unfold valueOf at given
  split at given
  · next rest behind =>
      cases given
      exact fun d member => (List.dropWhile_suffix _).subset (behind ▸ List.mem_cons_of_mem _ member)
  · cases given

theorem exists_of_findStrValue (found : l.findStrValue key = some value) :
    ∃ line ∈ l, lineKey line = foldCase key ∧ valueOf line = some value := by
  unfold findStrValue at found
  split at found
  · next m search =>
      rcases exists_of_findFirstKey search with ⟨line, entry, same⟩
      rw [List.getD_eq_getElem?_getD, entry, Option.getD_some] at found
      exact ⟨line, List.mem_of_getElem? entry, same, found⟩
  · cases found

/-! ## Lines in the order they were put in -/

/-- A line that is put in by `Set_str_value`. -/
theorem setStrValue_hashKey (sorted : KeySorted hashKey l) (given : Option Bytes) :
    l.setStrValue key given =
      match given.filter (· ≠ []) with
      | some value => insertKey hashKey (key ++ 61 :: value) l
      | none => eraseKey hashKey (foldCase key) l := by
  rcases given with _ | ⟨_ | ⟨c, cs⟩⟩
  · exact (tells_hashKey sorted key).removeKey
  · exact (tells_hashKey sorted key).removeKey
  · exact (tells_hashKey sorted _).addLineList rfl

theorem tells_lineKey (sorted : KeySorted lineKey l) (key : Bytes) : l.Tells lineKey key optionValueSep :=
  ⟨sorted, fun line _ => strcasecmp_compares key (keyOf optionValueSep line)⟩

/-- What `Split` keeps of a text: its pieces without white space at their ends, but for comments. -/
def keptPieces (sep str : Bytes) : LineList :=
  ((pieces sep str).map trimSpace).filter fun line => line ≠ [] && line.head? ≠ some 35

theorem split_eq_insertAll (str sep : Bytes) :
    split [] str sep true optionValueSep true true true = insertAll lineKey (keptPieces sep str) := by
  have run : ∀ (parts : List Bytes) (l : LineList), KeySorted lineKey l →
      parts.foldl (fun l piece =>
        let piece := if true then trimSpace piece else piece
        if true && piece = [] then l
        else if true && piece.head? = some 35 then l
        else l.addLineList piece optionValueSep true true) l =
        insertInto lineKey l ((parts.map trimSpace).filter fun line => line ≠ [] && line.head? ≠ some 35) := by
    intro parts
    induction parts with
    | nil => exact fun l _ => rfl
    | cons piece parts ih =>
        intro l sorted
        rw [List.foldl_cons, List.map_cons, List.filter_cons]
        by_cases empty : trimSpace piece = []
        · simpa [empty] using ih l sorted
        · by_cases comment : (trimSpace piece).head? = some 35
          · simpa [empty, comment] using ih l sorted
          · have same : foldCase (keyOf optionValueSep (trimSpace piece)) = lineKey (trimSpace piece) := rfl
            have added := (tells_lineKey sorted _).addLineList same
            simpa [empty, comment, added, insertInto] using ih _ sorted.insertKey
  exact run (pieces sep str) [] keySorted_nil

/-! ## Flags -/

theorem isAlnum_of_mem_printHex {n : Int} {c : UInt8} (member : c ∈ printHex n) : isAlnum c = true := by
  rcases List.mem_append.mp member with front | digit
  · have table : (lit "0x").all isAlnum = true := rfl
    exact List.all_eq_true.mp table c front
  · unfold printNat at digit
    split at digit
    · rw [List.mem_singleton.mp digit]
      rfl
    · rcases List.mem_map.mp digit with ⟨d, inside, rfl⟩
      have small : d < 16 := Nat.digits_lt_base (by decide) (List.mem_reverse.mp inside)
      have table : ∀ d : Fin 16, isAlnum (digitByte d) = true := by decide
      exact table ⟨d, small⟩

theorem length_printHex (n : Int) : (printHex n).length ≤ 18 := by
  have small : (n % 2 ^ 64).toNat < 16 ^ 16 := by
    have least := Int.emod_nonneg n (by decide : (2 ^ 64 : Int) ≠ 0)
    have most := Int.emod_lt_of_pos n (by decide : (0 : Int) < 2 ^ 64)
    omega
  have digits := JobNumber.length_printNat_le (by decide : 2 ≤ 16) (by decide : 0 < 16) small
  have front : (lit "0x").length = 2 := rfl
  rw [printHex, List.length_append]
  omega

/-- The line of a flag, in a buffer that has room for it. -/
theorem printedLine_printHex (word : ∀ d ∈ key, isWordChar d = true) (short : key.length < 480) (n : Int) :
    printedLine key (printHex n) = key ++ 61 :: printHex n := by
  have digits := length_printHex n
  exact printedLine_of_prints ⟨fmtString_of_word word, by omega⟩

/-- What `Set_flag_value` does: the line of the key is replaced. -/
theorem Keyed.setFlagValue (keyed : l.Keyed) (word : ∀ d ∈ key, isWordChar d = true)
    (short : key.length < 480) (n : Int) : l.setFlagValue key n = insertKey lineKey (key ++ 61 :: printHex n) l := by
  rw [LineList.setFlagValue, printedLine_printHex word short]
  exact keyed.addLineList isSeparator_hashValueSep (clear_keyValue (sepFree_of_word word) _)

end LineList

/-- A text with a `=` in it is no number. -/
theorem flagOfText_of_mem {s : Bytes} (member : (61 : UInt8) ∈ s) : flagOfText s = 0 :=
  if_neg fun whole => not_mem_of_strtol whole (by decide) (by decide) (by decide) (by decide) member

end LPRng
