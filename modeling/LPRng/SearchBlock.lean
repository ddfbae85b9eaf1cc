import LPRng.SortedKeys
import Mathlib.Data.List.GetD

/-!
# Searches for a block of entries

A binary search for entries that a comparison takes for equal, which stand together, ends at one of them. A
search with a comparison that goes wrong at some entries before the block fails exactly if it tests one of them.
-/

namespace LPRng

variable {probe other : Nat → Ordering} {settle : Nat → Nat} {cmp : Ordering} {mid bot past a b n : Nat}

/-- The entries that a search tests. -/
def tested (probe : Nat → Ordering) (bot past : Nat) : List Nat :=
  if bot < past then
    let mid := (past - 1 + bot) / 2
    match probe mid with
    | .gt => mid :: tested probe (mid + 1) past
    | .lt => mid :: tested probe bot mid
    | .eq => [mid]
  else []
termination_by past - bot

/-- Comparisons that agree where the search tests find the same. -/
theorem search_congr (same : ∀ i ∈ tested probe bot past, other i = probe i) :
    search other settle cmp mid bot past = search probe settle cmp mid bot past := by
  fun_induction search probe settle cmp mid bot past with
  | case1 cmp mid bot past open_ half greater ih =>
      rw [tested, if_pos open_] at same
      simp only [show probe ((past - 1 + bot) / 2) = .gt from greater] at same
      rw [search, if_pos open_]
      simp only [same _ List.mem_cons_self, show probe ((past - 1 + bot) / 2) = .gt from greater]
      exact ih fun i member => same i (List.mem_cons_of_mem _ member)
  | case2 cmp mid bot past open_ half less ih =>
      rw [tested, if_pos open_] at same
      simp only [show probe ((past - 1 + bot) / 2) = .lt from less] at same
      rw [search, if_pos open_]
      simp only [same _ List.mem_cons_self, show probe ((past - 1 + bot) / 2) = .lt from less]
      exact ih fun i member => same i (List.mem_cons_of_mem _ member)
  | case3 cmp mid bot past open_ half equal =>
      rw [tested, if_pos open_] at same
      simp only [show probe ((past - 1 + bot) / 2) = .eq from equal] at same
      rw [search, if_pos open_]
      simp only [same _ List.mem_cons_self, show probe ((past - 1 + bot) / 2) = .eq from equal]
      rfl
  | case4 cmp mid bot past closed => rw [search, if_neg closed]

/-- Nothing is found where nothing is equal. -/
theorem search_ne_eq (absent : ∀ i, bot ≤ i → i < past → probe i ≠ .eq) (start : cmp ≠ .eq) :
    (search probe settle cmp mid bot past).1 ≠ .eq := by
  fun_induction search probe settle cmp mid bot past with
  | case1 cmp mid bot past open_ half greater ih =>
      exact ih (fun i low high => absent i (by omega) high) (by decide)
  | case2 cmp mid bot past open_ half less ih =>
      exact ih (fun i low high => absent i low (by omega)) (by decide)
  | case3 cmp mid bot past open_ half equal => exact absurd equal (absent half (by omega) (by omega))
  | case4 cmp mid bot past closed => exact start

/-- A search that is sent to the wrong side before the block does not find it. -/
theorem search_misled (left : ∀ i, other i ≠ probe i → i < a ∧ other i = .lt) (before : ∀ i < a, other i ≠ .eq)
    (start : cmp ≠ .eq) (lost : ∃ i ∈ tested probe bot past, other i ≠ probe i) :
    (search other settle cmp mid bot past).1 ≠ .eq := by
  have wrong : ∀ {bot past mid : Nat} {cmp : Ordering}, bot < past →
      other ((past - 1 + bot) / 2) ≠ probe ((past - 1 + bot) / 2) →
      (search other settle cmp mid bot past).1 ≠ .eq := by
    intro bot past mid cmp open_ differs
    rcases left _ differs with ⟨early, less⟩
    rw [search, if_pos open_]
    simp only [less]
    exact search_ne_eq (fun i _ high => before i (by omega)) (by decide)
  fun_induction search probe settle cmp mid bot past with
  | case1 cmp mid bot past open_ half greater ih =>
      by_cases same : other half = probe half
      · rw [tested, if_pos open_] at lost
        simp only [show probe ((past - 1 + bot) / 2) = .gt from greater] at lost
        rw [search, if_pos open_]
        simp only [show other ((past - 1 + bot) / 2) = .gt from same.trans greater]
        rcases lost with ⟨i, member, differs⟩
        rcases List.mem_cons.mp member with rfl | rest
        · exact absurd same differs
        · exact ih (by decide) ⟨i, rest, differs⟩
      · exact wrong open_ same
  | case2 cmp mid bot past open_ half less ih =>
      by_cases same : other half = probe half
      · rw [tested, if_pos open_] at lost
        simp only [show probe ((past - 1 + bot) / 2) = .lt from less] at lost
        rw [search, if_pos open_]
        simp only [show other ((past - 1 + bot) / 2) = .lt from same.trans less]
        rcases lost with ⟨i, member, differs⟩
        rcases List.mem_cons.mp member with rfl | rest
        · exact absurd same differs
        · exact ih (by decide) ⟨i, rest, differs⟩
      · exact wrong open_ same
  | case3 cmp mid bot past open_ half equal =>
      rw [tested, if_pos open_] at lost
      simp only [show probe ((past - 1 + bot) / 2) = .eq from equal] at lost
      rcases lost with ⟨i, member, differs⟩
      exact wrong open_ (List.mem_singleton.mp member ▸ differs)
  | case4 cmp mid bot past closed =>
      rw [tested, if_neg closed] at lost
      rcases lost with ⟨i, member, -⟩
      cases member

/-- The entries from `a` on and before `b` are equal, those in front below and those behind above. -/
structure IsBlock (probe : Nat → Ordering) (a b n : Nat) : Prop where
  given : a < b
  inside : b ≤ n
  below : ∀ i < a, probe i = .gt
  equal : ∀ i, a ≤ i → i < b → probe i = .eq
  above : ∀ i, b ≤ i → i < n → probe i = .lt

/-- The search ends in the block. -/
theorem IsBlock.search (block : IsBlock probe a b n) (low : bot ≤ a) (high : b ≤ past) (end_ : past ≤ n) :
    ∃ m, a ≤ m ∧ m < b ∧ search probe settle cmp mid bot past = (.eq, settle m) := by
  have given := block.given
  fun_induction LPRng.search probe settle cmp mid bot past with
  | case1 cmp mid bot past open_ half greater ih =>
      refine ih ?_ high end_
      by_contra late
      by_cases within : half < b
      · cases (block.equal half (by omega) within).symm.trans greater
      · cases (block.above half (by omega) (by omega)).symm.trans greater
  | case2 cmp mid bot past open_ half less ih =>
      refine ih low ?_ (by omega)
      by_contra early
      by_cases within : a ≤ half
      · cases (block.equal half within (by omega)).symm.trans less
      · cases (block.below half (by omega)).symm.trans less
  | case3 cmp mid bot past open_ half equal =>
      refine ⟨half, ?_, ?_, rfl⟩
      · by_contra early
        cases (block.below half (by omega)).symm.trans equal
      · by_contra late
        cases (block.above half (by omega) (by omega)).symm.trans equal
  | case4 cmp mid bot past closed => omega

/-! ## Parts of sorted lists -/

section Parts

variable {α κ : Type*} [LinearOrder κ] {k : α → κ} {e d : α} {l lows block highs : List α}

theorem isBlock_of_parts {f : α → Ordering} (given : block ≠ []) (low : ∀ e ∈ lows, f e = .gt)
    (equal : ∀ e ∈ block, f e = .eq) (high : ∀ e ∈ highs, f e = .lt) :
    IsBlock (fun i => f ((lows ++ (block ++ highs)).getD i d)) lows.length (lows.length + block.length)
      (lows ++ (block ++ highs)).length := by
  have size : (lows ++ (block ++ highs)).length = lows.length + (block.length + highs.length) := by
    rw [List.length_append, List.length_append]
  have member : ∀ {part : List α} {i : Nat}, i < part.length → part.getD i d ∈ part := by
    intro part i inside
    rw [List.getD_eq_getElem _ _ inside]
    exact List.getElem_mem inside
  refine ⟨Nat.lt_add_of_pos_right (List.length_pos_of_ne_nil given), by omega, fun i early => ?_, fun i first last => ?_,
    fun i late inside => ?_⟩
  · rw [List.getD_append _ _ _ _ early]
    exact low _ (member early)
  · rw [List.getD_append_right _ _ _ _ first, List.getD_append _ _ _ _ (by omega)]
    exact equal _ (member (by omega))
  · rw [List.getD_append_right _ _ _ _ (by omega), List.getD_append_right _ _ _ _ (by omega)]
    exact high _ (member (by omega))

section Settle

variable {hit : α → Bool} {m : Nat} (hits : ∀ e ∈ block, hit e = true)

include hits

/-- From an entry of the block the way back ends at the first. -/
theorem first_hit (stops : ∀ e ∈ lows, hit e = false) (first : lows.length ≤ m) (last : m < lows.length + block.length) :
    m - (((lows ++ (block ++ highs)).take m).reverse.takeWhile hit).length = lows.length := by
  have front : (lows ++ (block ++ highs)).take m = lows ++ block.take (m - lows.length) := by
    rw [List.take_append, List.take_of_length_le first, List.take_append_of_le_length (by omega)]
  have inside : ∀ e ∈ (block.take (m - lows.length)).reverse, hit e = true := fun e member =>
    hits e (List.mem_of_mem_take (List.mem_reverse.mp member))
  have misses : lows.reverse.takeWhile hit = [] := by
    rcases turned : lows.reverse with - | ⟨e, rest⟩
    · rfl
    · have member : e ∈ lows := List.mem_reverse.mp (turned ▸ List.mem_cons_self)
      exact List.takeWhile_cons_of_neg (Bool.eq_false_iff.mp (stops e member))
  rw [front, List.reverse_append, List.takeWhile_append_of_pos inside, misses, List.append_nil, List.length_reverse,
    List.length_take]
  omega

/-- And the way on at the last. -/
theorem last_hit (stops : ∀ e ∈ highs, hit e = false) (first : lows.length ≤ m) (last : m < lows.length + block.length) :
    m + (((lows ++ (block ++ highs)).drop (m + 1)).takeWhile hit).length + 1 = lows.length + block.length := by
  have back : (lows ++ (block ++ highs)).drop (m + 1) = block.drop (m + 1 - lows.length) ++ highs := by
    rw [List.drop_append, List.drop_of_length_le (by omega), List.nil_append, List.drop_append_of_le_length (by omega)]
  have inside : ∀ e ∈ block.drop (m + 1 - lows.length), hit e = true := fun e member => hits e (List.mem_of_mem_drop member)
  have misses : highs.takeWhile hit = [] := by
    rcases highs with - | ⟨e, rest⟩
    · rfl
    · exact List.takeWhile_cons_of_neg (Bool.eq_false_iff.mp (stops e List.mem_cons_self))
  rw [back, List.takeWhile_append_of_pos inside, misses, List.append_nil, List.length_drop]
  omega

end Settle

/-- What a monotone view of the entries divides a list into. -/
theorem parts_of_pairwise {g : α → κ} (sorted : l.Pairwise fun a b => g a ≤ g b) (t : κ) :
    l = l.filter (g · < t) ++ (l.filter (g · = t) ++ l.filter (t < g ·)) := by
  induction l with
  | nil => rfl
  | cons e l ih =>
      rcases List.pairwise_cons.mp sorted with ⟨least, sorted⟩
      have rest := ih sorted
      rcases lt_trichotomy (g e) t with less | equal | greater
      · rw [List.filter_cons, List.filter_cons, List.filter_cons, if_pos (decide_eq_true less),
          if_neg (by simpa using less.ne), if_neg (by simpa using less.le), List.cons_append, ← rest]
      · have none_below : l.filter (g · < t) = [] :=
          List.filter_eq_nil_iff.mpr fun a member below =>
            (equal ▸ least a member).not_gt (of_decide_eq_true below)
        rw [none_below, List.nil_append] at rest
        rw [List.filter_cons, List.filter_cons, List.filter_cons, if_neg (by simpa using equal.ge),
          if_pos (decide_eq_true equal), if_neg (by simpa using equal.le), none_below, List.nil_append,
          List.cons_append, ← rest]
      · have none_below : l.filter (g · < t) = [] :=
          List.filter_eq_nil_iff.mpr fun a member below =>
            (greater.trans_le (least a member)).not_gt (of_decide_eq_true below)
        have none_equal : l.filter (g · = t) = [] :=
          List.filter_eq_nil_iff.mpr fun a member equal =>
            (greater.trans_le (least a member)).ne' (of_decide_eq_true equal)
        rw [none_below, none_equal, List.nil_append, List.nil_append] at rest
        rw [List.filter_cons, List.filter_cons, List.filter_cons, if_neg (by simpa using greater.le),
          if_neg (by simpa using greater.ne'), if_pos (decide_eq_true greater), none_below, none_equal,
          List.nil_append, List.nil_append, ← rest]

/-- An entry that is there is put in place of itself. -/
theorem KeySorted.insertKey_of_mem (sorted : KeySorted k l) (member : e ∈ l) : LPRng.insertKey k e l = l := by
  refine sorted.insertKey.ext sorted fun a => ⟨fun inside => ?_, fun inside => ?_⟩
  · rcases mem_insertKey.mp inside with rfl | old
    · exact member
    · exact old.1
  · refine mem_insertKey.mpr ?_
    by_cases same : k a = k e
    · have found := sorted.lookupKey_of_mem inside
      rw [same, sorted.lookupKey_of_mem member] at found
      exact .inl (Option.some.inj found).symm
    · exact .inr ⟨inside, same⟩

theorem length_insertKey_of_absent (sorted : KeySorted k l) (absent : ∀ a ∈ l, k a ≠ k e) :
    (insertKey k e l).length = l.length + 1 := by
  rcases sorted.insertKey_perm (e := e) with ⟨-, perm⟩ | ⟨⟨a, member, same⟩, -⟩
  · rw [perm.length_eq, List.length_cons]
  · exact absurd same (absent a member)

theorem length_insertKey_of_present (sorted : KeySorted k l) (present : ∃ a ∈ l, k a = k e) :
    (insertKey k e l).length = l.length := by
  rcases sorted.insertKey_perm (e := e) with ⟨absent, -⟩ | ⟨-, length⟩
  · rcases present with ⟨a, member, same⟩
    exact absurd same (absent a member)
  · exact length

theorem lookupKey_of_absent {x : κ} (absent : ∀ a ∈ l, k a ≠ x) : lookupKey k x l = none :=
  List.find?_eq_none.mpr fun a member same => absent a member (of_decide_eq_true same)

/-- The keys above a higher one are fewer. -/
theorem length_keysAbove_lt {x y : κ} {keys : List κ} (less : x < y) (member : y ∈ keys) :
    (keysAbove id y keys).length < (keysAbove id x keys).length := by
  have part : keysAbove id y keys = keysAbove id y (keysAbove id x keys) := by
    unfold keysAbove
    rw [List.filter_filter]
    refine List.filter_congr fun a _ => ?_
    by_cases above : y < id a
    · rw [decide_eq_true above, decide_eq_true (less.trans above)]
      rfl
    · rw [decide_eq_false above]
      rfl
  rw [part]
  refine List.length_filter_lt_length_iff_exists.mpr ⟨y, mem_keysAbove.mpr ⟨member, less⟩, ?_⟩
  simp

/-- Entries with different keys are found before those they are put among. -/
theorem lookupKey_insertInto {es : List α} (distinct : KeySorted k es) (y : κ) :
    lookupKey k y (insertInto k l es) = (lookupKey k y es).or (lookupKey k y l) := by
  induction es generalizing l with
  | nil => rfl
  | cons e es ih =>
      rcases List.pairwise_cons.mp distinct with ⟨least, distinct⟩
      have step : insertInto k l (e :: es) = insertInto k (insertKey k e l) es := rfl
      have first : lookupKey k y (e :: es) = if y = k e then some e else lookupKey k y es := by
        rw [lookupKey, List.find?_cons]
        by_cases same : y = k e
        · rw [if_pos same, decide_eq_true same.symm]
        · rw [if_neg same, decide_eq_false fun equal => same equal.symm]
          rfl
      rw [step, ih distinct, lookupKey_insertKey, first]
      split
      · next same =>
          have absent : lookupKey k y es = none :=
            List.find?_eq_none.mpr fun a member equal => (same ▸ least a member).ne' (of_decide_eq_true equal)
          rw [absent]
          rfl
      · rfl

end Parts

end LPRng
