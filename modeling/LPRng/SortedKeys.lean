import Mathlib.Data.List.Basic
import Mathlib.Data.List.Induction
import Mathlib.Order.Compare
import Mathlib.Order.Lattice

/-!
# Lists sorted by their keys

A list whose entries stand in strictly increasing order of their keys is a finite map:
an entry is put in, taken out and looked up between the entries below and the entries
above its key. The loop of a binary search finds this place; what the position it ends
with means depends on how the last comparison came out.
-/

namespace LPRng

/-! ## The loop of a binary search -/

/-- Searches the entries from `bot` on and before `past`. `probe` compares the key
searched for with an entry, `cmp` and `mid` are the last comparison and where it was made,
and `settle` moves on from an equal entry. -/
def search (probe : Nat → Ordering) (settle : Nat → Nat) (cmp : Ordering)
    (mid bot past : Nat) : Ordering × Nat :=
  if bot < past then
    let mid := (past - 1 + bot) / 2
    match probe mid with
    | .gt => search probe settle .gt mid (mid + 1) past
    | .lt => search probe settle .lt mid bot mid
    | .eq => (.eq, settle mid)
  else (cmp, mid)
termination_by past - bot

variable {probe : Nat → Ordering} {settle : Nat → Nat} {n p : Nat}

/-- The entries before `p` are below the key searched for, those behind it above. -/
structure Divides (probe : Nat → Ordering) (n p : Nat) : Prop where
  inside : p ≤ n
  below : ∀ i < p, probe i = .gt
  here : p < n → probe p ≠ .gt
  above : ∀ i, p < i → i < n → probe i = .lt

/-- What the last comparison and its position say about the place of the key. -/
inductive Lands (probe : Nat → Ordering) (settle : Nat → Nat) (n p : Nat) :
    Ordering × Nat → Prop
  | found (inside : p < n) (equal : probe p = .eq) : Lands probe settle n p (.eq, settle p)
  | before (absent : p < n → probe p = .lt) : Lands probe settle n p (.lt, p)
  | after {mid : Nat} (next : mid + 1 = p) (absent : p < n → probe p = .lt) :
      Lands probe settle n p (.gt, mid)

/-- The interval left to search has the place of the key in it, and once it is empty the
last comparison was made beside this place. -/
theorem search_lands (divides : Divides probe n p) {cmp : Ordering} {mid bot past : Nat}
    (low : bot ≤ p) (high : p ≤ past) (inside : past ≤ n)
    (outside : past < n → probe past = .lt)
    (beside : bot = past → cmp = .lt ∧ mid = p ∨ cmp = .gt ∧ mid + 1 = p) :
    Lands probe settle n p (search probe settle cmp mid bot past) := by
  fun_induction search probe settle cmp mid bot past with
  | case1 cmp mid bot past open_ half less ih =>
      have member : half < past := by omega
      have left : half < p := by
        rcases Nat.lt_trichotomy half p with left | same | right
        · exact left
        · exact absurd (same ▸ less) (divides.here (by omega))
        · exact absurd less (by rw [divides.above half right (by omega)]; decide)
      exact ih left high inside outside fun met => .inr ⟨rfl, by omega⟩
  | case2 cmp mid bot past open_ half greater ih =>
      have right : p ≤ half := by
        refine Nat.le_of_not_lt fun left => ?_
        rw [divides.below half left] at greater
        cases greater
      exact ih low right (by omega) (fun _ => greater) fun met => .inl ⟨rfl, by omega⟩
  | case3 cmp mid bot past open_ half equal =>
      have same : half = p := by
        rcases Nat.lt_trichotomy half p with left | same | right
        · rw [divides.below half left] at equal
          cases equal
        · exact same
        · rw [divides.above half right (by omega)] at equal
          cases equal
      rw [same] at equal ⊢
      exact .found (by omega) equal
  | case4 cmp mid bot past closed =>
      have met : past = p := by omega
      rw [met] at outside
      rcases beside (by omega) with ⟨rfl, rfl⟩ | ⟨rfl, next⟩
      · exact .before outside
      · exact .after next outside

/-! ## Entries in the order of their keys -/

section Entries

variable {α κ : Type*} [LinearOrder κ] {k : α → κ} {x y : κ} {e : α} {l lows highs : List α}
  {found : Option α}

/-- The entries stand in strictly increasing order of their keys. -/
def KeySorted (k : α → κ) (l : List α) : Prop := l.Pairwise fun a b => k a < k b

/-- The list with an entry put in, in place of one with an equal key. -/
def insertKey (k : α → κ) (e : α) (l : List α) : List α :=
  l.filter (k · < k e) ++ e :: l.filter (k e < k ·)

/-- The list without an entry of the key. -/
def eraseKey (k : α → κ) (x : κ) (l : List α) : List α := l.filter (k · ≠ x)

def lookupKey (k : α → κ) (x : κ) (l : List α) : Option α := l.find? (k · = x)

theorem keySorted_nil : KeySorted k [] := List.Pairwise.nil

theorem KeySorted.eraseKey (sorted : KeySorted k l) : KeySorted k (eraseKey k x l) :=
  List.Pairwise.filter _ sorted

theorem KeySorted.insertKey (sorted : KeySorted k l) : KeySorted k (insertKey k e l) := by
  refine List.pairwise_append.mpr ⟨List.Pairwise.filter _ sorted,
    List.pairwise_cons.mpr ⟨fun b member => ?_, List.Pairwise.filter _ sorted⟩, fun a left b right => ?_⟩
  · exact of_decide_eq_true (List.mem_filter.mp member).2
  · have low : k a < k e := of_decide_eq_true (List.mem_filter.mp left).2
    rcases List.mem_cons.mp right with rfl | member
    · exact low
    · exact low.trans (of_decide_eq_true (List.mem_filter.mp member).2)

/-! ### Members and filters -/

theorem mem_insertKey {a : α} : a ∈ insertKey k e l ↔ a = e ∨ a ∈ l ∧ k a ≠ k e := by
  simp only [insertKey, List.mem_append, List.mem_filter, List.mem_cons, decide_eq_true_eq]
  constructor
  · rintro (⟨member, low⟩ | same | ⟨member, high⟩)
    · exact .inr ⟨member, low.ne⟩
    · exact .inl same
    · exact .inr ⟨member, high.ne'⟩
  · rintro (same | ⟨member, other⟩)
    · exact .inr (.inl same)
    · rcases lt_or_gt_of_ne other with low | high
      · exact .inl ⟨member, low⟩
      · exact .inr (.inr ⟨member, high⟩)

theorem mem_eraseKey {a : α} : a ∈ eraseKey k x l ↔ a ∈ l ∧ k a ≠ x := by
  simp only [eraseKey, List.mem_filter, decide_eq_true_eq]

/-- A filter that drops the entries of a key does not see what is done at this key. -/
theorem filter_eraseKey {p : α → Bool} (drops : ∀ a, k a = x → p a = false) :
    (eraseKey k x l).filter p = l.filter p := by
  rw [eraseKey, List.filter_filter]
  refine List.filter_congr fun a _ => ?_
  by_cases here : k a = x
  · rw [drops a here, Bool.false_and]
  · rw [decide_eq_true here, Bool.and_true]

theorem insertKey_of_above (low : ∀ a ∈ l, k a < k e) : insertKey k e l = l ++ [e] := by
  have none_above : l.filter (k e < k ·) = [] :=
    List.filter_eq_nil_iff.mpr fun a member high => (low a member).not_gt (of_decide_eq_true high)
  have all_below : l.filter (k · < k e) = l :=
    List.filter_eq_self.mpr fun a member => decide_eq_true (low a member)
  rw [insertKey, all_below, none_above]

/-! ### Lookups -/

theorem of_lookupKey (found : lookupKey k x l = some e) : e ∈ l ∧ k e = x :=
  ⟨List.mem_of_find?_eq_some found, of_decide_eq_true (List.find?_some (p := (k · = x)) found)⟩

/-- A filter that keeps the entries of the key keeps what is looked up. -/
theorem lookupKey_filter_of_keeps {p : α → Bool} (keeps : ∀ a, k a = y → p a = true) :
    lookupKey k y (l.filter p) = lookupKey k y l := by
  unfold lookupKey
  rw [List.find?_filter]
  congr 1
  funext a
  by_cases here : k a = y
  · simp only [keeps a here, here, decide_true, and_self]
  · simp only [here, decide_false, Bool.false_eq_true, and_false]

theorem lookupKey_filter_of_drops {p : α → Bool} (drops : ∀ a, k a = y → p a = false) :
    lookupKey k y (l.filter p) = none := by
  refine List.find?_eq_none.mpr fun a member same => ?_
  have kept := (List.mem_filter.mp member).2
  rw [drops a (of_decide_eq_true same)] at kept
  cases kept

theorem lookupKey_eraseKey :
    lookupKey k y (eraseKey k x l) = if y = x then none else lookupKey k y l := by
  by_cases same : y = x
  · rw [if_pos same]
    exact lookupKey_filter_of_drops fun a here => decide_eq_false fun other => other (here.trans same)
  · rw [if_neg same]
    exact lookupKey_filter_of_keeps fun a here => decide_eq_true fun other => same (here.symm.trans other)

theorem lookupKey_insertKey :
    lookupKey k y (insertKey k e l) = if y = k e then some e else lookupKey k y l := by
  have parts : lookupKey k y (insertKey k e l) =
      ((lookupKey k y (l.filter (k · < k e))).or
        (if k e = y then some e else lookupKey k y (l.filter (k e < k ·)))) := by
    unfold lookupKey insertKey
    rw [List.find?_append, List.find?_cons]
    by_cases here : k e = y
    · rw [if_pos here, decide_eq_true here]
    · rw [if_neg here, decide_eq_false here]
  rw [parts]
  rcases lt_trichotomy y (k e) with low | same | high
  · rw [if_neg low.ne, if_neg low.ne',
      lookupKey_filter_of_keeps fun a here => decide_eq_true (here ▸ low),
      lookupKey_filter_of_drops fun a here => decide_eq_false (here ▸ low.not_gt), Option.or_none]
  · rw [if_pos same, if_pos same.symm,
      lookupKey_filter_of_drops fun a here => decide_eq_false (here ▸ same ▸ lt_irrefl _),
      Option.none_or]
  · rw [if_neg high.ne', if_neg high.ne,
      lookupKey_filter_of_drops fun a here => decide_eq_false (here ▸ high.not_gt),
      lookupKey_filter_of_keeps fun a here => decide_eq_true (here ▸ high), Option.none_or]

/-! ### The place of a key -/

/-- The entries below the key, the entry with the key if there is one, and the entries above. -/
structure Around (k : α → κ) (x : κ) (l lows : List α) (found : Option α) (highs : List α) :
    Prop where
  parts : l = lows ++ (found.toList ++ highs)
  low : ∀ a ∈ lows, k a < x
  equal : ∀ a ∈ found, k a = x
  high : ∀ a ∈ highs, x < k a

theorem KeySorted.exists_around (sorted : KeySorted k l) (x : κ) :
    ∃ lows found highs, Around k x l lows found highs := by
  induction l with
  | nil => exact ⟨[], none, [], rfl, fun _ => nofun, fun _ => nofun, fun _ => nofun⟩
  | cons e l ih =>
      obtain ⟨first, rest⟩ := List.pairwise_cons.mp sorted
      rcases lt_trichotomy (k e) x with low | same | high
      · obtain ⟨lows, found, highs, parts, lowKeys, equal, highKeys⟩ := ih rest
        refine ⟨e :: lows, found, highs, congrArg (e :: ·) parts, ?_, equal, highKeys⟩
        exact List.forall_mem_cons.mpr ⟨low, lowKeys⟩
      · refine ⟨[], some e, l, rfl, fun _ => nofun, ?_, fun a member => same ▸ first a member⟩
        intro a member
        rw [← Option.some.inj member]
        exact same
      · refine ⟨[], none, e :: l, rfl, fun _ => nofun, fun _ => nofun, ?_⟩
        exact List.forall_mem_cons.mpr ⟨high, fun a member => high.trans (first a member)⟩

namespace Around

theorem filter_low (around : Around k x l lows found highs) : l.filter (k · < x) = lows := by
  obtain ⟨rfl, low, equal, high⟩ := around
  rw [List.filter_append, List.filter_append, List.filter_eq_self.mpr fun a member => decide_eq_true (low a member),
    List.filter_eq_nil_iff.mpr fun a member below => ?_, List.filter_eq_nil_iff.mpr fun a member below => ?_,
    List.append_nil, List.append_nil]
  · exact (high a member).not_gt (of_decide_eq_true below)
  · exact (of_decide_eq_true below).ne (equal a (Option.mem_toList.mp member))

theorem filter_high (around : Around k x l lows found highs) : l.filter (x < k ·) = highs := by
  obtain ⟨rfl, low, equal, high⟩ := around
  rw [List.filter_append, List.filter_append, List.filter_eq_nil_iff.mpr fun a member above => ?_,
    List.filter_eq_nil_iff.mpr fun a member above => ?_,
    List.filter_eq_self.mpr fun a member => decide_eq_true (high a member),
    List.nil_append, List.nil_append]
  · exact (of_decide_eq_true above).ne' (equal a (Option.mem_toList.mp member))
  · exact (low a member).not_gt (of_decide_eq_true above)

theorem insertKey_eq (around : Around k (k e) l lows found highs) :
    insertKey k e l = lows ++ e :: highs := by
  rw [insertKey, around.filter_low, around.filter_high]

theorem eraseKey_eq (around : Around k x l lows found highs) : eraseKey k x l = lows ++ highs := by
  obtain ⟨rfl, low, equal, high⟩ := around
  rw [eraseKey, List.filter_append, List.filter_append,
    List.filter_eq_self.mpr fun a member => decide_eq_true (low a member).ne,
    List.filter_eq_nil_iff.mpr fun a member other => ?_,
    List.filter_eq_self.mpr fun a member => decide_eq_true (high a member).ne', List.nil_append]
  exact of_decide_eq_true other (equal a (Option.mem_toList.mp member))

theorem filter_insertKey (around : Around k (k e) l lows found highs) {p : α → Bool}
    (drops : ∀ a, k a = k e → p a = false) : (insertKey k e l).filter p = l.filter p := by
  have at_key : found.toList.filter p = [] := by
    refine List.filter_eq_nil_iff.mpr fun a member kept => ?_
    rw [drops a (around.equal a (Option.mem_toList.mp member))] at kept
    cases kept
  rw [around.insertKey_eq, around.parts, List.filter_append, List.filter_append, List.filter_append,
    at_key, List.filter_cons, drops e rfl]
  rfl

theorem lookupKey_eq (around : Around k x l lows found highs) : lookupKey k x l = found := by
  obtain ⟨rfl, low, equal, high⟩ := around
  rw [lookupKey, List.find?_append, List.find?_eq_none.mpr fun a member same => ?_, Option.none_or]
  · cases found with
    | none =>
        refine List.find?_eq_none.mpr fun a member same => ?_
        exact (high a member).ne' (of_decide_eq_true same)
    | some e =>
        have here : decide (k e = x) = true := decide_eq_true (equal e rfl)
        rw [Option.toList_some, List.singleton_append, List.find?_cons, here]
  · exact (low a member).ne (of_decide_eq_true same)

end Around

theorem KeySorted.filter_insertKey (sorted : KeySorted k l) {p : α → Bool}
    (drops : ∀ a, k a = k e → p a = false) : (LPRng.insertKey k e l).filter p = l.filter p := by
  obtain ⟨lows, found, highs, around⟩ := sorted.exists_around (k e)
  exact around.filter_insertKey drops

/-- The entry with a key is the one that is looked up. -/
theorem KeySorted.lookupKey_of_mem (sorted : KeySorted k l) (member : e ∈ l) :
    lookupKey k (k e) l = some e := by
  obtain ⟨lows, found, highs, around⟩ := sorted.exists_around (k e)
  rw [around.lookupKey_eq]
  rcases List.mem_append.mp (around.parts ▸ member) with low | rest
  · exact absurd (around.low e low) (lt_irrefl _)
  · rcases List.mem_append.mp rest with here | high
    · exact Option.mem_toList.mp here
    · exact absurd (around.high e high) (lt_irrefl _)

/-- The comparison of a key with the entries of the list, by position. -/
def Probes (probe : Nat → Ordering) (k : α → κ) (x : κ) (l : List α) : Prop :=
  ∀ i (inside : i < l.length), (probe i).Compares x (k l[i])

theorem Around.divides (around : Around k x l lows found highs) (probes : Probes probe k x l) :
    Divides probe l.length lows.length := by
  obtain ⟨rfl, low, equal, high⟩ := around
  have size : (lows ++ (found.toList ++ highs)).length =
      lows.length + (found.toList.length + highs.length) := by
    rw [List.length_append, List.length_append]
  have single : found.toList.length ≤ 1 := by cases found <;> simp
  refine ⟨by omega, fun i left => ?_, fun inside greater => ?_, fun i right inside => ?_⟩
  · rw [(probes i (by omega)).eq_gt, List.getElem_append_left left]
    exact low _ (List.getElem_mem left)
  · rw [(probes _ inside).eq_gt, List.getElem_append_right (Nat.le_refl _)] at greater
    rcases List.mem_append.mp (List.getElem_mem _) with here | later
    · exact greater.ne (equal _ (Option.mem_toList.mp here))
    · exact greater.not_gt (high _ later)
  · rw [(probes i inside).eq_lt, List.getElem_append_right (Nat.le_of_lt right),
      List.getElem_append_right (by omega)]
    exact high _ (List.getElem_mem _)

namespace Around

theorem set_found {a : α} (around : Around k (k e) l lows (some a) highs) :
    l.set lows.length e = insertKey k e l := by
  rw [around.insertKey_eq, around.parts, List.set_append_right _ _ (Nat.le_refl _), Nat.sub_self]
  rfl

theorem insert_absent (around : Around k (k e) l lows none highs) :
    l.take lows.length ++ e :: l.drop lows.length = insertKey k e l := by
  rw [around.insertKey_eq, around.parts, List.take_left, List.drop_left]
  rfl

theorem eraseIdx_found {a : α} (around : Around k x l lows (some a) highs) :
    l.eraseIdx lows.length = eraseKey k x l := by
  rw [around.eraseKey_eq, around.parts, List.eraseIdx_append_of_length_le (Nat.le_refl _),
    Nat.sub_self]
  rfl

theorem eraseKey_absent (around : Around k x l lows none highs) : eraseKey k x l = l :=
  around.eraseKey_eq.trans around.parts.symm

theorem getElem?_found {a : α} (around : Around k x l lows (some a) highs) :
    l[lows.length]? = some a := by
  rw [around.parts, List.getElem?_append_right (Nat.le_refl _), Nat.sub_self]
  rfl

end Around

/-- The search of a sorted list ends at the entry with the key, or beside the place where
it would stand. -/
theorem KeySorted.search (sorted : KeySorted k l) (probes : Probes probe k x l)
    (settle : Nat → Nat) :
    ∃ lows found highs, Around k x l lows found highs ∧
      match found with
      | some _ => LPRng.search probe settle .lt 0 0 l.length = (.eq, settle lows.length)
      | none => LPRng.search probe settle .lt 0 0 l.length = (.lt, lows.length) ∨
          ∃ mid, LPRng.search probe settle .lt 0 0 l.length = (.gt, mid) ∧ mid + 1 = lows.length := by
  obtain ⟨lows, found, highs, around⟩ := sorted.exists_around x
  refine ⟨lows, found, highs, around, ?_⟩
  have divides := around.divides probes
  have inside := divides.inside
  have lands : Lands probe settle l.length lows.length
      (LPRng.search probe settle .lt 0 0 l.length) :=
    search_lands divides (Nat.zero_le _) inside (Nat.le_refl _)
      (fun beyond => absurd beyond (Nat.lt_irrefl _)) fun empty => .inl ⟨rfl, by omega⟩
  generalize LPRng.search probe settle .lt 0 0 l.length = r at lands
  cases found with
  | some a =>
      have present : l[lows.length]? = some a := around.getElem?_found
      obtain ⟨inside, here⟩ := List.getElem?_eq_some_iff.mp present
      have equal : probe lows.length = .eq := by
        rw [(probes _ inside).eq_eq, here, around.equal a rfl]
      cases lands with
      | found _ _ => rfl
      | before absent => cases equal.symm.trans (absent inside)
      | after _ absent => cases equal.symm.trans (absent inside)
  | none =>
      cases lands with
      | found inside equal =>
          rw [(probes _ inside).eq_eq] at equal
          have missing : lookupKey k x l = none := around.lookupKey_eq
          exact absurd (decide_eq_true equal.symm)
            (List.find?_eq_none.mp missing _ (List.getElem_mem inside))
      | before _ => exact .inl rfl
      | after next _ => exact .inr ⟨_, rfl, next⟩

omit [LinearOrder κ] in
/-- No entry beside the one with the key is taken for it. -/
theorem Around.takeWhile_eq_nil {hit : α → Bool} {part : List α}
    (only : ∀ a ∈ l, hit a = true → k a = x) (inside : ∀ a ∈ part, a ∈ l ∧ k a ≠ x) :
    part.takeWhile hit = [] := by
  cases part with
  | nil => rfl
  | cons a part =>
      obtain ⟨member, other⟩ := inside a List.mem_cons_self
      rw [List.takeWhile_cons_of_neg fun same => other (only a member same)]

/-- A search that follows equal neighbours to the last, as keys are unique. -/
theorem KeySorted.search_last (sorted : KeySorted k l) (probes : Probes probe k x l)
    {hit : α → Bool} (only : ∀ a ∈ l, hit a = true → k a = x) :
    ∃ lows found highs, Around k x l lows found highs ∧
      match found with
      | some _ => LPRng.search probe (fun mid => mid + ((l.drop (mid + 1)).takeWhile hit).length) .lt
          0 0 l.length = (.eq, lows.length)
      | none =>
          LPRng.search probe (fun mid => mid + ((l.drop (mid + 1)).takeWhile hit).length) .lt
            0 0 l.length = (.lt, lows.length) ∨
          ∃ mid, LPRng.search probe (fun mid => mid + ((l.drop (mid + 1)).takeWhile hit).length) .lt
            0 0 l.length = (.gt, mid) ∧ mid + 1 = lows.length := by
  obtain ⟨lows, found, highs, around, outcome⟩ := sorted.search probes
    (fun mid => mid + ((l.drop (mid + 1)).takeWhile hit).length)
  refine ⟨lows, found, highs, around, ?_⟩
  cases found with
  | none => exact outcome
  | some a =>
      have behind : l.drop (lows.length + 1) = highs := by
        rw [around.parts, List.drop_append, Nat.add_sub_cancel_left]
        simp
      have alone : (l.drop (lows.length + 1)).takeWhile hit = [] :=
        Around.takeWhile_eq_nil only fun a member =>
          ⟨List.mem_of_mem_drop member, (around.high a (behind ▸ member)).ne'⟩
      simp only [outcome, alone, List.length_nil, Nat.add_zero]

/-- A search that follows equal neighbours back to the first. -/
theorem KeySorted.search_first (sorted : KeySorted k l) (probes : Probes probe k x l)
    {hit : α → Bool} (only : ∀ a ∈ l, hit a = true → k a = x) :
    ∃ lows found highs, Around k x l lows found highs ∧
      match found with
      | some _ => LPRng.search probe (fun mid => mid - ((l.take mid).reverse.takeWhile hit).length) .lt
          0 0 l.length = (.eq, lows.length)
      | none => ∀ mid, LPRng.search probe
          (fun mid => mid - ((l.take mid).reverse.takeWhile hit).length) .lt 0 0 l.length ≠ (.eq, mid) := by
  obtain ⟨lows, found, highs, around, outcome⟩ := sorted.search probes
    (fun mid => mid - ((l.take mid).reverse.takeWhile hit).length)
  refine ⟨lows, found, highs, around, ?_⟩
  cases found with
  | none =>
      rcases outcome with before | ⟨mid, after, -⟩
      · rw [before]
        exact fun _ => nofun
      · rw [after]
        exact fun _ => nofun
  | some a =>
      have before : l.take lows.length = lows := by rw [around.parts, List.take_left]
      have alone : (l.take lows.length).reverse.takeWhile hit = [] :=
        Around.takeWhile_eq_nil only fun a member =>
          ⟨List.mem_of_mem_take (List.mem_reverse.mp member),
            (around.low a (before ▸ List.mem_reverse.mp member)).ne⟩
      simp only [outcome, alone, List.length_nil, Nat.sub_zero]

/-! ## Entries put in one after the other -/

/-- The list the entries are put into one after the other. -/
def insertAll (k : α → κ) (es : List α) : List α := es.foldl (fun l e => insertKey k e l) []

theorem insertAll_snoc (es : List α) (e : α) :
    insertAll k (es ++ [e]) = insertKey k e (insertAll k es) := by
  rw [insertAll, List.foldl_append]
  rfl

theorem KeySorted.insertAll (k : α → κ) (es : List α) : KeySorted k (insertAll k es) := by
  induction es using List.reverseRecOn with
  | nil => exact keySorted_nil
  | append_singleton es e ih =>
      rw [insertAll_snoc]
      exact ih.insertKey

/-- An entry is added if none has its key, and else one is lost for it. -/
theorem KeySorted.insertKey_perm (sorted : KeySorted k l) :
    (∀ a ∈ l, k a ≠ k e) ∧ (LPRng.insertKey k e l).Perm (e :: l) ∨
      (∃ a ∈ l, k a = k e) ∧ (LPRng.insertKey k e l).length = l.length := by
  obtain ⟨lows, found, highs, around⟩ := sorted.exists_around (k e)
  rw [around.insertKey_eq, around.parts]
  cases found with
  | none =>
      refine .inl ⟨fun a member => ?_, List.perm_middle⟩
      rcases List.mem_append.mp member with low | high
      · exact (around.low a low).ne
      · exact (around.high a high).ne'
  | some b =>
      refine .inr ⟨⟨b, by simp, around.equal b rfl⟩, ?_⟩
      rw [List.length_append, List.length_append]
      rfl

theorem insertAll_perm {es : List α} (distinct : es.Pairwise fun a b => k a ≠ k b) :
    (insertAll k es).Perm es := by
  induction es using List.reverseRecOn with
  | nil => exact .refl _
  | append_singleton es e ih =>
      obtain ⟨before, -, other⟩ := List.pairwise_append.mp distinct
      have perm := ih before
      rw [insertAll_snoc]
      rcases (KeySorted.insertAll k es).insertKey_perm with ⟨-, added⟩ | ⟨⟨a, member, same⟩, -⟩
      · exact added.trans ((perm.cons e).trans (List.perm_append_singleton e es).symm)
      · exact absurd same (other a (perm.mem_iff.mp member) e List.mem_cons_self)

theorem length_insertAll_le (k : α → κ) (es : List α) : (insertAll k es).length ≤ es.length := by
  induction es using List.reverseRecOn with
  | nil => exact Nat.le_refl _
  | append_singleton es e ih =>
      rw [insertAll_snoc, List.length_append, List.length_singleton]
      rcases (KeySorted.insertAll k es).insertKey_perm with ⟨-, added⟩ | ⟨-, replaced⟩
      · rw [added.length_eq, List.length_cons]
        omega
      · omega

/-- No entry is lost exactly if all keys are different. -/
theorem length_insertAll_iff {es : List α} :
    (insertAll k es).length = es.length ↔ es.Pairwise fun a b => k a ≠ k b := by
  refine ⟨fun whole => ?_, fun distinct => (insertAll_perm distinct).length_eq⟩
  induction es using List.reverseRecOn with
  | nil => exact .nil
  | append_singleton es e ih =>
      have fewer := length_insertAll_le k es
      rw [insertAll_snoc, List.length_append, List.length_singleton] at whole
      rcases (KeySorted.insertAll k es).insertKey_perm with ⟨fresh, added⟩ | ⟨-, replaced⟩
      · rw [added.length_eq, List.length_cons] at whole
        have before := ih (by omega)
        refine List.pairwise_append.mpr ⟨before, List.pairwise_singleton _ e, fun a member b last => ?_⟩
        rw [List.mem_singleton.mp last]
        exact fresh a ((insertAll_perm before).mem_iff.mpr member)
      · omega

/-! ### Entries put into a list that is there -/

/-- The list with the entries put in one after the other. -/
def insertInto (k : α → κ) (l es : List α) : List α := es.foldl (fun l e => insertKey k e l) l

variable {es fs : List α}

theorem insertInto_append : insertInto k l (es ++ fs) = insertInto k (insertInto k l es) fs :=
  List.foldl_append

theorem KeySorted.insertInto (sorted : KeySorted k l) (es : List α) :
    KeySorted k (insertInto k l es) := by
  induction es generalizing l with
  | nil => exact sorted
  | cons e es ih => exact ih sorted.insertKey

/-- What stays in the list are the last entries with their keys. -/
theorem mem_insertInto {a : α} : a ∈ insertInto k l es ↔
    (a ∈ l ∧ ∀ e ∈ es, k e ≠ k a) ∨ ∃ before after, es = before ++ a :: after ∧ ∀ e ∈ after, k e ≠ k a := by
  induction es generalizing l with
  | nil => simp [insertInto]
  | cons e es ih =>
      refine (ih (l := insertKey k e l)).trans ?_
      rw [mem_insertKey]
      constructor
      · rintro (⟨rfl | ⟨member, other⟩, last⟩ | ⟨before, after, parts, last⟩)
        · exact .inr ⟨[], es, rfl, last⟩
        · exact .inl ⟨member, List.forall_mem_cons.mpr ⟨other.symm, last⟩⟩
        · exact .inr ⟨e :: before, after, by rw [parts, List.cons_append], last⟩
      · rintro (⟨member, last⟩ | ⟨- | ⟨first, before⟩, after, parts, last⟩)
        · obtain ⟨other, last⟩ := List.forall_mem_cons.mp last
          exact .inl ⟨.inr ⟨member, other.symm⟩, last⟩
        · obtain ⟨rfl, rfl⟩ := List.cons.inj parts
          exact .inl ⟨.inl rfl, last⟩
        · exact .inr ⟨before, after, (List.cons.inj parts).2, last⟩

/-- Every key that is put in or was there is in the list. -/
theorem exists_mem_insertInto {x : κ} :
    (∃ a ∈ insertInto k l es, k a = x) ↔ (∃ a ∈ l, k a = x) ∨ ∃ e ∈ es, k e = x := by
  induction es generalizing l with
  | nil => simp [insertInto]
  | cons e es ih =>
      refine (ih (l := insertKey k e l)).trans ?_
      have step : (∃ a ∈ insertKey k e l, k a = x) ↔ (∃ a ∈ l, k a = x) ∨ k e = x := by
        constructor
        · rintro ⟨a, member, same⟩
          rcases mem_insertKey.mp member with rfl | ⟨member, -⟩
          · exact .inr same
          · exact .inl ⟨a, member, same⟩
        · rintro (⟨a, member, same⟩ | same)
          · by_cases here : k a = k e
            · exact ⟨e, mem_insertKey.mpr (.inl rfl), here ▸ same⟩
            · exact ⟨a, mem_insertKey.mpr (.inr ⟨member, here⟩), same⟩
          · exact ⟨e, mem_insertKey.mpr (.inl rfl), same⟩
      rw [step, or_assoc]
      simp only [List.mem_cons, exists_eq_or_imp]

/-- A list does not grow by entries whose keys are in it. -/
theorem KeySorted.length_insertInto (sorted : KeySorted k l)
    (known : ∀ e ∈ es, ∃ a ∈ l, k a = k e) : (LPRng.insertInto k l es).length = l.length := by
  induction es generalizing l with
  | nil => rfl
  | cons e es ih =>
      obtain ⟨first, rest⟩ := List.forall_mem_cons.mp known
      have replaced : (LPRng.insertKey k e l).length = l.length := by
        rcases sorted.insertKey_perm (e := e) with ⟨fresh, -⟩ | ⟨-, same⟩
        · obtain ⟨a, member, here⟩ := first
          exact absurd here (fresh a member)
        · exact same
      refine (ih sorted.insertKey fun f member => ?_).trans replaced
      have there : ∃ a ∈ LPRng.insertInto k l [e], k a = k f :=
        exists_mem_insertInto.mpr (.inl (rest f member))
      exact there

/-- A sorted list is told by its entries. -/
theorem KeySorted.ext {l' : List α} (sorted : KeySorted k l) (sorted' : KeySorted k l')
    (same : ∀ a, a ∈ l ↔ a ∈ l') : l = l' := by
  have nodup : ∀ {l : List α}, KeySorted k l → l.Nodup := fun sorted =>
    List.Pairwise.imp (fun less equal => less.ne (congrArg k equal)) sorted
  refine ((List.perm_ext_iff_of_nodup (nodup sorted) (nodup sorted')).mpr @same).eq_of_pairwise ?_ sorted sorted'
  exact fun a b _ _ less greater => absurd less greater.not_gt

/-- Entries may be put in before others if they share no key with them. -/
theorem KeySorted.insertInto_comm (sorted : KeySorted k l)
    (other : ∀ e ∈ es, ∀ f ∈ fs, k e ≠ k f) :
    LPRng.insertInto k l (es ++ fs) = LPRng.insertInto k l (fs ++ es) := by
  have split : ∀ {es fs : List α} {a : α}, (∀ e ∈ es, ∀ f ∈ fs, k e ≠ k f) →
      a ∈ LPRng.insertInto k l (es ++ fs) → a ∈ LPRng.insertInto k l (fs ++ es) := by
    intro es fs a other
    rw [insertInto_append, insertInto_append, mem_insertInto, mem_insertInto, mem_insertInto, mem_insertInto]
    rintro (⟨⟨member, first⟩ | ⟨before, after, rfl, last⟩, second⟩ | ⟨before, after, rfl, last⟩)
    · exact .inl ⟨.inl ⟨member, second⟩, first⟩
    · exact .inr ⟨before, after, rfl, last⟩
    · refine .inl ⟨.inr ⟨before, after, rfl, last⟩, fun e member => ?_⟩
      exact other e member a (List.mem_append_right _ List.mem_cons_self)
  exact (sorted.insertInto _).ext (sorted.insertInto _) fun a =>
    ⟨split other, split fun f member e member' => (other e member' f member).symm⟩

/-! ### Entries around a place in the list -/

section Place

/-- The entries with lower keys. -/
def keysBelow (k : α → κ) (x : κ) (l : List α) : List α := l.filter (k · < x)

/-- The entries with higher keys. -/
def keysAbove (k : α → κ) (x : κ) (l : List α) : List α := l.filter (x < k ·)

theorem mem_keysBelow {a : α} : a ∈ keysBelow k x l ↔ a ∈ l ∧ k a < x := by
  rw [keysBelow, List.mem_filter, decide_eq_true_eq]

theorem mem_keysAbove {a : α} : a ∈ keysAbove k x l ↔ a ∈ l ∧ x < k a := by
  rw [keysAbove, List.mem_filter, decide_eq_true_eq]

variable {here : List α}

theorem insertKey_below (same : ∀ a ∈ here, k a = x) (high : ∀ a ∈ highs, x < k a) (less : k e < x) :
    insertKey k e (lows ++ (here ++ highs)) = insertKey k e lows ++ (here ++ highs) := by
  have above : ∀ a ∈ here ++ highs, k e < k a := by
    intro a member
    rcases List.mem_append.mp member with at_ | behind
    · exact less.trans_eq (same a at_).symm
    · exact less.trans (high a behind)
  rw [insertKey, insertKey, List.filter_append, List.filter_append (p := (k e < k ·)),
    List.filter_eq_nil_iff.mpr fun a member low => (above a member).not_gt (of_decide_eq_true low),
    List.filter_eq_self.mpr fun a member => decide_eq_true (above a member), List.append_nil,
    List.append_assoc, List.cons_append]

theorem insertKey_behind (low : ∀ a ∈ lows, k a < x) (same : ∀ a ∈ here, k a = x) (greater : x < k e) :
    insertKey k e (lows ++ (here ++ highs)) = lows ++ (here ++ insertKey k e highs) := by
  have below : ∀ a ∈ lows ++ here, k a < k e := by
    intro a member
    rcases List.mem_append.mp member with before | at_
    · exact (low a before).trans greater
    · exact (same a at_).trans_lt greater
  rw [← List.append_assoc, insertKey, insertKey, List.filter_append, List.filter_append (p := (k e < k ·)),
    List.filter_eq_self.mpr fun a member => decide_eq_true (below a member),
    List.filter_eq_nil_iff.mpr fun a member high => (below a member).not_gt (of_decide_eq_true high),
    List.nil_append, List.append_assoc, List.append_assoc]

theorem insertInto_place (low : ∀ a ∈ lows, k a < x) (same : ∀ a ∈ here, k a = x)
    (high : ∀ a ∈ highs, x < k a) (other : ∀ e ∈ es, k e ≠ x) :
    insertInto k (lows ++ (here ++ highs)) es =
      insertInto k lows (keysBelow k x es) ++ (here ++ insertInto k highs (keysAbove k x es)) := by
  unfold keysBelow keysAbove
  induction es generalizing lows highs with
  | nil => rfl
  | cons e es ih =>
      obtain ⟨first, rest⟩ := List.forall_mem_cons.mp other
      rcases lt_or_gt_of_ne first with less | greater
      · rw [List.filter_cons_of_pos (p := (k · < x)) (decide_eq_true less),
          List.filter_cons_of_neg (p := (x < k ·)) fun high => less.not_gt (of_decide_eq_true high)]
        have lower : ∀ a ∈ insertKey k e lows, k a < x := by
          intro a member
          rcases mem_insertKey.mp member with rfl | ⟨member, -⟩
          · exact less
          · exact low a member
        exact (congrArg (insertInto k · es) (insertKey_below same high less)).trans (ih lower high rest)
      · rw [List.filter_cons_of_pos (p := (x < k ·)) (decide_eq_true greater),
          List.filter_cons_of_neg (p := (k · < x)) fun low => greater.not_gt (of_decide_eq_true low)]
        have higher : ∀ a ∈ insertKey k e highs, x < k a := by
          intro a member
          rcases mem_insertKey.mp member with rfl | ⟨member, -⟩
          · exact greater
          · exact high a member
        exact (congrArg (insertInto k · es) (insertKey_behind low same greater)).trans (ih low higher rest)

end Place

end Entries

end LPRng
