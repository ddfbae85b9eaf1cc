import LPRng.SearchBlock

/-!
# Lists ordered by keys that may repeat

An entry is put behind those of its key, so that the entries of one key stand together, in the order in which they
came. A binary search finds the first or the last of them.
-/

namespace LPRng

variable {α κ : Type*} [LinearOrder κ] {k : α → κ} {l es fs : List α} {e : α} {x : κ}

/-- The entries stand in the order of their keys. -/
def KeyOrdered (k : α → κ) (l : List α) : Prop := l.Pairwise fun a b => k a ≤ k b

/-- The entries of one key. -/
def runOf (k : α → κ) (x : κ) (l : List α) : List α := l.filter (k · = x)

/-- The list with an entry put in behind those of its key. -/
def insertBehind (k : α → κ) (e : α) (l : List α) : List α := l.filter (k · ≤ k e) ++ e :: l.filter (k e < k ·)

theorem keyOrdered_nil : KeyOrdered k [] := List.Pairwise.nil

theorem KeyOrdered.insertBehind (ordered : KeyOrdered k l) : KeyOrdered k (insertBehind k e l) := by
  refine List.pairwise_append.mpr ⟨List.Pairwise.filter _ ordered,
    List.pairwise_cons.mpr ⟨fun b member => ?_, List.Pairwise.filter _ ordered⟩, fun a left b right => ?_⟩
  · have above : k e < k b := of_decide_eq_true (List.mem_filter.mp member).2
    exact above.le
  · have low : k a ≤ k e := of_decide_eq_true (List.mem_filter.mp left).2
    rcases List.mem_cons.mp right with rfl | member
    · exact low
    · have above : k e < k b := of_decide_eq_true (List.mem_filter.mp member).2
      exact low.trans above.le

/-- A filter does not see the entries of a key apart. -/
theorem runOf_filter_of_keeps {p : α → Bool} (keeps : ∀ a, k a = x → p a = true) :
    runOf k x (l.filter p) = runOf k x l := by
  rw [runOf, List.filter_filter]
  refine List.filter_congr fun a _ => ?_
  by_cases same : k a = x
  · rw [keeps a same, Bool.and_true]
  · rw [decide_eq_false same, Bool.false_and]

theorem runOf_filter_of_drops {p : α → Bool} (drops : ∀ a, k a = x → p a = false) : runOf k x (l.filter p) = [] := by
  refine List.filter_eq_nil_iff.mpr fun a member same => ?_
  have kept := (List.mem_filter.mp member).2
  rw [drops a (of_decide_eq_true same)] at kept
  cases kept

theorem mem_runOf {a : α} : a ∈ runOf k x l ↔ a ∈ l ∧ k a = x := by
  rw [runOf, List.mem_filter, decide_eq_true_iff]

theorem runOf_ne_nil_iff : runOf k x l ≠ [] ↔ ∃ a ∈ l, k a = x := by
  constructor
  · intro given
    rcases List.exists_mem_of_ne_nil _ given with ⟨a, member⟩
    exact ⟨a, mem_runOf.mp member⟩
  · intro present
    rcases present with ⟨a, member⟩
    exact List.ne_nil_of_mem (mem_runOf.mpr member)

theorem runOf_append (l es : List α) : runOf k x (l ++ es) = runOf k x l ++ runOf k x es := List.filter_append ..

theorem runOf_cons (e : α) (l : List α) : runOf k x (e :: l) = (if k e = x then [e] else []) ++ runOf k x l := by
  rw [runOf, List.filter_cons]
  split
  · next same => rw [if_pos (of_decide_eq_true same), List.singleton_append, runOf]
  · next other => rw [if_neg (by simpa using other), List.nil_append, runOf]

/-- The entry is the last of its key, and the others stay as they are. -/
theorem runOf_insertBehind : runOf k x (insertBehind k e l) = runOf k x l ++ if k e = x then [e] else [] := by
  rw [insertBehind, runOf_append, runOf_cons]
  rcases le_or_gt x (k e) with low | high
  · have behind : runOf k x (l.filter (k e < k ·)) = [] :=
      runOf_filter_of_drops fun a same => decide_eq_false (same ▸ low.not_gt)
    rw [runOf_filter_of_keeps fun a same => decide_eq_true (same ▸ low), behind, List.append_nil]
  · have front : runOf k x (l.filter (k · ≤ k e)) = [] :=
      runOf_filter_of_drops fun a same => decide_eq_false (same ▸ high.not_ge)
    rw [front, runOf_filter_of_keeps fun a same => decide_eq_true (same ▸ high), if_neg high.ne, List.append_nil,
      List.nil_append, List.nil_append]

/-! ## Entries put in one after the other -/

/-- The list with the entries put in one after the other, behind those of their keys. -/
def insertBehindAll (k : α → κ) (l es : List α) : List α := es.foldl (fun l e => insertBehind k e l) l

theorem KeyOrdered.insertBehindAll (ordered : KeyOrdered k l) (es : List α) : KeyOrdered k (insertBehindAll k l es) := by
  induction es generalizing l with
  | nil => exact ordered
  | cons e es ih => exact ih ordered.insertBehind

theorem runOf_insertBehindAll (l es : List α) : runOf k x (insertBehindAll k l es) = runOf k x l ++ runOf k x es := by
  induction es generalizing l with
  | nil => exact (List.append_nil _).symm
  | cons e es ih =>
      have step : insertBehindAll k l (e :: es) = insertBehindAll k (insertBehind k e l) es := rfl
      rw [step, ih, runOf_insertBehind, List.append_assoc, ← runOf_cons]

theorem insertBehind_perm (e : α) (l : List α) : (insertBehind k e l).Perm (e :: l) := by
  have parts : (l.filter (k · ≤ k e) ++ l.filter (k e < k ·)).Perm l := by
    have halves := List.filter_append_perm (k · ≤ k e) l
    have other : (l.filter fun a => !decide (k a ≤ k e)) = l.filter (k e < k ·) :=
      List.filter_congr fun a _ => by rw [← decide_not, decide_eq_decide, not_le]
    rwa [other] at halves
  exact List.perm_middle.trans (parts.cons e)

theorem insertBehindAll_perm (l es : List α) : (insertBehindAll k l es).Perm (es ++ l) := by
  induction es generalizing l with
  | nil => exact List.Perm.refl l
  | cons e es ih =>
      have step := ih (insertBehind k e l)
      exact step.trans ((List.Perm.append_left es (insertBehind_perm e l)).trans List.perm_middle)

/-- What is found of a key is the last entry that was put in for it. -/
theorem lookupKey_insertInto_getLast (l es : List α) :
    lookupKey k x (insertInto k l es) = (runOf k x es).getLast?.or (lookupKey k x l) := by
  induction es using List.reverseRecOn with
  | nil => rfl
  | append_singleton es e ih =>
      have step : insertInto k l (es ++ [e]) = insertKey k e (insertInto k l es) := insertInto_append
      have last : runOf k x (es ++ [e]) = runOf k x es ++ if k e = x then [e] else [] := by
        rw [runOf_append, runOf_cons]
        exact congrArg _ (List.append_nil _)
      rw [step, lookupKey_insertKey, last]
      split
      · next same => rw [if_pos same.symm, List.getLast?_concat, Option.some_or]
      · next other => rw [if_neg (Ne.symm other), List.append_nil, ih]

/-- Only the order of the entries of each key counts. -/
theorem KeySorted.insertInto_congr (sorted : KeySorted k l) (same : ∀ x, runOf k x es = runOf k x fs) :
    LPRng.insertInto k l es = LPRng.insertInto k l fs := by
  have found : ∀ x, lookupKey k x (LPRng.insertInto k l es) = lookupKey k x (LPRng.insertInto k l fs) := fun x => by
    rw [lookupKey_insertInto_getLast, lookupKey_insertInto_getLast, same]
  refine (sorted.insertInto es).ext (sorted.insertInto fs) fun a => ⟨fun member => ?_, fun member => ?_⟩
  · exact (of_lookupKey ((found (k a)).symm.trans ((sorted.insertInto es).lookupKey_of_mem member))).1
  · exact (of_lookupKey ((found (k a)).trans ((sorted.insertInto fs).lookupKey_of_mem member))).1

/-! ## Searches -/

variable {probe : Nat → Ordering}

/-- The entries below a key, those of the key and those above. -/
theorem KeyOrdered.parts (ordered : KeyOrdered k l) (x : κ) :
    l = keysBelow k x l ++ (runOf k x l ++ keysAbove k x l) :=
  parts_of_pairwise ordered x

/-- Where an entry is put. -/
theorem KeyOrdered.take_insert_drop (ordered : KeyOrdered k l) (e : α) :
    l.take ((keysBelow k (k e) l).length + (runOf k (k e) l).length) ++
      e :: l.drop ((keysBelow k (k e) l).length + (runOf k (k e) l).length) = LPRng.insertBehind k e l := by
  have whole : l = (keysBelow k (k e) l ++ runOf k (k e) l) ++ keysAbove k (k e) l := by
    rw [List.append_assoc]
    exact ordered.parts (k e)
  have size : (keysBelow k (k e) l).length + (runOf k (k e) l).length =
      (keysBelow k (k e) l ++ runOf k (k e) l).length := List.length_append.symm
  have front : l.filter (k · ≤ k e) = keysBelow k (k e) l ++ runOf k (k e) l := by
    have low : ∀ a ∈ keysBelow k (k e) l ++ runOf k (k e) l, decide (k a ≤ k e) = true := fun a member => by
      rcases List.mem_append.mp member with below | same
      · exact decide_eq_true (mem_keysBelow.mp below).2.le
      · exact decide_eq_true (of_decide_eq_true (List.mem_filter.mp same).2 : k a = k e).le
    have high : ∀ a ∈ keysAbove k (k e) l, ¬decide (k a ≤ k e) = true := fun a member =>
      fun low => (mem_keysAbove.mp member).2.not_ge (of_decide_eq_true low)
    conv_lhs => rw [whole]
    rw [List.filter_append, List.filter_eq_self.mpr low, List.filter_eq_nil_iff.mpr high, List.append_nil]
  have split : ∀ l' : List α, l = (keysBelow k (k e) l ++ runOf k (k e) l) ++ l' →
      l.take (keysBelow k (k e) l ++ runOf k (k e) l).length = keysBelow k (k e) l ++ runOf k (k e) l ∧
        l.drop (keysBelow k (k e) l ++ runOf k (k e) l).length = l' := by
    intro l' parts
    generalize keysBelow k (k e) l ++ runOf k (k e) l = lows at parts ⊢
    rw [parts, List.take_left, List.drop_left]
    exact ⟨rfl, rfl⟩
  rcases split _ whole with ⟨taken, dropped⟩
  rw [size, taken, dropped, LPRng.insertBehind, front]
  rfl

theorem filter_eq_runOf {p : α → Bool} (hits : ∀ a ∈ l, p a = true ↔ k a = x) : l.filter p = runOf k x l :=
  List.filter_congr fun a member => Bool.eq_iff_iff.mpr ((hits a member).trans decide_eq_true_iff.symm)

theorem KeyOrdered.filter_not_eq (ordered : KeyOrdered k l) {p : α → Bool} (hits : ∀ a ∈ l, p a = true ↔ k a = x) :
    l.filter (!p ·) = keysBelow k x l ++ keysAbove k x l := by
  have below : ∀ a ∈ keysBelow k x l, (!p a) = true := fun a member =>
    Bool.not_eq_true' _ ▸ Bool.eq_false_iff.mpr fun hit =>
      (mem_keysBelow.mp member).2.ne ((hits a (mem_keysBelow.mp member).1).mp hit)
  have same : ∀ a ∈ runOf k x l, ¬(!p a) = true := fun a member other => by
    have hit := (hits a (List.mem_of_mem_filter member)).mpr (of_decide_eq_true (List.mem_filter.mp member).2)
    rw [hit] at other
    cases other
  have above : ∀ a ∈ keysAbove k x l, (!p a) = true := fun a member =>
    Bool.not_eq_true' _ ▸ Bool.eq_false_iff.mpr fun hit =>
      (mem_keysAbove.mp member).2.ne' ((hits a (mem_keysAbove.mp member).1).mp hit)
  conv_lhs => rw [ordered.parts x]
  rw [List.filter_append, List.filter_append, List.filter_eq_self.mpr below, List.filter_eq_nil_iff.mpr same,
    List.filter_eq_self.mpr above, List.nil_append]

/-- The entries of a key and the others, by their places. -/
theorem KeyOrdered.cut (ordered : KeyOrdered k l) (x : κ) :
    (l.take ((keysBelow k x l).length + (runOf k x l).length)).drop (keysBelow k x l).length = runOf k x l ∧
      l.take (keysBelow k x l).length ++ l.drop ((keysBelow k x l).length + (runOf k x l).length) =
        keysBelow k x l ++ keysAbove k x l := by
  have whole := ordered.parts x
  generalize keysBelow k x l = lows at whole ⊢
  generalize runOf k x l = run at whole ⊢
  generalize keysAbove k x l = highs at whole ⊢
  subst whole
  constructor
  · rw [← List.append_assoc, ← List.length_append, List.take_left, List.drop_left]
  · rw [List.take_left, ← List.append_assoc, ← List.length_append, List.drop_left]

theorem KeyOrdered.isBlock {f : α → Ordering} (ordered : KeyOrdered k l) (given : runOf k x l ≠ [])
    (compares : ∀ a ∈ l, (f a).Compares x (k a)) (d : α) :
    IsBlock (fun i => f (l.getD i d)) (keysBelow k x l).length ((keysBelow k x l).length + (runOf k x l).length)
      l.length := by
  have low : ∀ a ∈ keysBelow k x l, f a = .gt := fun a member =>
    (compares a (mem_keysBelow.mp member).1).eq_gt.mpr (mem_keysBelow.mp member).2
  have equal : ∀ a ∈ runOf k x l, f a = .eq := fun a member =>
    (compares a (List.mem_of_mem_filter member)).eq_eq.mpr (of_decide_eq_true (List.mem_filter.mp member).2).symm
  have high : ∀ a ∈ keysAbove k x l, f a = .lt := fun a member =>
    (compares a (mem_keysAbove.mp member).1).eq_lt.mpr (mem_keysAbove.mp member).2
  have block := isBlock_of_parts (d := d) given low equal high
  rwa [← ordered.parts x] at block

section Ends

variable {f : α → Ordering} {hit : α → Bool} (hits : ∀ a ∈ l, hit a = true ↔ k a = x)

include hits

theorem hit_of_mem_runOf : ∀ a ∈ runOf k x l, hit a = true := fun a member =>
  (hits a (List.mem_of_mem_filter member)).mpr (of_decide_eq_true (List.mem_filter.mp member).2)

/-- A search that goes back over equal entries ends at the first of the key. -/
theorem KeyOrdered.search_first (ordered : KeyOrdered k l) (given : runOf k x l ≠ [])
    (compares : ∀ a ∈ l, (f a).Compares x (k a)) (d : α) :
    search (fun i => f (l.getD i d)) (fun mid => mid - ((l.take mid).reverse.takeWhile hit).length) .lt 0 0 l.length =
      (.eq, (keysBelow k x l).length) := by
  have block := ordered.isBlock given compares d
  rcases block.search (Nat.zero_le _) block.inside (Nat.le_refl _) with ⟨m, low, high, found⟩
  have stops : ∀ a ∈ keysBelow k x l, hit a = false := fun a member =>
    Bool.eq_false_iff.mpr fun equal =>
      (mem_keysBelow.mp member).2.ne ((hits a (mem_keysBelow.mp member).1).mp equal)
  have back : m - (((keysBelow k x l ++ (runOf k x l ++ keysAbove k x l)).take m).reverse.takeWhile hit).length =
      (keysBelow k x l).length := first_hit (hit_of_mem_runOf hits) stops low high
  rw [← ordered.parts x] at back
  rw [found, back]

/-- One that goes on over them ends at the last. -/
theorem KeyOrdered.search_last (ordered : KeyOrdered k l) (given : runOf k x l ≠ [])
    (compares : ∀ a ∈ l, (f a).Compares x (k a)) (d : α) :
    ∃ mid, search (fun i => f (l.getD i d)) (fun mid => mid + ((l.drop (mid + 1)).takeWhile hit).length) .lt 0 0
      l.length = (.eq, mid) ∧ mid + 1 = (keysBelow k x l).length + (runOf k x l).length := by
  have block := ordered.isBlock given compares d
  rcases block.search (Nat.zero_le _) block.inside (Nat.le_refl _) with ⟨m, low, high, found⟩
  have stops : ∀ a ∈ keysAbove k x l, hit a = false := fun a member =>
    Bool.eq_false_iff.mpr fun equal =>
      (mem_keysAbove.mp member).2.ne' ((hits a (mem_keysAbove.mp member).1).mp equal)
  have on : m + (((keysBelow k x l ++ (runOf k x l ++ keysAbove k x l)).drop (m + 1)).takeWhile hit).length + 1 =
      (keysBelow k x l).length + (runOf k x l).length := last_hit (hit_of_mem_runOf hits) stops low high
  rw [← ordered.parts x] at on
  exact ⟨_, found, on⟩

end Ends

/-- Without an entry of the key, a search ends beside the place for one. -/
theorem KeyOrdered.search_absent {f : α → Ordering} (ordered : KeyOrdered k l) (absent : runOf k x l = [])
    (compares : ∀ a ∈ l, (f a).Compares x (k a)) (d : α) (settle : Nat → Nat) :
    search (fun i => f (l.getD i d)) settle .lt 0 0 l.length = (.lt, (keysBelow k x l).length) ∨
      ∃ mid, search (fun i => f (l.getD i d)) settle .lt 0 0 l.length = (.gt, mid) ∧
        mid + 1 = (keysBelow k x l).length := by
  have whole : l = keysBelow k x l ++ keysAbove k x l := by
    have parts := ordered.parts x
    rwa [absent, List.nil_append] at parts
  have size : l.length = (keysBelow k x l).length + (keysAbove k x l).length := by
    rw [← List.length_append, ← whole]
  have low : ∀ i < (keysBelow k x l).length, f (l.getD i d) = .gt := by
    intro i early
    have entry : l.getD i d = (keysBelow k x l).getD i d := by
      conv_lhs => rw [whole]
      exact List.getD_append _ _ _ _ early
    have member : (keysBelow k x l).getD i d ∈ keysBelow k x l := by
      rw [List.getD_eq_getElem _ _ early]
      exact List.getElem_mem early
    rw [entry]
    exact (compares _ (mem_keysBelow.mp member).1).eq_gt.mpr (mem_keysBelow.mp member).2
  have high : ∀ i, (keysBelow k x l).length ≤ i → i < l.length → f (l.getD i d) = .lt := by
    intro i late inside
    have behind : i - (keysBelow k x l).length < (keysAbove k x l).length := by omega
    have entry : l.getD i d = (keysAbove k x l).getD (i - (keysBelow k x l).length) d := by
      conv_lhs => rw [whole]
      exact List.getD_append_right _ _ _ _ late
    have member : (keysAbove k x l).getD (i - (keysBelow k x l).length) d ∈ keysAbove k x l := by
      rw [List.getD_eq_getElem _ _ behind]
      exact List.getElem_mem behind
    rw [entry]
    exact (compares _ (mem_keysAbove.mp member).1).eq_lt.mpr (mem_keysAbove.mp member).2
  have divides : Divides (fun i => f (l.getD i d)) l.length (keysBelow k x l).length :=
    ⟨by omega, low, fun inside greater => (by
      rw [high _ (Nat.le_refl _) inside] at greater
      exact nomatch greater), fun i later inside => high i (Nat.le_of_lt later) inside⟩
  have lands : Lands (fun i => f (l.getD i d)) settle l.length (keysBelow k x l).length
      (search (fun i => f (l.getD i d)) settle .lt 0 0 l.length) :=
    search_lands divides (Nat.zero_le _) divides.inside (Nat.le_refl _) (fun beyond => absurd beyond (Nat.lt_irrefl _))
      fun empty => .inl ⟨rfl, by omega⟩
  generalize search (fun i => f (l.getD i d)) settle .lt 0 0 l.length = r at lands
  rcases lands with ⟨inside, equal⟩ | - | ⟨next, -⟩
  · cases (high _ (Nat.le_refl _) inside).symm.trans equal
  · exact .inl rfl
  · exact .inr ⟨_, rfl, next⟩

end LPRng
