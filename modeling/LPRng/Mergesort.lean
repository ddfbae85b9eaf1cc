import LPRng.ControlOrder
import LPRng.StableSort
import LPRng.SubserverOrder

/-!
# Mergesort

`Mergesort` finds the runs that are in order already, in either direction, and merges pairs of them until one is left.
A merge looks for the place of an element in the other run by steps of one at first, and by growing steps once that
took too long. A run is a list here, where the source has the links to the ends of the runs in the buffer it is not
sorting.
-/

namespace LPRng

namespace Mergesort

open StableSort

section Code

variable {α : Type*} (cmp : α → α → Int)

/-! ## Short lists -/

/-- The inner loop of `insertionsort`: an element goes down past those that are after it. The sorted part has its last
element first. -/
def swapDown (t : α) : List α → List α
  | [] => [t]
  | u :: below => if cmp u t ≤ 0 then t :: u :: below else u :: swapDown t below

def insertionsort (a : List α) : List α := (a.foldl (fun below t => swapDown cmp t below) []).reverse

/-! ## The first runs -/

/-- The macro `reverse`: the ends are exchanged, then what is between them is reversed. -/
def reverse : List α → List α
  | [] => []
  | [x] => [x]
  | x :: y :: rest => (y :: rest).getLast (List.cons_ne_nil y rest) :: (reverse (y :: rest).dropLast ++ [x])
termination_by list => list.length
decreasing_by simp

/-- Whether a pair is the wrong way round. -/
def sense (pair : α × α) : Bool := decide (0 < cmp pair.1 pair.2)

def pairsOf : List α → List (α × α)
  | a :: b :: rest => (a, b) :: pairsOf rest
  | _ => []

/-- A run as it is left in the list. -/
def turned (sense : Bool) (run : List α) : List α := if sense then reverse run else run

/-- The pairs of a short stretch are runs of their own. -/
def pairwiseRuns (sense : Bool) (pairs : List (α × α)) : List (List α) :=
  pairs.map fun pair => if sense then [pair.2, pair.1] else [pair.1, pair.2]

/-- The runs of a long stretch and the last of them, from the run that `prev` ends so far. -/
def naturalRuns (sense : Bool) : List α → α → List (α × α) → List (List α) × List α
  | run, _, [] => ([], turned sense run)
  | run, prev, (a, b) :: pairs =>
      if decide (0 < cmp prev a) != sense then
        let later := naturalRuns sense [a, b] b pairs
        (turned sense run :: later.1, later.2)
      else naturalRuns sense (run ++ [a, b]) b pairs

/-- Whether the elements at the end of the list carry on with the run in front of them. -/
def joins (run tail : List α) : Bool :=
  match run.getLast?, tail.head? with
  | some last, some first => decide (cmp last first ≤ 0)
  | _, _ => false

/-- The loop of `setup` over stretches of pairs that are all the same way round. `tail` is sorted. -/
def setupRuns (tail : List α) (way : Bool) : List (α × α) → List (List α)
  | [] => [tail]
  | pair :: pairs =>
      let same := pairs.takeWhile fun next => sense cmp next == way
      let later := pairs.dropWhile fun next => sense cmp next == way
      if 2 + 2 * same.length < 16 then pairwiseRuns way (pair :: same) ++ setupRuns tail (!way) later
      else
        let runs := naturalRuns cmp way [pair.1, pair.2] pair.2 same
        if later = [] ∧ joins cmp runs.2 tail then runs.1 ++ [runs.2 ++ tail]
        else runs.1 ++ runs.2 :: setupRuns tail (!way) later
termination_by pairs => pairs.length
decreasing_by
  all_goals exact Nat.lt_succ_of_le (List.dropWhile_suffix _).length_le

def setup (list1 : List α) : List (List α) :=
  let n := list1.length
  if n ≤ 5 then [insertionsort cmp list1]
  else
    let i := 4 + n % 2
    let pairs := pairsOf (list1.take (n - i))
    setupRuns cmp (insertionsort cmp (list1.drop (n - i))) ((pairs.head?.map (sense cmp)).getD false) pairs

/-! ## Finding a place -/

section Search

variable (q : α) (sense : Int) (run : List α)

/-- `LINEAR`: the place, or where six steps have led. -/
def linear (i b : Nat) : Nat ⊕ Nat :=
  if h : b + 1 < run.length then
    if sense < cmp q run[b + 1] then
      if i + 1 = 6 then .inr (b + 1) else linear (i + 1) (b + 1)
    else .inl (b + 1)
  else .inl (b + 1)
termination_by run.length - b

/-- `SLOWCASE`. -/
def slowcase (b t : Nat) (inside : t ≤ run.length) : Nat :=
  if h : b + 1 < t then
    if cmp q (run.get ⟨b + (t - b) / 2, by omega⟩) ≤ sense then slowcase b (b + (t - b) / 2) (by omega)
    else slowcase (b + (t - b) / 2) t inside
  else t
termination_by t - b

/-- `FASTCASE`, where the distance of `b` and `t` is the given power of two. -/
def fastcase : (k b t : Nat) → t = b + 2 ^ k → t ≤ run.length → Nat
  | 0, _, t, _, _ => t
  | k + 1, b, t, apart, inside =>
      have half : 2 ^ (k + 1) = 2 ^ k + 2 ^ k := by rw [Nat.pow_succ]; omega
      have positive := Nat.two_pow_pos k
      if cmp q (run.get ⟨b + 2 ^ k, by omega⟩) ≤ sense then
        fastcase k b (b + 2 ^ k) rfl (by omega)
      else fastcase k (b + 2 ^ k) t (by omega) inside

/-- `EXPONENTIAL`: the place, and whether the next search begins here too. The step is the given power of two. -/
def exponential (k b : Nat) : Nat × Bool :=
  if h : b + 2 ^ k < run.length then
    if cmp q run[b + 2 ^ k] ≤ sense then
      (fastcase cmp q sense run k b (b + 2 ^ k) rfl (Nat.le_of_lt h), decide (k ≠ 0))
    else exponential (k + 1) (b + 2 ^ k)
  else if h : b < run.length - 1 then
    if cmp q (run.get ⟨run.length - 1, by omega⟩) ≤ sense then
      (slowcase cmp q sense run b (run.length - 1) (Nat.sub_le _ _), true)
    else (slowcase cmp q sense run (run.length - 1) run.length (Nat.le_refl _), true)
  else (slowcase cmp q sense run (run.length - 1) run.length (Nat.le_refl _), true)
termination_by run.length - b
decreasing_by have := Nat.two_pow_pos k; omega

/-- The search from the head of a run, which is known to go first. -/
def search (big : Bool) : Nat × Bool :=
  if big then exponential cmp q sense run 0 0
  else
    match linear cmp q sense run 0 0 with
    | .inl place => (place, false)
    | .inr b => exponential cmp q sense run 0 b

end Search

/-! ## Merging -/

/-- The merge of two runs, with the kind of search that the last one ended with. -/
def mergePair : List α → List α → Bool → List α × Bool
  | [], f2, big => (f2, big)
  | f1, [], big => (f1, big)
  | x :: f1, y :: f2, big =>
      if cmp x y ≤ 0 then
        let found := search cmp y (-1) (x :: f1) big
        let rest := mergePair ((x :: f1).drop found.1) f2 found.2
        ((x :: f1).take found.1 ++ y :: rest.1, rest.2)
      else
        let found := search cmp x 0 (y :: f2) big
        let rest := mergePair f1 ((y :: f2).drop found.1) found.2
        ((y :: f2).take found.1 ++ x :: rest.1, rest.2)
termination_by f1 f2 => f1.length + f2.length
decreasing_by
  all_goals simp; omega

/-- One pass over the runs. -/
def mergePass : List (List α) → Bool → List (List α) × Bool
  | [], big => ([], big)
  | [run], big =>
      let merged := mergePair cmp run [] big
      ([merged.1], merged.2)
  | first :: second :: runs, big =>
      let merged := mergePair cmp first second big
      let rest := mergePass runs merged.2
      (merged.1 :: rest.1, rest.2)

theorem length_mergePass (runs : List (List α)) (big : Bool) :
    (mergePass cmp runs big).1.length = (runs.length + 1) / 2 := by
  fun_induction mergePass cmp runs big with
  | case1 => simp
  | case2 => simp
  | case3 first second runs big merged rest ih =>
      rw [List.length_cons, ih, List.length_cons, List.length_cons]
      omega

/-- The passes, until there is one run. -/
def mergePasses (runs : List (List α)) (big : Bool) : List α :=
  if runs.length < 2 then runs.headD []
  else mergePasses (mergePass cmp runs big).1 (mergePass cmp runs big).2
termination_by runs.length
decreasing_by rw [length_mergePass]; omega

/-- `Mergesort` of elements with a size: what is returned, and the list as it is left. -/
def mergesort (size : Nat) (base : List α) : Int × List α :=
  if base.length < 2 then (0, base)
  else if size < 8 / 2 then (-1, base)
  else (0, mergePasses cmp (setup cmp base) false)

end Code

/-! ## Nothing is lost, whatever the comparison says -/

section Permutation

variable {α : Type*} (cmp : α → α → Int)

@[simp] theorem swapDown_cons (t u : α) (below : List α) :
    swapDown cmp t (u :: below) = if cmp u t ≤ 0 then t :: u :: below else u :: swapDown cmp t below := rfl

theorem swapDown_perm (t : α) (below : List α) : (swapDown cmp t below).Perm (t :: below) := by
  induction below with
  | nil => exact List.Perm.refl [t]
  | cons u below ih =>
      rw [swapDown_cons]
      split
      · exact List.Perm.refl _
      · exact (ih.cons u).trans (List.Perm.swap t u below)

theorem foldl_swapDown_perm (a below : List α) :
    (a.foldl (fun below t => swapDown cmp t below) below).Perm (a ++ below) := by
  induction a generalizing below with
  | nil => exact List.Perm.refl below
  | cons t a ih =>
      have middle := ((swapDown_perm cmp t below).append_left a).trans List.perm_middle
      exact (ih (swapDown cmp t below)).trans middle

theorem insertionsort_perm (a : List α) : (insertionsort cmp a).Perm a := by
  have all := foldl_swapDown_perm cmp a []
  rw [List.append_nil] at all
  exact (List.reverse_perm _).trans all

theorem reverse_eq (list : List α) : reverse list = list.reverse := by
  fun_induction reverse list with
  | case1 => rfl
  | case2 => rfl
  | case3 x y rest ih =>
      have ends := List.dropLast_concat_getLast (List.cons_ne_nil y rest)
      have turned : (y :: rest).reverse = (y :: rest).getLast (List.cons_ne_nil y rest) :: (y :: rest).dropLast.reverse := by
        conv_lhs => rw [← ends]
        rw [List.reverse_append, List.reverse_singleton, List.singleton_append]
      rw [ih, List.reverse_cons, turned, List.cons_append]

theorem turned_perm (way : Bool) (run : List α) : (turned way run).Perm run := by
  cases way with
  | false => exact List.Perm.refl run
  | true =>
      change (reverse run).Perm run
      rw [reverse_eq]
      exact List.reverse_perm run

/-- The elements of pairs as they stand in the list. -/
def elements (pairs : List (α × α)) : List α := pairs.flatMap fun pair => [pair.1, pair.2]

@[simp] theorem elements_cons (pair : α × α) (pairs : List (α × α)) :
    elements (pair :: pairs) = pair.1 :: pair.2 :: elements pairs := rfl

theorem elements_append (left right : List (α × α)) : elements (left ++ right) = elements left ++ elements right :=
  List.flatMap_append

theorem elements_pairsOf : ∀ {list : List α}, list.length % 2 = 0 → elements (pairsOf list) = list
  | [], _ => rfl
  | [_], odd => absurd odd (by simp)
  | a :: b :: rest, even => by
      have short : rest.length % 2 = 0 := by
        rw [List.length_cons, List.length_cons] at even
        omega
      exact congrArg (a :: b :: ·) (elements_pairsOf short)

theorem pairwiseRuns_perm (way : Bool) (pairs : List (α × α)) :
    (pairwiseRuns way pairs).flatten.Perm (elements pairs) := by
  induction pairs with
  | nil => exact List.Perm.refl []
  | cons pair pairs ih =>
      cases way with
      | false => exact (ih.cons pair.2).cons pair.1
      | true => exact (List.Perm.swap pair.1 pair.2 _).trans ((ih.cons pair.2).cons pair.1)

theorem naturalRuns_perm (way : Bool) (run : List α) (prev : α) (pairs : List (α × α)) :
    ((naturalRuns cmp way run prev pairs).1.flatten ++ (naturalRuns cmp way run prev pairs).2).Perm
      (run ++ elements pairs) := by
  fun_induction naturalRuns cmp way run prev pairs with
  | case1 run prev => simpa [elements] using turned_perm way run
  | case2 run prev a b pairs cut later ih =>
      rw [List.flatten_cons, List.append_assoc]
      exact (turned_perm way run).append ih
  | case3 run prev a b pairs goes ih =>
      rwa [List.append_assoc] at ih

theorem stretch_append (way : Bool) (pair : α × α) (pairs : List (α × α)) :
    pair :: (pairs.takeWhile fun next => sense cmp next == way) ++ (pairs.dropWhile fun next => sense cmp next == way) =
      pair :: pairs := by
  rw [List.cons_append, List.takeWhile_append_dropWhile]

theorem setupRuns_perm (tail : List α) (way : Bool) (pairs : List (α × α)) :
    (setupRuns cmp tail way pairs).flatten.Perm (elements pairs ++ tail) := by
  fun_induction setupRuns cmp tail way pairs with
  | case1 => simp [elements]
  | case2 way pair pairs same later short ih =>
      rw [List.flatten_append, ← stretch_append cmp way pair pairs, elements_append, List.append_assoc]
      exact (pairwiseRuns_perm way (pair :: same)).append ih
  | case3 way pair pairs same later long runs joined =>
      have all : pair :: same ++ later = pair :: pairs := stretch_append cmp way pair pairs
      rw [joined.1, List.append_nil] at all
      rw [← all, List.flatten_append, List.flatten_singleton, ← List.append_assoc]
      exact (naturalRuns_perm cmp way [pair.1, pair.2] pair.2 same).append_right tail
  | case4 way pair pairs same later long runs apart ih =>
      rw [List.flatten_append, List.flatten_cons, ← List.append_assoc, ← stretch_append cmp way pair pairs,
        elements_append, List.append_assoc _ _ tail]
      exact (naturalRuns_perm cmp way [pair.1, pair.2] pair.2 same).append ih

theorem setup_perm (list1 : List α) : (setup cmp list1).flatten.Perm list1 := by
  unfold setup
  dsimp only
  split
  · rw [List.flatten_singleton]
    exact insertionsort_perm cmp list1
  · have even : (list1.take (list1.length - (4 + list1.length % 2))).length % 2 = 0 := by
      rw [List.length_take]
      omega
    refine (setupRuns_perm cmp _ _ _).trans ?_
    rw [elements_pairsOf even]
    refine ((insertionsort_perm cmp _).append_left _).trans ?_
    rw [List.take_append_drop]

theorem mergePair_perm (f1 f2 : List α) (big : Bool) : (mergePair cmp f1 f2 big).1.Perm (f1 ++ f2) := by
  fun_induction mergePair cmp f1 f2 big with
  | case1 => exact List.Perm.refl _
  | case2 f1 => rw [List.append_nil]
  | case3 x f1 y f2 big first found rest ih =>
      have block : ((x :: f1).take found.1 ++ y :: rest.1).Perm
          ((x :: f1).take found.1 ++ y :: ((x :: f1).drop found.1 ++ f2)) := (ih.cons y).append_left _
      refine block.trans (List.perm_middle.trans ?_)
      rw [← List.append_assoc, List.take_append_drop]
      exact List.perm_middle.symm
  | case4 x f1 y f2 big first found rest ih =>
      have block : ((y :: f2).take found.1 ++ x :: rest.1).Perm
          ((y :: f2).take found.1 ++ x :: (f1 ++ (y :: f2).drop found.1)) := (ih.cons x).append_left _
      refine block.trans (List.perm_middle.trans (List.Perm.cons x ?_))
      rw [← List.append_assoc]
      refine (List.perm_append_comm.append_right _).trans ?_
      rw [List.append_assoc, List.take_append_drop]
      exact List.Perm.refl _

theorem mergePass_perm (runs : List (List α)) (big : Bool) : (mergePass cmp runs big).1.flatten.Perm runs.flatten := by
  fun_induction mergePass cmp runs big with
  | case1 => exact List.Perm.refl _
  | case2 run big merged =>
      rw [List.flatten_singleton, List.flatten_singleton]
      have kept := mergePair_perm cmp run [] big
      rwa [List.append_nil] at kept
  | case3 first second runs big merged rest ih =>
      rw [List.flatten_cons, List.flatten_cons, List.flatten_cons, ← List.append_assoc]
      exact (mergePair_perm cmp first second big).append ih

theorem mergePasses_perm (runs : List (List α)) (big : Bool) : (mergePasses cmp runs big).Perm runs.flatten := by
  fun_induction mergePasses cmp runs big with
  | case1 runs big few =>
      rcases runs with _ | ⟨run, _ | ⟨next, runs⟩⟩
      · exact List.Perm.refl []
      · rw [List.flatten_singleton]
        exact List.Perm.refl run
      · exact absurd few (by simp)
  | case2 runs big many ih => exact ih.trans (mergePass_perm cmp runs big)

/-- Whatever the comparison says, the list keeps its elements. -/
theorem mergesort_perm (size : Nat) (base : List α) : (mergesort cmp size base).2.Perm base := by
  unfold mergesort
  split
  · exact List.Perm.refl base
  · split
    · exact List.Perm.refl base
    · exact (mergePasses_perm cmp _ false).trans (setup_perm cmp base)

end Permutation

/-! ## The place that is found -/

section Search

variable {α : Type*} (cmp : α → α → Int) (q : α) (sense : Int) (run : List α)

/-- The element goes ahead of `q`. -/
def Passes (i : Nat) : Prop := ∃ h : i < run.length, sense < cmp q run[i]

/-- A place behind an element that goes ahead of `q`, or behind the head, where no other one follows at once. -/
structure Edge (t : Nat) : Prop where
  pos : 0 < t
  inside : t ≤ run.length
  below : t = 1 ∨ Passes cmp q sense run (t - 1)
  above : t = run.length ∨ ¬ Passes cmp q sense run t

variable {cmp q sense run}

theorem not_passes {i : Nat} {h : i < run.length} (stops : cmp q run[i] ≤ sense) : ¬ Passes cmp q sense run i := by
  rintro ⟨_, after⟩
  omega

theorem linear_spec (i b : Nat) (inside : b < run.length) (below : b = 0 ∨ Passes cmp q sense run b) :
    (∀ t, linear cmp q sense run i b = .inl t → Edge cmp q sense run t) ∧
      ∀ b', linear cmp q sense run i b = .inr b' → b' < run.length ∧ (b' = 0 ∨ Passes cmp q sense run b') := by
  have behind : b + 1 = 1 ∨ Passes cmp q sense run (b + 1 - 1) := below.imp (congrArg (· + 1)) id
  fun_induction linear cmp q sense run i b with
  | case1 i b h after six =>
      refine ⟨fun t found => (by cases found), fun b' found => ?_⟩
      cases found
      exact ⟨h, Or.inr ⟨h, after⟩⟩
  | case2 i b h after few ih => exact ih h (Or.inr ⟨h, after⟩) (Or.inr ⟨h, after⟩)
  | case3 i b h stops =>
      refine ⟨fun t found => ?_, fun b' found => by cases found⟩
      cases found
      exact ⟨Nat.succ_pos b, Nat.le_of_lt h, behind, Or.inr (not_passes (Int.not_lt.mp stops))⟩
  | case4 i b last =>
      refine ⟨fun t found => ?_, fun b' found => by cases found⟩
      cases found
      exact ⟨Nat.succ_pos b, inside, behind, Or.inl (by omega)⟩

theorem slowcase_spec {b t : Nat} {inside : t ≤ run.length} (apart : b < t) (below : b = 0 ∨ Passes cmp q sense run b)
    (above : t = run.length ∨ ¬ Passes cmp q sense run t) : Edge cmp q sense run (slowcase cmp q sense run b t inside) := by
  fun_induction slowcase cmp q sense run b t inside with
  | case1 b t inside h stops ih => exact ih (by omega) below (Or.inr (not_passes stops))
  | case2 b t inside h goes ih => exact ih (by omega) (Or.inr ⟨_, Int.not_le.mp goes⟩) above
  | case3 b t inside h =>
      have next : t = b + 1 := by omega
      subst next
      exact ⟨Nat.succ_pos b, inside, below.imp (congrArg (· + 1)) id, above⟩

theorem fastcase_spec {k b t : Nat} {apart : t = b + 2 ^ k} {inside : t ≤ run.length}
    (below : b = 0 ∨ Passes cmp q sense run b) (above : t = run.length ∨ ¬ Passes cmp q sense run t) :
    Edge cmp q sense run (fastcase cmp q sense run k b t apart inside) := by
  fun_induction fastcase cmp q sense run k b t apart inside with
  | case1 b inside => exact ⟨Nat.succ_pos b, inside, below.imp (congrArg (· + 1)) id, above⟩
  | case2 b k half positive inside stops ih => exact ih below (Or.inr (not_passes stops))
  | case3 b k half positive inside goes ih => exact ih (Or.inr ⟨_, Int.not_le.mp goes⟩) above

theorem exponential_spec {k b : Nat} (inside : b < run.length) (below : b = 0 ∨ Passes cmp q sense run b) :
    Edge cmp q sense run (exponential cmp q sense run k b).1 := by
  fun_induction exponential cmp q sense run k b with
  | case1 k b h stops => exact fastcase_spec below (Or.inr (not_passes stops))
  | case2 k b h goes ih => exact ih h (Or.inr ⟨h, Int.not_le.mp goes⟩)
  | case3 k b far h stops => exact slowcase_spec h below (Or.inr (not_passes stops))
  | case4 k b far h goes =>
      exact slowcase_spec (by omega) (Or.inr ⟨by omega, Int.not_le.mp goes⟩) (Or.inl rfl)
  | case5 k b far near =>
      have last : run.length - 1 = b := by omega
      exact slowcase_spec (by omega) (last ▸ below) (Or.inl rfl)

theorem search_spec (big : Bool) (some : run ≠ []) : Edge cmp q sense run (search cmp q sense run big).1 := by
  have inside : 0 < run.length := List.length_pos_iff.mpr some
  unfold search
  split
  · exact exponential_spec inside (Or.inl rfl)
  · have steps := linear_spec 0 0 inside (Or.inl rfl : 0 = 0 ∨ Passes cmp q sense run 0)
    split
    · exact steps.1 _ ‹_›
    · have six := steps.2 _ ‹_›
      exact exponential_spec six.1 six.2

/-- The place cuts a run that is in order into what goes ahead of `q` and what does not. -/
theorem search_cuts (sorted : Sorted cmp run) (some : run ≠ [])
    (down : ∀ a b, cmp b a ≤ 0 → sense < cmp q a → sense < cmp q b) (head : ∀ a ∈ run.head?, sense < cmp q a) (big : Bool) :
    (∀ a ∈ run.take (search cmp q sense run big).1, sense < cmp q a) ∧
      ∀ b ∈ (run.drop (search cmp q sense run big).1).head?, cmp q b ≤ sense := by
  have edge := @search_spec α cmp q sense run big some
  generalize (search cmp q sense run big).1 = place at edge
  constructor
  · intro a member
    obtain ⟨i, early, rfl⟩ := List.mem_take_iff_getElem.mp member
    rcases edge.below with first | ⟨inside, passes⟩
    · have zero : i = 0 := by omega
      subst zero
      exact head _ (List.head?_eq_getElem? ▸ List.getElem?_eq_getElem _)
    · rcases Nat.lt_or_eq_of_le (Nat.le_sub_one_of_lt (Nat.lt_of_lt_of_le early (Nat.min_le_left _ _))) with less | equal
      · exact down _ _ (List.pairwise_iff_getElem.mp sorted i (place - 1) _ inside less) passes
      · subst equal
        exact passes
  · intro b next
    rw [List.head?_drop] at next
    obtain ⟨inside, rfl⟩ := List.getElem?_eq_some_iff.mp next
    rcases edge.above with last | stops
    · exact absurd inside (by omega)
    · exact Int.not_lt.mp fun passes => stops ⟨inside, passes⟩

end Search

/-! ## The stable sort -/

section Stable

variable {α : Type*} {cmp : α → α → Int}

/-- The runs are the stable sorts of the parts of a list. -/
inductive Runs (cmp : α → α → Int) : List α → List (List α) → Prop
  | nil : Runs cmp [] []
  | cons {part run xs : List α} {runs : List (List α)} :
      Sorts cmp part run → Runs cmp xs runs → Runs cmp (part ++ xs) (run :: runs)

theorem Runs.single {xs run : List α} (sorts : Sorts cmp xs run) : Runs cmp xs [run] := by
  have last : Runs cmp (xs ++ []) [run] := Runs.cons sorts Runs.nil
  rwa [List.append_nil] at last

theorem Runs.append {xs ys : List α} {runs more : List (List α)} (left : Runs cmp xs runs) (right : Runs cmp ys more) :
    Runs cmp (xs ++ ys) (runs ++ more) := by
  induction left with
  | nil => exact right
  | cons sorts _ ih =>
      rw [List.append_assoc]
      exact Runs.cons sorts ih

/-- All pairs of elements are the same way round. -/
def Straight (cmp : α → α → Int) (way : Bool) (run : List α) : Prop :=
  run.Pairwise fun a b => decide (0 < cmp a b) = way

theorem sense_of_mem_stretch {way : Bool} {pair : α × α} (pairs : List (α × α)) (first : sense cmp pair = way) :
    ∀ other ∈ pair :: pairs.takeWhile fun next => sense cmp next == way, sense cmp other = way := by
  intro other member
  rcases List.mem_cons.mp member with rfl | inside
  · exact first
  · exact eq_of_beq (List.mem_takeWhile_imp (p := fun next => sense cmp next == way) inside)

/-- The next stretch is the other way round. -/
theorem sense_head_later {way : Bool} {pairs : List (α × α)} :
    ∀ next ∈ (pairs.dropWhile fun next => sense cmp next == way).head?, sense cmp next = !way := by
  intro next head
  have stops := List.head?_dropWhile_not (fun next => sense cmp next == way) pairs
  rw [head] at stops
  have other : (sense cmp next == way) = false := stops
  cases way <;> simpa using other

theorem Straight.pair {way : Bool} {pair : α × α} (same : sense cmp pair = way) : Straight cmp way [pair.1, pair.2] :=
  List.pairwise_pair.mpr same

variable (order : Comparison cmp)
include order

/-- With the sense of the left run, what is not after `y` goes ahead of it. -/
theorem ahead_iff {a y : α} : -1 < cmp y a ↔ cmp a y ≤ 0 := by
  have turned := order.flip a y
  omega

/-- However a merge searches, it is the plain one. -/
theorem mergePair_eq (f1 f2 : List α) (big : Bool) (first : Sorted cmp f1) (second : Sorted cmp f2) :
    (mergePair cmp f1 f2 big).1 = f1.merge f2 (notAfter cmp) := by
  fun_induction mergePair cmp f1 f2 big with
  | case1 f2 => rw [List.nil_merge]
  | case2 f1 => rw [List.merge_right]
  | case3 x f1 y f2 big le found rest ih =>
      have down : ∀ a b, cmp b a ≤ 0 → -1 < cmp y a → -1 < cmp y b := fun a b before passes =>
        (ahead_iff order).mpr (order.trans b a y before ((ahead_iff order).mp passes))
      have head : ∀ a ∈ (x :: f1).head?, -1 < cmp y a := fun a member => by
        cases member
        exact (ahead_iff order).mpr le
      have cuts := search_cuts first (List.cons_ne_nil x f1) down head big
      have block : ∀ a ∈ (x :: f1).take found.1, cmp a y ≤ 0 := fun a member => (ahead_iff order).mp (cuts.1 a member)
      have next : ∀ b ∈ ((x :: f1).drop found.1).head?, 0 < cmp b y := fun b member => by
        have stops := cuts.2 b member
        exact order.lt_flip.mpr (by omega)
      have merged := @merge_left_block α cmp f2 _ _ y block next
      rw [List.take_append_drop] at merged
      rw [ih (first.sublist (List.drop_sublist _ _)) (List.pairwise_cons.mp second).2, merged]
  | case4 x f1 y f2 big after found rest ih =>
      have head : ∀ b ∈ (y :: f2).head?, 0 < cmp x b := fun b member => by
        cases member
        exact Int.not_le.mp after
      have cuts := search_cuts second (List.cons_ne_nil y f2)
        (fun a b before passes => order.lt_of_lt_of_le passes before) head big
      have merged := @merge_right_block α cmp f1 _ _ x cuts.1 cuts.2
      rw [List.take_append_drop] at merged
      rw [ih (List.pairwise_cons.mp first).2 (second.sublist (List.drop_sublist _ _)), merged]

theorem way_trans {way : Bool} {a b c : α} (first : decide (0 < cmp a b) = way) (second : decide (0 < cmp b c) = way) :
    decide (0 < cmp a c) = way := by
  cases way with
  | false =>
      rw [decide_eq_false_iff_not, Int.not_lt] at first second ⊢
      exact order.trans a b c first second
  | true =>
      rw [decide_eq_true_iff] at first second ⊢
      exact order.lt_trans first second

theorem Straight.sorts {way : Bool} {run : List α} (straight : Straight cmp way run) : Sorts cmp run (turned way run) := by
  cases way with
  | false => exact Sorts.of_sorted (straight.imp fun same => Int.not_lt.mp (of_decide_eq_false same))
  | true =>
      change Sorts cmp run (reverse run)
      rw [reverse_eq]
      exact Sorts.reverse order (straight.imp of_decide_eq_true)

/-- A run goes on with a pair that is the same way round as its last element and the first of the pair. -/
theorem Straight.extend {way : Bool} {run : List α} {prev a b : α} (straight : Straight cmp way run)
    (last : run.getLast? = some prev) (goes : decide (0 < cmp prev a) = way) (same : sense cmp (a, b) = way) :
    Straight cmp way (run ++ [a, b]) := by
  obtain ⟨init, rfl⟩ := List.getLast?_eq_some_iff.mp last
  have toLast : ∀ x ∈ init ++ [prev], decide (0 < cmp x a) = way := by
    intro x member
    rcases List.mem_append.mp member with inside | ends
    · exact way_trans order ((List.pairwise_append.mp straight).2.2 x inside prev (List.mem_singleton_self prev)) goes
    · exact List.mem_singleton.mp ends ▸ goes
  refine List.pairwise_append.mpr ⟨straight, Straight.pair same, fun x member y inside => ?_⟩
  rcases List.mem_cons.mp inside with rfl | inside
  · exact toLast x member
  · exact List.mem_singleton.mp inside ▸ way_trans order (toLast x member) same

theorem runs_pairwiseRuns {way : Bool} {pairs : List (α × α)} (same : ∀ pair ∈ pairs, sense cmp pair = way) :
    Runs cmp (elements pairs) (pairwiseRuns way pairs) := by
  induction pairs with
  | nil => exact Runs.nil
  | cons pair pairs ih =>
      have first : Sorts cmp [pair.1, pair.2] (if way then [pair.2, pair.1] else [pair.1, pair.2]) := by
        have straight := (Straight.pair (same pair List.mem_cons_self)).sorts order
        cases way with
        | false => exact straight
        | true =>
            rw [turned, if_pos rfl, reverse_eq] at straight
            exact straight
      exact Runs.cons first (ih fun other member => same other (List.mem_cons_of_mem pair member))

theorem runs_naturalRuns {way : Bool} {run : List α} {prev : α} {pairs : List (α × α)} (straight : Straight cmp way run)
    (last : run.getLast? = some prev) (same : ∀ pair ∈ pairs, sense cmp pair = way) :
    ∃ xs part, xs ++ part = run ++ elements pairs ∧ Runs cmp xs (naturalRuns cmp way run prev pairs).1 ∧
      Sorts cmp part (naturalRuns cmp way run prev pairs).2 := by
  fun_induction naturalRuns cmp way run prev pairs with
  | case1 run prev => exact ⟨[], run, (List.append_nil run).symm, Runs.nil, straight.sorts order⟩
  | case2 run prev a b pairs cut later ih =>
      obtain ⟨xs, part, all, runs, sorts⟩ := ih (Straight.pair (same (a, b) List.mem_cons_self)) rfl
        fun other member => same other (List.mem_cons_of_mem _ member)
      refine ⟨run ++ xs, part, ?_, Runs.cons (straight.sorts order) runs, sorts⟩
      rw [List.append_assoc, all]
      rfl
  | case3 run prev a b pairs goes ih =>
      have way : decide (0 < cmp prev a) = way := by simpa using goes
      obtain ⟨xs, part, all, parts⟩ := ih (straight.extend order last way (same (a, b) List.mem_cons_self))
        (by rw [List.getLast?_append]; rfl) fun other member => same other (List.mem_cons_of_mem _ member)
      refine ⟨xs, part, ?_, parts⟩
      rw [all, List.append_assoc]
      rfl

/-- A run whose last element is not after the first of the elements at the end has nothing that is after any of them. -/
theorem between_of_joins {run tail : List α} (left : Sorted cmp run) (right : Sorted cmp tail) (joined : joins cmp run tail) :
    ∀ a ∈ run, ∀ b ∈ tail, cmp a b ≤ 0 := by
  unfold joins at joined
  split at joined
  · rename_i last first ends starts
    obtain ⟨init, rfl⟩ := List.getLast?_eq_some_iff.mp ends
    obtain ⟨rest, rfl⟩ := List.head?_eq_some_iff.mp starts
    have meet : cmp last first ≤ 0 := of_decide_eq_true joined
    intro a inLeft b inRight
    have toLast : cmp a last ≤ 0 := by
      rcases List.mem_append.mp inLeft with inside | ending
      · exact (List.pairwise_append.mp left).2.2 a inside last (List.mem_singleton_self last)
      · exact List.mem_singleton.mp ending ▸ order.refl last
    have fromFirst : cmp first b ≤ 0 := by
      rcases List.mem_cons.mp inRight with equal | inside
      · exact equal ▸ order.refl first
      · exact (List.pairwise_cons.mp right).1 b inside
    exact order.trans a last b toLast (order.trans last first b meet fromFirst)
  · cases joined

theorem runs_setupRuns {xs tail : List α} {way : Bool} {pairs : List (α × α)} (ends : Sorts cmp xs tail)
    (first : ∀ pair ∈ pairs.head?, sense cmp pair = way) :
    Runs cmp (elements pairs ++ xs) (setupRuns cmp tail way pairs) := by
  fun_induction setupRuns cmp tail way pairs with
  | case1 => exact Runs.single ends
  | case2 way pair pairs same later short ih =>
      rw [← stretch_append cmp way pair pairs, elements_append, List.append_assoc]
      exact (runs_pairwiseRuns order (sense_of_mem_stretch pairs (first pair rfl))).append (ih sense_head_later)
  | case3 way pair pairs same later long runs joined =>
      have all : pair :: same ++ later = pair :: pairs := stretch_append cmp way pair pairs
      rw [joined.1, List.append_nil] at all
      have alike := sense_of_mem_stretch pairs (first pair rfl)
      obtain ⟨ys, part, cut, made, last⟩ := runs_naturalRuns order (Straight.pair (first pair rfl)) rfl
        fun other member => alike other (List.mem_cons_of_mem pair member)
      have joint := last.append ends (between_of_joins order last.sorted ends.sorted joined.2)
      have whole := made.append (Runs.single joint)
      rw [← List.append_assoc, cut] at whole
      rw [← all]
      exact whole
  | case4 way pair pairs same later long runs apart ih =>
      have alike := sense_of_mem_stretch pairs (first pair rfl)
      obtain ⟨ys, part, cut, made, last⟩ := runs_naturalRuns order (Straight.pair (first pair rfl)) rfl
        fun other member => alike other (List.mem_cons_of_mem pair member)
      have whole := made.append (Runs.cons last (ih sense_head_later))
      rw [← List.append_assoc, cut] at whole
      rw [← stretch_append cmp way pair pairs, elements_append, List.append_assoc]
      exact whole

theorem filter_swapDown (t : α) (below : List α) (a : α) :
    (swapDown cmp t below).filter (level cmp a) = (t :: below).filter (level cmp a) := by
  induction below with
  | nil => rfl
  | cons u below ih =>
      rw [swapDown_cons]
      split
      · rfl
      · rename_i after
        -- the two that change places are not level with each other
        have apart : ¬ (level cmp a u = true ∧ level cmp a t = true) := fun both => by
          have le := order.trans u a t (level_iff.mp both.1).2 (level_iff.mp both.2).1
          exact after le
        rw [List.filter_cons, ih]
        by_cases first : level cmp a u = true
        · have other : ¬ level cmp a t = true := fun second => apart ⟨first, second⟩
          simp [first, other]
        · simp [first, List.filter_cons]

theorem sorted_swapDown {t : α} {below : List α} (sorted : Sorted cmp below.reverse) :
    Sorted cmp (swapDown cmp t below).reverse := by
  have down := List.pairwise_reverse.mp sorted
  refine List.pairwise_reverse.mpr ?_
  clear sorted
  induction below with
  | nil => exact List.pairwise_singleton _ t
  | cons u below ih =>
      rw [swapDown_cons]
      have rest := List.pairwise_cons.mp down
      split
      · rename_i le
        refine List.pairwise_cons.mpr ⟨fun b member => ?_, down⟩
        rcases List.mem_cons.mp member with rfl | inside
        · exact le
        · exact order.trans b u t (rest.1 b inside) le
      · rename_i after
        refine List.pairwise_cons.mpr ⟨fun b member => ?_, ih rest.2⟩
        rcases List.mem_cons.mp ((swapDown_perm cmp t below).mem_iff.mp member) with rfl | inside
        · exact order.le_of_lt (Int.not_le.mp after)
        · exact rest.1 b inside

theorem sorts_insertionsort (a : List α) : Sorts cmp a (insertionsort cmp a) := by
  have all : ∀ (a xs below : List α), Sorts cmp xs below.reverse →
      Sorts cmp (xs ++ a) (a.foldl (fun below t => swapDown cmp t below) below).reverse := by
    intro a
    induction a with
    | nil =>
        intro xs below sorts
        rwa [List.append_nil]
    | cons t a ih =>
        intro xs below sorts
        have next : Sorts cmp (xs ++ [t]) (swapDown cmp t below).reverse := {
          perm := by
            refine ((List.reverse_perm _).trans (swapDown_perm cmp t below)).trans ?_
            refine (((List.reverse_perm below).symm.trans sorts.perm).cons t).trans ?_
            exact (List.perm_append_singleton t xs).symm
          sorted := sorted_swapDown order sorts.sorted
          stable := fun b => by
            rw [List.filter_reverse, filter_swapDown order, ← List.filter_reverse, List.reverse_cons, List.filter_append,
              List.filter_append, sorts.stable] }
        have later := ih (xs ++ [t]) (swapDown cmp t below) next
        rwa [List.append_assoc] at later
  exact all a [] [] (Sorts.of_sorted List.Pairwise.nil)

theorem runs_setup (list1 : List α) : Runs cmp list1 (setup cmp list1) := by
  unfold setup
  dsimp only
  split
  · exact Runs.single (sorts_insertionsort order list1)
  · have even : (list1.take (list1.length - (4 + list1.length % 2))).length % 2 = 0 := by
      rw [List.length_take]
      omega
    have whole : elements (pairsOf (list1.take (list1.length - (4 + list1.length % 2)))) ++
        list1.drop (list1.length - (4 + list1.length % 2)) = list1 := by
      rw [elements_pairsOf even, List.take_append_drop]
    refine (iff_of_eq (congrArg (Runs cmp · _) whole)).mp ?_
    exact runs_setupRuns order (sorts_insertionsort order _) fun pair head => by rw [head]; rfl

theorem runs_mergePass : ∀ {xs : List α} (runs : List (List α)) (big : Bool), Runs cmp xs runs →
    Runs cmp xs (mergePass cmp runs big).1
  | _, [], _, sorts => sorts
  | _, [run], big, Runs.cons first rest => by
      have kept := mergePair_eq order run [] big first.sorted List.Pairwise.nil
      rw [List.merge_right] at kept
      rw [mergePass, kept]
      exact Runs.cons first rest
  | _, first :: second :: runs, big, Runs.cons left (Runs.cons right more) => by
      have joint := left.merge order right
      rw [← mergePair_eq order first second big left.sorted right.sorted] at joint
      rw [mergePass, ← List.append_assoc]
      exact Runs.cons joint (runs_mergePass runs (mergePair cmp first second big).2 more)

theorem sorts_mergePasses {xs : List α} {runs : List (List α)} (parts : Runs cmp xs runs) (big : Bool) :
    Sorts cmp xs (mergePasses cmp runs big) := by
  fun_induction mergePasses cmp runs big with
  | case1 runs big few =>
      cases parts with
      | nil => exact Sorts.of_sorted List.Pairwise.nil
      | cons first rest =>
          cases rest with
          | nil =>
              rw [List.append_nil]
              exact first
          | cons second rest => exact absurd few (by simp)
  | case2 runs big many ih => exact ih (runs_mergePass order runs big parts)

theorem mergesort_sorts (size : Nat) (large : 8 / 2 ≤ size) (base : List α) :
    (mergesort cmp size base).1 = 0 ∧ Sorts cmp base (mergesort cmp size base).2 := by
  unfold mergesort
  split
  · rename_i short
    refine ⟨rfl, Sorts.of_sorted ?_⟩
    rcases base with _ | ⟨x, _ | ⟨y, rest⟩⟩
    · exact List.Pairwise.nil
    · exact List.pairwise_singleton _ x
    · exact absurd short (by simp)
  · rw [if_neg (Nat.not_lt.mpr large)]
    exact ⟨rfl, sorts_mergePasses order (runs_setup order base) false⟩

theorem mergesort_eq (size : Nat) (large : 8 / 2 ≤ size) (base : List α) :
    mergesort cmp size base = (0, base.mergeSort (notAfter cmp)) := by
  have sorts := mergesort_sorts order size large base
  exact Prod.ext sorts.1 (sorts.2.eq_mergeSort order)

/-- A list of elements that two halves of a pointer fit in is left as its one stable sort. -/
theorem mergesort_stable (size : Nat) (large : 8 / 2 ≤ size) (base : List α) :
    ∃ sorted, mergesort cmp size base = (0, sorted) ∧ Sorts cmp base sorted ∧
      ∀ other, Sorts cmp base other → other = sorted := by
  have sorts := mergesort_sorts order size large base
  exact ⟨_, Prod.ext sorts.1 rfl, sorts.2, fun other others => others.unique order sorts.2⟩

end Stable

/-- Pairs are sorted by their first parts. -/
theorem mergesort_stable_pairs : ∃ sorted, mergesort (fun a b : Int × Int => a.1 - b.1) 8
      [(2, 0), (1, 1), (2, 2), (0, 3), (1, 4), (2, 5), (0, 6)] = (0, sorted) ∧
    Sorts (fun a b => a.1 - b.1) [(2, 0), (1, 1), (2, 2), (0, 3), (1, 4), (2, 5), (0, 6)] sorted ∧
      ∀ other, Sorts (fun a b => a.1 - b.1) [(2, 0), (1, 1), (2, 2), (0, 3), (1, 4), (2, 5), (0, 6)] other →
        other = sorted :=
  mergesort_stable (Comparison.of_measure Prod.fst) 8 (by decide) _

/-! ## What is sorted -/

/-- `cmp_server`. The difference fits, as no time is negative. -/
def cmpServer (l r : Fields) : Int := l.findFlagValue .doneTime - r.findFlagValue .doneTime

/-- The servers of a load balancing queue are sorted by `Mergesort`. -/
theorem mergesort_servers (servers : List Fields) : mergesort cmpServer 8 servers = (0, sortServers servers) := by
  have sorted := mergesort_eq (Comparison.of_measure (fun l : Fields => l.findFlagValue .doneTime)) 8 (by decide) servers
  rw [sortServers]
  refine sorted.trans (congrArg (fun le => (0, servers.mergeSort le)) ?_)
  funext l r
  exact decide_eq_decide.mpr (by dsimp only; omega)

/-- What `ordercomp` has for lines with permitted options. -/
def orderOf (order s t : Bytes) : Int := (orderPlace order (s.headD 0) : Int) - orderPlace order (t.headD 0)

theorem ordercomp_eq {order : Bytes} {c d : UInt8} (left : ControlOrder.Permitted order c)
    (right : ControlOrder.Permitted order d) (s t : Bytes) :
    ControlOrder.ordercomp order (c :: s) (d :: t) = some (orderOf order (c :: s) (d :: t)) :=
  ControlOrder.ordercomp_of_permitted left right s t

/-- So are the option lines of a control file. -/
theorem mergesort_optionLines (config : ControlConfig) (options : Fields) :
    mergesort (orderOf config.order) 8 (upperLetters.filterMap fun c => (options (.letter c)).bind (config.optionLine c)) =
      (0, config.optionLines options) := by
  have sorted := mergesort_eq (Comparison.of_measure (fun s : Bytes => (orderPlace config.order (s.headD 0) : Int))) 8
    (by decide) (upperLetters.filterMap fun c => (options (.letter c)).bind (config.optionLine c))
  refine sorted.trans (congrArg (fun le => (0, List.mergeSort _ le)) ?_)
  funext s t
  exact decide_eq_decide.mpr (by dsimp only; omega)

end Mergesort

end LPRng
