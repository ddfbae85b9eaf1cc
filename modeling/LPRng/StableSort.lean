import Mathlib.Data.List.Basic

/-!
# Stable sorting

For an order that is given by a comparison in the manner of C, a list has one stable sort: the sorted arrangement in
which elements that are level with each other keep their order. It is what merging the stable sorts of two parts
yields, however the merge finds its way.
-/

namespace LPRng

namespace StableSort

variable {α : Type*} {cmp : α → α → Int} {xs ys zs us vs : List α} {x y : α}

/-- A comparison is negative, zero or positive as its left side is before, level with or after its right side. -/
structure Comparison (cmp : α → α → Int) : Prop where
  flip : ∀ a b, cmp a b ≤ 0 ↔ 0 ≤ cmp b a
  trans : ∀ a b c, cmp a b ≤ 0 → cmp b c ≤ 0 → cmp a c ≤ 0

/-- The numbers of some measure compare by their difference. -/
theorem Comparison.of_measure (measure : α → Int) : Comparison fun a b => measure a - measure b where
  flip a b := by omega
  trans a b c first second := by omega

def notAfter (cmp : α → α → Int) (a b : α) : Bool := decide (cmp a b ≤ 0)

/-- Neither is before the other. -/
def level (cmp : α → α → Int) (a b : α) : Bool := notAfter cmp a b && notAfter cmp b a

@[simp] theorem notAfter_iff {a b : α} : notAfter cmp a b = true ↔ cmp a b ≤ 0 := decide_eq_true_iff

@[simp] theorem level_iff {a b : α} : level cmp a b = true ↔ cmp a b ≤ 0 ∧ cmp b a ≤ 0 := by
  rw [level, Bool.and_eq_true, notAfter_iff, notAfter_iff]

/-- In order, where elements may be level with each other. -/
def Sorted (cmp : α → α → Int) (xs : List α) : Prop := xs.Pairwise fun a b => cmp a b ≤ 0

/-- Each element is before those in front of it. -/
def Descending (cmp : α → α → Int) (xs : List α) : Prop := xs.Pairwise fun a b => 0 < cmp a b

section

variable (order : Comparison cmp)
include order

theorem Comparison.total (a b : α) : cmp a b ≤ 0 ∨ cmp b a ≤ 0 := by
  have turned := order.flip b a
  omega

theorem Comparison.refl (a : α) : cmp a a ≤ 0 := (order.total a a).elim id id

theorem Comparison.lt_flip {a b : α} : 0 < cmp a b ↔ cmp b a < 0 := by
  have turned := order.flip a b
  omega

theorem Comparison.le_of_lt {a b : α} (after : 0 < cmp a b) : cmp b a ≤ 0 := by
  have turned := order.flip b a
  omega

/-- What is after something is after all that is not after that. -/
theorem Comparison.lt_of_lt_of_le {a b c : α} (after : 0 < cmp a b) (le : cmp c b ≤ 0) : 0 < cmp a c := by
  by_contra not
  have through := order.trans a c b (by omega) le
  omega

theorem Comparison.lt_of_le_of_lt {a b c : α} (le : cmp b a ≤ 0) (after : 0 < cmp b c) : 0 < cmp a c := by
  by_contra not
  have through := order.trans b a c le (by omega)
  omega

theorem Comparison.lt_trans {a b c : α} (first : 0 < cmp a b) (second : 0 < cmp b c) : 0 < cmp a c :=
  order.lt_of_lt_of_le first (order.le_of_lt second)

theorem Comparison.level_trans {a b c : α} (first : level cmp a b = true) (second : level cmp b c = true) :
    level cmp a c = true := by
  rw [level_iff] at first second ⊢
  exact ⟨order.trans a b c first.1 second.1, order.trans c b a second.2 first.2⟩

theorem notAfter_trans (a b c : α) (first : notAfter cmp a b = true) (second : notAfter cmp b c = true) :
    notAfter cmp a c = true := by
  rw [notAfter_iff] at first second ⊢
  exact order.trans a b c first second

theorem notAfter_total (a b : α) : (notAfter cmp a b || notAfter cmp b a) = true := by
  rw [Bool.or_eq_true, notAfter_iff, notAfter_iff]
  exact order.total a b

end

/-! ## The stable sort of a list -/

/-- `ys` has the elements of `xs` in order, and those that are level with some element as they were. -/
structure Sorts (cmp : α → α → Int) (xs ys : List α) : Prop where
  perm : ys.Perm xs
  sorted : Sorted cmp ys
  stable : ∀ a, ys.filter (level cmp a) = xs.filter (level cmp a)

theorem Sorts.of_sorted (sorted : Sorted cmp xs) : Sorts cmp xs xs where
  perm := List.Perm.refl xs
  sorted := sorted
  stable _ := rfl

theorem Sorts.trans (first : Sorts cmp xs ys) (second : Sorts cmp ys zs) : Sorts cmp xs zs where
  perm := second.perm.trans first.perm
  sorted := second.sorted
  stable a := (second.stable a).trans (first.stable a)

/-- Two parts may be put together where all of the first is before the second. -/
theorem Sorts.append (left : Sorts cmp xs ys) (right : Sorts cmp us vs) (between : ∀ a ∈ ys, ∀ b ∈ vs, cmp a b ≤ 0) :
    Sorts cmp (xs ++ us) (ys ++ vs) where
  perm := left.perm.append right.perm
  sorted := List.pairwise_append.mpr ⟨left.sorted, right.sorted, between⟩
  stable a := by rw [List.filter_append, List.filter_append, left.stable, right.stable]

section

variable (order : Comparison cmp)
include order

/-- Of elements that are in order and have the same of each kind, there is one list. -/
theorem sorted_unique : ∀ {ys zs : List α}, Sorted cmp ys → Sorted cmp zs → ys.Perm zs →
    (∀ a, ys.filter (level cmp a) = zs.filter (level cmp a)) → ys = zs := by
  intro ys
  induction ys with
  | nil => exact fun _ _ perm _ => perm.nil_eq
  | cons y ys ih =>
      intro zs first second perm same
      cases zs with
      | nil => exact absurd perm.eq_nil (List.cons_ne_nil y ys)
      | cons z zs =>
          have least : cmp y z ≤ 0 := by
            rcases List.mem_cons.mp (perm.mem_iff.mpr List.mem_cons_self) with equal | inside
            · exact equal ▸ order.refl z
            · exact List.rel_of_pairwise_cons first inside
          have other : cmp z y ≤ 0 := by
            rcases List.mem_cons.mp (perm.mem_iff.mp List.mem_cons_self) with equal | inside
            · exact equal ▸ order.refl y
            · exact List.rel_of_pairwise_cons second inside
          -- both heads are the first of their kind
          have heads := same y
          rw [List.filter_cons_of_pos (level_iff.mpr ⟨order.refl y, order.refl y⟩),
            List.filter_cons_of_pos (level_iff.mpr ⟨least, other⟩)] at heads
          have equal : y = z := (List.cons_eq_cons.mp heads).1
          subst equal
          have rest : ∀ a, ys.filter (level cmp a) = zs.filter (level cmp a) := by
            intro a
            have both := same a
            rw [List.filter_cons, List.filter_cons] at both
            split at both
            · exact (List.cons_eq_cons.mp both).2
            · exact both
          rw [ih (List.pairwise_cons.mp first).2 (List.pairwise_cons.mp second).2 perm.cons_inv rest]

theorem Sorts.unique (first : Sorts cmp xs ys) (second : Sorts cmp xs zs) : ys = zs :=
  sorted_unique order first.sorted second.sorted (first.perm.trans second.perm.symm) fun a =>
    (first.stable a).trans (second.stable a).symm

/-- At most one element of a descending list is level with a given one. -/
theorem filter_descending (descending : Descending cmp xs) (a : α) : (xs.filter (level cmp a)).length ≤ 1 := by
  have apart : (xs.filter (level cmp a)).Pairwise fun b c => 0 < cmp b c := descending.sublist List.filter_sublist
  have alike : ∀ b ∈ xs.filter (level cmp a), level cmp a b = true := fun b inside => (List.mem_filter.mp inside).2
  revert apart alike
  rcases xs.filter (level cmp a) with _ | ⟨b, _ | ⟨c, rest⟩⟩
  · exact fun _ _ => Nat.zero_le 1
  · exact fun _ _ => Nat.le_refl 1
  · intro apart alike
    have before : 0 < cmp b c := (List.pairwise_cons.mp apart).1 c List.mem_cons_self
    have first := level_iff.mp (alike b List.mem_cons_self)
    have second := level_iff.mp (alike c (List.mem_cons_of_mem b List.mem_cons_self))
    have through := order.trans b a c first.2 second.1
    omega

/-- A descending list is sorted by turning it round. -/
theorem Sorts.reverse (descending : Descending cmp xs) : Sorts cmp xs xs.reverse where
  perm := List.reverse_perm xs
  sorted := List.pairwise_reverse.mpr (descending.imp fun after => order.le_of_lt after)
  stable a := by
    have short := filter_descending order descending a
    rw [List.filter_reverse]
    revert short
    rcases xs.filter (level cmp a) with _ | ⟨b, _ | ⟨c, rest⟩⟩
    · exact fun _ => rfl
    · exact fun _ => rfl
    · exact fun short => absurd short (by simp)

/-! ## Merging -/

theorem filter_merge (sorted : Sorted cmp xs) (a : α) : (xs.merge ys (notAfter cmp)).filter (level cmp a) =
    xs.filter (level cmp a) ++ ys.filter (level cmp a) := by
  induction xs generalizing ys with
  | nil => rw [List.nil_merge, List.filter_nil, List.nil_append]
  | cons x xs left =>
      induction ys with
      | nil => rw [List.merge_right, List.filter_nil, List.append_nil]
      | cons y ys right =>
          rw [List.cons_merge_cons]
          by_cases first : notAfter cmp x y = true
          · rw [if_pos first, List.filter_cons, left (List.pairwise_cons.mp sorted).2, @List.filter_cons _ x xs]
            split
            · rfl
            · rfl
          · rw [if_neg first, List.filter_cons, right, @List.filter_cons _ y ys]
            split
            · -- nothing on the left is level with `y`
              have after : 0 < cmp x y := by
                rw [notAfter_iff] at first
                omega
              have none : (x :: xs).filter (level cmp a) = [] := by
                refine List.filter_eq_nil_iff.mpr fun b inside alike => ?_
                have same := order.level_trans (level_iff.mpr (level_iff.mp ‹level cmp a y = true›).symm) alike
                have least : cmp x b ≤ 0 := by
                  rcases List.mem_cons.mp inside with equal | inside
                  · exact equal ▸ order.refl b
                  · exact List.rel_of_pairwise_cons sorted inside
                have through := order.trans x b y least (level_iff.mp same).2
                omega
              rw [none, List.nil_append, List.nil_append]
            · rfl

/-- Merging the stable sorts of two parts sorts the whole. -/
theorem Sorts.merge (left : Sorts cmp xs ys) (right : Sorts cmp us vs) :
    Sorts cmp (xs ++ us) (ys.merge vs (notAfter cmp)) where
  perm := (List.merge_perm_append (notAfter cmp)).trans (left.perm.append right.perm)
  sorted := by
    have merged := List.pairwise_merge (notAfter_trans order) (notAfter_total order) ys vs
      (left.sorted.imp fun le => notAfter_iff.mpr le) (right.sorted.imp fun le => notAfter_iff.mpr le)
    exact merged.imp fun le => notAfter_iff.mp le
  stable a := by rw [filter_merge order left.sorted, List.filter_append, left.stable, right.stable]

/-- The sort of the library is stable. -/
theorem Sorts.mergeSort (xs : List α) : Sorts cmp xs (xs.mergeSort (notAfter cmp)) where
  perm := List.mergeSort_perm xs (notAfter cmp)
  sorted := (List.pairwise_mergeSort (notAfter_trans order) (notAfter_total order) xs).imp fun le => notAfter_iff.mp le
  stable a := by
    have alike : (xs.filter (level cmp a)).Pairwise fun b c => notAfter cmp b c = true := by
      refine List.pairwise_of_forall_mem_list fun b first c second => notAfter_iff.mpr ?_
      exact order.trans b a c (level_iff.mp (List.mem_filter.mp first).2).2 (level_iff.mp (List.mem_filter.mp second).2).1
    have inside := (List.sublist_mergeSort (notAfter_trans order) (notAfter_total order) alike
      List.filter_sublist).filter (level cmp a)
    rw [List.filter_filter] at inside
    simp only [Bool.and_self] at inside
    exact (inside.eq_of_length ((List.mergeSort_perm xs (notAfter cmp)).filter _).length_eq.symm).symm

theorem Sorts.eq_mergeSort (sorts : Sorts cmp xs ys) : ys = xs.mergeSort (notAfter cmp) :=
  sorts.unique order (Sorts.mergeSort order xs)

end

/-! ## Merging by blocks -/

/-- What is not after the head of the right side goes ahead of it as a block. -/
theorem merge_left_block (block : ∀ a ∈ us, cmp a y ≤ 0) (next : ∀ b ∈ vs.head?, 0 < cmp b y) :
    (us ++ vs).merge (y :: ys) (notAfter cmp) = us ++ y :: vs.merge ys (notAfter cmp) := by
  induction us with
  | nil =>
      cases vs with
      | nil => rw [List.nil_append, List.nil_merge, List.nil_merge, List.nil_append]
      | cons v vs =>
          have after := next v rfl
          rw [List.nil_append, List.cons_merge_cons_neg _ _ _ (by rw [notAfter_iff]; omega), List.nil_append]
  | cons u us ih =>
      rw [List.cons_append, List.cons_merge_cons_pos _ _ _ (notAfter_iff.mpr (block u List.mem_cons_self)),
        ih fun a inside => block a (List.mem_cons_of_mem u inside), List.cons_append]

/-- What is before the head of the left side goes ahead of it as a block. -/
theorem merge_right_block (block : ∀ b ∈ us, 0 < cmp x b) (next : ∀ b ∈ vs.head?, cmp x b ≤ 0) :
    (x :: xs).merge (us ++ vs) (notAfter cmp) = us ++ x :: xs.merge vs (notAfter cmp) := by
  induction us with
  | nil =>
      cases vs with
      | nil => rw [List.nil_append, List.merge_right, List.merge_right, List.nil_append]
      | cons v vs =>
          rw [List.nil_append, List.cons_merge_cons_pos _ _ _ (notAfter_iff.mpr (next v rfl)), List.nil_append]
  | cons u us ih =>
      have after := block u List.mem_cons_self
      rw [List.cons_append, List.cons_merge_cons_neg _ _ _ (by rw [notAfter_iff]; omega),
        ih fun b inside => block b (List.mem_cons_of_mem u inside), List.cons_append]

end StableSort

end LPRng
