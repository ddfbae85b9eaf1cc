import Mathlib.Data.List.Infix
import Mathlib.Data.List.DropRight

/-!
# Wildcards

A pattern is a list of atoms: a star, which stands for any list, or a class of elements, which stands for
one. The search that backtracks over stars hands only what is not empty to the atoms behind a star, and
a class may take the end of the list for an element, so that the search goes past it. Compared with
the language of the pattern, the first matters for a run of stars at the end of a pattern only, and
the second for lists that are not in the language only.
-/

namespace LPRng

namespace Glob

variable {α : Type*}

/-- An atom of a pattern. `atEnd` tells whether a class takes the end of a list for an element. -/
inductive Atom (α : Type*) where
  | star
  | one (holds : α → Bool) (atEnd : Bool)

/-- The language of a pattern. -/
def Matches : List (Atom α) → List α → Prop
  | [], s => s = []
  | .star :: ps, s => ∃ t, t <:+ s ∧ Matches ps t
  | .one holds _ :: ps, s => ∃ c t, s = c :: t ∧ holds c = true ∧ Matches ps t

/-- The first answer other than `false` for what is left of a list, down to its last element. -/
def firstTail (answer : List α → Option Bool) : List α → Option Bool
  | [] => some false
  | c :: s =>
      match answer (c :: s) with
      | some false => firstTail answer s
      | result => result

/-- The search. There is no result if it goes past the end of the list. -/
def search : List (Atom α) → List α → Option Bool
  | [], s => some s.isEmpty
  | .one _ atEnd :: _, [] => if atEnd then none else some false
  | .one holds _ :: ps, c :: s => if holds c then search ps s else some false
  | .star :: ps, s => if ps.isEmpty then some true else firstTail (search ps) s

/-- The search at a star. -/
alias search_star := search.eq_4

/-- Whether the search has a way to succeed. -/
def finds : List (Atom α) → List α → Prop
  | [], s => s = []
  | .one holds _ :: ps, s => ∃ c t, s = c :: t ∧ holds c = true ∧ finds ps t
  | .star :: ps, s => ps = [] ∨ ∃ t, t <:+ s ∧ t ≠ [] ∧ finds ps t

/-- Whether the search has a way past the end of the list. -/
def Overreads : List (Atom α) → List α → Prop
  | [], _ => False
  | .one _ atEnd :: _, [] => atEnd = true
  | .one holds _ :: ps, c :: s => holds c = true ∧ Overreads ps s
  | .star :: ps, s => ∃ t, t <:+ s ∧ t ≠ [] ∧ Overreads ps t

/-! ## The first tail with an answer -/

section FirstTail

variable {answer : List α → Option Bool} {s : List α} {b : Bool}

theorem firstTail_eq_false_iff : firstTail answer s = some false ↔ ∀ t, t <:+ s → t ≠ [] → answer t = some false := by
  induction s with
  | nil =>
      refine iff_of_true rfl fun t suffix given => absurd (List.suffix_nil.mp suffix) given
  | cons c s ih =>
      rw [firstTail]
      constructor
      · intro none t suffix given
        split at none
        · rename_i here
          rcases List.suffix_cons_iff.mp suffix with rfl | shorter
          · exact here
          · exact ih.mp none t shorter given
        · rename_i other
          exact absurd none other
      · intro all
        rw [all (c :: s) (List.suffix_refl _) (List.cons_ne_nil c s)]
        exact ih.mpr fun t suffix given => all t (suffix.trans (List.suffix_cons c s)) given

/-- An answer other than `false` is that of a tail behind which all longer ones answer `false`. -/
theorem exists_of_firstTail (other : firstTail answer s ≠ some false) :
    ∃ t, t <:+ s ∧ t ≠ [] ∧ answer t = firstTail answer s ∧
      ∀ t', t' <:+ s → t <:+ t' → t' ≠ t → answer t' = some false := by
  induction s with
  | nil => exact absurd rfl other
  | cons c s ih =>
      cases here : answer (c :: s) with
      | none =>
          refine ⟨c :: s, List.suffix_refl _, List.cons_ne_nil c s, by rw [firstTail, here], ?_⟩
          intro t within behind different
          exact absurd (within.eq_of_length (Nat.le_antisymm within.length_le behind.length_le)) different
      | some b =>
          cases b with
          | true =>
              refine ⟨c :: s, List.suffix_refl _, List.cons_ne_nil c s, by rw [firstTail, here], ?_⟩
              intro t within behind different
              exact absurd (within.eq_of_length (Nat.le_antisymm within.length_le behind.length_le)) different
          | false =>
              have later : firstTail answer (c :: s) = firstTail answer s := by rw [firstTail, here]
              rw [later] at other ⊢
              obtain ⟨t, suffix, given, same, longer⟩ := ih other
              refine ⟨t, suffix.trans (List.suffix_cons c s), given, same, fun t' within behind different => ?_⟩
              rcases List.suffix_cons_iff.mp within with rfl | shorter
              · exact here
              · exact longer t' shorter behind different

/-- With an answer for every tail, the first of them is found by going through the tails. -/
theorem any_tails_of_firstTail [DecidableEq α] {total : List α → Bool} (agree : ∀ t b, answer t = some b → total t = b)
    (result : firstTail answer s = some b) : (s.tails.any fun t => t ≠ [] && total t) = b := by
  induction s with
  | nil => exact Option.some.inj result
  | cons c s ih =>
      rw [List.tails_cons, List.any_cons, decide_eq_true (List.cons_ne_nil c s), Bool.true_and]
      rw [firstTail] at result
      cases here : answer (c :: s) with
      | none =>
          rw [here] at result
          cases result
      | some first =>
          rw [here] at result
          rw [agree _ _ here]
          cases first with
          | false => exact ih result
          | true => exact Option.some.inj result

end FirstTail

/-! ## What the search finds -/

section

variable {ps : List (Atom α)} {s t : List α}

theorem search_true (found : search ps s = some true) : finds ps s := by
  induction ps generalizing s with
  | nil => exact List.isEmpty_iff.mp (Option.some.inj found)
  | cons p ps ih =>
      cases p with
      | one holds atEnd =>
          cases s with
          | nil =>
              rw [search] at found
              split at found <;> cases found
          | cons c s =>
              rw [search] at found
              split at found
              · exact ⟨c, s, rfl, ‹_›, ih found⟩
              · cases found
      | star =>
          rw [search_star] at found
          split at found
          · exact .inl (List.isEmpty_iff.mp ‹_›)
          · obtain ⟨t, suffix, given, same, -⟩ := exists_of_firstTail (by rw [found]; decide)
            exact .inr ⟨t, suffix, given, ih (same.trans found)⟩

theorem search_false (missed : search ps s = some false) : ¬finds ps s ∧ ¬Overreads ps s := by
  induction ps generalizing s with
  | nil =>
      refine ⟨fun empty : s = [] => ?_, fun reads => reads⟩
      rw [empty] at missed
      cases missed
  | cons p ps ih =>
      cases p with
      | one holds atEnd =>
          cases s with
          | nil =>
              constructor
              · rintro ⟨c, t, shape, -⟩
                cases shape
              · intro reads
                rw [search, if_pos (show atEnd = true from reads)] at missed
                cases missed
          | cons c s =>
              rw [search] at missed
              split at missed
              · obtain ⟨unfound, within⟩ := ih missed
                refine ⟨?_, fun reads => within reads.2⟩
                rintro ⟨c', t, shape, -, found⟩
                cases shape
                exact unfound found
              · rename_i unheld
                refine ⟨?_, fun reads => unheld reads.1⟩
                rintro ⟨c', t, shape, held, -⟩
                cases shape
                exact unheld held
      | star =>
          rw [search_star] at missed
          split at missed
          · cases missed
          · rename_i more
            have tails := firstTail_eq_false_iff.mp missed
            constructor
            · rintro (last | ⟨t, suffix, given, found⟩)
              · exact more (List.isEmpty_iff.mpr last)
              · exact (ih (tails t suffix given)).1 found
            · rintro ⟨t, suffix, given, reads⟩
              exact (ih (tails t suffix given)).2 reads

/-- The search goes from longer tails to shorter ones. Where it goes past the end, no tail that is left
would have made it succeed. -/
theorem search_none (past : search ps s = none) : Overreads ps s ∧ ∀ t, t <:+ s → ¬finds ps t := by
  induction ps generalizing s with
  | nil => cases past
  | cons p ps ih =>
      cases p with
      | one holds atEnd =>
          cases s with
          | nil =>
              rw [search] at past
              split at past
              · refine ⟨‹_›, fun t suffix => ?_⟩
                rintro ⟨c, t', shape, -⟩
                rw [shape] at suffix
                cases List.suffix_nil.mp suffix
              · cases past
          | cons c s =>
              rw [search] at past
              split at past
              · obtain ⟨reads, unfound⟩ := ih past
                refine ⟨⟨‹_›, reads⟩, fun t suffix => ?_⟩
                rintro ⟨c', t', shape, -, found⟩
                rw [shape] at suffix
                have inside : t' <:+ s := by
                  rcases List.suffix_cons_iff.mp suffix with equal | shorter
                  · cases equal
                    exact List.suffix_refl _
                  · exact (List.suffix_cons c' t').trans shorter
                exact unfound t' inside found
              · cases past
      | star =>
          rw [search_star] at past
          split at past
          · cases past
          · rename_i more
            obtain ⟨t, suffix, given, same, longer⟩ := exists_of_firstTail (by rw [past]; decide)
            obtain ⟨reads, unfound⟩ := ih (same.trans past)
            refine ⟨⟨t, suffix, given, reads⟩, fun t' within => ?_⟩
            rintro (last | ⟨t'', suffix', -, found⟩)
            · exact more (List.isEmpty_iff.mpr last)
            · have inside := suffix'.trans within
              by_cases shorter : t'' <:+ t
              · exact unfound t'' shorter found
              · have behind : t <:+ t'' := (List.suffix_or_suffix_of_suffix suffix inside).resolve_right shorter
                have different : t'' ≠ t := fun equal => shorter (equal ▸ List.suffix_refl _)
                exact (search_false (longer t'' inside behind different)).1 found

theorem search_eq_true_iff : search ps s = some true ↔ finds ps s := by
  refine ⟨search_true, fun found => ?_⟩
  cases result : search ps s with
  | none => exact absurd found ((search_none result).2 s (List.suffix_refl _))
  | some b =>
      cases b with
      | true => rfl
      | false => exact absurd found (search_false result).1

theorem search_eq_false_iff : search ps s = some false ↔ ¬finds ps s ∧ ¬Overreads ps s := by
  refine ⟨search_false, fun ⟨unfound, within⟩ => ?_⟩
  cases result : search ps s with
  | none => exact absurd (search_none result).1 within
  | some b =>
      cases b with
      | true => exact absurd (search_true result) unfound
      | false => rfl

end

/-! ## The language -/

section

variable {p : Atom α} {ps qs front rest : List (Atom α)} {s t : List α}

theorem matches_append : Matches (ps ++ qs) s ↔ ∃ t u, s = t ++ u ∧ Matches ps t ∧ Matches qs u := by
  induction ps generalizing s with
  | nil =>
      constructor
      · intro hit
        exact ⟨[], s, rfl, rfl, hit⟩
      · rintro ⟨t, u, rfl, rfl, hit⟩
        exact hit
  | cons p ps ih =>
      cases p with
      | star =>
          constructor
          · rintro ⟨tail, ⟨skipped, rfl⟩, hit⟩
            obtain ⟨t, u, rfl, first, second⟩ := ih.mp hit
            exact ⟨skipped ++ t, u, (List.append_assoc ..).symm, ⟨t, List.suffix_append .., first⟩, second⟩
          · rintro ⟨t, u, rfl, ⟨tail, ⟨skipped, rfl⟩, first⟩, second⟩
            exact ⟨tail ++ u, ⟨skipped, (List.append_assoc ..).symm⟩, ih.mpr ⟨tail, u, rfl, first, second⟩⟩
      | one holds atEnd =>
          constructor
          · rintro ⟨c, tail, rfl, held, hit⟩
            obtain ⟨t, u, rfl, first, second⟩ := ih.mp hit
            exact ⟨c :: t, u, rfl, ⟨c, t, rfl, held, first⟩, second⟩
          · rintro ⟨t, u, rfl, ⟨c, tail, rfl, held, first⟩, second⟩
            exact ⟨c, tail ++ u, rfl, held, ih.mpr ⟨tail, u, rfl, first, second⟩⟩

/-- Only stars stand for nothing. -/
theorem eq_star_of_matches_nil (hit : Matches ps []) (member : p ∈ ps) : p = .star := by
  induction ps with
  | nil => cases member
  | cons q ps ih =>
      cases q with
      | star =>
          obtain ⟨t, suffix, hit⟩ := hit
          rw [List.suffix_nil.mp suffix] at hit
          cases member with
          | head => rfl
          | tail _ member => exact ih hit member
      | one holds atEnd =>
          obtain ⟨c, t, shape, -⟩ := hit
          cases shape

/-- A list is enough for a pattern that ends in a run of stars if something is left of it for the last
of them. -/
def Fed (ps : List (Atom α)) (s : List α) : Prop :=
  ∀ front, ps = front ++ [.star, .star] → ∃ t u, s = t ++ u ∧ u ≠ [] ∧ Matches front t

theorem fed_one {holds : α → Bool} {atEnd : Bool} {c : α} (held : holds c = true) :
    Fed (.one holds atEnd :: ps) (c :: s) ↔ Fed ps s := by
  constructor
  · intro fed front shape
    obtain ⟨t, u, parts, given, c', t', shape', -, hit⟩ := fed (.one holds atEnd :: front) (by rw [shape, List.cons_append])
    subst shape'
    exact ⟨t', u, (List.cons.inj parts).2, given, hit⟩
  · intro fed front shape
    cases front with
    | nil => cases shape
    | cons q front =>
        obtain ⟨rfl, shape'⟩ := List.cons.inj shape
        obtain ⟨t, u, rfl, given, hit⟩ := fed front shape'
        exact ⟨c :: t, u, rfl, given, c, t, rfl, held, hit⟩

theorem fed_star (suffix : t <:+ s) (given : t ≠ []) (fed : Fed ps t) : Fed (.star :: ps) s := by
  intro front shape
  obtain ⟨skipped, rfl⟩ := suffix
  cases front with
  | nil => exact ⟨[], skipped ++ t, rfl, List.append_ne_nil_of_right_ne_nil _ given, rfl⟩
  | cons q front =>
      obtain ⟨rfl, shape'⟩ := List.cons.inj shape
      obtain ⟨t', u, rfl, given, hit⟩ := fed front shape'
      exact ⟨skipped ++ t', u, (List.append_assoc ..).symm, given, t', List.suffix_append .., hit⟩

/-- Behind a star the search is left with a tail, although the language would be content with none. -/
theorem exists_tail_of_fed (more : ps ≠ []) (hit : Matches (.star :: ps) s) (fed : Fed (.star :: ps) s) :
    ∃ t, t <:+ s ∧ t ≠ [] ∧ Matches ps t ∧ Fed ps t := by
  by_cases run : ∃ front, ps = front ++ [.star, .star]
  · obtain ⟨front, rfl⟩ := run
    obtain ⟨t, u, rfl, given, tail, ⟨skipped, rfl⟩, hit'⟩ := fed (.star :: front) rfl
    refine ⟨tail ++ u, ⟨skipped, (List.append_assoc ..).symm⟩, List.append_ne_nil_of_right_ne_nil _ given,
      matches_append.mpr ⟨tail, u, rfl, hit', u, List.suffix_refl _, [], List.nil_suffix, rfl⟩, fun front' shape => ?_⟩
    rw [← List.append_cancel_right shape]
    exact ⟨tail, u, rfl, given, hit'⟩
  · have fed' : ∀ t, Fed ps t := fun t front shape => absurd ⟨front, shape⟩ run
    obtain ⟨t, suffix, hit⟩ := hit
    by_cases given : t = []
    · -- nothing but one star is left of the pattern, and it takes the whole list
      rw [given] at hit
      have stars : ps = List.replicate ps.length .star :=
        List.eq_replicate_of_mem fun p member => eq_star_of_matches_nil hit member
      have single : ps = [.star] := by
        rw [stars]
        match length : ps.length with
        | 0 => exact absurd (List.length_eq_zero_iff.mp length) more
        | 1 => rfl
        | n + 2 =>
            refine absurd ⟨List.replicate n .star, ?_⟩ run
            rw [stars, length]
            exact (List.replicate_append_replicate (n := n) (m := 2)).symm
      obtain ⟨t', u, rfl, given, rfl⟩ := fed [] (by rw [single]; rfl)
      rw [single]
      exact ⟨u, List.suffix_refl _, given, ⟨[], List.nil_suffix, rfl⟩, single ▸ fed' u⟩
    · exact ⟨t, suffix, given, hit, fed' t⟩

theorem finds_iff : finds ps s ↔ Matches ps s ∧ Fed ps s := by
  induction ps generalizing s with
  | nil =>
      constructor
      · intro empty
        exact ⟨empty, fun front shape => absurd (congrArg List.length shape) (by simp)⟩
      · exact fun both => both.1
  | cons p ps ih =>
      cases p with
      | one holds atEnd =>
          constructor
          · rintro ⟨c, t, rfl, held, found⟩
            obtain ⟨hit, fed⟩ := ih.mp found
            exact ⟨⟨c, t, rfl, held, hit⟩, (fed_one held).mpr fed⟩
          · rintro ⟨⟨c, t, rfl, held, hit⟩, fed⟩
            exact ⟨c, t, rfl, held, ih.mpr ⟨hit, (fed_one held).mp fed⟩⟩
      | star =>
          constructor
          · rintro (rfl | ⟨t, suffix, given, found⟩)
            · refine ⟨⟨[], List.nil_suffix, rfl⟩, fun front shape => absurd (congrArg List.length shape) (by simp)⟩
            · obtain ⟨hit, fed⟩ := ih.mp found
              exact ⟨⟨t, suffix, hit⟩, fed_star suffix given fed⟩
          · rintro ⟨hit, fed⟩
            by_cases more : ps = []
            · exact .inl more
            · obtain ⟨t, suffix, given, both⟩ := exists_tail_of_fed more hit fed
              exact .inr ⟨t, suffix, given, ih.mpr both⟩

/-- A way past the end of a list: what stands in front of a class that takes the end for an element
matches the list, and does not end in a star. -/
def EndsBefore (ps : List (Atom α)) (s : List α) : Prop :=
  ∃ front holds rest, ps = front ++ .one holds true :: rest ∧ front.getLast? ≠ some .star ∧ Matches front s

theorem overreads_iff : Overreads ps s ↔ EndsBefore ps s := by
  induction ps generalizing s with
  | nil =>
      constructor
      · exact fun reads => reads.elim
      · rintro ⟨front, holds, rest, shape, -⟩
        exact absurd shape (by simp)
  | cons p ps ih =>
      cases p with
      | one holds atEnd =>
          cases s with
          | nil =>
              constructor
              · intro reads
                refine ⟨[], holds, ps, ?_, by simp, rfl⟩
                rw [show atEnd = true from reads]
                rfl
              · rintro ⟨front, holds', rest, shape, -, hit⟩
                cases front with
                | nil =>
                    cases shape
                    rfl
                | cons q front =>
                    obtain ⟨rfl, -⟩ := List.cons.inj shape
                    obtain ⟨c, t, absurdity, -⟩ := hit
                    cases absurdity
          | cons c s =>
              constructor
              · rintro ⟨held, reads⟩
                obtain ⟨front, holds', rest, rfl, ending, hit⟩ := ih.mp reads
                refine ⟨.one holds atEnd :: front, holds', rest, rfl, ?_, c, s, rfl, held, hit⟩
                cases front with
                | nil => simp
                | cons q front => rwa [List.getLast?_cons_cons]
              · rintro ⟨front, holds', rest, shape, ending, hit⟩
                cases front with
                | nil => cases hit
                | cons q front =>
                    obtain ⟨rfl, shape'⟩ := List.cons.inj shape
                    obtain ⟨c', t, same, held, hit'⟩ := hit
                    cases same
                    refine ⟨held, ih.mpr ⟨front, holds', rest, shape', ?_, hit'⟩⟩
                    cases front with
                    | nil => simp
                    | cons q front => rwa [List.getLast?_cons_cons] at ending
      | star =>
          constructor
          · rintro ⟨t, suffix, given, reads⟩
            obtain ⟨front, holds, rest, rfl, ending, hit⟩ := ih.mp reads
            refine ⟨.star :: front, holds, rest, rfl, ?_, t, suffix, hit⟩
            cases front with
            | nil => exact absurd hit given
            | cons q front => rwa [List.getLast?_cons_cons]
          · rintro ⟨front, holds, rest, shape, ending, hit⟩
            cases front with
            | nil => cases shape
            | cons q front =>
                obtain ⟨rfl, shape'⟩ := List.cons.inj shape
                obtain ⟨t, suffix, hit'⟩ := hit
                cases front with
                | nil => exact absurd rfl ending
                | cons q front =>
                    rw [List.getLast?_cons_cons] at ending
                    refine ⟨t, suffix, ?_, ih.mpr ⟨q :: front, holds, rest, shape', ending, hit'⟩⟩
                    intro empty
                    rw [empty] at hit'
                    exact ending (by
                      rw [List.getLast?_eq_some_getLast (List.cons_ne_nil q front)]
                      exact congrArg some (eq_star_of_matches_nil hit' (List.getLast_mem _)))

/-- The search answers as the language does. -/
theorem search_correct_iff :
    (∃ b, search ps s = some b ∧ (b = true ↔ Matches ps s)) ↔
      (Matches ps s → Fed ps s) ∧ (¬Matches ps s → ¬EndsBefore ps s) := by
  constructor
  · rintro ⟨b, result, same⟩
    constructor
    · intro hit
      rw [same.mpr hit, search_eq_true_iff, finds_iff] at result
      exact result.2
    · intro missed
      rw [Bool.eq_false_iff.mpr (mt same.mp missed), search_eq_false_iff, overreads_iff] at result
      exact result.2
  · rintro ⟨fed, within⟩
    by_cases hit : Matches ps s
    · exact ⟨true, search_eq_true_iff.mpr (finds_iff.mpr ⟨hit, fed hit⟩), fun _ => hit, fun _ => rfl⟩
    · refine ⟨false, search_eq_false_iff.mpr ⟨fun found => hit (finds_iff.mp found).1, ?_⟩, nofun, fun found => absurd found hit⟩
      rw [overreads_iff]
      exact within hit

end

end Glob

end LPRng
