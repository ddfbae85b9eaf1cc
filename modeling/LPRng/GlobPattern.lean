import LPRng.Glob
import LPRng.PermissionTests

/-!
# Patterns of a permission file

`glob_pattern` goes through a pattern from one of the characters `*`, `?` and `[` to the next. The
pattern stands for a list of atoms, and what `Globmatch` returns is what the search for these finds.
-/

namespace LPRng

namespace Globmatch

open Glob
open Permission (sval classMisses globPattern)

/-! ## The atoms of a pattern -/

/-- A character of a set: one of those that stand in it, or of those between two with a `-`. -/
def setHolds (ch : UInt8) : Bytes → Bool
  | [] => false
  | [p] => ch == p
  | [p, q] => ch == p || ch == q
  | p :: dash :: high :: ps =>
      if dash = 45 then ch == p || (sval p ≤ sval ch && sval ch ≤ sval high) || setHolds ch ps
      else ch == p || setHolds ch (dash :: high :: ps)

def rangeHolds (range : Bytes) (ch : UInt8) : Bool :=
  if range.head? = some 94 then !setHolds ch range.tail else setHolds ch range

/-- A set takes the NUL at the end of a text like any character. -/
def set (range : Bytes) : Atom UInt8 := .one (rangeHolds range) (rangeHolds range 0)

def literal (p : UInt8) : Atom UInt8 := .one (fun ch => toLower ch == toLower p) false

/-- The atoms of a pattern, inside a set of which `range` has been read if there is one. A bracket that
is not closed stands for nothing. -/
def atoms : Option Bytes → Bytes → List (Atom UInt8)
  | none, [] => []
  | some _, [] => [.one (fun _ => false) false]
  | none, p :: ps =>
      if p = 42 then .star :: atoms none ps
      else if p = 63 then .one (fun _ => true) false :: atoms none ps
      else if p = 91 then atoms (some []) ps
      else literal p :: atoms none ps
  | some range, p :: ps =>
      if p = 93 then set range :: atoms none ps else atoms (some (range ++ [p])) ps

/-- Inside a bracket. -/
alias atoms_range := atoms.eq_4

def parse (pattern : Bytes) : List (Atom UInt8) := atoms none pattern

/-! ## What `glob_pattern` reads -/

/-- `glob_pattern`, which has no result once it steps past the end of the text. -/
def globReads (pattern str : Bytes) : Option Bool :=
  match found : pattern.dropWhile (!(lit "*?[").contains ·) with
  | [] => some (strcasecmp pattern str ≠ .eq)
  | c :: rest =>
      have shorter : rest.length < pattern.length := by
        have part := (List.dropWhile_sublist (!(lit "*?[").contains ·) (l := pattern)).length_le
        rw [found] at part
        exact part
      let len := pattern.length - (rest.length + 1)
      if strcasecmp (pattern.take len) (str.take len) ≠ .eq then some true
      else
        let str := str.drop len
        if c = 63 then
          match str with
          | [] => some true
          | _ :: s => globReads rest s
        else if c = 91 then
          match closed : rest.dropWhile (· ≠ 93) with
          | [] => some true
          | _ :: after =>
              have shorter' : after.length < pattern.length := by
                have part := (List.dropWhile_sublist (fun c : UInt8 => decide (c ≠ 93)) (l := rest)).length_le
                rw [closed] at part
                exact lt_trans part shorter
              let range := rest.takeWhile (· ≠ 93)
              let invert := range.head? = some 94
              let missed := classMisses (str.headD 0) 0 (if invert then range.tail else range)
              if (if invert then !missed else missed) then some true
              else match str with
                | [] => none
                | _ :: s => globReads after s
        else if rest = [] then some false
        else (firstTail (fun s => (globReads rest s).map (!·)) str).map (!·)
termination_by pattern.length

/-! ## One character of a pattern after another -/

/-- The characters of a pattern from which `glob_pattern` goes on by itself. -/
abbrev wild (c : UInt8) : Bool := (lit "*?[").contains c

@[elab_as_elim]
theorem pattern_induction {P : Bytes → Prop} (nil : P []) (star : ∀ rest, P rest → P (42 :: rest))
    (any : ∀ rest, P rest → P (63 :: rest)) (opened : ∀ rest, 93 ∉ rest → P (91 :: rest))
    (set : ∀ range after, 93 ∉ range → P after → P (91 :: (range ++ 93 :: after)))
    (plain : ∀ c ps, wild c = false → P ps → P (c :: ps)) (pattern : Bytes) : P pattern := by
  induction length : pattern.length using Nat.strong_induction_on generalizing pattern with
  | h n ih =>
      have shorter : ∀ rest : Bytes, rest.length < n → P rest := fun rest less => ih rest.length less rest rfl
      cases pattern with
      | nil => exact nil
      | cons c rest =>
          rw [List.length_cons] at length
          have tail := shorter rest (by omega)
          cases tame : wild c with
          | false => exact plain c rest tame tail
          | true =>
              have table : ∀ c : UInt8, (!wild c || (c = 42 || c = 63 || c = 91)) = true := forall_byte (by decide +kernel)
              have which := table c
              rw [tame, Bool.not_true, Bool.false_or, Bool.or_eq_true, Bool.or_eq_true, decide_eq_true_iff,
                decide_eq_true_iff, decide_eq_true_iff] at which
              rcases which with (rfl | rfl) | rfl
              · exact star rest tail
              · exact any rest tail
              · by_cases closed : 93 ∈ rest
                · obtain ⟨range, after, rfl, free⟩ := List.eq_append_cons_of_mem closed
                  exact set range after free (shorter after (by simp at length; omega))
                · exact opened rest closed

theorem strcasecmp_cons_eq_iff {c d : UInt8} {s t : Bytes} :
    strcasecmp (c :: s) (d :: t) = .eq ↔ toLower c = toLower d ∧ strcasecmp s t = .eq := by
  rw [(strcasecmp_compares _ _).eq_eq, (strcasecmp_compares s t).eq_eq]
  constructor
  · intro same
    obtain ⟨first, rest⟩ := List.cons.inj same
    exact ⟨UInt8.toNat_inj.mp first, rest⟩
  · rintro ⟨first, rest⟩
    rw [foldCase, List.map_cons, first]
    exact congrArg _ rest

/-- What stands in front of a wildcard is compared with the text, and so is what has none. -/
theorem plain_step {β : Type*} (f : Bytes → Bytes → β) (result : Bool → β) (g : UInt8 → Bytes → Bytes → β)
    (whole : ∀ ps str, ps.dropWhile (!wild ·) = [] → f ps str = result (decide (strcasecmp ps str ≠ .eq)))
    (front : ∀ (ps str : Bytes) c rest, ps.dropWhile (!wild ·) = c :: rest →
      f ps str = if strcasecmp (ps.take (ps.length - (rest.length + 1))) (str.take (ps.length - (rest.length + 1))) ≠ .eq then result true
        else g c rest (str.drop (ps.length - (rest.length + 1))))
    {c : UInt8} {ps : Bytes} (tame : wild c = false) :
    f (c :: ps) [] = result true ∧
      ∀ d s, f (c :: ps) (d :: s) = if toLower c = toLower d then f ps s else result true := by
  have same : (c :: ps).dropWhile (!wild ·) = ps.dropWhile (!wild ·) := by
    rw [List.dropWhile_cons, tame]
    rfl
  cases found : ps.dropWhile (!wild ·) with
  | nil =>
      rw [whole _ _ (same.trans found)]
      refine ⟨rfl, fun d s => ?_⟩
      rw [whole _ _ (same.trans found), whole _ _ found]
      by_cases first : toLower c = toLower d
      · rw [if_pos first]
        congr 2
        rw [ne_eq, ne_eq, strcasecmp_cons_eq_iff, and_iff_right first]
      · rw [if_neg first]
        congr 1
        exact decide_eq_true fun equal => first (strcasecmp_cons_eq_iff.mp equal).1
  | cons w rest =>
      have part : rest.length < ps.length := by
        have sub := (List.dropWhile_sublist (!wild ·) (l := ps)).length_le
        rw [found] at sub
        exact sub
      have longer : (c :: ps).length - (rest.length + 1) = (ps.length - (rest.length + 1)) + 1 := by
        rw [List.length_cons]
        omega
      rw [front _ _ _ _ (same.trans found), longer]
      refine ⟨rfl, fun d s => ?_⟩
      rw [front _ _ _ _ (same.trans found), longer, front ps s _ _ found, List.take_succ_cons, List.take_succ_cons, List.drop_succ_cons]
      by_cases first : toLower c = toLower d
      · rw [if_pos first]
        congr 1
        rw [ne_eq, ne_eq, strcasecmp_cons_eq_iff, and_iff_right first]
      · rw [if_neg first, if_pos fun equal => first (strcasecmp_cons_eq_iff.mp equal).1]

/-! ## Sets -/

/-- What comes of the characters between brackets. -/
def rangeMisses (range : Bytes) (ch : UInt8) : Bool :=
  if range.head? = some 94 then !classMisses ch 0 range.tail else classMisses ch 0 range

theorem ite_rangeMisses (range : Bytes) (ch : UInt8) :
    (if range.head? = some 94 then !classMisses ch 0 (if range.head? = some 94 then range.tail else range)
      else classMisses ch 0 (if range.head? = some 94 then range.tail else range)) = rangeMisses range ch := by
  by_cases inverted : range.head? = some 94
  · simp only [rangeMisses, if_pos inverted]
  · simp only [rangeMisses, if_neg inverted]

theorem sval_ne_zero {p : UInt8} (given : p ≠ 0) : sval p ≠ 0 := by
  have table : ∀ p : UInt8, (decide (p = 0) || decide (sval p ≠ 0)) = true := forall_byte (by decide +kernel)
  have shape := table p
  rw [decide_eq_false given, Bool.false_or, decide_eq_true_iff] at shape
  exact shape

/-- Only the character before a `-` is looked at once more. -/
theorem classMisses_eq {ch : UInt8} {range : Bytes} (free : 0 ∉ range) : classMisses ch 0 range = !setHolds ch range := by
  fun_induction setHolds ch range with
  | case1 => rfl
  | case2 p => rfl
  | case3 p q =>
      rw [classMisses, if_neg (by simp), classMisses]
      split
      · rename_i same
        rw [beq_iff_eq.mpr same]
        rfl
      · rename_i different
        rw [beq_eq_false_iff_ne.mpr different]
        rfl
  | case4 p high ps ih =>
      have first := sval_ne_zero fun zero : p = 0 => free (zero ▸ List.mem_cons_self ..)
      have later := ih fun member => free (List.mem_cons_of_mem _ (List.mem_cons_of_mem _ (List.mem_cons_of_mem _ member)))
      rw [classMisses, if_neg (by simp)]
      by_cases same : ch = p
      · rw [if_pos same, beq_iff_eq.mpr same]
        rfl
      · rw [if_neg same, classMisses, if_pos ⟨first, rfl⟩, later, beq_eq_false_iff_ne.mpr same]
        by_cases inside : sval p ≤ sval ch ∧ sval ch ≤ sval high
        · simp [inside]
        · rw [if_neg inside, ← Bool.decide_and, decide_eq_false inside]
          rfl
  | case5 p dash high ps other ih =>
      have later := ih fun member => free (List.mem_cons_of_mem _ member)
      rw [classMisses, if_neg (by simp)] at later ⊢
      by_cases same : ch = p
      · rw [if_pos same, beq_iff_eq.mpr same]
        rfl
      · rw [if_neg same, classMisses, if_neg fun both => other both.2, later, beq_eq_false_iff_ne.mpr same]
        rfl

theorem rangeMisses_eq {ch : UInt8} {range : Bytes} (free : 0 ∉ range) : rangeMisses range ch = !rangeHolds range ch := by
  rw [rangeMisses, rangeHolds]
  split
  · rw [classMisses_eq fun member => free (List.mem_of_mem_tail member)]
  · rw [classMisses_eq free]

theorem takeWhile_dropWhile_closed {range : Bytes} (unclosed : 93 ∉ range) (after : Bytes) :
    (range ++ 93 :: after).takeWhile (· ≠ 93) = range ∧ (range ++ 93 :: after).dropWhile (· ≠ 93) = 93 :: after := by
  have all : ∀ c ∈ range, decide (c ≠ 93) = true := fun c member => decide_eq_true fun equal => unclosed (equal ▸ member)
  constructor
  · rw [List.takeWhile_append_of_pos all, List.takeWhile_cons_of_neg (by decide), List.append_nil]
  · rw [List.dropWhile_append_of_pos all, List.dropWhile_cons_of_neg (by decide)]

theorem dropWhile_open {rest : Bytes} (unclosed : 93 ∉ rest) : rest.dropWhile (· ≠ 93) = [] := by
  rw [List.dropWhile_eq_nil_iff]
  intro c member
  exact decide_eq_true fun equal => unclosed (equal ▸ member)

/-! ## The cases of `glob_pattern` -/

/-- What is done at a wildcard. -/
def wildReads (c : UInt8) (rest str : Bytes) : Option Bool :=
  if c = 63 then if str = [] then some true else globReads rest str.tail
  else if c = 91 then
    match rest.dropWhile (· ≠ 93) with
    | [] => some true
    | _ :: after =>
        if rangeMisses (rest.takeWhile (· ≠ 93)) (str.headD 0) then some true
        else if str = [] then none
        else globReads after str.tail
  else if rest = [] then some false
  else (firstTail (fun s => (globReads rest s).map (!·)) str).map (!·)

def wildMisses (behind : Bytes) (c : UInt8) (rest str : Bytes) : Bool :=
  if c = 63 then if str = [] then true else globPattern behind rest str.tail
  else if c = 91 then
    match rest.dropWhile (· ≠ 93) with
    | [] => true
    | _ :: after =>
        if rangeMisses (rest.takeWhile (· ≠ 93)) (str.headD 0) then true
        else globPattern behind after (if str = [] then behind else str.tail)
  else if rest = [] then false
  else !(str.tails.any fun s => s ≠ [] && !globPattern behind rest s)

section

variable {behind : Bytes} {c d : UInt8} {ps rest range after str s : Bytes}

theorem globReads_whole (tame : ps.dropWhile (!wild ·) = []) :
    globReads ps str = some (decide (strcasecmp ps str ≠ .eq)) := by
  rw [globReads]
  split
  · rfl
  · rename_i found
    cases found.symm.trans tame

theorem globPattern_whole (tame : ps.dropWhile (!wild ·) = []) :
    globPattern behind ps str = decide (strcasecmp ps str ≠ .eq) := by
  rw [globPattern]
  split
  · rfl
  · rename_i found
    cases found.symm.trans tame

theorem globReads_front (found : ps.dropWhile (!wild ·) = c :: rest) :
    globReads ps str = if strcasecmp (ps.take (ps.length - (rest.length + 1))) (str.take (ps.length - (rest.length + 1))) ≠ .eq then some true
        else wildReads c rest (str.drop (ps.length - (rest.length + 1))) := by
  rw [globReads]
  split
  · rename_i none
    cases none.symm.trans found
  · rename_i same
    cases same.symm.trans found
    dsimp only
    congr 1
    generalize str.drop (ps.length - (rest.length + 1)) = str
    unfold wildReads
    congr 1
    · cases str <;> rfl
    · congr 1
      split
      · simp only [*]
      · simp only [*, ite_rangeMisses]
        cases str <;> rfl

theorem globPattern_front (found : ps.dropWhile (!wild ·) = c :: rest) :
    globPattern behind ps str = if strcasecmp (ps.take (ps.length - (rest.length + 1))) (str.take (ps.length - (rest.length + 1))) ≠ .eq then true
        else wildMisses behind c rest (str.drop (ps.length - (rest.length + 1))) := by
  rw [globPattern]
  split
  · rename_i none
    cases none.symm.trans found
  · rename_i same
    cases same.symm.trans found
    dsimp only
    congr 1
    generalize str.drop (ps.length - (rest.length + 1)) = str
    unfold wildMisses
    congr 1
    · cases str <;> rfl
    · congr 1
      split
      · simp only [*]
      · simp only [*, ite_rangeMisses]

theorem globReads_plain (tame : wild c = false) : globReads (c :: ps) [] = some true ∧
    ∀ d s, globReads (c :: ps) (d :: s) = if toLower c = toLower d then globReads ps s else some true :=
  plain_step globReads some wildReads (fun _ _ => globReads_whole) (fun _ _ _ _ => globReads_front) tame

theorem globPattern_plain (tame : wild c = false) : globPattern behind (c :: ps) [] = true ∧
    ∀ d s, globPattern behind (c :: ps) (d :: s) = if toLower c = toLower d then globPattern behind ps s else true :=
  plain_step (globPattern behind) id (wildMisses behind) (fun _ _ => globPattern_whole) (fun _ _ _ _ => globPattern_front) tame

theorem globReads_wild (special : wild c = true) : globReads (c :: rest) str = wildReads c rest str := by
  have found : (c :: rest).dropWhile (!wild ·) = c :: rest := by
    rw [List.dropWhile_cons, special]
    rfl
  rw [globReads_front found, List.length_cons, Nat.sub_self]
  rfl

theorem globPattern_wild (special : wild c = true) : globPattern behind (c :: rest) str = wildMisses behind c rest str := by
  have found : (c :: rest).dropWhile (!wild ·) = c :: rest := by
    rw [List.dropWhile_cons, special]
    rfl
  rw [globPattern_front found, List.length_cons, Nat.sub_self]
  rfl

/-! ## The search -/

theorem parse_plain (tame : wild c = false) : parse (c :: ps) = literal c :: parse ps := by
  have table : ∀ c : UInt8, (wild c || (c ≠ 42 && c ≠ 63 && c ≠ 91)) = true := forall_byte (by decide +kernel)
  have other := table c
  rw [tame, Bool.false_or, Bool.and_eq_true, Bool.and_eq_true, decide_eq_true_iff, decide_eq_true_iff, decide_eq_true_iff] at other
  rw [parse, atoms, if_neg other.1.1, if_neg other.1.2, if_neg other.2]
  rfl

theorem atoms_set {before : Bytes} (free : 93 ∉ range) :
    atoms (some before) (range ++ 93 :: after) = set (before ++ range) :: parse after := by
  induction range generalizing before with
  | nil =>
      rw [List.nil_append, atoms, if_pos rfl, List.append_nil]
      rfl
  | cons p range ih =>
      rw [List.mem_cons, not_or] at free
      rw [List.cons_append, atoms_range, if_neg (Ne.symm free.1), ih free.2, List.append_assoc]
      rfl

theorem atoms_open {before : Bytes} (free : 93 ∉ rest) : atoms (some before) rest = [.one (fun _ => false) false] := by
  induction rest generalizing before with
  | nil => rfl
  | cons p rest ih =>
      rw [List.mem_cons, not_or] at free
      rw [atoms_range, if_neg (Ne.symm free.1), ih free.2]

theorem atoms_range_ne_nil {before : Bytes} : atoms (some before) rest ≠ [] := by
  induction rest generalizing before with
  | nil => exact List.cons_ne_nil _ _
  | cons p rest ih =>
      rw [atoms]
      split
      · exact List.cons_ne_nil _ _
      · exact ih

theorem parse_ne_nil : parse (c :: ps) ≠ [] := by
  rw [parse, atoms]
  split_ifs
  · exact List.cons_ne_nil _ _
  · exact List.cons_ne_nil _ _
  · exact atoms_range_ne_nil
  · exact List.cons_ne_nil _ _

/-- `Globmatch` returns what the search for the atoms of the pattern finds. -/
theorem globReads_eq_search (free : 0 ∉ ps) : globReads ps str = (Glob.search (parse ps) str).map (!·) := by
  induction ps using pattern_induction generalizing str with
  | nil =>
      rw [globReads_whole rfl]
      cases str with
      | nil => rfl
      | cons d s => rfl
  | star rest ih =>
      have rest_free : 0 ∉ rest := fun member => free (List.mem_cons_of_mem _ member)
      have same : (fun s => (globReads rest s).map (!·)) = Glob.search (parse rest) := by
        funext s
        rw [ih rest_free, Option.map_map]
        cases Glob.search (parse rest) s <;> simp
      change _ = (Glob.search (.star :: parse rest) str).map (!·)
      rw [globReads_wild (by decide), wildReads, if_neg (by decide), if_neg (by decide), same, Glob.search]
      cases rest with
      | nil => rfl
      | cons c ps => rw [if_neg (List.cons_ne_nil c ps), if_neg (mt List.isEmpty_iff.mp parse_ne_nil)]
  | any rest ih =>
      have rest_free : 0 ∉ rest := fun member => free (List.mem_cons_of_mem _ member)
      change _ = (Glob.search (.one (fun _ => true) false :: parse rest) str).map (!·)
      rw [globReads_wild (by decide), wildReads, if_pos rfl]
      cases str with
      | nil => rfl
      | cons d s => exact ih rest_free
  | opened rest unclosed =>
      change _ = (Glob.search (atoms (some []) rest) str).map (!·)
      rw [globReads_wild (by decide), wildReads, if_neg (by decide), if_pos rfl, dropWhile_open unclosed, atoms_open unclosed]
      cases str with
      | nil => rfl
      | cons d s => rfl
  | set range after unclosed ih =>
      have parts := takeWhile_dropWhile_closed unclosed after
      have after_free : 0 ∉ after := fun member => free (by simp [member])
      change _ = (Glob.search (atoms (some []) (range ++ 93 :: after)) str).map (!·)
      rw [globReads_wild (by decide), wildReads, if_neg (by decide), if_pos rfl, parts.1, parts.2, atoms_set unclosed,
        List.nil_append, rangeMisses_eq fun member => free (by simp [member])]
      cases str with
      | nil =>
          rw [set, Glob.search, List.headD_nil]
          cases rangeHolds range 0 <;> rfl
      | cons d s =>
          rw [set, Glob.search, List.headD_cons]
          cases rangeHolds range d with
          | false => rfl
          | true => exact ih after_free
  | plain c ps tame ih =>
      have rest_free : 0 ∉ ps := fun member => free (List.mem_cons_of_mem _ member)
      rw [parse_plain tame]
      cases str with
      | nil => exact (globReads_plain tame).1
      | cons d s =>
          rw [(globReads_plain tame).2, literal, Glob.search, ih rest_free]
          by_cases same : toLower c = toLower d
          · rw [if_pos same, if_pos (beq_iff_eq.mpr same.symm)]
          · rw [if_neg same, if_neg fun equal => same (beq_iff_eq.mp equal).symm]
            rfl

/-- Where the text is enough, the bytes behind it do not matter. -/
theorem globPattern_of_globReads {b : Bool} (result : globReads ps str = some b) : globPattern behind ps str = b := by
  induction ps using pattern_induction generalizing str b with
  | nil =>
      rw [globReads_whole rfl] at result
      rw [globPattern_whole rfl]
      exact Option.some.inj result
  | star rest ih =>
      rw [globReads_wild (by decide), wildReads, if_neg (by decide), if_neg (by decide)] at result
      rw [globPattern_wild (by decide), wildMisses, if_neg (by decide), if_neg (by decide)]
      split at result
      · rw [if_pos ‹_›]
        exact Option.some.inj result
      · rw [if_neg ‹_›]
        have agree : ∀ s b, (globReads rest s).map (!·) = some b → (!globPattern behind rest s) = b := by
          intro s b answer
          obtain ⟨missed, reads, rfl⟩ := Option.map_eq_some_iff.mp answer
          rw [ih reads]
        obtain ⟨found, first, rfl⟩ := Option.map_eq_some_iff.mp result
        rw [any_tails_of_firstTail agree first]
  | any rest ih =>
      rw [globReads_wild (by decide), wildReads, if_pos rfl] at result
      rw [globPattern_wild (by decide), wildMisses, if_pos rfl]
      cases str with
      | nil => exact Option.some.inj result
      | cons d s => exact ih result
  | opened rest unclosed =>
      rw [globReads_wild (by decide), wildReads, if_neg (by decide), if_pos rfl, dropWhile_open unclosed] at result
      rw [globPattern_wild (by decide), wildMisses, if_neg (by decide), if_pos rfl, dropWhile_open unclosed]
      exact Option.some.inj result
  | set range after unclosed ih =>
      have parts := takeWhile_dropWhile_closed unclosed after
      rw [globReads_wild (by decide), wildReads, if_neg (by decide), if_pos rfl, parts.1, parts.2] at result
      rw [globPattern_wild (by decide), wildMisses, if_neg (by decide), if_pos rfl, parts.1, parts.2]
      dsimp only at result ⊢
      split at result
      · rw [if_pos ‹_›]
        exact Option.some.inj result
      · rw [if_neg ‹_›]
        split at result
        · cases result
        · rw [if_neg ‹_›]
          exact ih result
  | plain c ps tame ih =>
      cases str with
      | nil =>
          rw [(globReads_plain tame).1] at result
          rw [(globPattern_plain tame).1]
          exact Option.some.inj result
      | cons d s =>
          rw [(globReads_plain tame).2] at result
          rw [(globPattern_plain tame).2]
          split at result
          · rw [if_pos ‹_›]
            exact ih result
          · rw [if_neg ‹_›]
            exact Option.some.inj result

/-- `Globmatch` answers for the language of the pattern, from the text alone, exactly if

* a text of the language leaves something to the last of the stars at the end of the pattern, if there
  are two,
* a text that is not of the language does not end in front of a set that takes the end of a text. -/
theorem globmatch_language_iff (free : 0 ∉ ps) :
    (∃ result, globReads ps str = some result ∧ (result = false ↔ Matches (parse ps) str)) ↔
      (Matches (parse ps) str → Fed (parse ps) str) ∧ (¬Matches (parse ps) str → ¬EndsBefore (parse ps) str) := by
  rw [← search_correct_iff, globReads_eq_search free]
  constructor
  · rintro ⟨result, reads, language⟩
    obtain ⟨found, answer, rfl⟩ := Option.map_eq_some_iff.mp reads
    rw [Bool.not_eq_false'] at language
    exact ⟨found, answer, language⟩
  · rintro ⟨found, answer, language⟩
    refine ⟨!found, by rw [answer]; rfl, ?_⟩
    rw [Bool.not_eq_false']
    exact language

end

theorem prefix_language :
    ∃ result, globReads (lit "a*") (lit "abc") = some result ∧
      (result = false ↔ Matches (parse (lit "a*")) (lit "abc")) := by
  have atoms : parse (lit "a*") = [literal 97, .star] := rfl
  refine (globmatch_language_iff (by decide)).mpr ⟨fun _ front shape => ?_, fun _ => ?_⟩
  · rw [atoms] at shape
    cases front with
    | nil => cases shape
    | cons p front => exact absurd (congrArg List.length shape) (by simp)
  · rintro ⟨front, holds, rest, shape, -⟩
    rw [atoms] at shape
    cases front with
    | nil => cases shape
    | cons p front =>
        cases front with
        | nil => cases shape
        | cons q front => exact absurd (congrArg List.length shape) (by simp)

/-- The second star of `a**` is not tried at the end of the text `a`, and the set of `b[^a]` is tried
there. -/
theorem stars_at_end :
    ¬(∃ result, globReads (lit "a**") (lit "a") = some result ∧
        (result = false ↔ Matches (parse (lit "a**")) (lit "a"))) ∧
      globReads (lit "b[^a]") (lit "b") = none := by
  rw [globReads_eq_search (by decide), globReads_eq_search (by decide)]
  refine ⟨?_, rfl⟩
  rintro ⟨result, reads, language⟩
  have missed : some true = some result := reads
  rw [← Option.some.inj missed] at language
  have hit : Matches (parse (lit "a**")) (lit "a") :=
    ⟨97, [], rfl, by decide, [], List.suffix_refl _, [], List.suffix_refl _, rfl⟩
  cases language.mpr hit

end Globmatch

end LPRng
