import Mathlib.Algebra.GroupWithZero.Nat
import Mathlib.Data.List.Nodup
import Mathlib.Data.List.Count
import Mathlib.Data.Finset.Card

/-!
# Traversals that record where they have been

A traversal enters the places that names stand for, and from each place the names it leads to. A place
with a key is recorded by it and not entered again; a place without a key is not recorded. With
finitely many keys such a traversal ends, and enters no place twice, exactly if it meets at most one
place without a key.
-/

namespace LPRng

namespace Traversal

/-- What a name stands for: the key that is recorded, if there is one, and the names it leads to. -/
structure Place (N K : Type*) where
  key : Option K
  links : List N

variable {N K : Type*}

/-- The names that are met on the way from some names. -/
inductive Reaches (enter : N → Option (Place N K)) (names : List N) : N → Prop
  | start {name : N} (member : name ∈ names) : Reaches enter names name
  | link {name next : N} {place : Place N K} (reached : Reaches enter names name)
      (entered : enter name = some place) (member : next ∈ place.links) : Reaches enter names next

/-- Whether a name stands for a place without a key. -/
def blank (enter : N → Option (Place N K)) (name : N) : Bool := (enter name).any (·.key.isNone)

/-- The names without a key that a place leads to. -/
def Place.blanks (enter : N → Option (Place N K)) (place : Place N K) : Nat :=
  place.links.countP (blank enter)

section

variable {enter : N → Option (Place N K)} {names links : List N} {name : N} {place : Place N K}

theorem blank_of_enter (entered : enter name = some place) : blank enter name = place.key.isNone := by
  rw [blank, entered, Option.any_some]

theorem Reaches.mono (within : ∀ next ∈ links, Reaches enter names next)
    (reached : Reaches enter links name) : Reaches enter names name := by
  induction reached with
  | start member => exact within _ member
  | link _ entered member ih => exact .link ih entered member

end

variable [DecidableEq K]

/-- The keys of the places that are entered, in order, where `none` stands for a place without one.
There is no result if the traversal goes deeper than `fuel`. -/
def visit (enter : N → Option (Place N K)) : Nat → List (Option K) → N → Option (List (Option K))
  | 0, _, _ => none
  | fuel + 1, visited, name =>
      match enter name with
      | none => some visited
      | some place =>
          if place.key.isSome ∧ place.key ∈ visited then some visited
          else place.links.foldlM (visit enter fuel) (visited ++ [place.key])

variable {enter : N → Option (Place N K)} {names links : List N} {name next : N}
  {place : Place N K} {visited middle after : List (Option K)} {fuel : Nat}

/-! ## What a traversal does -/

/-- What is known of a traversal of some names, and of the places it enters. -/
structure Covers (enter : N → Option (Place N K)) (names : List N) (visited after : List (Option K))
    (new : List (Place N K)) : Prop where
  parts : after = visited ++ new.map (·.key)
  entered : ∀ place ∈ new, ∃ name, Reaches enter names name ∧ enter name = some place
  arrived : ∀ name ∈ names, ∀ place, enter name = some place → place.key ∈ after
  closed : ∀ place ∈ new, ∀ name ∈ place.links, ∀ next, enter name = some next → next.key ∈ after
  ran : ∀ place ∈ new, ∀ name ∈ place.links, ∃ fuel visited, (visit enter fuel visited name).isSome
  recorded : (visited.filter (·.isSome)).Nodup → (after.filter (·.isSome)).Nodup
  counted : new.countP (·.key.isNone) = names.countP (blank enter) + (new.map (·.blanks enter)).sum

namespace Covers

variable {new more : List (Place N K)}

theorem nil : Covers enter [] visited visited [] where
  parts := (List.append_nil visited).symm
  entered _ := nofun
  arrived _ := nofun
  closed _ := nofun
  ran _ := nofun
  recorded distinct := distinct
  counted := rfl

theorem subset (covers : Covers enter names visited after new) : ∀ key ∈ visited, key ∈ after := by
  intro key member
  rw [covers.parts]
  exact List.mem_append_left _ member

theorem cons (first : Covers enter [name] visited middle new) (rest : Covers enter names middle after more) :
    Covers enter (name :: names) visited after (new ++ more) where
  parts := by rw [rest.parts, first.parts, List.append_assoc, List.map_append]
  entered place member := by
    rcases List.mem_append.mp member with here | later
    · obtain ⟨name', reached, found⟩ := first.entered place here
      refine ⟨name', reached.mono fun next inside => .start ?_, found⟩
      rw [List.mem_singleton.mp inside]
      exact List.mem_cons_self
    · obtain ⟨name', reached, found⟩ := rest.entered place later
      exact ⟨name', reached.mono fun next inside => .start (List.mem_cons_of_mem name inside), found⟩
  arrived next member place found := by
    rcases List.mem_cons.mp member with rfl | later
    · exact rest.subset _ (first.arrived next List.mem_cons_self place found)
    · exact rest.arrived next later place found
  closed place member next inside other found := by
    rcases List.mem_append.mp member with here | later
    · exact rest.subset _ (first.closed place here next inside other found)
    · exact rest.closed place later next inside other found
  ran place member := by
    rcases List.mem_append.mp member with here | later
    · exact first.ran place here
    · exact rest.ran place later
  recorded distinct := rest.recorded (first.recorded distinct)
  counted := by
    have one := first.counted
    have others := rest.counted
    rw [List.countP_append, one, others, List.map_append, List.sum_append, List.countP_cons (l := names),
      List.countP_singleton]
    omega

end Covers

/-- A traversal of names that runs through, if it covers each name. -/
theorem exists_covers_foldlM
    (single : ∀ visited name after, visit enter fuel visited name = some after →
      ∃ new, Covers enter [name] visited after new)
    (run : names.foldlM (visit enter fuel) visited = some after) :
    (∃ new, Covers enter names visited after new) ∧
      ∀ name ∈ names, ∃ visited, (visit enter fuel visited name).isSome := by
  induction names generalizing visited with
  | nil =>
      obtain rfl : visited = after := Option.some.inj run
      exact ⟨⟨[], .nil⟩, fun _ => nofun⟩
  | cons name names ih =>
      rw [List.foldlM_cons] at run
      obtain ⟨middle, first, rest⟩ := Option.bind_eq_some_iff.mp run
      obtain ⟨new, covers⟩ := single visited name middle first
      obtain ⟨⟨more, coversRest⟩, ran⟩ := ih rest
      refine ⟨⟨new ++ more, covers.cons coversRest⟩, List.forall_mem_cons.mpr ⟨⟨visited, ?_⟩, ran⟩⟩
      rw [first]
      rfl

theorem exists_covers (run : visit enter fuel visited name = some after) :
    ∃ new, Covers enter [name] visited after new := by
  induction fuel generalizing visited name after with
  | zero => cases run
  | succ fuel ih =>
      rw [visit] at run
      cases found : enter name with
      | none =>
          rw [found] at run
          obtain rfl : visited = after := Option.some.inj run
          refine ⟨[], (List.append_nil visited).symm, fun _ => nofun, fun next member place entered => ?_,
            fun _ => nofun, fun _ => nofun, id, ?_⟩
          · rw [List.mem_singleton.mp member, found] at entered
            cases entered
          · rw [List.countP_singleton, blank, found]
            rfl
      | some place =>
          rw [found] at run
          dsimp only at run
          split at run
          · next done =>
            obtain rfl : visited = after := Option.some.inj run
            refine ⟨[], (List.append_nil visited).symm, fun _ => nofun, fun next member other entered => ?_,
              fun _ => nofun, fun _ => nofun, id, ?_⟩
            · rw [List.mem_singleton.mp member, found] at entered
              rw [← Option.some.inj entered]
              exact done.2
            · rw [List.countP_singleton, blank_of_enter found, Option.isNone_eq_false_iff.mpr done.1]
              rfl
          · next fresh =>
            obtain ⟨⟨new, covers⟩, ran⟩ := exists_covers_foldlM (fun _ _ _ => ih) run
            have here : place.key ∈ after := covers.subset _ (by simp)
            refine ⟨place :: new, ?_, ?_, ?_, ?_, ?_, fun distinct => covers.recorded ?_, ?_⟩
            · rw [covers.parts, List.append_assoc]
              rfl
            · refine List.forall_mem_cons.mpr ⟨⟨name, .start List.mem_cons_self, found⟩, fun other member => ?_⟩
              obtain ⟨name', reached, entered⟩ := covers.entered other member
              exact ⟨name', reached.mono fun next inside => .link (.start List.mem_cons_self) found inside, entered⟩
            · intro next member other entered
              rw [List.mem_singleton.mp member, found] at entered
              rw [← Option.some.inj entered]
              exact here
            · exact List.forall_mem_cons.mpr ⟨covers.arrived, covers.closed⟩
            · exact List.forall_mem_cons.mpr ⟨fun next inside => ⟨fuel, ran next inside⟩, covers.ran⟩
            · rw [List.filter_append]
              cases key : place.key with
              | none => exact (List.append_nil _).symm ▸ distinct
              | some k =>
                  rw [key] at fresh
                  refine List.nodup_append.mpr ⟨distinct, List.nodup_singleton _, fun other member last there => ?_⟩
                  rintro rfl
                  rw [List.filter_singleton, Option.isSome_some, cond_true, List.mem_singleton] at there
                  exact fresh ⟨rfl, there ▸ (List.mem_filter.mp member).1⟩
            · rw [List.countP_cons, covers.counted, List.countP_singleton, blank_of_enter found,
                List.map_cons, List.sum_cons, Place.blanks]
              omega

/-! ## Traversals that end -/

/-- The keys that have not been recorded. -/
def unrecorded (keys : Finset K) (visited : List (Option K)) : Finset K :=
  keys.filter fun key => some key ∉ visited

theorem card_unrecorded_mono {keys : Finset K} (more : ∀ key ∈ visited, key ∈ after) :
    (unrecorded keys after).card ≤ (unrecorded keys visited).card := by
  refine Finset.card_le_card fun key member => ?_
  obtain ⟨inside, fresh⟩ := Finset.mem_filter.mp member
  exact Finset.mem_filter.mpr ⟨inside, fun there => fresh (more _ there)⟩

theorem card_unrecorded_lt {keys : Finset K} {key : K} (inside : key ∈ keys) (fresh : some key ∉ visited) :
    (unrecorded keys (visited ++ [some key])).card < (unrecorded keys visited).card := by
  refine Finset.card_lt_card (Finset.ssubset_iff_of_subset ?_ |>.mpr ⟨key, ?_, ?_⟩)
  · intro other member
    obtain ⟨inside, fresh⟩ := Finset.mem_filter.mp member
    exact Finset.mem_filter.mpr ⟨inside, fun there => fresh (List.mem_append_left _ there)⟩
  · exact Finset.mem_filter.mpr ⟨inside, fresh⟩
  · intro member
    exact (Finset.mem_filter.mp member).2 (List.mem_append_right _ List.mem_cons_self)

theorem isSome_foldlM
    (each : ∀ name ∈ names, ∀ after, (∀ key ∈ visited, key ∈ after) → (visit enter fuel after name).isSome) :
    (names.foldlM (visit enter fuel) visited).isSome := by
  induction names generalizing visited with
  | nil => rfl
  | cons name names ih =>
      obtain ⟨first, rest⟩ := List.forall_mem_cons.mp each
      obtain ⟨middle, run⟩ := Option.isSome_iff_exists.mp (first visited fun _ => id)
      obtain ⟨new, covers⟩ := exists_covers run
      rw [List.foldlM_cons, run]
      refine ih fun next member after more => rest next member after fun key there => ?_
      exact more key (covers.subset key there)

section Bounded

variable {keys : Finset K}
  (bounded : ∀ name place, Reaches enter names name → enter name = some place → ∀ key ∈ place.key, key ∈ keys)
  (apart : ∀ name place, Reaches enter names name → enter name = some place → place.key = none →
    ∀ next ∈ place.links, blank enter next = false)

include bounded apart

/-- Each place with a key is entered once, and a place without one is not entered directly from
another. -/
theorem isSome_visit (n : Nat) :
    ∀ visited name, Reaches enter names name → (unrecorded keys visited).card ≤ n →
      ∀ fuel, 2 * n + 1 ≤ fuel → (blank enter name = true → 2 * n + 2 ≤ fuel) →
        (visit enter fuel visited name).isSome := by
  induction n using Nat.strong_induction_on with
  | _ n ih =>
  have named : ∀ visited name, Reaches enter names name → (unrecorded keys visited).card ≤ n →
      blank enter name = false → ∀ fuel, 2 * n + 1 ≤ fuel → (visit enter fuel visited name).isSome := by
    intro visited name reached few unblank fuel enough
    obtain ⟨fuel, rfl⟩ := Nat.exists_eq_add_one_of_ne_zero (Nat.ne_of_gt (Nat.lt_of_lt_of_le (by omega) enough))
    rw [visit]
    cases found : enter name with
    | none => rfl
    | some place =>
        dsimp only
        split
        · rfl
        · next fresh =>
          rw [blank_of_enter found, Option.isNone_eq_false_iff] at unblank
          obtain ⟨key, here⟩ := Option.isSome_iff_exists.mp unblank
          rw [here] at fresh ⊢
          have less := card_unrecorded_lt (bounded name place reached found key here)
            fun there => fresh ⟨rfl, there⟩
          refine isSome_foldlM fun next member after more => ?_
          have fewer : (unrecorded keys after).card ≤ _ := card_unrecorded_mono more
          exact ih (n - 1) (by omega) after next (.link reached found member) (by omega) fuel (by omega)
            fun _ => by omega
  intro visited name reached few fuel enough more
  cases unblank : blank enter name with
  | false => exact named visited name reached few unblank fuel enough
  | true =>
      have enough := more unblank
      obtain ⟨fuel, rfl⟩ := Nat.exists_eq_add_one_of_ne_zero (Nat.ne_of_gt (Nat.lt_of_lt_of_le (by omega) enough))
      rw [visit]
      cases found : enter name with
      | none => rfl
      | some place =>
          rw [blank_of_enter found, Option.isNone_iff_eq_none] at unblank
          dsimp only
          rw [unblank, if_neg fun recorded => nomatch recorded.1]
          refine isSome_foldlM fun next member after within => ?_
          have fewer : (unrecorded keys after).card ≤ _ := card_unrecorded_mono within
          have kept : (unrecorded keys (visited ++ [none])).card ≤ (unrecorded keys visited).card :=
            card_unrecorded_mono fun key there => List.mem_append_left _ there
          exact named after next (.link reached found member) (by omega)
            (apart name place reached found unblank next member) fuel (by omega)

end Bounded

/-! ## Traversals that enter each place once -/

/-- At most one name of a place without a key is met, and not on the way from such a place. -/
structure MeetsOnce (enter : N → Option (Place N K)) (names : List N) : Prop where
  start : names.countP (blank enter) ≤ 1
  few : ∀ name place, Reaches enter names name → enter name = some place → place.blanks enter ≤ 1
  alone : ∀ name place, Reaches enter names name → enter name = some place →
    0 < place.blanks enter → names.countP (blank enter) = 0 ∧ place.key ≠ none
  same : ∀ name place name' place', Reaches enter names name → enter name = some place →
    Reaches enter names name' → enter name' = some place' → 0 < place.blanks enter →
    0 < place'.blanks enter → place.key = place'.key

theorem nodup_iff {l : List (Option K)} :
    l.Nodup ↔ (l.filter (·.isSome)).Nodup ∧ l.countP (·.isNone) ≤ 1 := by
  have nones : l.countP (·.isNone) = l.count none := by
    refine List.countP_congr fun key _ => ?_
    cases key <;> simp
  rw [nones]
  constructor
  · exact fun distinct => ⟨distinct.filter _, List.nodup_iff_count_le_one.mp distinct none⟩
  · rintro ⟨distinct, few⟩
    refine List.nodup_iff_count_le_one.mpr fun key => ?_
    cases key with
    | none => exact few
    | some k =>
        have counted := List.nodup_iff_count_le_one.mp distinct (some k)
        rwa [List.count_filter rfl] at counted

theorem Covers.nodup_iff {new : List (Place N K)} (covers : Covers enter names [] after new) :
    after.Nodup ↔ names.countP (blank enter) + (new.map (·.blanks enter)).sum ≤ 1 := by
  have distinct := covers.recorded List.nodup_nil
  rw [Traversal.nodup_iff, ← covers.counted, covers.parts, List.nil_append, List.countP_map]
  rw [covers.parts, List.nil_append] at distinct
  exact ⟨fun both => both.2, fun few => ⟨distinct, few⟩⟩

theorem sum_le_countP {α : Type*} {l : List α} {f : α → Nat} {g : α → Bool}
    (small : ∀ a ∈ l, f a ≤ 1 ∧ (0 < f a → g a = true)) : (l.map f).sum ≤ l.countP g := by
  induction l with
  | nil => exact Nat.le_refl 0
  | cons a l ih =>
      obtain ⟨⟨few, marked⟩, rest⟩ := List.forall_mem_cons.mp small
      have others := ih rest
      rw [List.map_cons, List.sum_cons, List.countP_cons]
      by_cases zero : f a = 0
      · omega
      · rw [if_pos (marked (Nat.pos_of_ne_zero zero))]
        omega

/-- A traversal that meets a place without a key once, at most, ends and enters no place twice. -/
theorem MeetsOnce.nodup (meets : MeetsOnce enter names) {keys : Finset K}
    (bounded : ∀ name place, Reaches enter names name → enter name = some place →
      ∀ key ∈ place.key, key ∈ keys) :
    ∃ fuel after, names.foldlM (visit enter fuel) [] = some after ∧ after.Nodup := by
  have apart : ∀ name place, Reaches enter names name → enter name = some place → place.key = none →
      ∀ next ∈ place.links, blank enter next = false := by
    intro name place reached found unkeyed next member
    refine Bool.eq_false_iff.mpr fun other => ?_
    exact (meets.alone name place reached found (List.countP_pos_iff.mpr ⟨next, member, other⟩)).2 unkeyed
  have ends : (names.foldlM (visit enter (2 * (unrecorded keys []).card + 2)) []).isSome := by
    refine isSome_foldlM fun name member after more => ?_
    have fewer : (unrecorded keys after).card ≤ _ := card_unrecorded_mono more
    exact isSome_visit bounded apart _ after name (.start member) fewer _ (by omega) fun _ => Nat.le_refl _
  obtain ⟨after, run⟩ := Option.isSome_iff_exists.mp ends
  refine ⟨_, after, run, ?_⟩
  obtain ⟨⟨new, covers⟩, -⟩ := exists_covers_foldlM (fun _ _ _ => exists_covers) run
  rw [covers.nodup_iff]
  by_cases some_ : ∃ place ∈ new, 0 < place.blanks enter
  · obtain ⟨first, member, many⟩ := some_
    obtain ⟨name, reached, found⟩ := covers.entered first member
    obtain ⟨none_, keyed⟩ := meets.alone name first reached found many
    have single : new.countP (fun place => place.key = first.key) ≤ 1 := by
      have distinct := covers.recorded List.nodup_nil
      have once := List.nodup_iff_count_le_one.mp distinct first.key
      rw [List.count_filter (Option.isSome_iff_ne_none.mpr keyed), covers.parts, List.nil_append,
        List.count, List.countP_map] at once
      refine Nat.le_trans (Nat.le_of_eq (List.countP_congr fun place _ => ?_)) once
      simp
    have sum : (new.map (·.blanks enter)).sum ≤ new.countP (fun place => place.key = first.key) := by
      refine sum_le_countP fun place inside => ?_
      obtain ⟨name', reached', found'⟩ := covers.entered place inside
      refine ⟨meets.few name' place reached' found', fun many' => decide_eq_true ?_⟩
      exact meets.same name' place name first reached' found' reached found many' many
    omega
  · have zero : (new.map (·.blanks enter)).sum ≤ new.countP (fun _ => false) := by
      refine sum_le_countP fun place inside => ?_
      have without := Nat.eq_zero_of_not_pos fun many => some_ ⟨place, inside, many⟩
      omega
    have start := meets.start
    rw [List.countP_false] at zero
    change _ ≤ 0 at zero
    omega

omit [DecidableEq K] in
/-- A traversal may meet no place without a key. -/
theorem meetsOnce_of_blank (unblank : ∀ name, Reaches enter names name → blank enter name = false) :
    MeetsOnce enter names := by
  have links : ∀ name place, Reaches enter names name → enter name = some place → place.blanks enter = 0 := by
    intro name place reached found
    refine List.countP_eq_zero.mpr fun next member => ?_
    rw [unblank next (.link reached found member)]
    exact Bool.false_ne_true
  refine ⟨?_, fun name place reached found => ?_, fun name place reached found many => ?_, ?_⟩
  · refine Nat.le_trans (Nat.le_of_eq (List.countP_eq_zero.mpr fun name member => ?_)) (Nat.zero_le 1)
    rw [unblank name (.start member)]
    exact Bool.false_ne_true
  · rw [links name place reached found]
    exact Nat.zero_le 1
  · rw [links name place reached found] at many
    exact absurd many (Nat.lt_irrefl 0)
  · intro name place _ _ reached found _ _ many _
    rw [links name place reached found] at many
    exact absurd many (Nat.lt_irrefl 0)

/-! ## What a traversal that ends has met -/

/-- What a place leads to depends on its key only. -/
def Keyed (enter : N → Option (Place N K)) (names : List N) : Prop :=
  ∀ name place name' place', Reaches enter names name → enter name = some place →
    Reaches enter names name' → enter name' = some place' → place.key = place'.key →
    place.links = place'.links

omit [DecidableEq K] in
theorem foldlM_none {α β : Type*} {step : β → α → Option β} {a : α} {l : List α} (member : a ∈ l)
    (fails : ∀ b, step b a = none) (b : β) : l.foldlM step b = none := by
  induction l generalizing b with
  | nil => cases member
  | cons c l ih =>
      rw [List.foldlM_cons]
      rcases List.mem_cons.mp member with rfl | later
      · rw [fails]
        rfl
      · cases step b c with
        | none => rfl
        | some b => exact ih later b

/-- A place without a key that leads to itself is never left. -/
theorem visit_blank (keyed : Keyed enter names) (reached : Reaches enter names next)
    (found : enter next = some place) (unkeyed : place.key = none) (many : 0 < place.blanks enter)
    (fuel : Nat) :
    ∀ name visited, Reaches enter names name → blank enter name = true →
      visit enter fuel visited name = none := by
  induction fuel with
  | zero => exact fun _ _ _ _ => rfl
  | succ fuel ih =>
      intro name visited reached' unblank
      obtain ⟨other, member, blank_⟩ := List.countP_pos_iff.mp many
      cases found' : enter name with
      | none =>
          rw [blank, found'] at unblank
          cases unblank
      | some place' =>
          rw [blank_of_enter found', Option.isNone_iff_eq_none] at unblank
          have links := keyed next place name place' reached found reached' found' (unkeyed.trans unblank.symm)
          rw [visit, found']
          dsimp only
          rw [unblank, if_neg (fun recorded => nomatch recorded.1), ← links]
          exact foldlM_none member (fun visited => ih other visited (.link reached found member) blank_) _

omit [DecidableEq K] in
theorem le_sum_of_mem {α : Type*} {l : List α} {f : α → Nat} {a : α} (member : a ∈ l) :
    f a ≤ (l.map f).sum := by
  obtain ⟨before, behind, rfl⟩ := List.append_of_mem member
  rw [List.map_append, List.sum_append, List.map_cons, List.sum_cons]
  omega

omit [DecidableEq K] in
theorem add_le_sum_of_mem {α : Type*} {l : List α} {f : α → Nat} {a b : α} (first : a ∈ l)
    (second : b ∈ l) (apart : a ≠ b) : f a + f b ≤ (l.map f).sum := by
  obtain ⟨before, behind, rfl⟩ := List.append_of_mem first
  rw [List.map_append, List.sum_append, List.map_cons, List.sum_cons]
  rcases List.mem_append.mp second with inside | inside
  · have part : f b ≤ (before.map f).sum := le_sum_of_mem inside
    omega
  · have part : f b ≤ (behind.map f).sum :=
      le_sum_of_mem ((List.mem_cons.mp inside).resolve_left apart.symm)
    omega

/-- If what a place leads to depends on its key only, a traversal that ends and enters no place twice
has met a place without a key once, at most. -/
theorem meetsOnce_of_nodup (keyed : Keyed enter names) (run : names.foldlM (visit enter fuel) [] = some after)
    (distinct : after.Nodup) : MeetsOnce enter names := by
  obtain ⟨⟨new, covers⟩, ran⟩ := exists_covers_foldlM (fun _ _ _ => exists_covers) run
  have few := covers.nodup_iff.mp distinct
  have twin : ∀ name place, Reaches enter names name → enter name = some place → place.key ∈ after →
      ∃ twin ∈ new, twin.key = place.key ∧ twin.links = place.links := by
    intro name place reached found there
    rw [covers.parts, List.nil_append] at there
    obtain ⟨twin, member, same⟩ := List.mem_map.mp there
    obtain ⟨name', reached', found'⟩ := covers.entered twin member
    exact ⟨twin, member, same, keyed name' twin name place reached' found' reached found same⟩
  have there : ∀ name, Reaches enter names name → ∀ place, enter name = some place → place.key ∈ after := by
    intro name reached
    induction reached with
    | start member => exact covers.arrived _ member
    | @link name next middle reached found member ih =>
        obtain ⟨other, inside, -, links⟩ := twin name middle reached found (ih middle found)
        exact covers.closed other inside next (links ▸ member)
  have met : ∀ name place, Reaches enter names name → enter name = some place →
      ∃ twin ∈ new, twin.key = place.key ∧ twin.blanks enter = place.blanks enter := by
    intro name place reached found
    obtain ⟨other, inside, key, links⟩ := twin name place reached found (there name reached place found)
    exact ⟨other, inside, key, by rw [Place.blanks, links, Place.blanks]⟩
  refine ⟨by omega, fun name place reached found => ?_, fun name place reached found many => ?_, ?_⟩
  · obtain ⟨other, inside, -, same⟩ := met name place reached found
    have part : other.blanks enter ≤ (new.map (·.blanks enter)).sum := le_sum_of_mem inside
    omega
  · obtain ⟨other, inside, key, same⟩ := met name place reached found
    have part : other.blanks enter ≤ (new.map (·.blanks enter)).sum := le_sum_of_mem inside
    refine ⟨by omega, fun unkeyed => ?_⟩
    rw [Place.blanks] at same
    obtain ⟨next, member, blank_⟩ := List.countP_pos_iff.mp (same ▸ many)
    obtain ⟨fuel, visited, ran⟩ := covers.ran other inside next member
    obtain ⟨name', reached', found'⟩ := covers.entered other inside
    rw [visit_blank keyed reached found unkeyed many fuel next visited (.link reached' found' member)
      blank_] at ran
    cases ran
  · intro name place name' place' reached found reached' found' many many'
    obtain ⟨other, inside, key, same⟩ := met name place reached found
    obtain ⟨other', inside', key', same'⟩ := met name' place' reached' found'
    by_contra differ
    have apart : other ≠ other' := fun equal => differ (key.symm.trans (equal ▸ key'))
    have part : other.blanks enter + other'.blanks enter ≤ (new.map (·.blanks enter)).sum :=
      add_le_sum_of_mem inside inside' apart
    omega

end Traversal

end LPRng
