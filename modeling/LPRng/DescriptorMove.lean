import Mathlib.Data.Nat.Find
import Mathlib.Logic.Function.Basic
import Mathlib.Order.Lattice

/-!
# Descriptors for a child

`Make_lpd_call` and `Make_passthrough` give the child they forked a list of open files: the entry `i`
becomes the descriptor `i`. That is done one after the other over the same small numbers, and so an entry
that an earlier one would overwrite is first moved out of the way.
-/

namespace LPRng

namespace DescriptorMove

/-- The descriptors of a process with the open files they refer to, and the highest one that was noted
(`Max_fd`). -/
structure Descriptors (φ : Type*) where
  file : ℕ → Option φ
  maxFd : ℕ
  bounded : ∃ bound, ∀ n, bound ≤ n → file n = none

namespace Descriptors

variable {φ : Type*} (d : Descriptors φ)

theorem exists_free : ∃ n, (d.file n).isNone = true := by
  rcases d.bounded with ⟨bound, free⟩
  exact ⟨bound, Option.isNone_iff_eq_none.mpr (free bound le_rfl)⟩

/-- The lowest free descriptor. -/
def lowest : ℕ := Nat.find d.exists_free

def setFile (n : ℕ) (f : Option φ) : Descriptors φ where
  file := Function.update d.file n f
  maxFd := d.maxFd
  bounded := by
    rcases d.bounded with ⟨bound, free⟩
    refine ⟨max bound (n + 1), fun m above => ?_⟩
    rw [Function.update_of_ne (by omega)]
    exact free m (by omega)

/-- `Max_open`. -/
def maxOpen (fd : ℕ) : Descriptors φ := { d with maxFd := max d.maxFd fd }

/-- `dup`, and the new descriptor is noted. -/
def dup (fd : ℕ) : Option (ℕ × Descriptors φ) :=
  (d.file fd).map fun f => (d.lowest, (d.setFile d.lowest (some f)).maxOpen d.lowest)

def dup2 (fd i : ℕ) : Option (Descriptors φ) := (d.file fd).map fun f => d.setFile i (some f)

/-- Closes the descriptors from `i` up to `n`. -/
def closeFrom (i n : ℕ) : Descriptors φ where
  file k := if i ≤ k ∧ k < n then none else d.file k
  maxFd := d.maxFd
  bounded := by
    rcases d.bounded with ⟨bound, free⟩
    refine ⟨bound, fun m above => ?_⟩
    rw [free m above, ite_self]

end Descriptors

section

variable {φ : Type*}

/-- The inner loop, for so many turns: `fd` is duplicated until the new descriptor is not below `i`. -/
def moveOut (i fd : ℕ) : ℕ → Descriptors φ → Option (ℕ × Descriptors φ)
  | 0, _ => none
  | turns + 1, d =>
      (d.dup fd).bind fun next => if next.1 < i then moveOut i fd turns next.2 else some next

/-- The loop over the entries of `passfd` from `i` on that moves those out that lie below their index. -/
def fixUp (turns : ℕ) : ℕ → List ℕ → Descriptors φ → Option (List ℕ × Descriptors φ)
  | _, [], d => some ([], d)
  | i, fd :: rest, d =>
      (if fd < i then moveOut i fd turns d else some (fd, d)).bind fun moved =>
        (fixUp turns (i + 1) rest moved.2).map fun fixed => (moved.1 :: fixed.1, fixed.2)

/-- The loop with `dup2` over the entries from `i` on. -/
def assign : ℕ → List ℕ → Descriptors φ → Option (Descriptors φ)
  | _, [], d => some d
  | i, fd :: rest, d => (d.dup2 fd i).bind (assign (i + 1) rest)

/-- What is done with the entries, and the descriptors behind them are closed: up to the highest one that was
noted, and some more. -/
def passDescriptors (more turns : ℕ) (passfd : List ℕ) (d : Descriptors φ) : Option (Descriptors φ) :=
  (fixUp turns 0 passfd d).bind fun fixed =>
    (assign 0 fixed.1 fixed.2).map fun d => d.closeFrom passfd.length (d.maxFd + more)

/-- What `Make_lpd_call` does in the child. -/
def makeLpdCall (turns : ℕ) (passfd : List ℕ) (d : Descriptors φ) : Option (Descriptors φ) :=
  passDescriptors 10 turns passfd d

/-- What `Make_passthrough` does in the child, where `close_on_exec` goes one further. -/
def makePassthrough (turns : ℕ) (passfd : List ℕ) (d : Descriptors φ) : Option (Descriptors φ) :=
  passDescriptors 11 turns passfd d

end

/-! ## Duplicates -/

variable {φ : Type*} {d d' : Descriptors φ} {fd i n turns : ℕ} {f : φ}

@[simp] theorem setFile_self (d : Descriptors φ) (n : ℕ) (f : Option φ) : (d.setFile n f).file n = f :=
  Function.update_self ..

theorem setFile_of_ne {k : ℕ} (different : k ≠ n) (d : Descriptors φ) (f : Option φ) :
    (d.setFile n f).file k = d.file k := Function.update_of_ne different ..

@[simp] theorem maxOpen_file (d : Descriptors φ) (fd : ℕ) : (d.maxOpen fd).file = d.file := rfl

theorem file_lowest (d : Descriptors φ) : d.file d.lowest = none :=
  Option.isNone_iff_eq_none.mp (Nat.find_spec d.exists_free)

theorem isSome_of_lt_lowest (below : n < d.lowest) : (d.file n).isSome = true := by
  have taken := Nat.find_min d.exists_free below
  rwa [Option.isNone_iff_eq_none, ← ne_eq, Option.ne_none_iff_isSome] at taken

/-- What stays open from one moment to another, with everything open known to be below a bound. -/
structure Extends (d d' : Descriptors φ) : Prop where
  file : ∀ n f, d.file n = some f → d'.file n = some f
  noted : (∀ n, d.maxFd < n → d.file n = none) → ∀ n, d'.maxFd < n → d'.file n = none

theorem Extends.refl (d : Descriptors φ) : Extends d d := ⟨fun _ _ => id, id⟩

theorem Extends.trans {d'' : Descriptors φ} (first : Extends d d') (second : Extends d' d'') : Extends d d'' :=
  ⟨fun n f given => second.file n f (first.file n f given), fun noted => second.noted (first.noted noted)⟩

theorem extends_dup (d : Descriptors φ) (f : φ) :
    Extends d ((d.setFile d.lowest (some f)).maxOpen d.lowest) where
  file n g given := by
    have different : n ≠ d.lowest := by
      rintro rfl
      cases given.symm.trans (file_lowest d)
    rw [maxOpen_file, setFile_of_ne different, given]
  noted noted n above := by
    have beyond : max d.maxFd d.lowest < n := above
    rw [maxOpen_file, setFile_of_ne (by omega)]
    exact noted n (by omega)

/-- The next duplicate gets a higher number. -/
theorem lowest_dup (d : Descriptors φ) (f : φ) :
    d.lowest < ((d.setFile d.lowest (some f)).maxOpen d.lowest).lowest := by
  refine (Nat.lt_find_iff _ _).mpr fun m below => ?_
  rw [Option.isNone_iff_eq_none, ← ne_eq, Option.ne_none_iff_isSome, maxOpen_file]
  rcases Nat.lt_or_eq_of_le below with under | rfl
  · rw [setFile_of_ne under.ne]
    exact isSome_of_lt_lowest under
  · rw [setFile_self]
    rfl

/-- The inner loop ends: each turn that does not end it takes a free number below `i`. -/
theorem moveOut_spec (given : d.file fd = some f) (enough : i ≤ d.lowest + turns) :
    ∃ newfd d', moveOut i fd (turns + 1) d = some (newfd, d') ∧ i ≤ newfd ∧ d'.file newfd = some f ∧
      Extends d d' := by
  induction turns generalizing d with
  | zero =>
      unfold moveOut Descriptors.dup
      rw [given, Option.map_some, Option.bind_some, if_neg (by dsimp only; omega)]
      exact ⟨_, _, rfl, enough, setFile_self .., extends_dup d f⟩
  | succ turns ih =>
      unfold moveOut Descriptors.dup
      rw [given, Option.map_some, Option.bind_some]
      split
      · have later := lowest_dup d f
        have kept := (extends_dup d f).file fd f given
        rcases ih kept (by omega) with ⟨newfd, d', run, above, refers, extends_⟩
        exact ⟨newfd, d', run, above, refers, (extends_dup d f).trans extends_⟩
      · next above => exact ⟨_, _, rfl, not_lt.mp above, setFile_self .., extends_dup d f⟩

/-! ## The two loops -/

/-- After the first loop no entry lies below its index, and each refers to the file it did before. -/
theorem fixUp_spec (passfd : List ℕ) (given : ∀ fd ∈ passfd, (d.file fd).isSome = true)
    (enough : i + passfd.length ≤ turns) :
    ∃ fds d', fixUp turns i passfd d = some (fds, d') ∧ Extends d d' ∧
      fds.map d'.file = passfd.map d.file ∧
      ∀ j, ∀ newfd ∈ fds[j]?, i + j ≤ newfd := by
  induction passfd generalizing d i with
  | nil => exact ⟨[], d, rfl, .refl d, rfl, fun _ => nofun⟩
  | cons fd rest ih =>
      rcases Option.isSome_iff_exists.mp (given fd List.mem_cons_self) with ⟨f, refers⟩
      have moved : ∃ newfd d', (if fd < i then moveOut i fd turns d else some (fd, d)) = some (newfd, d') ∧
          i ≤ newfd ∧ d'.file newfd = some f ∧ Extends d d' := by
        split
        · obtain ⟨fewer, rfl⟩ : ∃ fewer, turns = fewer + 1 := ⟨turns - 1, by rw [List.length_cons] at enough; omega⟩
          exact moveOut_spec refers (by rw [List.length_cons] at enough; omega)
        · next above => exact ⟨fd, d, rfl, not_lt.mp above, refers, .refl d⟩
      rcases moved with ⟨newfd, d₁, run, above, now, extends_⟩
      have kept : ∀ fd ∈ rest, d₁.file fd = d.file fd := by
        intro other member
        rcases Option.isSome_iff_exists.mp (given other (List.mem_cons_of_mem fd member)) with ⟨g, before⟩
        rw [before, extends_.file other g before]
      have still : ∀ fd ∈ rest, (d₁.file fd).isSome = true := fun other member => by
        rw [kept other member]
        exact given other (List.mem_cons_of_mem fd member)
      rcases ih still (i := i + 1) (by rw [List.length_cons] at enough; omega) with ⟨fds, d', rests, behind, files, aboves⟩
      refine ⟨newfd :: fds, d', ?_, extends_.trans behind, ?_, ?_⟩
      · rw [fixUp, run, Option.bind_some, rests]
        rfl
      · rw [List.map_cons, List.map_cons, behind.file newfd f now, refers, files, List.map_congr_left kept]
      · intro j
        cases j with
        | zero =>
            intro other here
            cases here
            exact above
        | succ j =>
            intro other here
            have bound := aboves j other here
            omega

/-- The second loop, where no entry lies below its index: an entry is not overwritten before its turn. -/
theorem assign_spec (fds : List ℕ) (given : ∀ fd ∈ fds, (d.file fd).isSome = true)
    (above : ∀ j, ∀ fd ∈ fds[j]?, i + j ≤ fd) :
    ∃ d', assign i fds d = some d' ∧ d'.maxFd = d.maxFd ∧ (∀ j, ∀ fd ∈ fds[j]?, d'.file (i + j) = d.file fd) ∧
      ∀ k, k < i ∨ i + fds.length ≤ k → d'.file k = d.file k := by
  induction fds generalizing d i with
  | nil => exact ⟨d, rfl, rfl, fun _ _ => nofun, fun _ _ => rfl⟩
  | cons fd rest ih =>
      rcases Option.isSome_iff_exists.mp (given fd List.mem_cons_self) with ⟨f, refers⟩
      have later (j other : ℕ) (here : other ∈ rest[j]?) : i + 1 + j ≤ other := by
        have bound := above (j + 1) other here
        omega
      have kept : ∀ other ∈ rest, (d.setFile i (some f)).file other = d.file other := by
        intro other member
        rcases List.mem_iff_getElem?.mp member with ⟨j, here⟩
        have bound := later j other here
        exact setFile_of_ne (by omega) d _
      have still : ∀ other ∈ rest, ((d.setFile i (some f)).file other).isSome = true := fun other member => by
        rw [kept other member]
        exact given other (List.mem_cons_of_mem fd member)
      rcases ih still later with ⟨d', run, noted, files, others⟩
      refine ⟨d', ?_, noted, ?_, ?_⟩
      · rw [assign, Descriptors.dup2, refers, Option.map_some, Option.bind_some, run]
      · intro j
        cases j with
        | zero =>
            intro other here
            cases here
            rw [Nat.add_zero, others i (.inl i.lt_succ_self), setFile_self, refers]
        | succ j =>
            intro other here
            have same := files j other here
            rw [Nat.add_right_comm] at same
            rw [← Nat.add_assoc, same, kept other (List.mem_of_getElem? here)]
      · intro k outside
        rw [List.length_cons] at outside
        rw [others k (by omega)]
        exact setFile_of_ne (by omega) d _

/-! ## The descriptors of the child -/

/-- What both functions leave: the entries in their places, and nothing else that was known to be open. -/
theorem passDescriptors_spec (more : ℕ) {passfd : List ℕ} (given : ∀ fd ∈ passfd, (d.file fd).isSome = true)
    (enough : passfd.length ≤ turns) :
    ∃ child, passDescriptors more turns passfd d = some child ∧
      (∀ i, ∀ fd ∈ passfd[i]?, child.file i = d.file fd) ∧
      (0 < more → (∀ n, d.maxFd < n → d.file n = none) → ∀ n, passfd.length ≤ n → child.file n = none) := by
  have turns_ : 0 + passfd.length ≤ turns := by omega
  rcases fixUp_spec passfd given turns_ with ⟨fds, fixed, first, extends_, files, above⟩
  have count : fds.length = passfd.length := by
    have lengths := congrArg List.length files
    rwa [List.length_map, List.length_map] at lengths
  have open_ : ∀ fd ∈ fds, (fixed.file fd).isSome = true := by
    intro fd member
    have image : fixed.file fd ∈ passfd.map d.file := files ▸ List.mem_map_of_mem member
    rcases List.mem_map.mp image with ⟨old, among, same⟩
    rw [← same]
    exact given old among
  rcases assign_spec (i := 0) fds open_ above with ⟨done, second, noted, places, others⟩
  refine ⟨done.closeFrom passfd.length (done.maxFd + more), ?_, ?_, ?_⟩
  · rw [passDescriptors, first, Option.bind_some, second]
    rfl
  · intro i fd here
    have inside : i < passfd.length := (List.getElem?_eq_some_iff.mp here).1
    have moved : (fds.map fixed.file)[i]? = (passfd.map d.file)[i]? := congrArg (·[i]?) files
    rw [List.getElem?_map, List.getElem?_map, Option.mem_def.mp here, Option.map_some] at moved
    rcases Option.map_eq_some_iff.mp moved with ⟨newfd, there, same⟩
    have place := places i newfd there
    rw [Nat.zero_add] at place
    have shut : ¬ (passfd.length ≤ i ∧ i < done.maxFd + more) := fun both => by omega
    exact (if_neg shut).trans (place.trans same)
  · intro some_ bound n behind
    unfold Descriptors.closeFrom
    dsimp only
    split
    · rfl
    · next kept =>
        rw [others n (.inr (by omega))]
        exact extends_.noted bound n (by omega)

/-- The descriptor `i` of a child refers to the file that the entry `i` of the list did, in whatever order the
entries are and whatever else is open, and the inner loops end within as many turns as there are entries. -/
theorem child_descriptors {passfd : List ℕ} (given : ∀ fd ∈ passfd, (d.file fd).isSome = true)
    (enough : passfd.length ≤ turns) :
    (∃ child, makeLpdCall turns passfd d = some child ∧ ∀ i, ∀ fd ∈ passfd[i]?, child.file i = d.file fd) ∧
    ∃ child, makePassthrough turns passfd d = some child ∧ ∀ i, ∀ fd ∈ passfd[i]?, child.file i = d.file fd := by
  rcases passDescriptors_spec 10 given enough with ⟨call, run, places, -⟩
  rcases passDescriptors_spec 11 given enough with ⟨child, started, entries, -⟩
  exact ⟨⟨call, run, places⟩, ⟨child, started, entries⟩⟩

/-- If everything that is open has been noted, a child has nothing open but its entries. -/
theorem child_closed {passfd : List ℕ} (given : ∀ fd ∈ passfd, (d.file fd).isSome = true)
    (enough : passfd.length ≤ turns) (noted : ∀ n, d.maxFd < n → d.file n = none) :
    (∃ child, makeLpdCall turns passfd d = some child ∧ ∀ n, passfd.length ≤ n → child.file n = none) ∧
    ∃ child, makePassthrough turns passfd d = some child ∧ ∀ n, passfd.length ≤ n → child.file n = none := by
  rcases passDescriptors_spec 10 given enough with ⟨call, run, -, closed⟩
  rcases passDescriptors_spec 11 given enough with ⟨child, started, -, shut⟩
  exact ⟨⟨call, run, closed (by omega) noted⟩, ⟨child, started, shut (by omega) noted⟩⟩

/-- Four open files. -/
def fourOpen : Descriptors ℕ where
  file n := if n < 4 then some n else none
  maxFd := 3
  bounded := ⟨4, fun n above => if_neg (by omega)⟩

/-- The list names each descriptor in the place of another, and one of them twice. -/
theorem child_descriptors_rotated :
    (∀ fd ∈ [3, 0, 1, 2, 0], (fourOpen.file fd).isSome = true) ∧
    (∃ child, makeLpdCall 5 [3, 0, 1, 2, 0] fourOpen = some child ∧
      ∀ i, ∀ fd ∈ [3, 0, 1, 2, 0][i]?, child.file i = fourOpen.file fd) ∧
    ∃ child, makePassthrough 5 [3, 0, 1, 2, 0] fourOpen = some child ∧
      ∀ i, ∀ fd ∈ [3, 0, 1, 2, 0][i]?, child.file i = fourOpen.file fd := by
  have given : ∀ fd ∈ [3, 0, 1, 2, 0], (fourOpen.file fd).isSome = true := by decide
  exact ⟨given, child_descriptors given le_rfl⟩

end DescriptorMove

end LPRng
