import Mathlib.Data.List.Basic
import Mathlib.Data.List.Chain

/-!
# Print sequences and their lines

A print sequence lists what is printed: a file, its format and the name it goes by, if any. It is
written down as lines, one for each file printed and one for each name, where the name stands
before the file or behind it. A reader takes equal files one behind the other for copies of one,
and takes a name for that of the file before it, or else of the file that follows. This module
says which sequences are read as they were written.
-/

namespace LPRng.PrintSequence

variable {File Format Name : Type*}

structure Print (File Format Name : Type*) where
  file : File
  format : Format
  name : Option Name
  deriving DecidableEq, Repr

inductive Line (File Format Name : Type*) where
  | file (format : Format) (file : File)
  | name (name : Name)
  | other
  deriving DecidableEq, Repr

/-- The file a line is for, with its format. -/
def Line.files : Line File Format Name → List (File × Format)
  | .file format printed => [(printed, format)]
  | _ => []

/-- A line for a file or a name. -/
def Line.tells : Line File Format Name → Bool
  | .other => false
  | _ => true

/-- A file as it is listed, with the number of its copies. -/
structure Group (File Format Name : Type*) extends Print File Format Name where
  copies : Nat
  deriving DecidableEq, Repr

def Group.prints (group : Group File Format Name) : List (Print File Format Name) :=
  List.replicate group.copies group.toPrint

/-- A file without a number of copies is printed once. -/
def Group.atLeastOnce (group : Group File Format Name) : Group File Format Name :=
  { group with copies := if group.copies = 0 then 1 else group.copies }

/-! ## The reader -/

/-- The files listed so far, the file the reader is at with its copies, and the name that
was found for it. -/
structure State (File Format Name : Type*) where
  closed : List (Group File Format Name)
  current : Option (File × Format × Nat)
  name : Option Name
  deriving DecidableEq, Repr

namespace State

/-- The file the reader is at is listed. -/
def close (s : State File Format Name) : State File Format Name :=
  match s.current with
  | none => s
  | some (file, format, copies) => ⟨s.closed ++ [⟨⟨file, format, s.name⟩, copies⟩], none, none⟩

def groups (s : State File Format Name) : List (Group File Format Name) := s.close.closed

/-- What was printed with the files listed so far. -/
def listed (s : State File Format Name) : List (Print File Format Name) :=
  s.closed.flatMap Group.prints

def prints (s : State File Format Name) : List (Print File Format Name) :=
  s.listed ++
    match s.current with
    | none => []
    | some (file, format, copies) => List.replicate copies ⟨file, format, s.name⟩

/-- What no later line changes: a name is only added where there is none. -/
def fixed (s : State File Format Name) : List (Print File Format Name) :=
  if s.name.isSome then s.prints else s.listed

variable [DecidableEq File] [DecidableEq Format]

def step (s : State File Format Name) : Line File Format Name → State File Format Name
  | .file format file =>
      match s.current with
      | none => { s with current := some (file, format, 1) }
      | some (file', format', copies) =>
          if file' = file ∧ format' = format then { s with current := some (file, format, copies + 1) }
          else { s.close with current := some (file, format, 1) }
  | .name name =>
      if s.current.isSome && s.name.isSome then { s.close with name := some name }
      else { s with name := some name }
  | .other => s

def read (s : State File Format Name) (lines : List (Line File Format Name)) :
    State File Format Name := lines.foldl step s

end State

/-! ## What stays as it was read -/

namespace State

variable {s : State File Format Name}

@[simp] theorem close_listed : s.close.listed = s.prints := by
  unfold close prints
  split
  · simp
  · next file format copies read => simp [listed, Group.prints]

theorem close_current : s.close.current = none := by
  unfold close
  split
  · assumption
  · rfl

theorem close_name (read : s.current ≠ none) : s.close.name = none := by
  unfold close
  split
  · contradiction
  · rfl

theorem fixed_of_unnamed (unnamed : s.name = none) : s.fixed = s.listed := by
  unfold fixed
  rw [unnamed]
  rfl

theorem fixed_of_named {name : Name} (named : s.name = some name) : s.fixed = s.prints := by
  unfold fixed
  rw [named]
  rfl

theorem groups_prints : s.groups.flatMap Group.prints = s.prints := close_listed

theorem listed_prefix : s.listed <+: s.prints := List.prefix_append _ _

theorem fixed_prefix : s.fixed <+: s.prints := by
  unfold fixed
  split
  · exact List.prefix_rfl
  · exact listed_prefix

theorem prints_of_none (none_read : s.current = none) : s.prints = s.listed := by
  unfold prints
  rw [none_read, List.append_nil]

theorem prints_of_some {file : File} {format : Format} {copies : Nat}
    (read : s.current = some (file, format, copies)) :
    s.prints = s.listed ++ List.replicate copies ⟨file, format, s.name⟩ := by
  unfold prints
  rw [read]

/-- What is listed, or about to be, is printed at least once. -/
structure Counted (s : State File Format Name) : Prop where
  closed : ∀ group ∈ s.closed, group.copies ≠ 0
  current : ∀ file format copies, s.current = some (file, format, copies) → copies ≠ 0

theorem Counted.close (counted : s.Counted) : s.close.Counted := by
  rcases read : s.current with - | ⟨file, format, copies⟩
  · rw [State.close, read]
    exact counted
  · rw [State.close, read]
    refine ⟨fun group member => ?_, nofun⟩
    rcases List.mem_append.mp member with earlier | last
    · exact counted.closed group earlier
    · rw [List.mem_singleton.mp last]
      exact counted.current file format copies read

theorem Counted.groups (counted : s.Counted) : ∀ group ∈ s.groups, group.copies ≠ 0 :=
  counted.close.closed

variable [DecidableEq File] [DecidableEq Format]

theorem step_file_none (none_read : s.current = none) (format : Format) (file : File) :
    s.step (.file format file) = { s with current := some (file, format, 1) } := by
  simp only [step, none_read]

theorem step_file_again {file : File} {format : Format} {copies : Nat}
    (read : s.current = some (file, format, copies)) :
    s.step (.file format file) = { s with current := some (file, format, copies + 1) } := by
  simp only [step, read, and_self, if_true]

theorem step_file_next {file file' : File} {format format' : Format} {copies : Nat}
    (read : s.current = some (file', format', copies)) (differs : ¬(file' = file ∧ format' = format)) :
    s.step (.file format file) = { s.close with current := some (file, format, 1) } := by
  simp only [step, read, if_neg differs]

theorem step_name_next (name : Name) (read : s.current ≠ none) (named : s.name ≠ none) :
    s.step (.name name) = { s.close with name := some name } := by
  have both : (s.current.isSome && s.name.isSome) = true := by
    rw [Option.isSome_iff_ne_none.mpr read, Option.isSome_iff_ne_none.mpr named]
    rfl
  simp only [step, both, if_true]

theorem step_name_add (name : Name) (free : s.current = none ∨ s.name = none) :
    s.step (.name name) = { s with name := some name } := by
  have neither : (s.current.isSome && s.name.isSome) = false := by
    rcases free with none_read | unnamed
    · rw [none_read]
      rfl
    · rw [unnamed]
      exact Bool.and_false _
  simp only [step, neither, Bool.false_eq_true, if_false]

theorem fixed_step (line : Line File Format Name) : s.fixed <+: (s.step line).fixed := by
  cases line with
  | other => exact List.prefix_rfl
  | file format file =>
      rcases read : s.current with - | ⟨file', format', copies⟩
      · rw [step_file_none read]
        unfold fixed
        dsimp only
        split
        · rw [prints_of_none read]
          exact listed_prefix (s := { s with current := some (file, format, 1) })
        · exact List.prefix_rfl
      · by_cases same : file' = file ∧ format' = format
        · obtain ⟨rfl, rfl⟩ := same
          rw [step_file_again read]
          unfold fixed
          dsimp only
          split
          · rw [prints_of_some read, prints_of_some rfl, List.replicate_add]
            exact ⟨_, List.append_assoc ..⟩
          · exact List.prefix_rfl
        · have unnamed : s.close.name = none := close_name (by rw [read]; exact Option.some_ne_none _)
          have after : fixed { s.close with current := some (file, format, 1) } = s.prints :=
            (fixed_of_unnamed (s := ⟨s.close.closed, some (file, format, 1), s.close.name⟩)
              unnamed).trans close_listed
          rw [step_file_next read same, after]
          exact fixed_prefix
  | name name =>
      by_cases free : s.current = none ∨ s.name = none
      · rw [step_name_add name free]
        have before : s.fixed = s.listed := by
          rcases free with none_read | unnamed
          · unfold fixed
            rw [prints_of_none none_read, ite_self]
          · exact fixed_of_unnamed unnamed
        rw [before]
        exact listed_prefix (s := { s with name := some name })
      · obtain ⟨read, named⟩ := not_or.mp free
        rw [step_name_next name read named]
        refine fixed_prefix.trans ?_
        rw [← close_listed]
        exact listed_prefix (s := { s.close with name := some name })

theorem fixed_read (lines : List (Line File Format Name)) : s.fixed <+: (s.read lines).prints := by
  induction lines generalizing s with
  | nil => exact fixed_prefix
  | cons line lines ih => exact (fixed_step line).trans ih

theorem read_nil : s.read [] = s := rfl

theorem read_cons (line : Line File Format Name) (lines : List (Line File Format Name)) :
    s.read (line :: lines) = (s.step line).read lines := rfl

theorem read_append (lines more : List (Line File Format Name)) :
    s.read (lines ++ more) = (s.read lines).read more := List.foldl_append

theorem read_tells (lines : List (Line File Format Name)) : s.read lines = s.read (lines.filter Line.tells) := by
  induction lines generalizing s with
  | nil => exact read_nil
  | cons line lines ih =>
      cases line with
      | other => exact ih
      | file format file => exact ih
      | name name => exact ih

theorem Counted.step (counted : s.Counted) (line : Line File Format Name) : (s.step line).Counted := by
  cases line with
  | other => exact counted
  | file format file =>
      have one : ∀ s : State File Format Name, s.Counted → ∀ copies,
          ({ s with current := some (file, format, copies + 1) } : State File Format Name).Counted :=
        fun s counted copies => ⟨counted.closed, fun _ _ _ same => by
          cases same
          exact Nat.succ_ne_zero copies⟩
      rcases read : s.current with - | ⟨file', format', copies⟩
      · rw [step_file_none read]
        exact one s counted 0
      · by_cases same : file' = file ∧ format' = format
        · obtain ⟨rfl, rfl⟩ := same
          rw [step_file_again read]
          exact one s counted copies
        · rw [step_file_next read same]
          exact one s.close counted.close 0
  | name name =>
      by_cases free : s.current = none ∨ s.name = none
      · rw [step_name_add name free]
        exact ⟨counted.closed, counted.current⟩
      · obtain ⟨read, named⟩ := not_or.mp free
        rw [step_name_next name read named]
        exact ⟨counted.close.closed, counted.close.current⟩

theorem Counted.read (counted : s.Counted) (lines : List (Line File Format Name)) :
    (s.read lines).Counted := by
  induction lines generalizing s with
  | nil => exact counted
  | cons line lines ih => exact ih (counted.step line)

end State

theorem Group.atLeastOnce_of_counted {group : Group File Format Name} (counted : group.copies ≠ 0) :
    group.atLeastOnce = group := by
  unfold atLeastOnce
  rw [if_neg counted]

/-! ## The writers -/

section Writers

variable (nameBehind : Bool)

/-- One print: the file, and its name before or behind it. -/
def Print.lines (print : Print File Format Name) : List (Line File Format Name) :=
  let name := print.name.toList.map Line.name
  if nameBehind then .file print.format print.file :: name
  else name ++ [.file print.format print.file]

/-- A name for each file printed. -/
def writeAll (prints : List (Print File Format Name)) : List (Line File Format Name) :=
  prints.flatMap (Print.lines nameBehind)

/-- One name for all copies of a file. -/
def Group.lines (group : Group File Format Name) : List (Line File Format Name) :=
  group.name.toList.map Line.name ++ List.replicate group.copies (.file group.format group.file)

def writeGroups (groups : List (Group File Format Name)) : List (Line File Format Name) :=
  groups.flatMap Group.lines

variable {nameBehind : Bool} {print : Print File Format Name}

theorem Print.lines_unnamed (unnamed : print.name = none) :
    print.lines nameBehind = [.file print.format print.file] := by
  unfold lines
  rw [unnamed]
  cases nameBehind <;> rfl

theorem Print.lines_named {name : Name} (named : print.name = some name) :
    print.lines nameBehind =
      if nameBehind then [.file print.format print.file, .name name]
      else [.name name, .file print.format print.file] := by
  unfold lines
  rw [named]
  cases nameBehind <;> rfl

/-- A print without its name. -/
def Print.fileFormat (print : Print File Format Name) : File × Format := (print.file, print.format)

theorem files_writeGroups (groups : List (Group File Format Name)) :
    (writeGroups groups).flatMap Line.files = (groups.flatMap Group.prints).map Print.fileFormat := by
  unfold writeGroups
  rw [List.flatMap_assoc, List.map_flatMap]
  refine List.flatMap_congr fun group _ => ?_
  rcases name : group.name with - | b <;>
    simp [Group.lines, Group.prints, name, Line.files, Print.fileFormat, List.flatMap_replicate]

theorem files_writeAll (prints : List (Print File Format Name)) :
    (writeAll nameBehind prints).flatMap Line.files = prints.map Print.fileFormat := by
  unfold writeAll
  rw [List.flatMap_assoc, ← List.flatMap_singleton' (prints.map _), List.flatMap_map]
  refine List.flatMap_congr fun print _ => ?_
  rcases name : print.name with - | b
  · rw [Print.lines_unnamed name]
    rfl
  · rw [Print.lines_named name]
    cases nameBehind <;> rfl

/-- A file that has no copies is printed, but not written. -/
theorem length_writeGroups (groups : List (Group File Format Name)) :
    ((writeGroups groups).flatMap Line.files).length ≤
        ((groups.map Group.atLeastOnce).flatMap Group.prints).length ∧
      (((groups.map Group.atLeastOnce).flatMap Group.prints).length =
        ((writeGroups groups).flatMap Line.files).length → ∀ group ∈ groups, group.copies ≠ 0) := by
  rw [files_writeGroups, List.length_map]
  induction groups with
  | nil => exact ⟨Nat.le_refl 0, fun _ => nofun⟩
  | cons group groups ih =>
      have written : group.prints.length = group.copies := List.length_replicate
      have printed : group.atLeastOnce.prints.length = if group.copies = 0 then 1 else group.copies :=
        List.length_replicate
      rw [List.flatMap_cons, List.map_cons, List.flatMap_cons, List.length_append, List.length_append,
        written, printed, List.forall_mem_cons]
      refine ⟨by split <;> omega, fun same => ?_⟩
      have counted : group.copies ≠ 0 := by
        intro none_given
        rw [if_pos none_given] at same
        omega
      rw [if_neg counted] at same
      exact ⟨counted, ih.2 (by omega)⟩

/-- A name for each file printed is a name for all copies where there is one copy each. -/
theorem writeAll_eq (prints : List (Print File Format Name)) :
    writeAll false prints = writeGroups (prints.map (⟨·, 1⟩)) := by
  unfold writeAll writeGroups
  rw [List.flatMap_map]
  refine List.flatMap_congr fun print _ => ?_
  rcases name : print.name with - | b
  · rw [Print.lines_unnamed name]
    simp [Group.lines, name]
  · rw [Print.lines_named name]
    simp [Group.lines, name]

end Writers

/-! ## Names before the files -/

/-- The second print is not given the name of the first, or the first that of the second. -/
structure Follows (first second : Print File Format Name) : Prop where
  named : second.name ≠ none → first.name ≠ none
  unnamed : second.name = none → first.name ≠ none →
    ¬(first.file = second.file ∧ first.format = second.format)

namespace State

variable {s : State File Format Name} {u v : Print File Format Name}
  {front : List (Print File Format Name)}

/-- The last print read is a copy of `u`. -/
def At (s : State File Format Name) (u : Print File Format Name) : Prop :=
  s.name = u.name ∧ ∃ copies, s.current = some (u.file, u.format, copies + 1)

/-- Two prefixes of one list that go on behind a common front. -/
theorem eq_of_prefixes {first second : Print File Format Name} {j k : Nat}
    {whole : List (Print File Format Name)}
    (one : front ++ List.replicate (j + 1) first <+: whole)
    (other : front ++ List.replicate (k + 1) second <+: whole) : first = second := by
  obtain ⟨rest, rfl⟩ := one
  obtain ⟨more, same⟩ := other
  rw [List.append_assoc, List.append_assoc, List.append_cancel_left_eq] at same
  exact (List.cons.inj same).1.symm

theorem At.prints_eq (position : s.At u) :
    ∃ copies, s.prints = s.listed ++ List.replicate (copies + 1) u := by
  obtain ⟨name, copies, read⟩ := position
  exact ⟨copies, by rw [prints_of_some read, name]⟩

variable [DecidableEq File] [DecidableEq Format]

/-- A file that is not a copy of the one before, or any file behind its name. -/
theorem next_at (listed : s.listed = front) (none_read : s.current = none) (name : s.name = v.name) :
    (s.step (.file v.format v.file)).At v ∧
      (s.step (.file v.format v.file)).prints = front ++ [v] := by
  rw [step_file_none none_read]
  refine ⟨⟨name, 0, rfl⟩, ?_⟩
  rw [prints_of_some rfl, ← listed]
  exact congrArg (fun name => s.listed ++ [⟨v.file, v.format, name⟩]) name

theorem next_file (position : s.At u) (differs : ¬(u.file = v.file ∧ u.format = v.format)) :
    s.step (.file v.format v.file) =
      s.close.step (.file v.format v.file) := by
  obtain ⟨-, copies, read⟩ := position
  rw [step_file_next read differs, step_file_none close_current]

/-- A copy gets the name of the file before. -/
theorem again_at (position : s.At u) (same : u.file = v.file ∧ u.format = v.format) :
    (s.step (.file v.format v.file)).At u ∧
      (s.step (.file v.format v.file)).prints = s.prints ++ [u] := by
  obtain ⟨name, copies, read⟩ := position
  rw [same.1, same.2] at read
  rw [step_file_again read]
  refine ⟨⟨name, copies + 1, by rw [same.1, same.2]⟩, ?_⟩
  rw [prints_of_some rfl, prints_of_some read, List.replicate_succ', ← List.append_assoc]
  refine congrArg (s.listed ++ List.replicate (copies + 1) _ ++ [·]) ?_
  rw [← same.1, ← same.2]
  exact congrArg (Print.mk u.file u.format) name

theorem name_next (position : s.At u) (named : u.name ≠ none) (name : Name) :
    s.step (.name name) = { s.close with name := some name } := by
  obtain ⟨own, copies, read⟩ := position
  exact step_name_next name (by rw [read]; exact Option.some_ne_none _) (own ▸ named)

theorem read_follows (position : s.At u) (follows : Follows u v) :
    (s.read (v.lines false)).At v ∧ (s.read (v.lines false)).prints = s.prints ++ [v] := by
  rcases name : v.name with - | b
  · rw [Print.lines_unnamed name, read_cons, read_nil]
    by_cases same : u.file = v.file ∧ u.format = v.format
    · have unnamed : u.name = none := by
        by_contra named
        exact follows.unnamed name named same
      obtain rfl : u = v := by
        cases u
        cases v
        simp_all
      exact again_at position same
    · rw [next_file position same]
      obtain ⟨-, copies, read⟩ := position
      exact next_at close_listed close_current
        ((close_name (by rw [read]; exact Option.some_ne_none _)).trans name.symm)
  · have lines : v.lines false = [.name b, .file v.format v.file] := Print.lines_named name
    have named : u.name ≠ none := follows.named (by rw [name]; exact Option.some_ne_none b)
    rw [lines, read_cons, read_cons, read_nil]
    rw [name_next position named]
    exact next_at close_listed close_current name.symm

/-- Once a name was found, what was printed stays. -/
theorem named_prefix {name : Name} (named : s.name = some name)
    (lines : List (Line File Format Name)) : s.prints <+: (s.read lines).prints := by
  rw [← fixed_of_named named]
  exact fixed_read lines

/-- A copy of a file with a name goes by that name. -/
theorem copy_named (position : s.At u) (named : u.name ≠ none)
    (same : u.file = v.file ∧ u.format = v.format) (rest : List (Line File Format Name)) :
    s.prints ++ [u] <+: (s.read (.file v.format v.file :: rest)).prints := by
  obtain ⟨name, given⟩ := Option.ne_none_iff_exists'.mp named
  obtain ⟨position', added⟩ := again_at position same
  rw [← added]
  exact named_prefix (position'.1.trans given) rest

/-- The name of the second is added to the first. -/
theorem name_steals (position : s.At u) (name : Name) (unnamed : u.name = none)
    (rest : List (Line File Format Name)) : ∃ copies,
      s.listed ++ List.replicate (copies + 1) ⟨u.file, u.format, some name⟩ <+:
        (s.read (.name name :: rest)).prints := by
  obtain ⟨own, copies, read⟩ := position
  refine ⟨copies, ?_⟩
  have before : State.prints { s with name := some name } =
      s.listed ++ List.replicate (copies + 1) ⟨u.file, u.format, some name⟩ := prints_of_some read
  rw [read_cons, step_name_add name (Or.inr (own.trans unnamed)), ← before]
  exact named_prefix rfl rest

theorem not_follows (position : s.At u) (differs : ¬Follows u v)
    {rest : List (Line File Format Name)} {more : List (Print File Format Name)} :
    (s.read (v.lines false ++ rest)).prints ≠ s.prints ++ v :: more := by
  intro same
  rcases name : v.name with - | b
  · have both : u.name ≠ none ∧ u.file = v.file ∧ u.format = v.format := by
      by_contra neither
      exact differs ⟨fun other => absurd name other,
        fun _ named same => neither ⟨named, same⟩⟩
    have kept := copy_named position both.1 both.2 rest
    rw [Print.lines_unnamed name, List.singleton_append] at same
    rw [same] at kept
    have equal : u = v := eq_of_prefixes (j := 0) (k := 0) kept
      ⟨more, List.append_assoc s.prints [v] more⟩
    exact both.1 (equal ▸ name)
  · have lines : v.lines false = [.name b, .file v.format v.file] := Print.lines_named name
    have unnamed : u.name = none := by
      by_contra named
      exact differs ⟨fun _ => named, fun other => nomatch name.symm.trans other⟩
    obtain ⟨copies, stolen⟩ := name_steals position b unnamed (.file v.format v.file :: rest)
    obtain ⟨copies', own⟩ := position.prints_eq
    rw [lines, List.cons_append, List.singleton_append] at same
    rw [same, own] at stolen
    have equal := congrArg Print.name (eq_of_prefixes stolen (List.prefix_append _ _))
    cases equal.trans unnamed

/-- The further copies of a file are read as copies of it. -/
theorem read_copies (position : s.At u) (copies : Nat) :
    (s.read (List.replicate copies (.file u.format u.file))).At u ∧
      (s.read (List.replicate copies (.file u.format u.file))).prints =
        s.prints ++ List.replicate copies u := by
  induction copies generalizing s with
  | zero => exact ⟨position, (List.append_nil _).symm⟩
  | succ copies ih =>
      obtain ⟨position', added⟩ := again_at position ⟨rfl, rfl⟩
      obtain ⟨last, more⟩ := ih position'
      rw [List.replicate_succ, read_cons]
      exact ⟨last, more.trans (by rw [added, List.append_assoc, List.replicate_succ]; rfl)⟩

end State

/-! ## Whole sequences, names before the files -/

theorem Follows.refl (u : Print File Format Name) : Follows u u :=
  ⟨id, fun unnamed named => absurd unnamed named⟩

theorem isChain_copies {v : Print File Format Name} {copies : Nat}
    {rest : List (Print File Format Name)} :
    (v :: (List.replicate copies v ++ rest)).IsChain Follows ↔ (v :: rest).IsChain Follows := by
  induction copies with
  | zero => rfl
  | succ copies ih =>
      rw [List.replicate_succ, List.cons_append, List.isChain_cons_cons, ih]
      exact and_iff_right (Follows.refl v)

/-- No print takes its name from the one before, where the first print may be given the name
`routed`. -/
def NamesBefore (routed : Option Name) (prints : List (Print File Format Name)) : Prop :=
  (routed ≠ none → ∀ first ∈ prints.head?, first.name ≠ none) ∧ prints.IsChain Follows

namespace State

/-- Nothing is read yet but a name. -/
def start (routed : Option Name) : State File Format Name := ⟨[], none, routed⟩

variable [DecidableEq File] [DecidableEq Format] {s : State File Format Name}
  {u v : Print File Format Name}

/-- The next print is read as it was written if and only if it is one of those in `ok`. -/
structure Accepts (s : State File Format Name) (ok : Print File Format Name → Prop) : Prop where
  reads : ∀ v, ok v →
    (s.read (v.lines false)).At v ∧ (s.read (v.lines false)).prints = s.prints ++ [v]
  spoils : ∀ v, ¬ok v → ∀ rest more, (s.read (v.lines false ++ rest)).prints ≠ s.prints ++ v :: more

theorem At.accepts (position : s.At u) : s.Accepts (Follows u) :=
  ⟨fun _ => read_follows position, fun _ differs _ _ => not_follows position differs⟩

theorem start_accepts (routed : Option Name) :
    (start routed : State File Format Name).Accepts fun v => routed ≠ none → v.name ≠ none := by
  refine ⟨fun v ok => ?_, fun v differs rest more same => ?_⟩
  · rcases name : v.name with - | b
    · have unrouted : routed = none := by
        by_contra given
        exact ok given name
      rw [Print.lines_unnamed name, read_cons, read_nil]
      exact next_at rfl rfl (unrouted.trans name.symm)
    · rw [Print.lines_named name]
      change (State.read _ [.name b, .file v.format v.file]).At v ∧ _
      rw [read_cons, read_cons, read_nil, step_name_add b (Or.inl rfl)]
      exact next_at rfl rfl name.symm
  · obtain ⟨given, unnamed⟩ := Classical.not_imp.mp differs
    have unnamed := not_not.mp unnamed
    obtain ⟨name, rfl⟩ := Option.ne_none_iff_exists'.mp given
    rw [Print.lines_unnamed unnamed, List.singleton_append, read_cons, step_file_none rfl] at same
    have kept := named_prefix (s := { start (some name) with current := some (v.file, v.format, 1) })
      rfl rest
    rw [same] at kept
    have given : (⟨v.file, v.format, some name⟩ : Print File Format Name) = v :=
      (List.cons_prefix_cons.mp kept).1
    cases (congrArg Print.name given).trans unnamed

/-- All copies of a file, with its name before the first. -/
theorem read_group_iff {ok : Print File Format Name → Prop} (accepts : s.Accepts ok) {copies : Nat}
    {rest : List (Line File Format Name)} {more : List (Print File Format Name)}
    (onward : ∀ s : State File Format Name, s.At v →
      ((s.read rest).prints = s.prints ++ more ↔ (v :: more).IsChain Follows)) :
    (s.read (v.lines false ++ (List.replicate copies (.file v.format v.file) ++ rest))).prints =
        s.prints ++ v :: (List.replicate copies v ++ more) ↔
      ok v ∧ (v :: (List.replicate copies v ++ more)).IsChain Follows := by
  rw [isChain_copies]
  by_cases fits : ok v
  · obtain ⟨first, added⟩ := accepts.reads v fits
    obtain ⟨last, copied⟩ := read_copies first copies
    have onward := onward _ last
    rw [copied, added, List.append_assoc, List.append_assoc] at onward
    rw [read_append, read_append]
    exact onward.trans (and_iff_right fits).symm
  · exact ⟨fun same => absurd same (accepts.spoils v fits _ _), fun both => absurd both.1 fits⟩

theorem read_writeGroups_iff {ok : Print File Format Name → Prop} (accepts : s.Accepts ok)
    {groups : List (Group File Format Name)} (counted : ∀ group ∈ groups, group.copies ≠ 0) :
    (s.read (writeGroups groups)).prints = s.prints ++ groups.flatMap Group.prints ↔
      (∀ first ∈ (groups.flatMap Group.prints).head?, ok first) ∧
        (groups.flatMap Group.prints).IsChain Follows := by
  induction groups generalizing s ok with
  | nil => simp [writeGroups, read]
  | cons group groups ih =>
      obtain ⟨copies, more⟩ := Nat.exists_eq_succ_of_ne_zero (counted group List.mem_cons_self)
      have lines : group.lines = group.toPrint.lines false ++
          List.replicate copies (.file group.format group.file) := by
        unfold Group.lines Print.lines
        rw [more, List.replicate_succ]
        simp
      have prints : group.prints = group.toPrint :: List.replicate copies group.toPrint := by
        unfold Group.prints
        rw [more, List.replicate_succ]
      rw [writeGroups, List.flatMap_cons, List.flatMap_cons, lines, prints, List.append_assoc,
        List.cons_append, List.head?_cons]
      have onward : ∀ s : State File Format Name, s.At group.toPrint →
          ((s.read (groups.flatMap Group.lines)).prints = s.prints ++ groups.flatMap Group.prints ↔
            (group.toPrint :: groups.flatMap Group.prints).IsChain Follows) := by
        intro s position
        rw [List.isChain_cons]
        exact ih position.accepts fun other member => counted other (List.mem_cons_of_mem group member)
      rw [read_group_iff accepts onward]
      simp

theorem start_writeGroups_iff (routed : Option Name) (groups : List (Group File Format Name))
    (counted : ∀ group ∈ groups, group.copies ≠ 0) :
    ((start routed).read (writeGroups groups)).prints = groups.flatMap Group.prints ↔
      NamesBefore routed (groups.flatMap Group.prints) := by
  have whole := read_writeGroups_iff (start_accepts routed) counted
  rw [show (start routed : State File Format Name).prints = [] from rfl, List.nil_append] at whole
  exact whole.trans (and_congr_left fun _ =>
    ⟨fun all given first head => all first head given, fun all first head given => all given first head⟩)

/-- The files are printed as they are listed, whatever the names. -/
theorem files_step (line : Line File Format Name) :
    (s.step line).prints.map Print.fileFormat = s.prints.map Print.fileFormat ++ line.files := by
  cases line with
  | other => exact (List.append_nil _).symm
  | file format file =>
      rcases read : s.current with - | ⟨file', format', copies⟩
      · rw [step_file_none read, prints_of_some rfl, prints_of_none read, List.map_append]
        rfl
      · by_cases same : file' = file ∧ format' = format
        · obtain ⟨rfl, rfl⟩ := same
          rw [step_file_again read, prints_of_some rfl, prints_of_some read, List.replicate_succ',
            ← List.append_assoc, List.map_append]
          rfl
        · rw [step_file_next read same, prints_of_some rfl, List.map_append, ← close_listed]
          rfl
  | name name =>
      by_cases free : s.current = none ∨ s.name = none
      · refine Eq.trans ?_ (List.append_nil _).symm
        rw [step_name_add name free]
        rcases s with ⟨closed, - | ⟨file, format, copies⟩, known⟩
        · rfl
        · simp [prints, listed, Print.fileFormat]
      · obtain ⟨read, named⟩ := not_or.mp free
        refine Eq.trans ?_ (List.append_nil _).symm
        rw [step_name_next name read named,
          prints_of_none (s := { s.close with name := some name }) close_current, ← close_listed]
        rfl

theorem files_read (lines : List (Line File Format Name)) :
    (s.read lines).prints.map Print.fileFormat = s.prints.map Print.fileFormat ++ lines.flatMap Line.files := by
  induction lines generalizing s with
  | nil => exact (List.append_nil _).symm
  | cons line lines ih => rw [read_cons, ih, files_step, List.flatMap_cons, List.append_assoc]

/-- A file without copies is not written, and so not printed once. -/
theorem counted_of_read {routed : Option Name} {groups : List (Group File Format Name)}
    (whole : ((start routed).read (writeGroups groups)).prints =
      (groups.map Group.atLeastOnce).flatMap Group.prints) :
    ∀ group ∈ groups, group.copies ≠ 0 := by
  have lengths := congrArg List.length (files_read (s := start routed) (writeGroups groups))
  rw [whole, List.length_map, List.length_append] at lengths
  exact (length_writeGroups groups).2 (lengths.trans (Nat.zero_add _))

theorem start_writeGroups_all_iff (routed : Option Name) (groups : List (Group File Format Name)) :
    ((start routed).read (writeGroups groups)).prints =
        (groups.map Group.atLeastOnce).flatMap Group.prints ↔
      (∀ group ∈ groups, group.copies ≠ 0) ∧
        NamesBefore routed ((groups.map Group.atLeastOnce).flatMap Group.prints) := by
  have unchanged : (∀ group ∈ groups, group.copies ≠ 0) → groups.map Group.atLeastOnce = groups := by
    intro counted
    exact (List.map_congr_left fun group member =>
      Group.atLeastOnce_of_counted (counted group member)).trans (List.map_id groups)
  refine ⟨fun whole => ?_, fun both => ?_⟩
  · have counted := counted_of_read whole
    rw [unchanged counted] at whole ⊢
    exact ⟨counted, (start_writeGroups_iff routed groups counted).mp whole⟩
  · obtain ⟨counted, names⟩ := both
    rw [unchanged counted] at names ⊢
    exact (start_writeGroups_iff routed groups counted).mpr names

theorem start_writeAll_iff (routed : Option Name) (prints : List (Print File Format Name)) :
    ((start routed).read (writeAll false prints)).prints = prints ↔ NamesBefore routed prints := by
  have flat : (prints.map (fun print => (⟨print, 1⟩ : Group File Format Name))).flatMap Group.prints =
      prints := by
    rw [List.flatMap_map]
    exact List.flatMap_singleton' prints
  have whole := start_writeGroups_iff routed (prints.map (⟨·, 1⟩)) (by simp)
  rwa [flat, ← writeAll_eq] at whole

end State

/-! ## Names behind the files -/

/-- The second print may be read as a copy of the first. -/
def Print.Repeats (first second : Print File Format Name) : Prop :=
  first.file = second.file ∧ first.format = second.format

theorem Print.Repeats.eq {u v : Print File Format Name} (same : u.Repeats v) (name : u.name = v.name) :
    u = v := by
  obtain ⟨file, format⟩ := same
  cases u
  cases v
  cases file
  cases format
  cases name
  rfl

/-- A print that repeats the one before goes by the same name, and if there is one, it is kept to
the end. -/
def Keeps : List (Print File Format Name) → Prop
  | u :: v :: rest =>
      (u.Repeats v → u.name = v.name ∧ (v.name ≠ none → ∀ w ∈ rest, w.name = v.name)) ∧ Keeps (v :: rest)
  | _ => True

def NamesBehind (routed : Option Name) (prints : List (Print File Format Name)) : Prop :=
  (∀ name ∈ routed, ∀ print ∈ prints, print.name = some name) ∧ Keeps prints

theorem keeps_of_all {name : Option Name} {prints : List (Print File Format Name)}
    (all : ∀ print ∈ prints, print.name = name) : Keeps prints := by
  induction prints with
  | nil => trivial
  | cons u prints ih =>
      cases prints with
      | nil => trivial
      | cons v rest =>
          have first := all u List.mem_cons_self
          have second := all v (List.mem_cons_of_mem u List.mem_cons_self)
          have later : ∀ w ∈ rest, w.name = v.name := fun w member =>
            (all w (List.mem_cons_of_mem u (List.mem_cons_of_mem v member))).trans second.symm
          exact ⟨fun _ => ⟨first.trans second.symm, fun _ => later⟩,
            ih fun print member => all print (List.mem_cons_of_mem u member)⟩

namespace State

variable [DecidableEq File] [DecidableEq Format] {s : State File Format Name}
  {u v : Print File Format Name}

/-- A name is read that no file was found for yet: it is that of the next file. -/
def Pending (s : State File Format Name) (name : Name) : Prop :=
  s.current = none ∧ s.name = some name

/-- A file that is not a copy of the one before, and its name. -/
theorem read_next (none_read : s.current = none) (unnamed : s.name = none) :
    (s.read (v.lines true)).At v ∧ (s.read (v.lines true)).prints = s.listed ++ [v] := by
  rcases name : v.name with - | b
  · rw [Print.lines_unnamed name, read_cons, read_nil]
    exact next_at rfl none_read (unnamed.trans name.symm)
  · rw [Print.lines_named name, if_pos rfl, read_cons, read_cons, read_nil, step_file_none none_read,
      step_name_add (s := { s with current := some (v.file, v.format, 1) }) b (Or.inr unnamed)]
    refine ⟨⟨name.symm, 0, rfl⟩, ?_⟩
    rw [prints_of_some rfl, ← name]
    rfl

/-- The same name once more ends the copies, and is kept for the next file. -/
theorem name_again {name : Name} (position : s.At u) (named : u.name = some name) :
    (s.step (.name name)).Pending name ∧ (s.step (.name name)).prints = s.prints := by
  rw [name_next position (by rw [named]; exact Option.some_ne_none name)]
  refine ⟨⟨close_current, rfl⟩, ?_⟩
  exact (prints_of_none (s := { s.close with name := some name }) close_current).trans close_listed

theorem ne_of_kept {w : Print File Format Name} (lines : List (Line File Format Name))
    {more : List (Print File Format Name)} (kept : s.prints ++ [w] <+: (s.read lines).prints)
    (differs : w.name ≠ v.name) : (s.read lines).prints ≠ s.prints ++ v :: more := by
  intro same
  rw [same] at kept
  have equal : w = v := eq_of_prefixes (j := 0) (k := 0) kept
    ⟨more, List.append_assoc s.prints [v] more⟩
  exact differs (congrArg Print.name equal)

theorem read_pending_iff {name : Name} (pending : s.Pending name)
    (prints : List (Print File Format Name)) :
    (s.read (writeAll true prints)).prints = s.prints ++ prints ↔
      ∀ print ∈ prints, print.name = some name := by
  induction prints generalizing s with
  | nil => simp [writeAll, read]
  | cons v prints ih =>
      obtain ⟨none_read, waiting⟩ := pending
      obtain ⟨position, added⟩ := next_at (v := ⟨v.file, v.format, some name⟩)
        (prints_of_none none_read).symm none_read waiting
      rw [writeAll, List.flatMap_cons, List.forall_mem_cons]
      by_cases own : v.name = some name
      · have whole : (⟨v.file, v.format, some name⟩ : Print File Format Name) = v := by
          rw [← own]
        rw [whole] at position added
        obtain ⟨pending', same⟩ := name_again position own
        rw [Print.lines_named own, if_pos rfl, List.cons_append, List.cons_append, List.nil_append,
          read_cons, read_cons]
        have more := ih pending'
        rw [same, added, List.append_assoc] at more
        exact more.trans (and_iff_right own).symm
      · have kept := named_prefix position.1 (v.name.toList.map Line.name ++ prints.flatMap (Print.lines true))
        rw [added] at kept
        exact ⟨fun same => absurd same (ne_of_kept (_ :: _) kept (Ne.symm own)),
          fun both => absurd both.1 own⟩

/-- The name of a copy is added to the copies before it that have none. -/
theorem copy_steals (position : s.At u) (same : u.Repeats v) (unnamed : u.name = none) {name : Name}
    (named : v.name = some name) (rest : List (Line File Format Name))
    (more : List (Print File Format Name)) :
    (s.read (v.lines true ++ rest)).prints ≠ s.prints ++ more := by
  intro final
  obtain ⟨position', -⟩ := again_at position same
  obtain ⟨copies, stolen⟩ := name_steals position' name unnamed rest
  obtain ⟨copies', own⟩ := position.prints_eq
  have listed : (s.step (.file v.format v.file)).listed = s.listed := by
    obtain ⟨-, copies, read⟩ := position
    rw [same.1, same.2] at read
    rw [step_file_again read]
    rfl
  rw [Print.lines_named named, if_pos rfl, List.cons_append, List.singleton_append, read_cons] at final
  rw [final, own, listed] at stolen
  have equal := congrArg Print.name (eq_of_prefixes stolen (List.prefix_append _ _))
  cases equal.trans unnamed

theorem read_behind_iff (position : s.At u) (prints : List (Print File Format Name)) :
    (s.read (writeAll true prints)).prints = s.prints ++ prints ↔ Keeps (u :: prints) := by
  induction prints generalizing s u with
  | nil => simp [writeAll, read, Keeps]
  | cons v prints ih =>
      rw [writeAll, List.flatMap_cons, Keeps]
      by_cases same : u.Repeats v
      · by_cases own : u.name = v.name
        · obtain rfl : u = v := same.eq own
          obtain ⟨position', added⟩ := again_at position same
          rcases named : u.name with - | name
          · rw [Print.lines_unnamed named, List.singleton_append, read_cons]
            have more := ih position'
            rw [added, List.append_assoc] at more
            exact more.trans (and_iff_right fun _ => ⟨rfl, fun given => absurd rfl given⟩).symm
          · rw [Print.lines_named named, if_pos rfl, List.cons_append, List.singleton_append, read_cons,
              read_cons]
            obtain ⟨pending, kept⟩ := name_again position' named
            have more := read_pending_iff pending prints
            rw [kept, added, List.append_assoc] at more
            refine more.trans ⟨fun all => ⟨fun _ => ⟨rfl, fun _ => all⟩, ?_⟩, fun both => ?_⟩
            · exact keeps_of_all (List.forall_mem_cons.mpr ⟨named, all⟩)
            · exact (both.1 ⟨rfl, rfl⟩).2 (Option.some_ne_none name)
        · refine ⟨fun final => ?_, fun both => absurd (both.1 same).1 own⟩
          rcases named : u.name with - | name
          · obtain ⟨name, given⟩ := Option.ne_none_iff_exists'.mp fun none_given =>
              own (named.trans none_given.symm)
            exact absurd final (copy_steals position same named given _ _)
          · have kept := copy_named position (by rw [named]; exact Option.some_ne_none name) same
              (v.name.toList.map Line.name ++ prints.flatMap (Print.lines true))
            exact absurd final (ne_of_kept (_ :: _) kept own)
      · obtain ⟨-, copies, read⟩ := position
        have lines : s.read (v.lines true) = s.close.read (v.lines true) := by
          change (s.step (.file v.format v.file)).read _ = (s.close.step (.file v.format v.file)).read _
          rw [step_file_next read same, step_file_none close_current]
        obtain ⟨position', added⟩ :=
          read_next (v := v) close_current (close_name (by rw [read]; exact Option.some_ne_none _))
        rw [← lines, close_listed] at added
        have more := ih (lines ▸ position')
        rw [added, List.append_assoc] at more
        rw [read_append]
        exact more.trans (and_iff_right fun repeats => absurd repeats same).symm

theorem start_writeAll_behind_iff (routed : Option Name) (prints : List (Print File Format Name)) :
    ((start routed).read (writeAll true prints)).prints = prints ↔ NamesBehind routed prints := by
  rcases routed with - | name
  · cases prints with
    | nil => simp [writeAll, read, NamesBehind, Keeps, start, State.prints, listed]
    | cons v prints =>
        obtain ⟨position, added⟩ := read_next (s := start none) (v := v) rfl rfl
        have more := read_behind_iff position prints
        rw [added] at more
        rw [writeAll, List.flatMap_cons, read_append]
        exact more.trans (and_iff_right nofun).symm
  · have whole := read_pending_iff (s := start (some name)) ⟨rfl, rfl⟩ prints
    refine whole.trans ⟨fun all => ⟨fun other given => Option.some.inj given ▸ all, keeps_of_all all⟩,
      fun both => both.1 name rfl⟩

end State

/-! ## Other names for the files -/

section Rename

variable {File' : Type*}

def Print.rename (f : File → File') (print : Print File Format Name) : Print File' Format Name :=
  ⟨f print.file, print.format, print.name⟩

/-- Files with different names keep different names. -/
def Distinct (f : File → File') (prints : List (Print File Format Name)) : Prop :=
  ∀ u ∈ prints, ∀ v ∈ prints, f u.file = f v.file → u.file = v.file

variable {f : File → File'} {u v : Print File Format Name} {prints : List (Print File Format Name)}

theorem Distinct.tail (distinct : Distinct f (u :: prints)) : Distinct f prints :=
  fun v member w member' => distinct v (List.mem_cons_of_mem u member) w (List.mem_cons_of_mem u member')

theorem Distinct.file_iff (distinct : Distinct f (u :: v :: prints)) :
    f u.file = f v.file ↔ u.file = v.file :=
  ⟨distinct u List.mem_cons_self v (List.mem_cons_of_mem u List.mem_cons_self), congrArg f⟩

theorem map_fileFormat_rename (prints : List (Print File Format Name)) :
    (prints.map (Print.rename f)).map Print.fileFormat =
      prints.map fun print => (f print.file, print.format) := by
  rw [List.map_map]
  rfl

theorem map_rename_id (prints : List (Print File Format Name)) : prints.map (Print.rename id) = prints :=
  List.map_id prints

theorem follows_rename (distinct : Distinct f (u :: v :: prints)) :
    Follows (u.rename f) (v.rename f) ↔ Follows u v := by
  have same := distinct.file_iff
  refine ⟨fun follows => ⟨follows.named, fun unnamed named equal => ?_⟩,
    fun follows => ⟨follows.named, fun unnamed named equal => ?_⟩⟩
  · exact follows.unnamed unnamed named ⟨same.mpr equal.1, equal.2⟩
  · exact follows.unnamed unnamed named ⟨same.mp equal.1, equal.2⟩

theorem isChain_rename (distinct : Distinct f prints) :
    (prints.map (Print.rename f)).IsChain Follows ↔ prints.IsChain Follows := by
  induction prints with
  | nil => exact iff_of_true .nil .nil
  | cons u prints ih =>
      cases prints with
      | nil => exact iff_of_true (.singleton _) (.singleton _)
      | cons v prints =>
          rw [List.map_cons, List.map_cons, List.isChain_cons_cons, List.isChain_cons_cons,
            follows_rename distinct]
          exact and_congr_right fun _ => ih distinct.tail

theorem namesBefore_rename (distinct : Distinct f prints) (routed : Option Name) :
    NamesBefore routed (prints.map (Print.rename f)) ↔ NamesBefore routed prints := by
  refine and_congr (imp_congr_right fun _ => ?_) (isChain_rename distinct)
  cases prints with
  | nil => exact iff_of_true nofun nofun
  | cons u prints => simp [Print.rename]

theorem keeps_rename (distinct : Distinct f prints) :
    Keeps (prints.map (Print.rename f)) ↔ Keeps prints := by
  induction prints with
  | nil => exact Iff.rfl
  | cons u prints ih =>
      cases prints with
      | nil => exact Iff.rfl
      | cons v prints =>
          refine and_congr (imp_congr (and_congr_left fun _ => distinct.file_iff) ?_) (ih distinct.tail)
          simp [Print.rename]

theorem namesBehind_rename (distinct : Distinct f prints) (routed : Option Name) :
    NamesBehind routed (prints.map (Print.rename f)) ↔ NamesBehind routed prints := by
  refine and_congr (forall₂_congr fun _ _ => ?_) (keeps_rename distinct)
  rw [List.forall_mem_map]
  rfl

end Rename

end LPRng.PrintSequence
