import LPRng.SortOrder

/-!
# Removing a job

`Remove_job` unlinks the files that the ticket of a job names: its data files and the ticket
itself. In a spool directory in which no file belongs to two jobs the tickets of the others
read as before.
-/

namespace LPRng

namespace JobLists

/-! ## The files of a job -/

/-- The names in a ticket, in the order in which `Remove_job` takes them. -/
def namedFiles (job : JobLists) : List (Option Bytes) :=
  job.datafiles.flatMap (fun datafile => [datafile.findStrValue openname, datafile.findStrValue dftransfername]) ++
    [job.info.findStrValue openname, job.info.findStrValue hfName]

def files (job : JobLists) : List Bytes := job.namedFiles.filterMap id

/-- `Remove_file`: the directory behind it, and whether it failed. A file that cannot be
unlinked stays. -/
def removeFile (unlinks : Bytes → Bool) (dir : SpoolDir) (openname : Option Bytes) : SpoolDir × Bool :=
  match openname with
  | none => (dir, false)
  | some name =>
      if (dir.lookup name).isSome then
        if unlinks name then (dir.filter (·.1 ≠ name), false) else (dir, true)
      else (dir, false)

/-- `Remove_job`. -/
def removeJob (unlinks : Bytes → Bool) (dir : SpoolDir) (job : JobLists) : SpoolDir × Bool :=
  job.namedFiles.foldl (fun state openname =>
    ((removeFile unlinks state.1 openname).1, state.2 || (removeFile unlinks state.1 openname).2)) (dir, false)

variable {unlinks : Bytes → Bool} {dir : SpoolDir} {job : JobLists} {name line : Bytes}

theorem lookup_filter {keep : Bytes → Bool} (kept : keep name = true) :
    (dir.filter (keep ·.1)).lookup name = dir.lookup name := by
  induction dir with
  | nil => rfl
  | cons file dir ih =>
      by_cases here : keep file.1 = true
      · rw [List.filter_cons, if_pos here, List.lookup_cons, List.lookup_cons, ih]
      · have other : (name == file.1) = false := by
          rw [beq_eq_false_iff_ne]
          intro same
          exact here (same ▸ kept)
        rw [List.filter_cons, if_neg here, ih, List.lookup_cons, other]

theorem filter_of_lookup_none (absent : ¬ (dir.lookup name).isSome = true) : dir.filter (·.1 ≠ name) = dir := by
  rw [List.filter_eq_self]
  intro file member
  rw [decide_eq_true_eq]
  intro same
  refine absent (Option.isSome_iff_ne_none.mpr fun none => ?_)
  have outside := List.lookup_eq_none_iff.mp none file member
  rw [same, bne_self_eq_false] at outside
  cases outside

/-- A file goes if it can be unlinked. -/
theorem removeFile_dir (unlinks : Bytes → Bool) (dir : SpoolDir) (openname : Option Bytes) :
    (removeFile unlinks dir openname).1 = dir.filter fun file => !(openname == some file.1 && unlinks file.1) := by
  cases openname with
  | none => exact (List.filter_eq_self.mpr fun _ _ => rfl).symm
  | some name =>
      have one : (fun file : Bytes × Option Bytes => !(some name == some file.1 && unlinks file.1)) =
          fun file => if unlinks name then decide (file.1 ≠ name) else true := by
        funext file
        by_cases same : file.1 = name
        · subst same
          cases unlinks file.1 <;> simp
        · have other : (some name == some file.1) = false := by
            rw [beq_eq_false_iff_ne]
            exact fun clash => same (Option.some.inj clash).symm
          rw [other]
          cases unlinks name <;> simp [same]
      rw [one]
      unfold removeFile
      dsimp only
      by_cases there : (dir.lookup name).isSome = true
      · rw [if_pos there]
        cases unlinks name with
        | false => exact (List.filter_eq_self.mpr fun _ _ => rfl).symm
        | true => rfl
      · rw [if_neg there]
        cases unlinks name with
        | false => exact (List.filter_eq_self.mpr fun _ _ => rfl).symm
        | true => exact (filter_of_lookup_none there).symm

/-- What is left of a directory behind a removal: the files the ticket does not name, and
those that cannot be unlinked. -/
theorem removeJob_dir (unlinks : Bytes → Bool) (dir : SpoolDir) (job : JobLists) :
    (removeJob unlinks dir job).1 = dir.filter fun file => !(job.files.contains file.1 && unlinks file.1) := by
  have general : ∀ (names : List (Option Bytes)) (state : SpoolDir × Bool),
      (names.foldl (fun state openname => ((removeFile unlinks state.1 openname).1,
          state.2 || (removeFile unlinks state.1 openname).2)) state).1 =
        state.1.filter fun file => !((names.filterMap id).contains file.1 && unlinks file.1) := by
    intro names
    induction names with
    | nil => exact fun state => (List.filter_eq_self.mpr fun _ _ => rfl).symm
    | cons openname names ih =>
        intro state
        rw [List.foldl_cons, ih, removeFile_dir, List.filter_filter]
        refine List.filter_congr fun file _ => ?_
        cases openname with
        | none => simp
        | some name =>
            have same : (some name == some file.1) = (file.1 == name) := by
              by_cases equal : file.1 = name
              · rw [equal, beq_self_eq_true, beq_self_eq_true]
              · rw [beq_eq_false_iff_ne.mpr equal, beq_eq_false_iff_ne]
                exact fun clash => equal (Option.some.inj clash).symm
            rw [same, List.filterMap_cons, id_eq, List.contains_cons]
            cases file.1 == name <;> cases unlinks file.1 <;> simp
  exact general job.namedFiles (dir, false)

/-- Nothing fails when every file can be unlinked. -/
theorem removeJob_succeeds (all : ∀ name, unlinks name = true) (dir : SpoolDir) (job : JobLists) :
    (removeJob unlinks dir job).2 = false := by
  have one : ∀ dir openname, (removeFile unlinks dir openname).2 = false := by
    intro dir openname
    unfold removeFile
    cases openname with
    | none => rfl
    | some name =>
        dsimp only
        rw [all name]
        split <;> rfl
  unfold removeJob
  generalize dir = dir
  generalize job.namedFiles = names
  induction names generalizing dir with
  | nil => rfl
  | cons openname names ih =>
      rw [List.foldl_cons, one, Bool.or_false]
      exact ih _

/-! ## Reading the tickets of a directory -/

/-- The name of the ticket that a line of the sort order stands for. -/
def ticketName (line : Bytes) : Bytes := if 61 ∈ line then (line.dropWhile (· ≠ 61)).tail else line

theorem readTicket_filter (keep : Bytes → Bool) (kept : keep (ticketName line) = true) :
    readTicket (dir.filter (keep ·.1)) line = readTicket dir line := by
  unfold readTicket
  dsimp only
  rw [← ticketName, lookup_filter kept]

variable {config : OrderConfig} {args : ScanArgs} {ticket : Bytes × JobLists}

theorem ticketName_sortLine (config : OrderConfig) (ticket : Bytes × JobLists) :
    ticketName (sortLine config ticket) = ticket.1 := by
  have free : ∀ c ∈ makeSortKey config ticket.2, c ≠ 61 := by
    intro c member same
    exact sepFree_makeSortKey config ticket.2 c member (same ▸ by decide)
  unfold ticketName sortLine
  rw [if_pos (List.mem_append_right _ List.mem_cons_self),
    List.dropWhile_append_of_pos fun c member => decide_eq_true (free c member)]
  rfl

/-- A readable ticket that the scan lists. Its name has no `=`. -/
theorem readTicket_of_listed (member : ticket ∈ listed args dir) : readTicket dir ticket.1 = ticket.2 := by
  rcases List.mem_filterMap.mp member with ⟨file, -, kept⟩
  dsimp only at kept
  split at kept
  · cases kept
  · cases kept
    rfl

theorem readable_of_listed (member : ticket ∈ listed args dir) : ticket.2.info ≠ [] := by
  rcases List.mem_filterMap.mp member with ⟨file, -, kept⟩
  dsimp only at kept
  split at kept
  · cases kept
  next listed =>
      cases kept
      intro empty
      rw [show (readTicket dir file.1).info = [] from empty] at listed
      simp at listed

theorem readTicket_sortLine (plain : 61 ∉ ticket.1) (member : ticket ∈ listed args dir) (config : OrderConfig) :
    readTicket dir (sortLine config ticket) = ticket.2 := by
  rw [← readTicket_of_listed member]
  unfold readTicket
  dsimp only
  rw [← ticketName, ticketName_sortLine, if_neg plain]

/-! ## The sort order -/

/-- A list of values of a function on members of another list comes from members. -/
theorem exists_map_eq {α β : Type*} (f : α → β) {l : List β} {source : List α}
    (from_source : ∀ b ∈ l, b ∈ source.map f) :
    ∃ part : List α, l = part.map f ∧ ∀ a ∈ part, a ∈ source := by
  induction l with
  | nil => exact ⟨[], rfl, fun _ member => nomatch member⟩
  | cons b l ih =>
      rcases ih fun c member => from_source c (List.mem_cons_of_mem b member) with ⟨part, rfl, members⟩
      rcases List.mem_map.mp (from_source b List.mem_cons_self) with ⟨a, member, rfl⟩
      exact ⟨a :: part, rfl, List.forall_mem_cons.mpr ⟨member, members⟩⟩

theorem mem_of_mem_insertAll {α κ : Type*} [LinearOrder κ] {k : α → κ} {es : List α} {a : α}
    (member : a ∈ insertAll k es) : a ∈ es := by
  induction es using List.reverseRecOn with
  | nil => cases member
  | append_singleton es e ih =>
      rw [insertAll_snoc] at member
      rcases mem_insertKey.mp member with rfl | ⟨before, -⟩
      · exact List.mem_append_right es List.mem_cons_self
      · exact List.mem_append_left _ (ih before)

/-- The sort order of a fresh scan has the lines of tickets it lists, in the order of their keys. -/
theorem exists_tickets (config : OrderConfig) (args : ScanArgs) (dir : SpoolDir) :
    ∃ tickets : List (Bytes × JobLists), scanQueue config args dir = tickets.map (sortLine config) ∧
      (∀ ticket ∈ tickets, ticket ∈ listed args dir) ∧
      tickets.Pairwise fun s t => strcasecmp (makeSortKey config s.2) (makeSortKey config t.2) = .lt := by
  have sorted := KeySorted.insertAll lineKey ((listed args dir).map (sortLine config))
  rcases exists_map_eq (sortLine config) fun line member => mem_of_mem_insertAll (k := lineKey) member with
    ⟨tickets, lines, members⟩
  refine ⟨tickets, (scanQueue_eq config args dir).trans lines, members, ?_⟩
  rw [KeySorted, lines, List.pairwise_map] at sorted
  refine sorted.imp fun {s t} less => ?_
  rw [lineKey_sortLine, lineKey_sortLine] at less
  exact (strcasecmp_compares _ _).eq_lt.mpr less

end JobLists

end LPRng
