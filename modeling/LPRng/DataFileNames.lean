import LPRng.ControlCodec
import LPRng.Separated

/-!
# Names for data files

`Fix_datafile_infox` gives the data files of a job the names they are sent under, made of a letter for
the group and one for the place in it. Names in one group differ in case only from the 27th on, and the
tables that are made of them later ignore it.
-/

namespace LPRng

namespace DataFileNames

variable {number suffix : Bytes} {files named : List Fields} {outfiles last : LineList} {count total : Nat}

/-! ## The names -/

def oldName (lp : Fields) : Bytes := lp.senderName.getD []
def newName (lp : Fields) : Bytes := (lp.findStrValue .ntransfername).getD []

/-- What the lines for the prints have to be: all of them once for each copy of the job. -/
def wantedLines (nlineAfterFile : Bool) (xlateFormat : Bytes) (jobCopies : Int) (named : List Fields) : List Bytes :=
  (List.replicate (max 1 jobCopies).toNat (named.flatMap fun lp =>
    (List.replicate (max 1 (lp.findFlagValue .copies)).toNat (copyLines nlineAfterFile xlateFormat lp)).flatten)).flatten

/-- The lines that `Fix_datafile_infox` writes for the prints. -/
def printLines (nlineAfterFile : Bool) (xlateFormat : Bytes) (jobCopies : Int) (named : List Fields) : List Bytes :=
  (List.replicate (timesPrinted jobCopies) (named.flatMap (fileLines nlineAfterFile xlateFormat))).flatten

/-- The data files are renamed one to one, also where the case of letters is ignored, each is removed
once, and all are printed. -/
structure Renamed (nlineAfterFile : Bool) (xlateFormat : Bytes) (jobCopies : Int) (files named : List Fields)
    (printed removed : List Bytes) (count : Nat) : Prop where
  same : ∀ a ∈ files.zip named, ∀ b ∈ files.zip named, newName a.2 = newName b.2 ↔ oldName a.1 = oldName b.1
  ignoringCase : ∀ a ∈ files.zip named, ∀ b ∈ files.zip named,
    foldCase (newName a.2) = foldCase (newName b.2) ↔ oldName a.1 = oldName b.1
  number : count = (files.map oldName).dedup.length
  once : removed.Nodup
  removed : ∀ line, line ∈ removed ↔ ∃ lp ∈ named, line = 85 :: newName lp
  printed : printed = wantedLines nlineAfterFile xlateFormat jobCopies named

/-! ## The table of names -/

/-- The names that have no new one yet. -/
def fresh (outfiles : LineList) (names : List Bytes) : Finset Bytes :=
  names.toFinset.filter fun n => outfiles.findCasekeyStrValue n hashValueSep = none

theorem fresh_cons_of_found {n s : Bytes} (found : outfiles.findCasekeyStrValue n hashValueSep = some s)
    (names : List Bytes) : fresh outfiles (n :: names) = fresh outfiles names := by
  rw [fresh, List.toFinset_cons, Finset.filter_insert, if_neg (by rw [found]; exact Option.some_ne_none s)]
  rfl

theorem fresh_cons_of_none (table : NameTable number suffix outfiles count) {n s : Bytes}
    (free : LineList.CasekeyFree n) (new : newTransferName number suffix count = some s)
    (none : outfiles.findCasekeyStrValue n hashValueSep = none) (names : List Bytes) :
    (fresh outfiles (n :: names)).card = (fresh (outfiles.setCasekeyStrValue n (some s)) names).card + 1 := by
  have find := table.find_add free new
  have split : fresh outfiles (n :: names) = insert n (fresh (outfiles.setCasekeyStrValue n (some s)) names) := by
    ext m
    simp only [fresh, List.toFinset_cons, Finset.mem_filter, Finset.mem_insert, List.mem_toFinset, find]
    by_cases here : m = n
    · simp [here, none]
    · simp [here]
  have other : n ∉ fresh (outfiles.setCasekeyStrValue n (some s)) names := by
    simp [fresh, find]
  rw [split, Finset.card_insert_of_notMem other]

theorem isSome_newTransferName (small : count < 52 * 52) : ∃ s, newTransferName number suffix count = some s :=
  ⟨_, if_neg (by omega)⟩

/-- The first loop ends for as many names as there are letters for, and counts them. -/
theorem nameDatafiles_total (table : NameTable number suffix outfiles count)
    (names : ∀ lp ∈ files, ∃ n, lp.senderName = some n ∧ LineList.CasekeyFree n)
    (room : (fresh outfiles (files.map oldName)).card + count ≤ 52 * 52) :
    ∃ named last, nameDatafiles number suffix outfiles count files =
      some (named, (fresh outfiles (files.map oldName)).card + count, last) := by
  induction files generalizing outfiles count with
  | nil => exact ⟨[], outfiles, by simp [nameDatafiles, fresh]⟩
  | cons lp files ih =>
      rcases List.forall_mem_cons.mp names with ⟨⟨n, sender, free⟩, later⟩
      have old : oldName lp = n := by rw [oldName, sender, Option.getD_some]
      rw [List.map_cons, old] at room ⊢
      rw [nameDatafiles, sender]
      dsimp only [Option.getD_some]
      rcases known : outfiles.findCasekeyStrValue n hashValueSep with _ | s
      · have least : 0 < (fresh outfiles (n :: files.map oldName)).card :=
          Finset.card_pos.mpr ⟨n, by simp [fresh, known]⟩
        have named : ∃ s, newTransferName number suffix count = some s := isSome_newTransferName (by omega)
        rcases named with ⟨s, new⟩
        have size := fresh_cons_of_none table free new known (files.map oldName)
        rcases ih (table.add free new) later (by omega) with ⟨named, last, run⟩
        refine ⟨(lp.openAs (some n)).setStrValue .ntransfername (some s) :: named, last, ?_⟩
        have sum : (fresh outfiles (n :: files.map oldName)).card + count =
            (fresh (outfiles.setCasekeyStrValue n (some s)) (files.map oldName)).card + (count + 1) := by
          omega
        simp [new, run, sum]
      · rw [fresh_cons_of_found known] at room ⊢
        rcases ih table later room with ⟨named, last, run⟩
        exact ⟨(lp.openAs (some n)).setStrValue .ntransfername (some s) :: named, last, by simp [run]⟩

/-- Every new name is given to a file. -/
theorem exists_named (run : nameDatafiles number suffix outfiles count files = some (named, total, last)) {i : Nat}
    (least : count ≤ i) (below : i < total) :
    ∃ lp ∈ named, ∃ s, newTransferName number suffix i = some s ∧ newName lp = s := by
  induction files generalizing outfiles count named total last with
  | nil =>
      cases run
      omega
  | cons lp files ih =>
      rw [nameDatafiles] at run
      dsimp only at run
      split at run
      · rcases Option.bind_eq_some_iff.mp run with ⟨⟨done, rest⟩, more, result⟩
        cases result
        rcases ih more least below with ⟨lp, member, here⟩
        exact ⟨lp, List.mem_cons_of_mem _ member, here⟩
      · rcases Option.bind_eq_some_iff.mp run with ⟨s, new, run⟩
        rcases Option.bind_eq_some_iff.mp run with ⟨⟨done, rest⟩, more, result⟩
        cases result
        by_cases first : i = count
        · refine ⟨_, List.mem_cons_self, s, first ▸ new, ?_⟩
          have shown : s ≠ [] := NameTable.newTransferName_ne_nil new
          have stored : ((lp.openAs lp.senderName).setStrValue .ntransfername (some s)).findStrValue .ntransfername =
              some s := by
            simp [shown]
          rw [newName, stored, Option.getD_some]
        · rcases ih more (by omega) below with ⟨lp, member, here⟩
          exact ⟨lp, List.mem_cons_of_mem _ member, here⟩

/-! ## Different names -/

/-- The letters of the first 26 names differ also where the case is ignored, and the 27th repeats the first. -/
theorem offsetLetters_fold : (∀ i j : Fin 26, toLower (offsetLetters.getD i 0) = toLower (offsetLetters.getD j 0) → i = j) ∧
    toLower (offsetLetters.getD 0 0) = toLower (offsetLetters.getD 26 0) := by
  decide

theorem foldCase_newTransferName {i j : Nat} {s t : Bytes} (small : i < 26) (small' : j < 26)
    (first : newTransferName number suffix i = some s) (second : newTransferName number suffix j = some t)
    (same : foldCase s = foldCase t) : i = j := by
  have place : ∀ {k : Nat} {u : Bytes}, k < 26 → newTransferName number suffix k = some u →
      u = 100 :: groupLetters.getD 0 0 :: offsetLetters.getD k 0 :: (number ++ suffix) := by
    intro k u below new
    have group : k / 52 = 0 := Nat.div_eq_of_lt (by omega)
    have offset : k % 52 = k := Nat.mod_eq_of_lt (by omega)
    rw [newTransferName, group, offset, if_neg (by decide)] at new
    exact (Option.some.inj new).symm
  rw [place small first, place small' second] at same
  have letters : (toLower (offsetLetters.getD i 0)).toNat = (toLower (offsetLetters.getD j 0)).toNat :=
    (List.cons.inj (List.cons.inj (List.cons.inj same).2).2).1
  exact Fin.mk.inj_iff.mp (offsetLetters_fold.1 ⟨i, small⟩ ⟨j, small'⟩ (UInt8.toNat_inj.mp letters))

/-- The first name and the 27th are different names, and the same one without the case of letters. -/
theorem foldCase_collide {s t : Bytes} (first : newTransferName number suffix 0 = some s)
    (second : newTransferName number suffix 26 = some t) : foldCase s = foldCase t := by
  rw [newTransferName, if_neg (by decide)] at first second
  rw [← Option.some.inj first, ← Option.some.inj second]
  have letter : (toLower (offsetLetters.getD 0 0)).toNat = (toLower (offsetLetters.getD 26 0)).toNat :=
    congrArg UInt8.toNat offsetLetters_fold.2
  exact congrArg₂ (fun front rest => foldCase [100] ++ (foldCase [groupLetters.getD 0 0] ++ (front :: rest))) letter rfl

/-- Files and their new names, by the table. -/
theorem of_mem_zip (sent : List.Forall₂ (SentAs last) files named) {a : Fields × Fields} (member : a ∈ files.zip named) :
    last.findCasekeyStrValue (oldName a.1) hashValueSep = some (newName a.2) := by
  rcases a with ⟨lp, renamed⟩
  rcases (List.forall₂_iff_zip.mp sent).2 member with ⟨⟨s, name, found⟩, -, -, -⟩
  rw [newName, name]
  exact found

theorem newName_eq_iff (table : NameTable number suffix last total) (sent : List.Forall₂ (SentAs last) files named)
    {a b : Fields × Fields} (left : a ∈ files.zip named) (right : b ∈ files.zip named) :
    newName a.2 = newName b.2 ↔ oldName a.1 = oldName b.1 := by
  have first := of_mem_zip sent left
  have second := of_mem_zip sent right
  constructor
  · intro same
    exact table.distinct _ _ _ first (same ▸ second)
  · intro same
    exact Option.some.inj (first.symm.trans (same ▸ second))

/-- What holds of the file and of the renamed file holds of them in the two lists. -/
theorem map_eq_map {α : Type*} {f g : Fields → α} {R : Fields → Fields → Prop} (related : List.Forall₂ R files named)
    (same : ∀ lp renamed, R lp renamed → f lp = g renamed) : files.map f = named.map g := by
  induction related with
  | nil => rfl
  | cons here _ ih => rw [List.map_cons, List.map_cons, same _ _ here, ih]

/-- The new names are different if the names were. -/
theorem nodup_newName_iff (table : NameTable number suffix last total) (sent : List.Forall₂ (SentAs last) files named) :
    (named.map newName).Nodup ↔ (files.map oldName).Nodup := by
  have found : ∀ n ∈ files.map oldName, ∃ s, last.findCasekeyStrValue n hashValueSep = some s := by
    intro n member
    rcases List.mem_map.mp member with ⟨lp, inside, rfl⟩
    rcases List.forall₂_iff_get.mp sent with ⟨lengths, entries⟩
    rcases List.mem_iff_get.mp inside with ⟨i, rfl⟩
    rcases (entries i i.2 (lengths ▸ i.2)).name with ⟨s, -, here⟩
    exact ⟨s, here⟩
  have renamed : named.map newName =
      (files.map oldName).map fun n => (last.findCasekeyStrValue n hashValueSep).getD [] := by
    rw [List.map_map]
    refine (map_eq_map sent fun lp renamed sentAs => ?_).symm
    rcases sentAs.name with ⟨s, name, here⟩
    rw [newName, name, Function.comp_apply, oldName, here]
  rw [renamed]
  refine ⟨List.Nodup.of_map _, List.Nodup.map_on fun m left n right same => ?_⟩
  rcases found m left with ⟨s, first⟩
  rcases found n right with ⟨t, second⟩
  rw [first, second] at same
  exact table.distinct m n s first (second.trans (congrArg some same.symm))

/-! ## The lines that remove files -/

theorem nodup_removeLines (sorted : KeySorted LineList.casekeyOf outfiles)
    (free : ∀ lp ∈ named, LineList.CasekeyFree (newName lp)) :
    (removeLines outfiles named).Nodup ∧ ∀ line, line ∈ removeLines outfiles named ↔
      ∃ lp ∈ named, line = 85 :: newName lp ∧ outfiles.findCasekeyStrValue (newName lp) hashValueSep = none := by
  induction named generalizing outfiles with
  | nil => exact ⟨List.nodup_nil, fun line => by simp [removeLines]⟩
  | cons lp named ih =>
      rcases List.forall_mem_cons.mp free with ⟨here, rest⟩
      rcases known : outfiles.findCasekeyStrValue (newName lp) hashValueSep with _ | yes
      · have step : removeLines outfiles (lp :: named) = (85 :: newName lp) ::
            removeLines (outfiles.setCasekeyStrValue (newName lp) (some (lit "YES"))) named := by
          have none : ¬ (outfiles.findCasekeyStrValue (newName lp) hashValueSep).isSome = true := by simp [known]
          exact if_neg none
        have given : lit "YES" ≠ [] := List.cons_ne_nil _ _
        have find := LineList.findCasekeyStrValue_set sorted here given
        have added : KeySorted LineList.casekeyOf (outfiles.setCasekeyStrValue (newName lp) (some (lit "YES"))) :=
          LineList.keySorted_setCasekeyStrValue sorted given
        rcases ih added rest with ⟨once, members⟩
        rw [step]
        refine ⟨List.nodup_cons.mpr ⟨fun again => ?_, once⟩, fun line => ?_⟩
        · rcases (members _).mp again with ⟨other, -, same, absent⟩
          have names : newName other = newName lp := (List.cons.inj same).2.symm
          rw [find, if_pos names] at absent
          cases absent
        · rw [List.mem_cons, members]
          constructor
          · rintro (rfl | ⟨other, inside, rfl, absent⟩)
            · exact ⟨lp, List.mem_cons_self, rfl, known⟩
            · refine ⟨other, List.mem_cons_of_mem lp inside, rfl, ?_⟩
              rw [find] at absent
              split at absent
              · cases absent
              · exact absent
          · rintro ⟨other, inside, rfl, absent⟩
            by_cases same : newName other = newName lp
            · exact .inl (congrArg (85 :: ·) same)
            · rcases List.mem_cons.mp inside with rfl | behind
              · exact absurd rfl same
              · exact .inr ⟨other, behind, rfl, by rw [find, if_neg same]; exact absent⟩
      · have step : removeLines outfiles (lp :: named) = removeLines outfiles named := by
          have found : (outfiles.findCasekeyStrValue (newName lp) hashValueSep).isSome = true := by simp [known]
          exact if_pos found
        rcases ih sorted rest with ⟨once, members⟩
        rw [step]
        refine ⟨once, fun line => (members line).trans ?_⟩
        constructor
        · rintro ⟨other, inside, rest⟩
          exact ⟨other, List.mem_cons_of_mem lp inside, rest⟩
        · rintro ⟨other, inside, rfl, absent⟩
          rcases List.mem_cons.mp inside with rfl | behind
          · rw [known] at absent
            cases absent
          · exact ⟨other, behind, rfl, absent⟩

/-- A name with a separator in it is never found in the table it was put into. -/
theorem removeLines_of_separator (sorted : KeySorted LineList.casekeyOf outfiles)
    (cut : ∀ lp ∈ named, ¬ LineList.CasekeyFree (newName lp)) :
    removeLines outfiles named = named.map fun lp => 85 :: newName lp := by
  induction named generalizing outfiles with
  | nil => rfl
  | cons lp named ih =>
      rcases List.forall_mem_cons.mp cut with ⟨here, rest⟩
      have none : outfiles.findCasekeyStrValue (newName lp) hashValueSep = none := by
        rw [LineList.findCasekeyStrValue_eq sorted, Option.bind_eq_none_iff]
        intro line found
        have key := codes_inj.mp (of_lookupKey found).2
        refine absurd (fun c member => ?_) here
        rw [← key] at member
        simpa using List.mem_takeWhile_imp member
      have step : removeLines outfiles (lp :: named) = (85 :: newName lp) ::
          removeLines (outfiles.setCasekeyStrValue (newName lp) (some (lit "YES"))) named := by
        have absent : ¬ (outfiles.findCasekeyStrValue (newName lp) hashValueSep).isSome = true := by simp [none]
        exact if_neg absent
      have given : lit "YES" ≠ [] := List.cons_ne_nil _ _
      rw [step, ih (LineList.keySorted_setCasekeyStrValue sorted given) rest]
      rfl

/-! ## The lines that print files -/

theorem timesPrinted_of_natural {copies : Int} (natural : 0 ≤ copies) : timesPrinted copies = (max 1 copies).toNat := by
  unfold timesPrinted
  split <;> omega

theorem timesPrinted_of_negative {copies : Int} (negative : copies < 0) : timesPrinted copies = 0 := by
  unfold timesPrinted
  rw [if_neg (by omega)]
  omega

theorem length_copyLines (nlineAfterFile : Bool) (xlateFormat : Bytes) (lp : Fields) :
    0 < (copyLines nlineAfterFile xlateFormat lp).length := by
  unfold copyLines
  dsimp only
  split
  · exact Nat.succ_pos _
  · rw [List.length_append]
    exact Nat.lt_add_left _ Nat.one_pos

/-- The lines of all copies, for a number of copies read in some way. -/
def times (count : Int → Nat) (nlineAfterFile : Bool) (xlateFormat : Bytes) (jobCopies : Int) (named : List Fields) :
    List Bytes :=
  (List.replicate (count jobCopies) (named.flatMap fun lp =>
    (List.replicate (count (lp.findFlagValue .copies)) (copyLines nlineAfterFile xlateFormat lp)).flatten)).flatten

theorem length_times (count : Int → Nat) (nlineAfterFile : Bool) (xlateFormat : Bytes) (jobCopies : Int) :
    (times count nlineAfterFile xlateFormat jobCopies named).length = count jobCopies *
      (named.map fun lp => count (lp.findFlagValue .copies) * (copyLines nlineAfterFile xlateFormat lp).length).sum := by
  have one : ∀ lp : Fields, (List.replicate (count (lp.findFlagValue .copies))
      (copyLines nlineAfterFile xlateFormat lp)).flatten.length =
        count (lp.findFlagValue .copies) * (copyLines nlineAfterFile xlateFormat lp).length := by
    intro lp
    rw [List.length_flatten, List.map_replicate, List.sum_replicate_nat]
  rw [times, List.length_flatten, List.map_replicate, List.sum_replicate_nat, List.length_flatMap]
  simp only [one]

/-- All is printed if no number of copies is negative. -/
theorem printLines_eq_iff (nlineAfterFile : Bool) (xlateFormat : Bytes) (jobCopies : Int) :
    printLines nlineAfterFile xlateFormat jobCopies named = wantedLines nlineAfterFile xlateFormat jobCopies named ↔
      named = [] ∨ 0 ≤ jobCopies ∧ ∀ lp ∈ named, 0 ≤ lp.findFlagValue .copies := by
  have left : printLines nlineAfterFile xlateFormat jobCopies named =
      times timesPrinted nlineAfterFile xlateFormat jobCopies named := rfl
  have right : wantedLines nlineAfterFile xlateFormat jobCopies named =
      times (fun copies => (max 1 copies).toNat) nlineAfterFile xlateFormat jobCopies named := rfl
  rw [left, right]
  constructor
  · intro same
    have lengths := congrArg List.length same
    rw [length_times, length_times] at lengths
    rcases named.eq_nil_or_concat with empty | ⟨front, last, parts⟩
    · exact .inl empty
    have at_most : ∀ lp ∈ named,
        timesPrinted (lp.findFlagValue .copies) * (copyLines nlineAfterFile xlateFormat lp).length ≤
          (max 1 (lp.findFlagValue .copies)).toNat * (copyLines nlineAfterFile xlateFormat lp).length := by
      intro lp _
      refine Nat.mul_le_mul_right _ ?_
      unfold timesPrinted
      split <;> omega
    have inside : last ∈ named := by
      rw [parts]
      simp
    have positive := List.single_le_sum (fun _ _ => Nat.zero_le _) _ (List.mem_map_of_mem inside (f := fun lp : Fields =>
      (max 1 (lp.findFlagValue .copies)).toNat * (copyLines nlineAfterFile xlateFormat lp).length))
    have one : 0 < (max 1 (last.findFlagValue .copies)).toNat * (copyLines nlineAfterFile xlateFormat last).length :=
      Nat.mul_pos (by omega) (length_copyLines nlineAfterFile xlateFormat last)
    have job : 0 ≤ jobCopies := by
      by_contra negative
      have single : (max 1 jobCopies).toNat = 1 := by omega
      rw [timesPrinted_of_negative (by omega), single] at lengths
      omega
    refine .inr ⟨job, fun lp member => ?_⟩
    rw [timesPrinted_of_natural job] at lengths
    have sums := Nat.eq_of_mul_eq_mul_left (by omega) lengths
    have each := (Separated.sum_eq_sum_iff at_most).mp sums lp member
    have counts := Nat.eq_of_mul_eq_mul_right (length_copyLines nlineAfterFile xlateFormat lp) each
    by_contra negative
    rw [timesPrinted_of_negative (by omega)] at counts
    omega
  · rintro (rfl | ⟨job, files⟩)
    · simp [times]
    · unfold times
      rw [timesPrinted_of_natural job]
      congr 2
      refine List.flatMap_congr fun lp member => ?_
      rw [timesPrinted_of_natural (files lp member)]

/-! ## All of it -/

/-- Without the case of letters, only 26 names differ. -/
theorem foldCase_newName_iff (table : NameTable number suffix last total)
    (sent : List.Forall₂ (SentAs last) files named) (every : ∀ i < total, ∃ lp ∈ named, ∃ s,
      newTransferName number suffix i = some s ∧ newName lp = s) :
    (∀ a ∈ files.zip named, ∀ b ∈ files.zip named,
      foldCase (newName a.2) = foldCase (newName b.2) ↔ oldName a.1 = oldName b.1) ↔ total ≤ 26 := by
  have pair : ∀ lp ∈ named, ∃ a ∈ files.zip named, a.2 = lp := by
    intro lp member
    have second : (files.zip named).map Prod.snd = named := List.map_snd_zip sent.length_eq.ge
    exact List.mem_map.mp (second.symm ▸ member)
  constructor
  · intro right
    by_contra many
    rcases every 0 (by omega) with ⟨lp, member, s, first, here⟩
    rcases every 26 (by omega) with ⟨lp', member', t, second, here'⟩
    rcases pair lp member with ⟨a, left, rfl⟩
    rcases pair lp' member' with ⟨b, left', rfl⟩
    have folded : foldCase (newName a.2) = foldCase (newName b.2) := by
      rw [here, here']
      exact foldCase_collide first second
    have names := (newName_eq_iff table sent left left').mpr ((right a left b left').mp folded)
    rw [here, here'] at names
    exact absurd (newTransferName_inj first (names ▸ second)) (by decide)
  · intro few a left b right
    refine ⟨fun folded => ?_, fun same => congrArg foldCase ((newName_eq_iff table sent left right).mpr same)⟩
    have first := of_mem_zip sent left
    have second := of_mem_zip sent right
    rcases table.assigned _ _ first with ⟨i, below, new⟩
    rcases table.assigned _ _ second with ⟨j, below', new'⟩
    have same := foldCase_newTransferName (by omega) (by omega) new new' folded
    rw [same, new'] at new
    exact table.distinct _ _ _ first (second.trans new)

/-- The name of a file is a key of a table if what stands behind its letters is. -/
theorem casekeyFree_newTransferName {i : Nat} {s : Bytes} (new : newTransferName number suffix i = some s) :
    LineList.CasekeyFree s ↔ LineList.CasekeyFree (number ++ suffix) := by
  rcases newTransferName_shape new with ⟨a, b, -, rfl⟩
  have letters : ∀ c, isAlnum c = true → hashValueSep.contains c = false := fun c alnum => by
    have word : isWordChar c = true := by rw [isWordChar, alnum, Bool.true_or]
    have other := (isWordChar_spec word).2.2.1
    exact Bool.eq_false_of_not_eq_true fun inside =>
      other (isSeparator_hashValueSep.most c (List.contains_iff_mem.mp inside))
  constructor
  · exact fun free c member => free c (by simp [member])
  · intro free c member
    rcases List.mem_cons.mp member with rfl | member
    · rfl
    · rcases List.mem_cons.mp member with rfl | member
      · exact letters _ (letters_spec.2 a).1
      · rcases List.mem_cons.mp member with rfl | member
        · exact letters _ (letters_spec.2 b).2
        · exact free c member

/-- Each data file is renamed, removed and printed as it should be exactly if there are at most 26 names, no
number of copies is negative, and the names can be keys of a table or no file is listed twice. -/
theorem fixDatafileInfox_renamed_iff (nlineAfterFile : Bool) (number suffix xlateFormat : Bytes) (updateDfNames : Bool)
    (info : Fields) (names : ∀ lp ∈ files, ∃ n, lp.senderName = some n ∧ LineList.CasekeyFree n)
    (room : (files.map oldName).dedup.length ≤ 52 * 52) :
    ∃ lines datafiles named count last,
      fixDatafileInfox nlineAfterFile number suffix xlateFormat updateDfNames info files =
        some (lines, datafiles, count) ∧
      nameDatafiles number suffix [] 0 files = some (named, count, last) ∧
      lines = printLines nlineAfterFile xlateFormat (info.findFlagValue .copies) named ++ removeLines [] named ∧
      (Renamed nlineAfterFile xlateFormat (info.findFlagValue .copies) files named
          (printLines nlineAfterFile xlateFormat (info.findFlagValue .copies) named) (removeLines [] named) count ↔
        (files.map oldName).dedup.length ≤ 26 ∧
        (files = [] ∨ 0 ≤ info.findFlagValue .copies ∧ ∀ lp ∈ files, 0 ≤ lp.findFlagValue .copies) ∧
        (LineList.CasekeyFree (number ++ suffix) ∨ (files.map oldName).Nodup)) := by
  have all : fresh [] (files.map oldName) = (files.map oldName).toFinset :=
    Finset.filter_true_of_mem fun n _ => LineList.findCasekeyStrValue_nil n
  have size : (fresh [] (files.map oldName)).card = (files.map oldName).dedup.length := by
    rw [all, List.card_toFinset]
  rcases nameDatafiles_total nameTable_nil names (by rw [size]; exact room) with ⟨named, last, run⟩
  rw [size, Nat.add_zero] at run
  rcases nameDatafiles_spec nameTable_nil names run with ⟨table, -, sent⟩
  refine ⟨_, _, named, _, last, by rw [fixDatafileInfox, run]; rfl, run, rfl, ?_⟩
  have every := fun i below => exists_named run (Nat.zero_le i) below
  have assigned : ∀ lp ∈ named, ∃ i, newTransferName number suffix i = some (newName lp) := by
    intro lp member
    have second : (files.zip named).map Prod.snd = named := List.map_snd_zip sent.length_eq.ge
    rcases List.mem_map.mp (second.symm ▸ member) with ⟨a, inside, rfl⟩
    rcases table.assigned _ _ (of_mem_zip sent inside) with ⟨i, -, new⟩
    exact ⟨i, new⟩
  have copies : files.map (·.findFlagValue .copies) = named.map (·.findFlagValue .copies) :=
    map_eq_map sent fun lp renamed sentAs => sentAs.copies.symm
  have prints : (named = [] ∨ 0 ≤ info.findFlagValue .copies ∧ ∀ lp ∈ named, 0 ≤ lp.findFlagValue .copies) ↔
      (files = [] ∨ 0 ≤ info.findFlagValue .copies ∧ ∀ lp ∈ files, 0 ≤ lp.findFlagValue .copies) := by
    have naturals : (∀ c ∈ named.map (·.findFlagValue .copies), (0 : Int) ≤ c) ↔
        ∀ c ∈ files.map (·.findFlagValue .copies), (0 : Int) ≤ c := by
      rw [copies]
    rw [List.forall_mem_map, List.forall_mem_map] at naturals
    rw [← List.length_eq_zero_iff, ← sent.length_eq, List.length_eq_zero_iff, naturals]
  have lines : ((removeLines [] named).Nodup ∧ ∀ line, line ∈ removeLines [] named ↔ ∃ lp ∈ named, line = 85 :: newName lp) ↔
      (LineList.CasekeyFree (number ++ suffix) ∨ (files.map oldName).Nodup) := by
    by_cases free : LineList.CasekeyFree (number ++ suffix)
    · refine iff_of_true ?_ (.inl free)
      have distinct : (removeLines [] named).Nodup ∧ _ := nodup_removeLines keySorted_nil fun lp member => by
        rcases assigned lp member with ⟨i, new⟩
        exact (casekeyFree_newTransferName new).mpr free
      rcases distinct with ⟨once, members⟩
      refine ⟨once, fun line => (members line).trans ?_⟩
      simp only [LineList.findCasekeyStrValue_nil, and_true]
    · have each : removeLines [] named = _ := removeLines_of_separator keySorted_nil fun lp member => by
        rcases assigned lp member with ⟨i, new⟩
        exact fun clear => free ((casekeyFree_newTransferName new).mp clear)
      have front : (named.map fun lp => 85 :: newName lp) = (named.map newName).map (85 :: ·) := by
        rw [List.map_map]
        rfl
      rw [each, or_iff_right free, ← nodup_newName_iff table sent, front,
        List.nodup_map_iff fun s t same => (List.cons.inj same).2]
      refine and_iff_left fun line => ?_
      rw [List.map_map, List.mem_map]
      exact exists_congr fun lp => and_congr_right fun _ => eq_comm
  constructor
  · intro right
    exact ⟨(foldCase_newName_iff table sent every).mp right.ignoringCase,
      prints.mp ((printLines_eq_iff nlineAfterFile xlateFormat _).mp right.printed), lines.mp ⟨right.once, right.removed⟩⟩
  · rintro ⟨few, natural, removed⟩
    rcases lines.mpr removed with ⟨once, members⟩
    exact ⟨fun a left b right => newName_eq_iff table sent left right, (foldCase_newName_iff table sent every).mpr few, rfl,
      once, members, (printLines_eq_iff nlineAfterFile xlateFormat _).mpr (prints.mpr natural)⟩

/-! ## Three files and 27 -/

def sentFile (name : Bytes) : Fields := Fields.empty.setStrValue .otransfername (some name)

/-- A file that is listed twice, and another one. -/
def threeFiles : List Fields := [sentFile (lit "dfA007h2"), sentFile (lit "dfA007h2"), sentFile (lit "dfB007h2")]

theorem threeFiles_renamed :
    ∃ lines datafiles named count last,
      fixDatafileInfox false (lit "001") (lit "h1") [] true .empty threeFiles = some (lines, datafiles, count) ∧
      nameDatafiles (lit "001") (lit "h1") [] 0 threeFiles = some (named, count, last) ∧
      lines = printLines false [] 0 named ++ removeLines [] named ∧
      Renamed false [] 0 threeFiles named (printLines false [] 0 named) (removeLines [] named) count := by
  have read : threeFiles.map Fields.senderName = [some (lit "dfA007h2"), some (lit "dfA007h2"), some (lit "dfB007h2")] ∧
      (∀ n ∈ [lit "dfA007h2", lit "dfB007h2", lit "001h1"], ∀ c ∈ n, hashValueSep.contains c = false) ∧
      (threeFiles.map oldName).dedup.length = 2 ∧ Fields.empty.findFlagValue .copies = 0 ∧
      ∀ lp ∈ threeFiles, lp.findFlagValue .copies = 0 := by
    decide
  rcases read with ⟨names, free, two, none, copies⟩
  have named : ∀ lp ∈ threeFiles, ∃ n, lp.senderName = some n ∧ LineList.CasekeyFree n := by
    intro lp member
    have name : lp.senderName ∈ threeFiles.map Fields.senderName := List.mem_map_of_mem member
    rw [names] at name
    have each : lp.senderName = some (lit "dfA007h2") ∨ lp.senderName = some (lit "dfB007h2") := by
      simpa using name
    rcases each with first | second
    · exact ⟨_, first, free _ (by simp)⟩
    · exact ⟨_, second, free _ (by simp)⟩
  have whole := fixDatafileInfox_renamed_iff false (lit "001") (lit "h1") [] true .empty named (two.trans_le (by omega))
  rw [none] at whole
  rcases whole with ⟨lines, datafiles, renamed, count, last, run, first, parts, right⟩
  refine ⟨lines, datafiles, renamed, count, last, run, first, parts, right.mpr ⟨two.trans_le (by omega), .inr ?_, .inl ?_⟩⟩
  · exact ⟨le_rfl, fun lp member => (copies lp member).ge⟩
  · exact free (lit "001h1") (by simp)

def manyFiles : List Fields := (List.range 27).map fun i => sentFile (102 :: printNat 10 i)

/-- The first of 27 files and the last one get names that differ in case only. -/
theorem manyFiles_not_renamed :
    ∃ named count last, nameDatafiles (lit "001") (lit "h1") [] 0 manyFiles = some (named, count, last) ∧
      (named.map newName)[0]? = some (lit "dfA001h1") ∧ (named.map newName)[26]? = some (lit "dfa001h1") ∧
        ∀ printed removed, ¬ Renamed false [] 0 manyFiles named printed removed count := by
  have read : (nameDatafiles (lit "001") (lit "h1") [] 0 manyFiles).map (fun result => result.1.map newName) =
        some ((List.range 27).map fun i => lit "df" ++ offsetLetters.getD i 0 :: lit "001h1") ∧
      (manyFiles.map oldName)[0]? = some (lit "f0") ∧ (manyFiles.map oldName)[26]? = some (lit "f26") := by
    decide +kernel
  rcases read with ⟨result, first, second⟩
  rcases Option.map_eq_some_iff.mp result with ⟨⟨named, count, last⟩, run, names⟩
  have left : (named.map newName)[0]? = some (lit "dfA001h1") := by
    rw [names]
    rfl
  have right : (named.map newName)[26]? = some (lit "dfa001h1") := by
    rw [names]
    rfl
  refine ⟨named, count, last, run, left, right, fun printed removed renamed => ?_⟩
  have pair : ∀ {i : Nat} {old new : Bytes}, (manyFiles.map oldName)[i]? = some old → (named.map newName)[i]? = some new →
      ∃ a ∈ manyFiles.zip named, oldName a.1 = old ∧ newName a.2 = new := by
    intro i old new before after
    rcases Option.map_eq_some_iff.mp ((List.getElem?_map ..).symm.trans before) with ⟨lp, entry, rfl⟩
    rcases Option.map_eq_some_iff.mp ((List.getElem?_map ..).symm.trans after) with ⟨lp', entry', rfl⟩
    exact ⟨(lp, lp'), List.mem_of_getElem? (List.getElem?_zip_eq_some.mpr ⟨entry, entry'⟩), rfl, rfl⟩
  rcases pair first left with ⟨a, inside, old, new⟩
  rcases pair second right with ⟨b, inside', old', new'⟩
  have folded : foldCase (newName a.2) = foldCase (newName b.2) := by
    rw [new, new']
    rfl
  have same := (renamed.ignoringCase a inside b inside').mp folded
  rw [old, old'] at same
  cases same

end DataFileNames

end LPRng
