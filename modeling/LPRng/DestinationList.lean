import LPRng.EscapedLines
import LPRng.Job

/-!
# Destination lists

A job that goes to several printers has a list of fields for each. `Update_destination` puts the list
that is unpacked into one field of the job, its lines joined and escaped, and `Get_destination`
unpacks it again.
-/

namespace LPRng

open SecureHeader

/-! ## Jobs with their destinations -/

def destinationKey : Bytes := lit "destination"

/-- The lines of a job and of the destination that is unpacked. -/
structure DestJob where
  info : LineList
  destination : LineList

namespace DestJob

def updateDestination (job : DestJob) : DestJob :=
  let id := job.destination.findFlagValue destinationKey
  let s := job.destination.joinLineList [10]
  { job with info := job.info.setStrValue (destName id) (s.bind (escape · 1)) }

/-- The second component is false where there is no such field. -/
def getDestination (job : DestJob) (n : Int) : DestJob × Bool :=
  match job.info.findStrValue (destName n) with
  | some s => ({ job with destination := split [] (unescape s) lineEnds true optionValueSep true true true }, true)
  | none => ({ job with destination := [] }, false)

end DestJob

/-! ## Names of destinations -/

theorem printNat_injective {m n : Nat} (same : printNat 10 m = printNat 10 n) : m = n := by
  have read := fun n => scanNat_printNat (b := 10) (by decide) (by decide) n (stopsDigits_nil 10)
  have left := read m
  rw [same, read n] at left
  exact (Prod.ext_iff.mp left).1.symm

theorem minus_notMem_printNat (n : Nat) : (45 : UInt8) ∉ printNat 10 n := fun member =>
  absurd (isDigit_of_mem_printNat member) (by decide)

theorem printInt_injective {i j : Int} (same : printInt i = printInt j) : i = j := by
  unfold printInt at same
  split at same
  · split at same
    · have size := printNat_injective (List.cons.inj same).2
      omega
    · exact absurd (same ▸ List.mem_cons_self) (minus_notMem_printNat j.natAbs)
  · split at same
    · exact absurd (same.symm ▸ List.mem_cons_self) (minus_notMem_printNat i.natAbs)
    · have size := printNat_injective same
      omega

/-- Numbers have no letters, whose case could be ignored. -/
theorem foldCase_printInt (k : Int) : foldCase (printInt k) = (printInt k).map UInt8.toNat := by
  refine List.map_congr_left fun c member => congrArg UInt8.toNat ?_
  rcases digit_of_mem_printInt member with digit | minus
  · have table : ∀ c, (!isDigit c || toLower c == c) = true := forall_byte (by decide +kernel)
    have row := table c
    rw [digit] at row
    simpa using row
  · rw [minus]
    rfl

theorem destName_foldCase_injective {i j : Int} (same : foldCase (destName i) = foldCase (destName j)) :
    i = j := by
  have split : ∀ k, foldCase (destName k) = foldCase (lit "DEST") ++ foldCase (printInt k) := fun k =>
    List.map_append
  rw [split, split] at same
  have texts := List.append_cancel_left same
  rw [foldCase_printInt, foldCase_printInt] at texts
  exact printInt_injective (List.map_injective_iff.mpr (fun _ _ => UInt8.toNat_inj.mp) texts)

theorem sepFree_destName (k : Int) : SepFree (destName k) := by
  intro c member
  rcases List.mem_append.mp member with letter | number
  · have word : (lit "DEST").all isWordChar = true := rfl
    exact sepFree_of_word (List.all_eq_true.mp word) c letter
  · rcases digit_of_mem_printInt number with digit | minus
    · have word : isWordChar c = true := by
        rw [isWordChar, isAlnum, digit, Bool.or_true, Bool.true_or]
      exact (isWordChar_spec word).2.2.1
    · rw [minus]
      decide

/-! ## Unpacking -/

/-- The field that the destination is packed into. -/
theorem updateDestination_info {info lines : LineList} (keyed : info.Keyed) (shown : ∀ line ∈ lines, line ≠ [])
    (clean : ∀ line ∈ lines, 0 ∉ line) (nonempty : lines ≠ []) :
    ∃ text, unescape text = lines.flatMap (· ++ [10]) ∧
      (DestJob.mk info lines).updateDestination.info =
        insertKey lineKey (destName (lines.findFlagValue destinationKey) ++ 61 :: text) info := by
  have joined : lines.joinLineList [10] = some (lines.flatMap (· ++ [10])) := joinLineList_of_shown shown nonempty
  have escaped : escape (lines.flatMap (· ++ [10])) 1 = some _ := if_neg (joined_ne_nil nonempty)
  refine ⟨_, unescape_escape (noNul_joined clean) escaped, ?_⟩
  simp only [DestJob.updateDestination, joined, Option.bind_some, escaped]
  rw [keyed.setStrValue (sepFree_destName _), Option.filter_some, if_pos (decide_eq_true (escape_ne_nil escaped))]

variable {info : LineList} {k : Int}

/-- A destination that is packed into its field is unpacked as it was, and the other fields of the
job stay, among them the other destinations. -/
theorem getDestination_updateDestination (keyed : info.Keyed) (list : PairList)
    (nonempty : list.lines ≠ []) (numbered : list.lines.findFlagValue destinationKey = k) :
    let job : DestJob := ⟨info, list.lines⟩
    let updated := job.updateDestination
    updated.getDestination k = ({ updated with destination := list.lines }, true) ∧
      (∀ j, j ≠ k →
        (updated.getDestination j).1.destination = (job.getDestination j).1.destination ∧
          (updated.getDestination j).2 = (job.getDestination j).2) ∧
      (∀ key, foldCase key ≠ foldCase (destName k) →
        updated.info.findStrValue key = info.findStrValue key) ∧
      updated.info.filter (lineKey · ≠ foldCase (destName k)) =
        info.filter (lineKey · ≠ foldCase (destName k)) := by
  intro job updated
  rcases updateDestination_info keyed (fun line member => (list.pairs line member).wordLine.ne_nil)
    (fun line member nul => ((list.pairs line member).clean 0 nul).1 rfl) nonempty with ⟨text, read, stored⟩
  rw [numbered] at stored
  have packed : updated.info = insertKey lineKey (destName k ++ 61 :: text) info := stored
  have named : lineKey (destName k ++ 61 :: text) = foldCase (destName k) :=
    lineKey_keyValue (sepFree_destName k) text
  have found : ∀ key, updated.info.findStrValue key =
      if foldCase key = foldCase (destName k) then some text else info.findStrValue key := by
    intro key
    rw [packed, keyed.findStrValue_insert (clear_keyValue (sepFree_destName k) text), named,
      valueOf_keyValue (sepFree_destName k)]
  have others : ∀ key, foldCase key ≠ foldCase (destName k) →
      updated.info.findStrValue key = info.findStrValue key := by
    intro key other
    rw [found key, if_neg other]
  refine ⟨?_, ?_, others, ?_⟩
  · rw [DestJob.getDestination, found, if_pos rfl]
    simp only [read, list.split_lines isSeparator_optionValueSep]
  · intro j other
    have same := others (destName j) fun same => other (destName_foldCase_injective same)
    simp only [DestJob.getDestination, same, job]
    cases info.findStrValue (destName j) with
    | none => exact ⟨rfl, rfl⟩
    | some s => exact ⟨rfl, rfl⟩
  · rw [packed]
    refine keyed.sorted.filter_insertKey fun line same => ?_
    rw [same, named]
    simp

/-- The lines of the second destination of a job, with a name that is full of special characters. -/
def secondLines : LineList := [lit "dest=50%?+1 a@b", lit "destination=0x1"]

/-- The lines of a job with two destinations. -/
def twoPrintersInfo : LineList := [lit "DEST0=dest%3dlp%0a", lit "DEST1=dest%3dlp%0a", lit "number=23"]

theorem twoPrinters_spec :
    (secondLines.Pairwise (fun a b => lineKey a < lineKey b) ∧ ∀ line ∈ secondLines, Clear line) ∧
      (twoPrintersInfo.Pairwise (fun a b => lineKey a < lineKey b) ∧ ∀ line ∈ twoPrintersInfo, Clear line) ∧
      CleanValue (lit "50%?+1 a@b") ∧ CleanValue (lit "0x1") ∧
      secondLines.findFlagValue destinationKey = 1 := by
  decide +kernel

def secondPrinter : PairList where
  lines := secondLines
  keyed := ⟨twoPrinters_spec.1.1, twoPrinters_spec.1.2⟩
  pairs := by
    have dest : (lit "dest").all isWordChar = true := rfl
    have destination : (lit "destination").all isWordChar = true := rfl
    intro line member
    rcases List.mem_cons.mp member with rfl | last
    · exact ⟨lit "dest", lit "50%?+1 a@b", rfl, List.all_eq_true.mp dest, twoPrinters_spec.2.2.1⟩
    · rw [List.mem_singleton.mp last]
      exact ⟨lit "destination", lit "0x1", rfl, List.all_eq_true.mp destination, twoPrinters_spec.2.2.2.1⟩

/-- The job that the destination belongs to. -/
def twoPrinters : DestJob := ⟨twoPrintersInfo, secondPrinter.lines⟩

theorem secondPrinter_unpacked :
    twoPrinters.updateDestination.getDestination 1 = (twoPrinters.updateDestination, true) ∧
      (twoPrinters.updateDestination.getDestination 0).1.destination = (twoPrinters.getDestination 0).1.destination :=
  have keyed : twoPrinters.info.Keyed := ⟨twoPrinters_spec.2.1.1, twoPrinters_spec.2.1.2⟩
  have packed := getDestination_updateDestination keyed secondPrinter nofun twoPrinters_spec.2.2.2.2
  ⟨packed.1, (packed.2.1 0 (by decide)).1⟩

end LPRng
