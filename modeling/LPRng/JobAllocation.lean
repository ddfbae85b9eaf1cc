import LPRng.ScanQueue
import LPRng.TransferName

/-!
# Numbers for new jobs

`Find_non_colliding_job_number` takes the first number whose hold file is free, from the number in the name
of the control file on, around the range and back to this number. A number that is no member of the range is
never met again.
-/

namespace LPRng

namespace JobAllocation

open JobNumber TransferName

/-! ## The search -/

def holdFile (number : Bytes) : Bytes := lit "hfA" ++ number

/-- `++n; if( n > max ) n = 0;`. -/
def next (max n : Int) : Int := if max < n + 1 then 0 else n + 1

/-- The loop of `Find_non_colliding_job_number`, for some turns. Busy are the hold files that cannot be opened
or locked and the ones that are not empty. -/
def search (long : Bool) (max start : Int) (busy : Bytes → Bool) : Nat → Int → Fields → Option (Fields × Bool)
  | 0, _, _ => none
  | turns + 1, n, info =>
      let info := info.fixJobNumber long n
      let holdFile := holdFile ((info.findStrValue .number).getD [])
      if busy holdFile then
        let n := next max n
        if n = start then some (info, false) else search long max start busy turns n info
      else some (info.setStrValue .hfName (some holdFile), true)

/-- The numbers that are counted through. -/
def maxOf (longNumber : Bool) : Int := if longNumber then 1000000 else 1000

/-- `Find_non_colliding_job_number`. The second component is false for a queue that is full. -/
def findNonCollidingJobNumber (longNumber backwardsCompatible : Bool) (busy : Bytes → Bool) (turns : Nat)
    (info : Fields) : Option (Fields × Bool) :=
  let long := longNumber && !backwardsCompatible
  let info := info.fixJobNumber long 0
  let start := toInt32 (strtol 10 ((info.findStrValue .number).getD [])).1
  search long (maxOf longNumber) start busy turns start info

/-! ## What is asked of it -/

/-- A job has a number of the range that was free, and the name of a hold file that holds it and is scanned. -/
structure Allocated (long : Bool) (busy : Bytes → Bool) (info : Fields) : Prop where
  inRange : ∃ k : Nat, k < limit long ∧ info .number = some (JobNumber.fixJobNumber long k)
  named : ∃ number, info .number = some number ∧ info .hfName = some (holdFile number) ∧
    busy (holdFile number) = false ∧ JobLists.isTicketName (holdFile number) = true

/-- The number of the range is in use. -/
def InUse (long : Bool) (busy : Bytes → Bool) (n : Int) : Prop :=
  busy (holdFile (JobNumber.fixJobNumber long n)) = true

/-- The search ends, without a number only if all are in use. -/
def Allocates (longNumber backwardsCompatible : Bool) (busy : Bytes → Bool) (info : Fields) : Prop :=
  ∃ turns job found, findNonCollidingJobNumber longNumber backwardsCompatible busy turns info = some (job, found) ∧
    (found = true → Allocated (longNumber && !backwardsCompatible) busy job) ∧
    (found = false → ∀ k : Nat, k < limit (longNumber && !backwardsCompatible) →
      InUse (longNumber && !backwardsCompatible) busy k)

/-! ## One turn -/

/-- The number that is tried: for zero it is read from the job. -/
def tried (info : Fields) (n : Int) : Int := if n = 0 then info.findDecimalValue .number else n

variable {long : Bool} {max start : Int} {busy : Bytes → Bool}

theorem findStrValue_fixJobNumber (long : Bool) (info : Fields) (n : Int) :
    (info.fixJobNumber long n).findStrValue .number = some (JobNumber.fixJobNumber long (tried info n)) :=
  findStrValue_setStrValue (fixJobNumber_ne_nil long _)

theorem findDecimalValue_fixJobNumber (long : Bool) (info : Fields) (n : Int) :
    (info.fixJobNumber long n).findDecimalValue .number = (tried info n).tmod (limit long) := by
  rw [Fields.findDecimalValue, findStrValue_fixJobNumber]
  exact decimalOfText_fixJobNumber long _

theorem search_succ (turns : Nat) (n : Int) (info : Fields) :
    search long max start busy (turns + 1) n info =
      if busy (holdFile (JobNumber.fixJobNumber long (tried info n))) = true then
        if next max n = start then some (info.fixJobNumber long n, false)
        else search long max start busy turns (next max n) (info.fixJobNumber long n)
      else some ((info.fixJobNumber long n).setStrValue .hfName
        (some (holdFile (JobNumber.fixJobNumber long (tried info n)))), true) := by
  rw [search]
  dsimp only
  rw [findStrValue_fixJobNumber, Option.getD_some]

theorem search_taken {n : Int} {info : Fields} (taken : InUse long busy (tried info n)) (on : next max n ≠ start)
    (turns : Nat) : search long max start busy (turns + 1) n info =
      search long max start busy turns (next max n) (info.fixJobNumber long n) := by
  rw [search_succ, if_pos (show busy _ = true from taken), if_neg on]

/-- A number of the range is printed for every number that is not negative. -/
theorem fixJobNumber_mod (long : Bool) (m : Nat) :
    JobNumber.fixJobNumber long m = JobNumber.fixJobNumber long ((m % limit long : Nat) : Int) := by
  rw [fixJobNumber_eq, fixJobNumber_eq, ← Int.ofNat_tmod, ← Int.ofNat_tmod, Nat.mod_mod]

theorem isTicketName_holdFile {n : Int} (natural : 0 ≤ n.tmod (limit long)) :
    JobLists.isTicketName (holdFile (JobNumber.fixJobNumber long n)) = true := by
  rcases digits_fixJobNumber long natural with ⟨digits, length⟩
  have given : JobNumber.fixJobNumber long n ≠ [] := fixJobNumber_ne_nil long n
  rcases List.exists_cons_of_ne_nil given with ⟨c, cs, text⟩
  rw [text]
  exact digits c (text ▸ List.mem_cons_self)

/-- The free hold file that is found first. -/
theorem allocated {info : Fields} {n : Int} (natural : 0 ≤ tried info n)
    (free : ¬ busy (holdFile (JobNumber.fixJobNumber long (tried info n))) = true) :
    Allocated long busy ((info.fixJobNumber long n).setStrValue .hfName
      (some (holdFile (JobNumber.fixJobNumber long (tried info n))))) := by
  have number : ((info.fixJobNumber long n).setStrValue .hfName
      (some (holdFile (JobNumber.fixJobNumber long (tried info n))))) .number =
      some (JobNumber.fixJobNumber long (tried info n)) :=
    (Fields.setStrValue_of_ne (show Key.number ≠ .hfName by decide) _).trans (findStrValue_fixJobNumber long info n)
  have positive : 0 < limit long := by cases long <;> decide
  refine ⟨⟨(tried info n).toNat % limit long, Nat.mod_lt _ positive, ?_⟩, _, number,
    findStrValue_setStrValue (List.append_ne_nil_of_left_ne_nil (by decide) _), Bool.eq_false_iff.mpr free,
    isTicketName_holdFile (Int.tmod_nonneg _ natural)⟩
  rw [number, ← fixJobNumber_mod, Int.toNat_of_nonneg natural]

/-! ## From a number of the range -/

/-- The numbers that are still to be tried, at `n`. -/
def Ahead (max start n m : Int) : Prop :=
  if n < start then n ≤ m ∧ m < start else n ≤ m ∧ m ≤ max ∨ 0 ≤ m ∧ m < start

/-- How many these are. -/
def ahead (max start n : Int) : Int := if n < start then start - n else max + 1 - n + start

/-- Zero is read as zero. -/
def KeepsZero (info : Fields) (n : Int) : Prop := n = 0 → info.findDecimalValue .number = 0

theorem tried_of_keepsZero {info : Fields} {n : Int} (keeps : KeepsZero info n) : tried info n = n := by
  unfold tried
  split
  · next zero => rw [keeps zero, zero]
  · rfl

theorem keepsZero_next {info : Fields} {n : Int} (natural : 0 ≤ n) (whole : max.tmod (limit long) = 0)
    (keeps : KeepsZero info n) (below : n ≤ max) : KeepsZero (info.fixJobNumber long n) (next max n) := by
  intro zero
  rw [findDecimalValue_fixJobNumber, tried_of_keepsZero keeps]
  unfold next at zero
  split at zero
  · rw [show n = max by omega, whole]
  · omega

/-- The search goes around the range. -/
theorem search_settles (bounds : 0 ≤ start ∧ start ≤ max) (whole : max.tmod (limit long) = 0) {turns : Nat} {n : Int}
    {info : Fields} (inside : 0 ≤ n ∧ n ≤ max) (keeps : KeepsZero info n) (enough : ahead max start n ≤ turns) :
    ∃ job found, search long max start busy turns n info = some (job, found) ∧
      (found = true → Allocated long busy job) ∧
      (found = false → ∀ m, Ahead max start n m → InUse long busy m) := by
  induction turns generalizing n info with
  | zero =>
      unfold ahead at enough
      split at enough <;> omega
  | succ turns ih =>
      have number := tried_of_keepsZero keeps
      rw [search_succ]
      by_cases free : busy (holdFile (JobNumber.fixJobNumber long (tried info n))) = true
      · rw [if_pos free]
        rw [number] at free
        by_cases back : next max n = start
        · rw [if_pos back]
          refine ⟨_, false, rfl, nofun, fun _ m here => ?_⟩
          have same : m = n := by
            unfold Ahead at here
            unfold next at back
            split at here <;> split at back <;> omega
          rwa [same]
        · rw [if_neg back]
          have further : 0 ≤ next max n ∧ next max n ≤ max := by
            unfold next
            split <;> omega
          have fewer : ahead max start (next max n) ≤ turns := by
            unfold ahead at enough ⊢
            unfold next at back ⊢
            split at enough <;> split <;> split <;> omega
          rcases ih further (keepsZero_next inside.1 whole keeps inside.2) fewer with ⟨job, found, ends, good, full⟩
          refine ⟨job, found, ends, good, fun out m here => ?_⟩
          by_cases same : m = n
          · rwa [same]
          · refine full out m ?_
            unfold Ahead at here ⊢
            unfold next at back ⊢
            split at here <;> split <;> split <;> omega
      · rw [if_neg free]
        exact ⟨_, true, rfl, fun _ => allocated (inside.1.trans_eq number.symm) free, nofun⟩

/-! ## From below the range -/

/-- The search does not meet a number below the range again. -/
theorem search_finds (below : start < 0) {turns : Nat} {n : Int} {info job : Fields} {found : Bool} (reached : start ≤ n)
    (ends : search long max start busy turns n info = some (job, found)) : found = true := by
  induction turns generalizing n info with
  | zero => cases ends
  | succ turns ih =>
      have further : start < next max n := by
        unfold next
        split <;> omega
      rw [search_succ] at ends
      split at ends
      · rw [if_neg (by omega)] at ends
        exact ih (by omega) ends
      · exact (Prod.mk.inj (Option.some.inj ends)).2.symm

/-- The text of a number below the range. -/
theorem fixJobNumber_ne_of_neg {m : Int} (negative : m.tmod (limit long) < 0) (k : Nat) :
    JobNumber.fixJobNumber long m ≠ JobNumber.fixJobNumber long k := by
  intro same
  have values := congrArg decimalOfText same
  rw [decimalOfText_fixJobNumber, decimalOfText_fixJobNumber] at values
  have natural := Int.tmod_nonneg (limit long : Int) (Int.natCast_nonneg k)
  omega

theorem tmod_of_small {m : Int} (above : -(limit long : Int) < m) (negative : m < 0) : m.tmod (limit long) = m := by
  have small := Int.tmod_eq_of_lt (show 0 ≤ -m by omega) (show -m < limit long by omega)
  rw [Int.neg_tmod] at small
  exact neg_inj.mp small

/-- A number of the range is found only behind all numbers below it. -/
theorem inUse_of_allocated (bottom : -(limit long : Int) < start) (high : 0 ≤ max) {turns : Nat} {n : Int}
    {info job : Fields} (reached : start ≤ n) (negative : n < 0)
    (ends : search long max start busy turns n info = some (job, true)) (good : Allocated long busy job) :
    ∀ m, n ≤ m → m < 0 → InUse long busy m := by
  induction turns generalizing n info with
  | zero => cases ends
  | succ turns ih =>
      have number : tried info n = n := if_neg (by omega)
      rw [search_succ, number] at ends
      split at ends
      · next taken =>
          intro m from_ below
          by_cases same : m = n
          · rwa [same]
          · have step : next max n = n + 1 := if_neg (by omega)
            rw [step, if_neg (by omega)] at ends
            exact ih (by omega) (by omega) ends m (by omega) below
      · rcases good.inRange with ⟨k, -, text⟩
        have stored : job .number = some (JobNumber.fixJobNumber long n) := by
          have printed := findStrValue_fixJobNumber long info n
          rw [number] at printed
          rw [← (Prod.mk.inj (Option.some.inj ends)).1,
            Fields.setStrValue_of_ne (show Key.number ≠ .hfName by decide)]
          exact printed
        have small : n.tmod (limit long) = n := tmod_of_small (by omega) negative
        exact absurd (Option.some.inj (stored.symm.trans text)) (fixJobNumber_ne_of_neg (by omega) k)

/-- A free number ahead is found. -/
theorem search_reaches (below : start < 0) {d : Nat} {n : Int} {info : Fields} (positive : 0 < n) (inside : n + d ≤ max)
    (free : ¬ InUse long busy (n + d)) :
    ∃ turns job, search long max start busy turns n info = some (job, true) ∧ Allocated long busy job := by
  have number : ∀ (info : Fields) (n : Int), 0 < n → tried info n = n := fun _ _ positive => if_neg (by omega)
  have found : ∀ (info : Fields) (n : Int), 0 < n → ¬ InUse long busy n →
      ∃ turns job, search long max start busy turns n info = some (job, true) ∧ Allocated long busy job := by
    intro info n positive free
    have same := number info n positive
    rw [InUse, ← same] at free
    refine ⟨1, _, ?_, allocated (by omega) free⟩
    rw [search_succ, if_neg free]
  induction d generalizing n info with
  | zero => exact found info n positive (by rwa [Nat.cast_zero, add_zero] at free)
  | succ d ih =>
      by_cases taken : InUse long busy n
      · have there : n + 1 + d = n + (d + 1 : Nat) := by omega
        have step : next max n = n + 1 := if_neg (by omega)
        have further : ∃ turns job, search long max start busy turns (n + 1) (info.fixJobNumber long n) =
            some (job, true) ∧ Allocated long busy job := ih (by omega) (there ▸ inside) (there ▸ free)
        rcases further with ⟨turns, job, ends, good⟩
        refine ⟨turns + 1, job, ?_, good⟩
        rw [search_taken ((number info n positive).symm ▸ taken) (by omega), step]
        exact ends
      · exact found info n positive taken

/-- All numbers below the range are passed. At zero the last of them is tried again. -/
theorem search_passes (below : start < 0) (bottom : -(limit long : Int) < start) (high : 0 < max)
    (taken : ∀ m, start ≤ m → m < 0 → InUse long busy m) {d : Nat} {info : Fields} (reached : start ≤ -(d : Int))
    (keeps : d = 0 → info.findDecimalValue .number = -1) : ∃ info', ∀ turns,
      search long max start busy (d + 1 + turns) (-(d : Int)) info = search long max start busy turns 1 info' := by
  induction d generalizing info with
  | zero =>
      have last : tried info 0 = -1 := (if_pos rfl).trans (keeps rfl)
      have step : next max 0 = 1 := if_neg (by omega)
      refine ⟨info.fixJobNumber long 0, fun turns => ?_⟩
      rw [Nat.cast_zero, neg_zero, show 0 + 1 + turns = turns + 1 by omega,
        search_taken (last.symm ▸ taken (-1) (by omega) (by omega)) (by omega), step]
  | succ d ih =>
      have number : tried info (-((d + 1 : Nat) : Int)) = -((d + 1 : Nat) : Int) := if_neg (by omega)
      have step : next max (-((d + 1 : Nat) : Int)) = -(d : Int) := by
        rw [next, if_neg (by omega)]
        omega
      have small : (-((d + 1 : Nat) : Int)).tmod (limit long) = -((d + 1 : Nat) : Int) :=
        tmod_of_small (by omega) (by omega)
      have last : d = 0 → (info.fixJobNumber long (-((d + 1 : Nat) : Int))).findDecimalValue .number = -1 := by
        intro zero
        rw [findDecimalValue_fixJobNumber, number, small, zero]
        rfl
      rcases ih (by omega) last with ⟨info', passes⟩
      refine ⟨info', fun turns => ?_⟩
      rw [show d + 1 + 1 + turns = d + 1 + turns + 1 by omega,
        search_taken (number.symm ▸ taken _ reached (by omega)) (by omega), step]
      exact passes turns

/-! ## Numbers in names -/

theorem maxOf_spec (longNumber backwardsCompatible : Bool) :
    (limit (longNumber && !backwardsCompatible) : Int) ≤ maxOf longNumber ∧
      (maxOf longNumber).tmod (limit (longNumber && !backwardsCompatible)) = 0 := by
  cases longNumber <;> cases backwardsCompatible <;> decide

theorem tmod_bounds (long : Bool) (n : Int) :
    -(limit long : Int) < n.tmod (limit long) ∧ n.tmod (limit long) < limit long := by
  have small := (natAbs_tmod_lt long n).1
  rw [← limit_eq] at small
  omega

theorem tmod_tmod (n : Int) : (n.tmod (limit long)).tmod (limit long) = n.tmod (limit long) := by
  rw [Int.tmod_tmod_of_dvd n (Int.dvd_refl _)]

theorem findNonCollidingJobNumber_eq (longNumber backwardsCompatible : Bool) (turns : Nat) (info : Fields) :
    let long := longNumber && !backwardsCompatible
    let start := (info.findDecimalValue .number).tmod (limit long)
    findNonCollidingJobNumber longNumber backwardsCompatible busy turns info =
      search long (maxOf longNumber) start busy turns start (info.fixJobNumber long 0) := by
  intro long start
  have text := findStrValue_fixJobNumber long info 0
  rw [tried, if_pos rfl] at text
  unfold findNonCollidingJobNumber
  dsimp only
  rw [text, Option.getD_some, strtol_fixJobNumber]
  dsimp only
  rw [toInt32_number]

/-- A number is allocated from every number of the range, and from one below it where all below it are taken
and some number of the range is free. -/
theorem allocates_iff_start {longNumber backwardsCompatible : Bool} (mode : (longNumber && !backwardsCompatible) = long)
    {info : Fields} (read : (info.findDecimalValue .number).tmod (limit long) = start) :
    Allocates longNumber backwardsCompatible busy info ↔ 0 ≤ start ∨
      (∀ m, start ≤ m → m < 0 → InUse long busy m) ∧ ∃ k : Nat, k < limit long ∧ ¬ InUse long busy k := by
  rcases maxOf_spec longNumber backwardsCompatible with ⟨wide, whole⟩
  have bounds := tmod_bounds long (info.findDecimalValue .number)
  have first : (info.fixJobNumber long 0).findDecimalValue .number = start := by
    rw [findDecimalValue_fixJobNumber, tried, if_pos rfl, read]
  have runs : ∀ turns, findNonCollidingJobNumber longNumber backwardsCompatible busy turns info =
      search long (maxOf longNumber) start busy turns start (info.fixJobNumber long 0) := by
    intro turns
    rw [findNonCollidingJobNumber_eq, mode, read]
  rw [mode] at wide whole
  rw [read] at bounds
  unfold Allocates
  rw [mode]
  constructor
  · rintro ⟨turns, job, found, ends, good, -⟩
    by_cases natural : 0 ≤ start
    · exact .inl natural
    rw [runs] at ends
    obtain rfl := search_finds (by omega) (le_refl start) ends
    have allocated := good rfl
    refine .inr ⟨inUse_of_allocated bounds.1 (by omega) (le_refl start) (by omega) ends allocated, ?_⟩
    rcases allocated.inRange with ⟨k, inside, text⟩
    rcases allocated.named with ⟨number, named, -, free, -⟩
    refine ⟨k, inside, fun taken => ?_⟩
    rw [InUse, ← Option.some.inj (named.symm.trans text), free] at taken
    exact Bool.false_ne_true taken
  · intro condition
    by_cases natural : 0 ≤ start
    · have keeps : KeepsZero (info.fixJobNumber long 0) start := fun zero => first.trans zero
      have around : ∃ job found, search long (maxOf longNumber) start busy (ahead (maxOf longNumber) start start).toNat
          start (info.fixJobNumber long 0) = some (job, found) ∧ (found = true → Allocated long busy job) ∧
          (found = false → ∀ m, Ahead (maxOf longNumber) start start m → InUse long busy m) :=
        search_settles ⟨natural, by omega⟩ whole ⟨natural, by omega⟩ keeps (Int.self_le_toNat _)
      rcases around with ⟨job, found, ends, good, full⟩
      refine ⟨_, job, found, (runs _).trans ends, good, fun out k inside => full out k ?_⟩
      have below : (k : Int) < limit long := Int.ofNat_lt.mpr inside
      rw [Ahead, if_neg (lt_irrefl start)]
      omega
    · rcases condition.resolve_left natural with ⟨taken, k, inside, free⟩
      have reduced : ∃ d : Nat, 1 + (d : Int) ≤ maxOf longNumber ∧ ¬ InUse long busy (1 + d) := by
        rcases k with - | d
        · refine ⟨limit long - 1, by omega, fun used => free ?_⟩
          have same : 1 + ((limit long - 1 : Nat) : Int) = (limit long : Nat) := by omega
          rw [same, InUse, fixJobNumber_mod, Nat.mod_self] at used
          exact used
        · refine ⟨d, by omega, ?_⟩
          rwa [show 1 + (d : Int) = (d + 1 : Nat) by omega]
      rcases reduced with ⟨d, below, free⟩
      have last : start.natAbs = 0 → (info.fixJobNumber long 0).findDecimalValue .number = -1 := fun zero => by omega
      have reached : -(start.natAbs : Int) = start := by omega
      have high : 0 < maxOf longNumber := by omega
      rcases search_passes (by omega) bounds.1 high taken (le_of_eq reached.symm) last with ⟨info', passes⟩
      have reaches : ∃ turns job, search long (maxOf longNumber) start busy turns 1 info' = some (job, true) ∧
          Allocated long busy job := search_reaches (by omega) Int.one_pos below free
      rcases reaches with ⟨turns, job, ends, good⟩
      rw [reached] at passes
      exact ⟨_, job, true, (runs _).trans ((passes turns).trans ends), fun _ => good, nofun⟩

/-- The number in a name, and zero for a name that is bad in front of it. -/
def nameNumber (type : FileType) (name : Bytes) : Int :=
  if (typeError name type).isSome then 0
  else if name.getD 1 0 ≠ 65 ∧ (letterError name).isSome then 0
  else (splitNumber (name.getD 1 0 = 65) name).1

theorem storeHost_number (garbled t : Bytes) (info : Fields) : (storeHost garbled t info).1 .number = info .number := by
  unfold storeHost
  split
  · split <;> rfl
  · exact Fields.setStrValue_of_ne (show Key.number ≠ .fileHostname by decide) (some t)

theorem storeNumber_number {info : Fields} (new : info .number = none) (long hpformat : Bool) (garbled name : Bytes) :
    (storeNumber long hpformat garbled name info).1.findDecimalValue .number =
      ((splitNumber hpformat name).1).tmod (limit long) := by
  have stored : (storeNumber long hpformat garbled name info).1 .number =
      (info.fixJobNumber long (splitNumber hpformat name).1) .number := by
    unfold storeNumber
    dsimp only
    rw [Fields.findStrValue, new]
    exact storeHost_number ..
  have number : tried info (splitNumber hpformat name).1 = (splitNumber hpformat name).1 := by
    refine tried_of_keepsZero fun _ => ?_
    rw [Fields.findDecimalValue, Fields.findStrValue, new]
  have read := findDecimalValue_fixJobNumber long info (splitNumber hpformat name).1
  rw [number] at read
  rw [← read, Fields.findDecimalValue, Fields.findStrValue, stored]
  rfl

/-- The message on a wrong name and the flag for the HP format are no job number. -/
theorem number_of_message {receiver : Fields} (hp : Prop) [Decidable hp] (msg : Option Bytes) :
    (match msg with
      | some msg => ((if hp then receiver.setFlagValue .hpformat 1 else receiver).setStrValue .formatError (some msg), true)
      | none => (if hp then receiver.setFlagValue .hpformat 1 else receiver, false)).1 .number = receiver .number := by
  have apart : Key.number ≠ .formatError ∧ Key.number ≠ .hpformat := by decide
  have flagged : (if hp then receiver.setFlagValue .hpformat 1 else receiver) .number = receiver .number := by
    split
    · exact Function.update_of_ne apart.2 ..
    · rfl
  split
  · next msg => exact (Fields.setStrValue_of_ne apart.1 (some msg)).trans flagged
  · exact flagged

/-- What `Check_format` leaves of a name. -/
theorem checkFormat_number {receiver : Fields} (new : receiver .number = none) (long : Bool) (garbled : Bytes)
    (type : FileType) (name : Bytes) :
    (checkFormat long garbled type name receiver).1.findDecimalValue .number = (nameNumber type name).tmod (limit long) := by
  have same : ∀ {a b : Fields}, a .number = b .number → a.findDecimalValue .number = b.findDecimalValue .number := by
    intro a b kept
    rw [Fields.findDecimalValue, Fields.findStrValue, kept]
    rfl
  have zero : receiver.findDecimalValue .number = (0 : Int).tmod (limit long) := by
    rw [Fields.findDecimalValue, Fields.findStrValue, new, Int.zero_tmod]
  have apart : Key.number ≠ .formatError ∧ Key.number ≠ .priority := by decide
  rcases apart with ⟨notError, notPriority⟩
  have prior : (if type = FileType.controlFile then
      receiver.setStrValue .priority (some [if name.getD 1 0 = 65 then 65 else name.getD 2 0]) else receiver) .number =
      none := by
    split
    · exact (Fields.setStrValue_of_ne notPriority _).trans new
    · exact new
  unfold checkFormat nameNumber
  rcases typeError name type with - | msg
  · refine (same (number_of_message (name.getD 1 0 = 65) _)).trans ?_
    have passed : ¬ (none : Option Bytes).isSome = true := Bool.false_ne_true
    rw [if_neg passed]
    generalize (if type = FileType.controlFile then
      receiver.setStrValue .priority (some [if name.getD 1 0 = 65 then 65 else name.getD 2 0]) else receiver) = info at prior ⊢
    by_cases hp : name.getD 1 0 = 65
    · rw [if_pos hp, if_neg (not_and.mpr fun other => absurd hp other)]
      exact storeNumber_number prior ..
    · rw [if_neg hp]
      rcases letterError name with - | msg
      · rw [if_neg (not_and.mpr fun _ => passed)]
        exact storeNumber_number prior ..
      · rw [if_pos ⟨hp, rfl⟩]
        exact zero
  · exact (same (Fields.setStrValue_of_ne notError _)).trans zero

/-- A number is allocated exactly if the one in the name is not negative, or all from it up to zero are in use
and a number of the range is not. -/
theorem checkFormat_allocates_iff (longNumber backwardsCompatible : Bool) (busy : Bytes → Bool) (garbled : Bytes)
    (type : FileType) (name : Bytes) {receiver : Fields} (new : receiver .number = none) :
    let long := longNumber && !backwardsCompatible
    let start := (nameNumber type name).tmod (limit long)
    Allocates longNumber backwardsCompatible busy (checkFormat long garbled type name receiver).1 ↔ 0 ≤ start ∨
      (∀ m, start ≤ m → m < 0 → InUse long busy m) ∧ ∃ k : Nat, k < limit long ∧ ¬ InUse long busy k := by
  intro long start
  have same : ((checkFormat long garbled type name receiver).1.findDecimalValue .number).tmod (limit long) = start := by
    rw [checkFormat_number new, tmod_tmod]
  exact allocates_iff_start rfl same

theorem five_allocated :
    Allocates false false (fun _ => false) (checkFormat false [] .controlFile (lit "cfA005h1") .empty).1 :=
  (checkFormat_allocates_iff false false _ [] .controlFile (lit "cfA005h1") rfl).mpr (.inl (by decide))

/-- The number in a name of the HP format may have a sign. -/
theorem signed_not_allocated :
    ¬ Allocates false false (fun _ => false) (checkFormat false [] .controlFile (lit "cA-05h1") .empty).1 := by
  have number : ((checkFormat false [] .controlFile (lit "cA-05h1") .empty).1.findDecimalValue .number).tmod
      (limit false) = -5 := by
    rw [checkFormat_number rfl, tmod_tmod]
    decide
  intro allocates
  rcases (allocates_iff_start rfl number).mp allocates with natural | ⟨taken, -⟩
  · exact absurd natural (by decide)
  · cases taken (-5) le_rfl (by decide)

end JobAllocation

end LPRng
