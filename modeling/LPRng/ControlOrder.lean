import LPRng.ControlText

/-!
# The order of the lines in a control file

`Fix_control` sorts the options of a job by their places in an order of letters, where a `*` stands for
all other letters. `ordercomp` has the place of the `*`, and takes the end of the order instead.
-/

namespace LPRng

namespace ControlOrder

variable {config : ControlConfig} {options : Fields} {order : Bytes}

/-! ## Places -/

/-- The place of a line, if `ordercomp` has one. -/
def comparedPlace (order : Bytes) : Bytes → Option Nat
  | [] => some order.length
  | c :: _ =>
      if order.contains c then some (order.idxOf c)
      else if order.contains 42 then some order.length
      else none

def ordercomp (order left right : Bytes) : Option Int := do
  let lpos ← comparedPlace order left
  let rpos ← comparedPlace order right
  return (lpos : Int) - rpos

/-- The place that the order has for a letter: its own, or that of the `*`. -/
def placeIn (order : Bytes) (c : UInt8) : Nat :=
  if order.contains c then order.idxOf c else order.idxOf 42

/-- An option that is in the order, or that the `*` stands for. -/
def Permitted (order : Bytes) (c : UInt8) : Prop := c ∈ order ∨ 42 ∈ order

instance (order : Bytes) : DecidablePred (Permitted order) := fun c =>
  inferInstanceAs (Decidable (c ∈ order ∨ 42 ∈ order))

/-- Lines with permitted options are compared by the places they are sorted by. -/
theorem ordercomp_of_permitted {c d : UInt8} (left : Permitted order c) (right : Permitted order d) (s t : Bytes) :
    ordercomp order (c :: s) (d :: t) = some ((orderPlace order c : Int) - orderPlace order d) := by
  have place : ∀ {c : UInt8} (s : Bytes), Permitted order c → comparedPlace order (c :: s) = some (orderPlace order c) := by
    intro c s permitted
    unfold comparedPlace orderPlace
    by_cases listed : c ∈ order
    · simp [listed]
    · simp [listed, permitted.resolve_left listed]
  rw [ordercomp, place s left, place t right]
  rfl

/-! ## Options and their lines -/

/-- A value as it is sent. -/
def cutValue (config : ControlConfig) (c : UInt8) (value : Bytes) : Bytes :=
  let len := if config.backwardsCompatible then ((maxclen.lookup c).getD 0) else 0
  if len ≠ 0 ∧ len < value.length + 1 then value.take (len - 1) else value

theorem optionLine_eq (c : UInt8) (value : Bytes) :
    config.optionLine c value = if Permitted config.order c then some (c :: cutValue config c value) else none := by
  unfold ControlConfig.optionLine cutValue
  by_cases permitted : c ∈ config.order ∨ 42 ∈ config.order
  · rw [if_pos (permitted.imp List.contains_iff_mem.mpr List.contains_iff_mem.mpr)]
    exact (if_pos permitted).symm
  · rw [if_neg fun listed => permitted (listed.imp List.contains_iff_mem.mp List.contains_iff_mem.mp)]
    exact (if_neg permitted).symm

/-- The options of a job before those of a destination replace them. -/
def jobOptions (config : ControlConfig) (timeStr : Bytes) (start info : Fields) (destination : Option Fields) : Fields :=
  let options := (config.options start).setStrValue .identifier (identifierLine info destination)
  let options :=
    if (options.findStrValue .date).isSome then options else options.setStrValue .date (some timeStr)
  if (config.useQueuename || config.forceQueuename.isSome) && (options.findStrValue .queuename).isNone then
    options.setStrValue .queuename ((config.forceQueuename.or config.queueName).or config.printer)
  else options

theorem header_eq (timeStr : Bytes) (start info : Fields) (destination : Option Fields) :
    config.header timeStr start info destination =
      config.optionLines (routeOptions (destination.getD .empty) (jobOptions config timeStr start info destination)) := rfl

/-- The value that is sent for a letter, if one is: that of the destination, or else that of the job. -/
def sentValue (config : ControlConfig) (job destination : Fields) (c : UInt8) : Option Bytes :=
  if Permitted config.order c then ((destination (.letter c)).or (job (.letter c))).filter (· ≠ []) else none

/-- Each permitted option has one line, with the value of the destination if that has one, and the lines
come in the order of the letters. -/
structure InOrder (config : ControlConfig) (job destination : Fields) (lines : List Bytes) : Prop where
  letters : ∀ line ∈ lines, ∃ c, isUpper c = true ∧ line.head? = some c
  once : ∀ c, isUpper c = true → lines.filter (·.head? = some c) =
    ((sentValue config job destination c).map fun value => c :: cutValue config c value).toList
  order : lines.Pairwise fun s t => placeIn config.order (s.headD 0) ≤ placeIn config.order (t.headD 0)

/-! ## Lines that are sorted -/

theorem isUpper_iff_mem (c : UInt8) : isUpper c = true ↔ c ∈ upperLetters := by
  have table : ∀ c, (isUpper c == upperLetters.contains c) = true := forall_byte (by decide +kernel)
  rw [eq_of_beq (table c), List.contains_iff_mem]

theorem nodup_upperLetters : upperLetters.Nodup := by decide

/-- Of lines that begin with their letters, those with one letter are the line made for it. -/
theorem filter_filterMap_head {letters : List UInt8} {f : UInt8 → Option Bytes} (distinct : letters.Nodup)
    (heads : ∀ c line, f c = some line → line.head? = some c) (c : UInt8) :
    (letters.filterMap f).filter (·.head? = some c) = if c ∈ letters then (f c).toList else [] := by
  induction letters with
  | nil => rfl
  | cons d letters ih =>
      rcases List.nodup_cons.mp distinct with ⟨apart, rest⟩
      have others := ih rest
      by_cases same : c = d
      · rw [if_neg (same ▸ apart)] at others
        rw [if_pos (same ▸ List.mem_cons_self), List.filterMap_cons]
        rcases made : f d with _ | line
        · rw [same, made]
          exact same ▸ others
        · have head := heads d line made
          rw [same, made]
          rw [same] at others
          simp [head, others]
      · have member : c ∈ d :: letters ↔ c ∈ letters := by simp [same]
        rw [List.filterMap_cons]
        simp only [member]
        rcases made : f d with _ | line
        · exact others
        · have head := heads d line made
          have different : ¬ d = c := fun equal => same equal.symm
          simp [head, different, others]

variable {job destination : Fields} {c d : UInt8}

/-- The line of a letter, if it has one. -/
def sentLine (config : ControlConfig) (job destination : Fields) (c : UInt8) : Option Bytes :=
  (sentValue config job destination c).map fun value => c :: cutValue config c value

theorem head_sentLine {line : Bytes} (sent : sentLine config job destination c = some line) : line.head? = some c := by
  rcases Option.map_eq_some_iff.mp sent with ⟨value, -, rfl⟩
  rfl

theorem routeOptions_line (given : job (.letter c) ≠ some []) (upper : isUpper c = true) :
    (routeOptions destination job (.letter c)).bind (config.optionLine c) = sentLine config job destination c := by
  have routed : routeOptions destination job (.letter c) =
      ((destination (.letter c)).or (job (.letter c))).filter (· ≠ []) := by
    unfold routeOptions
    dsimp only
    rcases destination (.letter c) with _ | value
    · rw [Option.none_or]
      rcases own : job (.letter c) with _ | value
      · rfl
      · have shown : value ≠ [] := fun empty => given (empty ▸ own)
        rw [Option.filter_some, if_pos (decide_eq_true shown)]
    · exact if_pos upper
  rw [routed]
  unfold sentLine sentValue
  rcases ((destination (.letter c)).or (job (.letter c))).filter (· ≠ []) with _ | value
  · rw [ite_self]
    rfl
  · rw [Option.bind_some, optionLine_eq]
    split <;> rfl

/-- The lines are those of the letters, sorted by their places. -/
theorem optionLines_spec (given : ∀ c, job (.letter c) ≠ some []) :
    (config.optionLines (routeOptions destination job)).Perm (upperLetters.filterMap (sentLine config job destination)) ∧
      (config.optionLines (routeOptions destination job)).Pairwise fun s t =>
        orderPlace config.order (s.headD 0) ≤ orderPlace config.order (t.headD 0) := by
  have same : upperLetters.filterMap (fun c => (routeOptions destination job (.letter c)).bind (config.optionLine c)) =
      upperLetters.filterMap (sentLine config job destination) :=
    List.filterMap_congr fun c member => routeOptions_line (given c) ((isUpper_iff_mem c).mpr member)
  unfold ControlConfig.optionLines
  rw [same]
  refine ⟨List.mergeSort_perm _ _, ?_⟩
  have transitive : ∀ a b c : Bytes, decide (orderPlace config.order (a.headD 0) ≤ orderPlace config.order (b.headD 0)) →
      decide (orderPlace config.order (b.headD 0) ≤ orderPlace config.order (c.headD 0)) →
      decide (orderPlace config.order (a.headD 0) ≤ orderPlace config.order (c.headD 0)) := fun a b c first second =>
    decide_eq_true ((of_decide_eq_true first).trans (of_decide_eq_true second))
  have sorted := List.pairwise_mergeSort transitive (fun a b => by simpa using Nat.le_total _ _)
    (upperLetters.filterMap (sentLine config job destination))
  exact sorted.imp of_decide_eq_true

/-- The letters of the options that are sent. -/
def Sent (config : ControlConfig) (job destination : Fields) (c : UInt8) : Prop :=
  isUpper c = true ∧ (sentValue config job destination c).isSome = true

theorem mem_optionLines_iff (given : ∀ c, job (.letter c) ≠ some []) {line : Bytes} :
    line ∈ config.optionLines (routeOptions destination job) ↔
      ∃ c, isUpper c = true ∧ sentLine config job destination c = some line := by
  rw [(optionLines_spec given).1.mem_iff, List.mem_filterMap]
  exact exists_congr fun c => and_congr_left fun _ => (isUpper_iff_mem c).symm

/-- A letter that is not in the order comes behind all that are. -/
theorem places (listed : d ∈ order) : orderPlace order d = placeIn order d ∧ orderPlace order d < order.length := by
  have member : order.contains d = true := List.contains_iff_mem.mpr listed
  rw [orderPlace, placeIn, if_pos member, if_pos member]
  exact ⟨rfl, List.idxOf_lt_length_of_mem listed⟩

theorem places_other (unlisted : c ∉ order) : orderPlace order c = order.length ∧ placeIn order c = order.idxOf 42 := by
  have absent : ¬ order.contains c = true := fun member => unlisted (List.contains_iff_mem.mp member)
  rw [orderPlace, placeIn, if_neg absent, if_neg absent]
  exact ⟨rfl, rfl⟩

theorem optionLines_inOrder_iff (given : ∀ c, job (.letter c) ≠ some []) :
    InOrder config job destination (config.optionLines (routeOptions destination job)) ↔
      ∀ c d, Sent config job destination c → Sent config job destination d → c ∉ config.order → d ∈ config.order →
        config.order.idxOf d < config.order.idxOf 42 := by
  have spec : _ ∧ (config.optionLines (routeOptions destination job)).Pairwise _ := optionLines_spec given
  rcases spec with ⟨perm, sorted⟩
  constructor
  · intro right c d first second unlisted listed
    rcases Option.isSome_iff_exists.mp first.2 with ⟨value, sent⟩
    rcases Option.isSome_iff_exists.mp second.2 with ⟨value', sent'⟩
    have line : c :: cutValue config c value ∈ config.optionLines (routeOptions destination job) :=
      (mem_optionLines_iff given).mpr ⟨c, first.1, congrArg (Option.map _) sent⟩
    have line' : d :: cutValue config d value' ∈ config.optionLines (routeOptions destination job) :=
      (mem_optionLines_iff given).mpr ⟨d, second.1, congrArg (Option.map _) sent'⟩
    rcases List.getElem_of_mem line with ⟨i, inside, entry⟩
    rcases List.getElem_of_mem line' with ⟨j, inside', entry'⟩
    have wild : 42 ∈ config.order := by
      unfold sentValue at sent
      split at sent
      · next permitted => exact permitted.resolve_left unlisted
      · cases sent
    have apart : config.order.idxOf d ≠ config.order.idxOf 42 := by
      intro same
      have star : d = 42 := (List.idxOf_inj listed).mp same
      exact absurd (star ▸ second.1) (by decide)
    rcases lt_trichotomy i j with less | rfl | greater
    · have below := List.pairwise_iff_getElem.mp sorted i j inside inside' less
      rw [entry, entry', List.headD_cons, List.headD_cons, (places_other unlisted).1] at below
      exact absurd (places listed).2 below.not_gt
    · rw [entry] at entry'
      exact absurd ((List.cons.inj entry').1 ▸ listed) unlisted
    · have placed := List.pairwise_iff_getElem.mp right.order j i inside' inside greater
      rw [entry, entry', List.headD_cons, List.headD_cons, (places_other unlisted).2, ← (places listed).1, orderPlace,
        if_pos (List.contains_iff_mem.mpr listed)] at placed
      omega
  · intro before
    refine ⟨fun line member => ?_, fun c upper => ?_, sorted.imp_of_mem fun {s t} left right below => ?_⟩
    · rcases (mem_optionLines_iff given).mp member with ⟨c, upper, sent⟩
      exact ⟨c, upper, head_sentLine sent⟩
    · have lines := filter_filterMap_head nodup_upperLetters (f := sentLine config job destination)
        (fun c line => head_sentLine) c
      rw [if_pos ((isUpper_iff_mem c).mp upper)] at lines
      have same := perm.filter (·.head? = some c)
      rw [lines] at same
      change _ = (sentLine config job destination c).toList
      rcases made : sentLine config job destination c with _ | line
      · rw [made] at same
        exact same.eq_nil
      · rw [made] at same
        exact same.eq_singleton
    · have letter : ∀ {line : Bytes}, line ∈ config.optionLines (routeOptions destination job) →
          ∃ c, Sent config job destination c ∧ line.headD 0 = c := by
        intro line member
        rcases (mem_optionLines_iff given).mp member with ⟨c, upper, sent⟩
        rcases Option.map_eq_some_iff.mp sent with ⟨value, found, rfl⟩
        exact ⟨c, ⟨upper, Option.isSome_of_mem found⟩, rfl⟩
      rcases letter left with ⟨c, first, head⟩
      rcases letter right with ⟨d, second, head'⟩
      rw [head, head'] at below ⊢
      by_cases listed : c ∈ config.order
      · by_cases listed' : d ∈ config.order
        · rw [← (places listed).1, ← (places listed').1]
          exact below
        · have place := (places listed).1
          rw [orderPlace, if_pos (List.contains_iff_mem.mpr listed)] at place
          rw [← place, (places_other listed').2]
          exact (before d c second first listed' listed).le
      · by_cases listed' : d ∈ config.order
        · rw [(places_other listed).1] at below
          exact absurd (places listed').2 below.not_gt
        · rw [(places_other listed).2, (places_other listed').2]

theorem setStrValue_ne_nil {l : Fields} (given : ∀ c, l (.letter c) ≠ some []) (key : Key) (value : Option Bytes) (c : UInt8) :
    l.setStrValue key value (.letter c) ≠ some [] := by
  intro empty
  rw [Fields.setStrValue] at empty
  by_cases same : (.letter c : Key) = key
  · rw [same, Function.update_self] at empty
    have shown := of_decide_eq_true (Option.filter_eq_some_iff.mp empty).2
    exact shown rfl
  · rw [Function.update_of_ne same] at empty
    exact given c empty

theorem ite_ne_nil {l m : Fields} (left : ∀ c, l (.letter c) ≠ some []) (right : ∀ c, m (.letter c) ≠ some []) (p : Prop)
    [Decidable p] (c : UInt8) : (if p then l else m) (.letter c) ≠ some [] := by
  split
  · exact left c
  · exact right c

/-- The options of a job have values. -/
theorem jobOptions_ne_nil (timeStr : Bytes) (start info : Fields) (destination : Option Fields) (c : UInt8) :
    jobOptions config timeStr start info destination (.letter c) ≠ some [] := by
  have options : ∀ c, config.options start (.letter c) ≠ some [] := by
    intro c empty
    unfold ControlConfig.options at empty
    dsimp only at empty
    split at empty
    · exact of_decide_eq_true (Option.filter_eq_some_iff.mp empty).2 rfl
    · cases empty
  have first := setStrValue_ne_nil options .identifier (identifierLine info destination)
  have second := ite_ne_nil first (setStrValue_ne_nil first .date (some timeStr))
  exact ite_ne_nil (setStrValue_ne_nil (second _) _ _) (second _) _ c

/-- The option lines that `Fix_control` writes are in order exactly if no option that the order does not name
is sent with one that stands behind the `*`. -/
theorem fixControl_inOrder_iff (config : ControlConfig) (timeStr : Bytes) (ticket : Ticket) (destination : Option Fields)
    (xlateFormat : Bytes) (updateDfNames : Bool) {sent : Ticket}
    (ran : config.fixControl timeStr ticket destination xlateFormat updateDfNames = some sent) :
    let info := config.fixInfo ticket.info destination
    let job := jobOptions config timeStr ticket.info info destination
    let routed := destination.getD .empty
    let lines := config.header timeStr ticket.info info destination
    (∃ dataLines, sent.info .cfOutImage = (some (textOf (lines ++ dataLines))).filter (· ≠ [])) ∧
      (InOrder config job routed lines ↔
        ∀ c d, Sent config job routed c → Sent config job routed d → c ∉ config.order → d ∈ config.order →
          config.order.idxOf d < config.order.idxOf 42) := by
  intro info job routed lines
  refine ⟨?_, ?_⟩
  · rcases Option.bind_eq_some_iff.mp ran with ⟨⟨dataLines, datafiles, count⟩, -, result⟩
    refine ⟨dataLines, ?_⟩
    rw [← Option.some.inj result]
    dsimp only
    rw [Fields.setStrValue_self]
  · have parts : lines = config.optionLines (routeOptions routed job) := header_eq timeStr ticket.info info destination
    rw [parts]
    exact optionLines_inOrder_iff (jobOptions_ne_nil timeStr ticket.info info destination)

/-! ## A job with two options -/

/-- A configuration that only has an order. -/
def withOrder (order : Bytes) : ControlConfig where
  nlineAfterFile := false
  backwardsCompatible := false
  longNumber := false
  useShorthost := false
  suppressHeader := false
  alwaysBanner := false
  useQueuename := false
  forceQueuename := none
  queueName := none
  printer := none
  controlFileLineOrder := some order
  defaultPriority := none
  fqdnHost := lit "h1"

def classedInfo : Fields := (Fields.empty.setStrValue (.letter 67) (some (lit "B"))).setStrValue .identifier (some (lit "x+1"))

def classedJob : Ticket := ⟨classedInfo, fun _ => none, []⟩

theorem star_last_inOrder :
    let config := withOrder (lit "CA*")
    let info := config.fixInfo classedInfo none
    InOrder config (jobOptions config (lit "now") classedInfo info none) .empty
      (config.header (lit "now") classedInfo info none) := by
  intro config info
  have ran : ∃ sent, config.fixControl (lit "now") classedJob none [] false = some sent := ⟨_, rfl⟩
  rcases ran with ⟨sent, ran⟩
  refine (fixControl_inOrder_iff config (lit "now") classedJob none [] false ran).2.mpr fun c d _ second _ listed => ?_
  have places : ∀ d ∈ lit "CA*", isUpper d = true → (lit "CA*").idxOf d < (lit "CA*").idxOf 42 := by decide
  exact places d listed second.1

/-- The date, which the order does not name, comes behind the options that it puts behind the `*`. -/
theorem star_first_not_inOrder :
    let config := withOrder (lit "*CA")
    let info := config.fixInfo classedInfo none
    ¬ InOrder config (jobOptions config (lit "now") classedInfo info none) .empty
      (config.header (lit "now") classedInfo info none) := by
  intro config info right
  rw [header_eq] at right
  have before := (optionLines_inOrder_iff (jobOptions_ne_nil (lit "now") classedInfo info none)).mp right 68 67
  have sent : (isUpper 68 = true ∧ (sentValue config (jobOptions config (lit "now") classedInfo info none) .empty 68).isSome = true) ∧
      (isUpper 67 = true ∧ (sentValue config (jobOptions config (lit "now") classedInfo info none) .empty 67).isSome = true) ∧
      68 ∉ config.order ∧ 67 ∈ config.order ∧ ¬ config.order.idxOf 67 < config.order.idxOf 42 := by
    decide
  exact sent.2.2.2.2 (before sent.1 sent.2.1 sent.2.2.1 sent.2.2.2.1)

end ControlOrder

end LPRng
