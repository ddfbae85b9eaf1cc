import LPRng.EscapedLines
import LPRng.QueueControl
import LPRng.QueueServer
import LPRng.QueueTraversal

/-!
# The order of subservers

A load balancing queue works with a list of subservers, which `Get_subserver_info` makes from the order that an earlier
server saved and the names in the configuration. `Wait_for_subserver` sorts the list by the time of the last job each
has done, and the names are saved again when the server exits. A name is looked up among those before it as it is
written, while the entry that it leads to has the main name of its queue.
-/

namespace LPRng

namespace SubserverOrder

open IncludeFiles (fileSep)
open QueueTraversal (Site Variables)

/-- What the spool directory of a queue that was set up holds and what its variables say. -/
structure Spools where
  controlFile : Option Bytes → Variables → Bytes
  control : Bytes → Fields
  printable : Variables → Nat
  held : Variables → Nat
  move : Variables → Nat
  /-- Whether done jobs are left that shall be removed. -/
  removes : Option Bytes → Variables → Bool

def doneRemove : Key := .other (lit "done_remove")

section

variable (site : Site) (spools : Spools)

/-- `Get_subserver_pc`, which ends the program where the queue cannot be set up. -/
def getSubserverPc (printer : Bytes) (doneTime : Nat) : Option Fields :=
  (site.setupPrinter (some printer)).map fun (name, vars) =>
    let path := spools.controlFile name vars
    let info := ((Fields.empty.setStrValue .printer name).setStrValue .spooldir vars.spoolDir).setStrValue
      .queueControlFile (some path)
    let info := updateSpoolInfo (spools.control path) info
    let info := ((info.setFlagValue .printable (spools.printable vars)).setFlagValue .held (spools.held vars)).setFlagValue
      .move (spools.move vars)
    let info := info.setFlagValue .doneTime doneTime
    if spools.removes name vars then info.setFlagValue doneRemove 1 else info

/-- The loop of `Get_subserver_info`, from a name on. `server` holds the names that are done. -/
def getSubservers : Nat → LineList → List Bytes → Option (List Fields)
  | _, _, [] => some []
  | i, server, s :: rest =>
      if (server.findStrValue s).isSome then getSubservers (i + 1) server rest
      else
        (getSubserverPc site spools s (i + 1)).bind fun pl =>
          (getSubservers (i + 1) (server.setStrValue s (some s)) rest).map (pl :: ·)

/-- The names in the saved order and those in the configuration behind them. -/
def serverOrder (list : Bytes) (oldOrder : Option Bytes) : LineList :=
  let saved := match oldOrder with
    | none => []
    | some s => split [] (SecureHeader.unescape s) fileSep false [] false true false
  split saved list fileSep false [] false true false

def getSubserverInfo (list : Bytes) (oldOrder : Option Bytes) : Option (List Fields) :=
  getSubservers site spools 0 [] (serverOrder list oldOrder)

/-- The main name of the queue that a name leads to. -/
def queueOf (name : Bytes) : Option Bytes := (site.setupPrinter (some name)).map fun set => set.1.getD []

end

def printerOf (sp : Fields) : Bytes := (sp.findStrValue .printer).getD []

def printers (servers : List Fields) : List Bytes := servers.map printerOf

/-- What is saved when the server exits. -/
def savedOrder (servers : List Fields) : Option Bytes := joinLineList 44 (printers servers)

/-! ## The names -/

/-- The names in a list. -/
def namesIn (names : Bytes) : List Bytes := ((pieces fileSep names).map trimSpace).filter (· ≠ [])

def savedNames : Option Bytes → List Bytes
  | none => []
  | some s => namesIn (SecureHeader.unescape s)

theorem split_names (l : LineList) (names : Bytes) :
    split l names fileSep false [] false true false = l ++ namesIn names := by
  unfold split namesIn
  generalize pieces fileSep names = parts
  induction parts generalizing l with
  | nil => exact (List.append_nil l).symm
  | cons part parts ih =>
      rw [List.foldl_cons, ih, List.map_cons]
      by_cases empty : trimSpace part = []
      · rw [List.filter_cons_of_neg (by simpa using empty)]
        simp [empty]
      · rw [List.filter_cons_of_pos (by simpa using empty)]
        simp [empty, LineList.addLineList]

theorem serverOrder_eq (list : Bytes) (oldOrder : Option Bytes) :
    serverOrder list oldOrder = savedNames oldOrder ++ namesIn list := by
  unfold serverOrder savedNames
  cases oldOrder with
  | none => exact split_names [] list
  | some s =>
      dsimp only
      rw [split_names, split_names, List.nil_append]

theorem ne_nil_of_mem_serverOrder {list s : Bytes} {oldOrder : Option Bytes} (member : s ∈ serverOrder list oldOrder) :
    s ≠ [] := by
  have named : ∀ names, s ∈ namesIn names → s ≠ [] := fun names inside =>
    of_decide_eq_true (List.mem_filter.mp inside).2
  rw [serverOrder_eq] at member
  rcases List.mem_append.mp member with saved | configured
  · cases oldOrder with
    | none => cases saved
    | some text => exact named _ saved
  · exact named _ configured

/-- Names that differ at most in the case of letters. -/
def sameName (s t : Bytes) : Bool := foldCase s == foldCase t

theorem map_toLower_of_foldCase {s t : Bytes} (same : foldCase s = foldCase t) : s.map toLower = t.map toLower := by
  have nats : (s.map toLower).map UInt8.toNat = (t.map toLower).map UInt8.toNat := by
    rw [List.map_map, List.map_map]
    exact same
  exact List.map_injective_iff.mpr (fun _ _ => UInt8.toNat_inj.mp) nats

variable {site : Site} {spools : Spools} {s t p list : Bytes} {oldOrder : Option Bytes}

/-- The case of letters does not matter when a queue is set up. -/
theorem setupPrinter_congr (same : foldCase s = foldCase t) :
    site.setupPrinter (some s) = site.setupPrinter (some t) := by
  have lower := map_toLower_of_foldCase same
  have cut : (s.take 511).map toLower = (t.take 511).map toLower := by rw [List.map_take, List.map_take, lower]
  have clean : ∀ u : Bytes, u.all QueueTraversal.cleanChar = (u.map toLower).all QueueTraversal.cleanChar := by
    intro u
    have table : ∀ c : UInt8, (QueueTraversal.cleanChar c == QueueTraversal.cleanChar (toLower c)) = true :=
      forall_byte (by decide +kernel)
    rw [List.all_map]
    exact congrArg u.all (funext fun c => eq_of_beq (table c))
  unfold Site.setupPrinter
  dsimp only
  rw [Option.getD_some, Option.getD_some, clean (s.take 511), clean (t.take 511), cut]

theorem queueOf_congr (same : foldCase s = foldCase t) : queueOf site s = queueOf site t := by
  rw [queueOf, queueOf, setupPrinter_congr same]

/-! ## The list as it is made -/

theorem getSubserverPc_none (unknown : queueOf site s = none) (m : Nat) : getSubserverPc site spools s m = none := by
  unfold queueOf at unknown
  unfold getSubserverPc
  rw [Option.map_eq_none_iff.mp unknown]
  rfl

theorem getSubserverPc_some (spools : Spools) (given : s ≠ []) (known : queueOf site s = some p) (m : Nat) : ∃ sp,
    getSubserverPc site spools s m = some sp ∧ sp .printer = some p ∧ sp .doneTime ≠ none ∧
      (m < 2 ^ 31 → sp.findFlagValue .doneTime = m) := by
  obtain ⟨⟨name, vars⟩, set_, same⟩ := Option.map_eq_some_iff.mp known
  have named := Site.setupPrinter_ne_none set_ given
  obtain ⟨q, rfl⟩ := Option.ne_none_iff_exists'.mp named
  obtain rfl : q = p := same
  have some_ : q ≠ [] := (Site.setupPrinter_printer set_ q rfl).1
  have flag : ∀ {l : Fields}, m < 2 ^ 31 → (l.setFlagValue .doneTime m).findFlagValue .doneTime = m := fun small => by
    rw [Fields.findFlagValue_setFlagValue (by omega), toInt32_of_small small]
  refine ⟨_, by rw [getSubserverPc, set_]; rfl, ?_, ?_, fun small => ?_⟩
  · dsimp only
    split <;> simp [updateSpoolInfo, some_, doneRemove]
  · dsimp only
    split <;> simp [doneRemove]
  · dsimp only
    split
    · rw [Fields.findFlagValue_setFlagValue_of_ne (by simp [doneRemove]), flag small]
    · exact flag small

/-- The names in order, of which none was done and none stands twice. -/
def fresh (done names : List Bytes) : List Bytes :=
  (names.filter fun s => !done.any (sameName s)).eraseDupsBy sameName

theorem fresh_cons_done {done rest : List Bytes} (seen : done.any (sameName s) = true) :
    fresh done (s :: rest) = fresh done rest := by
  rw [fresh, List.filter_cons_of_neg (by simp [seen])]
  rfl

theorem fresh_cons_new {done rest : List Bytes} (new : done.any (sameName s) = false) :
    fresh done (s :: rest) = s :: fresh (done ++ [s]) rest := by
  rw [fresh, List.filter_cons_of_pos (by simp [new]), List.eraseDupsBy_cons, List.filter_filter, fresh]
  have same : ∀ t : Bytes, (decide (sameName t s = false) && !done.any (sameName t)) = !(done ++ [s]).any (sameName t) := by
    intro t
    rw [List.any_append, List.any_cons, List.any_nil, Bool.or_false]
    generalize done.any (sameName t) = seen
    cases seen <;> cases sameName t s <;> rfl
  simp only [same]

/-- A name is found exactly if it was done, however it is spelled. -/
theorem isSome_lastSet (done : List Bytes) (s : Bytes) :
    (lastSet (done.map fun u => (u, some u)) s).isSome = done.any (sameName s) := by
  induction done using List.reverseRecOn with
  | nil => rfl
  | append_singleton done u ih =>
      rw [List.map_append, List.map_singleton, lastSet_snoc, List.any_append, ← ih]
      by_cases same : foldCase s = foldCase u
      · simp [same, sameName]
      · simp [same, sameName]

theorem sepFree_of_queueOf (short : s.length ≤ 511) (known : queueOf site s = some p) : SepFree s := by
  obtain ⟨⟨name, vars⟩, set_, -⟩ := Option.map_eq_some_iff.mp known
  have clean := (Site.of_setupPrinter set_).1
  rw [Option.getD_some, List.take_of_length_le short] at clean
  intro c member
  have table : ∀ c : UInt8, (!QueueTraversal.cleanChar c || !optionValueSep.contains c) = true :=
    forall_byte (by decide +kernel)
  have here := table c
  rw [List.all_eq_true.mp clean c member] at here
  simpa using here

section

variable {server : LineList} {done names : List Bytes}

/-- One entry for each name, with the place of the name as its time. -/
theorem getSubservers_some (spools : Spools) (i : Nat) (holds : server.Holds (done.map fun u => (u, some u)))
    (known : ∀ s ∈ names, s ≠ [] ∧ s.length ≤ 511 ∧ queueOf site s ≠ none) :
    ∃ servers, getSubservers site spools i server names = some servers ∧
      servers.map (· .printer) = (fresh done names).map (queueOf site) ∧ (∀ sp ∈ servers, sp .doneTime ≠ none) ∧
        (i + names.length < 2 ^ 31 → ∃ stamps : List Nat, servers.map (·.findFlagValue .doneTime) = stamps.map Nat.cast ∧
          stamps.Pairwise (· < ·) ∧ ∀ m ∈ stamps, i < m ∧ m ≤ i + names.length) := by
  induction names generalizing i server done with
  | nil => exact ⟨[], rfl, rfl, fun _ => nofun, fun _ => ⟨[], rfl, .nil, fun _ => nofun⟩⟩
  | cons s rest ih =>
      obtain ⟨⟨given, short, set_⟩, later⟩ := List.forall_mem_cons.mp known
      have lookup : (server.findStrValue s).isSome = done.any (sameName s) := by rw [holds.found, isSome_lastSet]
      rw [getSubservers, lookup]
      cases seen : done.any (sameName s) with
      | true =>
          obtain ⟨servers, ran, queues, timed, stamped⟩ := ih (i + 1) holds later
          refine ⟨servers, by rw [if_pos rfl, ran], by rw [fresh_cons_done seen, queues], timed, fun few => ?_⟩
          rw [List.length_cons] at few ⊢
          obtain ⟨stamps, flags, rising, bounds⟩ := stamped (by omega)
          exact ⟨stamps, flags, rising, fun m member => ⟨by have := bounds m member; omega, by have := bounds m member; omega⟩⟩
      | false =>
          obtain ⟨p, known⟩ := Option.ne_none_iff_exists'.mp set_
          obtain ⟨sp, entry, printer, time, flag⟩ := getSubserverPc_some spools given known (i + 1)
          have added : (server.setStrValue s (some s)).Holds ((done ++ [s]).map fun u => (u, some u)) := by
            have more : (server.setStrValue s (some s)).Holds (_ ++ [(s, (some s).filter (· ≠ []))]) :=
              holds.setStrValue (sepFree_of_queueOf short known)
            rw [Option.filter_some, if_pos (decide_eq_true given)] at more
            rwa [List.map_append]
          obtain ⟨servers, ran, queues, timed, stamped⟩ := ih (i + 1) added later
          refine ⟨sp :: servers, ?_, ?_, List.forall_mem_cons.mpr ⟨time, timed⟩, fun few => ?_⟩
          · rw [if_neg Bool.false_ne_true, entry, Option.bind_some, ran]
            rfl
          · rw [fresh_cons_new seen, List.map_cons, List.map_cons, queues, known, printer]
          · rw [List.length_cons] at few ⊢
            obtain ⟨stamps, flags, rising, bounds⟩ := stamped (by omega)
            refine ⟨(i + 1) :: stamps, ?_, ?_, List.forall_mem_cons.mpr ⟨by omega, fun m member => ?_⟩⟩
            · rw [List.map_cons, List.map_cons, flags, flag (by omega)]
            · exact List.pairwise_cons.mpr ⟨fun m member => (bounds m member).1, rising⟩
            · have bound := bounds m member
              omega

/-- Where one name leads nowhere, the program ends. -/
theorem getSubservers_none (spools : Spools) (i : Nat) (holds : server.Holds (done.map fun u => (u, some u)))
    (before : ∀ s ∈ done, queueOf site s ≠ none) (usual : ∀ s ∈ names, s ≠ [] ∧ s.length ≤ 511)
    (unknown : ∃ s ∈ names, queueOf site s = none) : getSubservers site spools i server names = none := by
  induction names generalizing i server done with
  | nil => exact unknown.elim fun _ inside => nomatch inside.1
  | cons s rest ih =>
      obtain ⟨⟨given, short⟩, later⟩ := List.forall_mem_cons.mp usual
      have lookup : (server.findStrValue s).isSome = done.any (sameName s) := by rw [holds.found, isSome_lastSet]
      rw [getSubservers, lookup]
      cases here : queueOf site s with
      | none =>
          have new : ¬ done.any (sameName s) = true := by
            intro seen
            obtain ⟨u, member, same⟩ := List.any_eq_true.mp seen
            exact before u member ((queueOf_congr (eq_of_beq same)).symm.trans here)
          rw [if_neg new, getSubserverPc_none here]
          rfl
      | some p =>
          have rest_ : ∃ s ∈ rest, queueOf site s = none := by
            obtain ⟨u, member, nowhere⟩ := unknown
            rcases List.mem_cons.mp member with rfl | behind
            · cases here.symm.trans nowhere
            · exact ⟨u, behind, nowhere⟩
          split
          · exact ih (i + 1) holds before later rest_
          · obtain ⟨sp, entry, -⟩ := getSubserverPc_some spools given here (i + 1)
            have added : (server.setStrValue s (some s)).Holds ((done ++ [s]).map fun u => (u, some u)) := by
              have more : (server.setStrValue s (some s)).Holds (_ ++ [(s, (some s).filter (· ≠ []))]) :=
                holds.setStrValue (sepFree_of_queueOf short here)
              rw [Option.filter_some, if_pos (decide_eq_true given)] at more
              rwa [List.map_append]
            have set_ : ∀ u ∈ done ++ [s], queueOf site u ≠ none := List.forall_mem_append.mpr
              ⟨before, List.forall_mem_singleton.mpr (here ▸ Option.some_ne_none p)⟩
            rw [entry, Option.bind_some, ih (i + 1) added set_ later rest_]
            rfl

end

/-! ## The list as it should be -/

theorem map_eraseDupsBy {α β : Type} [BEq β] [LawfulBEq β] {r : α → α → Bool} {f : α → β} (l : List α)
    (same : ∀ a ∈ l, ∀ b ∈ l, r b a = true ↔ f b = f a) : (l.eraseDupsBy r).map f = (l.map f).eraseDups := by
  induction n : l.length using Nat.strong_induction_on generalizing l with
  | _ n ih =>
      subst n
      cases l with
      | nil => rfl
      | cons a l =>
          have agree : (l.map f).filter (fun b => !b == f a) = (l.filter fun b => r b a = false).map f := by
            rw [List.filter_map]
            refine congrArg (List.map f) (List.filter_congr fun b member => ?_)
            have here := same a List.mem_cons_self b (List.mem_cons_of_mem a member)
            rw [Function.comp_apply]
            by_cases equal : f b = f a
            · simp [here.mpr equal, equal]
            · have other : r b a = false := Bool.eq_false_iff.mpr (mt here.mp equal)
              simp [other, equal]
          have shorter : (l.filter fun b => r b a = false).length < (a :: l).length :=
            Nat.lt_succ_of_le (List.length_filter_le _ _)
          rw [List.eraseDupsBy_cons, List.map_cons, List.map_cons, List.eraseDups_cons, agree]
          refine congrArg (f a :: ·) (ih _ shorter _ (fun x first y second => ?_) rfl)
          exact same x (List.mem_cons_of_mem a (List.mem_of_mem_filter first)) y
            (List.mem_cons_of_mem a (List.mem_of_mem_filter second))

theorem nodup_eraseDups {α : Type} [BEq α] [LawfulBEq α] (l : List α) : l.eraseDups.Nodup := by
  induction n : l.length using Nat.strong_induction_on generalizing l with
  | _ n ih =>
      subst n
      cases l with
      | nil => exact List.nodup_nil
      | cons a l =>
          rw [List.eraseDups_cons]
          refine List.nodup_cons.mpr ⟨fun member => ?_, ih _ (Nat.lt_succ_of_le (List.length_filter_le _ _)) _ rfl⟩
          have other := (List.mem_filter.mp (List.mem_eraseDups.mp member)).2
          simp at other

/-- Every name stands in the list of the first spellings, in some spelling. -/
theorem exists_of_mem_eraseDupsBy (l : List Bytes) (member : s ∈ l) :
    ∃ u ∈ l.eraseDupsBy sameName, foldCase u = foldCase s := by
  induction n : l.length using Nat.strong_induction_on generalizing l with
  | _ n ih =>
      subst n
      cases l with
      | nil => cases member
      | cons a l =>
          rw [List.eraseDupsBy_cons]
          by_cases same : foldCase s = foldCase a
          · exact ⟨a, List.mem_cons_self, same.symm⟩
          · rcases List.mem_cons.mp member with rfl | later
            · exact absurd rfl same
            · have kept : s ∈ l.filter fun b => sameName b a = false :=
                List.mem_filter.mpr ⟨later, by simp [sameName, same]⟩
              obtain ⟨u, inside, folds⟩ := ih _ (Nat.lt_succ_of_le (List.length_filter_le _ _)) _ kept rfl
              exact ⟨u, List.mem_cons_of_mem a inside, folds⟩

theorem mem_of_mem_eraseDupsBy (l : List Bytes) (member : s ∈ l.eraseDupsBy sameName) : s ∈ l := by
  induction n : l.length using Nat.strong_induction_on generalizing l with
  | _ n ih =>
      subst n
      cases l with
      | nil => exact member
      | cons a l =>
          rw [List.eraseDupsBy_cons] at member
          rcases List.mem_cons.mp member with rfl | later
          · exact List.mem_cons_self
          · have inside := ih _ (Nat.lt_succ_of_le (List.length_filter_le _ _)) _ later rfl
            exact List.mem_cons_of_mem a (List.mem_of_mem_filter inside)

section

variable (site : Site) (list : Bytes) (oldOrder : Option Bytes)

/-- The queues of the subservers in the configuration. -/
def configured : List Bytes := (namesIn list).filterMap (queueOf site)

/-- Every configured queue once, those in the saved order first. -/
def expected : List Bytes :=
  (((savedNames oldOrder).filterMap (queueOf site) ++ configured site list).filter
    (configured site list).contains).eraseDups

/-- Every name leads to a queue, those in the saved order to one that is configured, and no queue has two names. -/
structure Apart : Prop where
  found : ∀ s ∈ serverOrder list oldOrder, queueOf site s ≠ none
  listed : ∀ s ∈ savedNames oldOrder, queueOf site s ∈ (namesIn list).map (queueOf site)
  spelled : ∀ s ∈ serverOrder list oldOrder, ∀ t ∈ serverOrder list oldOrder,
    queueOf site s = queueOf site t → foldCase s = foldCase t

end

theorem expected_once (site : Site) (list : Bytes) (oldOrder : Option Bytes) :
    (expected site list oldOrder).Nodup ∧ ∀ q, q ∈ expected site list oldOrder ↔ q ∈ configured site list := by
  refine ⟨nodup_eraseDups _, fun q => ?_⟩
  rw [expected, List.mem_eraseDups, List.mem_filter, List.mem_append, List.contains_iff_mem]
  exact ⟨And.right, fun member => ⟨.inr member, member⟩⟩

theorem holds_none : LineList.Holds [] (([] : List Bytes).map fun u => (u, some u)) := LineList.holds_nil

/-- The list has the first spelling of each name. -/
theorem printers_getSubserverInfo (spools : Spools) (short : ∀ s ∈ serverOrder list oldOrder, s.length ≤ 511)
    (found : ∀ s ∈ serverOrder list oldOrder, queueOf site s ≠ none) : ∃ servers,
      getSubserverInfo site spools list oldOrder = some servers ∧
        servers.map (· .printer) = ((serverOrder list oldOrder).eraseDupsBy sameName).map (queueOf site) ∧
          (∀ sp ∈ servers, sp .doneTime ≠ none) ∧ ((serverOrder list oldOrder).length < 2 ^ 31 → ∃ stamps : List Nat,
            servers.map (·.findFlagValue .doneTime) = stamps.map Nat.cast ∧
              stamps.Pairwise (· < ·) ∧ ∀ m ∈ stamps, m ≤ (serverOrder list oldOrder).length) := by
  obtain ⟨servers, ran, queues, timed, stamped⟩ := getSubservers_some spools 0 holds_none
    fun s member => ⟨ne_nil_of_mem_serverOrder member, short s member, found s member⟩
  have all : fresh [] (serverOrder list oldOrder) = (serverOrder list oldOrder).eraseDupsBy sameName :=
    congrArg (List.eraseDupsBy sameName) (List.filter_eq_self.mpr fun _ _ => rfl)
  rw [all] at queues
  rw [Nat.zero_add] at stamped
  refine ⟨servers, ran, queues, timed, fun few => ?_⟩
  obtain ⟨stamps, flags, rising, bounds⟩ := stamped few
  exact ⟨stamps, flags, rising, fun m member => (bounds m member).2⟩

theorem printers_eq {servers : List Fields} {queues : List (Option Bytes)}
    (same : servers.map (· .printer) = queues) : printers servers = queues.map (·.getD []) := by
  rw [← same, List.map_map]
  rfl

theorem found_of_getSubserverInfo (short : ∀ s ∈ serverOrder list oldOrder, s.length ≤ 511) {servers : List Fields}
    (ran : getSubserverInfo site spools list oldOrder = some servers) :
    ∀ s ∈ serverOrder list oldOrder, queueOf site s ≠ none := by
  intro s member unknown
  have ended := getSubservers_none spools 0 holds_none
    (fun _ => nofun) (fun s member => ⟨ne_nil_of_mem_serverOrder member, short s member⟩) ⟨s, member, unknown⟩
  cases ended.symm.trans ran

/-- The list is the expected one exactly if all names lead to configured queues and none of these has two names. -/
theorem getSubserverInfo_iff (spools : Spools) (short : ∀ s ∈ serverOrder list oldOrder, s.length ≤ 511) :
    (∃ servers, getSubserverInfo site spools list oldOrder = some servers ∧
      printers servers = expected site list oldOrder) ↔ Apart site list oldOrder := by
  have order := serverOrder_eq list oldOrder
  have values : (∀ s ∈ serverOrder list oldOrder, queueOf site s ≠ none) →
      ∀ names ⊆ serverOrder list oldOrder, names.filterMap (queueOf site) = names.map fun s => (queueOf site s).getD [] := by
    intro found names within
    rw [← List.filterMap_eq_map]
    refine List.filterMap_congr fun s member => ?_
    obtain ⟨q, known⟩ := Option.ne_none_iff_exists'.mp (found s (within member))
    rw [Function.comp_apply, known]
    rfl
  constructor
  · rintro ⟨servers, ran, same⟩
    have found := found_of_getSubserverInfo short ran
    obtain ⟨_, again, queues, -⟩ := printers_getSubserverInfo spools short found
    obtain rfl := Option.some.inj (ran.symm.trans again)
    have listed := printers_eq queues
    rw [List.map_map, same] at listed
    have stands : ∀ s ∈ serverOrder list oldOrder, (queueOf site s).getD [] ∈ expected site list oldOrder := by
      intro s member
      obtain ⟨u, inside, folds⟩ := exists_of_mem_eraseDupsBy _ member
      rw [listed, ← queueOf_congr folds]
      exact List.mem_map_of_mem inside
    refine ⟨found, fun s member => ?_, fun s first t second equal => ?_⟩
    · have inside : s ∈ serverOrder list oldOrder := order ▸ List.mem_append_left _ member
      have there := ((expected_once site list oldOrder).2 _).mp (stands s inside)
      obtain ⟨c, named, leads⟩ := List.mem_filterMap.mp there
      obtain ⟨q, known⟩ := Option.ne_none_iff_exists'.mp (found s inside)
      rw [known, Option.getD_some] at leads
      exact List.mem_map.mpr ⟨c, named, leads.trans known.symm⟩
    · obtain ⟨u, inU, foldU⟩ := exists_of_mem_eraseDupsBy _ first
      obtain ⟨v, inV, foldV⟩ := exists_of_mem_eraseDupsBy _ second
      have once := (expected_once site list oldOrder).1
      rw [listed] at once
      have alike : (queueOf site u).getD [] = (queueOf site v).getD [] := by
        rw [queueOf_congr foldU, queueOf_congr foldV, equal]
      obtain rfl := List.inj_on_of_nodup_map once inU inV alike
      exact foldU.symm.trans foldV
  · rintro ⟨found, listed, spelled⟩
    obtain ⟨servers, ran, queues, -⟩ := printers_getSubserverInfo spools short found
    refine ⟨servers, ran, ?_⟩
    have inside : ∀ q ∈ (savedNames oldOrder).filterMap (queueOf site) ++ configured site list,
        (configured site list).contains q = true := by
      intro q member
      rw [List.contains_iff_mem]
      rcases List.mem_append.mp member with saved | here
      · obtain ⟨s, named, leads⟩ := List.mem_filterMap.mp saved
        obtain ⟨c, configured_, same⟩ := List.mem_map.mp (listed s named)
        exact List.mem_filterMap.mpr ⟨c, configured_, same.trans leads⟩
      · exact here
    rw [printers_eq queues, List.map_map, expected, List.filter_eq_self.mpr inside, configured, ← List.filterMap_append,
      ← order, values found _ (List.Subset.refl _)]
    refine map_eraseDupsBy _ fun s first t second => ?_
    obtain ⟨p, knownS⟩ := Option.ne_none_iff_exists'.mp (found s first)
    obtain ⟨q, knownT⟩ := Option.ne_none_iff_exists'.mp (found t second)
    constructor
    · intro same
      exact congrArg (Option.getD · []) (queueOf_congr (eq_of_beq same))
    · intro same
      refine beq_iff_eq.mpr (spelled t second s first ?_)
      rw [Function.comp_apply, Function.comp_apply, knownS, knownT] at same
      rw [knownS, knownT]
      exact congrArg some same

/-! ## Sorting by the last completion -/

/-- The time at which a queue has last finished a job, in a history with the newest completion at its end. -/
def lastDone (history : List (Bytes × Nat)) (queue : Bytes) : Option Nat :=
  ((history.filter (·.1 = queue)).getLast?).map Prod.snd

theorem lastDone_snoc (history : List (Bytes × Nat)) (q : Bytes) (now : Nat) (queue : Bytes) :
    lastDone (history ++ [(q, now)]) queue = if q = queue then some now else lastDone history queue := by
  unfold lastDone
  rw [List.filter_append]
  by_cases same : q = queue
  · rw [if_pos same, List.filter_cons_of_pos (by simpa using same), List.filter_nil, List.getLast?_concat]
    rfl
  · rw [if_neg same, List.filter_cons_of_neg (by simpa using same), List.filter_nil, List.append_nil]

/-- One completion is not later than another; queues that never finished come first. -/
def NotLater : Option Nat → Option Nat → Prop
  | none, _ => True
  | some _, none => False
  | some s, some t => s ≤ t

/-- The queues in the order of their last completion, and in the order they had where that does not decide. -/
structure Reordered (last : Bytes → Option Nat) (before after : List Bytes) : Prop where
  perm : after.Perm before
  sorted : after.Pairwise fun p q => NotLater (last p) (last q)
  ties : ∀ k, after.filter (fun q => last q = k) = before.filter fun q => last q = k

/-- What the order depends on: the name of the queue and the time, as an entry has them. -/
abbrev View := Option Bytes × Option Bytes

namespace View

def of (sp : Fields) : View := (sp .printer, sp .doneTime)

def printer (v : View) : Bytes := v.1.getD []

def flag (v : View) : Int :=
  match v.2 with
  | none => 0
  | some text => flagOfText text

def sort (views : List View) : List View := views.mergeSort fun l r => l.flag ≤ r.flag

theorem map_sortServers (servers : List Fields) : (sortServers servers).map View.of = sort (servers.map View.of) :=
  List.map_mergeSort fun _ _ _ _ => rfl

theorem flag_trans (a b c : View) (first : decide (a.flag ≤ b.flag) = true) (second : decide (b.flag ≤ c.flag) = true) :
    decide (a.flag ≤ c.flag) = true :=
  decide_eq_true ((of_decide_eq_true first).trans (of_decide_eq_true second))

theorem flag_total (a b : View) : (decide (a.flag ≤ b.flag) || decide (b.flag ≤ a.flag)) = true := by
  rw [Bool.or_eq_true, decide_eq_true_eq, decide_eq_true_eq]
  exact le_total _ _

theorem sort_perm (views : List View) : (sort views).Perm views := List.mergeSort_perm _ _

theorem sort_sorted (views : List View) : (sort views).Pairwise fun a b => a.flag ≤ b.flag :=
  (List.pairwise_mergeSort flag_trans flag_total views).imp of_decide_eq_true

theorem sort_self {views : List View} (sorted : views.Pairwise fun a b => a.flag ≤ b.flag) : sort views = views :=
  List.mergeSort_of_pairwise (sorted.imp decide_eq_true)

/-- Entries that are in order among themselves keep this order. -/
theorem filter_sort {views : List View} {P : View → Bool}
    (sorted : (views.filter P).Pairwise fun a b => a.flag ≤ b.flag) : (sort views).filter P = views.filter P := by
  have kept : (views.filter P).Sublist (sort views) :=
    List.sublist_mergeSort flag_trans flag_total (sorted.imp decide_eq_true) List.filter_sublist
  have inside := kept.filter P
  rw [List.filter_filter] at inside
  simp only [Bool.and_self] at inside
  exact (inside.eq_of_length ((sort_perm views).filter P).length_eq.symm).symm

end View

/-- The time an entry stands for: that of its last completion, or its place in the first list. -/
def stamp (seed : Bytes → Nat) (history : List (Bytes × Nat)) (queue : Bytes) : Nat :=
  (lastDone history queue).getD (seed queue)

variable {n now : Nat} {seed : Bytes → Nat} {history : List (Bytes × Nat)} {views : List View}

/-- The list is sorted by the times of its entries, and those of completions are behind all places. -/
structure InOrder (n : Nat) (seed : Bytes → Nat) (history : List (Bytes × Nat)) (views : List View) : Prop where
  once : (views.map View.printer).Nodup
  given : ∀ v ∈ views, v.1 ≠ none ∧ v.2 ≠ none
  stamped : n < 2 ^ 31 → ∀ v ∈ views, v.flag = stamp seed history v.printer
  sorted : views.Pairwise fun a b => stamp seed history a.printer ≤ stamp seed history b.printer
  seeds : ∀ v ∈ views, seed v.printer ≤ n
  times : ∀ q t, lastDone history q = some t → n < t ∧ t < 2 ^ 31

namespace InOrder

theorem flags (order : InOrder n seed history views) (few : n < 2 ^ 31) : views.Pairwise fun a b => a.flag ≤ b.flag := by
  refine order.sorted.imp_of_mem fun first second le => ?_
  rw [order.stamped few _ first, order.stamped few _ second]
  exact Int.ofNat_le.mpr le

theorem notLater (order : InOrder n seed history views) :
    (views.map View.printer).Pairwise fun p q => NotLater (lastDone history p) (lastDone history q) := by
  refine List.pairwise_map.mpr (order.sorted.imp_of_mem fun {a b} first second le => ?_)
  have bound := order.seeds b second
  unfold stamp at le
  cases left : lastDone history a.printer with
  | none => exact trivial
  | some s =>
      rw [left, Option.getD_some] at le
      cases right : lastDone history b.printer with
      | none =>
          rw [right, Option.getD_none] at le
          have late := (order.times _ s left).1
          omega
      | some t =>
          rw [right, Option.getD_some] at le
          exact le

theorem reordered_self (order : InOrder n seed history views) :
    Reordered (lastDone history) (views.map View.printer) (views.map View.printer) :=
  ⟨.refl _, order.notLater, fun _ => rfl⟩

/-- One queue has finished a job, and the list is sorted again. -/
theorem complete {a b : List View} {v w : View} (order : InOrder n seed history (a ++ v :: b)) (late : n < now)
    (small : now < 2 ^ 31) (same : w.1 = v.1) (given : w.2 ≠ none) (flag : w.flag = now) :
    InOrder n seed (history ++ [(v.printer, now)]) (View.sort (a ++ w :: b)) ∧
      Reordered (lastDone (history ++ [(v.printer, now)])) ((a ++ v :: b).map View.printer)
        ((View.sort (a ++ w :: b)).map View.printer) := by
  have printer : w.printer = v.printer := congrArg (Option.getD · []) same
  have names : (a ++ w :: b).map View.printer = (a ++ v :: b).map View.printer := by
    rw [List.map_append, List.map_append, List.map_cons, List.map_cons, printer]
  have few : n < 2 ^ 31 := late.trans small
  have others : ∀ x, x ∈ a ∨ x ∈ b → x.printer ≠ v.printer := by
    have once := order.once
    rw [List.map_append, List.map_cons] at once
    have parts := List.nodup_middle.mp once
    have apart := (List.nodup_cons.mp parts).1
    intro x member equal
    refine apart (equal ▸ List.mem_append.mpr ?_)
    exact member.imp List.mem_map_of_mem List.mem_map_of_mem
  have old : ∀ x, x ∈ a ∨ x ∈ b → lastDone (history ++ [(v.printer, now)]) x.printer = lastDone history x.printer :=
    fun x member => by rw [lastDone_snoc, if_neg (others x member).symm]
  have new : lastDone (history ++ [(v.printer, now)]) w.printer = some now := by
    rw [lastDone_snoc, if_pos printer.symm]
  have place : ∀ {x}, x ∈ a ++ w :: b → x = w ∨ x ∈ a ∨ x ∈ b := by
    intro x member
    rcases List.mem_append.mp member with first | rest
    · exact .inr (.inl first)
    · exact (List.mem_cons.mp rest).imp_right .inr
  have before : ∀ {x}, x ∈ a ∨ x ∈ b → x ∈ a ++ v :: b := fun member =>
    List.mem_append.mpr (member.imp_right (List.mem_cons_of_mem v))
  have stamped : ∀ x ∈ a ++ w :: b, x.flag = stamp seed (history ++ [(v.printer, now)]) x.printer := by
    intro x member
    rcases place member with rfl | other
    · rw [flag, stamp, new, Option.getD_some]
    · rw [order.stamped few x (before other), stamp, stamp, old x other]
  have perm := View.sort_perm (a ++ w :: b)
  have times : ∀ q t, lastDone (history ++ [(v.printer, now)]) q = some t → n < t ∧ t < 2 ^ 31 := by
    intro q t found
    rw [lastDone_snoc] at found
    split at found
    · exact Option.some.inj found ▸ ⟨late, small⟩
    · exact order.times q t found
  have after : InOrder n seed (history ++ [(v.printer, now)]) (View.sort (a ++ w :: b)) := by
    refine ⟨?_, ?_, fun _ x member => stamped x (perm.mem_iff.mp member), ?_, ?_, times⟩
    · exact ((perm.map View.printer).nodup_iff).mpr (names ▸ order.once)
    · intro x member
      rcases place (perm.mem_iff.mp member) with rfl | other
      · exact ⟨same ▸ (order.given v (List.mem_append_right _ List.mem_cons_self)).1, given⟩
      · exact order.given x (before other)
    · refine (View.sort_sorted _).imp_of_mem fun first second le => ?_
      rw [stamped _ (perm.mem_iff.mp first), stamped _ (perm.mem_iff.mp second)] at le
      exact Int.ofNat_le.mp le
    · intro x member
      rcases place (perm.mem_iff.mp member) with rfl | other
      · exact printer ▸ order.seeds v (List.mem_append_right _ List.mem_cons_self)
      · exact order.seeds x (before other)
  refine ⟨after, (perm.map View.printer).trans (.of_eq names), after.notLater, fun k => ?_⟩
  rw [← names, List.filter_map, List.filter_map]
  refine congrArg (List.map View.printer) (View.filter_sort ?_)
  cases k with
  | some t =>
      -- all entries of one time have the same flag
      refine List.pairwise_of_forall_mem_list fun x first y second => ?_
      have here := List.mem_filter.mp first
      have there := List.mem_filter.mp second
      have left := of_decide_eq_true here.2
      have right := of_decide_eq_true there.2
      rw [stamped x here.1, stamped y there.1, stamp, stamp, left, right]
      rfl
  | none =>
      -- those that never finished stand as they stood before
      have drop : ∀ P : View → Bool, ¬ P w = true → ((a ++ w :: b).filter P).Sublist (a ++ v :: b) := by
        intro P out
        rw [List.filter_append, List.filter_cons_of_neg out, ← List.filter_append]
        exact List.filter_sublist.trans ((List.sublist_cons_self v b).append_left a)
      refine (order.flags few).sublist (drop _ fun never => ?_)
      exact Option.some_ne_none now (new.symm.trans (of_decide_eq_true never))

end InOrder

/-! ## Runs of the queue server -/

section

variable {setup : QueueSetup} {q q' : QueueServer} {pass : Pass} {name : Bytes}

def viewsOf (q : QueueServer) : List View := q.subservers.map View.of

theorem of_forkSubserver (fork : Option Pid) (sp : Fields) : View.of (forkSubserver fork sp) = View.of sp := by
  unfold View.of forkSubserver
  cases fork with
  | none => simp
  | some pid => simp

theorem map_modify {f : Fields → Fields} (same : ∀ sp, View.of (f sp) = View.of sp) (l : List Fields) (i : Nat) :
    (l.modify i f).map View.of = l.map View.of := by
  induction l generalizing i with
  | nil => rw [List.modify_nil]
  | cons sp l ih =>
      cases i with
      | zero => rw [List.modify_zero_cons, List.map_cons, List.map_cons, same]
      | succ i => rw [List.modify_succ_cons, List.map_cons, List.map_cons, ih]

theorem updateSpoolInfo_view {file sp : Fields} (given : sp .printer ≠ none ∧ sp .doneTime ≠ none) :
    View.of (updateSpoolInfo file sp) = View.of sp := by
  obtain ⟨p, printer⟩ := Option.ne_none_iff_exists'.mp given.1
  obtain ⟨t, time⟩ := Option.ne_none_iff_exists'.mp given.2
  simp [View.of, updateSpoolInfo, printer, time]

theorem run_view {task : QueueServer.Task} {s : Server} (ran : task.run setup pass name s q = some q') :
    viewsOf q' = viewsOf q := by
  cases task with
  | worker dest => exact Option.some.inj ran ▸ rfl
  | subserver index =>
      obtain ⟨moved, -, rfl⟩ := Option.map_eq_some_iff.mp ran
      split
      · rfl
      · refine map_modify (fun sp => ?_) _ _
        rw [of_forkSubserver]
        simp [View.of]
  | move dest =>
      unfold QueueServer.Task.run QueueServer.moveAway at ran
      dsimp only at ran
      split at ran
      · unfold QueueServer.sendAway at ran
        split at ran
        · exact Option.some.inj ran ▸ rfl
        · split at ran
          · exact Option.some.inj ran ▸ rfl
          · obtain ⟨sent, -, rfl⟩ := Option.map_eq_some_iff.mp ran
            rfl
      · split at ran
        · obtain ⟨failed, -, rfl⟩ := Option.map_eq_some_iff.mp ran
          rfl
        · split at ran
          · obtain ⟨failed, -, rfl⟩ := Option.map_eq_some_iff.mp ran
            rfl
          · obtain ⟨moved, -, rfl⟩ := Option.map_eq_some_iff.mp ran
            rfl

theorem printers_views (servers : List Fields) : printers servers = (servers.map View.of).map View.printer := by
  rw [List.map_map]
  rfl

/-- A job that is served changes neither the names nor the times in the list. -/
theorem serveJob_view (ran : q.serveJob setup pass name = some q') : viewsOf q' = viewsOf q := by
  unfold QueueServer.serveJob at ran
  split at ran
  · exact Option.some.inj ran ▸ rfl
  · rename_i ticket _
    revert ran
    generalize (q.planFor setup pass name ticket).1 = s
    generalize (q.planFor setup pass name ticket).2 = plan
    intro ran
    cases plan with
    | pass => exact Option.some.inj ran ▸ rfl
    | die => cases ran
    | refuse text =>
        obtain ⟨failed, -, rfl⟩ := Option.map_eq_some_iff.mp ran
        rfl
    | record status =>
        obtain ⟨written, -, rfl⟩ := Option.map_eq_some_iff.mp ran
        rfl
    | start n task =>
        obtain ⟨started, -, rest⟩ := Option.bind_eq_some_iff.mp ran
        exact run_view rest

theorem settleServer_view {moment : Moment} {status : Status} {sp sp' : Fields} {spool spool' : Spool}
    (named : sp .printer ≠ none) (settled : QueueServer.settleServer setup moment status sp spool = some (sp', spool')) :
    sp' .printer = sp .printer ∧ sp' .doneTime = some (printHex moment.now.val) := by
  obtain ⟨p, printer⟩ := Option.ne_none_iff_exists'.mp named
  unfold QueueServer.settleServer at settled
  dsimp only at settled
  split at settled
  · obtain ⟨rfl, -⟩ := Prod.ext_iff.mp (Option.some.inj settled)
    simp
  · split at settled
    · obtain ⟨rfl, -⟩ := Prod.ext_iff.mp (Option.some.inj settled)
      simp
    · obtain ⟨s, -, rest⟩ := Option.map_eq_some_iff.mp settled
      obtain ⟨rfl, -⟩ := Prod.ext_iff.mp rest
      simp [updateSpoolInfo, printer]

end

/-- The subserver whose process is collected, and the time. -/
def completion (q : QueueServer) : QueueServer.Event → List (Bytes × Nat)
  | .collect pid moment _ =>
      if q.master.findFlagValue .server = (pid.val : Int) then []
      else
        match q.subservers.findIdx? fun sp => sp.findFlagValue .server = (pid.val : Int) with
        | none => []
        | some i => [(printerOf (q.subservers.getD i .empty), moment.now.val)]
  | _ => []

/-- A clock that is beyond the number of names, and that an `int` can hold. -/
def Ticks (n : Nat) : QueueServer.Event → Prop
  | .collect _ moment _ => n < moment.now.val ∧ moment.now.val < 2 ^ 31
  | _ => True

/-- The states of a queue server that started with some list, with the completions up to there. -/
inductive Served (setup : QueueSetup) (n : Nat) (start : QueueServer) : QueueServer → List (Bytes × Nat) → Prop
  | start : Served setup n start start []
  | step {q q' : QueueServer} {history : List (Bytes × Nat)} {e : QueueServer.Event} :
      Served setup n start q history → Ticks n e → QueueServer.Step setup q e q' →
        Served setup n start q' (history ++ completion q e)

/-- One step leaves the list as it is, or one queue has finished a job and the list is sorted again. -/
theorem step_order {setup : QueueSetup} {q q' : QueueServer} {e : QueueServer.Event}
    (order : InOrder n seed history (viewsOf q)) (ticks : Ticks n e) (step : QueueServer.Step setup q e q') :
    InOrder n seed (history ++ completion q e) (viewsOf q') ∧
      Reordered (lastDone (history ++ completion q e)) (printers q.subservers) (printers q'.subservers) := by
  have given : ∀ sp ∈ q.subservers, sp .printer ≠ none ∧ sp .doneTime ≠ none := fun sp member =>
    order.given (View.of sp) (List.mem_map_of_mem member)
  have same : viewsOf q' = viewsOf q → InOrder n seed (history ++ []) (viewsOf q') ∧
      Reordered (lastDone (history ++ [])) (printers q.subservers) (printers q'.subservers) := by
    intro same
    rw [printers_views, printers_views]
    change InOrder n seed _ (viewsOf q') ∧ Reordered _ ((viewsOf q).map View.printer) ((viewsOf q').map View.printer)
    rw [same, List.append_nil]
    exact ⟨order, order.reordered_self⟩
  cases step with
  | start _ => exact same rfl
  | serve _ _ _ ran => exact same (serveJob_view ran)
  | subserver _ _ => exact same (map_modify (of_forkSubserver _) _ _)
  | rescan _ =>
      refine same ?_
      show (q.subservers.map _).map View.of = q.subservers.map View.of
      rw [List.map_map]
      exact List.map_congr_left fun sp member => updateSpoolInfo_view (given sp member)
  | write _ => exact same rfl
  | @collect _ pid moment status _ _ ran =>
      have sorted := View.sort_self (order.flags (ticks.1.trans ticks.2))
      unfold QueueServer.collect at ran
      unfold completion
      dsimp only at ran ⊢
      split at ran
      · rename_i master
        obtain ⟨settled, -, rfl⟩ := Option.map_eq_some_iff.mp ran
        rw [if_pos master]
        exact same ((View.map_sortServers _).trans sorted)
      · rename_i master
        rw [if_neg master]
        cases found : q.subservers.findIdx? fun sp => sp.findFlagValue .server = (pid.val : Int) with
        | none =>
            rw [found] at ran
            obtain rfl := Option.some.inj ran
            exact same ((View.map_sortServers _).trans sorted)
        | some i =>
            rw [found] at ran
            obtain ⟨⟨entry, spool⟩, settled, rfl⟩ := Option.map_eq_some_iff.mp ran
            dsimp only at settled ⊢
            obtain ⟨within, -, -⟩ := List.findIdx?_eq_some_iff_getElem.mp found
            have here : q.subservers.getD i .empty = q.subservers[i] := by
              rw [List.getD_eq_getElem?_getD, List.getElem?_eq_getElem within, Option.getD_some]
            rw [here] at settled ⊢
            obtain ⟨printer, time⟩ := settleServer_view (given _ (List.getElem_mem within)).1 settled
            have split : viewsOf q = (q.subservers.take i).map View.of ++
                View.of q.subservers[i] :: (q.subservers.drop (i + 1)).map View.of := by
              rw [← List.map_cons, ← List.map_append, List.getElem_cons_drop, List.take_append_drop]
              rfl
            have after : (sortServers (q.subservers.set i entry)).map View.of = View.sort
                ((q.subservers.take i).map View.of ++ View.of entry :: (q.subservers.drop (i + 1)).map View.of) := by
              rw [View.map_sortServers, List.set_eq_take_append_cons_drop, if_pos within, List.map_append, List.map_cons]
            have flag : (View.of entry).flag = moment.now.val := by
              unfold View.flag View.of
              rw [time]
              exact (flagOfText_printHex (by have := ticks.2; omega)).trans (toInt32_of_small ticks.2)
            rw [split] at order
            have timed : (View.of entry).2 ≠ none := fun none_ => Option.some_ne_none _ (time.symm.trans none_)
            have done := order.complete ticks.1 ticks.2 printer timed flag
            rw [← split, ← after] at done
            rw [printers_views, printers_views]
            exact done

theorem served_order {setup : QueueSetup} {start q : QueueServer} (order : InOrder n seed [] (viewsOf start))
    (served : Served setup n start q history) :
    InOrder n seed history (viewsOf q) ∧ (printers q.subservers).Perm (printers start.subservers) := by
  induction served with
  | start => exact ⟨order, .refl _⟩
  | step _ ticks step ih =>
      obtain ⟨next, reordered⟩ := step_order ih.1 ticks step
      exact ⟨next, reordered.perm.trans ih.2⟩

/-! ## The start of a run -/

/-- Entries with rising times, each of another queue. -/
theorem exists_seed {stamps : List Nat} (flags : views.map View.flag = stamps.map Nat.cast)
    (once : (views.map View.printer).Nodup) (rising : stamps.Pairwise (· < ·)) (bounds : ∀ m ∈ stamps, m ≤ n) :
    ∃ seed : Bytes → Nat, (∀ v ∈ views, v.flag = seed v.printer) ∧
      views.Pairwise (fun a b => seed a.printer ≤ seed b.printer) ∧ ∀ v ∈ views, seed v.printer ≤ n := by
  induction views generalizing stamps with
  | nil => exact ⟨fun _ => 0, fun _ => nofun, .nil, fun _ => nofun⟩
  | cons v views ih =>
      cases stamps with
      | nil => cases flags
      | cons m stamps =>
          obtain ⟨first, rest⟩ := List.cons.inj flags
          obtain ⟨other, apart⟩ := List.nodup_cons.mp once
          obtain ⟨before, later⟩ := List.pairwise_cons.mp rising
          obtain ⟨most, bounded⟩ := List.forall_mem_cons.mp bounds
          obtain ⟨seed, stamped, sorted, small⟩ := ih rest apart later bounded
          have kept : ∀ w ∈ views, Function.update seed v.printer m w.printer = seed w.printer := fun w member =>
            Function.update_of_ne (fun same : w.printer = v.printer => other (same ▸ List.mem_map_of_mem member)) _ _
          have self : Function.update seed v.printer m v.printer = m := Function.update_self ..
          refine ⟨Function.update seed v.printer m, ?_, ?_, ?_⟩
          · refine List.forall_mem_cons.mpr ⟨by rw [self, first], fun w member => ?_⟩
            rw [kept w member, stamped w member]
          · refine List.pairwise_cons.mpr ⟨fun w member => ?_, ?_⟩
            · have listed : w.flag ∈ stamps.map (Nat.cast : Nat → Int) := rest ▸ List.mem_map_of_mem member
              obtain ⟨k, inside, same⟩ := List.mem_map.mp listed
              have equal : k = seed w.printer := Int.ofNat_inj.mp (same.trans (stamped w member))
              rw [self, kept w member, ← equal]
              exact (before k inside).le
            · refine sorted.imp_of_mem fun left right le => ?_
              rwa [kept _ left, kept _ right]
          · refine List.forall_mem_cons.mpr ⟨by rwa [self], fun w member => ?_⟩
            rw [kept w member]
            exact small w member

/-- The list as it is made is in order. -/
theorem start_order {servers : List Fields} (short : ∀ s ∈ serverOrder list oldOrder, s.length ≤ 511)
    (ran : getSubserverInfo site spools list oldOrder = some servers) (once : (printers servers).Nodup) :
    ∃ seed, InOrder (serverOrder list oldOrder).length seed [] (servers.map View.of) := by
  have found := found_of_getSubserverInfo short ran
  obtain ⟨_, again, queues, timed, stamped⟩ := printers_getSubserverInfo spools short found
  obtain rfl := Option.some.inj (ran.symm.trans again)
  rw [printers_views] at once
  have given : ∀ v ∈ servers.map View.of, v.1 ≠ none ∧ v.2 ≠ none := by
    intro v member
    obtain ⟨sp, inside, rfl⟩ := List.mem_map.mp member
    refine ⟨?_, timed sp inside⟩
    have named : sp .printer ∈ ((serverOrder list oldOrder).eraseDupsBy sameName).map (queueOf site) :=
      queues ▸ List.mem_map_of_mem inside
    obtain ⟨s, member, same⟩ := List.mem_map.mp named
    show sp .printer ≠ none
    rw [← same]
    exact found s (mem_of_mem_eraseDupsBy _ member)
  have never : ∀ q t, lastDone [] q = some t →
      (serverOrder list oldOrder).length < t ∧ t < 2 ^ 31 := fun _ _ => nofun
  by_cases few : (serverOrder list oldOrder).length < 2 ^ 31
  · obtain ⟨stamps, flags, rising, bounds⟩ := stamped few
    have same : (servers.map View.of).map View.flag = stamps.map Nat.cast := by
      rw [← flags, List.map_map]
      rfl
    obtain ⟨seed, stamped, sorted, small⟩ := exists_seed same once rising bounds
    exact ⟨seed, once, given, fun _ => stamped, sorted, small, never⟩
  · refine ⟨fun _ => 0, once, given, fun small => absurd small few, ?_, fun _ _ => Nat.zero_le _, never⟩
    exact List.pairwise_of_forall fun _ _ => le_rfl

/-! ## The order that is read back -/

/-- Every name is, but for the case of letters, the main name of a queue, and one that is saved is configured. -/
structure MainNames (site : Site) (list : Bytes) (oldOrder : Option Bytes) : Prop where
  named : ∀ s ∈ serverOrder list oldOrder, ∃ p, queueOf site s = some p ∧ foldCase p = foldCase s
  listed : ∀ s ∈ savedNames oldOrder, ∃ c ∈ namesIn list, foldCase s = foldCase c

theorem MainNames.apart (main : MainNames site list oldOrder) : Apart site list oldOrder where
  found s member := by
    obtain ⟨p, known, -⟩ := main.named s member
    exact known ▸ Option.some_ne_none p
  listed s member := by
    obtain ⟨c, inside, same⟩ := main.listed s member
    exact List.mem_map.mpr ⟨c, inside, (queueOf_congr same).symm⟩
  spelled s first t second same := by
    obtain ⟨p, knownS, foldS⟩ := main.named s first
    obtain ⟨q, knownT, foldT⟩ := main.named t second
    obtain rfl : p = q := Option.some.inj (knownS.symm.trans (same.trans knownT))
    exact foldS.symm.trans foldT

theorem cleanChar_spec {c : UInt8} (clean : QueueTraversal.cleanChar c = true) :
    c ∉ fileSep ∧ isSpace c = false ∧ c ≠ 0 ∧ Unescaped c := by
  have table : ∀ c : UInt8, (!QueueTraversal.cleanChar c || (!fileSep.contains c && !isSpace c && c != 0 && c != 37 &&
      c != 63)) = true := forall_byte (by decide +kernel)
  have here := table c
  rw [clean] at here
  simpa [Unescaped, and_assoc] using here

theorem pieces_intercalate {ps : List Bytes} (clean : ∀ p ∈ ps, p ≠ [] ∧ p.all QueueTraversal.cleanChar = true) :
    pieces fileSep (List.intercalate [44] ps) = ps := by
  induction ps with
  | nil => rfl
  | cons p ps ih =>
      obtain ⟨⟨given, here⟩, later⟩ := List.forall_mem_cons.mp clean
      have whole : ∀ d ∈ p, d ∉ fileSep := fun d member => (cleanChar_spec (List.all_eq_true.mp here d member)).1
      cases ps with
      | nil => rw [List.intercalate_singleton, pieces_of_whole whole given]
      | cons next ps =>
          rw [List.intercalate_cons_cons, List.append_assoc, List.singleton_append,
            pieces_append whole (by decide), ih later]

/-- The names that were saved are read back. -/
theorem savedNames_joinLineList {ps : List Bytes} (clean : ∀ p ∈ ps, p ≠ [] ∧ p.all QueueTraversal.cleanChar = true) :
    savedNames (joinLineList 44 ps) = ps := by
  have kept : ps.filter (· ≠ []) = ps := List.filter_eq_self.mpr fun p member => decide_eq_true (clean p member).1
  unfold joinLineList
  rw [kept]
  cases ps with
  | nil => rfl
  | cons p ps =>
      dsimp only [savedNames]
      have chars : ∀ c ∈ List.intercalate [44] (p :: ps), c ≠ 0 ∧ Unescaped c := by
        have spread : ∀ qs : List Bytes, (∀ q ∈ qs, ∀ c ∈ q, c ≠ 0 ∧ Unescaped c) →
            ∀ c ∈ List.intercalate [44] qs, c ≠ 0 ∧ Unescaped c := by
          intro qs
          induction qs with
          | nil => exact fun _ c member => nomatch member
          | cons q qs ih =>
              intro each
              obtain ⟨here, later⟩ := List.forall_mem_cons.mp each
              cases qs with
              | nil => rwa [List.intercalate_singleton]
              | cons next qs =>
                  rw [List.intercalate_cons_cons]
                  refine List.forall_mem_append.mpr ⟨List.forall_mem_append.mpr ⟨here, ?_⟩, ih later⟩
                  exact List.forall_mem_singleton.mpr ⟨by decide, by decide, by decide⟩
        refine spread _ fun q member c inside => ?_
        exact (cleanChar_spec (List.all_eq_true.mp (clean q member).2 c inside)).2.2
      have read : SecureHeader.unescape (List.intercalate [44] (p :: ps)) = List.intercalate [44] (p :: ps) := by
        have same := unescapeChars_append (fun c member => (chars c member).2) []
        rw [List.append_nil] at same
        rw [SecureHeader.unescape, same]
        exact (congrArg cstr (List.append_nil _)).trans (cstr_of_noNul fun nul => (chars 0 nul).1 rfl)
      rw [read, namesIn, pieces_intercalate clean]
      have trimmed : (p :: ps).map trimSpace = p :: ps := by
        refine (List.map_congr_left fun q member => ?_).trans (List.map_id _)
        have blank : ∀ c ∈ q, isSpace c = false := fun c inside =>
          (cleanChar_spec (List.all_eq_true.mp (clean q member).2 c inside)).2.1
        exact trimSpace_of_clean (fun c first => blank c (List.mem_of_mem_head? first))
          fun c last => blank c (List.mem_of_mem_getLast? last)
      rw [trimmed, kept]

/-- Names that were done before add nothing to the list. -/
theorem fresh_append {done ps cs : List Bytes} (new : (done ++ ps).Pairwise fun s t => sameName t s = false)
    (seen : ∀ c ∈ cs, (done ++ ps).any (sameName c) = true) : fresh done (ps ++ cs) = ps := by
  induction ps generalizing done with
  | nil =>
      rw [List.append_nil] at seen
      have none_ : cs.filter (fun s => !done.any (sameName s)) = [] :=
        List.filter_eq_nil_iff.mpr fun c member => by simp [seen c member]
      rw [List.nil_append, fresh, none_]
      rfl
  | cons p ps ih =>
      have shape : done ++ p :: ps = (done ++ [p]) ++ ps := by rw [List.append_assoc]; rfl
      have before : done.any (sameName p) = false := by
        refine List.any_eq_false.mpr fun u member => ne_true_of_eq_false ?_
        exact (List.pairwise_append.mp new).2.2 u member p List.mem_cons_self
      rw [List.cons_append, fresh_cons_new before, ih (shape ▸ new) (shape ▸ seen)]

/-- The list that was saved is made again. -/
theorem readBack {servers : List Fields} (short : ∀ s ∈ serverOrder list oldOrder, s.length ≤ 511)
    (main : MainNames site list oldOrder) (queues : (printers servers).Perm (expected site list oldOrder)) :
    ∃ again, getSubserverInfo site spools list (savedOrder servers) = some again ∧ printers again = printers servers := by
  have order := serverOrder_eq list oldOrder
  have known : ∀ p ∈ printers servers, queueOf site p = some p ∧ p ≠ [] ∧ p.length ≤ 511 := by
    intro p member
    have there := ((expected_once site list oldOrder).2 p).mp (queues.mem_iff.mp member)
    obtain ⟨c, named, leads⟩ := List.mem_filterMap.mp there
    have inside : c ∈ serverOrder list oldOrder := order ▸ List.mem_append_right _ named
    obtain ⟨q, found, fold⟩ := main.named c inside
    obtain rfl : p = q := Option.some.inj (leads.symm.trans found)
    have long : p.length = c.length := by
      have same := congrArg List.length fold
      rwa [foldCase, foldCase, List.length_map, List.length_map] at same
    refine ⟨(queueOf_congr fold).trans leads, fun empty => ?_, long ▸ short c inside⟩
    rw [empty] at long
    exact ne_nil_of_mem_serverOrder inside (List.eq_nil_of_length_eq_zero long.symm)
  have clean : ∀ p ∈ printers servers, p ≠ [] ∧ p.all QueueTraversal.cleanChar = true := by
    intro p member
    obtain ⟨leads, given, small⟩ := known p member
    obtain ⟨⟨name, vars⟩, set_, -⟩ := Option.map_eq_some_iff.mp leads
    have chars := (Site.of_setupPrinter set_).1
    rw [Option.getD_some, List.take_of_length_le small] at chars
    exact ⟨given, chars⟩
  have names : serverOrder list (savedOrder servers) = printers servers ++ namesIn list := by
    rw [serverOrder_eq, savedOrder, savedNames_joinLineList clean]
  have configured_ : ∀ c ∈ namesIn list, c.length ≤ 511 ∧ ∃ p ∈ printers servers, queueOf site c = some p ∧
      foldCase c = foldCase p := by
    intro c named
    have inside : c ∈ serverOrder list oldOrder := order ▸ List.mem_append_right _ named
    obtain ⟨p, leads, fold⟩ := main.named c inside
    refine ⟨short c inside, p, queues.mem_iff.mpr (((expected_once site list oldOrder).2 p).mpr ?_), leads, fold.symm⟩
    exact List.mem_filterMap.mpr ⟨c, named, leads⟩
  have small : ∀ s ∈ serverOrder list (savedOrder servers), s.length ≤ 511 := by
    rw [names]
    exact List.forall_mem_append.mpr ⟨fun p member => (known p member).2.2, fun c member => (configured_ c member).1⟩
  have found : ∀ s ∈ serverOrder list (savedOrder servers), queueOf site s ≠ none := by
    rw [names]
    refine List.forall_mem_append.mpr ⟨fun p member => ?_, fun c member => ?_⟩
    · exact (known p member).1 ▸ Option.some_ne_none p
    · obtain ⟨-, p, -, leads, -⟩ := configured_ c member
      exact leads ▸ Option.some_ne_none p
  have once : (printers servers).Nodup := queues.nodup_iff.mpr (expected_once site list oldOrder).1
  have apart : (printers servers).Pairwise fun s t => sameName t s = false := by
    refine once.imp_of_mem fun {s t} first second different => ?_
    refine beq_eq_false_iff_ne.mpr fun fold => different ?_
    have same : queueOf site t = queueOf site s := queueOf_congr fold
    rw [(known t second).1, (known s first).1] at same
    exact (Option.some.inj same).symm
  have whole : (serverOrder list (savedOrder servers)).eraseDupsBy sameName = printers servers := by
    have all : fresh [] (serverOrder list (savedOrder servers)) =
        (serverOrder list (savedOrder servers)).eraseDupsBy sameName :=
      congrArg (List.eraseDupsBy sameName) (List.filter_eq_self.mpr fun _ _ => rfl)
    rw [← all, names]
    refine fresh_append apart fun c member => ?_
    obtain ⟨-, p, inside, -, fold⟩ := configured_ c member
    exact List.any_eq_true.mpr ⟨p, inside, beq_iff_eq.mpr fold⟩
  obtain ⟨again, ran, listed, -⟩ := printers_getSubserverInfo spools small found
  refine ⟨again, ran, ?_⟩
  rw [printers_eq listed, whole, List.map_map]
  refine (List.map_congr_left fun p member => ?_).trans (List.map_id _)
  rw [Function.comp_apply, (known p member).1]
  rfl

/-- The list is the expected one exactly if all names lead to configured queues and none of these has two names. Then a
server keeps it in the order of the last completions, and if the names are main names, a later server starts with it. -/
theorem servers_balanced (site : Site) (spools : Spools) (list : Bytes) (oldOrder : Option Bytes)
    (short : ∀ s ∈ serverOrder list oldOrder, s.length ≤ 511) :
    ((∃ servers, getSubserverInfo site spools list oldOrder = some servers ∧
        printers servers = expected site list oldOrder) ↔ Apart site list oldOrder) ∧
      ∀ (setup : QueueSetup) (start q : QueueServer) (history : List (Bytes × Nat)), Apart site list oldOrder →
        getSubserverInfo site spools list oldOrder = some start.subservers →
          Served setup (serverOrder list oldOrder).length start q history →
            (printers q.subservers).Perm (expected site list oldOrder) ∧
              (∀ e next, Ticks (serverOrder list oldOrder).length e → QueueServer.Step setup q e next →
                Reordered (lastDone (history ++ completion q e)) (printers q.subservers) (printers next.subservers)) ∧
              (MainNames site list oldOrder → ∀ later : Spools, ∃ again,
                getSubserverInfo site later list (savedOrder q.subservers) = some again ∧
                  printers again = printers q.subservers) := by
  refine ⟨getSubserverInfo_iff spools short, fun setup start q history apart ran served => ?_⟩
  obtain ⟨_, again, listed⟩ := (getSubserverInfo_iff spools short).mpr apart
  obtain rfl := Option.some.inj (ran.symm.trans again)
  have once : (printers start.subservers).Nodup := listed ▸ (expected_once site list oldOrder).1
  obtain ⟨seed, order⟩ := start_order short ran once
  obtain ⟨now, queues⟩ := served_order order served
  have same : (printers q.subservers).Perm (expected site list oldOrder) := listed ▸ queues
  exact ⟨same, fun e next ticks step => (step_order now ticks step).2, fun main later => readBack short main same⟩

/-- A host without printcap entries, on which every name is a queue with the same variables. -/
def plainSite : Site where
  heads := []
  behind := []
  setVarList _ _ _ := ⟨some [47], none, none, none, none, none⟩
  expand _ _ s := s
  defaultRemoteHost := none
  fqdnHost := []
  spooled _ := true
  here _ := false

def emptySpools : Spools := ⟨fun _ _ => [47], fun _ => .empty, fun _ => 0, fun _ => 0, fun _ => 0, fun _ _ => false⟩

/-- The queues `a` and `b`, where `b` was saved as the first. -/
theorem servers_balanced_two : ∃ servers, getSubserverInfo plainSite emptySpools [97, 44, 98] (some [98, 44, 97]) = some servers ∧
    printers servers = [[98], [97]] := by
  have names : serverOrder [97, 44, 98] (some [98, 44, 97]) = [[98], [97], [97], [98]] := by decide
  have short : ∀ s ∈ serverOrder [97, 44, 98] (some [98, 44, 97]), s.length ≤ 511 := by
    rw [names]
    decide
  have order : expected plainSite [97, 44, 98] (some [98, 44, 97]) = [[98], [97]] := by decide +kernel
  rw [← order]
  refine (servers_balanced plainSite emptySpools [97, 44, 98] (some [98, 44, 97]) short).1.mpr ⟨?_, ?_, ?_⟩
  · decide
  · decide +kernel
  · decide +kernel

/-- Where `b` is no longer configured but was saved, the list has it all the same. -/
theorem unlisted_server : ¬ ∀ (site : Site) (spools : Spools) (list : Bytes) (oldOrder : Option Bytes),
    (∀ s ∈ serverOrder list oldOrder, s.length ≤ 511 ∧ queueOf site s ≠ none) →
      ∃ servers, getSubserverInfo site spools list oldOrder = some servers ∧
        printers servers = expected site list oldOrder := by
  intro every
  have names : serverOrder [97] (some [98, 44, 97]) = [[98], [97], [97]] := by decide
  have found : ∀ s ∈ serverOrder [97] (some [98, 44, 97]), s.length ≤ 511 ∧ queueOf plainSite s ≠ none := by
    rw [names]
    decide
  obtain ⟨servers, ran, same⟩ := every plainSite emptySpools [97] (some [98, 44, 97]) found
  have apart := (getSubserverInfo_iff emptySpools fun s member => (found s member).1).mp ⟨servers, ran, same⟩
  have listed := apart.listed [98] (by decide)
  exact absurd listed (by decide +kernel)

end SubserverOrder

end LPRng
