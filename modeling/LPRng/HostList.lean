import LPRng.GlobPattern
import LPRng.Permission

/-!
# Lists of hosts

An entry of a list of hosts may begin with a `!`, which turns its answer round. `Match_ipaddr_value`
keeps the `!` for all entries behind the one that has it. Its answer is compared with what the entries
come to on their own.
-/

namespace LPRng

namespace Permission

/-! ## One entry -/

def Pattern.inverted : Pattern → Bool
  | .mk text _ => text.head? = some 33

/-- What stands behind the `!`. -/
def Pattern.rest : Pattern → Bytes
  | .mk text _ => if text.head? = some 33 then text.tail else text

def Pattern.contents : Pattern → List Pattern
  | .mk _ contents => contents

/-- `Match_ipaddr_value`. A host without a name matches nothing. -/
def matchIpaddrValue (db : Databases) (list : List Pattern) (host : HostInformation) : Bool :=
  if host.fqdn = none then true else (matchIpaddrs db host ⟨true, false, host.hostNames⟩ list).result

section

variable (db : Databases) (host : HostInformation)

/-- Whether the host is what a text stands for: it is in a netgroup, the list in a file matches it, a
pattern matches one of its names, or one of its addresses is like the address. -/
def textMatches (str : Bytes) (contents : List Pattern) : Bool :=
  if str.head? = some 64 then db.innetgr str.tail host.shorthost none || db.innetgr str.tail host.fqdn none
  else if namesFile str then !(matchIpaddrs db host ⟨true, false, host.hostNames⟩ contents).result
  else
    host.hostNames.any (fun name => !globPattern db.behind (lowercase str) (lowercase name)) ||
      match formAddrAndMask db (lowercase str) host.hAddrtype with
      | none => false
      | some (addr, mask) => host.hAddrList.any fun h => !cmpIpAddr h addr mask host.hAddrtype.length

def restMatches (p : Pattern) : Bool := textMatches db host p.rest p.contents

/-- An entry on its own. -/
def entryMatches (p : Pattern) : Bool := p.inverted != restMatches db host p

/-- The entries that are read as if they had a `!`. -/
def behindInverted (list : List Pattern) : List Pattern :=
  (list.dropWhile (!·.inverted)).filter (!·.inverted)

/-- The `!` does not show: an entry that is read as it stands matches, or of those behind it none is
without a `!` of its own, or some of these match and some do not. -/
def Unaffected (list : List Pattern) : Prop :=
  (∃ p ∈ list, (p.inverted = true ∨ p ∈ list.takeWhile (!·.inverted)) ∧ entryMatches db host p = true) ∨
    ((∃ p ∈ behindInverted list, entryMatches db host p = true) ↔
      ∃ p ∈ behindInverted list, entryMatches db host p = false)

end

section

variable {db : Databases} {host : HostInformation} {st : HostMatch} {p : Pattern} {list : List Pattern}

theorem matchNames_eq (behind str : Bytes) {names others : List Bytes} (same : names.map lowercase = others.map lowercase) :
    (matchNames behind str names).1 = !others.any fun name => !globPattern behind str (lowercase name) := by
  rw [matchNames_agrees behind str same]
  clear same
  induction others with
  | nil => rfl
  | cons name others ih =>
      rw [matchNames, List.any_cons]
      cases missed : globPattern behind str (lowercase name) with
      | false => rfl
      | true => exact ih

theorem matchIpaddrs_result {others : HostMatch} (agree : st.Agrees others) (list : List Pattern) :
    (matchIpaddrs db host st list).result = (matchIpaddrs db host others list).result := by
  have self : others.Agrees others := ⟨rfl, rfl, rfl⟩
  rw [(agrees_matchIpaddrs db host agree list).result, (agrees_matchIpaddrs db host self list).result]

/-- One turn of the loop. -/
theorem matchIpaddr_eq (db : Databases) (p : Pattern) (same : st.names.map lowercase = host.hostNames.map lowercase) :
    (matchIpaddr db host st p).result = !((st.invert || p.inverted) != restMatches db host p) ∧
      (matchIpaddr db host st p).invert = (st.invert || p.inverted) := by
  cases p with
  | mk text contents =>
      refine ⟨?_, rfl⟩
      have answer : ∀ invert : Bool, ∀ missed matched : Bool, missed = !matched →
          (if invert then !missed else missed) = !(invert != matched) := by decide
      rw [matchIpaddr, HostMatch.answered]
      refine answer _ _ _ ?_
      change _ = !textMatches db host (if text.head? = some 33 then text.tail else text) contents
      generalize (if text.head? = some 33 then text.tail else text) = str
      rw [textMatches]
      split
      · rw [Bool.not_or]
      · split
        · rw [Bool.not_not]
          have agree : HostMatch.Agrees ⟨true, false, st.names⟩ ⟨true, false, host.hostNames⟩ := ⟨rfl, rfl, same⟩
          exact matchIpaddrs_result agree contents
        · dsimp only
          rw [matchNames_eq _ _ same, Bool.not_or]
          congr 1
          cases formAddrAndMask db (lowercase str) host.hAddrtype with
          | none => rfl
          | some parts =>
              dsimp only
              rw [List.not_any_eq_all_not]
              simp only [Bool.not_not]

theorem matchIpaddrs_of_result (matched : st.result = false) : matchIpaddrs db host st list = st := by
  cases list with
  | nil => rw [matchIpaddrs]
  | cons p list => rw [matchIpaddrs, matched, if_neg Bool.false_ne_true]

theorem entryMatches_of_inverted (inverted : p.inverted = true) : entryMatches db host p = !restMatches db host p := by
  rw [entryMatches, inverted, Bool.true_bne]

theorem entryMatches_of_plain (plain : p.inverted = false) : entryMatches db host p = restMatches db host p := by
  rw [entryMatches, plain, Bool.false_bne]

/-- Behind a `!` all entries are turned round. -/
theorem matchIpaddrs_inverted (same : st.names.map lowercase = host.hostNames.map lowercase) (pending : st.result = true)
    (inverted : st.invert = true) :
    (matchIpaddrs db host st list).result = false ↔ ∃ p ∈ list, restMatches db host p = false := by
  induction list generalizing st with
  | nil => simp [matchIpaddrs, pending]
  | cons p list ih =>
      have step := matchIpaddr_eq db p same
      have names := (names_matchIpaddr db host st p).trans same
      rw [inverted, Bool.true_or, Bool.true_bne, Bool.not_not] at step
      rw [matchIpaddrs, if_pos pending, List.exists_mem_cons_iff]
      cases rest : restMatches db host p with
      | false =>
          rw [matchIpaddrs_of_result (step.1.trans rest)]
          exact iff_of_true (step.1.trans rest) (.inl rfl)
      | true =>
          rw [ih names (step.1.trans rest) step.2]
          exact ⟨.inr, fun which => which.resolve_left nofun⟩

theorem matchIpaddrs_plain (same : st.names.map lowercase = host.hostNames.map lowercase) (pending : st.result = true)
    (plain : st.invert = false) :
    (matchIpaddrs db host st list).result = false ↔
      (∃ p ∈ list, (p.inverted = true ∨ p ∈ list.takeWhile (!·.inverted)) ∧ entryMatches db host p = true) ∨
        ∃ p ∈ behindInverted list, entryMatches db host p = false := by
  induction list generalizing st with
  | nil => simp [matchIpaddrs, pending, behindInverted]
  | cons p list ih =>
      have step := matchIpaddr_eq db p same
      have names := (names_matchIpaddr db host st p).trans same
      rw [plain, Bool.false_or] at step
      rw [matchIpaddrs, if_pos pending]
      cases bang : p.inverted with
      | true =>
          rw [bang] at step
          have before : (p :: list).takeWhile (!·.inverted) = [] := by simp [bang]
          have behind : behindInverted (p :: list) = list.filter (!·.inverted) := by simp [behindInverted, bang]
          rw [before, behind]
          cases rest : restMatches db host p with
          | false =>
              have matched : (matchIpaddr db host st p).result = false := by rw [step.1, rest]; rfl
              rw [matchIpaddrs_of_result matched]
              refine iff_of_true matched (.inl ⟨p, List.mem_cons_self .., .inl bang, ?_⟩)
              rw [entryMatches_of_inverted bang, rest]
              rfl
          | true =>
              rw [matchIpaddrs_inverted names (by rw [step.1, rest]; rfl) step.2]
              constructor
              · intro found
                rcases found with ⟨q, member, missed⟩
                cases kind : q.inverted with
                | true =>
                    refine .inl ⟨q, List.mem_cons_of_mem _ member, .inl kind, ?_⟩
                    rw [entryMatches_of_inverted kind, missed]
                    rfl
                | false =>
                    refine .inr ⟨q, List.mem_filter.mpr ⟨member, by rw [kind]; rfl⟩, ?_⟩
                    rw [entryMatches_of_plain kind, missed]
              · intro found
                rcases found with ⟨q, member, kind, matched⟩ | ⟨q, member, missed⟩
                · have turned := kind.resolve_right List.not_mem_nil
                  rw [entryMatches_of_inverted turned, Bool.not_eq_true'] at matched
                  rcases List.mem_cons.mp member with rfl | later
                  · cases rest.symm.trans matched
                  · exact ⟨q, later, matched⟩
                · rcases List.mem_filter.mp member with ⟨within, kind⟩
                  rw [entryMatches_of_plain (by simpa using kind)] at missed
                  exact ⟨q, within, missed⟩
      | false =>
          rw [bang] at step
          have before : (p :: list).takeWhile (!·.inverted) = p :: list.takeWhile (!·.inverted) := by simp [bang]
          have behind : behindInverted (p :: list) = behindInverted list := by simp [behindInverted, bang]
          rw [before, behind]
          cases rest : restMatches db host p with
          | true =>
              have matched : (matchIpaddr db host st p).result = false := by rw [step.1, rest]; rfl
              rw [matchIpaddrs_of_result matched]
              refine iff_of_true matched (.inl ⟨p, List.mem_cons_self .., .inr (List.mem_cons_self ..), ?_⟩)
              rw [entryMatches_of_plain bang, rest]
          | false =>
              have missed : entryMatches db host p = false := by rw [entryMatches_of_plain bang, rest]
              rw [ih names (by rw [step.1, rest]; rfl) step.2]
              refine or_congr_left ⟨fun found => ?_, fun found => ?_⟩
              · rcases found with ⟨q, member, kind, matched⟩
                exact ⟨q, List.mem_cons_of_mem _ member, kind.imp_right (List.mem_cons_of_mem _), matched⟩
              · rcases found with ⟨q, member, kind, matched⟩
                have other : q ≠ p := fun same => by cases same; cases missed.symm.trans matched
                exact ⟨q, (List.mem_cons.mp member).resolve_left other,
                  kind.imp_right fun first => (List.mem_cons.mp first).resolve_left other, matched⟩

theorem exists_entryMatches_iff : (∃ p ∈ list, entryMatches db host p = true) ↔
    (∃ p ∈ list, (p.inverted = true ∨ p ∈ list.takeWhile (!·.inverted)) ∧ entryMatches db host p = true) ∨
      ∃ p ∈ behindInverted list, entryMatches db host p = true := by
  constructor
  · intro found
    rcases found with ⟨p, member, matched⟩
    cases kind : p.inverted with
    | true => exact .inl ⟨p, member, .inl kind, matched⟩
    | false =>
        have place := member
        rw [← List.takeWhile_append_dropWhile (p := (!·.inverted)) (l := list), List.mem_append] at place
        rcases place with front | behind
        · exact .inl ⟨p, member, .inr front, matched⟩
        · exact .inr ⟨p, List.mem_filter.mpr ⟨behind, by rw [kind]; rfl⟩, matched⟩
  · intro found
    rcases found with ⟨p, member, -, matched⟩ | ⟨p, member, matched⟩
    · exact ⟨p, member, matched⟩
    · exact ⟨p, (List.dropWhile_sublist _).subset (List.mem_filter.mp member).1, matched⟩

/-- A list matches if one of its entries does, exactly if its first `!` does not show. A host without a
name has to match no entry. -/
theorem matchIpaddrValue_entries_iff (db : Databases) (host : HostInformation) (list : List Pattern) :
    (matchIpaddrValue db list host = false ↔ ∃ p ∈ list, entryMatches db host p = true) ↔
      if host.fqdn = none then ∀ p ∈ list, entryMatches db host p = false else Unaffected db host list := by
  unfold matchIpaddrValue
  split
  · rw [iff_false_left Bool.true_eq_false.mp]
    constructor
    · intro none p member
      exact Bool.eq_false_iff.mpr fun matched => none ⟨p, member, matched⟩
    · intro all found
      rcases found with ⟨p, member, matched⟩
      cases (all p member).symm.trans matched
  · rw [matchIpaddrs_plain rfl rfl rfl, exists_entryMatches_iff, Unaffected]
    generalize (∃ p ∈ list, (p.inverted = true ∨ p ∈ list.takeWhile (!·.inverted)) ∧ entryMatches db host p = true) = early
    by_cases found : early
    · simp only [found, true_or]
    · simp only [found, false_or]
      exact iff_comm

end

/-! ## A host that is excluded -/

/-- A host of one name and one address. -/
def namedHost (name address : Bytes) : HostInformation := ⟨some name, some name, [name], .inet, [address]⟩

theorem textMatches_name {str name address : Bytes} (tame : str.dropWhile (!Globmatch.wild ·) = [])
    (lower : lowercase str = str) (lower' : lowercase name = name) (first : str.head? ≠ some 64)
    (inside : namesFile str = false) :
    textMatches noDatabases (namedHost name address) str [] = decide (strcasecmp str name = .eq) := by
  have unknown : formAddrAndMask noDatabases str .inet = none := by rw [formAddrAndMask]; rfl
  rw [textMatches, if_neg first, inside, if_neg Bool.false_ne_true, lower]
  dsimp only [namedHost]
  rw [unknown, List.any_cons, lower', Globmatch.globPattern_whole tame]
  simp

/-- The host `a` and the list `!a,b`: the host is not `b` either, and the list matches it. -/
theorem excluded_matched :
    matchIpaddrValue noDatabases [.mk (lit "!a") [], .mk (lit "b") []] (namedHost (lit "a") [10, 0, 0, 1]) = false ∧
      ¬∃ p ∈ [Pattern.mk (lit "!a") [], .mk (lit "b") []],
        entryMatches noDatabases (namedHost (lit "a") [10, 0, 0, 1]) p = true := by
  have own : textMatches noDatabases (namedHost (lit "a") [10, 0, 0, 1]) (lit "a") [] = true :=
    textMatches_name (by decide) (by decide) (by decide) (by decide) (by decide)
  have other : textMatches noDatabases (namedHost (lit "a") [10, 0, 0, 1]) (lit "b") [] = false :=
    textMatches_name (by decide) (by decide) (by decide) (by decide) (by decide)
  have first : entryMatches noDatabases (namedHost (lit "a") [10, 0, 0, 1]) (.mk (lit "!a") []) = false := by
    rw [entryMatches_of_inverted (by decide)]
    exact congrArg (!·) own
  have second : entryMatches noDatabases (namedHost (lit "a") [10, 0, 0, 1]) (.mk (lit "b") []) = false := by
    rw [entryMatches_of_plain (by decide)]
    exact other
  constructor
  · rw [matchIpaddrValue, if_neg (by decide), matchIpaddrs_plain rfl rfl rfl]
    exact .inr ⟨.mk (lit "b") [], List.mem_singleton_self _, second⟩
  · intro found
    rcases found with ⟨p, member, matched⟩
    rcases List.mem_pair.mp member with rfl | rfl
    · cases first.symm.trans matched
    · cases second.symm.trans matched

end Permission

end LPRng
