import LPRng.Split
import LPRng.TicketFile

/-!
# The tests of a permission line

A permission line is a list of tests, each with a key and a list of patterns. A test
compares something that is known of the request, of the connection or of the job with its
patterns, and answers 1 if none of them matches, as in the source. `true` stands for this
answer.

A test of a host writes the names of the host in lower case, in the record it is given.
The record is therefore handed on from test to test.
-/

namespace LPRng

namespace Permission

/-! ## Patterns with wildcards -/

/-- A byte as a `char`. -/
def sval (c : UInt8) : Int := (c.toNat : Int).bmod 256

/-- The characters between brackets, and ranges of them, compared with the character `ch`;
`low` is the last one, 0 before the first and behind a range. -/
def classMisses (ch : UInt8) (low : Int) : Bytes → Bool
  | [] => true
  | [p] => ch != p
  | p :: high :: ps =>
      if low ≠ 0 ∧ p = 45 then
        if low ≤ sval ch ∧ sval ch ≤ sval high then false else classMisses ch 0 ps
      else if ch = p then false
      else classMisses ch (sval p) (high :: ps)

/-- `glob_pattern`. A class with `^` matches the end of the text too, and the rest of the
pattern is then compared with the bytes `behind` it. -/
def globPattern (behind : Bytes) (pattern str : Bytes) : Bool :=
  match found : pattern.dropWhile (!(lit "*?[").contains ·) with
  | [] => strcasecmp pattern str ≠ .eq
  | c :: rest =>
      have shorter : rest.length < pattern.length := by
        have part := (List.dropWhile_sublist (!(lit "*?[").contains ·) (l := pattern)).length_le
        rw [found] at part
        exact part
      let len := pattern.length - (rest.length + 1)
      if strcasecmp (pattern.take len) (str.take len) ≠ .eq then true
      else
        let str := str.drop len
        if c = 63 then
          match str with
          | [] => true
          | _ :: s => globPattern behind rest s
        else if c = 91 then
          match closed : rest.dropWhile (· ≠ 93) with
          | [] => true
          | _ :: after =>
              have shorter' : after.length < pattern.length := by
                have part := (List.dropWhile_sublist (fun c : UInt8 => decide (c ≠ 93)) (l := rest)).length_le
                rw [closed] at part
                exact lt_trans part shorter
              let range := rest.takeWhile (· ≠ 93)
              let invert := range.head? = some 94
              let missed := classMisses (str.headD 0) 0 (if invert then range.tail else range)
              if (if invert then !missed else missed) then true
              else globPattern behind after (if str = [] then behind else str.tail)
        else if rest = [] then false
        else !(str.tails.any fun s => s ≠ [] && !globPattern behind rest s)
termination_by pattern.length

/-! ## Hosts -/

/-- The families of addresses, whose length is checked when a host is looked up. -/
inductive Family where
  | inet
  | inet6
  deriving DecidableEq

def Family.length : Family → Nat
  | inet => 4
  | inet6 => 16

structure HostInformation where
  shorthost : Option Bytes
  fqdn : Option Bytes
  hostNames : List Bytes
  hAddrtype : Family
  hAddrList : List Bytes

/-- A pattern with what is in the file it names, if it names one. A file that leads back to
itself has no such contents: the server would never be done with it. -/
inductive Pattern where
  | mk (text : Bytes) (contents : List Pattern)

structure Group where
  name : Bytes
  gid : Nat
  members : List Bytes

/-- What a test looks up: netgroups by name, host and user, files with patterns, users and
groups, addresses, the addresses of the server; and the bytes behind the end of a text. -/
structure Databases where
  innetgr : Bytes → Option Bytes → Option Bytes → Bool
  files : Bytes → List Pattern
  getpwnam : Bytes → Option Nat
  getgrnam : Bytes → Option Group
  groups : List Group
  inetPton : Family → Bytes → Option Bytes
  hostIP : HostInformation
  localhostIP : HostInformation
  behind : Bytes

/-- Whether a text names a file: it starts with `</`. -/
def namesFile (s : Bytes) : Bool := (lit "</").isPrefixOf s

/-- An argument of a test. In front of the name of a file may be a `!`. -/
def Databases.pattern (db : Databases) (s : Bytes) : Pattern :=
  let name := if s.head? = some 33 then s.tail else s
  .mk s (if namesFile name then db.files name.tail else [])

/-! ## Matching a text -/

mutual

/-- One turn of the loop of `match`. -/
def matchPattern (db : Databases) (str : Bytes) : Pattern → Bool
  | .mk s contents =>
      if s.head? = some 64 then !db.innetgr s.tail (some str) none
      else if namesFile s then matchList db str contents
      else globPattern db.behind s str

def matchList (db : Databases) (str : Bytes) : List Pattern → Bool
  | [] => true
  | p :: ps => matchPattern db str p && matchList db str ps

end

/-- `match`. -/
def matchText (db : Databases) (list : List Bytes) (str : Option Bytes) (invert : Bool) : Bool :=
  let result := match str with
    | none => true
    | some str => matchList db str (list.map db.pattern)
  if invert then !result else result

/-- `portmatch`. -/
def portmatch (val : Bytes) (port : Int) : Bool :=
  let low := toInt32 (strtol 10 (val.takeWhile (· ≠ 45))).1
  let high := match val.dropWhile (· ≠ 45) with
    | [] => low
    | _ :: t => toInt32 (strtol 10 t).1
  !(min low high ≤ port && port ≤ max low high)

def matchRange (list : List Bytes) (port : Int) (invert : Bool) : Bool :=
  let result := list.all (portmatch · port)
  if invert then !result else result

/-- `match_char`. The character 0 is found at the end of every text. -/
def matchChar (list : List Bytes) (value : UInt8) (invert : Bool) : Bool :=
  let result := list.all fun s => !((s ++ [0]).contains value) && !s.contains 42
  if invert then !result else result

/-- Whether the user is in the group. -/
def Group.misses (group : Group) (user : Bytes) (gid : Option Nat) : Bool :=
  gid ≠ some group.gid && group.members.all (user ≠ ·)

mutual

def ingroup (db : Databases) (user : Bytes) : Pattern → Bool
  | .mk group contents =>
      let pwent := db.getpwnam user
      if group.head? = some 64 then !db.innetgr group.tail none (some user)
      else if namesFile group then ingroupAny db user contents
      else
        match db.getgrnam group with
        | some grent => grent.misses user pwent
        | none =>
            !group.any (lit "*[]").contains ||
              db.groups.all fun grent =>
                globPattern db.behind group grent.name || grent.misses user pwent

/-- `match_group`, for a user. -/
def ingroupAny (db : Databases) (user : Bytes) : List Pattern → Bool
  | [] => true
  | p :: ps => ingroup db user p && ingroupAny db user ps

end

def matchGroup (db : Databases) (list : List Bytes) (str : Option Bytes) (invert : Bool) : Bool :=
  let result := match str with
    | none => true
    | some str => ingroupAny db str (list.map db.pattern)
  if invert then !result else result

/-! ## Matching a host -/

/-- `lowercase`. -/
def lowercase (s : Bytes) : Bytes := s.map toLower

/-- `form_addr_and_mask`. -/
def formAddrAndMask (db : Databases) (v : Bytes) (family : Family) : Option (Bytes × Bytes) :=
  match db.inetPton family (v.takeWhile (· ≠ 47)) with
  | none => none
  | some addr =>
      match v.dropWhile (· ≠ 47) with
      | [] => some (addr, List.replicate family.length 255)
      | _ :: s =>
          let (n, t) := strtol 0 s
          let m := toInt32 n
          if t ≠ [] then (db.inetPton family s).map (addr, ·)
          else if m < 0 then none
          else
            let bytecount := m.toNat / 8
            let bitcount := m.toNat % 8
            let part := if bitcount = 0 then [] else [UInt8.ofNat (256 - 2 ^ (8 - bitcount))]
            some (addr, ((List.replicate (min bytecount family.length) 255 ++ part).take family.length).rightpad
              family.length 0)

/-- `cmp_ip_addr`. -/
def cmpIpAddr (h a m : Bytes) (len : Nat) : Bool :=
  len = 0 || (List.range len).any fun i => (m.getD i 0 &&& (a.getD i 0 ^^^ h.getD i 0)) ≠ 0

/-- The names of a host compared with a pattern. They are left in lower case up to the one
that matches. -/
def matchNames (behind str : Bytes) : List Bytes → Bool × List Bytes
  | [] => (true, [])
  | name :: names =>
      if globPattern behind str (lowercase name) then
        let (result, names) := matchNames behind str names
        (result, lowercase name :: names)
      else (false, lowercase name :: names)

/-- The state of the loop of `Match_ipaddr_value`, with the names of the host. A `!` inverts
the answers of the patterns behind it too. -/
structure HostMatch where
  result : Bool
  invert : Bool
  names : List Bytes

/-- The state behind a pattern, from its answer and the names it leaves. -/
def HostMatch.answered (invert : Bool) (answer : Bool × List Bytes) : HostMatch :=
  ⟨if invert then !answer.1 else answer.1, invert, answer.2⟩

mutual

/-- One turn of the loop of `Match_ipaddr_value`. -/
def matchIpaddr (db : Databases) (host : HostInformation) (st : HostMatch) : Pattern → HostMatch
  | .mk text contents =>
      let bang := text.head? = some 33
      let str := if bang then text.tail else text
      .answered (st.invert || bang) <|
        if str.head? = some 64 then
          (!db.innetgr str.tail host.shorthost none && !db.innetgr str.tail host.fqdn none, st.names)
        else if namesFile str then
          let inner := matchIpaddrs db host ⟨true, false, st.names⟩ contents
          (inner.result, inner.names)
        else
          let (result, names) := matchNames db.behind (lowercase str) st.names
          (result &&
            match formAddrAndMask db (lowercase str) host.hAddrtype with
            | none => true
            | some (addr, mask) => host.hAddrList.all (cmpIpAddr · addr mask host.hAddrtype.length),
          names)

def matchIpaddrs (db : Databases) (host : HostInformation) (st : HostMatch) :
    List Pattern → HostMatch
  | [] => st
  | p :: ps => if st.result then matchIpaddrs db host (matchIpaddr db host st p) ps else st

end

/-- `match_host`, with the host as it is left behind. -/
def matchHost (db : Databases) (list : List Bytes) (host : Option HostInformation) (invert : Bool) :
    Bool × Option HostInformation :=
  match host with
  | none => (!invert, none)
  | some host =>
      if host.fqdn = none then (!invert, some host)
      else
        let st := matchIpaddrs db host ⟨true, false, host.hostNames⟩ (list.map db.pattern)
        (if invert then !st.result else st.result, some { host with hostNames := st.names })

/-- `Same_host`. -/
def sameHost (host remote : Option HostInformation) : Bool :=
  match host, remote with
  | some host, some remote =>
      if host.hAddrtype.length = remote.hAddrtype.length then
        host.hAddrList.all fun h1 => remote.hAddrList.all fun h2 =>
          h1.take host.hAddrtype.length ≠ h2.take host.hAddrtype.length
      else true
  | _, _ => true

/-! ## The tests -/

structure PermCheck where
  user : Option Bytes
  remoteuser : Option Bytes
  host : Option HostInformation
  remotehost : Option HostInformation
  port : Int
  printer : Option Bytes
  unixSocket : Bool
  service : UInt8
  lpc : Option Bytes
  authtype : Option Bytes
  authfrom : Option Bytes
  authuser : Option Bytes
  authca : Option Bytes

/-- The keys of tests. -/
inductive TestKey where
  | service | user | host | ip | port | remotehost | remoteip | printer | forward | samehost
  | sameuser | controlline | group | server | remoteuser | remotegroup | ifip | lpc | auth
  | authtype | authuser | authfrom | authsameuser | authjob | remoteport | unixsocket | authca
  deriving DecidableEq

def authuser : Bytes := lit "authuser"

/-- The services a test is made for, for all others it fails. -/
def whenService (services : String) (check : PermCheck) (m : Bool) : Bool :=
  if (lit services).contains check.service then m else true

/-- A test that fails when a connection is checked. -/
def unlessConnection (check : PermCheck) (m : Bool) : Bool :=
  if check.service = 88 then true else m

/-- The answer for an argument of a control line test: the line of a letter is compared with
what follows the letter. -/
def controllineMisses (db : Databases) (job : JobLists) : Bytes → Bool
  | [] => true
  | c :: t =>
      if isUpper c then
        match job.info.findStrValue [c] with
        | some s => globPattern db.behind t s
        | none => true
      else true

/-- Whether the host is not the server. -/
def remoteFromServer (db : Databases) (host : Option HostInformation) : Bool :=
  sameHost host (some db.hostIP) && sameHost host (some db.localhostIP)

/-- A test: what it answers, and the record it leaves behind. -/
def test (db : Databases) (check : PermCheck) (job : JobLists) (jobCheck : Bool) (key : TestKey)
    (args : List Bytes) (invert : Bool) : Bool × PermCheck :=
  let negate := fun m : Bool => if invert then !m else m
  let forJob := fun m : Bool => if jobCheck then m else false
  match key with
  | .user => (forJob (unlessConnection check (matchText db args check.user invert)), check)
  | .lpc => (whenService "C" check (matchText db args check.lpc invert), check)
  | .ip | .host =>
      if !jobCheck then (false, check)
      else if check.service = 88 then (true, check)
      else
        let (m, host) := matchHost db args check.host invert
        (m, { check with host })
  | .group => (forJob (unlessConnection check (matchGroup db args check.user invert)), check)
  | .remoteport | .port => (whenService "XMC" check (matchRange args check.port invert), check)
  | .remoteuser => (unlessConnection check (matchText db args check.remoteuser invert), check)
  | .remotegroup => (unlessConnection check (matchGroup db args check.remoteuser invert), check)
  | .ifip | .remotehost | .remoteip =>
      let (m, remotehost) := matchHost db args check.remotehost invert
      (m, { check with remotehost })
  | .auth => (unlessConnection check (negate (check.authuser = none)), check)
  | .authtype => (unlessConnection check (matchText db args check.authtype invert), check)
  | .authfrom => (unlessConnection check (matchText db args check.authfrom invert), check)
  | .authca => (unlessConnection check (matchText db args check.authca invert), check)
  | .authuser => (unlessConnection check (matchText db args check.authuser invert), check)
  | .controlline => (negate (forJob (args.all (controllineMisses db job))), check)
  | .printer => (unlessConnection check (matchText db args check.printer invert), check)
  | .service => (matchChar args check.service invert, check)
  | .forward | .samehost =>
      let m := sameHost check.host check.remotehost
      let r := remoteFromServer db check.remotehost
      let h := remoteFromServer db check.host
      let m := forJob (negate (if m && !h && !r then false else m))
      (if key = .forward then !m else m, check)
  | .sameuser =>
      (forJob (whenService "QMC" check (negate (check.user ≠ check.remoteuser))), check)
  | .authsameuser =>
      (forJob (whenService "QMC" check
        (negate (check.authuser ≠ job.info.findStrValue Permission.authuser))), check)
  | .authjob =>
      (whenService "QMC" check (negate (job.info.findStrValue Permission.authuser = none)), check)
  | .server => (negate (remoteFromServer db check.remotehost), check)
  | .unixsocket => (negate (!check.unixSocket), check)

/-! ## What a test leaves behind -/

/-- A host with its names in lower case. -/
def HostInformation.lower (host : HostInformation) : HostInformation :=
  { host with hostNames := host.hostNames.map lowercase }

/-- A record with the names of its hosts in lower case. -/
def PermCheck.lower (check : PermCheck) : PermCheck :=
  { check with
    host := check.host.map HostInformation.lower
    remotehost := check.remotehost.map HostInformation.lower }

@[simp] theorem lowercase_lowercase (s : Bytes) : lowercase (lowercase s) = lowercase s := by
  have twice : ∀ c, toLower (toLower c) = toLower c := fun c =>
    of_decide_eq_true (forall_byte (p := fun c => toLower (toLower c) = toLower c)
      (by decide +kernel) c)
  simp only [lowercase, List.map_map, List.map_inj_left, Function.comp_apply]
  exact fun c _ => twice c

@[simp] theorem map_lowercase_twice (names : List Bytes) :
    (names.map lowercase).map lowercase = names.map lowercase := by
  rw [List.map_map]
  exact List.map_congr_left fun name _ => lowercase_lowercase name

theorem matchNames_lower (behind str : Bytes) (names : List Bytes) :
    (matchNames behind str (names.map lowercase)).1 = (matchNames behind str names).1 ∧
      (matchNames behind str names).2.map lowercase = names.map lowercase := by
  induction names with
  | nil => exact ⟨rfl, rfl⟩
  | cons name names ih =>
      rw [List.map_cons, matchNames, matchNames, lowercase_lowercase]
      split
      · exact ⟨ih.1, by rw [List.map_cons, ih.2, lowercase_lowercase]⟩
      · exact ⟨rfl, by rw [List.map_cons, lowercase_lowercase]⟩

/-- Loops that differ in the case of names only. -/
structure HostMatch.Agrees (a b : HostMatch) : Prop where
  result : a.result = b.result
  invert : a.invert = b.invert
  names : a.names.map lowercase = b.names.map lowercase

theorem agrees_answered (invert : Bool) {left right : Bool × List Bytes} (result : left.1 = right.1)
    (names : left.2.map lowercase = right.2.map lowercase) :
    (HostMatch.answered invert left).Agrees (.answered invert right) :=
  ⟨congrArg (fun m => if invert then !m else m) result, rfl, names⟩

theorem matchNames_agrees {names others : List Bytes} (behind str : Bytes)
    (same : names.map lowercase = others.map lowercase) :
    (matchNames behind str names).1 = (matchNames behind str others).1 := by
  rw [← (matchNames_lower behind str names).1, same, (matchNames_lower behind str others).1]

section

variable (db : Databases) (host : HostInformation)

mutual

theorem names_matchIpaddr (st : HostMatch) (p : Pattern) :
    (matchIpaddr db host st p).names.map lowercase = st.names.map lowercase := by
  cases p with
  | mk text contents =>
      rw [matchIpaddr]
      dsimp only [HostMatch.answered]
      generalize (if text.head? = some 33 then text.tail else text) = str
      split
      · rfl
      · split
        · exact names_matchIpaddrs ⟨true, false, st.names⟩ contents
        · exact (matchNames_lower _ _ _).2

theorem names_matchIpaddrs (st : HostMatch) (ps : List Pattern) :
    (matchIpaddrs db host st ps).names.map lowercase = st.names.map lowercase := by
  cases ps with
  | nil => rw [matchIpaddrs]
  | cons p ps =>
      rw [matchIpaddrs]
      split
      · exact (names_matchIpaddrs _ ps).trans (names_matchIpaddr st p)
      · rfl

end

mutual

theorem agrees_matchIpaddr {a b : HostMatch} (agree : a.Agrees b) (p : Pattern) :
    (matchIpaddr db host a p).Agrees (matchIpaddr db host.lower b p) := by
  cases p with
  | mk text contents =>
      have inner := agrees_matchIpaddrs (a := ⟨true, false, a.names⟩) (b := ⟨true, false, b.names⟩)
        ⟨rfl, rfl, agree.names⟩ contents
      rw [matchIpaddr, matchIpaddr, agree.invert]
      dsimp only
      generalize (if text.head? = some 33 then text.tail else text) = str
      split
      · exact agrees_answered _ rfl agree.names
      · split
        · exact agrees_answered _ inner.result inner.names
        · have names := matchNames_agrees db.behind (lowercase str) agree.names
          refine agrees_answered _ (congrArg (· && _) names) ?_
          rw [(matchNames_lower _ _ _).2, (matchNames_lower _ _ _).2, agree.names]

theorem agrees_matchIpaddrs {a b : HostMatch} (agree : a.Agrees b) (ps : List Pattern) :
    (matchIpaddrs db host a ps).Agrees (matchIpaddrs db host.lower b ps) := by
  cases ps with
  | nil =>
      rw [matchIpaddrs, matchIpaddrs]
      exact agree
  | cons p ps =>
      rw [matchIpaddrs, matchIpaddrs, agree.result]
      split
      · exact agrees_matchIpaddrs (agrees_matchIpaddr agree p) ps
      · exact agree

end

end

/-! ### One test -/

variable {db : Databases}

theorem matchHost_lower (db : Databases) (list : List Bytes) (host : Option HostInformation) (invert : Bool) :
    (matchHost db list (host.map HostInformation.lower) invert).1 = (matchHost db list host invert).1 ∧
      (matchHost db list host invert).2.map HostInformation.lower = host.map HostInformation.lower := by
  cases host with
  | none => exact ⟨rfl, rfl⟩
  | some host =>
      have agree := agrees_matchIpaddrs db host (a := ⟨true, false, host.hostNames⟩)
        (b := ⟨true, false, host.lower.hostNames⟩)
        ⟨rfl, rfl, (map_lowercase_twice host.hostNames).symm⟩ (list.map db.pattern)
      have left := names_matchIpaddrs db host ⟨true, false, host.hostNames⟩
        (list.map db.pattern)
      by_cases unknown : host.fqdn = none
      · have unknown' : host.lower.fqdn = none := unknown
        simp only [Option.map_some, matchHost, unknown, unknown', if_true, and_self]
      · have unknown' : host.lower.fqdn ≠ none := unknown
        simp only [Option.map_some, matchHost, unknown, unknown', if_false, ← agree.result, true_and]
        exact congrArg (fun names => some { host with hostNames := names }) left

theorem sameHost_lower (host remote : Option HostInformation) :
    sameHost (host.map HostInformation.lower) (remote.map HostInformation.lower) =
      sameHost host remote := by
  cases host <;> cases remote <;> rfl

theorem remoteFromServer_lower (host : Option HostInformation) :
    remoteFromServer db (host.map HostInformation.lower) = remoteFromServer db host := by
  cases host <;> rfl

variable {job : JobLists} {jobCheck : Bool}

/-- A test does not see the case of the names of hosts. -/
theorem test_lower (check : PermCheck) (key : TestKey) (args : List Bytes) (invert : Bool) :
    (test db check.lower job jobCheck key args invert).1 =
      (test db check job jobCheck key args invert).1 := by
  have hosts := matchHost_lower db args check.host invert
  have remotes := matchHost_lower db args check.remotehost invert
  cases key
  case ip | host =>
    have service : check.lower.service = check.service := rfl
    dsimp only [test]
    rw [service]
    split
    · rfl
    · split
      · rfl
      · exact hosts.1
  case remotehost | remoteip | ifip => exact remotes.1
  case forward | samehost =>
    dsimp only [test]
    rw [PermCheck.lower, sameHost_lower, remoteFromServer_lower, remoteFromServer_lower]
  case server =>
    dsimp only [test]
    rw [PermCheck.lower, remoteFromServer_lower]
  all_goals rfl

/-- A test leaves the record as it was, but for the case of the names of hosts. -/
theorem lower_test (check : PermCheck) (key : TestKey) (args : List Bytes) (invert : Bool) :
    (test db check job jobCheck key args invert).2.lower = check.lower := by
  have hosts := matchHost_lower db args check.host invert
  have remotes := matchHost_lower db args check.remotehost invert
  cases key
  case ip | host =>
    dsimp only [test]
    split
    · rfl
    · split
      · rfl
      · exact congrArg (fun host => { check.lower with host }) hosts.2
  case remotehost | remoteip | ifip =>
    exact congrArg (fun remotehost => { check.lower with remotehost }) remotes.2
  all_goals rfl

end Permission

end LPRng
