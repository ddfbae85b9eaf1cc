import LPRng.LineList
import Mathlib.Data.List.TakeWhile

/-!
# The identity of an authenticated client

A receive method of an authenticated transfer puts the identity it has verified into the
header information, under `from` or `authfrom`. `Do_secure_work` then adds the header
lines of the file the client has sent, `Check_secure_perms` takes the identity for the
permission check from all of it, and `Check_for_missing_files` stores it with the job.
-/

namespace LPRng

namespace SecureHeader

def authca : Bytes := lit "authca"
def authfrom : Bytes := lit "authfrom"
def authtype : Bytes := lit "authtype"
def authuser : Bytes := lit "authuser"
def client : Bytes := lit "client"
def fromKey : Bytes := lit "from"
def input : Bytes := lit "input"

/-! ## The receive methods -/

/-- The receive methods that verify an identity. SSL also knows the issuer. -/
inductive Method where
  | md5
  | krb5
  | ssl (certs : Option Bytes)
  deriving DecidableEq

/-- The header information a method calls `Do_secure_work` with. -/
def Method.headerInfo (identity : Bytes) : Method → LineList
  | md5 | krb5 => LineList.setStrValue [] fromKey (some identity)
  | ssl certs =>
      (LineList.setStrValue [] authfrom (some identity)).setStrValue authca certs

/-! ## The header of the file -/

/-- `Unescape`, up to the first NUL that comes out of it. -/
def unescapeChars : Bytes → Bytes
  | [] => []
  | 37 :: a :: b :: s => UInt8.ofNat ((strtol 16 [a, b]).1 % 256).toNat :: unescapeChars s
  | c :: s => (if c = 63 then 32 else c) :: unescapeChars s

def unescape (s : Bytes) : Bytes := cstr (unescapeChars s)

/-- What one line of the header sets, and whether it is the last. Lines without a `=` count
by their position, and differently for jobs and for other requests. -/
def headerLine (hasJobsize fromServer : Bool) (linecount : Nat) (line : Bytes) :
    List (Bytes × Bytes) × Bool :=
  match line.dropWhile (· ≠ 61) with
  | _ :: t => ([(line.takeWhile (· ≠ 61), unescape t)], false)
  | [] =>
      match linecount with
      | 0 =>
          if hasJobsize then (if fromServer then [(client, line)] else [], true)
          else ([(input, line)], false)
      | 1 => ([(client, line)], true)
      | _ => ([], false)

/-- The variables of the loop over the lines in the buffer. -/
structure HeaderLines where
  sets : List (Bytes × Bytes)
  rest : Bytes
  linecount : Nat
  done : Bool

def takeLines (hasJobsize fromServer : Bool) (linecount : Nat) (text : Bytes) : HeaderLines :=
  match _ends : text.dropWhile (· ≠ 10) with
  | [] => { sets := [], rest := text, linecount := linecount, done := false }
  | _ :: s =>
      let line := text.takeWhile (· ≠ 10)
      if line = [] then { sets := [], rest := text, linecount := linecount, done := true }
      else
        let (sets, done) := headerLine hasJobsize fromServer linecount line
        if done then { sets := sets, rest := s, linecount := linecount + 1, done := true }
        else
          let r := takeLines hasJobsize fromServer (linecount + 1) s
          { r with sets := sets ++ r.sets }
termination_by text.length
decreasing_by
  have shorter := (List.dropWhile_suffix (l := text) (· ≠ 10)).length_le
  rw [_ends, List.length_cons] at shorter
  exact shorter

/-- The reads of `Do_secure_work` into its buffer of `SMALLBUFFER` bytes, `kept` the bytes of
it that stay for the next read. A read without a line end is overwritten. -/
def readHeader (hasJobsize fromServer : Bool) (kept : Bytes) (linecount : Nat)
    (content : Bytes) : List (Bytes × Bytes) :=
  if _more : content ≠ [] ∧ kept.length < 511 then
    let r := takeLines hasJobsize fromServer linecount
      (cstr (kept ++ content.take (511 - kept.length)))
    if r.done then r.sets
    else r.sets ++ readHeader hasJobsize fromServer
      (if r.linecount = linecount then kept else r.rest) r.linecount
      (content.drop (511 - kept.length))
  else []
termination_by content.length
decreasing_by
  have nonempty := List.length_pos_of_ne_nil _more.1
  rw [List.length_drop]
  omega

/-- The header information after the header of the file has been read. -/
def readInfo (headerInfo : LineList) (hasJobsize fromServer : Bool) (content : Bytes) : LineList :=
  (readHeader hasJobsize fromServer [] 0 content).foldl
    (fun l set => l.setStrValue set.1 (some set.2)) headerInfo

/-! ## The identity -/

/-- A text in a line list: the line it stands in, and the text. -/
abbrev TextRef := Bytes × Bytes

/-- The text `Find_str_value` points to. -/
def findRef (l : LineList) (key : Bytes) : Option TextRef :=
  match l.findFirstKey key optionValueSep with
  | (.eq, mid) => (valueOf (l.getD mid [])).map (l.getD mid [], ·)
  | _ => none

/-- The line that is freed when `Set_str_value` replaces or removes the value of a key. -/
def freedLine (l : LineList) (key : Bytes) : Option Bytes :=
  match l.findFirstKey key hashValueSep with
  | (.eq, mid) => l[mid]?
  | _ => none

/-- The identity a permission check sees, or that is stored with a job. -/
structure Identity where
  authfrom : Option Bytes
  authuser : Option Bytes
  deriving DecidableEq

inductive Outcome where
  /-- `JABORT`, for a missing client id. -/
  | refused
  /-- A text is read after its line has been freed. -/
  | undefined
  /-- The permission check sees one identity, the other is stored with a job. -/
  | accepted (permCheck stored : Identity)
  deriving DecidableEq

/-- What `Check_for_missing_files` stores with a job. -/
def storedIdentity (headerInfo : LineList) : Identity :=
  let authfrom := headerInfo.findStrValue authfrom
  let authuser := headerInfo.findStrValue authuser
  { authfrom := authfrom
    authuser := if authuser = none ∨ authuser = some [] then authfrom else authuser }

/-- The texts the identity is taken from. -/
def authfromRef (l : LineList) : Option TextRef := (findRef l authfrom).or (findRef l fromKey)

def authuserRef (l : LineList) (fromServer : Bool) : Option TextRef :=
  ((findRef l authuser).or (if fromServer then none else authfromRef l)).or (findRef l client)

/-- `Check_secure_perms`. The list is changed before the last of the texts in it is used. -/
def checkSecurePerms (l : LineList) (fromServer : Bool) (authtypeValue : Bytes) : Outcome :=
  let options := l.setStrValue authtype (some authtypeValue)
  if authuserRef l fromServer ≠ none ∧
      (authuserRef l fromServer).map Prod.fst = freedLine options authfrom then .undefined
  else
    let options := options.setStrValue authfrom ((authfromRef l).map Prod.snd)
    let options := options.setStrValue authuser ((authuserRef l fromServer).map Prod.snd)
    let permCheck : Identity :=
      { authfrom := options.findStrValue authfrom, authuser := options.findStrValue authuser }
    if permCheck.authuser = none then .refused
    else .accepted permCheck (storedIdentity options)

/-- What comes of the file a client sends, once its identity has been verified. -/
def receive (method : Method) (identity : Bytes) (hasJobsize fromServer : Bool)
    (authtypeValue content : Bytes) : Outcome :=
  checkSecurePerms (readInfo (method.headerInfo identity) hasJobsize fromServer content) fromServer
    authtypeValue

end SecureHeader

/-! ## Lists with any keys

Lines put in with `=#` are in the order of what stands before these two characters. A key of
letters is still found with the other separators, which all sort below the letters, as long
as no other line is cut down to this key. -/

namespace LineList

variable {l : LineList} {key line : Bytes} {ws : List (Bytes × Option Bytes)}

/-- The key a line is put in with. -/
def hashKey (line : Bytes) : List ℕ := foldCase (keyOf hashValueSep line)

theorem tells_hashKey (sorted : KeySorted hashKey l) (key : Bytes) :
    l.Tells hashKey key hashValueSep :=
  ⟨sorted, fun line _ => strcasecmp_compares key (keyOf hashValueSep line)⟩

/-- A key above all separators. -/
def Letters (key : Bytes) : Prop := ∀ c ∈ key, 64 < (toLower c).toNat

/-- A line that is cut down to the key has exactly this key. -/
def Undisguised (key line : Bytes) : Prop :=
  foldCase (keyOf optionValueSep line) = foldCase key → hashKey line = foldCase key

theorem le_of_mem_optionValueSep {c : UInt8} (separator : c ∈ optionValueSep) :
    (toLower c).toNat ≤ 64 := by
  have table : ∀ c ∈ optionValueSep, (toLower c).toNat ≤ 64 := by decide
  exact table c separator

/-- A key of letters compares to the cut key of a line as to its whole key. -/
theorem compares_cut (letters : Letters key) (undisguised : Undisguised key line) :
    (strcasecmp key (keyOf optionValueSep line)).Compares (foldCase key) (hashKey line) := by
  induction line generalizing key with
  | nil => exact strcasecmp_compares key []
  | cons c line ih =>
      unfold Undisguised hashKey at *
      by_cases ends : c ∈ hashValueSep
      · have also : c ∈ optionValueSep := isSeparator_hashValueSep.most c ends
        have cut : keyOf optionValueSep (c :: line) = [] := by simp [keyOf, also]
        have whole : keyOf hashValueSep (c :: line) = [] := by simp [keyOf, ends]
        rw [cut, whole]
        exact strcasecmp_compares key []
      · have whole : keyOf hashValueSep (c :: line) = c :: keyOf hashValueSep line := by
          simp [keyOf, ends]
        rw [whole] at undisguised ⊢
        by_cases cuts : c ∈ optionValueSep
        · have cut : keyOf optionValueSep (c :: line) = [] := by simp [keyOf, cuts]
          rw [cut] at undisguised ⊢
          cases key with
          | nil => cases undisguised rfl
          | cons d key =>
              have below := le_of_mem_optionValueSep cuts
              have above := letters d List.mem_cons_self
              exact List.cons_lt_cons_iff.mpr (.inl (below.trans_lt above))
        · have cut : keyOf optionValueSep (c :: line) = c :: keyOf optionValueSep line := by
            simp [keyOf, cuts]
          rw [cut] at undisguised ⊢
          cases key with
          | nil => exact List.nil_lt_cons _ _
          | cons d key =>
              refine compares_cons fun same => ih (fun e member =>
                letters e (List.mem_cons_of_mem d member)) fun equal => ?_
              exact (List.cons.inj (undisguised (congrArg₂ List.cons same.symm equal))).2

theorem tells_cut (sorted : KeySorted hashKey l) (letters : Letters key)
    (undisguised : ∀ line ∈ l, Undisguised key line) : l.Tells hashKey key optionValueSep :=
  ⟨sorted, fun line member => compares_cut letters (undisguised line member)⟩

/-- The lines are in the order of their keys, and the line of a key has the value set last. -/
structure HashHolds (l : LineList) (ws : List (Bytes × Option Bytes)) : Prop where
  sorted : KeySorted hashKey l
  found : ∀ key, (lookupKey hashKey (foldCase key) l).bind valueOf = lastSet ws key

/-- What setting a key to a value writes, for a key that may have separators in it. -/
def keyWrite (set : Bytes × Bytes) : Bytes × Option Bytes :=
  if set.2 = [] then (set.1, none)
  else (keyOf hashValueSep (set.1 ++ 61 :: set.2), valueOf (set.1 ++ 61 :: set.2))

theorem hashHolds_nil : HashHolds [] [] := ⟨keySorted_nil, fun _ => rfl⟩

theorem HashHolds.setStrValue (holds : l.HashHolds ws) (key value : Bytes) :
    (l.setStrValue key (some value)).HashHolds (ws ++ [keyWrite (key, value)]) := by
  cases value with
  | nil =>
      change (l.removeKey key).HashHolds (ws ++ [(key, none)])
      rw [(tells_hashKey holds.sorted key).removeKey]
      refine ⟨holds.sorted.eraseKey, fun other => ?_⟩
      rw [lookupKey_eraseKey, lastSet_snoc, ← holds.found]
      split <;> rfl
  | cons c cs =>
      change (l.addLineList (key ++ 61 :: c :: cs) hashValueSep true true).HashHolds
        (ws ++ [(keyOf hashValueSep (key ++ 61 :: c :: cs), valueOf (key ++ 61 :: c :: cs))])
      rw [(tells_hashKey holds.sorted _).addLineList rfl]
      refine ⟨holds.sorted.insertKey, fun other => ?_⟩
      rw [lookupKey_insertKey, lastSet_snoc, ← holds.found]
      by_cases same : foldCase other = hashKey (key ++ 61 :: c :: cs)
      · rw [if_pos same]
        exact (if_pos same).symm
      · rw [if_neg same]
        exact (if_neg same).symm

/-- A line has the key that what stands before its `=` has. -/
theorem keyOf_append {sep : Bytes} (ends : (61 : UInt8) ∈ sep) (key value : Bytes) :
    keyOf sep (key ++ 61 :: value) = keyOf sep key := by
  unfold keyOf
  induction key with
  | nil =>
      rw [List.nil_append, List.takeWhile_cons, List.contains_iff_mem.mpr ends]
      rfl
  | cons c key ih => rw [List.cons_append, List.takeWhile_cons, List.takeWhile_cons, ih]

/-- Setting a key adds no disguised line if the key is none. -/
theorem undisguised_setStrValue (sorted : KeySorted hashKey l) {key set value : Bytes}
    (old : ∀ line ∈ l, Undisguised key line) (new : Undisguised key set) :
    ∀ line ∈ l.setStrValue set (some value), Undisguised key line := by
  intro line member
  cases value with
  | nil =>
      change line ∈ l.removeKey set at member
      rw [(tells_hashKey sorted set).removeKey] at member
      exact old line (mem_eraseKey.mp member).1
  | cons c cs =>
      change line ∈ l.addLineList (set ++ 61 :: c :: cs) hashValueSep true true at member
      rw [(tells_hashKey sorted _).addLineList rfl] at member
      rcases mem_insertKey.mp member with rfl | ⟨inside, -⟩
      · unfold Undisguised hashKey at *
        rw [keyOf_append (by decide), keyOf_append (by decide)]
        exact new
      · exact old line inside

end LineList

namespace SecureHeader

open LineList

/-- The keys the identity is taken from. -/
def identityKeys : List Bytes := [authfrom, fromKey, authuser]

/-- What a method and the header lines of a file set, in their order. -/
def headerSets (method : Method) (identity : Bytes) (sets : List (Bytes × Bytes)) :
    List (Bytes × Bytes) :=
  (match method with
    | .md5 | .krb5 => [(fromKey, identity)]
    | .ssl certs => [(authfrom, identity), (authca, certs.getD [])]) ++ sets

/-- No header line goes on behind one of the three names with a blank, a tab or an `@`. -/
def NoneDisguised (sets : List (Bytes × Bytes)) : Prop :=
  ∀ set ∈ sets, ∀ key ∈ identityKeys, Undisguised key set.1

instance (sets : List (Bytes × Bytes)) : Decidable (NoneDisguised sets) :=
  inferInstanceAs (Decidable (∀ set ∈ sets, ∀ key ∈ identityKeys,
    foldCase (keyOf optionValueSep set.1) = foldCase key →
      foldCase (keyOf hashValueSep set.1) = foldCase key))

/-- The header lines leave the verified identity alone: what is set last for `authfrom`, or
for `from` if nothing is, is the identity, and what is set last for `authuser`, too, or it
is nothing and `authfrom` is not set. -/
structure Honest (identity : Bytes) (sets : List (Bytes × Bytes)) : Prop where
  claimed : (lastSet (sets.map keyWrite) authfrom).or (lastSet (sets.map keyWrite) fromKey) =
    some identity
  user : lastSet (sets.map keyWrite) authuser = some identity ∨
    lastSet (sets.map keyWrite) authuser = none ∧ lastSet (sets.map keyWrite) authfrom = none

variable {l : LineList} {sets : List (Bytes × Bytes)} {key : Bytes}
  {ws : List (Bytes × Option Bytes)}

/-- The list after all that a method and a file set. -/
structure Read (l : LineList) (ws : List (Bytes × Option Bytes)) : Prop where
  holds : l.HashHolds ws
  undisguised : ∀ line ∈ l, ∀ key ∈ identityKeys, Undisguised key line

theorem read_nil : Read [] [] := ⟨hashHolds_nil, fun _ => nofun⟩

theorem Read.setStrValue (read : Read l ws) {set : Bytes} (value : Bytes)
    (new : ∀ key ∈ identityKeys, Undisguised key set) :
    Read (l.setStrValue set (some value)) (ws ++ [keyWrite (set, value)]) := by
  refine ⟨read.holds.setStrValue set value, fun line member key identity => ?_⟩
  exact undisguised_setStrValue read.holds.sorted
    (fun old inside => read.undisguised old inside key identity) (new key identity) line member

theorem Read.foldl (read : Read l ws) (none_ : NoneDisguised sets) :
    Read (sets.foldl (fun l set => l.setStrValue set.1 (some set.2)) l)
      (ws ++ sets.map keyWrite) := by
  induction sets generalizing l ws with
  | nil =>
      rw [List.map_nil, List.append_nil]
      exact read
  | cons set sets ih =>
      have first := read.setStrValue set.2 (none_ set List.mem_cons_self)
      have rest := ih first fun other member => none_ other (List.mem_cons_of_mem set member)
      rw [List.append_assoc] at rest
      exact rest

theorem letters_identityKeys (identity : key ∈ identityKeys) : Letters key := by
  have table : ∀ key ∈ identityKeys, ∀ c ∈ key, 64 < (toLower c).toNat := by decide
  exact table key identity

theorem Read.tells (read : Read l ws) (identity : key ∈ identityKeys) :
    l.Tells hashKey key optionValueSep :=
  tells_cut read.holds.sorted (letters_identityKeys identity)
    fun line member => read.undisguised line member key identity

/-- An identity key is found with the value set last. -/
theorem Read.findStrValue (read : Read l ws) (key : Bytes) (identity : key ∈ identityKeys) :
    l.findStrValue key = lastSet ws key :=
  (read.tells identity).findStrValue.trans (read.holds.found key)

theorem Read.findRef (read : Read l ws) (identity : key ∈ identityKeys) :
    findRef l key = (lookupKey hashKey (foldCase key) l).bind fun line =>
      (valueOf line).map (line, ·) := by
  obtain ⟨lows, found, highs, around, outcome⟩ := (read.tells identity).findFirstKey
  rw [around.lookupKey_eq]
  unfold SecureHeader.findRef
  cases found with
  | some a =>
      rw [outcome]
      dsimp only
      rw [List.getD_eq_getElem?_getD, around.getElem?_found]
      rfl
  | none =>
      split
      · next mid equal => exact absurd equal (outcome mid)
      · rfl

theorem Read.freedLine (read : Read l ws) (key : Bytes) :
    freedLine l key = lookupKey hashKey (foldCase key) l := by
  obtain ⟨lows, found, highs, around, outcome⟩ :=
    (tells_hashKey read.holds.sorted key).findFirstKey
  rw [around.lookupKey_eq]
  unfold SecureHeader.freedLine
  cases found with
  | some a =>
      rw [outcome]
      exact around.getElem?_found
  | none =>
      split
      · next mid equal => exact absurd equal (outcome mid)
      · rfl

/-! ## What the permission check sees -/

theorem keyWrite_of_sepFree (free : SepFree key) (value : Bytes) :
    keyWrite (key, value) = (key, (some value).filter (· ≠ [])) := by
  cases value with
  | nil => rfl
  | cons c cs =>
      exact Prod.ext (keyOf_keyValue free isSeparator_hashValueSep) (valueOf_keyValue free)

theorem setStrValue_getD (l : LineList) (key : Bytes) (given : Option Bytes) :
    l.setStrValue key given = l.setStrValue key (some (given.getD [])) := by
  cases given <;> rfl

theorem filter_getD (given : Option Bytes) :
    (some (given.getD [])).filter (· ≠ []) = given.filter (· ≠ []) := by
  cases given <;> rfl

theorem undisguised_of_sepFree {set : Bytes} (free : SepFree set) : Undisguised key set := by
  have cut : ∀ sep, IsSeparator sep → keyOf sep set = set := by
    intro sep separator
    refine List.takeWhile_eq_self_iff.mpr fun c member => ?_
    have outside : c ∉ sep := fun inside => free c member (separator.most c inside)
    simpa using outside
  intro same
  rw [cut _ isSeparator_optionValueSep] at same
  unfold hashKey
  rw [cut _ isSeparator_hashValueSep]
  exact same

/-- Setting a key without separators to what is given. -/
theorem Read.set (read : Read l ws) {set : Bytes} (free : SepFree set) (given : Option Bytes) :
    Read (l.setStrValue set given) (ws ++ [(set, given.filter (· ≠ []))]) := by
  have after := read.setStrValue (given.getD []) fun key _ => undisguised_of_sepFree free
  rw [keyWrite_of_sepFree free, filter_getD, ← setStrValue_getD] at after
  exact after

/-- The line of another key stays. -/
theorem Read.lookupKey_set (read : Read l ws) {set : Bytes} (free : SepFree set)
    (given : Option Bytes) (other : foldCase key ≠ foldCase set) :
    lookupKey hashKey (foldCase key) (l.setStrValue set given) =
      lookupKey hashKey (foldCase key) l := by
  rw [setStrValue_getD]
  cases given.getD [] with
  | nil =>
      change lookupKey _ _ (l.removeKey set) = _
      rw [(tells_hashKey read.holds.sorted set).removeKey, lookupKey_eraseKey, if_neg other]
  | cons c cs =>
      change lookupKey _ _ (l.addLineList (set ++ 61 :: c :: cs) hashValueSep true true) = _
      have here : hashKey (set ++ 61 :: c :: cs) = foldCase set :=
        congrArg foldCase (keyOf_keyValue free isSeparator_hashValueSep)
      rw [(tells_hashKey read.holds.sorted _).addLineList rfl, lookupKey_insertKey, here,
        if_neg other]

/-- What becomes of the texts: the last of them must not stand in the line of `authfrom`. -/
theorem checkSecurePerms_eq (read : Read l ws) (fromServer : Bool) (authtypeValue : Bytes) :
    checkSecurePerms l fromServer authtypeValue =
      if authuserRef l fromServer ≠ none ∧ (authuserRef l fromServer).map Prod.fst =
          lookupKey hashKey (foldCase authfrom) l then .undefined
      else
        let seen : Identity :=
          { authfrom := ((authfromRef l).map Prod.snd).filter (· ≠ [])
            authuser := ((authuserRef l fromServer).map Prod.snd).filter (· ≠ []) }
        if seen.authuser = none then .refused else .accepted seen seen := by
  have typed := read.set (by decide : SepFree authtype) (some authtypeValue)
  have freed : freedLine (l.setStrValue authtype (some authtypeValue)) authfrom =
      lookupKey hashKey (foldCase authfrom) l :=
    (typed.freedLine authfrom).trans (read.lookupKey_set (by decide) _ (by decide))
  have first := typed.set (by decide : SepFree authfrom) ((authfromRef l).map Prod.snd)
  have second := first.set (by decide : SepFree authuser) ((authuserRef l fromServer).map Prod.snd)
  have seenFrom := second.findStrValue authfrom (by decide)
  have seenUser := second.findStrValue authuser (by decide)
  rw [lastSet_snoc, if_neg (by decide), lastSet_snoc, if_pos rfl] at seenFrom
  rw [lastSet_snoc, if_pos rfl] at seenUser
  unfold checkSecurePerms
  dsimp only
  rw [freed]
  split
  · rfl
  · unfold storedIdentity
    dsimp only
    rw [seenFrom, seenUser]
    cases user : ((authuserRef l fromServer).map Prod.snd).filter (· ≠ []) with
    | none => rfl
    | some text =>
        have nonempty : text ≠ [] := of_decide_eq_true (Option.filter_eq_some_iff.mp user).2
        simp [nonempty]

/-- A text that is found: its line has the key, and its value is the one set last. -/
theorem findRef_cases (read : Read l ws) (key : Bytes) (identity : key ∈ identityKeys) :
    (findRef l key).map Prod.snd = lastSet ws key ∧
      ∀ ref ∈ findRef l key, lookupKey hashKey (foldCase key) l = some ref.1 := by
  rw [read.findRef identity, ← read.holds.found]
  cases lookupKey hashKey (foldCase key) l with
  | none => exact ⟨rfl, fun _ => nofun⟩
  | some line =>
      rw [Option.bind_some, Option.bind_some]
      cases valueOf line with
      | none => exact ⟨rfl, fun _ => nofun⟩
      | some value =>
          refine ⟨rfl, fun ref found => ?_⟩
          rw [← Option.some.inj found]

/-- The line of another key is not the line of `authfrom`. -/
theorem lookupKey_ne {line : Bytes} (found : lookupKey hashKey (foldCase key) l = some line)
    (other : foldCase key ≠ foldCase authfrom) :
    some line ≠ lookupKey hashKey (foldCase authfrom) l := by
  intro here
  exact other ((of_lookupKey found).2.symm.trans (of_lookupKey here.symm).2)

theorem filter_eq_some_iff {identity : Bytes} (nonempty : identity ≠ []) (given : Option Bytes) :
    given.filter (· ≠ []) = some identity ↔ given = some identity := by
  rw [Option.filter_eq_some_iff]
  exact ⟨And.left, fun same => ⟨same, decide_eq_true nonempty⟩⟩

/-- What is seen is the identity. -/
theorem accepted_iff {identity : Bytes} (nonempty : identity ≠ []) (first user : Option Bytes) :
    (let seen : Identity :=
        { authfrom := first.filter (· ≠ []), authuser := user.filter (· ≠ []) }
      if seen.authuser = none then .refused else .accepted seen seen) =
        Outcome.accepted ⟨some identity, some identity⟩ ⟨some identity, some identity⟩ ↔
      first = some identity ∧ user = some identity := by
  rw [← filter_eq_some_iff nonempty first, ← filter_eq_some_iff nonempty user]
  generalize first.filter (· ≠ []) = first
  generalize user.filter (· ≠ []) = user
  cases user with
  | none => exact ⟨nofun, fun both => nomatch both.2⟩
  | some y => simp

/-- For a client that is no server: both see the identity exactly if it is what is set last. -/
theorem checkSecurePerms_iff (read : Read l ws) {identity : Bytes} (nonempty : identity ≠ [])
    (authtypeValue : Bytes) :
    checkSecurePerms l false authtypeValue =
        .accepted ⟨some identity, some identity⟩ ⟨some identity, some identity⟩ ↔
      (lastSet ws authfrom).or (lastSet ws fromKey) = some identity ∧
        (lastSet ws authuser = some identity ∨
          lastSet ws authuser = none ∧ lastSet ws authfrom = none) := by
  obtain ⟨fromValue, fromLine⟩ := findRef_cases read authfrom (by decide)
  obtain ⟨senderValue, senderLine⟩ := findRef_cases read fromKey (by decide)
  obtain ⟨userValue, userLine⟩ := findRef_cases read authuser (by decide)
  rw [checkSecurePerms_eq read, ← fromValue, ← senderValue, ← userValue]
  unfold authuserRef authfromRef
  rw [if_neg Bool.false_ne_true, ← Option.map_or]
  cases user : findRef l authuser with
  | some ref =>
      -- the text of `authuser` stands in a line of its own
      have apart := lookupKey_ne (userLine ref user) (by decide)
      rw [Option.some_or, Option.some_or, Option.map_some, if_neg fun both => apart both.2,
        accepted_iff nonempty, Option.map_some]
      simp
  | none =>
      cases first : findRef l authfrom with
      | some ref =>
          -- the text of `authfrom` is freed before it is used for `authuser`
          have freed := fromLine ref first
          rw [Option.none_or, Option.some_or, Option.some_or, Option.map_some,
            if_pos ⟨Option.some_ne_none _, freed.symm⟩]
          simp
      | none =>
          rw [Option.none_or, Option.none_or]
          cases sender : findRef l fromKey with
          | none =>
              rw [Option.none_or]
              refine iff_of_false (fun same => ?_) fun both => nomatch both.1
              split at same
              · cases same
              · cases ((accepted_iff nonempty none _).mp same).1
          | some ref =>
              have apart := lookupKey_ne (senderLine ref sender) (by decide)
              rw [Option.some_or, Option.map_some, if_neg fun both => apart both.2,
                accepted_iff nonempty]
              simp

/-! ## What a file changes -/

theorem readInfo_read (method : Method) (identity : Bytes) {hasJobsize fromServer : Bool}
    {content : Bytes}
    (none_ : NoneDisguised (readHeader hasJobsize fromServer [] 0 content)) :
    Read (readInfo (method.headerInfo identity) hasJobsize fromServer content)
      ((headerSets method identity (readHeader hasJobsize fromServer [] 0 content)).map keyWrite) := by
  have start : Read (method.headerInfo identity) ((headerSets method identity []).map keyWrite) := by
    have set : ∀ {l ws} {key : Bytes}, Read l ws → SepFree key → ∀ value,
        Read (l.setStrValue key (some value)) (ws ++ [keyWrite (key, value)]) :=
      fun read free value => read.setStrValue value fun _ _ => undisguised_of_sepFree free
    cases method with
    | md5 | krb5 => exact set read_nil (by decide) identity
    | ssl certs =>
        have issued := set (set read_nil (by decide : SepFree authfrom) identity)
          (by decide : SepFree authca) (certs.getD [])
        rw [← setStrValue_getD] at issued
        exact issued
  have after := start.foldl none_
  unfold headerSets at after ⊢
  rw [List.append_nil, ← List.map_append] at after
  exact after

/-- The permission check sees the verified identity, and it is stored with the job, exactly
if the header lines of the file leave it alone. -/
theorem identity_kept_iff (method : Method) {identity : Bytes} (nonempty : identity ≠ [])
    (hasJobsize : Bool) (authtypeValue : Bytes) {content : Bytes}
    (none_ : NoneDisguised (readHeader hasJobsize false [] 0 content)) :
    receive method identity hasJobsize false authtypeValue content =
        .accepted ⟨some identity, some identity⟩ ⟨some identity, some identity⟩ ↔
      Honest identity (headerSets method identity (readHeader hasJobsize false [] 0 content)) :=
  (checkSecurePerms_iff (readInfo_read method identity none_) nonempty authtypeValue).trans
    ⟨fun both => ⟨both.1, both.2⟩, fun honest => ⟨honest.claimed, honest.user⟩⟩

/-- A job whose header names its client only. -/
theorem identity_kept_client :
    receive .md5 (lit "joe") true false (lit "md5") (lit "client=root\n\n") =
      .accepted ⟨some (lit "joe"), some (lit "joe")⟩ ⟨some (lit "joe"), some (lit "joe")⟩ := by
  refine (identity_kept_iff .md5 (by decide +kernel) true (lit "md5") (by decide +kernel)).mpr ?_
  exact ⟨by decide +kernel, .inr ⟨by decide +kernel, by decide +kernel⟩⟩

/-- One line of the file makes the client root. -/
theorem identity_chosen :
    ¬ ∀ (method : Method) (identity : Bytes) (hasJobsize : Bool) (authtypeValue c₁ c₂ : Bytes),
      receive method identity hasJobsize false authtypeValue c₁ =
        receive method identity hasJobsize false authtypeValue c₂ := by
  intro claimed
  have same := claimed .md5 (lit "joe") true (lit "md5") (lit "client=joe\n\n")
    (lit "from=root\n\n")
  exact absurd same (by decide +kernel)

end SecureHeader

end LPRng
