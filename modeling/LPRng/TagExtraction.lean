import LPRng.LineList
import LPRng.SearchBlock
import Mathlib.Data.List.Find
import Mathlib.Data.List.GetD

/-!
# Options with tags

`Find_tags` copies the entries of a list that start with a tag, without the tag, into a list that may be the
same one. The list is sorted by keys and the search for the tag compares texts, so an entry whose key ends in
front of the tag's end is compared by its separator.
-/

namespace LPRng

namespace TagExtraction

/-! ## The operation -/

/-- `safestrncasecmp`. -/
def strncasecmp (s t : Bytes) (len : Nat) : Ordering := strcasecmp (s.take len) (t.take len)

/-- Whether an entry starts with the tag. -/
def tagged (tag s : Bytes) : Bool := strncasecmp tag s tag.length = .eq

/-- The destination and the source, which may be one list. -/
inductive Lists where
  | two (dest l : LineList)
  | one (l : LineList)

namespace Lists

def dest : Lists → LineList
  | two dest _ => dest
  | one l => l

def l : Lists → LineList
  | two _ l => l
  | one l => l

def addLineList (line : Bytes) : Lists → Lists
  | two dest l => two (dest.addLineList line hashValueSep true true) l
  | one l => one (l.addLineList line hashValueSep true true)

end Lists

/-- The entries from `mid` on are added, for some turns. -/
def walk (tag : Bytes) : Nat → Lists → Nat → Option Lists
  | 0, _, _ => none
  | turns + 1, lists, mid =>
      let lists := lists.addLineList ((lists.l.getD mid []).drop tag.length)
      let mid := mid + 1
      if mid < lists.l.length ∧ tagged tag (lists.l.getD mid []) = true then walk tag turns lists mid else some lists

/-- The search for the first entry with the tag. -/
def findTag (l : LineList) (tag : Bytes) : Ordering × Nat :=
  search (fun i => strncasecmp tag (l.getD i []) tag.length)
    (fun mid => mid - ((l.take mid).reverse.takeWhile (tagged tag)).length) .lt 0 0 l.length

/-- `Find_tags`. -/
def findTags (turns : Nat) (lists : Lists) (tag : Bytes) : Option Lists :=
  if tag = [] then some lists
  else
    match findTag lists.l tag with
    | (.eq, mid) => walk tag turns lists mid
    | _ => some lists

/-! ## Texts and keys -/

/-- The key lines are sorted by when they are added. -/
def hashKey (line : Bytes) : List ℕ := foldCase (keyOf hashValueSep line)

/-- A tag of the program. -/
structure IsTag (tag : Bytes) : Prop where
  given : tag ≠ []
  free : ∀ c ∈ tag, c ∉ hashValueSep

/-- How a tag compares with the key of an entry. -/
def compareKey (tag line : Bytes) : Ordering := strncasecmp tag (keyOf hashValueSep line) tag.length

theorem foldCase_take (s : Bytes) (n : Nat) : foldCase (s.take n) = (foldCase s).take n := List.map_take

theorem compareKey_compares (tag line : Bytes) :
    (compareKey tag line).Compares (foldCase tag) ((hashKey line).take tag.length) := by
  have compares := strcasecmp_compares (tag.take tag.length) ((keyOf hashValueSep line).take tag.length)
  rw [List.take_length, foldCase_take] at compares
  rwa [compareKey, strncasecmp, List.take_length]

/-- A separator is told from every other character. -/
theorem toLower_sep {c d : UInt8} (free : c ∉ hashValueSep) (sep : d ∈ hashValueSep) :
    (toLower c).toNat ≠ (toLower d).toNat := by
  have table : ∀ c, (hashValueSep.contains c || hashValueSep.all fun d => (toLower c).toNat != (toLower d).toNat) = true :=
    forall_byte (by decide +kernel)
  have row := table c
  rw [List.contains_iff_mem.not.mpr free |> Bool.eq_false_iff.mpr, Bool.false_or] at row
  simpa using List.all_eq_true.mp row d sep

/-- The text of an entry compares as its key does, or its key ends in front of the tag's end and its separator
stands behind the tag. -/
theorem strncasecmp_or {tag : Bytes} (free : ∀ c ∈ tag, c ∉ hashValueSep) (line : Bytes) :
    strncasecmp tag line tag.length = compareKey tag line ∨
      compareKey tag line = .gt ∧ strncasecmp tag line tag.length = .lt := by
  induction tag generalizing line with
  | nil => exact .inl rfl
  | cons c tag ih =>
      cases line with
      | nil => exact .inl rfl
      | cons d line =>
          by_cases sep : d ∈ hashValueSep
          · have key : keyOf hashValueSep (d :: line) = [] := List.takeWhile_cons_of_neg (by simpa using sep)
            have apart := toLower_sep (free c List.mem_cons_self) sep
            have behind : compareKey (c :: tag) (d :: line) = .gt := by
              rw [compareKey, key]
              rfl
            have text : strncasecmp (c :: tag) (d :: line) (c :: tag).length =
                (compare (toLower c).toNat (toLower d).toNat).then (strncasecmp tag line tag.length) := rfl
            rw [behind, text]
            rcases Nat.lt_or_gt_of_ne apart with less | greater
            · rw [compare_lt_iff_lt.mpr less]
              exact .inr ⟨rfl, rfl⟩
            · rw [compare_gt_iff_gt.mpr greater]
              exact .inl rfl
          · have key : keyOf hashValueSep (d :: line) = d :: keyOf hashValueSep line :=
              List.takeWhile_cons_of_pos (by simpa using sep)
            have text : strncasecmp (c :: tag) (d :: line) (c :: tag).length =
                (compare (toLower c).toNat (toLower d).toNat).then (strncasecmp tag line tag.length) := rfl
            have rest : compareKey (c :: tag) (d :: line) =
                (compare (toLower c).toNat (toLower d).toNat).then (compareKey tag line) := by
              rw [compareKey, key]
              rfl
            rw [text, rest]
            rcases ih (fun b member => free b (List.mem_cons_of_mem c member)) line with same | ⟨greater, less⟩
            · exact .inl (congrArg _ same)
            · rw [greater, less]
              rcases compare (toLower c).toNat (toLower d).toNat with - | - | -
              · exact .inl rfl
              · exact .inr ⟨rfl, rfl⟩
              · exact .inl rfl

variable {tag line : Bytes}

theorem tagged_iff_compareKey (isTag : IsTag tag) : tagged tag line = true ↔ compareKey tag line = .eq := by
  rw [tagged, decide_eq_true_eq]
  rcases strncasecmp_or isTag.free line with same | ⟨greater, less⟩
  · rw [same]
  · rw [greater, less]
    exact ⟨nofun, nofun⟩

/-- The entries with the tag are those whose keys start with it. -/
theorem tagged_iff (isTag : IsTag tag) : tagged tag line = true ↔ (hashKey line).take tag.length = foldCase tag := by
  rw [tagged_iff_compareKey isTag, (compareKey_compares tag line).eq_eq, eq_comm]

theorem keyOf_drop {n : Nat} {sep : Bytes} (inside : n ≤ (keyOf sep line).length) :
    keyOf sep (line.drop n) = (keyOf sep line).drop n := by
  induction n generalizing line with
  | zero => rfl
  | succ n ih =>
      cases line with
      | nil => rfl
      | cons d line =>
          unfold keyOf at inside ih ⊢
          rw [List.takeWhile_cons] at inside ⊢
          split at inside
          · next free =>
              rw [if_pos free]
              exact ih (Nat.le_of_succ_le_succ inside)
          · cases inside

/-- The key of an entry with the tag is the tag and the key of what is added. -/
theorem hashKey_tagged (isTag : IsTag tag) (starts : tagged tag line = true) :
    hashKey line = foldCase tag ++ hashKey (line.drop tag.length) := by
  have front := (tagged_iff isTag).mp starts
  have inside : tag.length ≤ (keyOf hashValueSep line).length := by
    have lengths := congrArg List.length front
    rw [List.length_take, hashKey, foldCase, foldCase, List.length_map, List.length_map] at lengths
    omega
  have tail : hashKey (line.drop tag.length) = (hashKey line).drop tag.length := by
    rw [hashKey, keyOf_drop inside]
    exact List.map_drop
  rw [tail, ← front, List.take_append_drop]

/-! ## The search -/

variable {l : LineList}

theorem lt_of_take_lt {s t : List ℕ} {n : Nat} (less : s.take n < t.take n) : s < t := by
  induction n generalizing s t with
  | zero => exact absurd less (lt_irrefl [])
  | succ n ih =>
      cases t with
      | nil => exact absurd less (List.not_lt_nil _)
      | cons b t =>
          cases s with
          | nil => exact List.nil_lt_cons b t
          | cons a s =>
              rcases List.cons_lt_cons_iff.mp less with first | ⟨same, rest⟩
              · exact List.cons_lt_cons_iff.mpr (.inl first)
              · exact List.cons_lt_cons_iff.mpr (.inr ⟨same, ih rest⟩)

/-- The first characters of the key. -/
def keyFront (tag line : Bytes) : List ℕ := (hashKey line).take tag.length

/-- The entries in front of those with the tag, and the ones behind them. -/
def before (tag : Bytes) (l : LineList) : LineList := l.filter (compareKey tag · = .gt)

def behind (tag : Bytes) (l : LineList) : LineList := l.filter (compareKey tag · = .lt)

theorem parts (isTag : IsTag tag) (sorted : KeySorted hashKey l) :
    l = before tag l ++ (l.filter (tagged tag) ++ behind tag l) := by
  have monotone : l.Pairwise fun a b => keyFront tag a ≤ keyFront tag b :=
    List.Pairwise.imp (fun {a b} (less : hashKey a < hashKey b) =>
      le_of_not_gt fun turned : keyFront tag b < keyFront tag a => less.not_gt (lt_of_take_lt turned)) sorted
  have compares : ∀ line, (compareKey tag line).Compares (foldCase tag) (keyFront tag line) := compareKey_compares tag
  have equal : l.filter (tagged tag) = l.filter (keyFront tag · = foldCase tag) :=
    List.filter_congr fun line _ => Bool.eq_iff_iff.mpr (by rw [tagged_iff isTag, decide_eq_true_eq, keyFront])
  have less : before tag l = l.filter (fun line => decide (keyFront tag line < foldCase tag)) :=
    List.filter_congr fun line _ => decide_eq_decide.mpr (compares line).eq_gt
  have greater : behind tag l = l.filter (fun line => decide (foldCase tag < keyFront tag line)) :=
    List.filter_congr fun line _ => decide_eq_decide.mpr (compares line).eq_lt
  rw [equal, less, greater]
  exact (parts_of_pairwise monotone (foldCase tag)).trans (by congr!)

theorem not_tagged (isTag : IsTag tag) (other : compareKey tag line ≠ .eq) : tagged tag line = false :=
  Bool.eq_false_iff.mpr fun hit => other ((tagged_iff_compareKey isTag).mp hit)

theorem compareKey_before : ∀ line ∈ before tag l, compareKey tag line = .gt := fun _ member =>
  of_decide_eq_true (List.mem_filter.mp member).2

theorem compareKey_behind : ∀ line ∈ behind tag l, compareKey tag line = .lt := fun _ member =>
  of_decide_eq_true (List.mem_filter.mp member).2

/-- The keys with the tag stand together. -/
theorem isBlock (isTag : IsTag tag) (sorted : KeySorted hashKey l) (given : l.filter (tagged tag) ≠ []) :
    IsBlock (fun i => compareKey tag (l.getD i [])) (before tag l).length
      ((before tag l).length + (l.filter (tagged tag)).length) l.length := by
  have low : ∀ line ∈ before tag l, compareKey tag line = .gt := compareKey_before
  have high : ∀ line ∈ behind tag l, compareKey tag line = .lt := compareKey_behind
  have block := isBlock_of_parts (d := []) given low
    (fun line member => (tagged_iff_compareKey isTag).mp (List.mem_filter.mp member).2) high
  rwa [← parts isTag sorted] at block

/-- The entries that the search towards the tag tests, where it goes by the keys. -/
def onTheWay (tag : Bytes) (l : LineList) : List Nat := tested (fun i => compareKey tag (l.getD i [])) 0 l.length

/-- No entry on the way to the tag has a key that ends in front of the tag's end and a separator behind the
tag's next character. -/
def Straight (tag : Bytes) (l : LineList) : Prop :=
  ∀ i ∈ onTheWay tag l, strncasecmp tag (l.getD i []) tag.length = compareKey tag (l.getD i [])

/-- The search finds the first entry with the tag, if there is one and nothing sends it astray. -/
theorem findTag_of_straight (isTag : IsTag tag) (sorted : KeySorted hashKey l) (given : l.filter (tagged tag) ≠ [])
    (straight : Straight tag l) : findTag l tag = (.eq, (before tag l).length) := by
  rw [findTag, search_congr straight]
  rcases (isBlock isTag sorted given).search (Nat.zero_le _) (isBlock isTag sorted given).inside le_rfl with
    ⟨m, low, high, found⟩
  have stops : ∀ line ∈ before tag l, tagged tag line = false := fun line member =>
    not_tagged isTag (by rw [compareKey_before line member]; nofun)
  have back : m - (((before tag l ++ (l.filter (tagged tag) ++ behind tag l)).take m).reverse.takeWhile
      (tagged tag)).length = (before tag l).length :=
    first_hit (fun line member => (List.mem_filter.mp member).2) stops low high
  rw [← parts isTag sorted] at back
  rw [found, back]

theorem findTag_of_astray (isTag : IsTag tag) (sorted : KeySorted hashKey l) (given : l.filter (tagged tag) ≠ [])
    (astray : ¬ Straight tag l) : (findTag l tag).1 ≠ .eq := by
  have block := isBlock isTag sorted given
  unfold Straight onTheWay at astray
  push Not at astray
  refine search_misled (a := (before tag l).length) (fun i differs => ?_) (fun i early equal => ?_) nofun astray
  · rcases strncasecmp_or isTag.free (l.getD i []) with same | ⟨greater, less⟩
    · exact absurd same differs
    · refine ⟨?_, less⟩
      by_contra late
      rcases Nat.lt_or_ge i l.length with inside | outside
      · rcases Nat.lt_or_ge i ((before tag l).length + (l.filter (tagged tag)).length) with within | beyond
        · cases (block.equal i (by omega) within).symm.trans greater
        · cases (block.above i beyond inside).symm.trans greater
      · refine differs ?_
        rw [List.getD_eq_default _ _ outside]
        rfl
  · have hit : tagged tag (l.getD i []) = true := decide_eq_true equal
    rw [tagged_iff_compareKey isTag, block.below i early] at hit
    cases hit

theorem findTag_of_absent (absent : l.filter (tagged tag) = []) : (findTag l tag).1 ≠ .eq := by
  refine search_ne_eq (fun i _ inside equal => ?_) nofun
  have member : l.getD i [] ∈ l.filter (tagged tag) := by
    refine List.mem_filter.mpr ⟨?_, decide_eq_true equal⟩
    rw [List.getD_eq_getElem _ _ inside]
    exact List.getElem_mem inside
  rw [absent] at member
  cases member

/-! ## What is asked of it -/

/-- The line a key is to have in the destination: the entry with the tag in front of the key, without the tag,
or else what is there. -/
def wanted (tag : Bytes) (lists : Lists) (key : List ℕ) : Option Bytes :=
  ((lookupKey hashKey (foldCase tag ++ key) lists.l).map (·.drop tag.length)).or (lookupKey hashKey key lists.dest)

/-- The tagged entries are in the destination without the tag, and nothing else is changed. -/
def Extracts (tag : Bytes) (lists : Lists) : Prop :=
  ∃ turns out, findTags turns lists tag = some out ∧ KeySorted hashKey out.dest ∧
    (∀ key, lookupKey hashKey key out.dest = wanted tag lists key) ∧ ∀ dest l, lists = .two dest l → out.l = l

theorem addLineList_eq {dest : LineList} (sorted : KeySorted hashKey dest) (line : Bytes) :
    dest.addLineList line hashValueSep true true = insertKey hashKey line dest :=
  LineList.Tells.addLineList ⟨sorted, fun other _ => strcasecmp_compares _ (keyOf hashValueSep other)⟩ rfl

theorem tagged_of_key (isTag : IsTag tag) {key : List ℕ} (same : hashKey line = foldCase tag ++ key) :
    tagged tag line = true := by
  have length : (foldCase tag).length = tag.length := List.length_map _
  rw [tagged_iff isTag, same, ← length, List.take_left]

/-- The entry of a key with the tag is tagged. -/
theorem lookup_tagged (isTag : IsTag tag) (key : List ℕ) (l : LineList) :
    lookupKey hashKey (foldCase tag ++ key) (l.filter (tagged tag)) = lookupKey hashKey (foldCase tag ++ key) l :=
  lookupKey_filter_of_keeps fun _ same => tagged_of_key isTag same

theorem key_drop (isTag : IsTag tag) (starts : tagged tag line = true) {key : List ℕ} :
    hashKey (line.drop tag.length) = key ↔ hashKey line = foldCase tag ++ key := by
  rw [hashKey_tagged isTag starts, List.append_right_inj]

/-! ## Two lists -/

/-- All tagged entries are added in their order. -/
theorem walk_two {dest pre block post : LineList} (sorted : KeySorted hashKey dest) (given : block ≠ [])
    (starts : ∀ line ∈ block, tagged tag line = true) (ends : ∀ line ∈ post.head?, tagged tag line = false) :
    walk tag block.length (.two dest (pre ++ (block ++ post))) pre.length =
      some (.two (insertInto hashKey dest (block.map (·.drop tag.length))) (pre ++ (block ++ post))) := by
  induction block generalizing dest pre with
  | nil => exact absurd rfl given
  | cons line block ih =>
      have here : (pre ++ (line :: block ++ post)).getD pre.length [] = line := by
        rw [List.getD_append_right _ _ _ _ le_rfl, Nat.sub_self]
        rfl
      have next : (pre ++ (line :: block ++ post)).getD (pre.length + 1) [] = (block ++ post).getD 0 [] := by
        rw [List.getD_append_right _ _ _ _ (by omega), show pre.length + 1 - pre.length = 1 by omega]
        rfl
      have moved : pre ++ (line :: block ++ post) = (pre ++ [line]) ++ (block ++ post) := by
        rw [List.append_assoc]
        rfl
      rw [List.length_cons, walk]
      simp only [Lists.l, here, Lists.addLineList, addLineList_eq sorted, next]
      rcases block with - | ⟨second, block⟩
      · rw [if_neg]
        · rfl
        · rintro ⟨inside, hit⟩
          rcases post with - | ⟨after, post⟩
          · simp at inside
          · exact Bool.false_ne_true ((ends after rfl).symm.trans hit)
      · have inside : pre.length + 1 < (pre ++ (line :: second :: block ++ post)).length := by
          simp only [List.length_append, List.length_cons]
          omega
        rw [if_pos ⟨inside, starts second (List.mem_cons_of_mem _ List.mem_cons_self)⟩, moved]
        have rest : walk tag (second :: block).length (.two (insertKey hashKey (line.drop tag.length) dest)
            ((pre ++ [line]) ++ (second :: block ++ post))) (pre ++ [line]).length = _ :=
          ih sorted.insertKey (List.cons_ne_nil _ _) fun other member => starts other (List.mem_cons_of_mem _ member)
        rw [List.length_append, List.length_singleton] at rest
        exact rest

theorem append_lt_append_iff (s : List ℕ) {a b : List ℕ} : s ++ a < s ++ b ↔ a < b := by
  induction s with
  | nil => exact Iff.rfl
  | cons c s ih =>
      rw [List.cons_append, List.cons_append, List.cons_lt_cons_iff, ih]
      exact ⟨fun less => (less.resolve_left (lt_irrefl c)).2, fun less => .inr ⟨rfl, less⟩⟩

theorem keySorted_untagged (isTag : IsTag tag) (sorted : KeySorted hashKey l) :
    KeySorted hashKey ((l.filter (tagged tag)).map (·.drop tag.length)) := by
  refine List.pairwise_map.mpr (List.Pairwise.imp_of_mem (fun left right less => ?_) (List.Pairwise.filter _ sorted))
  rw [hashKey_tagged isTag (List.mem_filter.mp left).2, hashKey_tagged isTag (List.mem_filter.mp right).2] at less
  exact (append_lt_append_iff _).mp less

/-- What is looked up in the entries without their tag. -/
theorem lookup_untagged (isTag : IsTag tag) (key : List ℕ) (l : LineList) :
    lookupKey hashKey key ((l.filter (tagged tag)).map (·.drop tag.length)) =
      (lookupKey hashKey (foldCase tag ++ key) l).map (·.drop tag.length) := by
  rw [← lookup_tagged isTag key l, lookupKey, List.find?_map, lookupKey]
  refine congrArg _ (List.find?_congr fun line member => ?_)
  exact decide_eq_decide.mpr (key_drop isTag (List.mem_filter.mp member).2)

theorem findTags_two (isTag : IsTag tag) {dest : LineList} (sorted : KeySorted hashKey dest)
    (source : KeySorted hashKey l) (given : l.filter (tagged tag) ≠ []) (straight : Straight tag l) :
    findTags (l.filter (tagged tag)).length (.two dest l) tag =
      some (.two (insertInto hashKey dest ((l.filter (tagged tag)).map (·.drop tag.length))) l) := by
  have found : findTag (Lists.two dest l).l tag = _ := findTag_of_straight isTag source given straight
  have walked : walk tag (l.filter (tagged tag)).length
      (.two dest (before tag l ++ (l.filter (tagged tag) ++ behind tag l))) (before tag l).length = _ :=
    walk_two sorted given (fun line member => (List.mem_filter.mp member).2) fun line first =>
      not_tagged isTag (by rw [compareKey_behind line (List.mem_of_mem_head? first)]; decide)
  rw [← parts isTag source] at walked
  rw [findTags, if_neg isTag.given, found]
  exact walked

/-! ## One list -/

/-- One turn of the walk: the entry without its tag is put in, and the walk goes on behind the entry. A line
that is put in front of the entry is put in twice. -/
theorem walk_one (isTag : IsTag tag) {pre post : LineList} {x : Bytes} (sorted : KeySorted hashKey (pre ++ x :: post))
    (starts : tagged tag x = true) :
    ∃ pre' post', insertKey hashKey (x.drop tag.length) (pre ++ x :: post) = pre' ++ x :: post' ∧
      ∃ used, ∀ turns, walk tag (turns + used) (.one (pre ++ x :: post)) pre.length =
        if ∃ line ∈ post'.head?, tagged tag line = true then walk tag turns (.one (pre' ++ x :: post')) (pre'.length + 1)
        else some (.one (pre' ++ x :: post')) := by
  have there : ∀ pre post : LineList, (pre ++ x :: post).getD pre.length [] = x := by
    intro pre post
    rw [List.getD_append_right _ _ _ _ le_rfl, Nat.sub_self]
    rfl
  have next : ∀ pre post : LineList, (pre ++ x :: post).getD (pre.length + 1) [] = post.getD 0 [] := by
    intro pre post
    rw [List.getD_append_right _ _ _ _ (by omega), show pre.length + 1 - pre.length = 1 by omega]
    rfl
  have inside : ∀ pre post : LineList, pre.length + 1 < (pre ++ x :: post).length ↔ post ≠ [] := by
    intro pre post
    rw [List.length_append, List.length_cons, ← List.length_pos_iff]
    omega
  have turn : ∀ {pre pre' post post' : LineList} (turns : Nat), KeySorted hashKey (pre ++ x :: post) →
      insertKey hashKey (x.drop tag.length) (pre ++ x :: post) = pre' ++ x :: post' → pre'.length = pre.length →
      walk tag (turns + 1) (.one (pre ++ x :: post)) pre.length =
        if ∃ line ∈ post'.head?, tagged tag line = true then walk tag turns (.one (pre' ++ x :: post')) (pre'.length + 1)
        else some (.one (pre' ++ x :: post')) := by
    intro pre pre' post post' turns sorted put length
    have added : (Lists.one (pre ++ x :: post)).addLineList (x.drop tag.length) = .one (pre' ++ x :: post') :=
      congrArg Lists.one ((addLineList_eq sorted _).trans put)
    have shown : (pre'.length + 1 < (pre' ++ x :: post').length ∧
        tagged tag ((pre' ++ x :: post').getD (pre'.length + 1) []) = true) ↔
        ∃ line ∈ post'.head?, tagged tag line = true := by
      rw [inside, next]
      cases post' with
      | nil => exact ⟨fun hit => absurd rfl hit.1, fun hit => nomatch hit.choose_spec.1⟩
      | cons line rest =>
          exact ⟨fun hit => ⟨line, rfl, hit.2⟩, fun ⟨other, first, hit⟩ =>
            ⟨List.cons_ne_nil line rest, Option.some.inj first ▸ hit⟩⟩
    rw [walk]
    simp only [Lists.l, there]
    rw [added, ← length]
    exact if_congr shown rfl rfl
  rcases List.pairwise_append.mp sorted with ⟨front, back, across⟩
  have after := (List.pairwise_cons.mp back).1
  rcases lt_trichotomy (hashKey (x.drop tag.length)) (hashKey x) with less | same | greater
  · have put : insertKey hashKey (x.drop tag.length) (pre ++ x :: post) =
        insertKey hashKey (x.drop tag.length) pre ++ x :: post :=
      show insertKey hashKey (x.drop tag.length) (pre ++ ([x] ++ post)) =
          insertKey hashKey (x.drop tag.length) pre ++ ([x] ++ post) from
        insertKey_below (fun a member => congrArg hashKey (List.mem_singleton.mp member)) after less
    refine ⟨_, post, put, ?_⟩
    by_cases present : ∃ a ∈ pre, hashKey a = hashKey (x.drop tag.length)
    · exact ⟨1, fun turns => turn turns sorted put (length_insertKey_of_present front present)⟩
    · have longer := length_insertKey_of_absent front fun a member same => present ⟨a, member, same⟩
      have again := KeySorted.insertKey_of_mem (put ▸ sorted.insertKey)
        (List.mem_append_left (x :: post) (mem_insertKey.mpr (.inl rfl)))
      refine ⟨2, fun turns => ?_⟩
      rw [show turns + 2 = turns + 1 + 1 from rfl, walk]
      simp only [Lists.l, there]
      have added : (Lists.one (pre ++ x :: post)).addLineList (x.drop tag.length) =
          .one (insertKey hashKey (x.drop tag.length) pre ++ x :: post) :=
        congrArg Lists.one ((addLineList_eq sorted _).trans put)
      have room : (insertKey hashKey (x.drop tag.length) pre).length <
          (insertKey hashKey (x.drop tag.length) pre ++ x :: post).length := by
        rw [List.length_append, List.length_cons]
        omega
      rw [added, ← longer]
      simp only
      rw [there, if_pos ⟨room, starts⟩]
      exact turn turns (put ▸ sorted.insertKey) again rfl
  · have lengths := congrArg List.length (hashKey_tagged isTag starts)
    rw [List.length_append, ← same, foldCase, List.length_map] at lengths
    have positive := List.length_pos_of_ne_nil isTag.given
    omega
  · have put : insertKey hashKey (x.drop tag.length) (pre ++ x :: post) =
        pre ++ x :: insertKey hashKey (x.drop tag.length) post :=
      show insertKey hashKey (x.drop tag.length) (pre ++ ([x] ++ post)) =
          pre ++ ([x] ++ insertKey hashKey (x.drop tag.length) post) from
        insertKey_behind (fun a early => across a early x List.mem_cons_self)
          (fun a member => congrArg hashKey (List.mem_singleton.mp member)) greater
    exact ⟨pre, _, put, 1, fun turns => turn turns sorted put rfl⟩

/-- What a walk over the tagged keys of `ahead` makes of a list. A key behind its tagged key is set to what the
tagged key has been set to. -/
def Swept (tag : Bytes) (ahead : List ℕ → Prop) (l out : LineList) : Prop := ∀ key,
  (¬ ahead (foldCase tag ++ key) → lookupKey hashKey key out = lookupKey hashKey key l) ∧
  (ahead (foldCase tag ++ key) → key < foldCase tag ++ key → lookupKey hashKey key out =
    ((lookupKey hashKey (foldCase tag ++ key) l).map (·.drop tag.length)).or (lookupKey hashKey key l)) ∧
  (ahead (foldCase tag ++ key) → foldCase tag ++ key < key → lookupKey hashKey key out =
    ((lookupKey hashKey (foldCase tag ++ key) out).map (·.drop tag.length)).or (lookupKey hashKey key l))

/-- The first of the keys ahead is taken out. -/
theorem Swept.step (isTag : IsTag tag) {x : Bytes} {out : LineList} {ahead : List ℕ → Prop} (sorted : KeySorted hashKey l)
    (member : x ∈ l) (starts : tagged tag x = true) (further : ∀ c, ahead c → hashKey x < c)
    (upward : ∀ c d, ahead c → c < d → ahead d)
    (between : ∀ key, hashKey x < foldCase tag ++ key → ¬ ahead (foldCase tag ++ key) →
      lookupKey hashKey (foldCase tag ++ key) (insertKey hashKey (x.drop tag.length) l) = none)
    (swept : Swept tag ahead (insertKey hashKey (x.drop tag.length) l) out) : Swept tag (hashKey x ≤ ·) l out := by
  have here := hashKey_tagged isTag starts
  have put : lookupKey hashKey (hashKey (x.drop tag.length)) (insertKey hashKey (x.drop tag.length) l) =
      some (x.drop tag.length) := by
    rw [lookupKey_insertKey, if_pos rfl]
  have other : ∀ key, foldCase tag ++ key ≠ hashKey x →
      lookupKey hashKey key (insertKey hashKey (x.drop tag.length) l) = lookupKey hashKey key l := by
    intro key apart
    rw [lookupKey_insertKey, if_neg fun same => apart (by rw [same, here])]
  have passed : ∀ key, foldCase tag ++ key ≤ hashKey x →
      lookupKey hashKey key out = lookupKey hashKey key (insertKey hashKey (x.drop tag.length) l) := fun key reached =>
    (swept key).1 fun ahead_ => (further _ ahead_).not_ge reached
  intro key
  rcases lt_trichotomy (foldCase tag ++ key) (hashKey x) with early | first | late
  · refine ⟨fun _ => ?_, fun reached => absurd early reached.not_gt, fun reached => absurd early reached.not_gt⟩
    rw [passed key early.le, other key early.ne]
  · have same : hashKey (x.drop tag.length) = key := (List.append_right_inj _).mp (here.symm.trans first.symm)
    have known := sorted.lookupKey_of_mem member
    have set_ : lookupKey hashKey key out = some (x.drop tag.length) := by
      rw [passed key first.le, ← same, put]
    refine ⟨fun off => absurd first.ge off, fun _ _ => ?_, fun _ back => ?_⟩
    · rw [set_, first, known]
      rfl
    · rw [first] at back ⊢
      have again : foldCase tag ++ hashKey x < hashKey x := by
        nth_rewrite 2 [← first]
        exact (append_lt_append_iff _).mpr back
      rw [set_, passed _ again.le, other _ again.ne, known]
      rfl
  · refine ⟨fun off => absurd late.le off, fun _ forward => ?_, fun _ back => ?_⟩
    · by_cases reached : ahead (foldCase tag ++ key)
      · have apart : foldCase tag ++ (foldCase tag ++ key) ≠ hashKey x := by
          have higher : foldCase tag ++ key < foldCase tag ++ (foldCase tag ++ key) := (append_lt_append_iff _).mpr forward
          exact (late.trans higher).ne'
        rw [(swept key).2.1 reached forward, other _ apart, other key late.ne']
      · have absent := between key late reached
        have unset : lookupKey hashKey (foldCase tag ++ key) l = none := by
          rw [lookupKey_insertKey] at absent
          split at absent
          · cases absent
          · exact absent
        rw [(swept key).1 reached, other key late.ne', unset]
        rfl
    · by_cases reached : ahead (foldCase tag ++ key)
      · rw [(swept key).2.2 reached back, other key late.ne']
      · have lower : foldCase tag ++ (foldCase tag ++ key) < foldCase tag ++ key := (append_lt_append_iff _).mpr back
        have unset : lookupKey hashKey (foldCase tag ++ key) out = none :=
          ((swept _).1 fun again => reached (upward _ _ again lower)).trans (between key late reached)
        rw [(swept key).1 reached, other key late.ne', unset]
        rfl

/-- Keys that the walk may come to: with each also what stands behind a tag. -/
structure Closed (tag : Bytes) (keys : List (List ℕ)) : Prop where
  untagged : ∀ key, foldCase tag ++ key ∈ keys → key ∈ keys

theorem keys_insertKey (isTag : IsTag tag) {keys : List (List ℕ)} (closed : Closed tag keys) {x : Bytes}
    (starts : tagged tag x = true) (member : x ∈ l) (inside : ∀ line ∈ l, hashKey line ∈ keys) :
    ∀ line ∈ insertKey hashKey (x.drop tag.length) l, hashKey line ∈ keys := by
  intro line there
  rcases mem_insertKey.mp there with rfl | old
  · exact closed.untagged _ (hashKey_tagged isTag starts ▸ inside x member)
  · exact inside line old.1

/-- Behind an entry that is not tagged no entry is. -/
theorem not_tagged_of_lt (isTag : IsTag tag) {x y z : Bytes} (starts : tagged tag x = true)
    (first : hashKey x < hashKey y) (second : hashKey y ≤ hashKey z) (stops : tagged tag y = false) :
    tagged tag z = false := by
  refine Bool.eq_false_iff.mpr fun hit => Bool.false_ne_true (stops.symm.trans ((tagged_iff isTag).mpr ?_))
  have left := (tagged_iff isTag).mp starts
  have right := (tagged_iff isTag).mp hit
  rcases lt_trichotomy ((hashKey y).take tag.length) (foldCase tag) with less | equal | greater
  · exact absurd (lt_of_take_lt (left ▸ less)) first.not_gt
  · exact equal
  · exact absurd (lt_of_take_lt (right ▸ greater)) second.not_gt

/-- The walk over one list ends, and has then set every key. -/
theorem walk_swept (isTag : IsTag tag) {keys : List (List ℕ)} (closed : Closed tag keys) {bound : Nat}
    {pre post : LineList} {x : Bytes} (sorted : KeySorted hashKey (pre ++ x :: post)) (starts : tagged tag x = true)
    (inside : ∀ line ∈ pre ++ x :: post, hashKey line ∈ keys)
    (few : (keysAbove id (hashKey x) keys).length < bound) :
    ∃ turns out, walk tag turns (.one (pre ++ x :: post)) pre.length = some (.one out) ∧ KeySorted hashKey out ∧
      (∀ line ∈ out, hashKey line ∈ keys) ∧ Swept tag (hashKey x ≤ ·) (pre ++ x :: post) out := by
  induction bound generalizing pre post x with
  | zero => cases few
  | succ bound ih =>
      have member : x ∈ pre ++ x :: post := List.mem_append_right pre List.mem_cons_self
      rcases walk_one isTag sorted starts with ⟨pre', post', put, used, runs⟩
      have sorted' : KeySorted hashKey (pre' ++ x :: post') := put ▸ sorted.insertKey
      have inside' : ∀ line ∈ pre' ++ x :: post', hashKey line ∈ keys :=
        put ▸ keys_insertKey isTag closed starts member inside
      rcases List.pairwise_append.mp sorted' with ⟨-, back, across⟩
      rcases List.pairwise_cons.mp back with ⟨after, rest⟩
      by_cases goesOn : ∃ line ∈ post'.head?, tagged tag line = true
      · rcases goesOn with ⟨y, first, hit⟩
        rcases List.head?_eq_some_iff.mp first with ⟨tail, rfl⟩
        have less : hashKey x < hashKey y := after y List.mem_cons_self
        have moved : pre' ++ x :: y :: tail = (pre' ++ [x]) ++ y :: tail := by
          rw [List.append_assoc]
          rfl
        have fewer : (keysAbove id (hashKey y) keys).length < bound := by
          have drops := length_keysAbove_lt less (inside' y (List.mem_append_right pre' (by simp)))
          omega
        rcases ih (moved ▸ sorted') hit (moved ▸ inside') fewer with ⟨turns, out, ends, ordered, known, swept⟩
        refine ⟨turns + used, out, ?_, ordered, known, ?_⟩
        · rw [runs, if_pos ⟨y, rfl, hit⟩, moved]
          rw [List.length_append, List.length_singleton] at ends
          exact ends
        · rw [← moved, ← put] at swept
          refine Swept.step isTag sorted member starts (fun c reached => less.trans_le reached)
            (fun c d reached higher => reached.trans higher.le) (fun key late unreached => ?_) swept
          rw [put]
          refine lookupKey_of_absent fun line there same => ?_
          rw [← same] at late unreached
          rcases List.mem_append.mp there with early | there
          · exact (across line early x List.mem_cons_self).not_gt late
          rcases List.mem_cons.mp there with rfl | there
          · exact lt_irrefl _ late
          rcases List.mem_cons.mp there with rfl | there
          · exact unreached le_rfl
          · exact unreached ((List.pairwise_cons.mp rest).1 line there).le
      · refine ⟨0 + used, pre' ++ x :: post', ?_, sorted', inside', ?_⟩
        · rw [runs, if_neg goesOn]
        · have idle : Swept tag (fun _ => False) (insertKey hashKey (x.drop tag.length) (pre ++ x :: post))
              (pre' ++ x :: post') := by
            rw [put]
            exact fun key => ⟨fun _ => rfl, nofun, nofun⟩
          refine Swept.step isTag sorted member starts ?_ ?_ (fun key late _ => ?_) idle
          · exact fun _ => nofun
          · exact fun _ _ => nofun
          · rw [put]
            refine lookupKey_of_absent fun line there same => ?_
            have hit := tagged_of_key isTag same
            rw [← same] at late
            rcases List.mem_append.mp there with early | there
            · exact (across line early x List.mem_cons_self).not_gt late
            rcases List.mem_cons.mp there with rfl | there
            · exact lt_irrefl _ late
            rcases post' with - | ⟨y, tail⟩
            · cases there
            · have stops : tagged tag y = false := Bool.eq_false_iff.mpr fun again => goesOn ⟨y, rfl, again⟩
              have ordered : hashKey y ≤ hashKey line := by
                rcases List.mem_cons.mp there with rfl | behind
                · exact le_rfl
                · exact ((List.pairwise_cons.mp rest).1 line behind).le
              exact Bool.false_ne_true ((not_tagged_of_lt isTag starts (after y List.mem_cons_self) ordered stops).symm.trans hit)

/-- The number of turns does not matter for a walk that ends. -/
theorem walk_unique {turns turns' mid : Nat} {lists a b : Lists} (first : walk tag turns lists mid = some a)
    (second : walk tag turns' lists mid = some b) : a = b := by
  induction turns generalizing turns' lists mid with
  | zero => cases first
  | succ turns ih =>
      cases turns' with
      | zero => cases second
      | succ turns' =>
          rw [walk] at first second
          split at first
          · next on =>
              rw [if_pos on] at second
              exact ih first second
          · next off =>
              rw [if_neg off] at second
              exact Option.some.inj (first.symm.trans second)

/-- For every entry with two tags, whose key without them stands behind the one with one of them: this key is to
get the line that the entry has behind both tags. -/
def Agrees (tag : Bytes) (l : LineList) : Prop := ∀ key line, foldCase tag ++ key < key →
  lookupKey hashKey (foldCase tag ++ (foldCase tag ++ key)) l = some line →
    wanted tag (.one l) key = some ((line.drop tag.length).drop tag.length)

/-- From the first tagged entry on all are swept. -/
theorem Swept.whole {x : Bytes} {out : LineList}
    (first : ∀ key, foldCase tag ++ key < hashKey x → lookupKey hashKey (foldCase tag ++ key) l = none)
    (swept : Swept tag (hashKey x ≤ ·) l out) : Swept tag (fun _ => True) l out := by
  intro key
  rcases lt_or_ge (foldCase tag ++ key) (hashKey x) with early | late
  · have kept := (swept key).1 early.not_ge
    refine ⟨fun off => absurd trivial off, fun _ _ => ?_, fun _ back => ?_⟩
    · rw [kept, first key early]
      rfl
    · have lower : foldCase tag ++ (foldCase tag ++ key) < hashKey x := ((append_lt_append_iff _).mpr back).trans early
      rw [kept, (swept _).1 lower.not_ge, first key early]
      rfl
  · exact ⟨fun off => absurd trivial off, fun _ => (swept key).2.1 late, fun _ => (swept key).2.2 late⟩

theorem Swept.wanted_iff (isTag : IsTag tag) {out : LineList} {bound : Nat} (swept : Swept tag (fun _ => True) l out)
    (short : ∀ line, line ∈ l ∨ line ∈ out → (hashKey line).length < bound) :
    (∀ key, lookupKey hashKey key out = wanted tag (.one l) key) ↔ Agrees tag l := by
  constructor
  · intro set_ key line back twice
    have once : lookupKey hashKey (foldCase tag ++ key) out = some (line.drop tag.length) := by
      rw [set_, wanted]
      simp only [Lists.l, twice, Option.map_some, Option.some_or]
    rw [← set_, (swept key).2.2 trivial back, once]
    rfl
  · intro agrees
    have long : ∀ {l' : LineList} {key}, (∀ line ∈ l', (hashKey line).length < bound) → bound ≤ key.length →
        lookupKey hashKey key l' = none := fun small large =>
      lookupKey_of_absent fun line member same => (small line member).not_ge (same ▸ large)
    have positive := List.length_pos_of_ne_nil isTag.given
    have width : (foldCase tag).length = tag.length := List.length_map _
    -- a longer key is set before a shorter one, and the longest are not there
    have all : ∀ room key, bound ≤ key.length + room → lookupKey hashKey key out = wanted tag (.one l) key := by
      intro room
      induction room with
      | zero =>
          intro key large
          have larger : bound ≤ (foldCase tag ++ key).length := by
            rw [List.length_append]
            omega
          rw [long (fun line member => short line (.inr member)) large, wanted]
          simp only [Lists.l, Lists.dest, long (fun line member => short line (.inl member)) large,
            long (fun line member => short line (.inl member)) larger]
          rfl
      | succ room ih =>
          intro key large
          have larger : bound ≤ (foldCase tag ++ key).length + room := by
            rw [List.length_append]
            omega
          rcases lt_trichotomy key (foldCase tag ++ key) with forward | same | back
          · exact (swept key).2.1 trivial forward
          · have lengths := congrArg List.length same
            rw [List.length_append] at lengths
            omega
          · rw [(swept key).2.2 trivial back, ih _ larger]
            rcases twice : lookupKey hashKey (foldCase tag ++ (foldCase tag ++ key)) l with - | line
            · simp only [wanted, Lists.l, Lists.dest, twice, Option.map_none, Option.none_or]
            · rw [agrees key line back twice, wanted]
              simp only [Lists.l, twice, Option.map_some, Option.some_or]
    exact fun key => all bound key (Nat.le_add_left _ _)

/-! ## Both -/

/-- What stands behind some part of a key of the list. -/
def reachable (l : LineList) : List (List ℕ) := l.flatMap fun line => (hashKey line).tails

theorem closed_reachable (tag : Bytes) (l : LineList) : Closed tag (reachable l) := by
  refine ⟨fun key member => ?_⟩
  rcases List.mem_flatMap.mp member with ⟨line, inside, tail⟩
  exact List.mem_flatMap.mpr ⟨line, inside,
    (List.mem_tails ..).mpr ((List.suffix_append _ _).trans ((List.mem_tails ..).mp tail))⟩

theorem mem_reachable (member : line ∈ l) : hashKey line ∈ reachable l :=
  List.mem_flatMap.mpr ⟨line, member, (List.mem_tails ..).mpr (List.suffix_refl _)⟩

theorem findTags_one (isTag : IsTag tag) (sorted : KeySorted hashKey l) (given : l.filter (tagged tag) ≠ [])
    (straight : Straight tag l) : ∃ turns out, findTags turns (.one l) tag = some (.one out) ∧ KeySorted hashKey out ∧
      ((∀ key, lookupKey hashKey key out = wanted tag (.one l) key) ↔ Agrees tag l) := by
  have found : findTag (Lists.one l).l tag = _ := findTag_of_straight isTag sorted given straight
  have whole := parts isTag sorted
  rcases block : l.filter (tagged tag) with - | ⟨x, rest⟩
  · exact absurd block given
  rw [block, List.cons_append] at whole
  have starts : tagged tag x = true := (List.mem_filter.mp (block ▸ List.mem_cons_self)).2
  rcases walk_swept isTag (closed_reachable tag l) (whole ▸ sorted) starts
    (fun line member => mem_reachable (whole.symm ▸ member)) (Nat.lt_succ_self _) with
    ⟨turns, out, ends, ordered, known, swept⟩
  rw [← whole] at ends swept
  refine ⟨turns, out, ?_, ordered, ?_⟩
  · rw [findTags, if_neg isTag.given, found]
    exact ends
  · have first : ∀ key, foldCase tag ++ key < hashKey x → lookupKey hashKey (foldCase tag ++ key) l = none := by
      intro key early
      refine lookupKey_of_absent fun line member same => ?_
      have hit : line ∈ l.filter (tagged tag) := List.mem_filter.mpr ⟨member, tagged_of_key isTag same⟩
      have ordered_ := List.Pairwise.filter (tagged tag) sorted
      rw [block] at hit ordered_
      rw [← same] at early
      rcases List.mem_cons.mp hit with rfl | later
      · exact lt_irrefl _ early
      · exact ((List.pairwise_cons.mp ordered_).1 line later).not_gt early
    have short : ∀ line, line ∈ l ∨ line ∈ out → (hashKey line).length < (reachable l).flatten.length + 1 := by
      intro line member
      have inside : hashKey line ∈ reachable l := member.elim mem_reachable (known line)
      exact Nat.lt_succ_of_le (List.sublist_flatten_of_mem inside).length_le
    exact (swept.whole first).wanted_iff isTag short

/-- A destination that is left as it is has what is wanted exactly if the entries are there. -/
theorem wanted_iff_there (isTag : IsTag tag) (lists : Lists) (source : KeySorted hashKey lists.l)
    (sorted : KeySorted hashKey lists.dest) : (∀ key, lookupKey hashKey key lists.dest = wanted tag lists key) ↔
      ∀ line ∈ lists.l, tagged tag line = true → line.drop tag.length ∈ lists.dest := by
  constructor
  · intro set_ line member starts
    have known := source.lookupKey_of_mem member
    rw [hashKey_tagged isTag starts] at known
    have found := set_ (hashKey (line.drop tag.length))
    rw [wanted, known] at found
    exact (of_lookupKey found).1
  · intro there key
    rw [wanted]
    rcases found : lookupKey hashKey (foldCase tag ++ key) lists.l with - | line
    · rfl
    · rcases of_lookupKey found with ⟨member, same⟩
      have starts := tagged_of_key isTag same
      have known := sorted.lookupKey_of_mem (there line member starts)
      rw [(key_drop isTag starts).mpr same] at known
      rw [known]
      rfl

/-- The tagged entries are in the destination exactly if they are there already, or no entry on the way to them
sends the search astray and, in one list, the entries with two tags agree with those with one. -/
theorem extracts_iff (isTag : IsTag tag) (lists : Lists) (source : KeySorted hashKey lists.l)
    (sorted : KeySorted hashKey lists.dest) :
    Extracts tag lists ↔ (∀ line ∈ lists.l, tagged tag line = true → line.drop tag.length ∈ lists.dest) ∨
      Straight tag lists.l ∧ ∀ l, lists = .one l → Agrees tag l := by
  -- a search that does not find leaves the lists as they are
  have stays : (findTag lists.l tag).1 ≠ .eq → ∀ turns, findTags turns lists tag = some lists := by
    intro missed turns
    rw [findTags, if_neg isTag.given]
    split
    · next mid found => exact absurd (congrArg Prod.fst found) missed
    · rfl
  have left : (findTag lists.l tag).1 ≠ .eq → (∀ line ∈ lists.l, tagged tag line = true →
      line.drop tag.length ∈ lists.dest) → Extracts tag lists := fun missed there =>
    ⟨0, lists, stays missed 0, sorted, (wanted_iff_there isTag lists source sorted).mpr there, fun dest l same => by rw [same]; rfl⟩
  constructor
  · rintro ⟨turns, out, ends, -, set_, -⟩
    by_cases there : ∀ line ∈ lists.l, tagged tag line = true → line.drop tag.length ∈ lists.dest
    · exact .inl there
    have given : lists.l.filter (tagged tag) ≠ [] := fun absent => there fun line member starts =>
      nomatch absent ▸ List.mem_filter.mpr ⟨member, starts⟩
    have straight : Straight tag lists.l := by
      by_contra astray
      rw [stays (findTag_of_astray isTag source given astray)] at ends
      cases ends
      exact there ((wanted_iff_there isTag lists source sorted).mp set_)
    refine .inr ⟨straight, fun l same => ?_⟩
    subst same
    rcases findTags_one (l := l) isTag source given straight with ⟨turns', out', ends', -, iff_⟩
    have found : findTag (Lists.one l).l tag = _ := findTag_of_straight isTag source given straight
    rw [findTags, if_neg isTag.given, found] at ends ends'
    cases walk_unique ends ends'
    exact iff_.mp set_
  · intro condition
    by_cases given : lists.l.filter (tagged tag) = []
    · exact left (findTag_of_absent given) fun line member starts =>
        nomatch given ▸ List.mem_filter.mpr ⟨member, starts⟩
    by_cases straight : Straight tag lists.l
    · cases lists with
      | two dest l =>
          refine ⟨_, _, findTags_two isTag sorted source given straight, sorted.insertInto _, fun key => ?_, ?_⟩
          · exact (lookupKey_insertInto (keySorted_untagged isTag source) key).trans
              (congrArg (Option.or · _) (lookup_untagged isTag key l))
          · intro _ _ same
            cases same
            rfl
      | one l =>
          rcases findTags_one (l := l) isTag source given straight with ⟨turns, out, ends, ordered, iff_⟩
          refine ⟨turns, .one out, ends, ordered, iff_.mpr ?_, nofun⟩
          rcases condition with there | ⟨-, agrees⟩
          · intro key line back twice
            rcases of_lookupKey twice with ⟨member, same⟩
            have starts := tagged_of_key isTag same
            have known := source.lookupKey_of_mem (there line member starts)
            rw [(key_drop isTag starts).mpr same] at known
            rw [wanted]
            simp only [Lists.l] at known ⊢
            rw [show lookupKey hashKey (foldCase tag ++ key) l = _ from known]
            rfl
          · exact agrees l rfl
    · exact left (findTag_of_astray isTag source given straight) (condition.resolve_right fun fine => straight fine.1)

/-- Where all texts compare as their keys do, nothing sends the search astray. -/
theorem straight_of_forall (same : ∀ line ∈ l, strncasecmp tag line tag.length = compareKey tag line) :
    Straight tag l := by
  intro i _
  rcases Nat.lt_or_ge i l.length with inside | outside
  · rw [List.getD_eq_getElem _ _ inside]
    exact same _ (List.getElem_mem inside)
  · rw [List.getD_eq_default _ _ outside]
    rfl

theorem isTag_server : IsTag (lit "server.") := ⟨nofun, by decide⟩

theorem server_extracted : Extracts (lit "server.") (.two [lit "lp=a"] [lit "lp=b", lit "server.lp=c"]) := by
  have ordered : KeySorted hashKey [lit "lp=b", lit "server.lp=c"] := List.pairwise_pair.mpr (by decide)
  refine (extracts_iff isTag_server (.two [lit "lp=a"] [lit "lp=b", lit "server.lp=c"]) ordered (List.pairwise_singleton _ _)).mpr (.inr ⟨?_, nofun⟩)
  exact straight_of_forall (by decide)

/-- A key that is the tag without its last character hides the entries with the tag. -/
theorem server_hides : ¬ Extracts (lit "server.") (.two [] [lit "server=1", lit "server.lp=c"]) := by
  rintro ⟨turns, out, ends, -, set_, -⟩
  have missed : findTag [lit "server=1", lit "server.lp=c"] (lit "server.") = (.lt, 0) := by decide +kernel
  have same : out = .two [] [lit "server=1", lit "server.lp=c"] := by
    rw [findTags, if_neg isTag_server.given] at ends
    simp only [Lists.l, missed] at ends
    exact (Option.some.inj ends).symm
  have found := set_ (hashKey (lit "lp=c"))
  have asked : wanted (lit "server.") (.two [] [lit "server=1", lit "server.lp=c"]) (hashKey (lit "lp=c")) =
      some (lit "lp=c") := by decide
  rw [same, asked] at found
  cases found

end TagExtraction

end LPRng
