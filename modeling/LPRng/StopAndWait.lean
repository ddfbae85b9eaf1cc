import Mathlib.Data.List.Basic

/-!
# Messages that are answered one by one

A sender writes messages to a receiver and waits for the answer to each before it goes on; each direction of the
connection keeps what is written in order. The receiver reads as much at a time as it likes, and answers when it has read
enough. If the messages are what the receiver takes, both agree on what was received at the end, neither waits for the
other in vain, and every run comes to an end.
-/

namespace LPRng

namespace StopAndWait

/-- What a receiver may do: read some of what has arrived, agree to what it has read, refuse it and close the connection,
close it without an answer, close it when it is done, and take the end of its input, after which it goes on, or closes with a
refusal or without. -/
structure Receiver (ρ β : Type*) where
  read : ρ → List β → ρ → Prop
  agree : ρ → ρ → Prop
  refuse : ρ → ρ → Prop
  quit : ρ → Prop
  done : ρ → Prop
  goOn : ρ → ρ → Prop
  finish : ρ → ρ → Prop

/-- A sender writes the rest of a message, and waits for its answer when nothing is left of it. -/
inductive Sender (β : Type*) where
  | active (left : List β) (later : List (List β))
  | finished (success : Bool)

/-- What a sender does when its messages so far were agreed to. -/
def Sender.next {β : Type*} : List (List β) → Sender β
  | [] => .finished true
  | m :: later => .active m later

/-- The sender and the receiver with what is on the way between them. An answer is whether the receiver agreed. -/
structure Link (ρ β : Type*) where
  sender : Sender β
  forward : List β
  receiver : ρ
  closed : Bool
  back : List Bool

/-- Whether a step is part of a transfer without failures: the sender may fail, and the receiver refuse. -/
inductive Kind where
  | work
  | abort
  | refuse

variable {ρ β α : Type*}

inductive Step (R : Receiver ρ β) : Link ρ β → Kind → Link ρ β → Prop
  | write {s left : List β} {later : List (List β)} {f : List β} {r : ρ} {closed : Bool} {back : List Bool} : s ≠ [] →
      Step R ⟨.active (s ++ left) later, f, r, closed, back⟩ .work ⟨.active left later, f ++ s, r, closed, back⟩
  | agreed {later : List (List β)} {f : List β} {r : ρ} {closed : Bool} {back : List Bool} :
      Step R ⟨.active [] later, f, r, closed, true :: back⟩ .work ⟨.next later, f, r, closed, back⟩
  | refused {later : List (List β)} {f : List β} {r : ρ} {closed : Bool} {back : List Bool} :
      Step R ⟨.active [] later, f, r, closed, false :: back⟩ .work ⟨.finished false, f, r, closed, back⟩
  | hungUp {later : List (List β)} {f : List β} {r : ρ} :
      Step R ⟨.active [] later, f, r, true, []⟩ .work ⟨.finished false, f, r, true, []⟩
  | abort {left : List β} {later : List (List β)} {f : List β} {r : ρ} {closed : Bool} {back : List Bool} :
      Step R ⟨.active left later, f, r, closed, back⟩ .abort ⟨.finished false, f, r, closed, back⟩
  | read {sender : Sender β} {s f : List β} {r r' : ρ} {back : List Bool} : s ≠ [] → R.read r s r' →
      Step R ⟨sender, s ++ f, r, false, back⟩ .work ⟨sender, f, r', false, back⟩
  | agree {sender : Sender β} {f : List β} {r r' : ρ} {back : List Bool} : R.agree r r' →
      Step R ⟨sender, f, r, false, back⟩ .work ⟨sender, f, r', false, back ++ [true]⟩
  | refuse {sender : Sender β} {f : List β} {r r' : ρ} {back : List Bool} : R.refuse r r' →
      Step R ⟨sender, f, r, false, back⟩ .refuse ⟨sender, f, r', true, back ++ [false]⟩
  | quit {sender : Sender β} {f : List β} {r : ρ} {back : List Bool} : R.quit r →
      Step R ⟨sender, f, r, false, back⟩ .refuse ⟨sender, f, r, true, back⟩
  | done {sender : Sender β} {f : List β} {r : ρ} {back : List Bool} : R.done r →
      Step R ⟨sender, f, r, false, back⟩ .work ⟨sender, f, r, true, back⟩
  | goOn {success : Bool} {r r' : ρ} {back : List Bool} : R.goOn r r' →
      Step R ⟨.finished success, [], r, false, back⟩ .work ⟨.finished success, [], r', false, back⟩
  | finish {success : Bool} {r r' : ρ} {back ends : List Bool} : R.finish r r' → ends = [] ∨ ends = [false] →
      Step R ⟨.finished success, [], r, false, back⟩ .work ⟨.finished success, [], r', true, back ++ ends⟩

/-- A sender with messages, and a receiver that begins in a state. -/
def start (messages : List (List β)) (r : ρ) : Link ρ β := ⟨.next messages, [], r, false, []⟩

/-- The receiver takes nothing but the messages: `at_ k c` are its states when it has agreed to `k` messages and has read `c`
of the next one. It agrees to whole messages only, is done behind the last one, and keeps what it holds when it closes, which
it may do at any time. -/
structure Follows (R : Receiver ρ β) (messages : List (List β)) (r : ρ) (at_ : Nat → List β → ρ → Prop) (held : ρ → α) :
    Prop where
  start : at_ 0 [] r
  nonempty : ∀ m ∈ messages, m ≠ []
  read : ∀ {k c r s r' rest}, at_ k c r → R.read r s r' → messages[k]? = some (c ++ s ++ rest) → at_ k (c ++ s) r'
  agree : ∀ {k c r r'}, at_ k c r → R.agree r r' → messages[k]? = some c ∧ at_ (k + 1) [] r'
  refuse : ∀ {k c r r'}, at_ k c r → R.refuse r r' → held r' = held r
  done : ∀ {k c r}, at_ k c r → R.done r → messages.length ≤ k
  goOn : ∀ {k c r r'}, at_ k c r → R.goOn r r' → ∃ m, messages[k]? = some m ∧ c.length < m.length ∧ at_ k m r'
  finish : ∀ {k c r r'}, at_ k c r → R.finish r r' → held r' = held r

/-- The receiver takes the messages: it reads what has arrived of them, and agrees to whole ones. -/
structure Serves (R : Receiver ρ β) (messages : List (List β)) (r : ρ) (at_ : Nat → List β → ρ → Prop) (held : ρ → α) : Prop
    extends Follows R messages r at_ held where
  reads : ∀ {k c r f rest}, at_ k c r → messages[k]? = some (c ++ f ++ rest) → f ≠ [] →
    ∃ s t r', f = s ++ t ∧ s ≠ [] ∧ R.read r s r'
  agrees : ∀ {k m r}, at_ k m r → messages[k]? = some m → ∃ r', R.agree r r'
  ends : ∀ {k c r}, at_ k c r → messages[k]? ≠ some c → (∃ r', R.goOn r r') ∨ (∃ r', R.finish r r') ∨ R.done r

variable {R : Receiver ρ β} {messages : List (List β)} {r : ρ} {at_ : Nat → List β → ρ → Prop} {held : ρ → α}

/-- A receiver that keeps more than another: its steps are steps of the other, and a fact about what it keeps stays true. -/
structure Refines {ρ' γ : Type*} (R' : Receiver ρ' β) (R : Receiver ρ β) (at_ : Nat → List β → ρ → Prop) (part : ρ' → ρ)
    (fact : ρ' → Prop) (held : ρ' → γ) : Prop where
  read : ∀ {k c r s r'}, at_ k c (part r) → fact r → R'.read r s r' → R.read (part r) s (part r') ∧ fact r'
  agree : ∀ {k c r r'}, at_ k c (part r) → fact r → R'.agree r r' → R.agree (part r) (part r') ∧ fact r'
  refuse : ∀ {r r'}, R'.refuse r r' → held r' = held r
  done : ∀ {r}, R'.done r → R.done (part r)
  goOn : ∀ {k c r r'}, at_ k c (part r) → fact r → R'.goOn r r' → R.goOn (part r) (part r') ∧ fact r'
  finish : ∀ {r r'}, R'.finish r r' → held r' = held r

theorem Follows.refine {ρ' γ : Type*} {R' : Receiver ρ' β} {part : ρ' → ρ} {fact : ρ' → Prop} {held' : ρ' → γ} {r' : ρ'}
    (follows : Follows R messages (part r') at_ held) (refines : Refines R' R at_ part fact held') (true_ : fact r') :
    Follows R' messages r' (fun k c r => at_ k c (part r) ∧ fact r) held' where
  start := ⟨follows.start, true_⟩
  nonempty := follows.nonempty
  read here reads next := by
    obtain ⟨step, fact'⟩ := refines.read here.1 here.2 reads
    exact ⟨follows.read here.1 step next, fact'⟩
  agree here agrees := by
    obtain ⟨step, fact'⟩ := refines.agree here.1 here.2 agrees
    obtain ⟨next, there⟩ := follows.agree here.1 step
    exact ⟨next, there, fact'⟩
  refuse _ refuses := refines.refuse refuses
  done here done := follows.done here.1 (refines.done done)
  goOn here goes := by
    obtain ⟨step, fact'⟩ := refines.goOn here.1 here.2 goes
    obtain ⟨m, next, short, there⟩ := follows.goOn here.1 step
    exact ⟨m, next, short, there, fact'⟩
  finish _ finishes := refines.finish finishes

/-! ## Where a transfer is -/

/-- The answers on the way behind those that the receiver has agreed with: it may have refused, and have closed. -/
def Closing (closed : Bool) (back : List Bool) : Prop := back = [] ∨ closed = true ∧ back = [false]

/-- Where the sender and the bytes on the way are when the receiver has agreed to `k` messages and has read `c` of the
next. The sender is at the same message, or does not know yet that the receiver agreed to the one before. -/
def Place (messages : List (List β)) (k : Nat) (c : List β) : Link ρ β → Prop
  | ⟨.active left later, f, _, closed, back⟩ =>
      (messages[k]? = some (c ++ f ++ left) ∧ later = messages.drop (k + 1) ∧ Closing closed back) ∨
        (left = [] ∧ f = [] ∧ c = [] ∧ k ≤ messages.length ∧ later = messages.drop k ∧
          ∃ ends, back = true :: ends ∧ Closing closed ends)
  | ⟨.finished true, f, _, _, _⟩ => k = messages.length ∧ c = [] ∧ f = []
  | ⟨.finished false, f, _, _, _⟩ => k ≤ messages.length ∧ ∃ rest, messages.getD k [] = c ++ f ++ rest

/-- What a sender has still to do. -/
def Sender.rank : Sender β → Nat
  | .active left later => left.length + (later.flatten.length + later.length) + 1
  | .finished _ => 0

/-- What a receiver has still to read and to answer. -/
def restRank (messages : List (List β)) (k : Nat) (c : List β) : Nat :=
  (messages.drop k).flatten.length + (messages.drop k).length - c.length

/-- A bound on the number of steps of a transfer. -/
def bound (messages : List (List β)) : Nat := (messages.flatten.length + messages.length) * 2 + 1

/-- A transfer that follows the messages, with at most `n` steps to go. -/
structure Within (messages : List (List β)) (at_ : Nat → List β → ρ → Prop) (held : ρ → α) (n : Nat) (s : Link ρ β)
    (k : Nat) (c : List β) (r : ρ) : Prop where
  place : Place messages k c s
  at_ : at_ k c r
  held : held s.receiver = held r
  same : s.closed = false → s.receiver = r
  rank : s.sender.rank + restRank messages k c + (if s.closed then 0 else 1) ≤ n

theorem rank_next (later : List (List β)) : (Sender.next later).rank + 1 = (Sender.active [] later).rank := by
  cases later with
  | nil => rfl
  | cons m later =>
      simp only [Sender.next, Sender.rank, List.flatten_cons, List.length_append, List.length_cons, List.length_nil]
      omega

theorem drop_of_getElem? {k : Nat} {m : List β} (next : messages[k]? = some m) :
    messages.drop k = m :: messages.drop (k + 1) := by
  obtain ⟨inside, rfl⟩ := List.getElem?_eq_some_iff.mp next
  exact List.drop_eq_getElem_cons inside

theorem restRank_of_getElem? {k : Nat} {c m : List β} (next : messages[k]? = some m) :
    restRank messages k c =
      m.length + 1 + ((messages.drop (k + 1)).flatten.length + (messages.drop (k + 1)).length) - c.length := by
  rw [restRank, drop_of_getElem? next, List.flatten_cons, List.length_append, List.length_cons]
  omega

theorem restRank_read {k : Nat} {c s rest : List β} (next : messages[k]? = some (c ++ s ++ rest)) :
    restRank messages k (c ++ s) + s.length = restRank messages k c := by
  rw [restRank_of_getElem? next, restRank_of_getElem? next]
  simp only [List.length_append]
  omega

theorem restRank_agree {k : Nat} {c : List β} (next : messages[k]? = some c) :
    restRank messages (k + 1) [] + 1 = restRank messages k c := by
  rw [restRank_of_getElem? next, restRank, List.length_nil]
  omega

theorem restRank_goOn {k : Nat} {c m : List β} (next : messages[k]? = some m) (short : c.length < m.length) :
    restRank messages k m < restRank messages k c := by
  rw [restRank_of_getElem? next, restRank_of_getElem? next]
  omega

theorem place_next {k : Nat} (inside : k ≤ messages.length) (r : ρ) {closed : Bool} {back : List Bool}
    (closing : Closing closed back) : Place messages k [] ⟨.next (messages.drop k), [], r, closed, back⟩ := by
  rcases Nat.lt_or_eq_of_le inside with less | equal
  · rw [List.drop_eq_getElem_cons less]
    exact Or.inl ⟨List.getElem?_eq_getElem less, rfl, closing⟩
  · rw [List.drop_of_length_le (Nat.le_of_eq equal.symm)]
    exact ⟨equal, rfl, rfl⟩

theorem within_start (follows : Follows R messages r at_ held) :
    Within messages at_ held (bound messages) (start messages r) 0 [] r where
  place := place_next (Nat.zero_le _) r (Or.inl rfl)
  at_ := follows.start
  held := rfl
  same _ := rfl
  rank := by
    have sender := rank_next messages
    simp only [start, bound, restRank, List.drop_zero, List.length_nil, Sender.rank] at sender ⊢
    simp only [Bool.false_eq_true, if_false]
    omega

/-! ## What a step does -/

theorem getElem?_of_getD {k : Nat} {m : List β} (some : m ≠ []) (rest : messages.getD k [] = m) :
    messages[k]? = Option.some m := by
  rw [List.getD_eq_getElem?_getD] at rest
  cases next : messages[k]? with
  | none =>
      rw [next] at rest
      exact absurd rest.symm some
  | some m' =>
      rw [next] at rest
      exact congrArg Option.some rest

theorem getD_of_getElem? {k : Nat} {m : List β} (next : messages[k]? = some m) : messages.getD k [] = m := by
  rw [List.getD_eq_getElem?_getD, next]
  rfl

theorem lt_of_getElem? {k : Nat} {m : List β} (next : messages[k]? = some m) : k < messages.length :=
  (List.getElem?_eq_some_iff.mp next).1

section

variable {n k : Nat} {c s f left : List β} {later : List (List β)} {r₀ r' : ρ} {closed : Bool} {back : List Bool}
  {sender : Sender β}

theorem Within.write (some : s ≠ []) (within : Within messages at_ held n ⟨.active (s ++ left) later, f, r, closed, back⟩ k c r₀) :
    ∃ n' < n, Within messages at_ held n' ⟨.active left later, f ++ s, r, closed, back⟩ k c r₀ := by
  obtain ⟨place, here, holds, same, rank⟩ := within
  rcases place with ⟨next, others, answer⟩ | ⟨empty, -⟩
  · have shorter : (Sender.active left later).rank < (Sender.active (s ++ left) later).rank := by
      have positive := List.length_pos_iff.mpr some
      simp only [Sender.rank, List.length_append]
      omega
    refine ⟨_, ?_, ⟨Or.inl ⟨?_, others, answer⟩, here, holds, same, Nat.le_refl _⟩⟩
    · dsimp only at rank ⊢
      omega
    · rw [next]
      simp only [List.append_assoc]
  · exact absurd (List.append_eq_nil_iff.mp empty).1 some

theorem Within.agreed (within : Within messages at_ held n ⟨.active [] later, f, r, closed, true :: back⟩ k c r₀) :
    ∃ n' < n, Within messages at_ held n' ⟨.next later, f, r, closed, back⟩ k c r₀ := by
  obtain ⟨place, here, holds, same, rank⟩ := within
  rcases place with ⟨-, -, answer | ⟨-, answer⟩⟩ | ⟨-, rfl, rfl, inside, rfl, ends, answer, closing⟩
  · cases answer
  · cases answer
  · cases answer
    have shorter := rank_next (messages.drop k)
    refine ⟨_, ?_, ⟨place_next inside r closing, here, holds, same, Nat.le_refl _⟩⟩
    dsimp only at rank ⊢
    omega

theorem Within.refused (within : Within messages at_ held n ⟨.active [] later, f, r, closed, false :: back⟩ k c r₀) :
    ∃ n' < n, Within messages at_ held n' ⟨.finished false, f, r, closed, back⟩ k c r₀ := by
  obtain ⟨place, here, holds, same, rank⟩ := within
  rcases place with ⟨next, -, -⟩ | ⟨-, -, -, -, -, ends, answer, -⟩
  · refine ⟨_, ?_, ⟨⟨Nat.le_of_lt (lt_of_getElem? next), [], getD_of_getElem? next⟩, here, holds, same, Nat.le_refl _⟩⟩
    simp only [Sender.rank] at rank ⊢
    omega
  · cases answer

theorem Within.abort (within : Within messages at_ held n ⟨.active left later, f, r, closed, back⟩ k c r₀) :
    ∃ n' < n, Within messages at_ held n' ⟨.finished false, f, r, closed, back⟩ k c r₀ := by
  obtain ⟨place, here, holds, same, rank⟩ := within
  have shorter : (Sender.finished false : Sender β).rank + restRank messages k c + (if closed then 0 else 1) < n := by
    simp only [Sender.rank] at rank ⊢
    omega
  rcases place with ⟨next, -, -⟩ | ⟨-, rfl, rfl, inside, -⟩
  · exact ⟨_, shorter, ⟨Nat.le_of_lt (lt_of_getElem? next), left, getD_of_getElem? next⟩, here, holds, same, Nat.le_refl _⟩
  · exact ⟨_, shorter, ⟨inside, _, rfl⟩, here, holds, same, Nat.le_refl _⟩

/-- What is read is the next part of the message that the receiver is at. -/
theorem Place.reads (some : s ≠ []) (place : Place messages k c ⟨sender, s ++ f, r, closed, back⟩) :
    (∃ rest, messages[k]? = Option.some (c ++ s ++ rest)) ∧ Place messages k (c ++ s) ⟨sender, f, r', closed, back⟩ := by
  rcases sender with ⟨left, later⟩ | success
  · rcases place with ⟨next, others, answer⟩ | ⟨-, empty, -⟩
    · rw [← List.append_assoc] at next
      exact ⟨⟨f ++ left, by rw [next, List.append_assoc]⟩, Or.inl ⟨next, others, answer⟩⟩
    · exact absurd (List.append_eq_nil_iff.mp empty).1 some
  · cases success with
    | true => exact absurd (List.append_eq_nil_iff.mp place.2.2).1 some
    | false =>
        obtain ⟨inside, rest, next⟩ := place
        rw [← List.append_assoc] at next
        refine ⟨⟨f ++ rest, ?_⟩, inside, rest, next⟩
        rw [← List.append_assoc]
        refine getElem?_of_getD (fun empty => some ?_) next
        simp only [List.append_eq_nil_iff] at empty
        exact empty.1.1.2

theorem Within.read (follows : Follows R messages r at_ held) (some : s ≠ []) {r₁ : ρ} (reads : R.read r₁ s r')
    (within : Within messages at_ held n ⟨sender, s ++ f, r₁, false, back⟩ k c r₀) :
    ∃ n' < n, Within messages at_ held n' ⟨sender, f, r', false, back⟩ k (c ++ s) r' := by
  obtain ⟨place, here, holds, same, rank⟩ := within
  cases same rfl
  obtain ⟨⟨rest, next⟩, place'⟩ := place.reads some
  have shorter := restRank_read next
  have positive := List.length_pos_iff.mpr some
  refine ⟨_, ?_, ⟨place', follows.read here reads next, rfl, fun _ => rfl, Nat.le_refl _⟩⟩
  dsimp only at rank ⊢
  omega

theorem Within.agree (follows : Follows R messages r at_ held) {r₁ : ρ} (agrees : R.agree r₁ r')
    (within : Within messages at_ held n ⟨sender, f, r₁, false, back⟩ k c r₀) :
    ∃ n' < n, Within messages at_ held n' ⟨sender, f, r', false, back ++ [true]⟩ (k + 1) [] r' := by
  obtain ⟨place, here, holds, same, rank⟩ := within
  cases same rfl
  obtain ⟨next, there⟩ := follows.agree here agrees
  have shorter := restRank_agree next
  have inside := lt_of_getElem? next
  have place' : Place messages (k + 1) [] ⟨sender, f, r', false, back ++ [true]⟩ := by
    rcases sender with ⟨left, later⟩ | success
    · rcases place with ⟨whole, others, answer⟩ | ⟨-, -, rfl, -⟩
      · have none : back = [] := answer.elim id fun shut => (by cases shut.1)
        subst none
        have nothing : f ++ left = [] := by
          rw [next, List.append_assoc] at whole
          exact (List.self_eq_append_right.mp (Option.some.inj whole))
        obtain ⟨rfl, rfl⟩ := List.append_eq_nil_iff.mp nothing
        exact Or.inr ⟨rfl, rfl, rfl, inside, others, [], rfl, Or.inl rfl⟩
      · exact absurd rfl (follows.nonempty [] (List.mem_of_getElem? next))
    · cases success with
      | true => exact absurd inside (by rw [place.1]; exact Nat.lt_irrefl _)
      | false =>
          obtain ⟨-, rest, whole⟩ := place
          rw [getD_of_getElem? next, List.append_assoc] at whole
          obtain ⟨rfl, -⟩ := List.append_eq_nil_iff.mp (List.self_eq_append_right.mp whole)
          exact ⟨inside, _, rfl⟩
  refine ⟨_, ?_, ⟨place', there, rfl, fun _ => rfl, Nat.le_refl _⟩⟩
  dsimp only at rank ⊢
  omega

/-- The receiver may close, with an answer or without. -/
theorem Within.close {r₁ : ρ} (kept : held r' = held r₁) {ends : List Bool} (answer : ends = [] ∨ ends = [false])
    (within : Within messages at_ held n ⟨sender, f, r₁, false, back⟩ k c r₀) :
    ∃ n' < n, Within messages at_ held n' ⟨sender, f, r', true, back ++ ends⟩ k c r₀ := by
  obtain ⟨place, here, holds, same, rank⟩ := within
  have closing : ∀ {back}, Closing false back → Closing true (back ++ ends) := by
    intro back opened
    have none : back = [] := opened.elim id fun shut => (by cases shut.1)
    subst none
    exact answer.imp id fun refused => ⟨rfl, refused⟩
  have place' : Place messages k c ⟨sender, f, r', true, back ++ ends⟩ := by
    rcases sender with ⟨left, later⟩ | success
    · rcases place with ⟨whole, others, opened⟩ | ⟨rfl, rfl, rfl, inside, others, ends', rfl, opened⟩
      · exact Or.inl ⟨whole, others, closing opened⟩
      · exact Or.inr ⟨rfl, rfl, rfl, inside, others, _, rfl, closing opened⟩
    · cases success with
      | true => exact place
      | false => exact place
  refine ⟨_, ?_, ⟨place', here, kept.trans holds, fun opened => (by cases opened), Nat.le_refl _⟩⟩
  simp only [Bool.false_eq_true, if_false, if_true] at rank ⊢
  omega

theorem Within.goOn (follows : Follows R messages r at_ held) {r₁ : ρ} (goes : R.goOn r₁ r') {success : Bool}
    (within : Within messages at_ held n ⟨.finished success, [], r₁, false, back⟩ k c r₀) :
    ∃ m, ∃ n' < n, Within messages at_ held n' ⟨.finished success, [], r', false, back⟩ k m r' := by
  obtain ⟨place, here, holds, same, rank⟩ := within
  cases same rfl
  obtain ⟨m, next, short, there⟩ := follows.goOn here goes
  have shorter := restRank_goOn next short
  have inside := lt_of_getElem? next
  have place' : Place messages k m ⟨.finished success, [], r', false, back⟩ := by
    cases success with
    | true => exact absurd inside (by rw [place.1]; exact Nat.lt_irrefl _)
    | false => exact ⟨place.1, [], by rw [getD_of_getElem? next, List.append_nil, List.append_nil]⟩
  refine ⟨m, _, ?_, ⟨place', there, rfl, fun _ => rfl, Nat.le_refl _⟩⟩
  dsimp only at rank ⊢
  omega

theorem Within.finish (follows : Follows R messages r at_ held) {r₁ : ρ} (finishes : R.finish r₁ r') {success : Bool}
    (within : Within messages at_ held n ⟨.finished success, [], r₁, false, back⟩ k c r₀) (ends : List Bool) :
    ∃ n' < n, Within messages at_ held n' ⟨.finished success, [], r', true, back ++ ends⟩ k c r₀ := by
  obtain ⟨place, here, holds, same, rank⟩ := within
  cases same rfl
  have place' : Place messages k c ⟨.finished success, [], r', true, back ++ ends⟩ := by
    cases success with
    | true => exact place
    | false => exact place
  refine ⟨_, ?_, ⟨place', here, follows.finish here finishes, fun opened => (by cases opened), Nat.le_refl _⟩⟩
  simp only [Bool.false_eq_true, if_false, if_true] at rank ⊢
  omega

end

/-- Every step of a transfer leaves fewer steps to go. -/
theorem Within.step (follows : Follows R messages r at_ held) {n k : Nat} {c : List β} {r₀ : ρ} {s s' : Link ρ β}
    {kind : Kind} (within : Within messages at_ held n s k c r₀) (step : Step R s kind s') :
    ∃ n' < n, ∃ k' c' r', Within messages at_ held n' s' k' c' r' := by
  cases step with
  | write some =>
      obtain ⟨n', less, later⟩ := within.write some
      exact ⟨n', less, _, _, _, later⟩
  | agreed =>
      obtain ⟨n', less, later⟩ := within.agreed
      exact ⟨n', less, _, _, _, later⟩
  | refused =>
      obtain ⟨n', less, later⟩ := within.refused
      exact ⟨n', less, _, _, _, later⟩
  | hungUp =>
      obtain ⟨n', less, later⟩ := within.abort
      exact ⟨n', less, _, _, _, later⟩
  | abort =>
      obtain ⟨n', less, later⟩ := within.abort
      exact ⟨n', less, _, _, _, later⟩
  | read some reads =>
      obtain ⟨n', less, later⟩ := within.read follows some reads
      exact ⟨n', less, _, _, _, later⟩
  | agree agrees =>
      obtain ⟨n', less, later⟩ := within.agree follows agrees
      exact ⟨n', less, _, _, _, later⟩
  | refuse refuses =>
      cases within.same rfl
      obtain ⟨n', less, later⟩ := within.close (follows.refuse within.at_ refuses) (Or.inr rfl)
      exact ⟨n', less, _, _, _, later⟩
  | quit quits =>
      obtain ⟨n', less, later⟩ := within.close rfl (Or.inl rfl)
      rw [List.append_nil] at later
      exact ⟨n', less, _, _, _, later⟩
  | done done =>
      obtain ⟨n', less, later⟩ := within.close rfl (Or.inl rfl)
      rw [List.append_nil] at later
      exact ⟨n', less, _, _, _, later⟩
  | goOn goes =>
      obtain ⟨m, n', less, later⟩ := within.goOn follows goes
      exact ⟨n', less, _, _, _, later⟩
  | finish finishes =>
      obtain ⟨n', less, later⟩ := within.finish follows finishes _
      exact ⟨n', less, _, _, _, later⟩

/-! ## Runs -/

/-- The steps between two states. -/
inductive Run (R : Receiver ρ β) (s : Link ρ β) : List Kind → Link ρ β → Prop
  | none : Run R s [] s
  | step {kinds : List Kind} {kind : Kind} {s' s'' : Link ρ β} :
      Run R s kinds s' → Step R s' kind s'' → Run R s (kinds ++ [kind]) s''

section

variable {s : Link ρ β} {kinds : List Kind}

theorem Run.within (follows : Follows R messages r at_ held) (run : Run R (start messages r) kinds s) :
    ∃ n k c r', Within messages at_ held n s k c r' ∧ n + kinds.length ≤ bound messages := by
  induction run with
  | none => exact ⟨_, 0, [], r, within_start follows, Nat.le_refl _⟩
  | step _ step ih =>
      obtain ⟨n, k, c, r', within, few⟩ := ih
      obtain ⟨n', less, k', c', r'', later⟩ := within.step follows step
      refine ⟨n', k', c', r'', later, ?_⟩
      rw [List.length_append, List.length_singleton]
      omega

/-- The receiver holds what some first part of the messages makes it hold. -/
theorem Run.holds (follows : Follows R messages r at_ held) (run : Run R (start messages r) kinds s) :
    ∃ k c r', at_ k c r' ∧ held s.receiver = held r' := by
  obtain ⟨n, k, c, r', within, -⟩ := run.within follows
  exact ⟨k, c, r', within.at_, within.held⟩

/-- When the sender has succeeded, the receiver holds what all messages make it hold. -/
theorem Run.agreement (follows : Follows R messages r at_ held) (run : Run R (start messages r) kinds s)
    (success : s.sender = .finished true) : ∃ r', at_ messages.length [] r' ∧ held s.receiver = held r' := by
  obtain ⟨n, k, c, r', within, -⟩ := run.within follows
  rcases s with ⟨sender, f, r₁, closed, back⟩
  cases success
  obtain ⟨rfl, rfl, -⟩ := within.place
  exact ⟨r', within.at_, within.held⟩

/-- No run goes on for ever. -/
theorem Run.bounded (follows : Follows R messages r at_ held) (run : Run R (start messages r) kinds s) :
    kinds.length ≤ bound messages := by
  obtain ⟨n, k, c, r', -, few⟩ := run.within follows
  omega

/-- As long as one of them is not done, one of them can go on. -/
theorem Run.progress (serves : Serves R messages r at_ held) (run : Run R (start messages r) kinds s) :
    (∃ success, s.sender = .finished success) ∧ s.closed = true ∨ ∃ s', Step R s .work s' := by
  obtain ⟨n, k, c, r', within, -⟩ := run.within serves.toFollows
  rcases s with ⟨sender, f, r₁, closed, back⟩
  have reading : ∀ rest, closed = false → f ≠ [] → messages[k]? = some (c ++ f ++ rest) →
      ∃ s', Step R ⟨sender, f, r₁, closed, back⟩ .work s' := by
    intro rest opened arrived next
    cases opened
    cases within.same rfl
    obtain ⟨s, t, r'', rfl, some, reads⟩ := serves.reads within.at_ next arrived
    exact ⟨_, Step.read some reads⟩
  have agreeing : closed = false → messages[k]? = some c → ∃ s', Step R ⟨sender, f, r₁, closed, back⟩ .work s' := by
    intro opened next
    cases opened
    cases within.same rfl
    obtain ⟨r'', agrees⟩ := serves.agrees within.at_ next
    exact ⟨_, Step.agree agrees⟩
  rcases sender with ⟨left, later⟩ | success
  · refine Or.inr ?_
    cases left with
    | cons b left => exact ⟨_, @Step.write _ _ R [b] left later f r₁ closed back (List.cons_ne_nil b [])⟩
    | nil =>
        rcases within.place with ⟨next, -, closing⟩ | ⟨-, -, -, -, -, ends, rfl, -⟩
        · cases closed with
          | true =>
              rcases closing with rfl | ⟨-, rfl⟩
              · exact ⟨_, Step.hungUp⟩
              · exact ⟨_, Step.refused⟩
          | false =>
              by_cases arrived : f = []
              · subst arrived
                rw [List.append_nil, List.append_nil] at next
                exact agreeing rfl next
              · exact reading [] rfl arrived next
        · exact ⟨_, Step.agreed⟩
  · cases closed with
    | true => exact Or.inl ⟨⟨success, rfl⟩, rfl⟩
    | false =>
        refine Or.inr ?_
        by_cases arrived : f = []
        · subst arrived
          by_cases next : messages[k]? = some c
          · exact agreeing rfl next
          · cases within.same rfl
            rcases serves.ends within.at_ next with ⟨r'', goes⟩ | ⟨r'', finishes⟩ | done
            · exact ⟨_, Step.goOn goes⟩
            · exact ⟨_, Step.finish finishes (Or.inl rfl)⟩
            · exact ⟨_, Step.done done⟩
        · cases success with
          | true => exact absurd within.place.2.2 arrived
          | false =>
              obtain ⟨-, rest, next⟩ := within.place
              refine reading rest rfl arrived (getElem?_of_getD (fun empty => arrived ?_) next)
              simp only [List.append_eq_nil_iff] at empty
              exact empty.1.2

/-- Nothing has failed: the receiver has closed at the end, or when only its last answer was on the way. -/
structure Smooth (s : Link ρ β) : Prop where
  unfailed : s.sender ≠ .finished false
  closes : s.closed = true → s.sender = .finished true ∨ s.sender = .active [] [] ∧ s.back = [true]

/-- A receiver that is done has agreed to all messages, which the sender knows, or gets to know. -/
theorem Place.all {k : Nat} {c f : List β} {sender : Sender β} {r : ρ} {back : List Bool}
    (place : Place messages k c ⟨sender, f, r, false, back⟩) (all : messages.length ≤ k) (unfailed : sender ≠ .finished false) :
    sender = .finished true ∨ sender = .active [] [] ∧ back = [true] := by
  rcases sender with ⟨left, later⟩ | success
  · rcases place with ⟨next, -⟩ | ⟨rfl, -, -, -, rfl, ends, rfl, rfl | ⟨shut, -⟩⟩
    · exact absurd (lt_of_getElem? next) (Nat.not_lt.mpr all)
    · exact Or.inr ⟨by rw [List.drop_of_length_le all], rfl⟩
    · cases shut
  · cases success with
    | true => exact Or.inl rfl
    | false => exact absurd rfl unfailed

theorem Smooth.step (follows : Follows R messages r at_ held) {n k : Nat} {c : List β} {r₀ : ρ} {s' : Link ρ β}
    (smooth : Smooth s) (within : Within messages at_ held n s k c r₀) (step : Step R s .work s') : Smooth s' := by
  obtain ⟨unfailed, closes⟩ := smooth
  cases step with
  | write some =>
      refine ⟨fun failed => (by cases failed), fun shut => ?_⟩
      rcases closes shut with success | ⟨waits, -⟩
      · cases success
      · simp only [Sender.active.injEq, List.append_eq_nil_iff] at waits
        exact absurd waits.1.1 some
  | @agreed later f r closed back =>
      have next : (Sender.next later : Sender β) ≠ .finished false := by
        cases later with
        | nil => exact fun failed => (by cases failed)
        | cons m later => exact fun failed => (by cases failed)
      refine ⟨next, fun shut => Or.inl ?_⟩
      rcases closes shut with success | ⟨waits, -⟩
      · cases success
      · cases waits
        rfl
  | refused =>
      rcases within.place with ⟨-, -, answer | ⟨shut, answer⟩⟩ | ⟨-, -, -, -, -, ends, answer, -⟩
      · cases answer
      · rcases closes shut with success | ⟨-, agreed⟩
        · cases success
        · cases agreed
      · cases answer
  | hungUp =>
      rcases closes rfl with success | ⟨-, agreed⟩
      · cases success
      · cases agreed
  | read some reads => exact ⟨unfailed, fun shut => (by cases shut)⟩
  | agree agrees => exact ⟨unfailed, fun shut => (by cases shut)⟩
  | done done =>
      cases within.same rfl
      exact ⟨unfailed, fun _ => within.place.all (follows.done within.at_ done) unfailed⟩
  | goOn goes => exact ⟨unfailed, fun shut => (by cases shut)⟩
  | @finish success r r' back ends finishes answer =>
      cases success with
      | true => exact ⟨unfailed, fun _ => Or.inl rfl⟩
      | false => exact absurd rfl unfailed

theorem Run.smooth (follows : Follows R messages r at_ held) (run : Run R (start messages r) kinds s)
    (work : ∀ kind ∈ kinds, kind = .work) : Smooth s := by
  induction run with
  | none =>
      refine ⟨?_, fun shut => (by cases shut)⟩
      cases messages with
      | nil => exact fun failed => (by cases failed)
      | cons m later => exact fun failed => (by cases failed)
  | step run step ih =>
      have before := ih fun kind member => work kind (List.mem_append_left _ member)
      cases work _ (List.mem_append_right _ (List.mem_singleton_self _))
      obtain ⟨n, k, c, r', within, -⟩ := run.within follows
      exact before.step follows within step

/-- A run without failures goes on until it has succeeded. -/
theorem Run.completes (serves : Serves R messages r at_ held) (run : Run R (start messages r) kinds s)
    (work : ∀ kind ∈ kinds, kind = .work) :
    s.sender = .finished true ∧ s.closed = true ∨ ∃ s', Step R s .work s' := by
  rcases run.progress serves with ⟨⟨success, finished⟩, closed⟩ | goes
  · rcases (run.smooth serves.toFollows work).closes closed with done | ⟨waits, -⟩
    · exact Or.inl ⟨done, closed⟩
    · cases finished.symm.trans waits
  · exact Or.inr goes

/-- Some run without failures succeeds. -/
theorem exists_complete (serves : Serves R messages r at_ held) :
    ∃ kinds s, Run R (start messages r) kinds s ∧ (∀ kind ∈ kinds, kind = .work) ∧ s.sender = .finished true ∧
      s.closed = true := by
  have reach : ∀ n, (∃ kinds s, Run R (start messages r) kinds s ∧ (∀ kind ∈ kinds, kind = .work) ∧ kinds.length = n) ∨
      ∃ kinds s, Run R (start messages r) kinds s ∧ (∀ kind ∈ kinds, kind = .work) ∧ s.sender = .finished true ∧
        s.closed = true := by
    intro n
    induction n with
    | zero => exact Or.inl ⟨[], _, Run.none, fun kind member => (by cases member), rfl⟩
    | succ n ih =>
        rcases ih with ⟨kinds, s, run, work, length⟩ | done
        · rcases run.completes serves work with ⟨success, closed⟩ | ⟨s', step⟩
          · exact Or.inr ⟨kinds, s, run, work, success, closed⟩
          · refine Or.inl ⟨_, s', run.step step, fun kind member => ?_, ?_⟩
            · rcases List.mem_append.mp member with before | last
              · exact work kind before
              · exact List.mem_singleton.mp last
            · rw [List.length_append, length, List.length_singleton]
        · exact Or.inr done
  rcases reach (bound messages + 1) with ⟨kinds, s, run, -, length⟩ | done
  · have few := run.bounded serves.toFollows
    omega
  · exact done

end

end StopAndWait

end LPRng
