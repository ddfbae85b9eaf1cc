import Mathlib.Data.List.Basic
import Mathlib.Data.List.Nodup
import Mathlib.Order.Nat

/-!
# Waiting lists

Requests wait in a list until they are served. One that comes while another with its key is
waiting is not listed a second time, and the urgent ones are served before the others, each
in the order of the list. The history of such a list tells that no request is forgotten.
-/

namespace LPRng

/-- What happens at a waiting list. -/
inductive Turn (α : Type*) where
  | came (a : α)
  | served (a : α)

namespace WaitingList

variable {α κ : Type*} [DecidableEq κ]

/-- One that comes is put at the end, unless another with its key is waiting. -/
def arrive (key : α → κ) (l : List α) (a : α) : List α := if key a ∈ l.map key then l else l ++ [a]

/-- The place of the first urgent one, and without one the place of the first. -/
def next (urgent : α → Bool) (l : List α) : Nat := (l.findIdx? urgent).getD 0

/-- The lists a history leads to. The last turn stands first. -/
inductive Run (key : α → κ) (urgent : α → Bool) : List (Turn α) → List α → Prop
  | nil : Run key urgent [] []
  | came {log : List (Turn α)} {l : List α} (a : α) :
      Run key urgent log l → Run key urgent (.came a :: log) (arrive key l a)
  | served {log : List (Turn α)} {l : List α} {a : α} :
      Run key urgent log l → l[next urgent l]? = some a →
      Run key urgent (.served a :: log) (l.eraseIdx (next urgent l))

/-- How many came. -/
def arrivals (log : List (Turn α)) : Nat := log.countP fun | .came _ => true | .served _ => false

/-- How many were served. -/
def services (log : List (Turn α)) : Nat := log.countP fun | .came _ => false | .served _ => true

/-- One with the key has been served. -/
def Served (key : α → κ) (log : List (Turn α)) (a : α) : Prop := ∃ b, .served b ∈ log ∧ key b = key a

variable {key : α → κ} {urgent : α → Bool} {log later earlier : List (Turn α)} {l : List α} {a b : α}
  {turn turn' : Turn α}

/-! ## One turn -/

theorem mem_arrive (listed : b ∈ l) (a : α) : b ∈ arrive key l a := by
  unfold arrive
  split
  · exact listed
  · exact List.mem_append_left [a] listed

theorem of_mem_arrive (listed : b ∈ arrive key l a) : b ∈ l ∨ b = a := by
  unfold arrive at listed
  split at listed
  · exact .inl listed
  · rcases List.mem_append.mp listed with before | new
    · exact .inl before
    · exact .inr (List.mem_singleton.mp new)

theorem arrive_listed (key : α → κ) (l : List α) (a : α) : ∃ b ∈ arrive key l a, key b = key a := by
  unfold arrive
  split
  next waiting => exact List.mem_map.mp waiting
  next new => exact ⟨a, List.mem_append_right l (List.mem_singleton_self a), rfl⟩

theorem nodup_arrive (once : (l.map key).Nodup) (a : α) : ((arrive key l a).map key).Nodup := by
  unfold arrive
  split
  next waiting => exact once
  next new =>
      rw [List.map_append, List.map_singleton]
      refine once.append (List.nodup_singleton (key a)) ?_
      intro k here there
      exact new (List.mem_singleton.mp there ▸ here)

/-- One that waits goes on waiting, or is the one that is served. -/
theorem mem_eraseIdx_or {n : Nat} (found : l[n]? = some a) (listed : b ∈ l) : b ∈ l.eraseIdx n ∨ b = a := by
  rcases List.mem_iff_getElem?.mp listed with ⟨m, there⟩
  by_cases same : m = n
  · rw [same, found] at there
    exact .inr (Option.some.inj there).symm
  · exact .inl (List.mem_eraseIdx_iff_getElem?.mpr ⟨m, same, there⟩)

theorem next_eq {front rest : List α} (none : ∀ c ∈ front, urgent c = false) (here : urgent a = true) :
    next urgent (front ++ a :: rest) = front.length := by
  have skipped : front.findIdx? urgent = Option.none := List.findIdx?_eq_none_iff.mpr none
  rw [next, List.findIdx?_append, skipped, List.findIdx?_cons, here]
  exact Nat.zero_add _

/-- Of those in front of an urgent one, an urgent one is served next. Without such a one it
is its own turn. -/
theorem next_of_urgent (ahead behind : List α) (here : urgent b = true) :
    (∃ front c rest, ahead = front ++ c :: rest ∧ urgent c = true ∧
        next urgent (ahead ++ b :: behind) = front.length) ∨
      next urgent (ahead ++ b :: behind) = ahead.length := by
  cases found : ahead.find? urgent with
  | none =>
      refine .inr (next_eq (fun c member => ?_) here)
      exact Bool.eq_false_iff.mpr (List.find?_eq_none.mp found c member)
  | some c =>
      rcases List.find?_eq_some_iff_append.mp found with ⟨urgent_c, front, rest, rfl, none⟩
      refine .inl ⟨front, c, rest, rfl, urgent_c, ?_⟩
      rw [List.append_assoc, List.cons_append]
      exact next_eq (fun d member => by simpa using none d member) urgent_c

/-! ## The history -/

/-- A turn in a longer history is the last one or an earlier one. -/
theorem split_cons (split : turn' :: log = later ++ turn :: earlier) :
    (later = [] ∧ turn' = turn ∧ log = earlier) ∨
      ∃ later', later = turn' :: later' ∧ log = later' ++ turn :: earlier := by
  cases later with
  | nil =>
      rw [List.nil_append] at split
      exact .inl ⟨rfl, (List.cons.inj split).1, (List.cons.inj split).2⟩
  | cons first later' =>
      rw [List.cons_append] at split
      exact .inr ⟨later', by rw [(List.cons.inj split).1], (List.cons.inj split).2⟩

omit [DecidableEq κ] in
theorem Served.cons (done : Served key log a) (turn : Turn α) : Served key (turn :: log) a := by
  rcases done with ⟨b, member, same⟩
  exact ⟨b, List.mem_cons_of_mem turn member, same⟩

namespace Run

/-- No two that wait have one key. -/
theorem nodup (run : Run key urgent log l) : (l.map key).Nodup := by
  induction run with
  | nil => exact List.nodup_nil
  | came a run ih => exact nodup_arrive ih a
  | served run found ih => exact ih.sublist ((List.eraseIdx_sublist _ _).map key)

/-- Whoever waits has come. -/
theorem came_of_mem (run : Run key urgent log l) (listed : a ∈ l) : .came a ∈ log := by
  induction run with
  | nil => cases listed
  | came b run ih =>
      rcases of_mem_arrive listed with before | new
      · exact List.mem_cons_of_mem _ (ih before)
      · exact new ▸ List.mem_cons_self
  | served run found ih => exact List.mem_cons_of_mem _ (ih (List.mem_of_mem_eraseIdx listed))

/-- Whoever is served has come before. -/
theorem came_of_served (run : Run key urgent log l) (split : log = later ++ .served a :: earlier) :
    .came a ∈ earlier := by
  induction run generalizing later with
  | nil => exact absurd split.symm (List.append_ne_nil_of_right_ne_nil later (List.cons_ne_nil _ _))
  | came b run ih =>
      rcases split_cons split with ⟨_, clash, _⟩ | ⟨later', _, rest⟩
      · cases clash
      · exact ih rest
  | served run found ih =>
      rcases split_cons split with ⟨_, same, here⟩ | ⟨later', _, rest⟩
      · cases same
        exact here ▸ run.came_of_mem (List.mem_of_getElem? found)
      · exact ih rest

/-- One with the key of a newcomer waits from then on until it is served. -/
theorem kept (run : Run key urgent log l) (split : log = later ++ .came a :: earlier) :
    (∃ b ∈ l, key b = key a) ∨ Served key later a := by
  induction run generalizing later with
  | nil => exact absurd split.symm (List.append_ne_nil_of_right_ne_nil later (List.cons_ne_nil _ _))
  | @came log l c run ih =>
      rcases split_cons split with ⟨_, same, _⟩ | ⟨later', rfl, rest⟩
      · cases same
        exact .inl (arrive_listed key l a)
      · rcases ih rest with ⟨b, listed, same⟩ | done
        · exact .inl ⟨b, mem_arrive listed c, same⟩
        · exact .inr (done.cons _)
  | @served log l c run found ih =>
      rcases split_cons split with ⟨_, clash, _⟩ | ⟨later', rfl, rest⟩
      · cases clash
      · rcases ih rest with ⟨b, listed, same⟩ | done
        · rcases mem_eraseIdx_or found listed with still | rfl
          · exact .inl ⟨b, still, same⟩
          · exact .inr ⟨b, List.mem_cons_self, same⟩
        · exact .inr (done.cons _)

theorem length_le (run : Run key urgent log l) : l.length ≤ arrivals log := by
  induction run with
  | nil => exact Nat.zero_le _
  | @came log l a run ih =>
      have more : arrivals (.came a :: log) = arrivals log + 1 := List.countP_cons_of_pos rfl
      have longer : (arrive key l a).length ≤ l.length + 1 := by
        unfold arrive
        split
        · exact Nat.le_succ _
        · exact le_of_eq List.length_append
      omega
  | @served log l a run found ih =>
      have same : arrivals (.served a :: log) = arrivals log := List.countP_cons_of_neg (by simp)
      have shorter : (l.eraseIdx (next urgent l)).length ≤ l.length := List.length_eraseIdx_le l _
      omega

/-- An urgent one is served, or fewer were served since it came than had come before. -/
theorem place (respects : ∀ {a b : α}, key a = key b → urgent a = urgent b)
    (run : Run key urgent log l) (hurry : urgent a = true) (split : log = later ++ .came a :: earlier) :
    Served key later a ∨ ∃ ahead b behind, l = ahead ++ b :: behind ∧ key b = key a ∧
      ahead.countP urgent + services later ≤ arrivals earlier := by
  induction run generalizing later with
  | nil => exact absurd split.symm (List.append_ne_nil_of_right_ne_nil later (List.cons_ne_nil _ _))
  | @came log l c run ih =>
      rcases split_cons split with ⟨rfl, same, rfl⟩ | ⟨later', rfl, rest⟩
      · cases same
        rcases arrive_listed key l a with ⟨b, listed, same⟩
        rcases List.append_of_mem listed with ⟨ahead, behind, parts⟩
        refine .inr ⟨ahead, b, behind, parts, same, ?_⟩
        have whole : (ahead ++ b :: behind).length ≤ arrivals log + 1 := by
          have more : arrivals (.came a :: log) = arrivals log + 1 := List.countP_cons_of_pos rfl
          exact more ▸ parts ▸ (Run.came a run).length_le
        rw [List.length_append, List.length_cons] at whole
        have counted : ahead.countP urgent ≤ ahead.length := List.countP_le_length
        have none : services ([] : List (Turn α)) = 0 := rfl
        omega
      · have same : services (.came c :: later') = services later' := List.countP_cons_of_neg (by simp)
        rcases ih rest with done | ⟨ahead, b, behind, parts, equal, bound⟩
        · exact .inl (done.cons _)
        · right
          unfold arrive
          split
          · exact ⟨ahead, b, behind, parts, equal, same ▸ bound⟩
          · exact ⟨ahead, b, behind ++ [c], by rw [parts, List.append_assoc]; rfl, equal, same ▸ bound⟩
  | @served log l c run found ih =>
      rcases split_cons split with ⟨_, clash, _⟩ | ⟨later', rfl, rest⟩
      · cases clash
      · have more : services (.served c :: later') = services later' + 1 := List.countP_cons_of_pos rfl
        rcases ih rest with done | ⟨ahead, b, behind, rfl, equal, bound⟩
        · exact .inl (done.cons _)
        · have here : urgent b = true := respects equal ▸ hurry
          rcases next_of_urgent ahead behind here with ⟨front, d, others, rfl, first, at_d⟩ | at_b
          · refine .inr ⟨front ++ others, b, behind, ?_, equal, ?_⟩
            · rw [at_d, List.append_assoc, List.cons_append, List.eraseIdx_append_of_length_le le_rfl,
                Nat.sub_self, List.eraseIdx_cons_zero, List.append_assoc]
            · have counted : (front ++ d :: others).countP urgent = (front ++ others).countP urgent + 1 := by
                rw [List.countP_append, List.countP_append, List.countP_cons_of_pos first, Nat.add_assoc]
              omega
          · rw [at_b, List.getElem?_append_right le_rfl, Nat.sub_self] at found
            cases found
            exact .inl ⟨c, List.mem_cons_self, equal⟩

/-- Once more were served than had come before an urgent one, it has been served itself. -/
theorem prompt (respects : ∀ {a b : α}, key a = key b → urgent a = urgent b)
    (run : Run key urgent log l) (hurry : urgent a = true) (split : log = later ++ .came a :: earlier)
    (enough : arrivals earlier < services later) : Served key later a := by
  rcases run.place respects hurry split with done | ⟨ahead, b, behind, _, _, bound⟩
  · exact done
  · omega

end Run

end WaitingList

end LPRng
