import Mathlib.Algebra.Order.BigOperators.Group.List
import Mathlib.Algebra.Order.Ring.Nat
import Mathlib.Algebra.Module.NatInt
import Mathlib.Data.List.Flatten

/-!
# Lists joined by a separator

Items are put down one after the other, and a separator stands before every item but the
first. `continued` counts what was put down before, as a program does that keeps a counter
between its loops. Leaving items out only ever shortens the result, so that two such lists are
compared by their lengths.
-/

namespace LPRng

namespace Separated

variable {α β : Type*} (sep : List α)

/-- What is put down before the next item when `printed` items stand already. -/
def joint (printed : Nat) : List α := if printed = 0 then [] else sep

/-- The text of `items` behind `printed` others. -/
def continued : Nat → List (List α) → List α
  | _, [] => []
  | printed, item :: rest => joint sep printed ++ item ++ continued (printed + 1) rest

variable {sep}

@[simp] theorem joint_succ (printed : Nat) : joint sep (printed + 1) = sep := if_neg (Nat.succ_ne_zero _)

theorem continued_append (printed : Nat) (first second : List (List α)) :
    continued sep printed (first ++ second) =
      continued sep printed first ++ continued sep (printed + first.length) second := by
  induction first generalizing printed with
  | nil => rfl
  | cons item rest ih =>
      rw [List.cons_append, continued, continued, ih, List.length_cons, Nat.add_right_comm,
        Nat.add_assoc printed, List.append_assoc, List.append_assoc, List.append_assoc]

theorem continued_succ_cons (printed : Nat) (item : List α) (rest : List (List α)) :
    continued sep (printed + 1) (item :: rest) = sep ++ sep.intercalate (item :: rest) := by
  induction rest generalizing printed item with
  | nil => rw [continued, continued, joint_succ, List.append_nil, List.intercalate_singleton]
  | cons next rest ih =>
      rw [continued, joint_succ, ih, List.intercalate_cons_cons, List.append_assoc, List.append_assoc]

/-- From the start, the separator stands between the items. -/
theorem continued_zero (items : List (List α)) : continued sep 0 items = sep.intercalate items := by
  cases items with
  | nil => rfl
  | cons item rest =>
      cases rest with
      | nil => rw [continued, continued, List.append_nil, List.intercalate_singleton]; rfl
      | cons next rest =>
          rw [continued, continued_succ_cons, List.intercalate_cons_cons, List.append_assoc, List.append_assoc]
          rfl

/-! ## Lengths -/

theorem length_continued_succ (printed : Nat) (items : List (List α)) :
    (continued sep (printed + 1) items).length =
      (items.map List.length).sum + sep.length * items.length := by
  induction items generalizing printed with
  | nil => rfl
  | cons item rest ih =>
      rw [continued, joint_succ, List.length_append, List.length_append, ih, List.map_cons,
        List.sum_cons, List.length_cons, Nat.mul_succ]
      omega

theorem length_continued_zero (items : List (List α)) :
    (continued sep 0 items).length =
      (items.map List.length).sum + sep.length * (items.length - 1) := by
  cases items with
  | nil => rfl
  | cons item rest =>
      rw [continued, List.length_append, List.length_append, length_continued_succ, List.map_cons,
        List.sum_cons, List.length_cons, Nat.add_sub_cancel, joint, if_pos rfl, List.length_nil]
      omega

/-- Leaving items out leaves out their text and no more than their separators. -/
theorem continued_sublist {fewer more : List (List α)} {less printed : Nat}
    (sub : fewer.Sublist more) (le : less ≤ printed) :
    (continued sep less fewer).Sublist (continued sep printed more) := by
  induction sub generalizing less printed with
  | slnil => exact List.Sublist.refl _
  | cons item _ ih =>
      exact (ih (Nat.le_succ_of_le le)).trans (List.sublist_append_right ..)
  | cons_cons item _ ih =>
      have before : (joint sep less).Sublist (joint sep printed) := by
        cases less with
        | zero => exact List.nil_sublist _
        | succ less =>
            rw [joint_succ, joint, if_neg (by omega)]
      exact (before.append (List.Sublist.refl item)).append (ih (Nat.succ_le_succ le))

/-- Two sublists in a row give all of a list if each of them is all of its part. -/
theorem append_eq_append_iff_of_sublist {a b c d : List α} (front : a.Sublist b) (back : c.Sublist d) :
    a ++ c = b ++ d ↔ a = b ∧ c = d := by
  constructor
  · intro same
    have lengths := congrArg List.length same
    rw [List.length_append, List.length_append] at lengths
    have first := front.length_le
    have second := back.length_le
    exact ⟨front.eq_of_length (by omega), back.eq_of_length (by omega)⟩
  · intro same
    rw [same.1, same.2]

theorem continued_eq_iff {fewer more : List (List α)} (sub : fewer.Sublist more) :
    continued sep 0 fewer = continued sep 0 more ↔
      (fewer.map List.length).sum = (more.map List.length).sum ∧
        (sep = [] ∨ fewer.length - 1 = more.length - 1) := by
  have items : (fewer.map List.length).sum ≤ (more.map List.length).sum :=
    (sub.map List.length).sum_le_sum fun _ _ => Nat.zero_le _
  have joints : sep.length * (fewer.length - 1) ≤ sep.length * (more.length - 1) :=
    Nat.mul_le_mul_left _ (Nat.sub_le_sub_right sub.length_le 1)
  have apart : sep.length * (fewer.length - 1) = sep.length * (more.length - 1) ↔
      sep = [] ∨ fewer.length - 1 = more.length - 1 := by
    rw [mul_eq_mul_left_iff, List.length_eq_zero_iff, or_comm]
  rw [← apart]
  constructor
  · intro same
    have lengths := congrArg List.length same
    rw [length_continued_zero, length_continued_zero] at lengths
    omega
  · rintro ⟨texts, separators⟩
    refine (continued_sublist sub (Nat.le_refl 0)).eq_of_length ?_
    rw [length_continued_zero, length_continued_zero, texts, separators]

/-! ## Items that are repeated -/

/-- Each element stands for its text, as often as `count` has it. -/
def repeated (count : β → Nat) (text : β → List α) (l : List β) : List (List α) :=
  l.flatMap fun b => List.replicate (count b) (text b)

variable {count due : β → Nat} {text : β → List α} {l : List β}

theorem repeated_sublist (le : ∀ b ∈ l, count b ≤ due b) :
    (repeated count text l).Sublist (repeated due text l) := by
  induction l with
  | nil => exact List.Sublist.refl _
  | cons b rest ih =>
      have here := (List.replicate_sublist_replicate (text b)).mpr (le b List.mem_cons_self)
      exact here.append (ih fun b member => le b (List.mem_cons_of_mem _ member))

theorem length_repeated : (repeated count text l).length = (l.map count).sum := by
  rw [repeated, List.length_flatMap]
  simp only [List.length_replicate]

theorem sum_lengths_repeated :
    ((repeated count text l).map List.length).sum = (l.map fun b => count b * (text b).length).sum := by
  induction l with
  | nil => rfl
  | cons b rest ih =>
      have step : repeated count text (b :: rest) = List.replicate (count b) (text b) ++ repeated count text rest := rfl
      rw [step, List.map_append, List.sum_append, ih, List.map_replicate, List.sum_replicate, List.map_cons,
        List.sum_cons, nsmul_eq_mul, Nat.cast_id]

/-- Sums of terms that are at most as large each are equal only term by term. -/
theorem sum_eq_sum_iff {f g : β → Nat} (le : ∀ b ∈ l, f b ≤ g b) :
    (l.map f).sum = (l.map g).sum ↔ ∀ b ∈ l, f b = g b := by
  induction l with
  | nil => exact ⟨fun _ _ member => absurd member List.not_mem_nil, fun _ => rfl⟩
  | cons b rest ih =>
      have within : ∀ b ∈ rest, f b ≤ g b := fun b member => le b (List.mem_cons_of_mem _ member)
      have here := le b List.mem_cons_self
      have others : (rest.map f).sum ≤ (rest.map g).sum := List.sum_le_sum within
      rw [List.map_cons, List.map_cons, List.sum_cons, List.sum_cons, List.forall_mem_cons, ← ih within]
      omega

/-- The text is complete exactly if whatever is printed too rarely is empty and its repetitions
are missed by no separator. -/
theorem continued_repeated_eq_iff (le : ∀ b ∈ l, count b ≤ due b) :
    continued sep 0 (repeated count text l) = continued sep 0 (repeated due text l) ↔
      (∀ b ∈ l, count b = due b ∨ text b = []) ∧
        (sep = [] ∨ (∀ b ∈ l, count b = due b) ∨ (l.map due).sum ≤ 1) := by
  rw [continued_eq_iff (repeated_sublist le), sum_lengths_repeated, sum_lengths_repeated,
    length_repeated, length_repeated, sum_eq_sum_iff fun b member => Nat.mul_le_mul_right _ (le b member),
    ← sum_eq_sum_iff le]
  have fewer : (l.map count).sum ≤ (l.map due).sum := List.sum_le_sum le
  have texts : (∀ b ∈ l, count b * (text b).length = due b * (text b).length) ↔
      ∀ b ∈ l, count b = due b ∨ text b = [] := by
    refine forall₂_congr fun b _ => ?_
    rw [mul_eq_mul_right_iff, List.length_eq_zero_iff]
  have joints : (l.map count).sum - 1 = (l.map due).sum - 1 ↔
      (l.map count).sum = (l.map due).sum ∨ (l.map due).sum ≤ 1 := by omega
  rw [texts, joints]

end Separated

end LPRng
