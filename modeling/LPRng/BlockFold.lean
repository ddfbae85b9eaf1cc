import Mathlib.Data.List.Basic

/-!
# Texts that are taken block by block

A state takes a text in blocks of one size and leaves what does not fill a block. Where the text comes in pieces, what is
left of one piece goes in front of the next, and the state ends up the same.
-/

namespace LPRng

namespace BlockFold

variable {σ α : Type*} (step : σ → List α → σ)

/-- The state after the whole blocks of a text, and what is left of the text. -/
def blocks {n : Nat} (size : 0 < n) (s : σ) (text : List α) : σ × List α :=
  if text.length < n then (s, text) else blocks size (step s (text.take n)) (text.drop n)
termination_by text.length
decreasing_by
  rw [List.length_drop]
  omega

variable {n : Nat} (size : 0 < n)

theorem blocks_short (s : σ) {text : List α} (short : text.length < n) : blocks step size s text = (s, text) := by
  unfold blocks
  exact if_pos short

theorem blocks_block (s : σ) {block : List α} (whole : block.length = n) (text : List α) :
    blocks step size s (block ++ text) = blocks step size (step s block) text := by
  conv_lhs => unfold blocks
  rw [if_neg (by rw [List.length_append]; omega), List.take_left' whole, List.drop_left' whole]

theorem length_rest (s : σ) (text : List α) : (blocks step size s text).2.length = text.length % n := by
  fun_induction blocks step size s text with
  | case1 s text short => exact (Nat.mod_eq_of_lt short).symm
  | case2 s text long ih =>
      rw [ih, List.length_drop]
      exact (Nat.mod_eq_sub_mod (Nat.not_lt.mp long)).symm

/-- What is left of one piece goes in front of the next. -/
theorem blocks_append (s : σ) (text more : List α) :
    blocks step size s (text ++ more) =
      blocks step size (blocks step size s text).1 ((blocks step size s text).2 ++ more) := by
  fun_induction blocks step size s text with
  | case1 s text short => rfl
  | case2 s text long ih =>
      have whole : (text.take n).length = n := by
        rw [List.length_take]
        omega
      rw [← ih, ← blocks_block step size s whole, ← List.append_assoc, List.take_append_drop]

/-- Pieces that fill blocks leave nothing. -/
theorem blocks_whole (s : σ) {block : List α} (whole : block.length = n) :
    blocks step size s block = (step s block, []) := by
  have one := blocks_block step size s whole []
  rwa [List.append_nil, blocks_short step size _ (show ([] : List α).length < n from size)] at one

end BlockFold

end LPRng
