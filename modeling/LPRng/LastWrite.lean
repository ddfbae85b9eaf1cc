import Mathlib.Logic.Function.Basic

/-!
# The last value set

Operations on a store that each set values at some places. A store that is written whole
from a copy holds the last value set at every place exactly if each copy agrees with
the store at the places its writer does not set.
-/

namespace LPRng

/-- What an operation sets: a value at some of the places. -/
abbrev Assignment (Place Value : Type*) := Place → Option Value

namespace Assignment

variable {Place Value : Type*} {set : Assignment Place Value} {copy store start : Place → Value}
  {log : List (Assignment Place Value)}

/-- The store with the assignment carried out in it. -/
def apply (set : Assignment Place Value) (store : Place → Value) : Place → Value :=
  fun place => (set place).getD (store place)

/-- An assignment leaves the same in a copy as in the store if they agree elsewhere. -/
theorem apply_eq_apply_iff :
    set.apply copy = set.apply store ↔ ∀ place, set place = none → copy place = store place := by
  constructor
  · intro same place unset
    have here := congrFun same place
    simp only [apply, unset, Option.getD_none] at here
    exact here
  · intro agrees
    funext place
    cases value : set place with
    | none => simp only [apply, value, Option.getD_none, agrees place value]
    | some v => simp only [apply, value, Option.getD_some]

/-- The value set last at each place, or the value at the start. The log has the last
assignment first. -/
def lastValue (log : List (Assignment Place Value)) (start : Place → Value) : Place → Value :=
  fun place => (log.findSome? (· place)).getD (start place)

@[simp] theorem lastValue_nil : lastValue [] start = start := rfl

@[simp] theorem lastValue_cons : lastValue (set :: log) start = set.apply (lastValue log start) := by
  funext place
  cases value : set place with
  | none => simp only [lastValue, apply, List.findSome?_cons, value, Option.getD_none]
  | some v => simp only [lastValue, apply, List.findSome?_cons, value, Option.getD_some]

/-- A store that holds the last values is replaced by a copy with an assignment carried
out in it: it goes on to hold them exactly if the copy is up to date elsewhere. -/
theorem write_keeps_iff (kept : store = lastValue log start) :
    set.apply copy = lastValue (set :: log) start ↔
      ∀ place, set place = none → copy place = store place := by
  rw [lastValue_cons, ← kept]
  exact apply_eq_apply_iff

section Tables

variable [DecidableEq Place] {table : List (Place × Value)}

/-- The assignment of a table; the first line for a place counts. -/
def ofTable (table : List (Place × Value)) : Assignment Place Value :=
  fun place => table.lookup place

@[simp] theorem ofTable_nil_apply : (ofTable ([] : List (Place × Value))).apply store = store := rfl

@[simp] theorem ofTable_cons_apply (place : Place) (value : Value) :
    (ofTable ((place, value) :: table)).apply store =
      Function.update ((ofTable table).apply store) place value := by
  funext other
  rcases eq_or_ne other place with rfl | differs
  · simp only [apply, ofTable, List.lookup_cons_self, Option.getD_some, Function.update_self]
  · have missed : (other == place) = false := beq_eq_false_iff_ne.mpr differs
    simp only [apply, ofTable, List.lookup_cons, missed, Function.update_of_ne differs]

end Tables

end Assignment

end LPRng
