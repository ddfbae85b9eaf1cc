import Mathlib.Logic.Basic

/-!
# Promised values

A store that several processes write as a whole keeps a value at a place as long as every
write agrees with the store outside the places that are its own. What has been set and is
not to be lost is recorded as promises; a write replaces the promises at the places it
sets and withdraws those at the other places it owns.
-/

namespace LPRng

/-- Values promised at places. -/
abbrev Promises (Place Value : Type*) := Place → Value → Prop

namespace Promises

variable {Place Value : Type*} {promises : Promises Place Value} {sets owns : Place → Prop}
  {store store' : Place → Value}

/-- The store keeps what is promised. -/
def Kept (promises : Promises Place Value) (store : Place → Value) : Prop :=
  ∀ place value, promises place value → store place = value

/-- What is promised after a write that leaves the given store. -/
def afterWrite (promises : Promises Place Value) (sets owns : Place → Prop)
    (store : Place → Value) : Promises Place Value := fun place value =>
  (sets place ∧ value = store place) ∨ (¬ sets place ∧ ¬ owns place ∧ promises place value)

/-- A write that keeps the promises at the places it does not own keeps all there are
after it. -/
theorem kept_afterWrite (keeps : ∀ place value, ¬ sets place → ¬ owns place →
      promises place value → store' place = value) :
    (promises.afterWrite sets owns store').Kept store' := by
  rintro place value (⟨_, rfl⟩ | ⟨unset, foreign, promised⟩)
  · rfl
  · exact keeps place value unset foreign promised

/-- In particular a write that agrees with the store outside its own places. -/
theorem Kept.afterWrite (kept : promises.Kept store)
    (agrees : ∀ place, ¬ sets place → ¬ owns place → store' place = store place) :
    (promises.afterWrite sets owns store').Kept store' :=
  kept_afterWrite fun place value unset foreign promised =>
    (agrees place unset foreign).trans (kept place value promised)

end Promises

end LPRng
