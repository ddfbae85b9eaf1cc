import Mathlib.Logic.Relation

/-!
# Runs of a transition system

States, labelled steps, and the states reached by runs all of whose steps are of a
given kind. What one step preserves, a run preserves.
-/

namespace LPRng

/-- A transition system: where a run may start, and its labelled steps. -/
structure System (State Event : Type*) where
  init : State → Prop
  step : State → Event → State → Prop

namespace System

variable {State Event : Type*} {sys : System State Event}
  {allowed stronger : State → Event → Prop} {Inv : State → Prop}

/-- The states reached by runs that take only allowed steps. -/
inductive Reachable (sys : System State Event) (allowed : State → Event → Prop) : State → Prop
  | init {s : State} : sys.init s → Reachable sys allowed s
  | step {s s' : State} {e : Event} :
      Reachable sys allowed s → allowed s e → sys.step s e s' → Reachable sys allowed s'

/-- A property of the start that every allowed step preserves holds in every state of
every such run. -/
theorem Reachable.invariant (starts : ∀ s, sys.init s → Inv s)
    (preserves : ∀ s e s', Inv s → allowed s e → sys.step s e s' → Inv s')
    {s : State} (reached : sys.Reachable allowed s) : Inv s := by
  induction reached with
  | init start => exact starts _ start
  | step _ permitted step ih => exact preserves _ _ _ ih permitted step

/-- The transition system of a function that takes the events it can take. -/
def ofNext (init : State → Prop) (next : State → Event → Option State) : System State Event where
  init := init
  step := fun s e s' => next s e = some s'

/-- A list of events that the function takes one after another leads to a reachable state. -/
theorem reachable_foldlM {init : State → Prop} {next : State → Event → Option State}
    {events : List Event} {s s' : State} (start : (ofNext init next).Reachable allowed s)
    (always : ∀ e ∈ events, ∀ s, allowed s e) (ran : events.foldlM next s = some s') :
    (ofNext init next).Reachable allowed s' := by
  induction events generalizing s with
  | nil => exact Option.some.inj ran ▸ start
  | cons e events ih =>
      rw [List.foldlM_cons] at ran
      obtain ⟨s₁, first, rest⟩ := Option.bind_eq_some_iff.mp ran
      exact ih (.step start (always e List.mem_cons_self s) first)
        (fun e' member => always e' (List.mem_cons_of_mem e member)) rest

/-- A run under a stronger condition is a run under a weaker one. -/
theorem Reachable.mono (weaker : ∀ s e, stronger s e → allowed s e) {s : State}
    (reached : sys.Reachable stronger s) : sys.Reachable allowed s := by
  induction reached with
  | init start => exact .init start
  | step _ permitted step ih => exact .step ih (weaker _ _ permitted) step

end System

end LPRng
