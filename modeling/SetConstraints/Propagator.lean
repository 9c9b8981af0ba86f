import SetConstraints.Action
import SetConstraints.Entailment

/-!
# Propagators

A propagator enforces a constraint by narrowing domains.  It is called from scratch, or with the delta of what
happened under one of its slots since it was last told.  A posting is a constraint ready to be added to a solver:
its propagator and what this wants to hear about.
-/

namespace SetConstraints

/-- How urgently a propagator is run, the most urgent first. -/
inductive Priority
  | high
  | medium
  | low
  | veryLow
  deriving DecidableEq, Repr

namespace Priority

/-- The level of the queue that serves a priority. -/
def level : Priority → Nat
  | .high => 0
  | .medium => 1
  | .low => 2
  | .veryLow => 3

/-- The number of different priorities. -/
def count : Nat := 4

theorem level_lt_count (p : Priority) : p.level < count := by cases p <;> decide

def text : Priority → String
  | .high => "High"
  | .medium => "Medium"
  | .low => "Low"
  | .veryLow => "VeryLow"

end Priority

/-- What a propagator does in a call depends on the domains and on the delta it is called with: it keeps nothing of
its own from one call to the next. -/
structure Propagator where
  name : String
  /-- The constraint as it is displayed. -/
  text : String
  priority : Priority := .veryLow
  fromScratch : Action Unit
  /-- Without a reaction of its own to a delta, a propagator starts from scratch. -/
  incremental : Slot → Delta → Action Unit := fun _ _ => fromScratch
  entailment : Domains → Except Fault Entailment

/-- A wish to hear, under a slot, about some events at a variable. -/
structure Registration where
  var : Var
  events : EventSet
  slot : Slot
  deriving DecidableEq, Repr

structure Posting where
  propagator : Propagator
  registrations : List Registration
  /-- What is wrong with the constraint itself, given the variables there are. -/
  defect? : Domains → Option Fault := fun _ => none

end SetConstraints
