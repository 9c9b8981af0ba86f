import SetConstraints.Variable

/-!
# What can go wrong

A contradiction says that the current domains have no solution; it is an answer, and the session goes on.  A fault
is a use that the solver does not allow, or a check that failed; it ends the session.  A refusal is why a
constraint was not added.
-/

namespace SetConstraints

/-- Why a narrowing or a propagator found that no solution is left. -/
inductive Contradiction
  | emptyDomain
  | inconsistent (propagator : String)
  deriving DecidableEq, Repr

def Contradiction.message : Contradiction → String
  | .emptyDomain => "the domain of a variable became empty"
  | .inconsistent propagator => s!"propagator `{propagator}` detected an inconsistency"

/-- Why a constraint was not added. -/
inductive Refusal
  | infeasiblePropagator
  | infeasibleState
  deriving DecidableEq, Repr

def Refusal.message : Refusal → String
  | .infeasiblePropagator => "Adding the propagator failed because it is infeasible at the root"
  | .infeasibleState => "Adding constraint failed because the solver is in an infeasible state"

/-- Why a session cannot go on. -/
inductive Fault
  /-- A number that no variable, propagator or entry has. -/
  | unknownIndex
  | tooFewLevels
  | kernelOutsideEnvelope (value : Int32)
  | reversedBounds
  | levelNotOpen
  | unequalLengths (relation closure : Nat)
  | contradictionAtFixpoint (propagator : String)
  | changeAtFixpoint (propagator : String) (changes : Nat)
  | leafNotSatisfied
  | leafNotInstantiated
  | noLargerValue
  | unregisteredSlot
  | searchTooDeep
  deriving DecidableEq, Repr

/-- The text of a fault; a wrong number has none. -/
def Fault.message? : Fault → Option String
  | .unknownIndex => none
  | .tooFewLevels => some "every priority needs its own level in the propagator queue"
  | .kernelOutsideEnvelope value => some s!"The kernel value {value} is not part of the envelope"
  | .reversedBounds => some "assertion failed: lower_bound <= upper_bound"
  | .levelNotOpen => some "assertion failed: checkpoint <= self.get_checkpoint()"
  | .unequalLengths relation closure => some <|
      "assertion `left == right` failed: every node needs both a relation and a closure variable\n" ++
      s!"  left: {relation}\n right: {closure}"
  | .contradictionAtFixpoint propagator => some s!"{propagator} raised a contradiction at a fixpoint"
  | .changeAtFixpoint propagator changes => some <|
      s!"assertion `left == right` failed: {propagator} is not idempotent\n  left: 0\n right: {changes}"
  | .leafNotSatisfied => some "assertion failed: self.entailment_of_all() == Entailment::Satisfied"
  | .leafNotInstantiated => some "assertion failed: domain.is_instantiated()"
  | .noLargerValue => some "attempt to add with overflow"
  | .unregisteredSlot => some "internal error: entered unreachable code: only the set and the bound are registered"
  | .searchTooDeep => some "the search went deeper than the domains allow"

/-- Why a call ended early: with an error of its own kind, or with a fault. -/
inductive Stop (ε : Type)
  | error (e : ε)
  | fault (f : Fault)
  deriving DecidableEq, Repr

end SetConstraints
