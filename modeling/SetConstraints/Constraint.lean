import SetConstraints.Constraint.AtMostClosure
import SetConstraints.Constraint.Difference
import SetConstraints.Constraint.StrictBound

/-!
# Constraints
-/

namespace SetConstraints

/-- The constraints that come with the solver. -/
inductive Constraint
  | difference (c : Difference)
  | strictBound (c : StrictBound)
  | atMostClosure (c : AtMostClosure)
  deriving DecidableEq, Repr

/-- Whether a constraint holds of an assignment. -/
def Constraint.Holds : Constraint → Assignment → Prop
  | .difference c => c.Holds
  | .strictBound c => c.Holds
  | .atMostClosure c => c.Holds

/-- What is added to a solver for a constraint. -/
def Constraint.posting : Constraint → Posting
  | .difference c => c.posting
  | .strictBound c => c.posting
  | .atMostClosure c => c.posting

end SetConstraints
