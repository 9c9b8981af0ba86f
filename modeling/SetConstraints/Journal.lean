import SetConstraints.Propagator

/-!
# Journals

A journal records, in order, the calls that a solver makes to its propagators, each with the domains at the
beginning of the call, and the lines that the solver writes about its work.
-/

namespace SetConstraints

/-- A call of a propagator: its set-up when it is added, or one of the two ways to propagate. -/
inductive Call
  | create (p : PropagatorId)
  | scratch (p : PropagatorId)
  | incremental (p : PropagatorId) (slot : Slot) (delta : Delta)
  deriving DecidableEq, Repr

/-- The propagator that a call is made to. -/
def Call.propagator : Call → PropagatorId
  | .create p => p
  | .scratch p => p
  | .incremental p _ _ => p

/-- What a solver writes about its work; propagators appear with their displayed text. -/
inductive LogLine
  | adding (text : String) (p : PropagatorId) (priority : Priority)
  | contradiction (text : String) (p : PropagatorId) (c : Contradiction)
  | atRest (p : PropagatorId)
  | goingBack (current level : Nat)
  | enumerated (solutions : Nat)
  deriving DecidableEq, Repr

def LogLine.text : LogLine → String
  | .adding text p priority => s!"DEBUG Adding propagator {text} as {p.text} with priority {priority.text}"
  | .contradiction text p c => s!"DEBUG {text} ({p.text}) raised a contradiction: {c.message}"
  | .atRest p => s!"TRACE {p.text} became passive"
  | .goingBack current level => s!"TRACE Backtracking from checkpoint {current} to {level}"
  | .enumerated solutions => s!"INFO Enumeration finished with {solutions} solutions"

inductive JournalEntry
  | call (c : Call) (domains : Domains)
  | log (l : LogLine)
  deriving DecidableEq, Repr

end SetConstraints
