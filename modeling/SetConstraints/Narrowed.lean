/-!
# Outcomes of narrowing one domain
-/

namespace SetConstraints

/-- A narrowing of a domain has no effect, leaves a smaller domain, or leaves nothing. -/
inductive Narrowed (α : Type)
  | unchanged
  | changed (smaller : α)
  | emptied
  deriving DecidableEq, Repr

end SetConstraints
