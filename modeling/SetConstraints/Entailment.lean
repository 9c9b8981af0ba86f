/-!
# Entailment

Whether a constraint holds for every completion of the domains, for none, or neither is known.
-/

namespace SetConstraints

inductive Entailment
  | satisfied
  | violated
  | undetermined
  deriving DecidableEq, Repr

namespace Entailment

def text : Entailment → String
  | .satisfied => "satisfied"
  | .violated => "violated"
  | .undetermined => "undetermined"

/-- The entailment of a conjunction. -/
def and : Entailment → Entailment → Entailment
  | .violated, _ => .violated
  | _, .violated => .violated
  | .satisfied, .satisfied => .satisfied
  | _, _ => .undetermined

theorem and_eq_satisfied_iff (a b : Entailment) : a.and b = .satisfied ↔ a = .satisfied ∧ b = .satisfied := by
  cases a <;> cases b <;> decide

theorem and_eq_violated_iff (a b : Entailment) : a.and b = .violated ↔ a = .violated ∨ b = .violated := by
  cases a <;> cases b <;> decide

/-- An answer that is given by looking for a violation first, and for certainty next. -/
theorem ite_iff {p q broken secure : Prop} [Decidable p] [Decidable q] (hp : p ↔ broken) (hq : q ↔ secure) :
    ((if p then violated else if q then satisfied else undetermined) = violated ↔ broken) ∧
      ((if p then violated else if q then satisfied else undetermined) = satisfied ↔ ¬ broken ∧ secure) := by
  simp only [← hp, ← hq]
  by_cases h : p
  · simp [h]
  · by_cases k : q <;> simp [h, k]

end Entailment

end SetConstraints
