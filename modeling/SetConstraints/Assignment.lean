import SetConstraints.Domains

/-!
# Assignments

An assignment gives every variable a value.  Constraints are statements about assignments, and domains say which
assignments are still considered.
-/

namespace SetConstraints

/-- A value for every variable, sets as lists of their elements in increasing order. -/
structure Assignment where
  sets : List (List Int32)
  ints : List Int32
  deriving DecidableEq, Repr

namespace Assignment

/-- The elements of a set variable; none if there is no such variable. -/
def set (a : Assignment) (s : SetVar) : List Int32 := (a.sets[s.number]?).getD []

/-- The value of an integer variable; zero if there is no such variable. -/
def int (a : Assignment) (x : IntVar) : Int32 := (a.ints[x.number]?).getD 0

end Assignment

/-- A set between kernel and envelope, as the list of its elements in increasing order. -/
def SetDomain.Admits (d : SetDomain) (elements : List Int32) : Prop :=
  elements.Pairwise (· < ·) ∧ (∀ v ∈ d.kernel, v ∈ elements) ∧ ∀ v ∈ elements, v ∈ d.envelope

/-- A value between the bounds. -/
def IntDomain.Admits (d : IntDomain) (v : Int32) : Prop := d.low ≤ v ∧ v ≤ d.high

/-- An assignment of exactly the variables there are, to each a value of its domain. -/
structure Domains.Admits (d : Domains) (a : Assignment) : Prop where
  length_sets : a.sets.length = d.sets.size
  length_ints : a.ints.length = d.ints.size
  admits_set : ∀ s e, d.sets.get? s = some e → e.Admits (a.set s)
  admits_int : ∀ x e, d.ints.get? x = some e → e.Admits (a.int x)

instance (d : SetDomain) (elements : List Int32) : Decidable (d.Admits elements) :=
  @instDecidableAnd _ _ inferInstance (@instDecidableAnd _ _ (List.decidableBAll _ _) (List.decidableBAll _ _))

instance (d : IntDomain) (v : Int32) : Decidable (d.Admits v) := inferInstanceAs (Decidable (d.low ≤ v ∧ v ≤ d.high))

end SetConstraints
