import SetConstraints.Assignment
import SetConstraints.Propagator

/-!
# A strict bound above a set

Every element of the set is smaller than the bound; the empty set is below any bound.  The kernel pushes the bound
up, and the largest possible bound cuts the envelope.  Once the whole envelope lies below the smallest possible
bound nothing can go wrong any more, and the propagator comes to rest.
-/

namespace SetConstraints

structure StrictBound where
  set : SetVar
  bound : IntVar
  deriving DecidableEq, Repr

namespace StrictBound

/-- Every element is smaller than the bound. -/
def Holds (c : StrictBound) (a : Assignment) : Prop := ∀ v ∈ a.set c.set, v < a.int c.bound

/-- The slots of the set and of the bound. -/
def setSlot : Slot := ⟨0⟩

def boundSlot : Slot := ⟨1⟩

/-- Makes the bound larger than `v`, which nothing is if `v` is the largest value. -/
def raiseAbove (c : StrictBound) (v : Int32) : Action Unit :=
  match next? v with
  | none => Action.stop (.error .emptyDomain)
  | some w => Action.atLeast c.bound w

/-- Removes the values that no bound is larger than. -/
def prune (c : StrictBound) : Action Unit := do
  let high := (← Action.int c.bound).high
  let tooLarge := (← Action.set c.set).envelope.dropWhile (· < high)
  tooLarge.forM (Action.exclude c.set)

def entailment (c : StrictBound) (d : Domains) : Except Fault Entailment := do
  let bound ← d.int? c.bound
  let set ← d.set? c.set
  return (
    if set.maxKernel?.any (bound.high ≤ ·) then .violated
    else if set.envelope.all (· < bound.low) then .satisfied
    else .undetermined)

def restIfEntailed (c : StrictBound) : Action Unit := do
  if (← Action.lift (c.entailment (← Action.domains))) = .satisfied then Action.askRest

def fromScratch (c : StrictBound) : Action Unit := do
  match (← Action.set c.set).maxKernel? with
  | none => pure ()
  | some v => c.raiseAbove v
  c.prune
  c.restIfEntailed

/-- New elements of the kernel concern the bound only, and a new bound the envelope only. -/
def incremental (c : StrictBound) (slot : Slot) (delta : Delta) : Action Unit := do
  if slot = setSlot then
    match (delta.values .kernelGrew).max? with
    | none => pure ()
    | some v => c.raiseAbove v
  else if slot = boundSlot then c.prune
  else Action.stop (.fault .unregisteredSlot)
  c.restIfEntailed

def text (c : StrictBound) : String := s!"{c.set.text} <<< {c.bound.text}"

def posting (c : StrictBound) : Posting where
  propagator :=
    { name := "SetStrictHighBound"
      text := c.text
      priority := .high
      fromScratch := c.fromScratch
      incremental := c.incremental
      entailment := c.entailment }
  registrations :=
    [⟨.set c.set, .kernel, setSlot⟩, ⟨.int c.bound, .upperBoundAndAssign, boundSlot⟩]

end StrictBound

end SetConstraints
