import SetConstraints.Assignment
import SetConstraints.Propagator

/-!
# The difference of two sets

The constraint `A \ B = C` holds element by element: of the eight ways for an element to be in or out of the three
sets, those are allowed where it is in `C` exactly if it is in `A` and not in `B`.  Five rules remove what has no
support; applied in order, one pass brings an element to its fixpoint.
-/

namespace SetConstraints

structure Difference where
  minuend : SetVar
  subtrahend : SetVar
  difference : SetVar
  deriving DecidableEq, Repr

namespace Difference

/-- The elements of the difference are those of the minuend that are not in the subtrahend. -/
def Holds (c : Difference) (a : Assignment) : Prop :=
  ∀ v, v ∈ a.set c.difference ↔ v ∈ a.set c.minuend ∧ v ∉ a.set c.subtrahend

/-- Applies the rules to one element.
1. An element certain in the difference is in the minuend and not in the subtrahend.
2. One certain in the subtrahend, or impossible in the minuend, is not in the difference.
3. One certain in the minuend and impossible in the subtrahend is in the difference.
4. One impossible in difference and subtrahend is not in the minuend.
5. One impossible in the difference and certain in the minuend is in the subtrahend. -/
def filter (c : Difference) (v : Int32) : Action Unit := do
  if (← Action.set c.difference).requires v then
    Action.require c.minuend v
    Action.exclude c.subtrahend v
  else
    if (← Action.set c.subtrahend).requires v || !(← Action.set c.minuend).allows v then
      Action.exclude c.difference v
    if (← Action.set c.minuend).requires v && !(← Action.set c.subtrahend).allows v then
      Action.require c.difference v
    if !(← Action.set c.difference).allows v then
      if !(← Action.set c.subtrahend).allows v then
        Action.exclude c.minuend v
      if (← Action.set c.minuend).requires v then
        Action.require c.subtrahend v

/-- The elements that can break the constraint; any other leaves the subtrahend free. -/
def candidates (minuend difference : SetDomain) : List Int32 :=
  sortValues (minuend.envelope ++ difference.envelope)

def fromScratch (c : Difference) : Action Unit := do
  (candidates (← Action.set c.minuend) (← Action.set c.difference)).forM c.filter

/-- A change concerns no element but its own. -/
def incremental (c : Difference) (_ : Slot) (delta : Delta) : Action Unit :=
  delta.entries.forM fun e => c.filter e.2

def entailment (c : Difference) (d : Domains) : Except Fault Entailment := do
  let a ← d.set? c.minuend
  let b ← d.set? c.subtrahend
  let e ← d.set? c.difference
  let missing := a.kernel.any fun v => !b.allows v && !e.allows v
  let excess := e.kernel.any fun v => !a.allows v || b.requires v
  return (
    if missing || excess then .violated
    else if a.isInstantiated && b.isInstantiated && e.isInstantiated then .satisfied
    else .undetermined)

def text (c : Difference) : String := s!"{c.minuend.text} \\ {c.subtrahend.text} = {c.difference.text}"

def posting (c : Difference) : Posting where
  propagator :=
    { name := "SetDifference"
      text := c.text
      priority := .medium
      fromScratch := c.fromScratch
      incremental := c.incremental
      entailment := c.entailment }
  registrations :=
    [⟨.set c.minuend, .anySet, ⟨0⟩⟩, ⟨.set c.subtrahend, .anySet, ⟨1⟩⟩, ⟨.set c.difference, .anySet, ⟨2⟩⟩]

end Difference

end SetConstraints
