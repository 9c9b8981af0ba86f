import SetConstraints.Graph.Components

/-!
# Reachability through at least one edge

All nodes of a strongly connected component reach the same nodes, so these are kept once per component.  In the
order of completion, the components that a component reaches have been dealt with before it.
-/

namespace SetConstraints

structure Reachability (n : Nat) where
  components : Components n
  /-- For each component, which nodes it reaches. -/
  rows : Array (Vector Bool n)
  deriving DecidableEq, Repr

namespace Reachability

variable {n : Nat}

/-- Adds to the nodes reached from component `k` a successor of one of its members, and what that reaches as far
as it is not in the same component; nothing if this is not known yet. -/
def addSuccessor? (c : Components n) (rows : Array (Vector Bool n)) (k : Nat) (row : Vector Bool n) (v : Fin n) :
    Option (Vector Bool n) := do
  let row := row.set v true v.isLt
  let j ← c.componentOf.get v
  if j = k then return row
  else return Vector.zipWith (· || ·) row (← rows[j]?)

/-- The nodes reached from component `k`. -/
def row? (g : Graph n) (c : Components n) (rows : Array (Vector Bool n)) (k : Nat) (members : List (Fin n)) :
    Option (Vector Bool n) :=
  (members.flatMap g.next).foldlM (addSuccessor? c rows k) (Vector.replicate n false)

/-- Appends the row of the next component. -/
def addRow? (g : Graph n) (c : Components n) (rows : Array (Vector Bool n)) (members : List (Fin n)) :
    Option (Array (Vector Bool n)) :=
  (row? g c rows rows.size members).map rows.push

/-- The reachability of a graph. -/
def ofGraph? (g : Graph n) : Option (Reachability n) := do
  let c := g.components
  let rows ← c.members.toList.foldlM (addRow? g c) #[]
  return ⟨c, rows⟩

/-- Whether `v` is reached from `u` through at least one edge. -/
def reaches (r : Reachability n) (u v : Nat) : Bool :=
  (do
    let j ← (← r.components.componentOf[u]?)
    let row ← r.rows[j]?
    row[v]?).getD false

end Reachability

end SetConstraints
