import SetConstraints.Assignment
import SetConstraints.Graph.Reachability
import SetConstraints.Propagator

/-!
# At most the transitive closure

Two lists of `n` set variables describe relations over the nodes `0, …, n - 1`.  The first holds the successors of
each node; each set of the second contains only nodes that its node reaches through at least one edge, or the node
itself if the closure is reflexive.

The largest graph, whose edges are all those still possible, decides which nodes can be reached at all.  Nothing
about the second list makes further nodes unreachable, so only the first is watched.
-/

namespace SetConstraints

structure AtMostClosure where
  relation : List SetVar
  closure : List SetVar
  reflexive : Bool
  deriving DecidableEq, Repr

namespace AtMostClosure

def name : String := "AtMostTransitiveClosure"

/-- The number of nodes. -/
def size (c : AtMostClosure) : Nat := c.relation.length

/-- The node that a value stands for. -/
def node? (c : AtMostClosure) (v : Int32) : Option (Fin c.size) :=
  if h : 0 ≤ v.toInt ∧ v.toInt.toNat < c.size then some ⟨v.toInt.toNat, h.2⟩ else none

def isNode (c : AtMostClosure) (v : Int32) : Bool := (c.node? v).isSome

/-- An edge of the relation that an assignment gives. -/
def Edge (c : AtMostClosure) (a : Assignment) (i j : Fin c.size) : Prop :=
  ∃ v ∈ a.set (c.relation.get i), c.node? v = some j

/-- Successors are nodes, and the set of a node holds only nodes that it reaches. -/
structure Holds (c : AtMostClosure) (a : Assignment) : Prop where
  isNode_of_mem : ∀ s ∈ c.relation, ∀ v ∈ a.set s, c.isNode v
  reaches_of_mem : ∀ (i : Fin c.size) (s : SetVar), c.closure[i.val]? = some s → ∀ v ∈ a.set s, ∃ j,
    c.node? v = some j ∧ ((c.reflexive ∧ j = i) ∨ Relation.TransGen (c.Edge a) i j)

/-- The successors that a variable may still have. -/
def successors (c : AtMostClosure) (d : Domains) (s : SetVar) : List (Fin c.size) :=
  match d.sets.get? s with
  | none => []
  | some e => e.envelope.filterMap c.node?

/-- The graph of all edges still possible. -/
def graph (c : AtMostClosure) (d : Domains) : Graph c.size :=
  ⟨⟨(c.relation.map (c.successors d)).toArray, by rw [List.size_toArray, List.length_map, size]⟩⟩

/-- What can still be reached. -/
def reachability (c : AtMostClosure) (d : Domains) : Except Fault (Reachability c.size) :=
  match Reachability.ofGraph? (c.graph d) with
  | none => .error .unknownIndex
  | some r => .ok r

/-- Whether the set of a node may contain a value. -/
def mayContain (c : AtMostClosure) (r : Reachability c.size) (node : Nat) (v : Int32) : Bool :=
  (c.reflexive && v.toInt = node) || (c.isNode v && r.reaches node v.toInt.toNat)

/-- Removes the values that are not nodes from the successors. -/
def removeOutside (c : AtMostClosure) : Action Unit :=
  c.relation.forM fun s => do
    let outside := (← Action.set s).envelope.filter fun v => !c.isNode v
    outside.forM fun v => do
      if (← Action.set s).requires v then Action.fail name
      else Action.exclude s v

/-- Removes the values that the set of a node cannot contain. -/
def removeUnreachable (c : AtMostClosure) (r : Reachability c.size) (s : SetVar) (node : Nat) : Action Unit := do
  let unreachable := (← Action.set s).envelope.filter fun v => !c.mayContain r node v
  unreachable.forM (Action.exclude s)

def fromScratch (c : AtMostClosure) : Action Unit := do
  c.removeOutside
  let r ← Action.lift (c.reachability (← Action.domains))
  c.closure.zipIdx.forM fun e => c.removeUnreachable r e.1 e.2

def entailment (c : AtMostClosure) (d : Domains) : Except Fault Entailment := do
  if ← c.relation.anyM fun s => return (← d.set? s).kernel.any fun v => !c.isNode v then
    return .violated
  let r ← c.reachability d
  if ← c.closure.zipIdx.anyM fun e => return (← d.set? e.1).kernel.any fun v => !c.mayContain r e.2 v then
    return .violated
  if ← (c.relation ++ c.closure).allM fun s => return (← d.set? s).isInstantiated then
    return .satisfied
  return .undetermined

def text (c : AtMostClosure) : String :=
  let names (vars : List SetVar) : String := ", ".intercalate (vars.map SetVar.text)
  s!"at_most_transitive_closure([{names c.relation}], [{names c.closure}], reflexive={c.reflexive})"

def posting (c : AtMostClosure) : Posting where
  propagator :=
    { name := name
      text := c.text
      priority := .veryLow
      fromScratch := c.fromScratch
      entailment := c.entailment }
  registrations := c.relation.zipIdx.map fun e => ⟨.set e.1, .envelope, ⟨e.2⟩⟩
  defect? := fun _ =>
    if c.relation.length = c.closure.length then none
    else some (.unequalLengths c.relation.length c.closure.length)

end AtMostClosure

end SetConstraints
