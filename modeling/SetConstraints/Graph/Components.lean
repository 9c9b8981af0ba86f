/-!
# Strongly connected components

The components of a directed graph, by Tarjan's algorithm without recursion: the path from the root of the walk to
the current node is kept as a list of nodes with the successors that each has still to explore.  Components are
numbered in the order in which they are completed, so that each comes after all those that it reaches.

Every round explores a successor or leaves a node, and a node is entered only once, which is what `remaining`
counts and why the walk ends.
-/

namespace SetConstraints

/-- A directed graph over the nodes `0, …, n - 1`. -/
structure Graph (n : Nat) where
  successors : Vector (List (Fin n)) n
  deriving DecidableEq, Repr

namespace Graph

variable {n : Nat}

/-- The nodes at the ends of the edges from `v`, with repetitions. -/
def next (g : Graph n) (v : Fin n) : List (Fin n) := g.successors[v]

/-- There is an edge from `u` to `v`. -/
def Edge (g : Graph n) (u v : Fin n) : Prop := v ∈ g.next u

end Graph

/-- The state of the walk through a graph. -/
structure Walk (n : Nat) where
  /-- When each node was entered. -/
  entered : Vector (Option Nat) n := Vector.replicate n none
  /-- The earliest entry of a stacked node known to be reached from each node. -/
  low : Vector Nat n := Vector.replicate n 0
  onStack : Vector Bool n := Vector.replicate n false
  time : Nat := 0
  /-- The nodes entered whose component is not complete, the latest first. -/
  stack : List (Fin n) := []
  /-- The nodes being visited, the current one first, with the successors still to explore. -/
  path : List (Fin n × List (Fin n)) := []
  componentOf : Vector (Option Nat) n := Vector.replicate n none
  components : Array (List (Fin n)) := #[]
  deriving DecidableEq, Repr

namespace Walk

variable {n : Nat}

/-- Enters a node. -/
def enter (g : Graph n) (w : Walk n) (v : Fin n) : Walk n :=
  { w with
    entered := w.entered.set v (some w.time)
    low := w.low.set v w.time
    onStack := w.onStack.set v true
    time := w.time + 1
    stack := v :: w.stack
    path := (v, g.next v) :: w.path }

/-- The part of a stack down to `v`, and what lies below. -/
def popThrough (v : Fin n) : List (Fin n) → List (Fin n) × List (Fin n)
  | [] => ([], [])
  | u :: stack =>
    if u = v then ([u], stack)
    else
      let (members, below) := popThrough v stack
      (u :: members, below)

/-- Gives all nodes of a list the entry `a`. -/
def setAll {α : Type} (a : α) (entries : Vector α n) (nodes : List (Fin n)) : Vector α n :=
  nodes.foldl (fun entries (u : Fin n) => entries.set u a) entries

/-- Takes the nodes down to `v` from the stack as a component. -/
def complete (w : Walk n) (v : Fin n) : Walk n :=
  let (members, below) := popThrough v w.stack
  { w with
    stack := below
    onStack := setAll false w.onStack members
    componentOf := setAll (some w.components.size) w.componentOf members
    components := w.components.push members }

/-- Leaves a node, handing its low value to the node before it on the path. -/
def leave (w : Walk n) (v : Fin n) (path : List (Fin n × List (Fin n))) : Walk n :=
  let low :=
    match path with
    | [] => w.low
    | (u, _) :: _ => w.low.set u (min w.low[u] w.low[v])
  let w := { w with low := low, path := path }
  if w.entered[v] = some w.low[v] then w.complete v else w

/-- Lowers the low value of `v` to the entry of a successor that is still on the stack. -/
def meet (w : Walk n) (v u : Fin n) (entry : Nat) : Walk n :=
  if w.onStack[u] then { w with low := w.low.set v (min w.low[v] entry) } else w

/-- The successors to explore of the nodes not entered, two more for each such node, and the rounds for the nodes
on the path. -/
def remaining (g : Graph n) (w : Walk n) : Nat :=
  (List.zipWith (fun (entry : Option Nat) (next : List (Fin n)) => if entry.isNone then next.length + 2 else 0)
    w.entered.toList g.successors.toList).foldr (· + ·) 0 + (w.path.map fun f => f.2.length + 1).foldr (· + ·) 0

private theorem sum_zipWith_set (es : List (Option Nat)) (ss : List (List (Fin n))) (i t : Nat) (s : List (Fin n))
    (he : es[i]? = some none) (hs : ss[i]? = some s) :
    (List.zipWith (fun (e : Option Nat) (s : List (Fin n)) => if e.isNone then s.length + 2 else 0)
        (es.set i (some t)) ss).foldr (· + ·) 0 + (s.length + 2) =
      (List.zipWith (fun (e : Option Nat) (s : List (Fin n)) => if e.isNone then s.length + 2 else 0) es
        ss).foldr (· + ·) 0 := by
  induction es generalizing i ss with
  | nil => simp at he
  | cons e es ih =>
    cases ss with
    | nil => simp at hs
    | cons s' ss =>
      cases i with
      | zero => simp_all; omega
      | succ i =>
        have := ih ss i (by simpa using he) (by simpa using hs)
        simp at this ⊢
        omega

private theorem remaining_enter (g : Graph n) (w : Walk n) (v : Fin n) (h : w.entered[v] = none) :
    (w.enter g v).remaining g + 1 = w.remaining g := by
  have := sum_zipWith_set w.entered.toList g.successors.toList v w.time (g.next v)
    (by simpa [Vector.getElem?_eq_getElem] using h) (by simp [Graph.next])
  simp only [remaining, enter, Vector.toList_set, List.map_cons, List.foldr_cons] at this ⊢
  omega

private theorem remaining_meet (g : Graph n) (w : Walk n) (v u : Fin n) (entry : Nat) :
    (w.meet v u entry).remaining g = w.remaining g := by
  unfold meet
  split <;> rfl

private theorem remaining_leave (g : Graph n) (w : Walk n) (v : Fin n) (path : List (Fin n × List (Fin n))) :
    (w.leave v path).remaining g = { w with path := path }.remaining g := by
  unfold leave
  simp only
  split <;> split <;> rfl

/-- Walks on until the path is empty. -/
def explore (g : Graph n) (w : Walk n) : Walk n :=
  match _hp : w.path with
  | [] => w
  | (v, u :: later) :: path =>
    let w' := { w with path := (v, later) :: path }
    match _hu : w.entered[u] with
    | none => explore g (w'.enter g u)
    | some entry => explore g (w'.meet v u entry)
  | (v, []) :: path => explore g (w.leave v path)
termination_by w.remaining g
decreasing_by
  · have := remaining_enter g { w with path := (v, later) :: path } u _hu
    simp only [remaining, _hp, List.map_cons, List.foldr_cons, List.length_cons] at this ⊢
    omega
  · rw [remaining_meet]
    simp only [remaining, _hp, List.map_cons, List.foldr_cons, List.length_cons]
    omega
  · rw [remaining_leave]
    simp only [remaining, _hp, List.map_cons, List.foldr_cons, List.length_nil]
    omega

/-- Walks through everything that a root reaches, unless it was entered before. -/
def exploreFrom (g : Graph n) (w : Walk n) (root : Fin n) : Walk n :=
  match w.entered[root] with
  | some _ => w
  | none => explore g (w.enter g root)

/-- The walk through the whole graph. -/
def whole (g : Graph n) : Walk n := (List.finRange n).foldl (exploreFrom g) {}

end Walk

/-- The components of a graph, in the order of completion, and the number of the component of each node. -/
structure Components (n : Nat) where
  members : Array (List (Fin n))
  componentOf : Vector (Option Nat) n
  deriving DecidableEq, Repr

/-- The strongly connected components of a graph. -/
def Graph.components {n : Nat} (g : Graph n) : Components n :=
  let w := Walk.whole g
  ⟨w.components, w.componentOf⟩

end SetConstraints
