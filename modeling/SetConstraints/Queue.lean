import SetConstraints.Propagator

/-!
# The queue of propagators

Propagators wait in line at the level of their priority, each at most once, and the most urgent level that is not
empty is served first.  Beside the lines the queue keeps which propagators wait, how many do, and which levels
are in use, so that none of this has to be searched for.
-/

namespace SetConstraints

structure Queue where
  /-- The line of each level, the first to be served first. -/
  lines : Array (List PropagatorId)
  waiting : Table PropagatorId Bool := {}
  count : Nat := 0
  /-- The levels in use, the most urgent first. -/
  inUse : List Nat := []
  deriving DecidableEq, Repr

namespace Queue

/-- The empty queue with `n` levels. -/
def new (n : Nat) : Queue := { lines := Array.replicate n [] }

def isEmpty (q : Queue) : Bool := q.count = 0

def isWaiting (q : Queue) (p : PropagatorId) : Bool := (q.waiting.get? p).getD false

/-- The propagators in line at a level. -/
def line (q : Queue) (level : Nat) : List PropagatorId := q.lines[level]?.getD []

/-- The number of places taken in all lines. -/
def held (q : Queue) : Nat := (q.lines.toList.map List.length).foldr (· + ·) 0

/-- Inserts a level in front of the less urgent ones. -/
def insertLevel (level : Nat) : List Nat → List Nat
  | [] => [level]
  | l :: ls => if level ≤ l then level :: l :: ls else l :: insertLevel level ls

/-- Puts a propagator at the end of the line of its priority, unless it is waiting already. -/
def enqueue (q : Queue) (p : PropagatorId) (priority : Priority) : Queue :=
  if q.isWaiting p then q else
    let line := q.line priority.level
    { lines := q.lines.setIfInBounds priority.level (line ++ [p])
      waiting := (q.waiting.growTo p false).set p true
      count := q.count + 1
      inUse := if line.isEmpty then insertLevel priority.level q.inUse else q.inUse }

/-- Takes the first propagator from the most urgent line. -/
def pop (q : Queue) : Option (PropagatorId × Queue) :=
  match q.inUse with
  | [] => none
  | level :: others =>
    match q.line level with
    | [] => none
    | p :: line => some (p,
      { lines := q.lines.setIfInBounds level line
        waiting := q.waiting.set p false
        count := q.count - 1
        inUse := if line.isEmpty then others else q.inUse })

/-- Sends everyone away. -/
def clear (q : Queue) : Queue :=
  { lines := q.inUse.foldl (fun lines level => lines.setIfInBounds level []) q.lines
    waiting := q.waiting.map fun _ => false
    count := 0
    inUse := [] }

/-! ### How many are in line -/

theorem held_enqueue_le (q : Queue) (p : PropagatorId) (priority : Priority) :
    (q.enqueue p priority).held ≤ q.held + 1 := by
  unfold enqueue
  split
  · omega
  · simp only [held, Array.toList_setIfInBounds, line]
    cases h : q.lines[priority.level]? with
    | none =>
      rw [List.set_eq_of_length_le (by simpa using h)]
      omega
    | some b =>
      have := Table.sum_map_set List.length q.lines.toList priority.level (b ++ [p]) b (by simpa using h)
      simp only [Option.getD, List.length_append, List.length_singleton] at this ⊢
      omega

theorem held_pop {q r : Queue} {p : PropagatorId} (h : q.pop = some (p, r)) : r.held + 1 = q.held := by
  unfold pop at h
  split at h
  · cases h
  · split at h <;> cases h
    rename_i level others _ _ line hline
    have hget : q.lines.toList[level]? = some (p :: line) := by
      unfold Queue.line at hline
      cases hl : q.lines[level]? with
      | none => simp [hl] at hline
      | some b => simp_all
    have := Table.sum_map_set List.length q.lines.toList level line (p :: line) hget
    simp only [held, Array.toList_setIfInBounds, List.length_cons] at this ⊢
    omega

end Queue

end SetConstraints
