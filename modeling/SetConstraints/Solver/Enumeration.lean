import SetConstraints.Assignment
import SetConstraints.Solver.Propagation

/-!
# Enumeration of all solutions

The search is depth first.  The smallest undecided element of the first set variable that has one is taken in,
then left out; once all sets are decided, the first integer variable that is not fixed takes its lower bound, then
a larger value.  So solutions come in lexicographic order, an element in the set before the same element out of
it and smaller integers before larger ones.  Every decision uses up an undecided element or a step between
bounds, which bounds the depth.
-/

namespace SetConstraints

/-- Whether an element is in a set; whether an integer takes a value or a larger one. -/
inductive Decision
  | element (s : SetVar) (v : Int32)
  | split (x : IntVar) (v : Int32)
  deriving DecidableEq, Repr

/-- The narrowing that takes the first or the second branch of a decision. -/
def Decision.narrowing : Decision → Bool → Except Fault Narrowing
  | .element s v, true => .ok (.require s v)
  | .element s v, false => .ok (.exclude s v)
  | .split x v, true => .ok (.atMost x v)
  | .split x v, false =>
    match next? v with
    | none => .error .noLargerValue
    | some w => .ok (.atLeast x w)

namespace Domains

/-- The decision to be taken next; none if every variable has its value. -/
def decision? (d : Domains) : Option Decision :=
  let element? (s : SetVar) : Option Decision := do
    let e ← d.sets.get? s
    return .element s (← e.firstUndecided?)
  let split? (x : IntVar) : Option Decision := do
    let e ← d.ints.get? x
    if e.isFixed then none else some (.split x e.low)
  (d.sets.keys.findSome? element?).or (d.ints.keys.findSome? split?)

/-- The values of all variables, each of which has to have one. -/
def assignment? (d : Domains) : Except Fault Assignment :=
  if d.sets.toList.all SetDomain.isInstantiated && d.ints.toList.all IntDomain.isFixed then
    .ok ⟨d.sets.toList.map SetDomain.kernel, d.ints.toList.map IntDomain.low⟩
  else .error .leafNotInstantiated

end Domains

namespace Solver

/-- Takes the values of a state without open decisions as a solution. -/
def leaf (s : Solver) : Outcome Fault (List Assignment) :=
  let fault? : Option Fault :=
    if s.options.checks then
      match s.entailmentOfAll with
      | .error f => some f
      | .ok e => if e = .satisfied then none else some .leafNotSatisfied
    else none
  match fault? with
  | some f => ⟨.error f, s⟩
  | none =>
    let s := { s with statistics := { s.statistics with solutions := s.statistics.solutions + 1 } }
    match s.store.domains.assignment? with
    | .error f => ⟨.error f, s⟩
    | .ok a => ⟨.ok [a], s⟩

/-- Searches below one branch of a decision, on a level of its own. -/
def explore (s : Solver) (search : Solver → Outcome Fault (List Assignment)) (d : Decision) (first : Bool) :
    Outcome Fault (List Assignment) :=
  let level := s.depth
  let s := s.mark
  let s := { s with statistics := { s.statistics with decisions := s.statistics.decisions + 1 } }
  match d.narrowing first with
  | .error f => ⟨.error f, s⟩
  | .ok n =>
    let o := s.narrow n
    match o.result with
    | .error (.fault f) => ⟨.error f, o.solver⟩
    | .error (.error _) => ⟨.ok [], o.solver.returnTo level⟩
    | .ok () =>
      let o := search o.solver
      match o.result with
      | .error f => ⟨.error f, o.solver⟩
      | .ok found => ⟨.ok found, o.solver.returnTo level⟩

/-- Propagates and, if decisions are open, searches below both branches of the next one. -/
def search : Nat → Solver → Outcome Fault (List Assignment)
  | depth, s =>
    let o := s.propagate
    match o.result with
    | .error (.fault f) => ⟨.error f, o.solver⟩
    | .error (.error _) => ⟨.ok [], o.solver⟩
    | .ok () =>
      match o.solver.store.domains.decision? with
      | none => o.solver.leaf
      | some d =>
        match depth with
        | 0 => ⟨.error .searchTooDeep, o.solver⟩
        | depth + 1 =>
          let left := o.solver.explore (fun t => search depth t) d true
          match left.result with
          | .error f => ⟨.error f, left.solver⟩
          | .ok found =>
            let right := left.solver.explore (fun t => search depth t) d false
            ⟨right.result.map (found ++ ·), right.solver⟩

/-- All solutions of the constraints within the domains, in order.  The domains are left as they were. -/
def solutions (s : Solver) : Outcome Fault (List Assignment) :=
  if s.infeasible then ⟨.ok [], s⟩
  else
    let level := s.depth
    let o := search (s.store.domains.undecided + s.store.domains.width) s.mark
    match o.result with
    | .error f => ⟨.error f, o.solver⟩
    | .ok found => ⟨.ok found, (o.solver.returnTo level).log (.enumerated found.length)⟩

end Solver

end SetConstraints
