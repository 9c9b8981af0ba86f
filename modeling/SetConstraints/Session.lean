import SetConstraints.Constraint
import SetConstraints.Script
import SetConstraints.Solver.Enumeration

/-!
# Sessions with a solver

A session performs requests one after the other.  After an error it goes on with whatever state the solver is in;
a fault ends it.  Propagators are asked about through handles, which only a successful addition hands out.
-/

namespace SetConstraints

inductive Request
  | newSet (kernel envelope : List Int32)
  | newInt (low high : Int32)
  | narrow (n : Narrowing)
  | propagate
  | mark
  | backtrack (level : Nat)
  | add (c : Constraint)
  | addScript (s : Script)
  /-- Adds constraints in order, up to the first that fails, without handles. -/
  | post (cs : List Constraint)
  | entailment (p : PropagatorId)
  | isPassive (p : PropagatorId)
  | describe (p : PropagatorId)
  | entailmentOfAll
  | counts
  | see (v : Var)
  | contains (s : SetVar) (v : Int32)
  | solve (limit : Nat)
  | allSolutions
  deriving Repr

inductive Answer
  | done
  | var (v : Var)
  | level (n : Nat)
  | propagator (p : PropagatorId)
  | entailment (e : Entailment)
  | flag (b : Bool)
  | description (name text : String) (priority : Priority)
  | counts (propagators sets ints level : Nat)
  | domain (d : Domain)
  | membership (inKernel inEnvelope : Bool)
  | firstSolutions (count : Nat) (shown : List Assignment)
  | solutions (all : List Assignment)
  deriving DecidableEq, Repr

/-- Why a request was not granted. -/
inductive Failure
  | contradiction (c : Contradiction)
  | refusal (r : Refusal)
  | fault (f : Fault)
  | noHandle
  deriving DecidableEq, Repr

def Failure.endsSession : Failure → Bool
  | .fault _ => true
  | _ => false

/-- A call of a scripted propagator, and what the script looked at. -/
structure Observation where
  script : Script
  call : Call
  seen : List Domain

structure Session where
  solver : Solver
  /-- The scripts among the propagators. -/
  scripts : List (PropagatorId × Script) := []
  /-- The propagators that a successful addition has handed out. -/
  handles : List PropagatorId := []

/-- Whether the state of the solver belongs to the answer. -/
def Request.showsState : Request → Bool
  | .narrow _ | .propagate | .mark | .backtrack _ | .add _ | .addScript _ | .post _ | .solve _ | .allSolutions =>
    true
  | _ => false

/-- Adds constraints in order, up to the first that fails. -/
def Solver.addAll (s : Solver) : List Constraint → Outcome (Stop Refusal) Unit
  | [] => ⟨.ok (), s⟩
  | c :: cs =>
    let o := s.add c.posting
    match o.result with
    | .error e => ⟨.error e, o.solver⟩
    | .ok _ => o.solver.addAll cs

namespace Session

variable {ε α : Type}

/-- A session with a new solver. -/
def new? (options : Options) : Except Fault Session := return { solver := ← Solver.new? options }

def failureOf (failure : ε → Failure) : Stop ε → Failure
  | .error e => failure e
  | .fault f => .fault f

/-- Keeps the solver of an outcome, and words its result. -/
def settle (s : Session) (o : Outcome ε α) (failure : ε → Failure) (answer : α → Answer) :
    Except Failure Answer × Session :=
  (match o.result with
    | .error e => .error (failure e)
    | .ok a => .ok (answer a),
    { s with solver := o.solver })

/-- Adds a propagator and hands out its handle. -/
def addPosting (s : Session) (c : Posting) : Except Failure Answer × Session :=
  let o := s.solver.add c
  let s := { s with solver := o.solver }
  match o.result with
  | .error e => (.error (failureOf .refusal e), s)
  | .ok p => (.ok (.propagator p), { s with handles := p :: s.handles })

/-- The propagator behind a handle. -/
def agent? (s : Session) (p : PropagatorId) : Except Failure Agent :=
  if s.handles.contains p then
    match s.solver.agents.get? p with
    | none => .error (.fault .unknownIndex)
    | some a => .ok a
  else .error .noHandle

def ofFault (r : Except Fault α) : Except Failure α :=
  match r with
  | .error f => .error (.fault f)
  | .ok a => .ok a

/-- Answers a question about the solver. -/
def inspect (s : Session) : Request → Except Failure Answer
  | .entailment p => do
    let a ← s.agent? p
    return .entailment (← ofFault (a.propagator.entailment s.solver.store.domains))
  | .isPassive p => return .flag (← s.agent? p).passive
  | .describe p => do
    let a ← s.agent? p
    return .description a.propagator.name a.propagator.text a.propagator.priority
  | .entailmentOfAll => .entailment <$> ofFault s.solver.entailmentOfAll
  | .counts =>
    let domains := s.solver.store.domains
    return .counts s.solver.agents.size domains.sets.size domains.ints.size s.solver.depth
  | .see v => .domain <$> ofFault (s.solver.store.domains.domain? v)
  | .contains x v => do
    let d ← ofFault (s.solver.store.domains.set? x)
    return .membership (d.requires v) (d.allows v)
  | _ => return .done

/-- Performs a request.  The journal afterwards is that of this request. -/
def perform (s : Session) (r : Request) : Except Failure Answer × Session :=
  let s := { s with solver := { s.solver with journal := #[] } }
  match r with
  | .newSet kernel envelope => s.settle (s.solver.newSet kernel envelope) .fault fun x => .var (.set x)
  | .newInt low high => s.settle (s.solver.newInt low high) .fault fun x => .var (.int x)
  | .narrow n => s.settle (s.solver.narrow n) (failureOf .contradiction) fun _ => .done
  | .propagate => s.settle s.solver.propagate (failureOf .contradiction) fun _ => .done
  | .mark =>
    let s := { s with solver := s.solver.mark }
    (.ok (.level s.solver.depth), s)
  | .backtrack level => s.settle (s.solver.backtrack level) .fault fun _ => .done
  | .add c => s.addPosting c.posting
  | .addScript script =>
    let scripts := if s.solver.infeasible then s.scripts else (s.solver.agents.nextKey, script) :: s.scripts
    { s with scripts := scripts }.addPosting script.posting
  | .post cs => s.settle (s.solver.addAll cs) (failureOf .refusal) fun _ => .done
  | .solve limit =>
    s.settle s.solver.solutions .fault fun found => .firstSolutions found.length (found.take limit)
  | .allSolutions => s.settle s.solver.solutions .fault .solutions
  | r => (s.inspect r, s)

/-- The calls of scripts during the last request.  A script that looks at a variable that does not exist fails
before it sees anything. -/
def observations (s : Session) : List Observation :=
  s.solver.journal.toList.filterMap fun entry => do
    match entry with
    | .log _ => none
    | .call c domains =>
      let script ← s.scripts.lookup c.propagator
      let seen ← (script.seen? domains).toOption
      return ⟨script, script.taken c, seen⟩

/-- The lines written during the last request. -/
def logLines (s : Session) : List LogLine :=
  s.solver.journal.toList.filterMap fun entry =>
    match entry with
    | .log l => some l
    | .call _ _ => none

end Session

end SetConstraints
