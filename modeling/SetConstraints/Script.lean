import SetConstraints.Journal

/-!
# Scripted propagators

A script is a propagator made to order, with which one can watch how a solver treats its propagators: it says what
to hear about, what to do in a call, and which variables it looks at when a call begins.  A plain script has no
reaction of its own to a delta.
-/

namespace SetConstraints

inductive Instruction
  | narrow (n : Narrowing)
  /-- Repeats the changes of the delta at another set. -/
  | followSet (s : SetVar)
  /-- Repeats the changes of the delta at another integer. -/
  | followInt (x : IntVar)
  /-- Goes on with the body if a value is in the kernel now. -/
  | whenRequired (s : SetVar) (v : Int32) (body : List Instruction)
  /-- Goes on with the body if a value is outside the envelope now. -/
  | whenExcluded (s : SetVar) (v : Int32) (body : List Instruction)
  | rest
  | fail
  deriving Repr

structure Script where
  name : String
  plain : Bool := false
  priority : Priority := .veryLow
  watch : List Registration
  scratch : List Instruction := []
  incremental : List Instruction := []
  see : List Var := []
  entailment : Entailment := .undetermined
  deriving Repr

/-- The narrowing that repeats an event at a set. -/
def Event.atSet? (s : SetVar) (v : Int32) : Event → Option Narrowing
  | .kernelGrew => some (.require s v)
  | .envelopeShrank => some (.exclude s v)
  | _ => none

/-- The narrowing that repeats an event at an integer. -/
def Event.atInt? (x : IntVar) (v : Int32) : Event → Option Narrowing
  | .lowerRaised => some (.atLeast x v)
  | .upperLowered => some (.atMost x v)
  | _ => none

/-- Performs narrowings in order. -/
def Action.narrowAll (ns : List Narrowing) : Action Unit := ns.forM fun n => Action.narrow n (pure ())

mutual

/-- Performs an instruction in a call about a delta. -/
def Instruction.run (delta : Delta) : Instruction → Action Unit
  | .narrow n => Action.narrow n (pure ())
  | .followSet s => Action.narrowAll (delta.entries.filterMap fun e => e.1.atSet? s e.2)
  | .followInt x => Action.narrowAll (delta.entries.filterMap fun e => e.1.atInt? x e.2)
  | .whenRequired s v body => do
    if (← Action.set s).requires v then runAll delta body
  | .whenExcluded s v body => do
    if !(← Action.set s).allows v then runAll delta body
  | .rest => Action.askRest
  | .fail => Action.fail "Probe"

/-- Performs instructions in order. -/
def Instruction.runAll (delta : Delta) : List Instruction → Action Unit
  | [] => pure ()
  | i :: is => do
    Instruction.run delta i
    runAll delta is

end

namespace Script

/-- The domains that a script looks at. -/
def seen? (s : Script) (d : Domains) : Except Fault (List Domain) := s.see.mapM d.domain?

/-- Performs the instructions for a call, after a look at the domains. -/
def body (s : Script) (delta : Delta) (instructions : List Instruction) : Action Unit := do
  let _ ← Action.lift (s.seen? (← Action.domains))
  Instruction.runAll delta instructions

def propagator (s : Script) : Propagator :=
  let scratch := s.body {} s.scratch
  if s.plain then
    { name := "PlainProbe"
      text := s!"plain probe {s.name}"
      fromScratch := scratch
      entailment := fun _ => .ok s.entailment }
  else
    { name := "Probe"
      text := s!"probe {s.name}"
      priority := s.priority
      fromScratch := scratch
      incremental := fun _ delta => s.body delta s.incremental
      entailment := fun _ => .ok s.entailment }

def posting (s : Script) : Posting where
  propagator := s.propagator
  registrations := s.watch
  defect? := fun d =>
    match s.seen? d with
    | .error f => some f
    | .ok _ => none

/-- A call as the script takes it: a plain one starts from scratch whatever it is told. -/
def taken (s : Script) : Call → Call
  | .incremental p slot delta => if s.plain then .scratch p else .incremental p slot delta
  | c => c

end Script

end SetConstraints
