import SetConstraints.Inbox
import SetConstraints.Journal
import SetConstraints.Queue
import SetConstraints.WatchList

/-!
# The state of a solver

A solver holds the domains of its variables, its propagators with what they have yet to be told, and the queue of
those that have to run.  This module sets up variables, narrows domains from outside, and opens and leaves levels.
Leaving a level wakes the propagators that came to rest in it, and makes every propagator due for a call from
scratch, so that nothing pending before is lost.
-/

namespace SetConstraints

structure Options where
  /-- Whether deltas are handed over; otherwise each call starts from scratch. -/
  incremental : Bool := true
  /-- The number of levels of the queue. -/
  levels : Nat := Priority.count
  /-- Whether each fixpoint is checked by running all propagators again. -/
  checks : Bool := false
  deriving DecidableEq, Repr

/-- Counters over the life of a solver. -/
structure Statistics where
  scratchCalls : Nat := 0
  incrementalCalls : Nat := 0
  contradictions : Nat := 0
  decisions : Nat := 0
  solutions : Nat := 0
  deriving DecidableEq, Repr

/-- A propagator in a solver. -/
structure Agent where
  propagator : Propagator
  inbox : Inbox := {}
  /-- Whether the next call has to be from scratch. -/
  due : Bool := true
  passive : Bool := false

structure Solver where
  options : Options
  store : Store := {}
  agents : Table PropagatorId Agent := {}
  watches : WatchList := {}
  queue : Queue
  /-- The propagators at rest, under the level at which they came to rest. -/
  passiveTrail : Trail PropagatorId := {}
  /-- Whether adding a propagator failed before any level was opened. -/
  infeasible : Bool := false
  statistics : Statistics := {}
  journal : Array JournalEntry := #[]

/-- How a call ended, with the solver it leaves behind in either case. -/
structure Outcome (ε α : Type) where
  result : Except ε α
  solver : Solver

namespace Solver

/-- A solver without variables; each priority needs a level of the queue. -/
def new? (options : Options) : Except Fault Solver :=
  if options.levels < Priority.count then .error .tooFewLevels
  else .ok { options := options, queue := .new options.levels }

/-- The number of open levels. -/
def depth (s : Solver) : Nat := s.store.depth

def record (s : Solver) (e : JournalEntry) : Solver := { s with journal := s.journal.push e }

def log (s : Solver) (l : LogLine) : Solver := s.record (.log l)

/-- Applies a change to a propagator's state. -/
def modifyAgent (s : Solver) (p : PropagatorId) (f : Agent → Agent) : Solver :=
  { s with agents := s.agents.modify p f }

/-! ### Variables -/

/-- Creates a set variable between a kernel and an envelope. -/
def newSet (s : Solver) (kernel envelope : List Int32) : Outcome Fault SetVar :=
  match SetDomain.ofLists kernel envelope with
  | .error f => ⟨.error f, s⟩
  | .ok d =>
    let domains := s.store.domains
    ⟨.ok domains.sets.nextKey,
      { s with
        store := { s.store with domains := { domains with sets := domains.sets.push d } }
        watches := s.watches.addSet }⟩

/-- Creates an integer variable between two bounds. -/
def newInt (s : Solver) (low high : Int32) : Outcome Fault IntVar :=
  if h : low ≤ high then
    let domains := s.store.domains
    ⟨.ok domains.ints.nextKey,
      { s with
        store := { s.store with domains := { domains with ints := domains.ints.push ⟨low, high, h⟩ } }
        watches := s.watches.addInt }⟩
  else ⟨.error .reversedBounds, s⟩

/-- Narrows a domain from outside; propagators hear of it when the solver propagates next. -/
def narrow (s : Solver) (n : Narrowing) : Outcome (Stop Contradiction) Unit :=
  match s.store.narrow n with
  | .error e => ⟨.error e, s⟩
  | .ok t => ⟨.ok (), { s with store := t }⟩

/-! ### Levels -/

/-- Opens a level. -/
def mark (s : Solver) : Solver :=
  { s with store := s.store.mark, passiveTrail := s.passiveTrail.mark }

/-- Forgets who waits and what is pending. -/
def clearPending (s : Solver) : Solver :=
  { s with
    queue := s.queue.clear
    agents := s.agents.map fun a => { a with inbox := {} }
    store := { s.store with changes := #[] } }

/-- Puts a propagator into the queue unless it is at rest. -/
def enqueue (s : Solver) (p : PropagatorId) : Solver :=
  match s.agents.get? p with
  | none => s
  | some a => if a.passive then s else { s with queue := s.queue.enqueue p a.propagator.priority }

/-- Makes every propagator due for a call from scratch, and has those not at rest wait for it. -/
def restart (s : Solver) : Solver :=
  let s := s.clearPending
  let s := { s with agents := s.agents.map fun a => { a with due := true } }
  s.agents.keys.foldl enqueue s

/-- Closes all levels above `level`, if there are any. -/
def close (s : Solver) (level : Nat) : Solver :=
  if level < s.depth then
    let s := s.log (.goingBack s.depth level)
    let (woken, passiveTrail) := s.passiveTrail.rewind level
    let s := { s with store := s.store.rewind level, passiveTrail := passiveTrail }
    woken.foldl (fun s p => s.modifyAgent p fun a => { a with passive := false }) s
  else s

/-- Goes back to a level and starts over from there. -/
def returnTo (s : Solver) (level : Nat) : Solver := (s.close level).restart

/-- Goes back to an open level. -/
def backtrack (s : Solver) (level : Nat) : Outcome Fault Unit :=
  if s.depth < level then ⟨.error .levelNotOpen, s⟩ else ⟨.ok (), s.returnTo level⟩

/-! ### Entailment -/

/-- The entailment of the constraint of one propagator. -/
def entailment (s : Solver) (p : PropagatorId) : Except Fault Entailment :=
  match s.agents.get? p with
  | none => .error .unknownIndex
  | some a => a.propagator.entailment s.store.domains

/-- The entailment of all constraints together. -/
def entailmentOfAll (s : Solver) : Except Fault Entailment :=
  s.agents.toList.foldlM (fun e a => return e.and (← a.propagator.entailment s.store.domains)) .satisfied

end Solver

end SetConstraints
