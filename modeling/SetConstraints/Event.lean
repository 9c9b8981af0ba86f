import SetConstraints.Variable

/-!
# Events

What can happen to a domain, sets of such kinds of events, and the changes that carry the value concerned.  A
delta is the list of events that a propagator has missed under one slot, oldest first.
-/

namespace SetConstraints

/-- What happened to a domain: an element entered the kernel or left the envelope of a set, a bound of an integer
moved, or an integer became fixed. -/
inductive Event
  | kernelGrew
  | envelopeShrank
  | lowerRaised
  | upperLowered
  | instantiated
  deriving DecidableEq, Repr

/-- The kinds of events in the order in which sets of them are listed. -/
def Event.all : List Event := [.kernelGrew, .envelopeShrank, .lowerRaised, .upperLowered, .instantiated]

theorem Event.mem_all (e : Event) : e ∈ Event.all := by cases e <;> decide

def Event.text : Event → String
  | .kernelGrew => "[Event:Kernel]"
  | .envelopeShrank => "[Event:Envelope]"
  | .lowerRaised => "[Event:LB]"
  | .upperLowered => "[Event:UB]"
  | .instantiated => "[Event:Instantiated]"

/-! ### Sets of kinds of events -/

structure EventSet where
  kernelGrew : Bool := false
  envelopeShrank : Bool := false
  lowerRaised : Bool := false
  upperLowered : Bool := false
  instantiated : Bool := false
  deriving DecidableEq, Repr

namespace EventSet

def contains (s : EventSet) : Event → Bool
  | .kernelGrew => s.kernelGrew
  | .envelopeShrank => s.envelopeShrank
  | .lowerRaised => s.lowerRaised
  | .upperLowered => s.upperLowered
  | .instantiated => s.instantiated

/-- The set of the kinds that satisfy `p`. -/
def ofPred (p : Event → Bool) : EventSet :=
  ⟨p .kernelGrew, p .envelopeShrank, p .lowerRaised, p .upperLowered, p .instantiated⟩

def union (s t : EventSet) : EventSet := ofPred fun e => s.contains e || t.contains e

def ofList (l : List Event) : EventSet := ofPred fun e => l.contains e

def toList (s : EventSet) : List Event := Event.all.filter s.contains

@[simp] theorem contains_ofPred (p : Event → Bool) (e : Event) : (ofPred p).contains e = p e := by
  cases e <;> rfl

@[simp] theorem contains_union (s t : EventSet) (e : Event) :
    (s.union t).contains e = (s.contains e || t.contains e) := by
  simp [union]

@[simp] theorem mem_toList (s : EventSet) (e : Event) : e ∈ s.toList ↔ s.contains e = true := by
  simp [toList, Event.mem_all]

def kernel : EventSet := { kernelGrew := true }

def envelope : EventSet := { envelopeShrank := true }

/-- Both events of a set variable. -/
def anySet : EventSet := { kernelGrew := true, envelopeShrank := true }

def bounds : EventSet := { lowerRaised := true, upperLowered := true }

def upperBoundAndAssign : EventSet := { upperLowered := true, instantiated := true }

/-- The three events of an integer variable. -/
def anyInt : EventSet := { lowerRaised := true, upperLowered := true, instantiated := true }

end EventSet

/-! ### Changes and deltas -/

/-- An event at a variable, with the element that entered or left, or the bound that now holds. -/
structure Change where
  var : Var
  event : Event
  value : Int32
  deriving DecidableEq, Repr

/-- Events with their values, oldest first. -/
structure Delta where
  entries : List (Event × Int32) := []
  deriving DecidableEq, Repr

namespace Delta

def isEmpty (d : Delta) : Bool := d.entries.isEmpty

def push (d : Delta) (e : Event) (v : Int32) : Delta := ⟨d.entries ++ [(e, v)]⟩

/-- The kinds of events that occur. -/
def kinds (d : Delta) : EventSet := .ofList (d.entries.map Prod.fst)

/-- The values of the events of one kind, oldest first. -/
def values (d : Delta) (e : Event) : List Int32 := (d.entries.filter (·.1 = e)).map Prod.snd

end Delta

end SetConstraints
