import SetConstraints.Table

/-!
# Variables and the other things with a number

Set variables, integer variables and propagators are numbered separately, each from zero in the order of their
creation.  A slot is a propagator's own number for what it watches.
-/

namespace SetConstraints

structure SetVar where
  number : Nat
  deriving DecidableEq, Repr

structure IntVar where
  number : Nat
  deriving DecidableEq, Repr

structure Slot where
  number : Nat
  deriving DecidableEq, Repr

structure PropagatorId where
  number : Nat
  deriving DecidableEq, Repr

/-- A variable of either kind. -/
inductive Var
  | set (s : SetVar)
  | int (x : IntVar)
  deriving DecidableEq, Repr

instance : Key SetVar := ⟨SetVar.number, SetVar.mk, fun _ => rfl, fun _ => rfl⟩
instance : Key IntVar := ⟨IntVar.number, IntVar.mk, fun _ => rfl, fun _ => rfl⟩
instance : Key Slot := ⟨Slot.number, Slot.mk, fun _ => rfl, fun _ => rfl⟩
instance : Key PropagatorId := ⟨PropagatorId.number, PropagatorId.mk, fun _ => rfl, fun _ => rfl⟩

def SetVar.text (s : SetVar) : String := s!"s{s.number}"

def IntVar.text (x : IntVar) : String := s!"x{x.number}"

def Var.text : Var → String
  | .set s => s.text
  | .int x => x.text

def Slot.text (l : Slot) : String := toString l.number

def PropagatorId.text (p : PropagatorId) : String := s!"PropagatorId({p.number})"

end SetConstraints
