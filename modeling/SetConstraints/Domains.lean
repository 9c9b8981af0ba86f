import SetConstraints.Event
import SetConstraints.IntDomain
import SetConstraints.SetDomain

/-!
# The domains of all variables

Four narrowings make domains smaller, and each that has an effect says how to take it back and which changes it
made.  The potential of the domains bounds the number of changes that are still possible: each change uses up at
least one unit of it (`potential_of_narrow`).
-/

namespace SetConstraints

/-- The domain of a variable of either kind. -/
inductive Domain
  | set (d : SetDomain)
  | int (d : IntDomain)
  deriving DecidableEq, Repr

structure Domains where
  sets : Table SetVar SetDomain := {}
  ints : Table IntVar IntDomain := {}
  deriving DecidableEq, Repr

/-- An element enters the kernel or leaves the envelope of a set; a bound of an integer moves inwards. -/
inductive Narrowing
  | require (s : SetVar) (v : Int32)
  | exclude (s : SetVar) (v : Int32)
  | atLeast (x : IntVar) (v : Int32)
  | atMost (x : IntVar) (v : Int32)
  deriving DecidableEq, Repr

/-- What takes an effective narrowing back. -/
inductive Undo
  | release (s : SetVar) (v : Int32)
  | bounds (x : IntVar) (before : IntDomain)
  deriving DecidableEq, Repr

/-- What an effective narrowing results in. -/
structure Effect where
  domains : Domains
  undo : Undo
  changes : List Change
  deriving DecidableEq, Repr

namespace Domains

/-- The domain of `s`; a number that no set variable has is a fault. -/
def set? (d : Domains) (s : SetVar) : Except Fault SetDomain :=
  match d.sets.get? s with
  | none => .error .unknownIndex
  | some e => .ok e

/-- The domain of `x`; a number that no integer variable has is a fault. -/
def int? (d : Domains) (x : IntVar) : Except Fault IntDomain :=
  match d.ints.get? x with
  | none => .error .unknownIndex
  | some e => .ok e

/-- The domain of a variable; a number that no variable has is a fault. -/
def domain? (d : Domains) : Var → Except Fault Domain
  | .set s => .set <$> d.set? s
  | .int x => .int <$> d.int? x

/-- The number of undecided elements of all set variables. -/
def undecided (d : Domains) : Nat := d.sets.sum SetDomain.undecided

/-- The number of steps between the bounds of all integer variables. -/
def width (d : Domains) : Nat := d.ints.sum IntDomain.width

/-- A bound on the number of changes still possible: a step of a bound may fix the variable as well. -/
def potential (d : Domains) : Nat := d.undecided + 2 * d.width

def withSet (d : Domains) (s : SetVar) (v : Int32) (event : Event) (e : SetDomain) : Effect :=
  { domains := { d with sets := d.sets.set s e }
    undo := .release s v
    changes := [⟨.set s, event, v⟩] }

def withInt (d : Domains) (x : IntVar) (v : Int32) (event : Event) (before e : IntDomain) : Effect :=
  { domains := { d with ints := d.ints.set x e }
    undo := .bounds x before
    changes := ⟨.int x, event, v⟩ :: if e.isFixed then [⟨.int x, .instantiated, e.low⟩] else [] }

/-- What narrowing one domain means for all of them. -/
def outcome {α : Type} (effect : α → Effect) : Narrowed α → Except (Stop Contradiction) (Option Effect)
  | .unchanged => .ok none
  | .changed e => .ok (some (effect e))
  | .emptied => .error (.error .emptyDomain)

/-- Performs a narrowing.  One without effect gives nothing; one that would leave nothing is a contradiction. -/
def narrow (d : Domains) : Narrowing → Except (Stop Contradiction) (Option Effect)
  | .require s v =>
    match d.sets.get? s with
    | none => .error (.fault .unknownIndex)
    | some e => outcome (d.withSet s v .kernelGrew) (e.require v)
  | .exclude s v =>
    match d.sets.get? s with
    | none => .error (.fault .unknownIndex)
    | some e => outcome (d.withSet s v .envelopeShrank) (e.exclude v)
  | .atLeast x v =>
    match d.ints.get? x with
    | none => .error (.fault .unknownIndex)
    | some e => outcome (d.withInt x v .lowerRaised e) (e.atLeast v)
  | .atMost x v =>
    match d.ints.get? x with
    | none => .error (.fault .unknownIndex)
    | some e => outcome (d.withInt x v .upperLowered e) (e.atMost v)

/-- Takes an effective narrowing back. -/
def takeBack (d : Domains) : Undo → Domains
  | .release s v => { d with sets := d.sets.modify s (·.release v) }
  | .bounds x before => { d with ints := d.ints.set x before }

private theorem progress_withSet {d : Domains} {s : SetVar} {v : Int32} {event : Event} {b e : SetDomain}
    (hs : d.sets.get? s = some b) (h : e.undecided + 1 = b.undecided) :
    (d.withSet s v event e).domains.undecided + 1 = d.undecided ∧
      (d.withSet s v event e).domains.width = d.width ∧ (d.withSet s v event e).changes.length = 1 := by
  have := Table.sum_set hs e SetDomain.undecided
  refine ⟨?_, rfl, rfl⟩
  simp only [withSet, undecided]
  omega

private theorem progress_withInt {d : Domains} {x : IntVar} {v : Int32} {event : Event} {b e : IntDomain}
    (hx : d.ints.get? x = some b) (h : e.width + 1 ≤ b.width) :
    (d.withInt x v event b e).domains.undecided = d.undecided ∧
      (d.withInt x v event b e).domains.width + 1 ≤ d.width ∧ (d.withInt x v event b e).changes.length ≤ 2 := by
  have := Table.sum_set hx e IntDomain.width
  refine ⟨rfl, ?_, ?_⟩
  · simp only [withInt, width]
    omega
  · simp only [withInt, List.length_cons]
    split <;> simp

/-- An effective narrowing decides an element, or takes at least one step between two bounds. -/
theorem progress_of_narrow {d : Domains} {n : Narrowing} {e : Effect} (h : d.narrow n = .ok (some e)) :
    e.domains.undecided + 1 = d.undecided ∧ e.domains.width = d.width ∧ e.changes.length = 1 ∨
      e.domains.undecided = d.undecided ∧ e.domains.width + 1 ≤ d.width ∧ e.changes.length ≤ 2 := by
  cases n <;> simp only [narrow] at h <;> split at h <;> try cases h
  all_goals
    rename_i b hb
    unfold outcome at h
    split at h <;> cases h
    rename_i b' hb'
  · exact .inl (progress_withSet hb (SetDomain.undecided_of_require hb'))
  · exact .inl (progress_withSet hb (SetDomain.undecided_of_exclude hb'))
  · exact .inr (progress_withInt hb (IntDomain.width_of_atLeast hb'))
  · exact .inr (progress_withInt hb (IntDomain.width_of_atMost hb'))

/-- Each change uses up potential. -/
theorem potential_of_narrow {d : Domains} {n : Narrowing} {e : Effect} (h : d.narrow n = .ok (some e)) :
    e.changes.length + e.domains.potential ≤ d.potential := by
  have := progress_of_narrow h
  unfold potential
  omega

end Domains

end SetConstraints
