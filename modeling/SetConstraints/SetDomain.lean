import SetConstraints.Failure
import SetConstraints.Narrowed
import SetConstraints.Value

/-!
# Domains of set variables

The value of a set variable lies between its kernel, the elements that it certainly has, and its envelope, the
elements that it may have.  A domain keeps the values of the envelope it began with in increasing order, each
with its membership, and the sizes of kernel and envelope.  Values are looked up by binary search, so that values
far apart cost no more than neighbours.

The number of undecided elements is what narrowing uses up: `undecided_of_require`, `undecided_of_exclude`.
-/

namespace SetConstraints

/-- What is known about one value of the initial envelope. -/
inductive Membership
  | excluded
  | possible
  | required
  deriving DecidableEq, Repr

namespace Membership

/-- The contribution to the size of the kernel. -/
def kernelCount : Membership → Nat
  | .required => 1
  | _ => 0

/-- The contribution to the size of the envelope. -/
def envelopeCount : Membership → Nat
  | .excluded => 0
  | _ => 1

end Membership

structure Element where
  value : Int32
  membership : Membership
  deriving DecidableEq, Repr

structure SetDomain where
  /-- The values of the initial envelope, in increasing order. -/
  elements : Array Element
  kernelSize : Nat
  envelopeSize : Nat
  deriving DecidableEq, Repr

namespace SetDomain

/-! ### Looking up a value -/

/-- Binary search for `v` among the positions from `lo` up to, but not including, `hi`. -/
def findBetween (a : Array Element) (v : Int32) (lo hi : Nat) (h : hi ≤ a.size) : Option (Fin a.size) :=
  if _hlt : lo < hi then
    let mid : Fin a.size := ⟨(lo + hi) / 2, by omega⟩
    if a[mid].value = v then some mid
    else if a[mid].value < v then findBetween a v (mid + 1) hi h
    else findBetween a v lo mid (by omega)
  else none
termination_by hi - lo
decreasing_by
  · show hi - ((lo + hi) / 2 + 1) < hi - lo
    omega
  · show (lo + hi) / 2 - lo < hi - lo
    omega

/-- The position of `v`. -/
def find (d : SetDomain) (v : Int32) : Option (Fin d.elements.size) :=
  findBetween d.elements v 0 d.elements.size (Nat.le_refl _)

/-- What is known about `v`; a value outside the initial envelope is excluded. -/
def membership (d : SetDomain) (v : Int32) : Membership :=
  match d.find v with
  | none => .excluded
  | some i => d.elements[i].membership

/-- Whether `v` is in the kernel. -/
def requires (d : SetDomain) (v : Int32) : Bool := d.membership v = .required

/-- Whether `v` is in the envelope. -/
def allows (d : SetDomain) (v : Int32) : Bool := d.membership v ≠ .excluded

/-! ### Kernel and envelope -/

/-- The values whose membership satisfies `p`, in increasing order. -/
def valuesWith (d : SetDomain) (p : Membership → Bool) : List Int32 :=
  (d.elements.toList.filter (p ·.membership)).map Element.value

def kernel (d : SetDomain) : List Int32 := d.valuesWith (· = .required)

def envelope (d : SetDomain) : List Int32 := d.valuesWith (· ≠ .excluded)

def isInstantiated (d : SetDomain) : Bool := d.kernelSize = d.envelopeSize

/-- The largest element of the kernel. -/
def maxKernel? (d : SetDomain) : Option Int32 := d.kernel.getLast?

/-- The smallest undecided element. -/
def firstUndecided? (d : SetDomain) : Option Int32 := d.envelope.find? fun v => !d.requires v

/-- The number of elements in the envelope but not in the kernel. -/
def undecided (d : SetDomain) : Nat := d.elements.countP (·.membership = .possible)

/-! ### Changing a membership -/

/-- Replaces the membership at position `i` and adjusts both sizes. -/
def assign (d : SetDomain) (i : Fin d.elements.size) (m : Membership) : SetDomain :=
  let before := d.elements[i]
  { elements := d.elements.set i { before with membership := m }
    kernelSize := d.kernelSize + m.kernelCount - before.membership.kernelCount
    envelopeSize := d.envelopeSize + m.envelopeCount - before.membership.envelopeCount }

/-- The domain between two lists of values, in any order and with repetitions; the first kernel value outside the
envelope is a fault. -/
def ofLists (kernel envelope : List Int32) : Except Fault SetDomain :=
  let values := sortValues envelope
  let free : SetDomain :=
    { elements := (values.map (⟨·, .possible⟩)).toArray, kernelSize := 0, envelopeSize := values.length }
  kernel.foldlM (fun d v =>
    match d.find v with
    | none => .error (.kernelOutsideEnvelope v)
    | some i => .ok (d.assign i .required)) free

/-- Puts `v` into the kernel. -/
def require (d : SetDomain) (v : Int32) : Narrowed SetDomain :=
  match d.find v with
  | none => .emptied
  | some i =>
    match d.elements[i].membership with
    | .required => .unchanged
    | .possible => .changed (d.assign i .required)
    | .excluded => .emptied

/-- Takes `v` out of the envelope. -/
def exclude (d : SetDomain) (v : Int32) : Narrowed SetDomain :=
  match d.find v with
  | none => .unchanged
  | some i =>
    match d.elements[i].membership with
    | .excluded => .unchanged
    | .possible => .changed (d.assign i .excluded)
    | .required => .emptied

/-- Makes `v` undecided again. -/
def release (d : SetDomain) (v : Int32) : SetDomain :=
  match d.find v with
  | none => d
  | some i => d.assign i .possible

private theorem undecided_assign (d : SetDomain) (i : Fin d.elements.size) (m : Membership)
    (hi : d.elements[i].membership = .possible) (hm : m ≠ .possible) :
    (d.assign i m).undecided + 1 = d.undecided := by
  have hpos : 0 < d.elements.countP (·.membership = .possible) :=
    Array.countP_pos_iff.2 ⟨d.elements[i], by simp, by simpa using hi⟩
  simp only [undecided, assign, Array.countP_set]
  simp_all

theorem undecided_of_require {d e : SetDomain} {v : Int32} (h : d.require v = .changed e) :
    e.undecided + 1 = d.undecided := by
  unfold require at h
  split at h
  · cases h
  · split at h <;> cases h
    exact undecided_assign d _ _ (by assumption) (by decide)

theorem undecided_of_exclude {d e : SetDomain} {v : Int32} (h : d.exclude v = .changed e) :
    e.undecided + 1 = d.undecided := by
  unfold exclude at h
  split at h
  · cases h
  · split at h <;> cases h
    exact undecided_assign d _ _ (by assumption) (by decide)

end SetDomain

end SetConstraints
