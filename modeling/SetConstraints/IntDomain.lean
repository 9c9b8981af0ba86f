import SetConstraints.Narrowed
import SetConstraints.Value

/-!
# Domains of integer variables

The value of an integer variable lies between two bounds, which never cross.  The distance between them is what
narrowing uses up: `width_of_atLeast`, `width_of_atMost`.
-/

namespace SetConstraints

structure IntDomain where
  low : Int32
  high : Int32
  low_le_high : low ≤ high
  deriving DecidableEq, Repr

namespace IntDomain

def isFixed (d : IntDomain) : Bool := d.low = d.high

/-- The number of steps between the bounds. -/
def width (d : IntDomain) : Nat := (d.high.toInt - d.low.toInt).toNat

/-- Raises the lower bound to `v`. -/
def atLeast (d : IntDomain) (v : Int32) : Narrowed IntDomain :=
  if v ≤ d.low then .unchanged
  else if h : v ≤ d.high then .changed ⟨v, d.high, h⟩
  else .emptied

/-- Lowers the upper bound to `v`. -/
def atMost (d : IntDomain) (v : Int32) : Narrowed IntDomain :=
  if d.high ≤ v then .unchanged
  else if h : d.low ≤ v then .changed ⟨d.low, v, h⟩
  else .emptied

theorem width_of_atLeast {d e : IntDomain} {v : Int32} (h : d.atLeast v = .changed e) :
    e.width + 1 ≤ d.width := by
  unfold atLeast at h
  split at h
  · cases h
  · rename_i hne
    split at h <;> cases h
    rename_i hle
    have hle := Int32.le_iff_toInt_le.1 hle
    simp only [width, Int32.le_iff_toInt_le] at *
    omega

theorem width_of_atMost {d e : IntDomain} {v : Int32} (h : d.atMost v = .changed e) :
    e.width + 1 ≤ d.width := by
  unfold atMost at h
  split at h
  · cases h
  · rename_i hne
    split at h <;> cases h
    rename_i hle
    have hle := Int32.le_iff_toInt_le.1 hle
    simp only [width, Int32.le_iff_toInt_le] at *
    omega

end IntDomain

end SetConstraints
