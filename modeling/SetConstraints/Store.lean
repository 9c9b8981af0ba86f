import SetConstraints.Domains
import SetConstraints.Trail

/-!
# Stores

A store keeps the domains together with what takes their changes back and with the changes that nobody has been
told about yet.  Going back to a level restores the domains that held when the level was opened, and makes the
pending changes void.
-/

namespace SetConstraints

structure Store where
  domains : Domains := {}
  trail : Trail Undo := {}
  /-- The changes not yet delivered, oldest first. -/
  changes : Array Change := #[]
  deriving DecidableEq, Repr

namespace Store

/-- The number of open levels. -/
def depth (s : Store) : Nat := s.trail.depth

/-- Performs a narrowing, keeping what takes it back and the changes it made. -/
def narrow (s : Store) (n : Narrowing) : Except (Stop Contradiction) Store :=
  match s.domains.narrow n with
  | .error e => .error e
  | .ok none => .ok s
  | .ok (some e) => .ok
    { domains := e.domains, trail := s.trail.push e.undo, changes := s.changes ++ e.changes.toArray }

/-- Opens a level. -/
def mark (s : Store) : Store := { s with trail := s.trail.mark }

/-- Closes all levels above `level`. -/
def rewind (s : Store) (level : Nat) : Store :=
  let (undone, trail) := s.trail.rewind level
  { domains := undone.foldl Domains.takeBack s.domains, trail := trail, changes := #[] }

/-- A bound on the number of changes that are pending or still possible. -/
def potential (s : Store) : Nat := s.changes.size + s.domains.potential

theorem potential_of_narrow {s t : Store} {n : Narrowing} (h : s.narrow n = .ok t) : t.potential ≤ s.potential := by
  unfold narrow at h
  split at h <;> cases h
  · exact Nat.le_refl _
  · rename_i e he
    have := Domains.potential_of_narrow he
    simp [potential]
    omega

end Store

end SetConstraints
