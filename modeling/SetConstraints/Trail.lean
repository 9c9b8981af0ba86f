/-!
# Trails

A trail records entries under nested levels, so that everything recorded since a level was opened can be taken
back, newest first.  Level `0` is always open.  `entries_push`, `entries_mark` and `undo_append` say that the
entries of a trail are a stack that opening a level leaves alone and going back cuts.
-/

namespace SetConstraints

/-- The entries of the innermost level and those below each open level, all newest first. -/
structure Trail (α : Type) where
  recent : List α := []
  below : List (List α) := []
  deriving DecidableEq, Repr

namespace Trail

variable {α : Type}

/-- The number of levels opened and not closed. -/
def depth (t : Trail α) : Nat := t.below.length

/-- All entries, newest first. -/
def entries (t : Trail α) : List α := t.recent ++ t.below.flatten

def push (t : Trail α) (a : α) : Trail α := { t with recent := a :: t.recent }

/-- Opens a level. -/
def mark (t : Trail α) : Trail α := ⟨[], t.recent :: t.below⟩

/-- Closes `n` levels; the entries recorded in them come back newest first. -/
def undo : Nat → Trail α → List α × Trail α
  | 0, t => ([], t)
  | _ + 1, ⟨recent, []⟩ => ([], ⟨recent, []⟩)
  | n + 1, ⟨recent, outer :: below⟩ =>
    let (older, t) := undo n ⟨outer, below⟩
    (recent ++ older, t)

/-- Closes all levels above `level`. -/
def rewind (t : Trail α) (level : Nat) : List α × Trail α := undo (t.depth - level) t

@[simp] theorem depth_push (t : Trail α) (a : α) : (t.push a).depth = t.depth := rfl

@[simp] theorem depth_mark (t : Trail α) : t.mark.depth = t.depth + 1 := rfl

@[simp] theorem entries_push (t : Trail α) (a : α) : (t.push a).entries = a :: t.entries := rfl

@[simp] theorem entries_mark (t : Trail α) : t.mark.entries = t.entries := by simp [entries, mark]

theorem undo_append (n : Nat) (t : Trail α) : (undo n t).1 ++ (undo n t).2.entries = t.entries := by
  fun_induction undo n t with
  | case1 t => rfl
  | case2 n recent => rfl
  | case3 n recent outer below older t h ih =>
    simp only [h, entries] at ih ⊢
    simp [ih]

theorem depth_undo (n : Nat) (t : Trail α) : (undo n t).2.depth = t.depth - n := by
  fun_induction undo n t with
  | case1 t => rfl
  | case2 n recent => simp [depth]
  | case3 n recent outer below older t h ih => simp_all [depth]

end Trail

end SetConstraints
