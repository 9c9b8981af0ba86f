/-!
# Tables indexed by typed keys

A table keeps consecutive entries and is read and written through keys of one type, so that the key of a set
variable cannot look up an integer variable.  What an operation does is said through `get?`: `get?_push`,
`get?_set`, `get?_growTo`.
-/

namespace SetConstraints

/-- Types whose values stand for the positions `0, 1, 2, …`. -/
class Key (κ : Type) where
  index : κ → Nat
  ofIndex : Nat → κ
  index_ofIndex : ∀ i, index (ofIndex i) = i
  ofIndex_index : ∀ k, ofIndex (index k) = k

/-- Consecutive entries under the keys of position `0, 1, 2, …`. -/
structure Table (κ α : Type) where
  entries : Array α := #[]
  deriving DecidableEq, Repr

namespace Table

variable {κ α β : Type}

def size (t : Table κ α) : Nat := t.entries.size

def isEmpty (t : Table κ α) : Bool := t.entries.isEmpty

def toList (t : Table κ α) : List α := t.entries.toList

def push (t : Table κ α) (a : α) : Table κ α := ⟨t.entries.push a⟩

def map (t : Table κ α) (f : α → β) : Table κ β := ⟨t.entries.map f⟩

@[simp] theorem size_push (t : Table κ α) (a : α) : (t.push a).size = t.size + 1 := by
  simp [size, push]

/-- The sum of a quantity over all entries. -/
def sum (t : Table κ α) (f : α → Nat) : Nat := (t.toList.map f).foldr (· + ·) 0

variable [Key κ]

/-- The keys in use, in order. -/
def keys (t : Table κ α) : List κ := (List.range t.size).map Key.ofIndex

/-- The key under which the next entry is pushed. -/
def nextKey (t : Table κ α) : κ := Key.ofIndex t.size

def get? (t : Table κ α) (k : κ) : Option α := t.entries[Key.index k]?

/-- Overwrites the entry under `k`; a table that does not reach `k` stays as it is. -/
def set (t : Table κ α) (k : κ) (a : α) : Table κ α := ⟨t.entries.setIfInBounds (Key.index k) a⟩

def modify (t : Table κ α) (k : κ) (f : α → α) : Table κ α :=
  match t.get? k with
  | none => t
  | some a => t.set k (f a)

/-- Appends copies of `a` until `k` is in use; entries already there are kept. -/
def growTo (t : Table κ α) (k : κ) (a : α) : Table κ α :=
  ⟨t.entries ++ Array.replicate (Key.index k + 1 - t.size) a⟩

@[simp] theorem size_set (t : Table κ α) (k : κ) (a : α) : (t.set k a).size = t.size := by
  simp [size, set]

theorem get?_push (t : Table κ α) (a : α) (k : κ) :
    (t.push a).get? k = if Key.index k = t.size then some a else t.get? k := by
  simp only [get?, push, size, Array.getElem?_push]
  split <;> simp_all

theorem get?_set (t : Table κ α) (k k' : κ) (a : α) :
    (t.set k a).get? k' = if Key.index k = Key.index k' then (t.get? k).map fun _ => a else t.get? k' := by
  simp only [get?, set, Array.getElem?_setIfInBounds]
  split
  · split
    · simp_all
    · simp_all
  · rfl

theorem get?_eq_none_iff (t : Table κ α) (k : κ) : t.get? k = none ↔ t.size ≤ Key.index k := by
  simp [get?, size]

theorem get?_growTo (t : Table κ α) (k k' : κ) (a : α) :
    (t.growTo k a).get? k' =
      if Key.index k' < t.size then t.get? k' else if Key.index k' ≤ Key.index k then some a else none := by
  simp only [get?, growTo, size, Array.getElem?_append, Array.getElem?_replicate]
  grind

theorem sum_map_set (f : α → Nat) (l : List α) (i : Nat) (a b : α) (h : l[i]? = some b) :
    ((l.set i a).map f).foldr (· + ·) 0 + f b = (l.map f).foldr (· + ·) 0 + f a := by
  induction l generalizing i with
  | nil => simp at h
  | cons c l ih =>
    cases i with
    | zero => simp_all; omega
    | succ i => have := ih i (by simpa using h); simp at this ⊢; omega

theorem sum_set {t : Table κ α} {k : κ} {b : α} (h : t.get? k = some b) (a : α) (f : α → Nat) :
    (t.set k a).sum f + f b = t.sum f + f a := by
  simp only [sum, toList, set, Array.toList_setIfInBounds]
  exact sum_map_set f _ _ a b (by simpa [get?] using h)

private theorem le_sum_map (f : α → Nat) (l : List α) (i : Nat) (b : α) (h : l[i]? = some b) :
    f b ≤ (l.map f).foldr (· + ·) 0 := by
  induction l generalizing i with
  | nil => simp at h
  | cons c l ih =>
    cases i with
    | zero => simp_all
    | succ i => have := ih i (by simpa using h); simp; omega

theorem le_sum {t : Table κ α} {k : κ} {b : α} (h : t.get? k = some b) (f : α → Nat) : f b ≤ t.sum f :=
  le_sum_map f _ _ b (by simpa [get?, toList] using h)

end Table

end SetConstraints
