/-!
# Values

Elements of sets and values of integer variables are 32-bit integers, over the whole range.  The largest has no
successor, which is where bounds could leave the range.
-/

namespace SetConstraints

/-- The next larger value, if there is one. -/
def next? (v : Int32) : Option Int32 := if v = Int32.maxValue then none else some (v + 1)

@[simp] theorem next?_eq_none_iff (v : Int32) : next? v = none ↔ v = Int32.maxValue := by
  simp [next?]

theorem toInt_of_next? {v w : Int32} (h : next? v = some w) : w.toInt = v.toInt + 1 := by
  unfold next? at h
  split at h
  · cases h
  · rename_i hne
    cases h
    have hne : v.toInt ≠ 2147483647 := fun e => hne (Int32.toInt_inj.1 (by rw [e]; decide))
    have hle : v.toInt ≤ 2147483647 := v.toInt_le
    have hge : -2147483648 ≤ v.toInt := v.le_toInt
    rw [Int32.toInt_add, Int32.toInt_one]
    exact Int.bmod_eq_of_le (by omega) (by omega)

/-- Inserts a value into a strictly increasing list, once. -/
def insertValue (v : Int32) : List Int32 → List Int32
  | [] => [v]
  | w :: l => if v < w then v :: w :: l else if v = w then w :: l else w :: insertValue v l

/-- The values of a list in increasing order, each once. -/
def sortValues (l : List Int32) : List Int32 := l.foldr insertValue []

theorem mem_insertValue (v w : Int32) (l : List Int32) : w ∈ insertValue v l ↔ w = v ∨ w ∈ l := by
  fun_induction insertValue v l <;> grind

@[simp] theorem mem_sortValues (v : Int32) (l : List Int32) : v ∈ sortValues l ↔ v ∈ l := by
  induction l with
  | nil => simp [sortValues]
  | cons w l ih => simp_all [sortValues, mem_insertValue]

theorem pairwise_insertValue {l : List Int32} (h : l.Pairwise (· < ·)) (v : Int32) :
    (insertValue v l).Pairwise (· < ·) := by
  fun_induction insertValue v l <;> grind [mem_insertValue, List.pairwise_cons]

theorem pairwise_sortValues (l : List Int32) : (sortValues l).Pairwise (· < ·) := by
  induction l with
  | nil => simp [sortValues]
  | cons w l ih => exact pairwise_insertValue ih w

end SetConstraints
