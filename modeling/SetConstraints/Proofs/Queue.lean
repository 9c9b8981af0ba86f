import Mathlib.Data.List.Nodup
import SetConstraints.Proofs.Table
import SetConstraints.Queue

/-!
# What the queue keeps

The lines alone say who waits and which levels are in use; the rest of a well formed queue agrees with them
(`Queue.WellFormed`).  Hence the queue is out of propagators exactly if nobody waits (`pop_eq_none_iff`), and who
waits after an operation is what one expects (`isWaiting_enqueue`, `isWaiting_pop`, `isWaiting_clear`).
-/

namespace SetConstraints

namespace Queue

/-- What is kept beside the lines agrees with them, and nobody is in line twice. -/
structure WellFormed (q : Queue) : Prop where
  levels : Priority.count ≤ q.lines.size
  isWaiting_iff : ∀ p, q.isWaiting p = true ↔ ∃ l, p ∈ q.line l
  level_eq : ∀ p l m, p ∈ q.line l → p ∈ q.line m → l = m
  nodup : ∀ l, (q.line l).Nodup
  mem_inUse_iff : ∀ l, l ∈ q.inUse ↔ q.line l ≠ []
  increasing : q.inUse.Pairwise (· < ·)
  count_eq : q.count = q.held

variable {q r : Queue} {p x : PropagatorId} {priority : Priority}

private theorem line_of_set {lines : Array (List PropagatorId)} {level : Nat} (h : level < lines.size)
    (line : List PropagatorId) (l : Nat) :
    (lines.setIfInBounds level line)[l]?.getD [] = if l = level then line else lines[l]?.getD [] := by
  rw [Array.getElem?_setIfInBounds]
  by_cases hl : level = l
  · subst hl
    simp [h]
  · simp [hl, Ne.symm hl]

private theorem level_lt (hq : q.WellFormed) (priority : Priority) : priority.level < q.lines.size :=
  Nat.lt_of_lt_of_le priority.level_lt_count hq.levels

private theorem lt_of_line_ne_nil {l : Nat} (h : q.line l ≠ []) : l < q.lines.size := by
  by_contra hl
  exact h (by simp [line, Array.getElem?_eq_none (Nat.not_lt.1 hl)])

private theorem held_set {level : Nat} (line : List PropagatorId) (h : level < q.lines.size) (q' : Queue)
    (hq' : q'.lines = q.lines.setIfInBounds level line) : q'.held + (q.line level).length = q.held + line.length := by
  have hget : q.lines.toList[level]? = some (q.line level) := by
    simp [Queue.line, Array.getElem?_eq_getElem h]
  have := Table.sum_map_set List.length q.lines.toList level line (q.line level) hget
  simpa [held, hq'] using this

/-! ### The empty queue -/

theorem line_new (n l : Nat) : (new n).line l = [] := by
  simp only [line, new, Array.getElem?_replicate]
  split <;> rfl

private theorem held_eq_zero (h : ∀ b ∈ q.lines.toList, b = []) : q.held = 0 := by
  rw [held]
  generalize q.lines.toList = lines at h
  induction lines with
  | nil => rfl
  | cons b l ih =>
    rw [List.map_cons, List.foldr_cons, ih fun c hc => h c (by simp [hc]), h b (by simp)]
    rfl

theorem wellFormed_new {n : Nat} (hn : Priority.count ≤ n) : (new n).WellFormed where
  levels := by simpa [new] using hn
  isWaiting_iff p := by
    simp only [line_new]
    simp [isWaiting, new, Table.get?]
  level_eq p l m h := by simp [line_new] at h
  nodup l := by simp [line_new]
  mem_inUse_iff l := by
    rw [line_new]
    simp [new]
  increasing := .nil
  count_eq := (held_eq_zero (by simp [new])).symm

/-! ### Enqueueing -/

private theorem mem_insertLevel {k l : Nat} {ls : List Nat} : k ∈ insertLevel l ls ↔ k = l ∨ k ∈ ls := by
  fun_induction insertLevel l ls <;> grind

private theorem pairwise_insertLevel {l : Nat} {ls : List Nat} (h : ls.Pairwise (· < ·)) (hl : l ∉ ls) :
    (insertLevel l ls).Pairwise (· < ·) := by
  fun_induction insertLevel l ls <;> grind [mem_insertLevel, List.pairwise_cons]

/-- Who is waiting already stays where it is. -/
theorem enqueue_of_isWaiting (h : q.isWaiting p = true) (priority : Priority) : q.enqueue p priority = q := by
  simp [enqueue, h]

theorem isWaiting_enqueue (q : Queue) (p : PropagatorId) (priority : Priority) (x : PropagatorId) :
    (q.enqueue p priority).isWaiting x = true ↔ x = p ∨ q.isWaiting x = true := by
  unfold enqueue
  split
  · rename_i hp
    exact ⟨.inr, fun h => h.elim (fun hx => hx ▸ hp) id⟩
  · simp only [isWaiting, Table.get?_set, Table.get?_growTo, Key.index_inj]
    by_cases hx : p = x
    · subst hx
      by_cases hlt : Key.index p < q.waiting.size <;> simp [hlt]
      rw [← Table.isSome_get?_iff] at hlt
      obtain ⟨b, hb⟩ := Option.isSome_iff_exists.1 hlt
      simp [hb]
    · have hx' : x ≠ p := fun h => hx h.symm
      simp only [hx, hx', if_false, false_or]
      by_cases hlt : Key.index x < q.waiting.size
      · simp [hlt]
      · have : q.waiting.get? x = none := (Table.get?_eq_none_iff _ _).2 (Nat.not_lt.1 hlt)
        simp only [hlt, this, if_false]
        split <;> simp

/-- A newcomer is last in the line of its priority. -/
theorem line_enqueue (hq : q.WellFormed) (hp : q.isWaiting p = false) (priority : Priority) (l : Nat) :
    (q.enqueue p priority).line l = if l = priority.level then q.line l ++ [p] else q.line l := by
  simp only [enqueue, hp, Bool.false_eq_true, if_false]
  refine (line_of_set (level_lt hq priority) _ l).trans ?_
  split
  · rename_i hl
    rw [hl]
  · rfl

private theorem not_mem_line (hq : q.WellFormed) (hp : q.isWaiting p = false) (l : Nat) : p ∉ q.line l := by
  intro hl
  have := (hq.isWaiting_iff p).2 ⟨l, hl⟩
  simp [hp] at this

theorem mem_line_enqueue (hq : q.WellFormed) (hp : q.isWaiting p = false) (priority : Priority) (l : Nat) :
    x ∈ (q.enqueue p priority).line l ↔ x ∈ q.line l ∨ x = p ∧ l = priority.level := by
  rw [line_enqueue hq hp]
  split
  · rename_i hl
    simp [hl]
  · rename_i hl
    simp [hl]

private theorem inUse_enqueue (hp : q.isWaiting p = false) (priority : Priority) :
    (q.enqueue p priority).inUse =
      if q.line priority.level = [] then insertLevel priority.level q.inUse else q.inUse := by
  simp [enqueue, hp]

private theorem mem_inUse_enqueue (hq : q.WellFormed) (hp : q.isWaiting p = false) (priority : Priority) (l : Nat) :
    l ∈ (q.enqueue p priority).inUse ↔ l = priority.level ∨ l ∈ q.inUse := by
  rw [inUse_enqueue hp]
  split
  · exact mem_insertLevel
  · rename_i hne
    have : priority.level ∈ q.inUse := (hq.mem_inUse_iff _).2 hne
    exact ⟨.inr, fun h => h.elim (fun hl => hl ▸ this) id⟩

private theorem count_enqueue (hq : q.WellFormed) (hp : q.isWaiting p = false) (priority : Priority) :
    (q.enqueue p priority).count = (q.enqueue p priority).held := by
  have := held_set (q.line priority.level ++ [p]) (level_lt hq priority) (q.enqueue p priority)
    (by simp [enqueue, hp])
  have hc := hq.count_eq
  simp only [enqueue, hp, Bool.false_eq_true, if_false, List.length_append, List.length_singleton] at this ⊢
  omega

private theorem wellFormed_newcomer (hq : q.WellFormed) (hp : q.isWaiting p = false) (priority : Priority) :
    (q.enqueue p priority).WellFormed where
  levels := by simpa [enqueue, hp] using hq.levels
  isWaiting_iff y := by
    rw [isWaiting_enqueue, hq.isWaiting_iff]
    simp only [mem_line_enqueue hq hp]
    constructor
    · rintro (rfl | ⟨l, hl⟩)
      · exact ⟨_, .inr ⟨rfl, rfl⟩⟩
      · exact ⟨l, .inl hl⟩
    · rintro ⟨l, hl | ⟨rfl, -⟩⟩
      · exact .inr ⟨l, hl⟩
      · exact .inl rfl
  level_eq y l m := by
    rw [mem_line_enqueue hq hp, mem_line_enqueue hq hp]
    rintro (h | ⟨rfl, h⟩) (k | ⟨hy, k⟩)
    · exact hq.level_eq y l m h k
    · exact absurd (hy ▸ h) (not_mem_line hq hp l)
    · exact absurd k (not_mem_line hq hp m)
    · rw [h, k]
  nodup l := by
    rw [line_enqueue hq hp]
    split
    · rw [← List.concat_eq_append]
      exact (hq.nodup l).concat (not_mem_line hq hp l)
    · exact hq.nodup l
  mem_inUse_iff l := by
    rw [mem_inUse_enqueue hq hp, hq.mem_inUse_iff, line_enqueue hq hp]
    split
    · rename_i hl
      simp [hl]
    · rename_i hl
      simp [hl]
  increasing := by
    rw [inUse_enqueue hp]
    split
    · rename_i hempty
      exact pairwise_insertLevel hq.increasing fun h => (hq.mem_inUse_iff _).1 h hempty
    · exact hq.increasing
  count_eq := count_enqueue hq hp priority

theorem wellFormed_enqueue (hq : q.WellFormed) (p : PropagatorId) (priority : Priority) :
    (q.enqueue p priority).WellFormed := by
  cases hp : q.isWaiting p with
  | true => rwa [enqueue_of_isWaiting hp]
  | false => exact wellFormed_newcomer hq hp priority

/-! ### Taking the next propagator -/

theorem pop_eq_none_iff (hq : q.WellFormed) : q.pop = none ↔ ∀ p, q.isWaiting p = false := by
  unfold pop
  cases hu : q.inUse with
  | nil =>
    refine iff_of_true rfl fun p => ?_
    rw [← Bool.not_eq_true, hq.isWaiting_iff]
    rintro ⟨l, hl⟩
    have := (hq.mem_inUse_iff l).2 (List.ne_nil_of_mem hl)
    simp [hu] at this
  | cons level others =>
    have hne := (hq.mem_inUse_iff level).1 (by simp [hu])
    cases hl : q.line level with
    | nil => exact absurd hl hne
    | cons p line =>
      refine iff_of_false (by simp [hl]) fun hall => ?_
      have := (hq.isWaiting_iff p).2 ⟨level, by simp [hl]⟩
      simp [hall p] at this

private theorem pop_eq_some (h : q.pop = some (p, r)) :
    ∃ level others line, q.inUse = level :: others ∧ q.line level = p :: line ∧
      r = { lines := q.lines.setIfInBounds level line
            waiting := q.waiting.set p false
            count := q.count - 1
            inUse := if line.isEmpty then others else q.inUse } := by
  unfold pop at h
  split at h
  · cases h
  · rename_i level others hu
    split at h
    · cases h
    · rename_i p' line hl
      cases h
      exact ⟨level, others, line, hu, hl, rfl⟩

/-- The propagator taken is the first in the line of the most urgent level in use. -/
theorem line_pop (hq : q.WellFormed) (h : q.pop = some (p, r)) :
    ∃ level line, q.line level = p :: line ∧ (∀ m < level, q.line m = []) ∧
      ∀ l, r.line l = if l = level then line else q.line l := by
  obtain ⟨level, others, line, hu, hl, rfl⟩ := pop_eq_some h
  have hinc := hq.increasing
  rw [hu, List.pairwise_cons] at hinc
  refine ⟨level, line, hl, fun m hm => ?_, line_of_set (lt_of_line_ne_nil (by simp [hl])) line⟩
  by_contra hne
  have := (hq.mem_inUse_iff m).2 hne
  rw [hu, List.mem_cons] at this
  rcases this with rfl | hmem
  · omega
  · have := hinc.1 m hmem
    omega

theorem isWaiting_pop (hq : q.WellFormed) (h : q.pop = some (p, r)) :
    q.isWaiting p = true ∧ ∀ x, r.isWaiting x = true ↔ x ≠ p ∧ q.isWaiting x = true := by
  obtain ⟨level, others, line, hu, hl, rfl⟩ := pop_eq_some h
  have hp := (hq.isWaiting_iff p).2 ⟨level, by simp [hl]⟩
  refine ⟨hp, fun x => ?_⟩
  by_cases hx : x = p
  · subst hx
    cases hg : q.waiting.get? x with
    | none => simp [isWaiting, hg] at hp
    | some b => simp [isWaiting, Table.get?_set_self hg]
  · simp [isWaiting, hx, Table.get?_set_ne _ hx]

/-- Only the propagator taken has left its line. -/
theorem mem_line_pop (hq : q.WellFormed) (h : q.pop = some (p, r)) (l : Nat) :
    x ∈ r.line l ↔ x ≠ p ∧ x ∈ q.line l := by
  obtain ⟨level, line, hl, -, hline⟩ := line_pop hq h
  have hnd := hq.nodup level
  rw [hl, List.nodup_cons] at hnd
  rw [hline]
  split
  · rename_i hlevel
    rw [hlevel, hl, List.mem_cons]
    constructor
    · intro hx
      exact ⟨fun hxp => hnd.1 (hxp ▸ hx), .inr hx⟩
    · rintro ⟨hne, hx⟩
      exact hx.resolve_left hne
  · rename_i hlevel
    refine ⟨fun hx => ⟨?_, hx⟩, And.right⟩
    rintro rfl
    exact hlevel (hq.level_eq x l level hx (by simp [hl]))

private theorem nodup_line_pop (hq : q.WellFormed) (h : q.pop = some (p, r)) (l : Nat) : (r.line l).Nodup := by
  obtain ⟨level, line, hl, -, hline⟩ := line_pop hq h
  have hnd := hq.nodup level
  rw [hl] at hnd
  rw [hline]
  split
  · exact hnd.of_cons
  · exact hq.nodup l

private theorem mem_inUse_pop (hq : q.WellFormed) (h : q.pop = some (p, r)) (l : Nat) :
    l ∈ r.inUse ↔ r.line l ≠ [] := by
  obtain ⟨level, line, hl, -, hline⟩ := line_pop hq h
  obtain ⟨level', others, line', hu, hl', rfl⟩ := pop_eq_some h
  obtain rfl : level = level' := hq.level_eq p _ _ (by simp [hl]) (by simp [hl'])
  obtain rfl : line = line' := (List.cons.inj (hl.symm.trans hl')).2
  have hinc := hq.increasing
  have hmem := hq.mem_inUse_iff l
  rw [hu] at hinc hmem
  rw [hline]
  cases line with
  | nil =>
    by_cases hlevel : l = level
    · subst hlevel
      simpa using fun hlo => Nat.lt_irrefl _ ((List.pairwise_cons.1 hinc).1 l hlo)
    · simpa [hlevel] using hmem
  | cons z zs =>
    by_cases hlevel : l = level
    · simp [hlevel, hu]
    · simpa [hlevel, hu] using hmem

theorem wellFormed_pop (hq : q.WellFormed) (h : q.pop = some (p, r)) : r.WellFormed where
  levels := by
    obtain ⟨level, others, line, -, -, rfl⟩ := pop_eq_some h
    simpa using hq.levels
  isWaiting_iff y := by
    rw [(isWaiting_pop hq h).2, hq.isWaiting_iff]
    simp only [mem_line_pop hq h, exists_and_left]
  level_eq y l m hy hy' :=
    hq.level_eq y l m ((mem_line_pop hq h l).1 hy).2 ((mem_line_pop hq h m).1 hy').2
  nodup := nodup_line_pop hq h
  mem_inUse_iff := mem_inUse_pop hq h
  increasing := by
    obtain ⟨level, others, line, hu, -, rfl⟩ := pop_eq_some h
    have hinc := hq.increasing
    simp only
    split
    · rw [hu] at hinc
      exact hinc.of_cons
    · exact hinc
  count_eq := by
    have hheld := held_pop h
    have hc := hq.count_eq
    obtain ⟨level, others, line, -, -, rfl⟩ := pop_eq_some h
    simp only at hheld ⊢
    omega

/-! ### Sending everyone away -/

private theorem line_of_foldl (lines : Array (List PropagatorId)) (levels : List Nat) (l : Nat) :
    ((levels.foldl (fun lines level => lines.setIfInBounds level []) lines)[l]?).getD [] =
      if l ∈ levels then [] else lines[l]?.getD [] := by
  induction levels generalizing lines with
  | nil => simp
  | cons level levels ih =>
    rw [List.foldl_cons, ih]
    by_cases hmem : l ∈ levels
    · simp [hmem]
    · by_cases hl : level = l
      · subst hl
        simp only [hmem, if_false, List.mem_cons_self, if_true, Array.getElem?_setIfInBounds]
        split <;> rfl
      · simp [hmem, Ne.symm hl, hl]

theorem line_clear (hq : q.WellFormed) (l : Nat) : q.clear.line l = [] := by
  refine (line_of_foldl q.lines q.inUse l).trans ?_
  split
  · rfl
  · rename_i hno
    rw [hq.mem_inUse_iff, not_not] at hno
    exact hno

theorem isWaiting_clear (q : Queue) (p : PropagatorId) : q.clear.isWaiting p = false := by
  simp only [isWaiting, clear, Table.get?_map]
  cases q.waiting.get? p <;> rfl

private theorem size_foldl (lines : Array (List PropagatorId)) (levels : List Nat) :
    (levels.foldl (fun lines level => lines.setIfInBounds level []) lines).size = lines.size := by
  induction levels generalizing lines with
  | nil => rfl
  | cons level levels ih => simp [ih]

theorem wellFormed_clear (hq : q.WellFormed) : q.clear.WellFormed where
  levels := by simpa [clear, size_foldl] using hq.levels
  isWaiting_iff p := by simp [isWaiting_clear, line_clear hq]
  level_eq p l m h := by simp [line_clear hq] at h
  nodup l := by simp [line_clear hq]
  mem_inUse_iff l := by
    rw [line_clear hq]
    simp [clear]
  increasing := .nil
  count_eq := by
    refine (held_eq_zero fun b hb => ?_).symm
    obtain ⟨l, hl, rfl⟩ := List.mem_iff_getElem.1 hb
    have := line_clear hq l
    simp only [line] at this
    rw [Array.getElem?_eq_getElem (by simpa using hl)] at this
    simpa using this

/-! ### Everyone in line -/

private theorem getElem?_lines {q : Queue} {l : Nat} {b : List PropagatorId} (h : q.lines.toList[l]? = some b) :
    q.line l = b := by
  rw [Array.getElem?_toList] at h
  rw [line, h, Option.getD_some]

/-- Those in any line are those who wait. -/
theorem mem_flatten_lines (hq : q.WellFormed) : p ∈ q.lines.toList.flatten ↔ q.isWaiting p = true := by
  rw [hq.isWaiting_iff, List.mem_flatten]
  constructor
  · rintro ⟨b, hb, hp⟩
    obtain ⟨l, hl⟩ := List.getElem?_of_mem hb
    exact ⟨l, by rwa [getElem?_lines hl]⟩
  · rintro ⟨l, hl⟩
    have hlt := lt_of_line_ne_nil (List.ne_nil_of_mem hl)
    have hget : q.lines.toList[l]? = some (q.line l) := by
      rw [Array.getElem?_toList, line, Array.getElem?_eq_getElem hlt, Option.getD_some]
    exact ⟨_, List.mem_of_getElem? hget, hl⟩

/-- Nobody is in two places. -/
theorem nodup_flatten_lines (hq : q.WellFormed) : q.lines.toList.flatten.Nodup := by
  refine List.nodup_flatten.2 ⟨fun b hb => ?_, List.pairwise_iff_getElem.2 fun i j hi hj hij => ?_⟩
  · obtain ⟨l, hl⟩ := List.getElem?_of_mem hb
    rw [← getElem?_lines hl]
    exact hq.nodup l
  · intro p hp hp'
    rw [← getElem?_lines (List.getElem?_eq_getElem hi)] at hp
    rw [← getElem?_lines (List.getElem?_eq_getElem hj)] at hp'
    exact absurd (hq.level_eq p i j hp hp') (Nat.ne_of_lt hij)

end Queue

end SetConstraints
