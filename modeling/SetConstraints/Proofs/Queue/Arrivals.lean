import Mathlib.Data.List.MinMax
import SetConstraints.Proofs.Queue

/-!
# Queues as lists of arrivals

Those who wait are listed in the order in which they came, each with its priority.  A newcomer is put at the end of
the list, and of the most urgent the one who came first is taken.  A queue whose lines are the parts of this list that
have one priority answers all that is asked of it like the list (`Queue.Holds.serveAll`), so that nothing but the list
matters for what it does later on.
-/

namespace SetConstraints

/-- A propagator that has come to wait, with its priority. -/
structure Arrival where
  propagator : PropagatorId
  priority : Priority
  deriving DecidableEq

namespace Queue

/-- What is asked of a queue. -/
inductive Demand
  | enqueue (p : PropagatorId) (priority : Priority)
  | pop
  | clear

/-- Who is taken from the queue, if anyone, and the queue afterwards. -/
def serve (q : Queue) : Demand → Option PropagatorId × Queue
  | .enqueue p priority => (none, q.enqueue p priority)
  | .pop =>
    match q.pop with
    | none => (none, q)
    | some (p, r) => (some p, r)
  | .clear => (none, q.clear)

/-- What each of some demands takes from the queue, and the queue after all of them. -/
def serveAll (q : Queue) : List Demand → List (Option PropagatorId) × Queue
  | [] => ([], q)
  | d :: ds =>
    let (taken, q) := q.serve d
    let (more, q) := q.serveAll ds
    (taken :: more, q)

end Queue

namespace Arrival

open Queue (Demand)

/-- The propagators that wait with the priority of a level, in the order of arrival. -/
def line (as : List Arrival) (level : Nat) : List PropagatorId :=
  (as.filter (·.priority.level = level)).map Arrival.propagator

/-- Who is taken from a list of arrivals, which is the first of the most urgent, and the list afterwards. -/
def serve (as : List Arrival) : Demand → Option PropagatorId × List Arrival
  | .enqueue p priority => (none, if ∃ a ∈ as, a.propagator = p then as else as ++ [⟨p, priority⟩])
  | .pop =>
    match as.argmin (·.priority.level) with
    | none => (none, as)
    | some a => (some a.propagator, as.erase a)
  | .clear => (none, [])

/-- What each of some demands takes from a list of arrivals, and the list after all of them. -/
def serveAll (as : List Arrival) : List Demand → List (Option PropagatorId) × List Arrival
  | [] => ([], as)
  | d :: ds =>
    let (taken, as) := serve as d
    let (more, as) := serveAll as ds
    (taken :: more, as)

variable {as before after : List Arrival} {a : Arrival} {p : PropagatorId} {level : Nat}

theorem mem_line_iff : p ∈ line as level ↔ ∃ a ∈ as, a.propagator = p ∧ a.priority.level = level := by
  simp only [line, List.mem_map, List.mem_filter, decide_eq_true_eq]
  constructor
  · rintro ⟨a, ⟨ha, hl⟩, hp⟩
    exact ⟨a, ha, hp, hl⟩
  · rintro ⟨a, ha, hp, hl⟩
    exact ⟨a, ⟨ha, hl⟩, hp⟩

theorem line_append (as bs : List Arrival) (level : Nat) :
    line (as ++ bs) level = line as level ++ line bs level := by
  simp [line]

theorem line_cons (a : Arrival) (as : List Arrival) (level : Nat) :
    line (a :: as) level = if a.priority.level = level then a.propagator :: line as level else line as level := by
  unfold line
  by_cases h : a.priority.level = level
  · simp [h]
  · simp [h]

/-- The first in line, if nobody is more urgent, is the first of the most urgent. -/
theorem exists_split {rest : List PropagatorId} (hline : line as level = p :: rest)
    (hnone : ∀ m < level, line as m = []) :
    ∃ before priority after, as = before ++ ⟨p, priority⟩ :: after ∧ priority.level = level ∧
      (∀ b ∈ before, level < b.priority.level) ∧ ∀ b ∈ after, level ≤ b.priority.level := by
  have hle : ∀ b ∈ as, level ≤ b.priority.level := by
    intro b hb
    by_contra hlt
    have hb' : b.propagator ∈ line as b.priority.level := mem_line_iff.2 ⟨b, hb, rfl, rfl⟩
    rw [hnone _ (Nat.lt_of_not_le hlt)] at hb'
    cases hb'
  rw [line, List.map_eq_cons_iff] at hline
  obtain ⟨⟨p', priority⟩, more, hfilter, rfl, -⟩ := hline
  obtain ⟨before, after, rfl, hbefore, hlevel, -⟩ := List.filter_eq_cons_iff.1 hfilter
  refine ⟨before, priority, after, rfl, by simpa using hlevel, ?_, ?_⟩
  · intro b hb
    have hne : b.priority.level ≠ level := by simpa using hbefore b hb
    have := hle b (by simp [hb])
    omega
  · intro b hb
    exact hle b (by simp [hb])

/-- The first of the most urgent is what the minimum is. -/
theorem argmin_eq_some (hbefore : ∀ b ∈ before, a.priority.level < b.priority.level)
    (hafter : ∀ b ∈ after, a.priority.level ≤ b.priority.level) :
    (before ++ a :: after).argmin (·.priority.level) = some a := by
  have hno : a ∉ before := fun h => absurd (hbefore a h) (Nat.lt_irrefl _)
  rw [List.argmin_eq_some_iff]
  refine ⟨by simp, fun b hb => ?_, fun b hb hle => ?_⟩
  · rcases List.mem_append.1 hb with hb | hb
    · exact Nat.le_of_lt (hbefore b hb)
    · rcases List.mem_cons.1 hb with rfl | hb
      · exact Nat.le_refl _
      · exact hafter b hb
  · -- what is as urgent as `a` does not stand before it
    have hb' : b ∉ before := fun h => absurd (hbefore b h) (Nat.not_lt.2 hle)
    rw [List.idxOf_append_of_notMem hno, List.idxOf_append_of_notMem hb', List.idxOf_cons_self]
    omega

end Arrival

namespace Queue

variable {q r : Queue} {as : List Arrival} {p : PropagatorId} {priority : Priority} {n : Nat}

/-- The lines of a well-formed queue are those of a list of arrivals in which nobody is listed twice. -/
structure Holds (q : Queue) (as : List Arrival) : Prop where
  wellFormed : q.WellFormed
  nodup : (as.map Arrival.propagator).Nodup
  line_eq : ∀ level, q.line level = Arrival.line as level

theorem holds_new (hn : Priority.count ≤ n) : (new n).Holds [] where
  wellFormed := wellFormed_new hn
  nodup := List.nodup_nil
  line_eq level := line_new n level

theorem Holds.isWaiting_iff (h : q.Holds as) : q.isWaiting p = true ↔ ∃ a ∈ as, a.propagator = p := by
  rw [h.wellFormed.isWaiting_iff]
  simp only [h.line_eq, Arrival.mem_line_iff]
  constructor
  · rintro ⟨level, a, ha, hp, -⟩
    exact ⟨a, ha, hp⟩
  · rintro ⟨a, ha, hp⟩
    exact ⟨a.priority.level, a, ha, hp, rfl⟩

theorem Holds.enqueue (h : q.Holds as) (p : PropagatorId) (priority : Priority) :
    (q.enqueue p priority).Holds (if ∃ a ∈ as, a.propagator = p then as else as ++ [⟨p, priority⟩]) := by
  by_cases hp : ∃ a ∈ as, a.propagator = p
  · rw [if_pos hp, enqueue_of_isWaiting (h.isWaiting_iff.2 hp)]
    exact h
  · have hwaits : q.isWaiting p = false := by
      rw [← Bool.not_eq_true, h.isWaiting_iff]
      exact hp
    rw [if_neg hp]
    refine
      { wellFormed := wellFormed_enqueue h.wellFormed p priority
        nodup := ?_
        line_eq := fun level => ?_ }
    · rw [List.map_append, List.nodup_append]
      refine ⟨h.nodup, by simp, ?_⟩
      intro x hx y hy hxy
      obtain ⟨a, ha, rfl⟩ := List.mem_map.1 hx
      rw [List.map_singleton, List.mem_singleton] at hy
      exact hp ⟨a, ha, hxy.trans hy⟩
    · rw [line_enqueue h.wellFormed hwaits, h.line_eq, Arrival.line_append, Arrival.line_cons]
      by_cases hl : level = priority.level
      · rw [if_pos hl, if_pos hl.symm]
        rfl
      · have hl' : priority.level ≠ level := fun he => hl he.symm
        rw [if_neg hl, if_neg hl']
        exact (List.append_nil _).symm

/-- The one taken is the first of the most urgent. -/
theorem Holds.pop (h : q.Holds as) (hpop : q.pop = some (p, r)) :
    ∃ before priority after, as = before ++ ⟨p, priority⟩ :: after ∧
      (∀ b ∈ before, priority.level < b.priority.level) ∧ (∀ b ∈ after, priority.level ≤ b.priority.level) ∧
      r.Holds (before ++ after) := by
  obtain ⟨level, rest, hline, hnone, hlines⟩ := line_pop h.wellFormed hpop
  simp only [h.line_eq] at hline hnone hlines
  obtain ⟨before, priority, after, rfl, rfl, hbefore, hafter⟩ := Arrival.exists_split hline hnone
  have hnodup := h.nodup
  rw [List.map_append, List.map_cons] at hnodup
  refine ⟨before, priority, after, rfl, hbefore, hafter,
    { wellFormed := wellFormed_pop h.wellFormed hpop
      nodup := ?_
      line_eq := fun m => ?_ }⟩
  · rw [List.map_append]
    exact (List.perm_middle.nodup_iff.1 hnodup).of_cons
  · -- nobody before the one taken is in the same line
    have hbefore_line : Arrival.line before priority.level = [] := by
      rw [List.eq_nil_iff_forall_not_mem]
      intro x hx
      obtain ⟨b, hb, -, hl⟩ := Arrival.mem_line_iff.1 hx
      have := hbefore b hb
      omega
    rw [hlines]
    by_cases hm : m = priority.level
    · subst hm
      rw [Arrival.line_append, Arrival.line_cons, if_pos rfl, hbefore_line] at hline
      rw [if_pos rfl, Arrival.line_append, hbefore_line]
      exact (List.cons.inj hline).2.symm
    · have hm' : priority.level ≠ m := fun he => hm he.symm
      rw [if_neg hm, Arrival.line_append, Arrival.line_append, Arrival.line_cons, if_neg hm']

theorem Holds.clear (h : q.Holds as) : q.clear.Holds [] where
  wellFormed := wellFormed_clear h.wellFormed
  nodup := List.nodup_nil
  line_eq level := line_clear h.wellFormed level

theorem Holds.eq_nil_iff (h : q.Holds as) : q.pop = none ↔ as = [] := by
  rw [pop_eq_none_iff h.wellFormed]
  constructor
  · intro hnone
    rw [List.eq_nil_iff_forall_not_mem]
    intro a ha
    have hwaits : q.isWaiting a.propagator = true := h.isWaiting_iff.2 ⟨a, ha, rfl⟩
    rw [hnone a.propagator] at hwaits
    cases hwaits
  · rintro rfl p
    rw [← Bool.not_eq_true, h.isWaiting_iff]
    rintro ⟨a, ha, -⟩
    cases ha

/-- A queue does what the list of arrivals does. -/
theorem Holds.serve (h : q.Holds as) (d : Demand) :
    (q.serve d).1 = (Arrival.serve as d).1 ∧ (q.serve d).2.Holds (Arrival.serve as d).2 := by
  cases d with
  | enqueue p priority => exact ⟨rfl, h.enqueue p priority⟩
  | clear => exact ⟨rfl, h.clear⟩
  | pop =>
    cases hpop : q.pop with
    | none =>
      obtain rfl := h.eq_nil_iff.1 hpop
      simp only [Queue.serve, hpop, Arrival.serve, List.argmin_nil]
      exact ⟨trivial, h⟩
    | some pr =>
      obtain ⟨p, r⟩ := pr
      obtain ⟨before, priority, after, rfl, hbefore, hafter, hr⟩ := h.pop hpop
      have hmin := Arrival.argmin_eq_some (a := ⟨p, priority⟩) hbefore hafter
      have hno : (⟨p, priority⟩ : Arrival) ∉ before := fun hmem => absurd (hbefore _ hmem) (Nat.lt_irrefl _)
      simp only [Queue.serve, hpop, Arrival.serve, hmin, List.erase_append_right _ hno, List.erase_cons_head]
      exact ⟨trivial, hr⟩

theorem Holds.serveAll (h : q.Holds as) (ds : List Demand) :
    (q.serveAll ds).1 = (Arrival.serveAll as ds).1 ∧ (q.serveAll ds).2.Holds (Arrival.serveAll as ds).2 := by
  induction ds generalizing q as with
  | nil => exact ⟨rfl, h⟩
  | cons d ds ih =>
    obtain ⟨htaken, hnext⟩ := h.serve d
    obtain ⟨hmore, hend⟩ := ih hnext
    exact ⟨congrArg₂ List.cons htaken hmore, hend⟩

/-! ### What is kept beside the lines -/

/-- A queue is a family of lines, the most urgent first, in which those on a list of arrivals wait in order, each
once; all that it keeps beside the lines is exact, and the one to be taken is the first of the most urgent. -/
structure Refines (q : Queue) (as : List Arrival) : Prop where
  line_eq : ∀ level, q.line level = Arrival.line as level
  nodup : q.lines.toList.flatten.Nodup
  perm : q.lines.toList.flatten.Perm (as.map Arrival.propagator)
  isWaiting_iff : ∀ p, q.isWaiting p = true ↔ p ∈ q.lines.toList.flatten
  count_eq : q.count = q.lines.toList.flatten.length
  isEmpty_iff : q.isEmpty = true ↔ q.lines.toList.flatten = []
  nodup_inUse : q.inUse.Nodup
  mem_inUse_iff : ∀ level, level ∈ q.inUse ↔ q.line level ≠ []
  pop_eq_none_iff : q.pop = none ↔ q.lines.toList.flatten = []
  exists_split : ∀ p r, q.pop = some (p, r) → ∃ before priority after, as = before ++ ⟨p, priority⟩ :: after ∧
    (∀ b ∈ before, priority.level < b.priority.level) ∧ (∀ b ∈ after, priority.level ≤ b.priority.level) ∧
    ∀ level, r.line level = Arrival.line (before ++ after) level

theorem Holds.refines (h : q.Holds as) : q.Refines as := by
  have hq := h.wellFormed
  have hnodup := nodup_flatten_lines hq
  have hperm : q.lines.toList.flatten.Perm (as.map Arrival.propagator) := by
    apply (List.perm_ext_iff_of_nodup hnodup h.nodup).2
    intro p
    rw [mem_flatten_lines hq, h.isWaiting_iff, List.mem_map]
  have hcount : q.count = q.lines.toList.flatten.length := by
    rw [hq.count_eq, held, List.length_flatten, List.sum_eq_foldr]
  have hnil : q.lines.toList.flatten = [] ↔ as = [] := by
    rw [← List.length_eq_zero_iff, hperm.length_eq, List.length_map, List.length_eq_zero_iff]
  exact
    { line_eq := h.line_eq
      nodup := hnodup
      perm := hperm
      isWaiting_iff := fun p => (mem_flatten_lines hq).symm
      count_eq := hcount
      isEmpty_iff := by rw [isEmpty, decide_eq_true_eq, hcount, List.length_eq_zero_iff]
      nodup_inUse := hq.increasing.imp fun hlt => Nat.ne_of_lt hlt
      mem_inUse_iff := hq.mem_inUse_iff
      pop_eq_none_iff := by rw [h.eq_nil_iff, hnil]
      exists_split := fun p r hpop => by
        obtain ⟨before, priority, after, has, hbefore, hafter, hr⟩ := h.pop hpop
        exact ⟨before, priority, after, has, hbefore, hafter, hr.line_eq⟩ }

end Queue

end SetConstraints
