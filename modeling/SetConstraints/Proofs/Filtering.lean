import SetConstraints.Proofs.Entailment

/-!
# What filtering leaves

A call from scratch is compared with the solutions within the domains at which it starts.  If no variable stands in
two places, it finds a contradiction exactly if there is none (`Constraint.contradiction_iff`), and otherwise it ends
with domains at which a second call has no effect (`Constraint.quiet_again`).  What it leaves of the sets is then read
off the solutions.  Of three different sets and their difference it leaves exactly what some solution has and what all
have (`Difference.filters_to_hull`), and so it does of a set and its bound, to the ends of the numbers
(`StrictBound.filters_to_bounds`).  Of sets of reachable nodes it leaves exactly what can be reached along the edges
left, which some solution has as well (`AtMostClosure.filters_to_reachable`).

Where a set of successors is also one of the closure, what a call removes may be an edge along which it has kept
something.  A second call then goes on (`AtMostClosure.second_call_removes`), and only then
(`AtMostClosure.filters_once`).
-/

namespace SetConstraints

namespace Domains

/-- Every envelope consists of the values that some of the assignments has for its variable. -/
def UnionOf (d : Domains) (P : Assignment → Prop) : Prop :=
  ∀ x e, d.sets.get? x = some e → ∀ v, v ∈ e.envelope ↔ ∃ a, P a ∧ v ∈ a.set x

/-- Every kernel consists of the values that all the assignments have for its variable. -/
def IntersectionOf (d : Domains) (P : Assignment → Prop) : Prop :=
  ∀ x e, d.sets.get? x = some e → ∀ v, v ∈ e.kernel ↔ ∀ a, P a → v ∈ a.set x

/-- The bounds of every integer are the smallest and the largest value that the assignments have for it. -/
def RangeOf (d : Domains) (P : Assignment → Prop) : Prop :=
  ∀ x b, d.ints.get? x = some b →
    (∀ a, P a → b.low ≤ a.int x ∧ a.int x ≤ b.high) ∧ (∃ a, P a ∧ a.int x = b.low) ∧ ∃ a, P a ∧ a.int x = b.high

variable {d : Domains} {P : Assignment → Prop}

private theorem element_of_admits {a : Assignment} (hd : d.WellFormed) (ha : d.Admits a) (x : SetVar) (v : Int32) :
    d.view.element x v = .possible ∨ a.view.element x v = d.view.element x v :=
  ((admits_iff hd a).1 ha).2.2.2.element x v

/-- Envelopes are unions of assignments within the domains if each of their values is in one of these. -/
theorem unionOf_of_support (hd : d.WellFormed) (hP : ∀ a, P a → d.Admits a)
    (h : ∀ x v, d.Has (.set x) → d.view.element x v ≠ .excluded → ∃ a, P a ∧ v ∈ a.set x) : d.UnionOf P := by
  intro x e he v
  rw [SetDomain.mem_envelope (hd x e he), membership_eq he]
  refine ⟨fun hv => h x v (by simp [Has, he]) hv, ?_⟩
  rintro ⟨a, ha, hv⟩ hex
  have hle := element_of_admits hd (hP a ha) x v
  rw [hex, Assignment.view_eq_excluded] at hle
  exact hle.elim (by simp) (· hv)

/-- Kernels are intersections of assignments within the domains if each other value is missing in one of these. -/
theorem intersectionOf_of_support (hd : d.WellFormed) (hP : ∀ a, P a → d.Admits a)
    (h : ∀ x v, d.Has (.set x) → d.view.element x v ≠ .required → ∃ a, P a ∧ v ∉ a.set x) : d.IntersectionOf P := by
  intro x e he v
  rw [SetDomain.mem_kernel (hd x e he), membership_eq he]
  constructor
  · intro hv a ha
    have hle := element_of_admits hd (hP a ha) x v
    rw [hv, Assignment.view_eq_required] at hle
    exact hle.resolve_left (by simp)
  · intro hall
    by_contra hv
    obtain ⟨a, ha, hno⟩ := h x v (by simp [Has, he]) hv
    exact hno (hall a ha)

end Domains

namespace Constraint

variable {c : Constraint} {s t : Store} {resting : Bool}

theorem Apart.separate (h : c.Apart) : c.Separate := by
  cases c with
  | difference c => trivial
  | strictBound c => trivial
  | atMostClosure c => exact h

/-- Where the operands of a constraint exist, so do the variables that it listens to. -/
theorem inScope_of_has {d : Domains} (h : ∀ w ∈ c.operands, d.Has w) : c.InScope d := by
  intro r hr
  cases c with
  | difference c =>
    refine h r.var ?_
    simp only [posting, Difference.posting, List.mem_cons, List.not_mem_nil, or_false] at hr
    rcases hr with rfl | rfl | rfl <;> simp [operands, Difference.operands]
  | strictBound c =>
    refine h r.var ?_
    simp only [posting, StrictBound.posting, List.mem_cons, List.not_mem_nil, or_false] at hr
    rcases hr with rfl | rfl <;> simp [operands, StrictBound.operands]
  | atMostClosure c =>
    obtain ⟨⟨x, i⟩, hx, rfl⟩ := List.mem_map.1 hr
    refine h (.set x) ?_
    simp [operands, AtMostClosure.operands, List.fst_mem_of_mem_zipIdx hx]

/-- A successful call from scratch keeps exactly the solutions. -/
theorem admits_of_fromScratch (hc : c.Proper) (hs : s.domains.WellFormed) (h : c.InScope s.domains)
    (hrun : c.propagator.fromScratch.run s false = ⟨t, resting, .ok ()⟩) {a : Assignment} (ha : c.Holds a) :
    t.domains.Admits a ↔ s.domains.Admits a := by
  obtain ⟨new, hnew⟩ := Action.narrowed_run c.only_fromScratch hs false
  rw [hrun] at hnew
  have hhas : (∀ x, t.domains.Has (.set x) → (a.set x).Pairwise (· < ·)) ↔
      ∀ x, s.domains.Has (.set x) → (a.set x).Pairwise (· < ·) :=
    forall_congr' fun x => by rw [hnew.has_iff]
  rw [Domains.admits_iff hnew.wellFormed, Domains.admits_iff hs, hhas, hnew.size_sets, hnew.size_ints]
  refine and_congr_right fun _ => and_congr_right fun _ => and_congr_right fun _ => ⟨fun hle => hle.trans hnew.le, ?_⟩
  intro hle
  have hkept := (keeps_fromScratch ((holds_iff hc a).1 ha) h).run hs hle false
  rw [hrun] at hkept
  exact hkept.1

/-- A call from scratch is no fault where the operands exist. -/
theorem ne_fault (hs : s.domains.WellFormed) (h : ∀ w ∈ c.operands, s.domains.Has w) (f : Fault) :
    (c.propagator.fromScratch.run s false).result ≠ .error (.fault f) := by
  intro hf
  obtain ⟨-, w, hw, hno⟩ := (safe_fromScratch (inScope_of_has h)).run hs hf
  exact hno (h w hw)

/-- A call from scratch finds a contradiction exactly if no solution is left, provided that no variable stands in two
places. -/
theorem contradiction_iff (hc : c.Proper) (ha : c.Apart) (hs : s.domains.WellFormed)
    (h : ∀ w ∈ c.operands, s.domains.Has w) :
    (∃ e, (c.propagator.fromScratch.run s false).result = .error (.error e)) ↔
      ∀ a, s.domains.Admits a → ¬ c.Holds a := by
  have hscope := inScope_of_has h
  constructor
  · rintro ⟨e, he⟩ a hadm hholds
    exact ((keeps_fromScratch ((holds_iff hc a).1 hholds) hscope).run hs ((Domains.admits_iff hs a).1 hadm).2.2.2
      false).2 e he
  · intro hno
    cases hrun : c.propagator.fromScratch.run s false with
    | mk t resting result =>
      cases result with
      | error why =>
        cases why with
        | error e => exact ⟨e, rfl⟩
        | fault f => exact absurd (by rw [hrun]) (ne_fault hs h f)
      | ok x =>
        exfalso
        obtain ⟨new, hnew⟩ := Action.narrowed_run c.only_fromScratch hs false
        rw [hrun] at hnew
        have hst := stable_of_fromScratch ha.separate hs hscope hrun
        obtain ⟨a, hadm, hholds⟩ := exists_solution hc hnew.wellFormed (fun w hw => (hnew.has_iff w).2 (h w hw)) ha
          fun hb => hb.not_stable le_rfl hst
        exact hno a ((admits_of_fromScratch hc hs hscope hrun hholds).1 hadm) hholds

/-- After a successful call from scratch a second one has no effect. -/
theorem quiet_again (hc : c.Separate) (hs : s.domains.WellFormed) (h : c.InScope s.domains)
    (hrun : c.propagator.fromScratch.run s false = ⟨t, resting, .ok ()⟩) : c.propagator.fromScratch.Quiet t () := by
  obtain ⟨new, hnew⟩ := Action.narrowed_run c.only_fromScratch hs false
  rw [hrun] at hnew
  exact (quiet_fromScratch hnew.wellFormed fun r hr => (hnew.has_iff r.var).2 (h r hr)).2
    (stable_of_fromScratch hc hs h hrun)

/-- If each value left is in a solution, the envelopes are the unions of the solutions. -/
theorem unionOf_of_fromScratch (hc : c.Proper) (hs : s.domains.WellFormed) (h : c.InScope s.domains)
    (hrun : c.propagator.fromScratch.run s false = ⟨t, resting, .ok ()⟩)
    (hsup : ∀ x v, t.domains.Has (.set x) → t.domains.view.element x v ≠ .excluded →
      ∃ a, t.domains.Admits a ∧ c.Holds a ∧ v ∈ a.set x) :
    t.domains.UnionOf fun a => s.domains.Admits a ∧ c.Holds a := by
  have hwf := Action.wellFormed_run c.propagator.fromScratch hs false
  rw [hrun] at hwf
  refine Domains.unionOf_of_support hwf (fun a ha => (admits_of_fromScratch hc hs h hrun ha.2).2 ha.1)
    fun x v hx hv => ?_
  obtain ⟨a, hadm, hholds, hmem⟩ := hsup x v hx hv
  exact ⟨a, ⟨(admits_of_fromScratch hc hs h hrun hholds).1 hadm, hholds⟩, hmem⟩

/-- If each value that is not certain is missing in a solution, the kernels are the intersections of the solutions. -/
theorem intersectionOf_of_fromScratch (hc : c.Proper) (hs : s.domains.WellFormed) (h : c.InScope s.domains)
    (hrun : c.propagator.fromScratch.run s false = ⟨t, resting, .ok ()⟩)
    (hsup : ∀ x v, t.domains.Has (.set x) → t.domains.view.element x v ≠ .required →
      ∃ a, t.domains.Admits a ∧ c.Holds a ∧ v ∉ a.set x) :
    t.domains.IntersectionOf fun a => s.domains.Admits a ∧ c.Holds a := by
  have hwf := Action.wellFormed_run c.propagator.fromScratch hs false
  rw [hrun] at hwf
  refine Domains.intersectionOf_of_support hwf (fun a ha => (admits_of_fromScratch hc hs h hrun ha.2).2 ha.1)
    fun x v hx hv => ?_
  obtain ⟨a, hadm, hholds, hmem⟩ := hsup x v hx hv
  exact ⟨a, ⟨(admits_of_fromScratch hc hs h hrun hholds).1 hadm, hholds⟩, hmem⟩

/-- If solutions have all integers at their smallest and at their largest values, the bounds are those of the
solutions. -/
theorem rangeOf_of_fromScratch (hc : c.Proper) (hs : s.domains.WellFormed) (h : c.InScope s.domains)
    (hrun : c.propagator.fromScratch.run s false = ⟨t, resting, .ok ()⟩) (takes : SetVar → Int32 → Prop)
    [∀ x, DecidablePred (takes x)] (hsup : ∀ bound : IntDomain → Int32, (∀ b : IntDomain, b.Admits (bound b)) →
      c.Holds (t.domains.completion takes bound)) :
    t.domains.RangeOf fun a => s.domains.Admits a ∧ c.Holds a := by
  have hwf := Action.wellFormed_run c.propagator.fromScratch hs false
  rw [hrun] at hwf
  have hsolution : ∀ bound : IntDomain → Int32, (∀ b : IntDomain, b.Admits (bound b)) →
      s.domains.Admits (t.domains.completion takes bound) ∧ c.Holds (t.domains.completion takes bound) :=
    fun bound hbound => ⟨(admits_of_fromScratch hc hs h hrun (hsup bound hbound)).1
      (Domains.admits_completion hwf hbound), hsup bound hbound⟩
  intro x b hb
  refine ⟨fun a ha => ((admits_of_fromScratch hc hs h hrun ha.2).2 ha.1).admits_int x b hb, ?_, ?_⟩
  · exact ⟨_, hsolution IntDomain.low fun b => ⟨Int32.le_rfl, b.low_le_high⟩, Domains.int_completion hb⟩
  · exact ⟨_, hsolution IntDomain.high fun b => ⟨b.low_le_high, Int32.le_rfl⟩, Domains.int_completion hb⟩

end Constraint

namespace Difference

variable {c : Difference} {s : Store}

/-- A call from scratch is filtered to a fixpoint, whether or not operands are the same variable.  On three different
sets it finds a contradiction exactly if no solution is left, and leaves of each set what some solution has, and as
certain what all have. -/
theorem filters_to_hull (hs : s.domains.WellFormed) (h : c.InScope s.domains) :
    (∀ f, (c.fromScratch.run s false).result ≠ .error (.fault f)) ∧
    (∀ t resting, c.fromScratch.run s false = ⟨t, resting, .ok ()⟩ → c.fromScratch.Quiet t ()) ∧
    (c.minuend ≠ c.subtrahend → c.minuend ≠ c.difference → c.subtrahend ≠ c.difference →
      ((∃ e, (c.fromScratch.run s false).result = .error (.error e)) ↔ ∀ a, s.domains.Admits a → ¬ c.Holds a) ∧
      ∀ t resting, c.fromScratch.run s false = ⟨t, resting, .ok ()⟩ →
        t.domains.UnionOf (fun a => s.domains.Admits a ∧ c.Holds a) ∧
        t.domains.IntersectionOf fun a => s.domains.Admits a ∧ c.Holds a) := by
  have hscope : (Constraint.difference c).InScope s.domains := Constraint.inScope_of_has h
  refine ⟨fun f => Constraint.ne_fault (c := .difference c) hs h f, fun t resting hrun =>
    Constraint.quiet_again (c := .difference c) trivial hs hscope hrun, fun hab hae hbe =>
    ⟨Constraint.contradiction_iff (c := .difference c) trivial ⟨hab, hae, hbe⟩ hs h, fun t resting hrun => ?_⟩⟩
  obtain ⟨new, hnew⟩ := Action.narrowed_run c.only_fromScratch hs false
  rw [hrun] at hnew
  -- every value left is supported in a solution with it, and in one without it unless it is certain
  have hsupport : ∀ x v m, t.domains.Has (.set x) → m ≠ .possible →
      (t.domains.view.element x v = .possible ∨ t.domains.view.element x v = m) →
      ∃ a, t.domains.Admits a ∧ c.Holds a ∧ a.view.element x v = m := fun x v m hx hm hv =>
    exists_support hab hae hbe hnew.wellFormed (fun w hw => (hnew.has_iff w).2 (h w hw))
      (stable_of_fromScratch hs hrun) hx hm hv
  constructor
  · refine Constraint.unionOf_of_fromScratch (c := .difference c) trivial hs hscope hrun fun x v hx hv => ?_
    obtain ⟨a, hadm, hholds, hmem⟩ := hsupport x v .required hx (by simp)
      (by cases hm : t.domains.view.element x v <;> simp_all)
    exact ⟨a, hadm, hholds, Assignment.view_eq_required.1 hmem⟩
  · refine Constraint.intersectionOf_of_fromScratch (c := .difference c) trivial hs hscope hrun fun x v hx hv => ?_
    obtain ⟨a, hadm, hholds, hmem⟩ := hsupport x v .excluded hx (by simp)
      (by cases hm : t.domains.view.element x v <;> simp_all)
    exact ⟨a, hadm, hholds, Assignment.view_eq_excluded.1 hmem⟩

/-- One of two elements that the minuend may have is certain in the subtrahend. -/
private def oneTaken : Store :=
  { domains := { sets := ⟨#[⟨#[⟨1, .possible⟩, ⟨2, .possible⟩], 0, 2⟩, ⟨#[⟨1, .required⟩], 1, 1⟩,
      ⟨#[⟨1, .possible⟩, ⟨2, .possible⟩], 0, 2⟩]⟩ } }

/-- In the example the call succeeds, so that all of this can be said of what it leaves. -/
theorem filters_to_hull_sample : let c : Difference := ⟨⟨0⟩, ⟨1⟩, ⟨2⟩⟩
    oneTaken.domains.WellFormed ∧ c.InScope oneTaken.domains ∧
      ∃ t resting, c.fromScratch.run oneTaken false = ⟨t, resting, .ok ()⟩ ∧ c.fromScratch.Quiet t () ∧
        t.domains.UnionOf (fun a => oneTaken.domains.Admits a ∧ c.Holds a) ∧
        t.domains.IntersectionOf fun a => oneTaken.domains.Admits a ∧ c.Holds a := by
  intro c
  have hscope : c.InScope oneTaken.domains := by
    simp [c, InScope, operands, Domains.has_set_iff, oneTaken, Table.size]
  have hwf : oneTaken.domains.WellFormed := Domains.wellFormed_of_ofLists (by decide +kernel)
  obtain ⟨-, hagain, hhull⟩ := filters_to_hull (c := c) hwf hscope
  have hok : (c.fromScratch.run oneTaken false).result = .ok () := by decide +kernel
  have hrun := Action.run_eq_of_result hok
  exact ⟨hwf, hscope, _, _, hrun, hagain _ _ hrun,
    (hhull (by decide) (by decide) (by decide)).2 _ _ hrun⟩

end Difference

namespace StrictBound

variable {c : StrictBound} {s : Store}

/-- Rest is asked for where the constraint holds whatever will happen. -/
private theorem resting_iff {t : Store} {resting : Bool} (hs : s.domains.WellFormed) (h : c.InScope t.domains)
    (hrun : c.fromScratch.run s false = ⟨t, resting, .ok ()⟩) :
    resting = true ↔ ∀ a, t.domains.Admits a → c.Holds a := by
  have hwf := Action.wellFormed_run c.fromScratch hs false
  rw [hrun] at hwf
  rw [resting_fromScratch hs hrun]
  exact ⟨fun hinert a ha => (c.holds_iff a).2 (hinert.of_le ((Domains.admits_iff hwf a).1 ha).2.2.2).stable,
    inert_of_forall hwf h⟩

/-- How calls at a store answer. -/
structure Answers (c : StrictBound) (s : Store) : Prop where
  ne_fault : ∀ f, (c.fromScratch.run s false).result ≠ .error (.fault f)
  /-- Only a delta under a slot that is not registered is a fault. -/
  fault_iff : ∀ slot delta f, ((c.incremental slot delta).run s false).result = .error (.fault f) ↔
    ¬ c.posting.Listens slot ∧ f = .unregisteredSlot
  /-- No call adds one to a value that has no successor. -/
  rule_fromScratch : c.fromScratch.Only c.Rule True
  rule_incremental : ∀ slot delta, (c.incremental slot delta).Only c.Rule True
  /-- A call ends where such a value has to be below the bound. -/
  fromScratch_of_maxValue : ∀ e, s.domains.sets.get? c.set = some e → Int32.maxValue ∈ e.kernel →
    c.fromScratch.run s false = ⟨s, false, .error (.error .emptyDomain)⟩
  incremental_of_maxValue : ∀ delta, Int32.maxValue ∈ delta.values .kernelGrew →
    (c.incremental setSlot delta).run s false = ⟨s, false, .error (.error .emptyDomain)⟩
  contradiction_iff :
    (∃ e, (c.fromScratch.run s false).result = .error (.error e)) ↔ ∀ a, s.domains.Admits a → ¬ c.Holds a

/-- What a successful call from scratch leaves of some domains. -/
structure Bounded (c : StrictBound) (d : Domains) (t : Store) (resting : Bool) : Prop where
  unionOf : t.domains.UnionOf fun a => d.Admits a ∧ c.Holds a
  intersectionOf : t.domains.IntersectionOf fun a => d.Admits a ∧ c.Holds a
  rangeOf : t.domains.RangeOf fun a => d.Admits a ∧ c.Holds a
  resting_iff : resting = true ↔ ∀ a, t.domains.Admits a → c.Holds a
  quiet : c.fromScratch.Quiet t ()

private theorem answers (hs : s.domains.WellFormed) (h : c.InScope s.domains) : c.Answers s where
  ne_fault := Constraint.ne_fault (c := .strictBound c) hs h
  fault_iff slot delta f := by
    by_cases hslot : c.posting.Listens slot
    · refine iff_of_false (fun hf => ?_) fun hf => hf.1 hslot
      obtain ⟨-, w, hw, hno⟩ := (safe_incremental hslot delta).run hs hf
      exact hno (h w hw)
    · simp [incremental_of_not_listens hslot, hslot, eq_comm]
  rule_fromScratch := c.rule_fromScratch
  rule_incremental := c.rule_incremental
  fromScratch_of_maxValue _ := fromScratch_of_maxValue hs
  incremental_of_maxValue _ := incremental_of_maxValue
  contradiction_iff := Constraint.contradiction_iff (c := .strictBound c) trivial trivial hs h

private theorem bounded_of_fromScratch {t : Store} {resting : Bool} (hs : s.domains.WellFormed)
    (h : c.InScope s.domains) (hrun : c.fromScratch.run s false = ⟨t, resting, .ok ()⟩) :
    c.Bounded s.domains t resting := by
  have hscope : (Constraint.strictBound c).InScope s.domains := Constraint.inScope_of_has h
  obtain ⟨new, hnew⟩ := Action.narrowed_run c.only_fromScratch hs false
  rw [hrun] at hnew
  have hin : c.InScope t.domains := fun w hw => (hnew.has_iff w).2 (h w hw)
  have hst := stable_of_fromScratch hs hrun
  have hhigh : ∀ b : IntDomain, b.Admits b.high := fun b => ⟨b.low_le_high, Int32.le_rfl⟩
  refine ⟨?_, ?_, ?_, resting_iff hs hin hrun, Constraint.quiet_again (c := .strictBound c) trivial hs hscope hrun⟩
  · refine Constraint.unionOf_of_fromScratch (c := .strictBound c) trivial hs hscope hrun fun x v hx hv =>
      ⟨_, Domains.admits_completion hnew.wellFormed hhigh, hst.holds_envelope hnew.wellFormed hin, ?_⟩
    rw [Domains.mem_completion hnew.wellFormed hx]
    cases hm : t.domains.view.element x v <;> simp_all
  · refine Constraint.intersectionOf_of_fromScratch (c := .strictBound c) trivial hs hscope hrun fun x v hx hv =>
      ⟨_, Domains.admits_completion hnew.wellFormed hhigh, hst.holds_kernel hnew.wellFormed hin hhigh, ?_⟩
    rw [Domains.mem_completion hnew.wellFormed hx]
    simpa using hv
  · exact Constraint.rangeOf_of_fromScratch (c := .strictBound c) trivial hs hscope hrun (fun _ _ => False)
      fun bound hbound => hst.holds_kernel hnew.wellFormed hin hbound

/-- No call is a fault but for a delta under a slot that is not registered, adds one to a value that has no successor,
or goes on once such a value has to be below the bound.  A call from scratch finds a contradiction exactly if no
solution is left.  Otherwise it leaves of the set what some solution has and as certain what all have, and to the
bound the values from the smallest to the largest of the solutions; it asks for rest exactly if nothing but solutions
is left, and a second call has no effect. -/
theorem filters_to_bounds (hs : s.domains.WellFormed) (h : c.InScope s.domains) :
    c.Answers s ∧ ∀ t resting, c.fromScratch.run s false = ⟨t, resting, .ok ()⟩ → c.Bounded s.domains t resting :=
  ⟨answers hs h, fun _ _ => bounded_of_fromScratch hs h⟩

/-- The smallest value is certain, the largest possible, and the bound is open. -/
private def fromEndToEnd : Store :=
  { domains := {
      sets := ⟨#[⟨#[⟨Int32.minValue, .required⟩, ⟨3, .possible⟩, ⟨Int32.maxValue, .possible⟩], 1, 3⟩]⟩
      ints := ⟨#[⟨Int32.minValue, Int32.maxValue, by decide⟩]⟩ } }

/-- In the example the bound ends above the smallest value, the largest value is removed, and 3 may still be too
large. -/
theorem filters_to_bounds_sample : let c : StrictBound := ⟨⟨0⟩, ⟨0⟩⟩
    fromEndToEnd.domains.WellFormed ∧ c.InScope fromEndToEnd.domains ∧
      ∃ t, c.fromScratch.run fromEndToEnd false = ⟨t, false, .ok ()⟩ ∧
        t.domains.UnionOf (fun a => fromEndToEnd.domains.Admits a ∧ c.Holds a) ∧
        t.domains.RangeOf (fun a => fromEndToEnd.domains.Admits a ∧ c.Holds a) ∧
        (¬ ∀ a, t.domains.Admits a → c.Holds a) ∧ c.fromScratch.Quiet t () := by
  intro c
  have hscope : c.InScope fromEndToEnd.domains := by
    simp [c, InScope, operands, Domains.has_set_iff, Domains.has_int_iff, fromEndToEnd, Table.size]
  have hok : (c.fromScratch.run fromEndToEnd false).result = .ok () := by decide +kernel
  have hrest : (c.fromScratch.run fromEndToEnd false).resting = false := by decide +kernel
  have hrun := Action.run_eq_of_result hok
  have hwf : fromEndToEnd.domains.WellFormed := Domains.wellFormed_of_ofLists (by decide +kernel)
  have hleft := (filters_to_bounds (c := c) hwf hscope).2 _ _ hrun
  rw [hrest] at hrun hleft
  exact ⟨hwf, hscope, _, hrun, hleft.unionOf, hleft.rangeOf, fun hall => by simpa using hleft.resting_iff.2 hall,
    hleft.quiet⟩

end StrictBound

namespace AtMostClosure

variable {c : AtMostClosure} {s : Store}

/-- How domains are related to those at which a call started that has removed what cannot be reached. -/
structure Pruned (c : AtMostClosure) (d e : Domains) : Prop where
  /-- Successors are removed if they are no nodes. -/
  successors : ∀ x ∈ c.relation, ∀ a b, d.sets.get? x = some a → e.sets.get? x = some b →
    ∀ v, v ∈ b.envelope ↔ v ∈ a.envelope ∧ c.isNode v = true
  /-- Elements are removed if at some place the edges left do not lead to them. -/
  reached : ∀ x ∈ c.closure, ∀ a b, d.sets.get? x = some a → e.sets.get? x = some b →
    ∀ v, v ∈ b.envelope ↔ v ∈ a.envelope ∧ ∀ i : Fin c.size, c.closure[i.val]? = some x → c.Leads (c.graph e).Edge i v
  kernel_eq : ∀ x a b, d.sets.get? x = some a → e.sets.get? x = some b → b.kernel = a.kernel
  domain_eq : ∀ w ∉ c.operands, e.domain? w = d.domain? w

/-- What a successful call does, whether or not variables stand on both sides: of the successors it keeps the nodes,
and of the set of a node that to which the edges that were there at the start lead. -/
structure Swept (c : AtMostClosure) (d e : Domains) : Prop where
  envelope_iff : ∀ x a b, d.sets.get? x = some a → e.sets.get? x = some b → ∀ v, v ∈ b.envelope ↔ v ∈ a.envelope ∧
    (x ∈ c.relation → c.isNode v = true) ∧
    ∀ i : Fin c.size, c.closure[i.val]? = some x → c.Leads (c.graph d).Edge i v
  kernel_eq : ∀ x a b, d.sets.get? x = some a → e.sets.get? x = some b → b.kernel = a.kernel
  domain_eq : ∀ w ∉ c.operands, e.domain? w = d.domain? w

private theorem not_unfit_iff {d : Domains} (hlen : c.relation.length = c.closure.length) (hd : d.WellFormed)
    (h : c.InScope d) {x : SetVar} {v : Int32} : ¬ c.Unfit d.view x v ↔
      (x ∈ c.relation → c.isNode v = true) ∧
        ∀ i : Fin c.size, c.closure[i.val]? = some x → c.Leads (c.graph d).Edge i v := by
  simp only [Unfit, not_or, not_and, Bool.not_eq_false, not_exists, not_not]
  refine and_congr_right fun _ => ⟨fun hall i hi => (mayReach_iff_leads hd h i v).1 (hall i hi), fun hall i hi => ?_⟩
  have hlt : i < c.size := by
    rw [size, hlen]
    exact (List.getElem?_eq_some_iff.1 hi).1
  exact (mayReach_iff_leads hd h ⟨i, hlt⟩ v).2 (hall ⟨i, hlt⟩ hi)

private theorem swept_of_fromScratch {t : Store} {resting : Bool} (hlen : c.relation.length = c.closure.length)
    (hs : s.domains.WellFormed) (h : c.InScope s.domains)
    (hrun : c.fromScratch.run s false = ⟨t, resting, .ok ()⟩) : c.Swept s.domains t.domains := by
  obtain ⟨new, hnew⟩ := Action.narrowed_run c.only_fromScratch hs false
  rw [hrun] at hnew
  have helement := element_of_fromScratch hs h hrun
  constructor
  case envelope_iff =>
    intro x a b ha hb v
    rw [SetDomain.mem_envelope (hs _ _ ha), SetDomain.mem_envelope (hnew.wellFormed _ _ hb), Domains.membership_eq ha,
      Domains.membership_eq hb, ← not_unfit_iff hlen hs h, ne_eq, ne_eq, (helement x v).1, not_or]
  case kernel_eq =>
    intro x a b ha hb
    have hwa := hs _ _ ha
    have hwb := hnew.wellFormed _ _ hb
    refine List.Pairwise.eq_of_mem_iff (SetDomain.pairwise_kernel hwb) (SetDomain.pairwise_kernel hwa) fun v => ?_
    rw [SetDomain.mem_kernel hwa, SetDomain.mem_kernel hwb, Domains.membership_eq ha, Domains.membership_eq hb,
      (helement x v).2]
  case domain_eq =>
    exact fun w hw => hnew.domain_eq w fun n hn => fun heq => hw (heq ▸ hn)

/-- If no variable stands on both sides, edges lead to the same values after a call as before. -/
private theorem leads_iff_of_fromScratch {t : Store} {resting : Bool} (hs : s.domains.WellFormed)
    (h : c.InScope s.domains) (hapart : ∀ x ∈ c.relation, x ∉ c.closure)
    (hrun : c.fromScratch.run s false = ⟨t, resting, .ok ()⟩) (i : Fin c.size) (v : Int32) :
    c.Leads (c.graph t.domains).Edge i v ↔ c.Leads (c.graph s.domains).Edge i v := by
  obtain ⟨new, hnew⟩ := Action.narrowed_run c.only_fromScratch hs false
  rw [hrun] at hnew
  rw [← mayReach_iff_leads hs h, ← mayReach_iff_leads hnew.wellFormed fun x hx => (hnew.has_iff _).2 (h x hx)]
  refine ⟨fun hv => hv.of_le hnew.le, fun hv => hv.mono fun x hx w hw hne hex => ?_⟩
  rcases (element_of_fromScratch hs h hrun x w).1.1 hex with hex | ⟨-, hno⟩ | ⟨j, hj, -⟩
  · exact hne hex
  · simp [hw] at hno
  · exact hapart x hx (List.mem_of_getElem? hj)

private theorem pruned_of_fromScratch {t : Store} {resting : Bool} (hlen : c.relation.length = c.closure.length)
    (hs : s.domains.WellFormed) (h : c.InScope s.domains) (hapart : ∀ x ∈ c.relation, x ∉ c.closure)
    (hrun : c.fromScratch.run s false = ⟨t, resting, .ok ()⟩) : c.Pruned s.domains t.domains := by
  have hswept := swept_of_fromScratch hlen hs h hrun
  refine ⟨fun x hx a b ha hb v => ?_, fun x hx a b ha hb v => ?_, hswept.kernel_eq, hswept.domain_eq⟩
  · rw [hswept.envelope_iff x a b ha hb v]
    exact and_congr_right fun _ => ⟨fun hv => hv.1 hx, fun hv =>
      ⟨fun _ => hv, fun i hi => absurd (List.mem_of_getElem? hi) (hapart x hx)⟩⟩
  · simp only [hswept.envelope_iff x a b ha hb v, leads_iff_of_fromScratch hs h hapart hrun]
    exact and_congr_right fun _ => ⟨And.right, fun hv => ⟨fun hx' => absurd hx (hapart x hx'), hv⟩⟩

/-- If no variable stands on both sides, a call from scratch finds a contradiction exactly if no solution is left.
Otherwise it removes from the successors what is no node and from the sets of the closure what the edges left do not
lead to, and nothing else; all that is left is in some solution, and a second call has no effect. -/
theorem filters_to_reachable (hlen : c.relation.length = c.closure.length) (hapart : ∀ x ∈ c.relation, x ∉ c.closure)
    (hs : s.domains.WellFormed) (h : ∀ w ∈ c.operands, s.domains.Has w) :
    (∀ f, (c.fromScratch.run s false).result ≠ .error (.fault f)) ∧
    ((∃ e, (c.fromScratch.run s false).result = .error (.error e)) ↔ ∀ a, s.domains.Admits a → ¬ c.Holds a) ∧
    ∀ t resting, c.fromScratch.run s false = ⟨t, resting, .ok ()⟩ →
      c.Pruned s.domains t.domains ∧ t.domains.UnionOf (fun a => s.domains.Admits a ∧ c.Holds a) ∧
      c.fromScratch.Quiet t () := by
  have hscope : (Constraint.atMostClosure c).InScope s.domains := Constraint.inScope_of_has h
  refine ⟨Constraint.ne_fault (c := .atMostClosure c) hs h,
    Constraint.contradiction_iff (c := .atMostClosure c) hlen hapart hs h, fun t resting hrun => ⟨?_, ?_,
    Constraint.quiet_again (c := .atMostClosure c) hapart hs hscope hrun⟩⟩
  · exact pruned_of_fromScratch hlen hs (fun x hx => h _ (by simp [operands, hx])) hapart hrun
  · have hwf := Action.wellFormed_run c.fromScratch hs false
    have hst := Constraint.stable_of_fromScratch (c := .atMostClosure c) hapart hs hscope hrun
    rw [hrun] at hwf
    obtain ⟨a, hadm, hholds, hall⟩ := exists_largest hwf hst hlen
    exact Constraint.unionOf_of_fromScratch (c := .atMostClosure c) hlen hs hscope hrun fun x v hx hv =>
      ⟨a, hadm, hholds, (hall x v hx).2 hv⟩

/-- Two nodes with one edge from the first to the second, and values that are no nodes. -/
private def oneEdge : Store :=
  { domains := { sets := ⟨#[⟨#[⟨Int32.minValue, .possible⟩, ⟨1, .required⟩], 1, 2⟩,
      ⟨#[⟨0, .possible⟩, ⟨1, .possible⟩], 0, 2⟩]⟩ } }

/-- In the example both nodes have the same set in the relation, and the same in the closure. -/
theorem filters_to_reachable_sample : let c : AtMostClosure := ⟨[⟨0⟩, ⟨0⟩], [⟨1⟩, ⟨1⟩], true⟩
    oneEdge.domains.WellFormed ∧ (∀ w ∈ c.operands, oneEdge.domains.Has w) ∧
      ∃ t resting, c.fromScratch.run oneEdge false = ⟨t, resting, .ok ()⟩ ∧ c.Pruned oneEdge.domains t.domains ∧
        t.domains.UnionOf (fun a => oneEdge.domains.Admits a ∧ c.Holds a) ∧ c.fromScratch.Quiet t () := by
  intro c
  have hhas : ∀ w ∈ c.operands, oneEdge.domains.Has w := by
    simp [c, operands, Domains.has_set_iff, oneEdge, Table.size]
  have hok : (c.fromScratch.run oneEdge false).result = .ok () := by decide +kernel
  have hrun := Action.run_eq_of_result hok
  have hwf : oneEdge.domains.WellFormed := Domains.wellFormed_of_ofLists (by decide +kernel)
  exact ⟨hwf, hhas, _, _, hrun, (filters_to_reachable (c := c) rfl (by simp [c]) hwf hhas).2.2 _ _ hrun⟩

/-- Where the successors are nodes, a call has no effect exactly if edges lead to all that is left in the closure. -/
private theorem quiet_iff_leads {t : Store} (hlen : c.relation.length = c.closure.length) (ht : t.domains.WellFormed)
    (h : ∀ w ∈ c.operands, t.domains.Has w)
    (hnode : ∀ x ∈ c.relation, ∀ b, t.domains.sets.get? x = some b → ∀ v ∈ b.envelope, c.isNode v = true) :
    c.fromScratch.Quiet t () ↔ ∀ (i : Fin c.size) x b, c.closure[i.val]? = some x → t.domains.sets.get? x = some b →
      ∀ v ∈ b.envelope, c.Leads (c.graph t.domains).Edge i v := by
  have hin : c.InScope t.domains := fun x hx => h _ (by simp [operands, hx])
  rw [quiet_fromScratch ht hin]
  constructor
  · intro hst i x b hx hb v hv
    rw [SetDomain.mem_envelope (ht _ _ hb), Domains.membership_eq hb] at hv
    exact (mayReach_iff_leads ht hin i v).1 (hst.mayReach i x hx v hv)
  · refine fun hall => ⟨fun x hx v hv => ?_, fun i x hx v hv => ?_⟩
    · obtain ⟨b, hb⟩ := Option.isSome_iff_exists.1 (hin x hx)
      rw [← Domains.membership_eq hb, ← SetDomain.mem_envelope (ht _ _ hb)] at hv
      exact hnode x hx b hb v hv
    · have hlt : i < c.size := by
        rw [size, hlen]
        exact (List.getElem?_eq_some_iff.1 hx).1
      obtain ⟨b, hb⟩ := Option.isSome_iff_exists.1 (h (.set x) (by simp [operands, List.mem_of_getElem? hx]))
      rw [← Domains.membership_eq hb, ← SetDomain.mem_envelope (ht _ _ hb)] at hv
      exact (mayReach_iff_leads ht hin ⟨i, hlt⟩ v).2 (hall ⟨i, hlt⟩ x b hx hb v hv)

private theorem Leads.mono {edge edge' : Fin c.size → Fin c.size → Prop} (h : ∀ i j, edge i j → edge' i j)
    {i : Fin c.size} {v : Int32} (hv : c.Leads edge i v) : c.Leads edge' i v := by
  obtain ⟨j, hj, hij⟩ := hv
  exact ⟨j, hj, hij.imp_right fun hpath => Relation.TransGen.mono h _ _ hpath⟩

/-- Variables may stand on both sides.  What a successful call keeps depends on the edges at its start, and a second
call has no effect exactly if the edges left lead to all that is left in the closure, so in any case if the first has
removed no edge. -/
theorem filters_once (hlen : c.relation.length = c.closure.length) (hs : s.domains.WellFormed)
    (h : ∀ w ∈ c.operands, s.domains.Has w) :
    (∀ f, (c.fromScratch.run s false).result ≠ .error (.fault f)) ∧
    ∀ t resting, c.fromScratch.run s false = ⟨t, resting, .ok ()⟩ →
      c.Swept s.domains t.domains ∧
      (c.fromScratch.Quiet t () ↔ ∀ (i : Fin c.size) x b, c.closure[i.val]? = some x →
        t.domains.sets.get? x = some b → ∀ v ∈ b.envelope, c.Leads (c.graph t.domains).Edge i v) ∧
      ((∀ i j, (c.graph s.domains).Edge i j → (c.graph t.domains).Edge i j) → c.fromScratch.Quiet t ()) := by
  refine ⟨Constraint.ne_fault (c := .atMostClosure c) hs h, fun t resting hrun => ?_⟩
  obtain ⟨new, hnew⟩ := Action.narrowed_run c.only_fromScratch hs false
  rw [hrun] at hnew
  have hswept := swept_of_fromScratch hlen hs (fun x hx => h _ (by simp [operands, hx])) hrun
  -- each set that is left was there at the start
  have hstart : ∀ x b, t.domains.sets.get? x = some b → ∃ a, s.domains.sets.get? x = some a := fun x b hb =>
    Option.isSome_iff_exists.1 ((hnew.has_iff (.set x)).1 (by simp [Domains.Has, hb]))
  have hquiet := quiet_iff_leads (t := t) hlen hnew.wellFormed (fun w hw => (hnew.has_iff w).2 (h w hw))
    fun x hx b hb v hv => by
      obtain ⟨a, ha⟩ := hstart x b hb
      exact ((hswept.envelope_iff x a b ha hb v).1 hv).2.1 hx
  refine ⟨hswept, hquiet, fun hedge => hquiet.2 fun i x b hx hb v hv => ?_⟩
  obtain ⟨a, ha⟩ := hstart x b hb
  exact (((hswept.envelope_iff x a b ha hb v).1 hv).2.2 i hx).mono hedge

/-- The successor of the first node is the only edge, and the set that holds it is also what the second node may
reach. -/
private def shared : Store :=
  { domains := { sets := ⟨#[⟨#[⟨1, .possible⟩], 0, 1⟩, ⟨#[], 0, 0⟩, ⟨#[⟨1, .possible⟩], 0, 1⟩]⟩ } }

private theorem wellFormed_shared : shared.domains.WellFormed := Domains.wellFormed_of_ofLists (by decide +kernel)

private theorem has_shared :
    ∀ w ∈ (⟨[⟨0⟩, ⟨1⟩], [⟨2⟩, ⟨0⟩], false⟩ : AtMostClosure).operands, shared.domains.Has w := by
  simp [operands, Domains.has_set_iff, shared, Table.size]

/-- In the example something is left in the closure to which no edge leads, as a second call finds. -/
theorem filters_once_sample : let c : AtMostClosure := ⟨[⟨0⟩, ⟨1⟩], [⟨2⟩, ⟨0⟩], false⟩
    c.relation.length = c.closure.length ∧ shared.domains.WellFormed ∧ (∀ w ∈ c.operands, shared.domains.Has w) ∧
      ∃ t resting, c.fromScratch.run shared false = ⟨t, resting, .ok ()⟩ ∧ c.Swept shared.domains t.domains ∧
        ¬ ∀ i j, (c.graph shared.domains).Edge i j → (c.graph t.domains).Edge i j := by
  intro c
  have hok : (c.fromScratch.run shared false).result = .ok () := by decide +kernel
  have hagain : (c.fromScratch.run (c.fromScratch.run shared false).store false).store.domains ≠
      (c.fromScratch.run shared false).store.domains := by decide +kernel
  have hrun := Action.run_eq_of_result hok
  obtain ⟨hswept, -, hquiet⟩ := (filters_once (c := c) rfl wellFormed_shared has_shared).2 _ _ hrun
  exact ⟨rfl, wellFormed_shared, has_shared, _, _, hrun, hswept, fun hedge =>
    hagain (congrArg Store.domains (hquiet hedge).1)⟩

/-- The first call removes the edge, and the second what could only be reached along it. -/
theorem second_call_removes : let c : AtMostClosure := ⟨[⟨0⟩, ⟨1⟩], [⟨2⟩, ⟨0⟩], false⟩
    c.relation.length = c.closure.length ∧ shared.domains.WellFormed ∧ (∀ w ∈ c.operands, shared.domains.Has w) ∧
      ∃ t r u r', c.fromScratch.run shared false = ⟨t, r, .ok ()⟩ ∧ c.fromScratch.run t false = ⟨u, r', .ok ()⟩ ∧
        (t.domains.sets.get? ⟨2⟩).map SetDomain.envelope = some [1] ∧
        (u.domains.sets.get? ⟨2⟩).map SetDomain.envelope = some [] ∧ ¬ c.fromScratch.Quiet t () := by
  intro c
  have hfirst : (c.fromScratch.run shared false).result = .ok () := by decide +kernel
  have hsecond : (c.fromScratch.run (c.fromScratch.run shared false).store false).result = .ok () := by decide +kernel
  have hkept : ((c.fromScratch.run shared false).store.domains.sets.get? ⟨2⟩).map SetDomain.envelope = some [1] := by
    decide +kernel
  have hgone : ((c.fromScratch.run (c.fromScratch.run shared false).store false).store.domains.sets.get? ⟨2⟩).map
      SetDomain.envelope = some [] := by decide +kernel
  refine ⟨rfl, wellFormed_shared, has_shared, _, _, _, _, Action.run_eq_of_result hfirst,
    Action.run_eq_of_result hsecond, hkept, hgone, fun hquiet => ?_⟩
  rw [hquiet.1, hkept] at hgone
  simp at hgone

end AtMostClosure

end SetConstraints
