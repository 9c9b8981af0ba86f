import SetConstraints.Proofs.Propagation

/-!
# What entailment tells

The entailment of a constraint looks only at kernels, envelopes and what can be reached at all, and still decides
exactly whether a solution is left (`Constraint.entailment_exact`).  It was written independently of the rules that
narrow domains; both describe the same constraint, so where propagation has succeeded, no constraint is found
violated, and once all variables are decided, all are found satisfied (`Session.Reached.entailment_of_propagate`).
-/

namespace SetConstraints

namespace Constraint

/-- No variable stands in two places.  Among the sets of a relation, and among those of a closure, one may stand
several times, but none may stand in both. -/
def Apart : Constraint → Prop
  | .difference c => c.minuend ≠ c.subtrahend ∧ c.minuend ≠ c.difference ∧ c.subtrahend ≠ c.difference
  | .strictBound _ => True
  | .atMostClosure c => ∀ x ∈ c.relation, x ∉ c.closure

variable {c : Constraint} {d : Domains}

/-- Once its operands are decided, a constraint is secure unless it is broken. -/
private theorem secure_of_decided (h : ∀ w ∈ c.operands, d.Decided w) (hb : ¬ c.Broken d.view) : c.Secure d.view := by
  cases c with
  | difference c => exact fun x hx => h (.set x) hx
  | strictBound c =>
    exact StrictBound.inert_of_decided (h (.set c.set) (by simp [operands, StrictBound.operands]))
      (h (.int c.bound) (by simp [operands, StrictBound.operands])) hb
  | atMostClosure c => exact fun x hx => h (.set x) hx

/-- Unless it is broken, a constraint in which no variable stands in two places has a solution. -/
theorem exists_solution (hc : c.Proper) (hd : d.WellFormed) (h : ∀ w ∈ c.operands, d.Has w) (ha : c.Apart)
    (hb : ¬ c.Broken d.view) : ∃ a, d.Admits a ∧ c.Holds a := by
  cases c with
  | difference c => exact Difference.exists_solution ha.1 ha.2.1 ha.2.2 hd h hb
  | strictBound c => exact StrictBound.exists_solution hd h hb
  | atMostClosure c => exact AtMostClosure.exists_solution hd h hb hc ha

/-- Whatever the domains of its operands, the entailment of a constraint is correct, and it is definite once they are
decided.  A violation is found whenever no solution is left, if no variable stands in two places, and a strict bound
is found satisfied whenever nothing but solutions is left. -/
theorem entailment_exact (hc : c.Proper) (hd : d.WellFormed) (h : ∀ w ∈ c.operands, d.Has w) :
    ∃ e, c.posting.propagator.entailment d = .ok e ∧
      (e = .satisfied → ∀ a, d.Admits a → c.Holds a) ∧
      (e = .violated → ∀ a, d.Admits a → ¬ c.Holds a) ∧
      ((∀ w ∈ c.operands, d.Decided w) → e ≠ .undetermined) ∧
      (c.Apart → (∀ a, d.Admits a → ¬ c.Holds a) → e = .violated) ∧
      ∀ b, c = .strictBound b → (∀ a, d.Admits a → c.Holds a) → e = .satisfied := by
  obtain ⟨e, he, hviolated, hsatisfied⟩ := exists_entailment hd h
  have hbelow : ∀ a, d.Admits a → a.view ≤ d.view := fun a ha => ((Domains.admits_iff hd a).1 ha).2.2.2
  refine ⟨e, he, fun heq a ha => ?_, fun heq a ha hholds => ?_, fun hdec => ?_, fun hapart hno => ?_, ?_⟩
  · obtain ⟨hb, hs⟩ := hsatisfied.1 heq
    exact (holds_iff hc a).2 (hs.stable hb (hbelow a ha))
  · exact (hviolated.1 heq).not_stable (hbelow a ha) ((holds_iff hc a).1 hholds)
  · rintro rfl
    by_cases hb : c.Broken d.view
    · exact absurd (hviolated.2 hb) (by simp)
    · exact absurd (hsatisfied.2 ⟨hb, secure_of_decided hdec hb⟩) (by simp)
  · refine hviolated.2 ?_
    by_contra hb
    obtain ⟨a, ha, hholds⟩ := exists_solution hc hd h hapart hb
    exact hno a ha hholds
  · rintro b rfl hall
    have hinert : b.Inert d.view := StrictBound.inert_of_forall hd h hall
    exact hsatisfied.2 ⟨fun hb => hb.not_stable le_rfl hinert.stable, hinert⟩

/-- A node that may be its own successor, and has to reach itself. -/
private def loop : Domains := { sets := ⟨#[⟨#[⟨0, .possible⟩], 0, 1⟩, ⟨#[⟨0, .required⟩], 1, 1⟩]⟩ }

/-- In the example nothing is decided yet, so a solution is left. -/
theorem entailment_exact_sample : loop.WellFormed ∧
    (atMostClosure ⟨[⟨0⟩], [⟨1⟩], false⟩).posting.propagator.entailment loop = .ok .undetermined ∧
    ∃ a, loop.Admits a ∧ (atMostClosure ⟨[⟨0⟩], [⟨1⟩], false⟩).Holds a := by
  have hloop : loop.WellFormed := Domains.wellFormed_of_ofLists (by decide +kernel)
  have hval : (atMostClosure ⟨[⟨0⟩], [⟨1⟩], false⟩).posting.propagator.entailment loop = .ok .undetermined := by
    decide +kernel
  obtain ⟨e, he, -, -, -, hviolated, -⟩ := entailment_exact (c := .atMostClosure ⟨[⟨0⟩], [⟨1⟩], false⟩) rfl
    hloop (by simp [operands, AtMostClosure.operands, Domains.has_set_iff, loop, Table.size])
  obtain rfl : .undetermined = e := Except.ok.inj (hval.symm.trans he)
  refine ⟨hloop, hval, ?_⟩
  by_contra hno
  push Not at hno
  exact absurd (hviolated (by simp [Apart]) hno) (by decide)

end Constraint

namespace Session

variable {s : Session} {cs : List Constraint}

/-- If every error has been answered by going back, then after each successful propagation no constraint is found
violated, also of propagators at rest or whose addition failed, and once all variables are decided all are found
satisfied.  So no request fails for a solution at which they are not. -/
theorem Reached.entailment_of_propagate (h : s.Reached cs true) :
    (∀ r u, s.PropagatesFrom r u → u.propagate.result = .ok () →
      (∀ p a, u.propagate.solver.agents.get? p = some a →
        ∃ e, u.propagate.solver.entailment p = .ok e ∧ e ≠ .violated) ∧
      ((∀ w, u.propagate.solver.store.domains.Has w → u.propagate.solver.store.domains.Decided w) →
        u.propagate.solver.entailmentOfAll = .ok .satisfied)) ∧
    ∀ r : Request, r.Propagates → (s.perform r).1 ≠ .error (.fault .leafNotSatisfied) := by
  refine ⟨fun r u hu hok => ?_, fun r hr hf => ?_⟩
  · obtain ⟨cs', hready⟩ := h.ready_of_propagatesFrom hu
    have hfix := hready.propagate hok
    have hhosts := (hready.toHosts.propagate (by simp [hok])).1
    refine ⟨fun p a ha => ?_, hfix.entailmentOfAll hhosts⟩
    obtain ⟨e, he, hne, -⟩ := hfix.entailment hhosts ha
    exact ⟨e, he, hne⟩
  · rcases h.fault_cases hr hf with hno | ⟨m, n, hno⟩ <;> cases hno

/-- In the example propagation decides all variables, and the constraint is satisfied. -/
theorem entailment_of_propagate_sample : sample.Reached [.strictBound ⟨⟨0⟩, ⟨0⟩⟩] true ∧
    sample.opened.solver.propagate.result = .ok () ∧
    sample.opened.solver.propagate.solver.entailmentOfAll = .ok .satisfied ∧
    (sample.perform .allSolutions).1 ≠ .error (.fault .leafNotSatisfied) := by
  have hok : sample.opened.solver.propagate.result = .ok () := by decide +kernel
  have hwf := (reached_sample.opened_hosts.propagate (by simp [hok])).1.valid.wellFormed
  have hdec := Domains.decided_of_decision? hwf (by decide +kernel)
  exact ⟨reached_sample, hok, (reached_sample.entailment_of_propagate.1 .propagate _ .propagate hok).2 hdec,
    reached_sample.entailment_of_propagate.2 .allSolutions trivial⟩

end Session

end SetConstraints
