import SetConstraints.Proofs.Session

/-!
# The solutions that a session enumerates

The enumeration is exact (`Session.Reached.enumeration_exact`): it finds the solutions within the current domains and
nothing else, each once and in lexicographic order.  It does so from every session that has answered its last error by
going back, whatever was added and narrowed at whatever levels, and whatever has not been propagated yet.

An error that has not been answered leaves domains narrowed half way and nobody waiting to go on.  A leaf of the
search is meant to satisfy all constraints, but the first one may then be reached without any propagator having looked
at it, and be reported though it is no solution (`Session.failedSample_reports_violation`).  This happens to no other
leaf (`Session.Reached.enumeration_sound`).
-/

namespace SetConstraints

namespace Solver

variable {cs : List Constraint} {d : Domains} {found : List Assignment}

theorem Exact.nodup (h : Exact cs d found) : found.Nodup := h.ordered.imp Assignment.Precedes.ne

end Solver

namespace Session

variable {s : Session} {cs : List Constraint} {settled : Bool}

private theorem finds_opened (h : s.Reached cs settled) (hs : settled = true ∨ s.solver.infeasible = true) :
    Solver.Finds cs s.solver.store.domains s.opened.solver.solutions.result := by
  rcases hs with rfl | hinf
  · exact h.opened_ready.solutions
  · exact .inl ⟨[], h.opened_hosts.solutions_of_infeasible hinf⟩

/-- If the last error has been answered by going back, or the solver is infeasible, the enumeration reports exactly
the assignments within the domains that satisfy all constraints, each once and in lexicographic order, and their
number; unless the variables of a constraint do not exist. -/
theorem Reached.enumeration_exact (h : s.Reached cs settled) (hs : settled = true ∨ s.solver.infeasible = true) :
    (∃ found : List Assignment,
      (∀ a, a ∈ found ↔ s.solver.store.domains.Admits a ∧ ∀ c ∈ cs, c.Holds a) ∧
      found.Nodup ∧ found.Pairwise Assignment.Precedes ∧
      (s.perform .allSolutions).1 = .ok (.solutions found) ∧
      ∀ limit, (s.perform (.solve limit)).1 = .ok (.firstSolutions found.length (found.take limit))) ∨
    Lacks cs s.solver.store.domains ∧ (s.perform .allSolutions).1 = .error (.fault .unknownIndex) ∧
      ∀ limit, (s.perform (.solve limit)).1 = .error (.fault .unknownIndex) := by
  have hall : (s.perform .allSolutions).1 = (s.opened.settle s.opened.solver.solutions .fault .solutions).1 := rfl
  have hsolve : ∀ limit, (s.perform (.solve limit)).1 = (s.opened.settle s.opened.solver.solutions .fault
      fun found => .firstSolutions found.length (found.take limit)).1 := fun _ => rfl
  simp only [hall, hsolve, settle]
  rcases finds_opened h hs with ⟨found, hfound, hex⟩ | ⟨hl, hf⟩
  · exact .inl ⟨found, hex.mem_iff, hex.nodup, hex.ordered, by rw [hfound], fun limit => by rw [hfound]⟩
  · exact .inr ⟨hl, by rw [hf], fun limit => by rw [hf]⟩

/-- The example has one solution. -/
theorem enumeration_exact_sample : sample.Reached [.strictBound ⟨⟨0⟩, ⟨0⟩⟩] true ∧
    (true = true ∨ sample.solver.infeasible = true) ∧
    (sample.perform .allSolutions).1 = .ok (.solutions [⟨[[1, 2]], [3]⟩]) ∧
    ∀ a, sample.solver.store.domains.Admits a ∧ (∀ c ∈ [.strictBound ⟨⟨0⟩, ⟨0⟩⟩], Constraint.Holds c a) ↔
      a = ⟨[[1, 2]], [3]⟩ := by
  have hall : (sample.perform .allSolutions).1 = .ok (.solutions [⟨[[1, 2]], [3]⟩]) := by decide +kernel
  refine ⟨reached_sample, .inl rfl, hall, fun a => ?_⟩
  rcases reached_sample.enumeration_exact (.inl rfl) with ⟨found, hmem, -, -, hok, -⟩ | ⟨-, hf, -⟩
  · obtain rfl : found = [⟨[[1, 2]], [3]⟩] := by simpa [hall] using hok.symm
    rw [← hmem, List.mem_singleton]
  · simp [hall] at hf

/-! ### Errors that went unanswered -/

/-- The enumeration hands over an assignment; `first` says whether its search does so before it has left any
branch. -/
def HandsOver (s : Session) (first : Bool) (a : Assignment) : Prop :=
  s.solver.infeasible = false ∧ Solver.HandsOver s.solver.store.domains.freedom s.opened.solver.mark first a

private theorem solutions_of_answer {found : List Assignment}
    (h : (s.perform .allSolutions).1 = .ok (.solutions found)) : s.opened.solver.solutions.result = .ok found := by
  have hall : (s.perform .allSolutions).1 = (s.opened.settle s.opened.solver.solutions .fault .solutions).1 := rfl
  rw [hall] at h
  cases hres : s.opened.solver.solutions.result with
  | error f => simp [settle, hres] at h
  | ok more => simpa [settle, hres] using h

/-- Whatever errors went unanswered, every assignment that the enumeration hands over satisfies all constraints,
except perhaps for the one that it hands over before it has left any branch, the first.  That one does as well if the
last error has been answered by going back.  So what it reports are solutions, but perhaps for the first, and the next
enumeration reports only solutions. -/
theorem Reached.enumeration_sound (h : s.Reached cs settled) :
    (∀ first a, s.HandsOver first a → first = false ∨ settled = true → ∀ c ∈ cs, c.Holds a) ∧
    (∀ a b, s.HandsOver true a → s.HandsOver true b → a = b) ∧
    ∀ found, (s.perform .allSolutions).1 = .ok (.solutions found) →
      (∀ a ∈ found.tail, ∀ c ∈ cs, c.Holds a) ∧
      (settled = true ∨ s.solver.infeasible = true → ∀ a ∈ found, ∀ c ∈ cs, c.Holds a) ∧
      (∀ limit, (s.perform (.solve limit)).1 = .ok (.firstSolutions found.length (found.take limit))) ∧
      ∀ again, ((s.perform .allSolutions).2.perform .allSolutions).1 = .ok (.solutions again) →
        ∀ a ∈ again, ∀ c ∈ cs, c.Holds a := by
  have hready : settled = true → s.opened.solver.Ready cs := fun hs => (hs ▸ h).opened_ready
  refine ⟨fun first a ha hs => ?_, fun a b ha hb => ha.2.unique hb.2, fun found hfound => ?_⟩
  · exact h.opened_hosts.mark.holds_of_handsOver ha.2 (hs.imp_right fun hs => (hready hs).mark)
  · have hok := solutions_of_answer hfound
    obtain ⟨htail, hall⟩ := h.opened_hosts.holds_of_solutions hok
    refine ⟨htail, fun hs => hall (hs.imp_left hready), fun limit => ?_, fun again hagain => ?_⟩
    · have hsolve : (s.perform (.solve limit)).1 = (s.opened.settle s.opened.solver.solutions .fault
        fun found => .firstSolutions found.length (found.take limit)).1 := rfl
      rw [hsolve, settle, hok]
    · -- the first enumeration ends by going back, which covers all constraints
      have hnext := solutions_of_answer hagain
      rcases h.opened_hosts.solutions hok with ⟨hinf, heq⟩ | ⟨hafter, -⟩
      · have hsame : (s.perform .allSolutions).2.opened = s.opened := by
          show ({ s with solver := { s.opened.solver.solutions.solver with journal := #[] } } : Session) = _
          rw [heq]
          rfl
        rw [hsame] at hnext
        exact (h.opened_hosts.holds_of_solutions hnext).2 (.inr hinf)
      · have hready' : (s.perform .allSolutions).2.opened.solver.Ready cs := { hafter with }
        exact (hready'.toHosts.holds_of_solutions hnext).2 (.inl hready')

/-- A set that may contain 1 below a bound between 1 and 2. -/
private def oneBelow : Session :=
  let s : Session := { solver := { options := {}, queue := .new Priority.count } }
  (((s.perform (.newSet [] [1])).2.perform (.newInt 1 2)).2.perform (.add (.strictBound ⟨⟨0⟩, ⟨0⟩⟩))).2

/-- The session in which 1 has to be in the set and the bound has to be 1. -/
private def cornered : Session :=
  ((oneBelow.perform (.narrow (.require ⟨0⟩ 1))).2.perform (.narrow (.atMost ⟨0⟩ 1))).2

/-- The session in which a propagation has found that this cannot be. -/
def failedSample : Session := (cornered.perform .propagate).2

private theorem reached_cornered : cornered.Reached [.strictBound ⟨⟨0⟩, ⟨0⟩⟩] true := by
  have h := Reached.new (o := {}) rfl
  have h := h.step (r := .newSet [] [1]) (a := .var (.set ⟨0⟩)) trivial (by decide +kernel) rfl
  have h := h.step (r := .newInt 1 2) (a := .var (.int ⟨0⟩)) trivial (by decide +kernel) rfl
  have h := h.step (r := .add (.strictBound ⟨⟨0⟩, ⟨0⟩⟩)) (a := .propagator ⟨0⟩) (l := [.strictBound ⟨⟨0⟩, ⟨0⟩⟩])
    trivial (by decide +kernel) (by decide +kernel)
  have h := h.step (r := .narrow (.require ⟨0⟩ 1)) (a := .done) (l := [.strictBound ⟨⟨0⟩, ⟨0⟩⟩]) trivial
    (by decide +kernel) (by decide +kernel)
  exact h.step (r := .narrow (.atMost ⟨0⟩ 1)) (a := .done) trivial (by decide +kernel) (by decide +kernel)

theorem reached_failedSample : failedSample.Reached [.strictBound ⟨⟨0⟩, ⟨0⟩⟩] false := by
  have herror : (cornered.perform .propagate).1 = .error (.contradiction .emptyDomain) := by decide +kernel
  have h := reached_cornered.perform (r := .propagate) trivial (by simp [herror])
  simp only [herror, Request.constraints, List.take_nil, List.append_nil] at h
  exact h

/-- In the example the first enumeration reports one assignment, as does the one with a limit. -/
theorem enumeration_sound_sample : failedSample.Reached [.strictBound ⟨⟨0⟩, ⟨0⟩⟩] false ∧
    (failedSample.perform .allSolutions).1 = .ok (.solutions [⟨[[1]], [1]⟩]) ∧
    ∀ limit, (failedSample.perform (.solve limit)).1 =
      .ok (.firstSolutions 1 (([⟨[[1]], [1]⟩] : List Assignment).take limit)) :=
  have hall : (failedSample.perform .allSolutions).1 = .ok (.solutions [⟨[[1]], [1]⟩]) := by decide +kernel
  ⟨reached_failedSample, hall, (reached_failedSample.enumeration_sound.2.2 _ hall).2.2.1⟩

/-- The assignment that it reports, and hands over before it has left any branch, is no solution: 1 is not below 1. -/
theorem failedSample_reports_violation : failedSample.Reached [.strictBound ⟨⟨0⟩, ⟨0⟩⟩] false ∧
    failedSample.HandsOver true ⟨[[1]], [1]⟩ ∧
    (failedSample.perform .allSolutions).1 = .ok (.solutions [⟨[[1]], [1]⟩]) ∧
    ¬ (Constraint.strictBound ⟨⟨0⟩, ⟨0⟩⟩).Holds ⟨[[1]], [1]⟩ := by
  refine ⟨reached_failedSample,
    ⟨by decide +kernel, .leaf (by decide +kernel) (by decide +kernel) (by decide +kernel)⟩, by decide +kernel,
    fun h => ?_⟩
  exact absurd (h 1 (by decide)) (by decide)

end Session

end SetConstraints
