import SetConstraints.Proofs.Comparison

/-!
# Excursions to higher levels

As long as a solver stays above a level, whatever it narrows there, the domains of that level and of those below are
what they were (`Solver.Away`).  Coming back makes everyone due that is not at rest on that level, so that changes
pending before are not lost, although their delivery is: the solver is a twin of what it was
(`Solver.Away.twins`).  So an excursion that opens a level, stays above and comes back cannot be told from none by
what a session answers later (`Session.Reached.agree_of_excursion`), and the enumeration is such an excursion.
-/

namespace SetConstraints

namespace Solver

variable {s t u : Solver} {cs : List Constraint} {level : Nat} {P : Narrowing → Prop}

/-- `t` is on a level above that of `s`, where it can go back to the same domains. -/
structure Away (s t : Solver) (cs : List Constraint) : Prop where
  hosts : t.Hosts cs
  lt_depth : s.depth < t.depth
  rewind_eq : ∀ level ≤ s.depth, (t.store.rewind level).domains = (s.store.rewind level).domains
  infeasible_eq : t.infeasible = s.infeasible

theorem Hosts.away_mark (h : s.Hosts cs) : Away s s.mark cs where
  hosts := h.mark
  lt_depth := Nat.lt_succ_self _
  rewind_eq _ hl := congrArg Store.domains (Store.rewind_mark hl)
  infeasible_eq := rfl

theorem Away.narrower (h : Away s t cs) (hu : u.Hosts cs) (hn : t.store.Narrower P u.store)
    (hinf : u.infeasible = t.infeasible) : Away s u cs where
  hosts := hu
  lt_depth := by rw [depth.eq_1 u, hn.depth_eq]; exact h.lt_depth
  rewind_eq level hl := by
    rw [hn.rewind_eq level (Nat.lt_of_le_of_lt hl h.lt_depth)]
    exact h.rewind_eq level hl
  infeasible_eq := hinf.trans h.infeasible_eq

theorem Away.narrow (h : Away s t cs) (n : Narrowing) : Away s (t.narrow n).solver cs := by
  unfold Solver.narrow
  cases hn : t.store.narrow n with
  | error e => exact h
  | ok v =>
    obtain ⟨new, hnew⟩ := h.hosts.exists_narrowed hn
    exact h.narrower (h.hosts.narrowed hnew) hnew.toNarrower rfl

theorem Away.propagate (h : Away s t cs) (hf : ∀ f, t.propagate.result ≠ .error (.fault f)) :
    Away s t.propagate.solver cs :=
  have ⟨h1, h2⟩ := h.hosts.propagate hf
  h.narrower h1 h2.narrower h2.infeasible_eq

theorem Away.mark (h : Away s t cs) : Away s t.mark cs where
  hosts := h.hosts.mark
  lt_depth := Nat.lt_succ_of_lt h.lt_depth
  rewind_eq level hl := by
    show (t.store.mark.rewind level).domains = _
    rw [Store.rewind_mark (Nat.le_of_lt (Nat.lt_of_le_of_lt hl h.lt_depth))]
    exact h.rewind_eq level hl
  infeasible_eq := h.infeasible_eq

theorem Away.returnTo (h : Away s t cs) (hlt : s.depth < level) (hl : level ≤ t.depth) :
    Away s (t.returnTo level) cs := by
  refine ⟨(h.hosts.ready_returnTo hl).toHosts, ?_, fun k hk => ?_, ?_⟩
  · rwa [h.hosts.depth_returnTo hl]
  · rw [h.hosts.store_returnTo hl, Store.rewind_rewind (Nat.le_of_lt (Nat.lt_of_le_of_lt hk hlt)) hl]
    exact h.rewind_eq k hk
  · exact (h.hosts.infeasible_returnTo hl).trans h.infeasible_eq

theorem Away.solutions {found : List Assignment} (h : Away s t cs) (hok : t.solutions.result = .ok found) :
    Away s t.solutions.solver cs := by
  rcases h.hosts.solutions hok with ⟨-, heq⟩ | ⟨hready, hr⟩
  · rw [heq]
    exact h
  · refine ⟨hready.toHosts, ?_, fun level hl => ?_, hr.infeasible_eq.trans h.infeasible_eq⟩
    · rw [depth.eq_1 t.solutions.solver, hr.store_eq]
      exact h.lt_depth
    · rw [hr.store_eq]
      exact h.rewind_eq level hl

/-- A solver that comes back is a twin of what it was. -/
theorem Away.twins (h : Away s t cs) (hs : s.Ready cs) : Twins s (t.returnTo s.depth) cs := by
  have hl := h.lt_depth.le
  have ht := h.hosts.ready_returnTo hl
  refine Kin.twins ⟨hs.toHosts, ht.toHosts, h.hosts.depth_returnTo hl, fun k hk => ?_, ?_⟩ hs ht ?_
  · rw [h.hosts.store_returnTo hl, Store.rewind_rewind hk.le hl]
    exact h.rewind_eq k hk.le
  · exact (h.hosts.infeasible_returnTo hl).trans h.infeasible_eq
  · rw [h.hosts.store_returnTo hl, h.rewind_eq _ le_rfl, depth, Store.rewind_depth]

end Solver

/-- The request narrows, propagates, opens a level, goes back to a level above `level`, enumerates or asks; it adds
nothing. -/
def Request.StaysAbove (level : Nat) : Request → Prop
  | .newSet _ _ | .newInt _ _ | .add _ | .addScript _ | .post _ => False
  | .backtrack l => level < l
  | _ => True

namespace Session

variable {s t : Session} {cs : List Constraint} {r : Request} {rs es : List Request}

/-- Requests that open a level, stay above and come back, or enumerate. -/
inductive Excursion (s : Session) : List Request → Prop
  | levels {rs : List Request} (h : ∀ r ∈ rs, r.StaysAbove s.solver.depth) :
      Excursion s (.mark :: (rs ++ [.backtrack s.solver.depth]))
  | solve (limit : Nat) : Excursion s [.solve limit]
  | allSolutions : Excursion s [.allSolutions]

/-- A session that stays above a level stays away. -/
private theorem away_perform (h : s.solver.Away t.solver cs) (hr : r.StaysAbove s.solver.depth)
    (hf : ∀ f, (t.perform r).1 ≠ .error (.fault f)) :
    s.solver.Away (t.perform r).2.solver cs ∧ (t.perform r).2.handles = t.handles := by
  have ho : s.solver.Away t.opened.solver cs := { h with hosts := { h.hosts with } }
  cases r with
  | narrow n => exact ⟨ho.narrow n, rfl⟩
  | propagate => exact ⟨ho.propagate (ne_fault_of_settle hf), rfl⟩
  | mark => exact ⟨ho.mark, rfl⟩
  | backtrack level =>
    rw [perform_backtrack] at hf ⊢
    rw [Solver.backtrack] at hf ⊢
    by_cases hl : t.opened.solver.depth < level
    · -- going back to a level that is not open is a fault
      rw [if_pos hl] at hf
      exact absurd rfl (hf .levelNotOpen)
    · rw [if_neg hl]
      exact ⟨ho.returnTo hr (Nat.le_of_not_lt hl), rfl⟩
  | solve | allSolutions =>
    obtain ⟨found, hfound⟩ := ok_of_settle hf
    exact ⟨ho.solutions hfound, rfl⟩
  | newSet | newInt | add | addScript | post => exact hr.elim
  | entailment | isPassive | describe | entailmentOfAll | counts | see | contains => exact ⟨ho, rfl⟩

/-- A session that comes back is a twin of what it was. -/
private theorem twins_of_away (h : s.solver.Away t.solver cs) (hs : s.solver.Ready cs)
    (hr : ∀ r ∈ rs, r.StaysAbove s.solver.depth) (hsurv : t.Survives (rs ++ [.backtrack s.solver.depth])) :
    s.solver.Twins (t.run (rs ++ [.backtrack s.solver.depth])).solver cs ∧
      (t.run (rs ++ [.backtrack s.solver.depth])).handles = t.handles := by
  induction rs generalizing t with
  | nil =>
    -- only the way back is left
    have ho : s.solver.Away t.opened.solver cs := { h with hosts := { h.hosts with } }
    refine ⟨?_, rfl⟩
    show s.solver.Twins (t.opened.solver.backtrack s.solver.depth).solver cs
    rw [Solver.backtrack, if_neg (Nat.not_lt_of_gt ho.lt_depth)]
    exact ho.twins hs
  | cons r rs ih =>
    obtain ⟨hnext, hhandles⟩ := away_perform h (hr r (by simp)) hsurv.1
    obtain ⟨htwins, hsame⟩ := ih hnext (fun q hq => hr q (by simp [hq])) hsurv.2
    exact ⟨htwins, hsame.trans hhandles⟩

private theorem twins_solutions {found : List Assignment} (h : s.Reached cs true)
    (hok : s.opened.solver.solutions.result = .ok found) : s.solver.Twins s.opened.solver.solutions.solver cs :=
  have htwins := h.opened_ready.twins_solutions hok
  { htwins with left := { htwins.left with } }

private theorem Reached.twins_of_excursion (h : s.Reached cs true) (he : s.Excursion es) (hsurv : s.Survives es) :
    Twins s (s.run es) cs := by
  cases he with
  | levels hr =>
    have hopen : s.solver.Away (s.perform .mark).2.solver cs :=
      have hmark := h.opened_hosts.away_mark
      { hmark with }
    obtain ⟨htwins, hhandles⟩ := twins_of_away hopen h.ready hr hsurv.2
    exact ⟨htwins, hhandles⟩
  | solve limit =>
    obtain ⟨found, hfound⟩ := ok_of_settle hsurv.1
    exact ⟨twins_solutions h hfound, rfl⟩
  | allSolutions =>
    obtain ⟨found, hfound⟩ := ok_of_settle hsurv.1
    exact ⟨twins_solutions h hfound, rfl⟩

/-- An excursion from a session that has answered every error by going back makes no difference to what is answered
later, nor to the domains after a request that is no failed propagation or addition. -/
theorem Reached.agree_of_excursion (h : s.Reached cs true) (he : s.Excursion es) (hends : s.Survives es)
    (hb : ∀ q ∈ rs ++ [r], q.BuiltIn) (hd : s.Disciplined (rs ++ [r])) (hsurv : s.Survives rs) :
    (s.run es).Survives rs ∧ Agree (s.run rs) ((s.run es).run rs) r ∨ Breaks s (s.run es) (rs ++ [r]) :=
  (h.twins_of_excursion he hends).agree h hb hd hsurv

/-- What leads to a contradiction on a level of its own. -/
private def attempt : List Request := [.narrow (.atMost ⟨0⟩ 2), .propagate]

/-- In the example, whose last change has not been propagated, the excursion ends in a contradiction, and what the
change means for the bound comes out afterwards. -/
theorem agree_of_excursion_sample : sample.Reached [.strictBound ⟨⟨0⟩, ⟨0⟩⟩] true ∧
    sample.Survives (.mark :: (attempt ++ [.backtrack 0])) ∧
    Agree (sample.run [.propagate]) ((sample.run (.mark :: (attempt ++ [.backtrack 0]))).run [.propagate])
      (.see (.int ⟨0⟩)) ∧
    ((sample.run [.propagate]).perform (.see (.int ⟨0⟩))).1 = .ok (.domain (.int ⟨3, 3, by decide⟩)) := by
  have hdepth : sample.solver.depth = 0 := by decide +kernel
  have he : sample.Excursion (.mark :: (attempt ++ [.backtrack 0])) := by
    have he : sample.Excursion (.mark :: (attempt ++ [.backtrack sample.solver.depth])) :=
      .levels (by simp [attempt, Request.StaysAbove])
    rwa [hdepth] at he
  have hends : sample.Survives (.mark :: (attempt ++ [.backtrack 0])) := by decide +kernel
  have hb : ∀ q ∈ [Request.propagate] ++ [.see (.int ⟨0⟩)], q.BuiltIn := by simp [Request.BuiltIn]
  have hno : ¬ Breaks sample (sample.run (.mark :: (attempt ++ [.backtrack 0])))
      ([.propagate] ++ [.see (.int ⟨0⟩)]) :=
    not_breaks (by decide +kernel) (by decide +kernel)
  exact ⟨reached_sample, hends, ((reached_sample.agree_of_excursion he hends hb (by decide +kernel)
    (by decide +kernel)).resolve_right hno).2, by decide +kernel⟩

end Session

end SetConstraints
