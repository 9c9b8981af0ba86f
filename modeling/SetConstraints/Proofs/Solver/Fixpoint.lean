import SetConstraints.Proofs.Solver.Round

/-!
# Propagation to a fixpoint

What every round keeps holds in the state in which the loop stops (`Solver.exists_stops`).  So propagation hosts the
same constraints, narrows their operands only (`Solver.Hosts.propagate`), and loses no view at which all rules are
stable (`Solver.Hosts.keeps_propagate`).  If all constraints are covered and the loop ends with an empty queue, then
all rules are stable (`Solver.Covered.drain`): running every propagator again has no effect, and the check of the
fixpoint passes and leaves only its calls in the journal (`Solver.Fixed.checkFixpoint_eq`).
-/

namespace SetConstraints

namespace Solver

variable {s t : Solver} {cs : List Constraint} {P : Narrowing → Prop} {o : Outcome (Stop Contradiction) Unit}

/-! ### The loop -/

/-- How the loop ends in the last state that it gets to. -/
inductive Stops (t : Solver) : Outcome (Stop Contradiction) Unit → Prop
  | empty (hpop : t.queue.pop = none) : Stops t ⟨.ok (), t⟩
  | contradiction {p : PropagatorId} {q : Queue} {e : Contradiction} (hpop : t.queue.pop = some (p, q))
      (hrun : (({ t with queue := q } : Solver).runAgent p).result = .error (.error e)) :
      Stops t ⟨.error (.error e), (({ t with queue := q } : Solver).runAgent p).solver.giveUp p e⟩
  | fault {p : PropagatorId} {q : Queue} {f : Fault} (hpop : t.queue.pop = some (p, q))
      (hrun : (({ t with queue := q } : Solver).runAgent p).result = .error (.fault f)) :
      Stops t ⟨.error (.fault f), (({ t with queue := q } : Solver).runAgent p).solver⟩

/-- What rounds keep, holds when the loop stops. -/
theorem exists_stops {I : Solver → Prop} (hround : ∀ t p q, I t → t.queue.pop = some (p, q) →
      (({ t with queue := q } : Solver).runAgent p).result = .ok () →
        I (({ t with queue := q } : Solver).runAgent p).solver.notify) (hs : I s) :
    ∃ t, I t ∧ t.Stops s.drain := by
  fun_induction drain s with
  | case1 s hpop => exact ⟨s, hs, .empty hpop⟩
  | case2 s p q hpop o e hrun => exact ⟨s, hs, .contradiction hpop hrun⟩
  | case3 s p q hpop o f hrun => exact ⟨s, hs, .fault hpop hrun⟩
  | case4 s p q hpop o hrun ih => exact ih (hround s p q hs hpop hrun)

theorem store_notify (s : Solver) : s.notify.store = { s.store with changes := #[] } := by
  rw [(notified_notify s).eq_with]

/-- A successful loop leaves nobody waiting and nothing to be delivered. -/
theorem empty_of_drain (hs : s.store.changes = #[]) (hok : s.drain.result = .ok ()) :
    s.drain.solver.queue.pop = none ∧ s.drain.solver.store.changes = #[] := by
  obtain ⟨t, ht, hstops⟩ := exists_stops (I := fun t => t.store.changes = #[])
    (fun t p q _ _ _ => by rw [store_notify]) hs
  generalize s.drain = o at hstops hok
  cases hstops with
  | empty hpop => exact ⟨hpop, ht⟩
  | contradiction hpop hrun => cases hok
  | fault hpop hrun => cases hok

theorem Hosts.drain (h : s.Hosts cs) : s.drain.solver.Hosts cs ∧ Advanced (Touches cs) s s.drain.solver := by
  obtain ⟨t, ⟨ht, hadv⟩, hstops⟩ := exists_stops (I := fun t => t.Hosts cs ∧ Advanced (Touches cs) s t)
    (fun t p q ⟨ht, hadv⟩ hpop _ => ⟨(ht.round hpop).1, hadv.trans (ht.round hpop).2⟩)
    ⟨h, .refl h.valid.wellFormed⟩
  generalize s.drain = o at hstops
  cases hstops with
  | empty hpop => exact ⟨ht, hadv⟩
  | contradiction hpop hrun =>
    obtain ⟨h1, h2⟩ := ht.run hpop
    obtain ⟨h3, h4⟩ := h1.giveUp (P := Touches cs) _ _
    exact ⟨h3, (hadv.trans h2).trans h4⟩
  | fault hpop hrun => exact ⟨(ht.run hpop).1, hadv.trans (ht.run hpop).2⟩

/-- A view at which all rules are stable stays below the domains, and above one the loop finds no contradiction. -/
theorem Hosts.keeps_drain (h : s.Hosts cs) {V : View} (hst : ∀ c ∈ cs, c.Stable V) (hV : V ≤ s.store.domains.view) :
    V ≤ s.drain.solver.store.domains.view ∧ ∀ e, s.drain.result ≠ .error (.error e) := by
  obtain ⟨t, ⟨ht, hVt⟩, hstops⟩ := exists_stops (I := fun t => t.Hosts cs ∧ V ≤ t.store.domains.view)
    (fun t p q ⟨ht, hVt⟩ hpop _ => ⟨(ht.round hpop).1, by rw [store_notify]; exact (ht.keeps_run hpop hst hVt).1⟩)
    ⟨h, hV⟩
  generalize s.drain = o at hstops
  cases hstops with
  | empty hpop => exact ⟨hVt, by simp⟩
  | contradiction hpop hrun => exact absurd hrun ((ht.keeps_run hpop hst hVt).2 _)
  | fault hpop hrun => exact ⟨(ht.keeps_run hpop hst hVt).1, by simp⟩

/-- The loop is a fault only for want of an operand. -/
theorem Hosts.safe_drain (h : s.Hosts cs) {f : Fault} (hf : s.drain.result = .error (.fault f)) :
    f = .unknownIndex ∧ Lacks cs s.store.domains := by
  obtain ⟨t, ⟨ht, hadv⟩, hstops⟩ := exists_stops (I := fun t => t.Hosts cs ∧ Advanced (Touches cs) s t)
    (fun t p q ⟨ht, hadv⟩ hpop _ => ⟨(ht.round hpop).1, hadv.trans (ht.round hpop).2⟩)
    ⟨h, .refl h.valid.wellFormed⟩
  generalize s.drain = o at hstops hf
  cases hstops with
  | empty hpop => cases hf
  | contradiction hpop hrun => cases hf
  | fault hpop hrun =>
    cases hf
    obtain ⟨hu, hl⟩ := ht.safe_run hpop hrun
    exact ⟨hu, hl.of_size hadv.narrower.size_sets hadv.narrower.size_ints⟩

/-- A state in which propagation ends: nobody waits, nothing is to be delivered, and all rules are stable. -/
structure Fixed (s : Solver) (cs : List Constraint) : Prop where
  pop_eq : s.queue.pop = none
  changes_eq : s.store.changes = #[]
  covered : s.Covered cs []
  stable : ∀ c ∈ cs, c.Stable s.store.domains.view

/-- With an empty queue, what is covered is stable. -/
private theorem Covered.stable (hcov : s.Covered cs []) (h : s.Hosts cs) (hpop : s.queue.pop = none) :
    ∀ c ∈ cs, c.Stable s.store.domains.view := by
  intro c hc
  obtain ⟨i, hi⟩ := List.getElem?_of_mem hc
  obtain ⟨a, ha⟩ := h.exists_agent (p := ⟨i⟩) hi
  have hno := (Queue.pop_eq_none_iff h.queue).1 hpop ⟨i⟩
  cases hcov ⟨i⟩ a c ha hi with
  | rests hp =>
    have hmem := (h.toLinked.passive_eq_true_iff ha).1 hp
    have := h.inert s.store.depth le_rfl ⟨i⟩ c hi (by rwa [← h.depth_eq, Trail.rewind_depth])
    rw [Store.rewind_depth] at this
    exact this.stable
  | due _ hw => simp [hno] at hw
  | settled _ hw hs =>
    refine hs.stable fun l e v hn => ?_
    rcases hn with hn | ⟨ch, hch, -⟩
    · have := hw ⟨l, e, v, hn⟩
      simp [hno] at this
    · simp at hch

/-- If all constraints are covered then a successful loop ends with all rules stable. -/
theorem Covered.drain (hcov : s.Covered cs []) (h : s.Hosts cs) (hs : s.store.changes = #[])
    (hok : s.drain.result = .ok ()) : s.drain.solver.Fixed cs := by
  obtain ⟨t, ⟨ht, hch, hcovt⟩, hstops⟩ := exists_stops
    (I := fun t => t.Hosts cs ∧ t.store.changes = #[] ∧ t.Covered cs [])
    (fun t p q ⟨ht, hch, hcovt⟩ hpop hrun => by
      refine ⟨(ht.round hpop).1, by rw [store_notify], ?_⟩
      exact Covered.round (by rw [hch]; exact hcovt) ht hpop hrun) ⟨h, hs, hcov⟩
  generalize s.drain = o at hstops hok
  cases hstops with
  | empty hpop => exact ⟨hpop, hch, hcovt, hcovt.stable ht hpop⟩
  | contradiction hpop hrun => cases hok
  | fault hpop hrun => cases hok

/-! ### The check -/

/-- A propagator without effect passes a check, and a passed check leaves nothing but journal entries. -/
private def Passes (o : Outcome (Stop Contradiction) Unit) (s : Solver) (quiet : Prop) : Prop :=
  (∃ j, o = ⟨.ok (), { s with journal := j }⟩) ∨ ¬ quiet ∧ ∃ f, o.result = .error (.fault f)

private theorem passes_checkAgent (hs : s.store.domains.WellFormed) (hch : s.store.changes = #[]) (p : PropagatorId)
    (a : Agent) :
    Passes (s.checkAgent s.depth p a) s (a.propagator.fromScratch.Quiet s.store.mark ()) := by
  obtain ⟨new, hnew⟩ := Action.narrowed_run (s := s.store.mark) (Action.only_true a.propagator.fromScratch) hs false
  have hact : ({ s with store := s.store.mark } : Solver).act (.scratch p) a.propagator.fromScratch =
      (a.propagator.fromScratch.run s.store.mark false, { s with
        store := (a.propagator.fromScratch.run s.store.mark false).store,
        journal := s.journal.push (.call (.scratch p) s.store.domains) }) := rfl
  simp only [checkAgent, hact, Action.Quiet]
  generalize a.propagator.fromScratch.run s.store.mark false = reply at hnew ⊢
  cases hres : reply.result with
  | error e => cases e with
    | error e => exact .inr ⟨by simp, _, rfl⟩
    | fault f => exact .inr ⟨by simp, _, rfl⟩
  | ok x =>
    simp only
    split
    · rename_i hempty
      have hnil : new = [] := by
        have := hnew.changes_eq
        rw [Array.isEmpty_iff.1 hempty] at this
        exact (List.append_eq_nil_iff.1 this.symm).2
      have hback : reply.store.rewind s.depth = s.store := by
        rw [hnew.eq_of_nil hnil, depth, Store.rewind_mark le_rfl, Store.rewind_depth, ← hch]
      rw [hback]
      exact .inl ⟨_, rfl⟩
    · rename_i hne
      refine .inr ⟨fun hquiet => hne ?_, _, rfl⟩
      rw [hquiet.1]
      exact Array.isEmpty_iff.2 hch

private theorem journal_checkAgent (s : Solver) (level : Nat) (p : PropagatorId) (a : Agent) :
    (s.checkAgent level p a).solver.journal = s.journal.push (.call (.scratch p) s.store.domains) := by
  unfold checkAgent
  split
  rename_i reply t hact
  have hj : t.journal = s.journal.push (.call (.scratch p) s.store.domains) := congrArg (·.2.journal) hact.symm
  split
  · exact hj
  · exact hj
  · split <;> exact hj

/-- A check that passes leaves nothing but its call in the journal. -/
theorem solver_checkAgent (hs : s.store.domains.WellFormed) (hch : s.store.changes = #[]) {p : PropagatorId}
    {a : Agent}
    (hok : (s.checkAgent s.depth p a).result = .ok ()) :
    (s.checkAgent s.depth p a).solver =
      { s with journal := s.journal.push (.call (.scratch p) s.store.domains) } := by
  obtain ⟨j, hj⟩ := (passes_checkAgent hs hch p a).resolve_right fun ⟨_, f, hf⟩ => by simp [hok] at hf
  have hjournal := journal_checkAgent s s.depth p a
  rw [hj] at hjournal ⊢
  exact congrArg (fun j => { s with journal := j }) hjournal

private theorem passes_checkAgents (hs : s.store.domains.WellFormed) (hch : s.store.changes = #[])
    (ps : List PropagatorId) : Passes (s.checkAgents s.depth ps) s
      (∀ p a, s.agents.get? p = some a → a.propagator.fromScratch.Quiet s.store.mark ()) := by
  induction ps generalizing s with
  | nil => exact .inl ⟨s.journal, rfl⟩
  | cons p ps ih =>
    rw [checkAgents]
    split
    · exact ih hs hch
    · rename_i a ha
      split
      · exact ih hs hch
      · rcases passes_checkAgent hs hch p a with ⟨j, hj⟩ | ⟨hno, f, hf⟩
        · simp only [hj]
          exact ih (s := { s with journal := j }) hs hch
        · simp only [hf]
          exact .inr ⟨fun h => hno (h p a ha), f, rfl⟩

/-- At a fixpoint running a propagator again has no effect. -/
theorem Fixed.quiet (hfix : s.Fixed cs) (h : s.Hosts cs) {p : PropagatorId} {a : Agent} {u : Store}
    (hu : u.domains = s.store.domains) (ha : s.agents.get? p = some a) : a.propagator.fromScratch.Quiet u () := by
  obtain ⟨c, hc, hmem⟩ := h.exists_constraint ha
  rw [h.propagator_eq p a c ha hc]
  exact (Constraint.quiet_fromScratch (hu ▸ h.valid.wellFormed) (hu ▸ h.inScope c hmem)).2 (hu ▸ hfix.stable c hmem)

/-- At a fixpoint the check passes, and leaves nothing but its calls in the journal. -/
theorem Fixed.checkFixpoint_eq (hfix : s.Fixed cs) (h : s.Hosts cs) :
    ∃ j, s.checkFixpoint = ⟨.ok (), { s with journal := j }⟩ :=
  (passes_checkAgents h.valid.wellFormed hfix.changes_eq s.agents.keys).resolve_right
    fun ⟨hno, _⟩ => hno fun _ _ ha => hfix.quiet h rfl ha

/-! ### Propagation -/

/-- Propagation ends as the loop does but for journal entries, unless the check finds that a propagator still has an
effect. -/
theorem propagate_cases (hs : s.notify.drain.solver.store.domains.WellFormed) :
    (∃ j, s.propagate = ⟨s.notify.drain.result, { s.notify.drain.solver with journal := j }⟩) ∨
      s.notify.drain.result = .ok () ∧
        (¬ ∀ p a, s.notify.drain.solver.agents.get? p = some a →
          a.propagator.fromScratch.Quiet s.notify.drain.solver.store.mark ()) ∧
        ∃ f, s.propagate.result = .error (.fault f) := by
  cases hres : s.notify.drain.result with
  | error e => exact .inl ⟨s.notify.drain.solver.journal, by simp only [propagate, hres]⟩
  | ok x =>
    by_cases hchecks : s.notify.drain.solver.options.checks = true
    · have heq : s.propagate = s.notify.drain.solver.checkFixpoint := by
        simp only [propagate, hres, hchecks, if_true]
      obtain ⟨-, hch⟩ := empty_of_drain (by rw [store_notify]) hres
      rw [heq]
      exact (passes_checkAgents hs hch s.notify.drain.solver.agents.keys).imp_right fun hno => ⟨rfl, hno⟩
    · refine .inl ⟨s.notify.drain.solver.journal, ?_⟩
      simp only [propagate, hres, hchecks]
      rfl

/-- Unless it ends in a fault, propagation ends as the loop does but for journal entries. -/
private theorem Hosts.propagate_cases (h : s.Hosts cs) :
    (∃ j, s.propagate = ⟨s.notify.drain.result, { s.notify.drain.solver with journal := j }⟩) ∨
      s.notify.drain.result = .ok () ∧ ¬ s.notify.drain.solver.Fixed cs ∧
        ∃ f, s.propagate.result = .error (.fault f) := by
  have hdrain := ((h.notified (notified_notify s)).drain).1
  exact (Solver.propagate_cases hdrain.valid.wellFormed).imp_right fun ⟨hok, hno, hf⟩ =>
    ⟨hok, fun hfix => hno fun _ _ ha => hfix.quiet hdrain rfl ha, hf⟩

/-- Unless propagation ends in a fault, the solver goes on hosting its constraints, narrowed in their operands. -/
theorem Hosts.propagate (h : s.Hosts cs) (hf : ∀ f, s.propagate.result ≠ .error (.fault f)) :
    s.propagate.solver.Hosts cs ∧ Advanced (Touches cs) s s.propagate.solver := by
  obtain ⟨j, hj⟩ := h.propagate_cases.resolve_right fun ⟨_, _, f, hno⟩ => hf f hno
  have hn := notified_notify s
  obtain ⟨h1, h2⟩ := (h.notified hn).drain
  obtain ⟨h3, h4, h5⟩ := (hn.advanced (P := Touches cs) h.valid.wellFormed).trans h2
  rw [hj]
  exact ⟨{ h1 with }, h3, h4, h5⟩

/-- A view at which all rules are stable stays below the domains, and above one propagation does not give up. -/
theorem Hosts.keeps_propagate (h : s.Hosts cs) (hf : ∀ f, s.propagate.result ≠ .error (.fault f)) {V : View}
    (hst : ∀ c ∈ cs, c.Stable V) (hV : V ≤ s.store.domains.view) :
    V ≤ s.propagate.solver.store.domains.view ∧ s.propagate.result = .ok () := by
  obtain ⟨j, hj⟩ := h.propagate_cases.resolve_right fun ⟨_, _, f, hno⟩ => hf f hno
  obtain ⟨h1, h2⟩ := (h.notified (notified_notify s)).keeps_drain hst (by rwa [store_notify])
  rw [hj] at hf ⊢
  refine ⟨h1, ?_⟩
  cases hres : s.notify.drain.result with
  | ok x => rfl
  | error why =>
    cases why with
    | error e => exact absurd hres (h2 e)
    | fault f => exact absurd hres (hf f)

/-- Propagation is a fault only for want of an operand, or where fixpoints are checked. -/
theorem Hosts.safe_propagate (h : s.Hosts cs) {f : Fault} (hf : s.propagate.result = .error (.fault f)) :
    f = .unknownIndex ∧ Lacks cs s.store.domains ∨ s.options.checks = true := by
  have hhosts := h.notified (notified_notify s)
  cases hres : s.notify.drain.result with
  | ok x =>
    refine .inr ?_
    by_contra hno
    have hoptions :=
      (((notified_notify s).advanced (P := Touches cs) h.valid.wellFormed).trans hhosts.drain.2).options_eq
    simp only [Solver.propagate, hres, hoptions, hno] at hf
    cases hf
  | error why =>
    simp only [Solver.propagate, hres] at hf
    obtain ⟨hu, hl⟩ := hhosts.safe_drain (hres.trans hf)
    rw [store_notify] at hl
    exact .inl ⟨hu, hl⟩

/-! ### Solutions -/

/-- An assignment satisfies the constraints exactly if the rules are stable at its view. -/
theorem Hosts.holds_iff (h : s.Hosts cs) (a : Assignment) :
    (∀ c ∈ cs, c.Holds a) ↔ ∀ c ∈ cs, c.Stable a.view :=
  forall₂_congr fun c hc => Constraint.holds_iff (h.proper c hc) a

/-- Propagation loses no solution, and makes none. -/
theorem Hosts.admits_propagate_iff (h : s.Hosts cs) (hok : s.propagate.result = .ok ()) {a : Assignment}
    (hall : ∀ c ∈ cs, c.Holds a) : s.propagate.solver.store.domains.Admits a ↔ s.store.domains.Admits a := by
  obtain ⟨h1, h2⟩ := h.propagate (by simp [hok])
  have hn := h2.narrower
  have hsets : (∀ r, s.propagate.solver.store.domains.Has (.set r) → (a.set r).Pairwise (· < ·)) ↔
      ∀ r, s.store.domains.Has (.set r) → (a.set r).Pairwise (· < ·) := forall_congr' fun r => by rw [hn.has_iff]
  rw [Domains.admits_iff h1.valid.wellFormed, Domains.admits_iff h.valid.wellFormed, hsets, hn.size_sets,
    hn.size_ints]
  refine and_congr_right fun _ => and_congr_right fun _ => and_congr_right fun _ => ⟨fun hle => ?_, fun hle => ?_⟩
  · exact le_trans hle hn.le
  · exact (h.keeps_propagate (by simp [hok]) ((h.holds_iff a).1 hall) hle).1

/-- Where propagation gives up there is no solution. -/
theorem Hosts.not_holds_of_error (h : s.Hosts cs) {e : Contradiction} (he : s.propagate.result = .error (.error e))
    {a : Assignment} (hadm : s.store.domains.Admits a) : ¬ ∀ c ∈ cs, c.Holds a := by
  intro hall
  have hle := ((Domains.admits_iff h.valid.wellFormed a).1 hadm).2.2.2
  have := (h.keeps_propagate (by simp [he]) ((h.holds_iff a).1 hall) hle).2
  simp [he] at this

/-- A solver that covers the constraints that it hosts, up to its pending changes. -/
structure Ready (s : Solver) (cs : List Constraint) : Prop extends Hosts s cs where
  covered : s.Covered cs s.store.changes.toList

theorem Fixed.ready (hfix : s.Fixed cs) (h : s.Hosts cs) : s.Ready cs :=
  { h with covered := by rw [hfix.changes_eq]; exact hfix.covered }

theorem Ready.narrowed {u : Store} {new : List Change} (h : s.Ready cs) (hn : s.store.Narrowed P u new) :
    ({ s with store := u } : Solver).Ready cs :=
  { h.toHosts.narrowed hn with
    covered := by
      have := h.covered.narrowed hn
      rw [← hn.changes_eq] at this
      exact this }

theorem Ready.extend {e : Domain} (h : s.Ready cs) (he : e.WellFormed) : (s.extend e).Ready cs :=
  { h.toHosts.extend he with covered := h.covered.extend h.toHosts }

theorem Ready.mark (h : s.Ready cs) : s.mark.Ready cs := { h.toHosts.mark with covered := h.covered }

/-- Going back covers all constraints, whatever was before. -/
theorem Hosts.ready_returnTo {level : Nat} (h : s.Hosts cs) (hl : level ≤ s.depth) : (s.returnTo level).Ready cs :=
  have hr := returned_returnTo h.toLinked hl
  { h.returned hl hr with covered := covered_of_returned hr cs _ }

/-- From a solver that covers its constraints, a successful loop ends at a fixpoint. -/
theorem Ready.drain (h : s.Ready cs) (hok : s.notify.drain.result = .ok ()) :
    s.notify.drain.solver.Ready cs ∧ s.notify.drain.solver.Fixed cs := by
  have hn := notified_notify s
  have hhosts := h.toHosts.notified hn
  have hfix := (h.covered.notified h.toHosts hn).drain hhosts (by rw [store_notify]) hok
  exact ⟨hfix.ready hhosts.drain.1, hfix⟩

/-- From a solver that covers its constraints, propagation gets to a fixpoint unless it gives up. -/
theorem Ready.propagate (h : s.Ready cs) (hok : s.propagate.result = .ok ()) : s.propagate.solver.Fixed cs := by
  obtain ⟨j, hj⟩ := h.toHosts.propagate_cases.resolve_right fun ⟨_, _, f, hno⟩ => by simp [hok] at hno
  rw [hj] at hok ⊢
  exact { (h.drain hok).2 with }

/-- From a solver that covers its constraints, propagation is a fault only for want of an operand. -/
theorem Ready.safe_propagate (h : s.Ready cs) {f : Fault} (hf : s.propagate.result = .error (.fault f)) :
    f = .unknownIndex ∧ Lacks cs s.store.domains := by
  rcases h.toHosts.propagate_cases with ⟨j, hj⟩ | ⟨hok, hno, -⟩
  · rw [hj] at hf
    obtain ⟨hu, hl⟩ := (h.toHosts.notified (notified_notify s)).safe_drain hf
    rw [store_notify] at hl
    exact ⟨hu, hl⟩
  · exact absurd (h.drain hok).2 hno

end Solver

end SetConstraints
