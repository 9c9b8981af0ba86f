import SetConstraints.Proofs.Session
import SetConstraints.Proofs.Within

/-!
# What propagation comes to

Whatever the order in which propagators run, propagation narrows only what constraints are about, and loses no
solution (`Session.Reached.propagate_keeps_solutions`).  From a session in which every error has been answered by
going back, it comes to the widest domains that no propagator changes, so that neither the order of additions nor the
options matter (`Session.Reached.propagate_widest`), and whenever the loop ends with an empty queue, every propagator
is at its fixpoint, also those at rest (`Session.Reached.fixpoint_of_empty_queue`).
-/

namespace SetConstraints

/-- A call from scratch succeeds and changes nothing. -/
def Propagator.Fixes (p : Propagator) (d : Domains) : Prop := p.fromScratch.Quiet { domains := d } ()

namespace Solver

/-- Domains within those of the solver that no propagator changes, be it at rest or not. -/
structure IsFixpoint (s : Solver) (d : Domains) : Prop where
  wellFormed : d.WellFormed
  within : d.Within s.store.domains
  fixes : ∀ p a, s.agents.get? p = some a → a.propagator.Fixes d

variable {s t : Solver} {cs cs' l l' : List Constraint} {d : Domains}

/-! ### The widest fixpoint -/

private theorem Hosts.inScope_of_within (h : s.Hosts cs) (hd : d.Within s.store.domains) :
    ∀ c ∈ cs, c.InScope d :=
  fun c hc r hr => (Domains.has_congr hd.size_sets hd.size_ints _).2 (h.inScope c hc r hr)

/-- No propagator changes domains exactly if all rules are stable there. -/
theorem Hosts.isFixpoint_iff (h : s.Hosts cs) :
    s.IsFixpoint d ↔ d.WellFormed ∧ d.Within s.store.domains ∧ ∀ c ∈ cs, c.Stable d.view := by
  constructor
  · rintro ⟨hwf, hd, hfix⟩
    refine ⟨hwf, hd, fun c hc => ?_⟩
    obtain ⟨i, hi⟩ := List.getElem?_of_mem hc
    obtain ⟨a, ha⟩ := h.exists_agent (p := ⟨i⟩) hi
    have hquiet := hfix ⟨i⟩ a ha
    rw [h.propagator_eq ⟨i⟩ a c ha hi] at hquiet
    exact (Constraint.quiet_fromScratch (s := { domains := d }) hwf (h.inScope_of_within hd c hc)).1 hquiet
  · rintro ⟨hwf, hd, hst⟩
    refine ⟨hwf, hd, fun p a ha => ?_⟩
    obtain ⟨c, hc, hmem⟩ := h.exists_constraint ha
    rw [h.propagator_eq p a c ha hc]
    exact (Constraint.quiet_fromScratch (s := { domains := d }) hwf (h.inScope_of_within hd c hmem)).2 (hst c hmem)

/-- Above a fixpoint propagation succeeds, and stays above it. -/
theorem Ready.within_propagate (h : s.Ready cs) (hd : s.IsFixpoint d) :
    s.propagate.result = .ok () ∧ d.Within s.propagate.solver.store.domains := by
  obtain ⟨hwf, hin, hst⟩ := h.toHosts.isFixpoint_iff.1 hd
  have hf : ∀ f, s.propagate.result ≠ .error (.fault f) := fun f hf => by
    obtain ⟨-, hl⟩ := h.safe_propagate hf
    obtain ⟨c, hc, w, hw, hno⟩ := hl.of_size hin.size_sets.symm hin.size_ints.symm
    exact hno (Constraint.has_of_stable (h.toHosts.inScope_of_within hin c hc) (hst c hc) w hw)
  obtain ⟨h1, h2⟩ := h.toHosts.propagate hf
  obtain ⟨hle, hok⟩ := h.toHosts.keeps_propagate hf hst ((Domains.within_iff hwf h.valid.wellFormed).1 hin).2.2
  refine ⟨hok, (Domains.within_iff hwf h1.valid.wellFormed).2 ⟨?_, ?_, hle⟩⟩
  · exact hin.size_sets.trans h2.narrower.size_sets.symm
  · exact hin.size_ints.trans h2.narrower.size_ints.symm

/-- Successful propagation comes to a fixpoint. -/
theorem Ready.isFixpoint_propagate (h : s.Ready cs) (hok : s.propagate.result = .ok ()) :
    s.IsFixpoint s.propagate.solver.store.domains := by
  obtain ⟨h1, h2⟩ := h.toHosts.propagate (by simp [hok])
  exact h.toHosts.isFixpoint_iff.2
    ⟨h1.valid.wellFormed, h2.narrower.within h.valid.wellFormed, (h.propagate hok).stable⟩

/-! ### The order of additions -/

/-- If additions succeed, then so do the same additions in another order, and they narrow no further. -/
private theorem Ready.le_addAll_perm (hs : s.Ready cs) (ht : t.Ready cs') (hd : t.store.domains = s.store.domains)
    (hcs : cs'.Perm cs) (hl : l'.Perm l) (hok : (s.addAll l).result = .ok ()) :
    (t.addAll l').result = .ok () ∧
      (s.addAll l).solver.store.domains.view ≤ (t.addAll l').solver.store.domains.view := by
  rcases eq_or_ne l [] with rfl | hne
  · obtain rfl := hl.eq_nil
    exact ⟨rfl, by rw [Solver.addAll, Solver.addAll, hd]⟩
  · obtain ⟨h1, h2, h3⟩ := hs.addAll hok
    have hst := h2 hne
    have hmem : ∀ c, c ∈ cs' ++ l' ↔ c ∈ cs ++ l := fun c => (hcs.append hl).mem_iff
    have hhas : ∀ w, (s.addAll l).solver.store.domains.Has w ↔ t.store.domains.Has w := fun w => hd ▸ h3.has_iff w
    have hin : ∀ c ∈ l', c ∈ cs ++ l := fun c hc => (hmem c).1 (List.mem_append_right _ hc)
    refine ht.keeps_addAll (fun c hc => hst c ((hmem c).1 hc)) (hd ▸ h3.le) (fun c hc d => ?_) (fun c hc r hr => ?_)
      fun c hc w hw => ?_
    · exact Constraint.defect_of_proper (h1.proper c (hin c hc)) d
    · exact (hhas _).1 (h1.inScope c (hin c hc) r hr)
    · have hc := (hmem c).1 hc
      exact (hhas w).1 (Constraint.has_of_stable (h1.inScope c hc) (hst c hc) w hw)

/-- The order of additions does not matter to the domains that they come to. -/
theorem Ready.domains_addAll_perm (hs : s.Ready cs) (ht : t.Ready cs') (hd : t.store.domains = s.store.domains)
    (hcs : cs'.Perm cs) (hl : l'.Perm l) (hok : (s.addAll l).result = .ok ()) :
    (t.addAll l').solver.store.domains = (s.addAll l).solver.store.domains := by
  obtain ⟨hok', hle⟩ := hs.le_addAll_perm ht hd hcs hl hok
  obtain ⟨-, hle'⟩ := ht.le_addAll_perm hs hd.symm hcs.symm hl.symm hok'
  obtain ⟨-, -, h2⟩ := hs.addAll hok
  obtain ⟨-, -, k2⟩ := ht.addAll hok'
  exact Store.Narrower.domains_eq hd h2 k2 hle hle'

end Solver

namespace Session

variable {s : Session} {cs : List Constraint} {settled : Bool} {r : Request}

/-! ### The answers of a session -/

section
variable {ε : Type} {o : Outcome (Stop ε) Unit} {failure : ε → Failure}

private theorem settle_eq_done :
    (s.settle o (failureOf failure) fun _ => .done).1 = .ok .done ↔ o.result = .ok () := by
  cases h : o.result with
  | ok x => simp [settle, h]
  | error why => simp [settle, h]

private theorem settle_eq_error {e : Failure} :
    (s.settle o (failureOf failure) fun _ => .done).1 = .error e ↔
      ∃ why, o.result = .error why ∧ failureOf failure why = e := by
  cases h : o.result with
  | ok x => simp [settle, h]
  | error why => simp [settle, h]

end

private theorem propagate_eq_done :
    (s.perform .propagate).1 = .ok .done ↔ s.opened.solver.propagate.result = .ok () :=
  settle_eq_done

private theorem post_eq_done {l : List Constraint} :
    (s.perform (.post l)).1 = .ok .done ↔ (s.opened.solver.addAll l).result = .ok () := settle_eq_done

private theorem propagate_eq_contradiction {e : Contradiction} :
    (s.perform .propagate).1 = .error (.contradiction e) ↔ s.opened.solver.propagate.result = .error (.error e) := by
  refine settle_eq_error.trans ⟨?_, fun h => ⟨_, h, rfl⟩⟩
  rintro ⟨_ | _, h, hf⟩ <;> cases hf
  exact h

/-- An answer is a fault only if the operation is. -/
private theorem fault_of_settle {ε α : Type} {o : Outcome (Stop ε) α} {failure : ε → Failure} {answer : α → Answer}
    (hfailure : ∀ e f, failure e ≠ .fault f) {f : Fault}
    (h : (s.settle o (failureOf failure) answer).1 = .error (.fault f)) : o.result = .error (.fault f) := by
  cases hres : o.result with
  | ok x => simp [settle, hres] at h
  | error why =>
    rw [settle, hres] at h
    cases why with
    | error e => exact absurd (Except.error.inj h) (hfailure e f)
    | fault f' => cases h; rfl

/-! ### No solution is lost -/

/-- A successful propagation keeps the solutions, narrows domains and leaves alone what no constraint is about; one
that gives up does so because there is no solution.  Errors before that went unanswered do not matter. -/
theorem Reached.propagate_keeps_solutions (h : s.Reached cs settled) :
    ((s.perform .propagate).1 = .ok .done →
      (∀ a, s.solver.store.domains.Admits a → (∀ c ∈ cs, c.Holds a) →
        (s.perform .propagate).2.solver.store.domains.Admits a) ∧
      (s.perform .propagate).2.solver.store.domains.Within s.solver.store.domains ∧
      ∀ w, (∀ c ∈ cs, w ∉ c.operands) →
        (s.perform .propagate).2.solver.store.domains.domain? w = s.solver.store.domains.domain? w) ∧
    (∀ e, (s.perform .propagate).1 = .error (.contradiction e) →
      ∀ a, s.solver.store.domains.Admits a → ¬ ∀ c ∈ cs, c.Holds a) ∧
    ∀ f, (s.perform .propagate).1 = .error (.fault f) →
      f = .unknownIndex ∧ Lacks cs s.solver.store.domains ∨ s.solver.options.checks = true := by
  have hhosts := h.opened_hosts
  refine ⟨fun hok => ?_, fun e he a hadm => ?_, fun f hf => ?_⟩
  · have hok := propagate_eq_done.1 hok
    obtain ⟨-, hadv⟩ := hhosts.propagate (by simp [hok])
    refine ⟨fun a hadm hall => (hhosts.admits_propagate_iff hok hall).2 hadm,
      hadv.narrower.within hhosts.valid.wellFormed, fun w hw => hadv.narrower.domain_eq w ?_⟩
    rintro n ⟨c, hc, hn⟩ rfl
    exact hw c hc hn
  · exact hhosts.not_holds_of_error (propagate_eq_contradiction.1 he) hadm
  · exact hhosts.safe_propagate (fault_of_settle (by simp) hf)

/-- In the example, 2 in the set leaves only 3 to the bound. -/
theorem propagate_keeps_sample : sample.Reached [.strictBound ⟨⟨0⟩, ⟨0⟩⟩] true ∧
    (sample.perform .propagate).2.solver.store.domains.domain? (.int ⟨0⟩) = .ok (.int ⟨3, 3, by decide⟩) ∧
    (sample.perform .propagate).2.solver.store.domains.Within sample.solver.store.domains :=
  ⟨reached_sample, by decide +kernel, (reached_sample.propagate_keeps_solutions.1 (by decide +kernel)).2.1⟩

/-! ### The widest fixpoint -/

/-- If every error has been answered by going back, propagation succeeds exactly if there are domains within the
current ones that no propagator changes, and comes to the widest of them.  So another session with the same domains
and constraints succeeds in adding the same constraints in another order if this one does, and comes to the same
domains, whatever the options of the two are. -/
theorem Reached.propagate_widest (h : s.Reached cs true) :
    ((s.perform .propagate).1 = .ok .done ↔ ∃ d, s.solver.IsFixpoint d) ∧
    ((s.perform .propagate).1 = .ok .done →
      s.solver.IsFixpoint (s.perform .propagate).2.solver.store.domains ∧
      ∀ d, s.solver.IsFixpoint d → d.Within (s.perform .propagate).2.solver.store.domains) ∧
    ∀ (t : Session) (cs' l l' : List Constraint), t.Reached cs' true →
      t.solver.store.domains = s.solver.store.domains → cs'.Perm cs → l'.Perm l →
      ((s.perform (.post l)).1 = .ok .done ↔ (t.perform (.post l')).1 = .ok .done) ∧
      ((s.perform (.post l)).1 = .ok .done →
        (t.perform (.post l')).2.solver.store.domains = (s.perform (.post l)).2.solver.store.domains) := by
  have hready := h.opened_ready
  have hsame : ∀ d, s.opened.solver.IsFixpoint d ↔ s.solver.IsFixpoint d :=
    fun d => ⟨fun hd => { hd with }, fun hd => { hd with }⟩
  refine ⟨⟨fun hok => ?_, fun ⟨d, hd⟩ => ?_⟩, fun hok => ⟨?_, fun d hd => ?_⟩, fun t cs' l l' ht hd hcs hl =>
    ⟨⟨fun hok => ?_, fun hok => ?_⟩, fun hok => ?_⟩⟩
  · exact ⟨_, (hsame _).1 (hready.isFixpoint_propagate (propagate_eq_done.1 hok))⟩
  · exact propagate_eq_done.2 (hready.within_propagate ((hsame d).2 hd)).1
  · exact (hsame _).1 (hready.isFixpoint_propagate (propagate_eq_done.1 hok))
  · exact (hready.within_propagate ((hsame d).2 hd)).2
  · exact post_eq_done.2 (hready.le_addAll_perm ht.opened_ready hd hcs hl (post_eq_done.1 hok)).1
  · exact post_eq_done.2 (ht.opened_ready.le_addAll_perm hready hd.symm hcs.symm hl.symm (post_eq_done.1 hok)).1
  · exact hready.domains_addAll_perm ht.opened_ready hd hcs hl (post_eq_done.1 hok)

/-- The domains of the example have a fixpoint, and adding the constraint a second time narrows them alike. -/
theorem propagate_widest_sample : sample.Reached [.strictBound ⟨⟨0⟩, ⟨0⟩⟩] true ∧ (∃ d, sample.solver.IsFixpoint d) ∧
    (sample.perform (.post [.strictBound ⟨⟨0⟩, ⟨0⟩⟩])).1 = .ok .done :=
  ⟨reached_sample, reached_sample.propagate_widest.1.1 (by decide +kernel),
    (reached_sample.propagate_widest.2.2 sample _ _ _ reached_sample rfl (.refl _) (.refl _)).1.2 (by decide +kernel)⟩

/-! ### Empty queues -/

/-- The solvers from which a session propagates while it performs a request. -/
inductive PropagatesFrom (s : Session) : Request → Solver → Prop
  | propagate : PropagatesFrom s .propagate s.opened.solver
  | add {c : Constraint} {w : WatchList} (hinf : s.opened.solver.infeasible = false)
      (hd : c.posting.defect? s.opened.solver.store.domains = none)
      (hw : s.opened.solver.watches.registerAll? s.opened.solver.agents.nextKey c.posting.registrations = some w) :
      PropagatesFrom s (.add c) (s.opened.solver.joined c.posting w)
  | post {before after : List Constraint} {c : Constraint} {w : WatchList} {u : Solver}
      (hbefore : s.opened.solver.addAll before = ⟨.ok (), u⟩) (hinf : u.infeasible = false)
      (hd : c.posting.defect? u.store.domains = none)
      (hw : u.watches.registerAll? u.agents.nextKey c.posting.registrations = some w) :
      PropagatesFrom s (.post (before ++ c :: after)) (u.joined c.posting w)
  | solve {limit : Nat} {u : Solver} (hinf : s.opened.solver.infeasible = false)
      (hu : Solver.Visits s.opened.solver.store.domains.freedom s.opened.solver.mark u) :
      PropagatesFrom s (.solve limit) u
  | allSolutions {u : Solver} (hinf : s.opened.solver.infeasible = false)
      (hu : Solver.Visits s.opened.solver.store.domains.freedom s.opened.solver.mark u) :
      PropagatesFrom s .allSolutions u

theorem Reached.ready_of_propagatesFrom {u : Solver} (h : s.Reached cs true) (hu : s.PropagatesFrom r u) :
    ∃ cs', u.Ready cs' := by
  have hready := h.opened_ready
  have hmark := hready.mark
  cases hu with
  | propagate => exact ⟨cs, hready⟩
  | add hinf hd hw => exact ⟨_, hready.joined hd hw⟩
  | post hbefore hinf hd hw =>
    have hadded := (hready.addAll (by rw [hbefore])).1
    rw [hbefore] at hadded
    exact ⟨_, hadded.joined hd hw⟩
  | solve hinf hu => exact ⟨cs, hmark.visits hu⟩
  | allSolutions hinf hu => exact ⟨cs, hmark.visits hu⟩

theorem Reached.fault_cases {f : Fault} (h : s.Reached cs true) (hr : r.Propagates)
    (hf : (s.perform r).1 = .error (.fault f)) : f = .unknownIndex ∨ ∃ m n, f = .unequalLengths m n := by
  have hready := h.opened_ready
  have hsolutions : ∀ {answer : List Assignment → Answer},
      (s.opened.settle s.opened.solver.solutions .fault answer).1 = .error (.fault f) → f = .unknownIndex := by
    intro answer hf
    rcases hready.solutions with ⟨found, hfound, -⟩ | ⟨-, hno⟩
    · simp [settle, hfound] at hf
    · simpa [settle, hno] using hf.symm
  cases r with
  | propagate => exact .inl (hready.safe_propagate (fault_of_settle (by simp) hf)).1
  | add c =>
    refine hready.safe_add (c := c) ?_
    have hperform : s.perform (.add c) = s.opened.addPosting c.posting := rfl
    rw [hperform, addPosting] at hf
    cases hres : (s.opened.solver.add c.posting).result with
    | ok p => simp [hres] at hf
    | error why =>
      cases why with
      | error e => simp [hres, failureOf] at hf
      | fault f' => simpa [hres, failureOf] using hf
  | post l => exact hready.safe_addAll (fault_of_settle (by simp) hf)
  | solve limit => exact .inl (hsolutions hf)
  | allSolutions => exact .inl (hsolutions hf)
  | _ => exact hr.elim

/-- If every error has been answered by going back, then whenever the loop ends with an empty queue, a call from
scratch of any propagator, also of one at rest, succeeds and changes nothing, and the check of the fixpoint leaves
nothing but its calls in the journal.  So no request fails for a check of a fixpoint. -/
theorem Reached.fixpoint_of_empty_queue (h : s.Reached cs true) :
    (∀ r u, s.PropagatesFrom r u → u.notify.drain.result = .ok () →
      u.notify.drain.solver.queue.pop = none ∧
      (∀ p a, u.notify.drain.solver.agents.get? p = some a →
        a.propagator.fromScratch.Quiet u.notify.drain.solver.store ()) ∧
      ∃ j, u.notify.drain.solver.checkFixpoint = ⟨.ok (), { u.notify.drain.solver with journal := j }⟩) ∧
    ∀ r : Request, r.Propagates → ∀ f, (s.perform r).1 = .error (.fault f) →
      f = .unknownIndex ∨ ∃ m n, f = .unequalLengths m n := by
  refine ⟨fun r u hu hok => ?_, fun r hr f hf => h.fault_cases hr hf⟩
  obtain ⟨cs', hready⟩ := h.ready_of_propagatesFrom hu
  obtain ⟨h1, hfix⟩ := hready.drain hok
  exact ⟨hfix.pop_eq, fun p a ha => hfix.quiet h1.toHosts rfl ha, hfix.checkFixpoint_eq h1.toHosts⟩

/-- In the example the loop ends with an empty queue, and the check passes. -/
theorem fixpoint_of_empty_queue_sample : sample.Reached [.strictBound ⟨⟨0⟩, ⟨0⟩⟩] true ∧
    sample.opened.solver.notify.drain.result = .ok () ∧ sample.opened.solver.notify.drain.solver.queue.pop = none ∧
    ∃ j, sample.opened.solver.notify.drain.solver.checkFixpoint =
      ⟨.ok (), { sample.opened.solver.notify.drain.solver with journal := j }⟩ :=
  have hok : sample.opened.solver.notify.drain.result = .ok () := by decide +kernel
  have hfix := reached_sample.fixpoint_of_empty_queue.1 .propagate _ .propagate hok
  ⟨reached_sample, hok, hfix.1, hfix.2.2⟩

end Session

end SetConstraints
