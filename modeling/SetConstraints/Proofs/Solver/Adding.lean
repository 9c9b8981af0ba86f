import SetConstraints.Proofs.Solver.Fixpoint
import SetConstraints.Session

/-!
# Adding constraints

A new propagator is due and waits, and its registrations tell it what its constraint listens to: the solver hosts one
constraint more and covers it (`Solver.Hosts.joined`, `Solver.Covered.joined`).  What addition comes to is then what
propagation comes to (`Solver.add_eq`).
-/

namespace SetConstraints

namespace Solver

variable {s : Solver} {cs : List Constraint} {c : Constraint} {w : WatchList} {pending : List Change}

/-- The state in which a solver propagates when it adds a wish whose registrations make its watch list `w`. -/
def joined (s : Solver) (c : Posting) (w : WatchList) : Solver :=
  let p := s.agents.nextKey
  let s := (s.record (.call (.create p) s.store.domains)).log (.adding c.propagator.text p c.propagator.priority)
  { s with
    watches := w
    agents := s.agents.push { propagator := c.propagator }
    queue := s.queue.enqueue p c.propagator.priority }

theorem add_of_infeasible (h : s.infeasible = true) (c : Posting) :
    s.add c = ⟨.error (.error .infeasibleState), s⟩ := by
  rw [add, if_pos h]

/-- What addition comes to, once the propagator is in the solver. -/
theorem add_eq {c : Posting} (h : s.infeasible = false) (hd : c.defect? s.store.domains = none)
    (hw : s.watches.registerAll? s.agents.nextKey c.registrations = some w) :
    s.add c =
      match (s.joined c w).propagate.result with
      | .ok () => ⟨.ok s.agents.nextKey, (s.joined c w).propagate.solver⟩
      | .error (.fault f) => ⟨.error (.fault f), (s.joined c w).propagate.solver⟩
      | .error (.error _) =>
        ⟨.error (.error .infeasiblePropagator), { (s.joined c w).propagate.solver with
          infeasible :=
            (s.joined c w).propagate.solver.infeasible || (s.joined c w).propagate.solver.depth = 0 }⟩ := by
  rw [add, if_neg (by simp [h])]
  simp only [record, hd, hw]
  rfl

/-- An addition finds the solver infeasible, is a fault before anything has happened, or gets as far as
propagation. -/
theorem add_cases (s : Solver) (c : Posting) :
    s.infeasible = true ∨
      (∃ f, (s.add c).result = .error (.fault f) ∧ (c.defect? s.store.domains = some f ∨ f = .unknownIndex)) ∨
      s.infeasible = false ∧ c.defect? s.store.domains = none ∧
        ∃ w, s.watches.registerAll? s.agents.nextKey c.registrations = some w := by
  cases hinf : s.infeasible with
  | true => exact .inl rfl
  | false =>
    refine .inr ?_
    cases hd : c.defect? s.store.domains with
    | some f =>
      refine .inl ⟨f, ?_, .inl rfl⟩
      rw [add, if_neg (by simp [hinf])]
      simp only [record, hd]
    | none =>
      cases hw : s.watches.registerAll? s.agents.nextKey c.registrations with
      | some w => exact .inr ⟨rfl, rfl, w, rfl⟩
      | none =>
        refine .inl ⟨.unknownIndex, ?_, .inr rfl⟩
        rw [add, if_neg (by simp [hinf])]
        simp only [record, hd, hw]

/-! ### The new propagator -/

theorem agents_joined (s : Solver) (c : Posting) (w : WatchList) (x : PropagatorId) :
    (s.joined c w).agents.get? x =
      if x = s.agents.nextKey then some { propagator := c.propagator } else s.agents.get? x :=
  Table.get?_push_eq _ _ _

theorem getElem?_append_singleton {α : Type} {as : List α} {a : α} {x : PropagatorId}
    (hs : s.agents.size = as.length) :
    (as ++ [a])[x.number]? = if x = s.agents.nextKey then some a else as[x.number]? := by
  have hkey : x = s.agents.nextKey ↔ x.number = as.length := by
    rw [← Key.index_inj, Table.nextKey, Key.index_ofIndex, hs]
    rfl
  by_cases hx : x.number = as.length
  · rw [if_pos (hkey.2 hx), hx]
    simp
  · rw [if_neg (mt hkey.1 hx), List.getElem?_append]
    split
    · rfl
    · rw [List.getElem?_eq_none (by simp; omega), List.getElem?_eq_none (by omega)]

private theorem ne_nextKey_of_get? {a : Agent} {x : PropagatorId} (h : s.agents.get? x = some a) :
    x ≠ s.agents.nextKey := by
  rintro rfl
  simp [Table.get?_nextKey] at h

/-- Who is there stays as it is when another one is added. -/
theorem get?_joined {a : Agent} {x : PropagatorId} (h : s.agents.get? x = some a) (c : Posting) (w : WatchList) :
    (s.joined c w).agents.get? x = some a := by
  rw [agents_joined, if_neg (ne_nextKey_of_get? h), h]

/-- The new propagator is told what it has asked for, and everyone else what it was told before. -/
theorem Linked.tells_joined (h : s.Linked) {c : Posting}
    (hw : s.watches.registerAll? s.agents.nextKey c.registrations = some w) (x : PropagatorId) (ch : Change)
    (l : Slot) :
    (s.joined c w).watches.Tells x ch l ↔ if x = s.agents.nextKey then c.Hears ch l else s.watches.Tells x ch l := by
  refine (WatchList.tells_registerAll hw).trans ?_
  split
  · -- nobody watches for a propagator that was not there
    rename_i hx
    have hno : ¬ s.watches.Tells x ch l := fun ht => by
      have := h.isSome x ch l ht
      simp [hx, Table.get?_nextKey] at this
    exact ⟨fun ht => (ht.resolve_left hno).2, fun ht => .inr ⟨hx.symm, ht⟩⟩
  · rename_i hx
    exact or_iff_left fun ht => hx ht.1.symm

/-- The agents after an addition, each with its constraint. -/
private theorem Hosts.joined_cases {a : Agent} {d : Constraint} {x : PropagatorId} (h : s.Hosts cs)
    (ha : (s.joined c.posting w).agents.get? x = some a) (hd : (cs ++ [c])[x.number]? = some d) :
    x = s.agents.nextKey ∧ a = { propagator := c.propagator } ∧ d = c ∨
      s.agents.get? x = some a ∧ cs[x.number]? = some d := by
  rw [agents_joined] at ha
  rw [getElem?_append_singleton h.size_eq] at hd
  by_cases hx : x = s.agents.nextKey
  · rw [if_pos hx] at ha hd
    exact .inl ⟨hx, (Option.some.inj ha).symm, (Option.some.inj hd).symm⟩
  · rw [if_neg hx] at ha hd
    exact .inr ⟨ha, hd⟩

theorem Linked.joined (h : s.Linked) {c : Posting}
    (hw : s.watches.registerAll? s.agents.nextKey c.registrations = some w) : (s.joined c w).Linked := by
  have hold : ∀ x v, (∃ a, (s.joined c w).agents.get? x = some a ∧ a.passive = v) ↔
      (∃ a, s.agents.get? x = some a ∧ a.passive = v) ∨ x = s.agents.nextKey ∧ v = false := by
    intro x v
    rw [agents_joined]
    by_cases hx : x = s.agents.nextKey
    · subst hx
      simp [Table.get?_nextKey]
    · simp [hx]
  refine
    { h with
      passive_iff := fun x => ?_
      queue := Queue.wellFormed_enqueue h.queue _ _
      active := fun x hx => ?_
      fits := (WatchList.fits_registerAll hw h.fits).1
      isSome := fun x ch l ht => ?_ }
  · rw [hold]
    exact (h.passive_iff x).trans (by simp)
  · rw [hold]
    have hx : (s.queue.enqueue s.agents.nextKey c.propagator.priority).isWaiting x = true := hx
    rw [Queue.isWaiting_enqueue] at hx
    exact hx.elim (fun h => .inr ⟨h, rfl⟩) fun hx => .inl (h.active x hx)
  · rw [agents_joined]
    split
    · rfl
    · rename_i hx
      exact h.isSome x ch l (((WatchList.tells_registerAll hw).1 ht).resolve_right fun he => hx he.1.symm)

theorem Hosts.joined (h : s.Hosts cs) (hd : c.posting.defect? s.store.domains = none)
    (hw : s.watches.registerAll? s.agents.nextKey c.posting.registrations = some w) :
    (s.joined c.posting w).Hosts (cs ++ [c]) := by
  refine
    { h.toLinked.joined hw with
      size_eq := ?_
      propagator_eq := fun x a d ha hd => ?_
      tells_iff := fun x d hd ch l => ?_
      proper := fun d hmem => ?_
      inScope := fun d hmem => ?_
      receives := fun x a d ha hd => ?_
      confirms := h.confirms
      inert := fun level hl x d hd hx => ?_
      infeasible := fun hinf V hV hst => h.infeasible hinf V hV fun d hmem => hst d (by simp [hmem]) }
  · have hsize : (s.joined c.posting w).agents.size = s.agents.size + 1 := Table.size_push _ _
    rw [hsize, h.size_eq, List.length_append, List.length_singleton]
  · rcases h.joined_cases ha hd with ⟨-, rfl, rfl⟩ | ⟨ha, hd⟩
    · rfl
    · exact h.propagator_eq x a d ha hd
  · refine (h.tells_joined hw x ch l).trans ?_
    rw [getElem?_append_singleton h.size_eq] at hd
    split at hd
    · rename_i hx
      obtain rfl := Option.some.inj hd
      rw [if_pos hx]
    · rename_i hx
      rw [if_neg hx, h.tells_iff x d hd]
  · rw [List.mem_append, List.mem_singleton] at hmem
    rcases hmem with hmem | rfl
    · exact h.proper d hmem
    · exact Constraint.proper_of_defect hd
  · rw [List.mem_append, List.mem_singleton] at hmem
    rcases hmem with hmem | rfl
    · exact h.inScope d hmem
    · exact (WatchList.fits_registerAll hw h.fits).2
  · rcases h.joined_cases ha hd with ⟨-, rfl, -⟩ | ⟨ha, hd⟩
    · exact Posting.receives_empty _ _
    · exact h.receives x a d ha hd
  · have hx : x ∈ (s.passiveTrail.rewind level).2.entries := hx
    have hmem : x ∈ s.passiveTrail.entries := by
      rw [← Trail.entries_rewind s.passiveTrail level]
      exact List.mem_append_right _ hx
    obtain ⟨a, ha, -⟩ := (h.passive_iff x).1 hmem
    rw [getElem?_append_singleton h.size_eq, if_neg (ne_nextKey_of_get? ha)] at hd
    exact h.inert level hl x d hd hx

theorem Covered.joined (hcov : s.Covered cs pending) (h : s.Hosts cs) :
    (s.joined c.posting w).Covered (cs ++ [c]) pending := by
  intro x a d ha hd
  have hwaiting : (s.joined c.posting w).queue.isWaiting x = true ↔
      x = s.agents.nextKey ∨ s.queue.isWaiting x = true := Queue.isWaiting_enqueue _ _ _ _
  rcases h.joined_cases ha hd with ⟨hx, rfl, -⟩ | ⟨ha, hd⟩
  · exact .due rfl (hwaiting.2 (.inl hx))
  · exact (hcov x a d ha hd).imp fun hw => hwaiting.2 (.inr hw)

theorem Ready.joined (h : s.Ready cs) (hd : c.posting.defect? s.store.domains = none)
    (hw : s.watches.registerAll? s.agents.nextKey c.posting.registrations = some w) :
    (s.joined c.posting w).Ready (cs ++ [c]) :=
  { h.toHosts.joined hd hw with covered := h.covered.joined h.toHosts }

/-! ### What addition comes to -/

/-- Unless an addition is a fault, the solver hosts the constraint, or it was infeasible before. -/
theorem Hosts.add (h : s.Hosts cs) (hf : ∀ f, (s.add c.posting).result ≠ .error (.fault f)) :
    s.add c.posting = ⟨.error (.error .infeasibleState), s⟩ ∨ (s.add c.posting).solver.Hosts (cs ++ [c]) := by
  rcases s.add_cases c.posting with hinf | ⟨f, hno, -⟩ | ⟨hinf, hd, w, hw⟩
  · exact .inl (add_of_infeasible hinf _)
  · exact absurd hno (hf f)
  · refine .inr ?_
    have hjoined := h.joined hd hw
    rw [add_eq hinf hd hw] at hf ⊢
    cases hres : (s.joined c.posting w).propagate.result with
    | ok x => exact (hjoined.propagate (by simp [hres])).1
    | error e =>
      cases e with
      | fault f => simp [hres] at hf
      | error e =>
        have hno : ∀ f, (s.joined c.posting w).propagate.result ≠ .error (.fault f) := by simp [hres]
        obtain ⟨h1, h2⟩ := hjoined.propagate hno
        refine { h1 with infeasible := fun hi V hV hst => ?_ }
        rw [Bool.or_eq_true, decide_eq_true_eq] at hi
        rcases hi with hi | hroot
        · exact h1.infeasible hi V hV hst
        · -- at the root nothing is taken back
          have hback : (s.joined c.posting w).propagate.solver.store.rewind 0 =
              { (s.joined c.posting w).propagate.solver.store with changes := #[] } := by
            rw [← hroot]
            exact Store.rewind_depth _
          rw [hback] at hV
          have := (hjoined.keeps_propagate hno hst (le_trans hV h2.narrower.le)).2
          simp [hres] at this

/-- After a successful addition all rules are stable. -/
theorem Ready.add (h : s.Ready cs) {p : PropagatorId} (hok : (s.add c.posting).result = .ok p) :
    (s.add c.posting).solver.Hosts (cs ++ [c]) ∧ (s.add c.posting).solver.Fixed (cs ++ [c]) ∧
      s.store.Narrower (Touches (cs ++ [c])) (s.add c.posting).solver.store := by
  rcases s.add_cases c.posting with hinf | ⟨f, hno, -⟩ | ⟨hinf, hd, w, hw⟩
  · rw [add_of_infeasible hinf] at hok
    cases hok
  · simp [hno] at hok
  · have hjoined := h.joined hd hw
    rw [add_eq hinf hd hw] at hok ⊢
    cases hres : (s.joined c.posting w).propagate.result with
    | ok x =>
      obtain ⟨h1, h2⟩ := hjoined.toHosts.propagate (by simp [hres])
      exact ⟨h1, hjoined.propagate hres, h2.narrower⟩
    | error e => cases e <;> simp [hres] at hok

/-- From a solver that covers its constraints, addition is a fault only for want of a variable or of one of the sets
of a node. -/
theorem Ready.safe_add (h : s.Ready cs) {f : Fault} (hf : (s.add c.posting).result = .error (.fault f)) :
    f = .unknownIndex ∨ ∃ m n, f = .unequalLengths m n := by
  rcases s.add_cases c.posting with hinf | ⟨f', hno, hd | rfl⟩ | ⟨hinf, hd, w, hw⟩
  · rw [add_of_infeasible hinf] at hf
    cases hf
  · obtain rfl : f' = f := by simpa [hno] using hf
    exact .inr (Constraint.eq_of_defect hd)
  · exact .inl (by simpa [hno] using hf.symm)
  · refine .inl ((h.joined hd hw).safe_propagate (f := f) ?_).1
    rw [add_eq hinf hd hw] at hf
    cases hres : (s.joined c.posting w).propagate.result with
    | ok x => simp [hres] at hf
    | error e => cases e <;> simp_all

/-- An addition above a view at which all rules are stable succeeds and keeps the view. -/
theorem Ready.keeps_add (h : s.Ready cs) {V : View} (hst : ∀ d ∈ cs ++ [c], d.Stable V)
    (hV : V ≤ s.store.domains.view) (hd : c.posting.defect? s.store.domains = none)
    (hscope : c.InScope s.store.domains)
    (hhas : ∀ d ∈ cs ++ [c], ∀ w ∈ d.operands, s.store.domains.Has w) :
    (∃ p, (s.add c.posting).result = .ok p) ∧ V ≤ (s.add c.posting).solver.store.domains.view := by
  have hinf : s.infeasible = false := by
    by_contra hinf
    exact h.infeasible (by simpa using hinf) V (le_trans hV (h.valid.le (Nat.zero_le _)))
      fun d hmem => hst d (by simp [hmem])
  obtain ⟨w, hw⟩ := WatchList.exists_registerAll (p := s.agents.nextKey) h.fits hscope
  have hjoined := h.joined hd hw
  have hsafe : ∀ f, (s.joined c.posting w).propagate.result ≠ .error (.fault f) := fun f hf => by
    obtain ⟨-, d, hmem, x, hx, hno⟩ := hjoined.safe_propagate hf
    exact hno (hhas d hmem x hx)
  obtain ⟨hle, hok⟩ := hjoined.toHosts.keeps_propagate hsafe hst hV
  rw [add_eq hinf hd hw, hok]
  exact ⟨⟨_, rfl⟩, hle⟩

/-! ### Adding several constraints -/

theorem addAll_cons (s : Solver) (c : Constraint) (l : List Constraint) : s.addAll (c :: l) =
    match (s.add c.posting).result with
    | .error e => ⟨.error e, (s.add c.posting).solver⟩
    | .ok _ => (s.add c.posting).solver.addAll l := rfl

/-- Unless there is a fault, some of the constraints are hosted afterwards. -/
theorem Hosts.addAll {l : List Constraint} (h : s.Hosts cs) (hf : ∀ f, (s.addAll l).result ≠ .error (.fault f)) :
    ∃ n, (s.addAll l).solver.Hosts (cs ++ l.take n) := by
  induction l generalizing s cs with
  | nil =>
    refine ⟨0, ?_⟩
    rw [List.take_zero, List.append_nil]
    exact h
  | cons c l ih =>
    rw [addAll_cons] at hf ⊢
    cases hres : (s.add c.posting).result with
    | error e =>
      have hadd := h.add (c := c) fun f hno => by
        obtain rfl : e = .fault f := by simpa [hres] using hno
        exact hf f (by simp [hres])
      simp only
      rcases hadd with heq | hhosts
      · exact ⟨0, by rw [heq]; simpa using h⟩
      · exact ⟨1, by simpa using hhosts⟩
    | ok p =>
      rcases h.add (c := c) (by simp [hres]) with heq | hhosts
      · rw [heq] at hres
        cases hres
      · rw [hres] at hf
        obtain ⟨n, hn⟩ := ih hhosts hf
        exact ⟨n + 1, by simpa using hn⟩

/-- If all additions succeed then the solver covers the constraints, and all rules are stable unless there was nothing
to add. -/
theorem Ready.addAll {l : List Constraint} (h : s.Ready cs) (hok : (s.addAll l).result = .ok ()) :
    (s.addAll l).solver.Ready (cs ++ l) ∧ (l ≠ [] → ∀ c ∈ cs ++ l, c.Stable (s.addAll l).solver.store.domains.view) ∧
      s.store.Narrower (Touches (cs ++ l)) (s.addAll l).solver.store := by
  induction l generalizing s cs with
  | nil =>
    rw [List.append_nil]
    exact ⟨h, by simp, .refl h.valid.wellFormed⟩
  | cons c l ih =>
    rw [addAll_cons] at hok ⊢
    cases hres : (s.add c.posting).result with
    | error e => simp [hres] at hok
    | ok p =>
      rw [hres] at hok
      obtain ⟨h1, h2, h3⟩ := h.add hres
      obtain ⟨h4, h5, h6⟩ := ih (h2.ready h1) hok
      rw [List.append_assoc, List.singleton_append] at h4 h5 h6
      refine ⟨h4, fun _ => ?_, (h3.imp fun n ⟨d, hd, hn⟩ => ⟨d, by simp at hd ⊢; tauto, hn⟩).trans h6⟩
      cases l with
      | nil => exact h2.stable
      | cons d l => exact h5 (by simp)

theorem Ready.safe_addAll {l : List Constraint} (h : s.Ready cs) {f : Fault}
    (hf : (s.addAll l).result = .error (.fault f)) : f = .unknownIndex ∨ ∃ m n, f = .unequalLengths m n := by
  induction l generalizing s cs with
  | nil => cases hf
  | cons c l ih =>
    rw [addAll_cons] at hf
    cases hres : (s.add c.posting).result with
    | error e =>
      rw [hres] at hf
      obtain rfl : e = .fault f := by simpa using hf
      exact h.safe_add hres
    | ok p =>
      rw [hres] at hf
      obtain ⟨h1, h2, -⟩ := h.add hres
      exact ih (h2.ready h1) hf

/-- Additions above a view at which all rules are stable succeed and keep the view. -/
theorem Ready.keeps_addAll {l : List Constraint} (h : s.Ready cs) {V : View} (hst : ∀ c ∈ cs ++ l, c.Stable V)
    (hV : V ≤ s.store.domains.view) (hd : ∀ c ∈ l, ∀ d, c.posting.defect? d = none)
    (hscope : ∀ c ∈ l, c.InScope s.store.domains) (hhas : ∀ c ∈ cs ++ l, ∀ w ∈ c.operands, s.store.domains.Has w) :
    (s.addAll l).result = .ok () ∧ V ≤ (s.addAll l).solver.store.domains.view := by
  induction l generalizing s cs with
  | nil => exact ⟨rfl, hV⟩
  | cons c l ih =>
    have hmem : ∀ d ∈ cs ++ [c], d ∈ cs ++ c :: l := fun d hd => by
      simp at hd ⊢
      tauto
    obtain ⟨⟨p, hp⟩, hle⟩ := h.keeps_add (fun d hm => hst d (hmem d hm)) hV (hd c (by simp) _) (hscope c (by simp))
      fun d hm => hhas d (hmem d hm)
    obtain ⟨h1, h2, h3⟩ := h.add hp
    rw [addAll_cons, hp]
    refine ih (h2.ready h1) (fun d hm => hst d (by simpa using hm)) hle (fun d hm => hd d (by simp [hm]))
      (fun d hm r hr => (h3.has_iff _).2 (hscope d (by simp [hm]) r hr))
      fun d hm w hw => (h3.has_iff _).2 (hhas d (by simpa using hm) w hw)

end Solver

end SetConstraints
