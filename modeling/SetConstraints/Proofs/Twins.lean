import SetConstraints.Proofs.Propagation
import SetConstraints.Proofs.Solutions

/-!
# Solvers with the same domains

Two solvers of the same constraints may differ in their options, in the propagators that rest, in what these have been
told and in the order in which they wait.  If both cover the constraints and have the same domains on the same levels
(`Solver.Twins`), then every operation gives the same result on both, up to the contradiction found, and leaves twins:
propagation because it comes to the widest fixpoint, enumeration because it finds the solutions in order.  After a
contradiction only the domains of the lower levels are sure to agree (`Solver.Kin`), and going back to one of these
levels makes twins again (`Solver.Kin.returnTo`).
-/

namespace SetConstraints

namespace Solver

variable {s t s' t' : Solver} {cs cs' l : List Constraint} {c : Constraint} {level : Nat} {P Q : Narrowing → Prop}

/-- Two solvers of the same constraints on the same level, whose lower levels have the same domains. -/
structure Kin (s t : Solver) (cs : List Constraint) : Prop where
  left : s.Hosts cs
  right : t.Hosts cs
  depth_eq : t.depth = s.depth
  rewind_eq : ∀ level < s.depth, (t.store.rewind level).domains = (s.store.rewind level).domains
  infeasible_eq : t.infeasible = s.infeasible

/-- Two solvers that cover the same constraints and have the same domains on all levels. -/
structure Twins (s t : Solver) (cs : List Constraint) : Prop extends Kin s t cs where
  covered_left : s.Covered cs s.store.changes.toList
  covered_right : t.Covered cs t.store.changes.toList
  domains_eq : t.store.domains = s.store.domains

theorem Kin.symm (h : Kin s t cs) : Kin t s cs :=
  ⟨h.right, h.left, h.depth_eq.symm, fun level hl => (h.rewind_eq level (h.depth_eq ▸ hl)).symm, h.infeasible_eq.symm⟩

theorem Twins.symm (h : Twins s t cs) : Twins t s cs :=
  { h.toKin.symm with
    covered_left := h.covered_right, covered_right := h.covered_left, domains_eq := h.domains_eq.symm }

theorem Twins.ready_left (h : Twins s t cs) : s.Ready cs := { h.left with covered := h.covered_left }

theorem Twins.ready_right (h : Twins s t cs) : t.Ready cs := { h.right with covered := h.covered_right }

theorem Twins.refl (h : s.Ready cs) : Twins s s cs :=
  { left := h.toHosts, right := h.toHosts, depth_eq := rfl, rewind_eq := fun _ _ => rfl, infeasible_eq := rfl,
    covered_left := h.covered, covered_right := h.covered, domains_eq := rfl }

theorem Twins.trans {u : Solver} (h : Twins s t cs) (k : Twins t u cs) : Twins s u cs where
  left := h.left
  right := k.right
  depth_eq := k.depth_eq.trans h.depth_eq
  rewind_eq level hl := (k.rewind_eq level (h.depth_eq ▸ hl)).trans (h.rewind_eq level hl)
  infeasible_eq := k.infeasible_eq.trans h.infeasible_eq
  covered_left := h.covered_left
  covered_right := k.covered_right
  domains_eq := k.domains_eq.trans h.domains_eq

theorem Kin.twins (h : Kin s t cs) (hs : s.Ready cs) (ht : t.Ready cs) (hd : t.store.domains = s.store.domains) :
    Twins s t cs :=
  { h with covered_left := hs.covered, covered_right := ht.covered, domains_eq := hd }

/-- What narrows domains only, keeps those of the lower levels. -/
theorem Kin.narrower (h : Kin s t cs) (hs : s'.Hosts cs') (ht : t'.Hosts cs') (ns : s.store.Narrower P s'.store)
    (nt : t.store.Narrower Q t'.store) (hinf : t'.infeasible = s'.infeasible) : Kin s' t' cs' where
  left := hs
  right := ht
  depth_eq := nt.depth_eq.trans (h.depth_eq.trans ns.depth_eq.symm)
  rewind_eq level hl := by
    have hl : level < s.depth := by rwa [depth, ns.depth_eq] at hl
    have hl' : level < t.depth := h.depth_eq ▸ hl
    rw [ns.rewind_eq level hl, nt.rewind_eq level hl']
    exact h.rewind_eq level hl
  infeasible_eq := hinf

/-- The domains agree on the current level too. -/
theorem Twins.rewind_eq_of_le (h : Twins s t cs) (hl : level ≤ s.depth) :
    (t.store.rewind level).domains = (s.store.rewind level).domains := by
  rcases Nat.lt_or_eq_of_le hl with hlt | rfl
  · exact h.rewind_eq level hlt
  · have hdepth : t.store.depth = s.store.depth := h.depth_eq
    rw [depth, Store.rewind_depth, ← hdepth, Store.rewind_depth]
    exact h.domains_eq

/-! ### Host changes, variables and levels -/

theorem Twins.narrow (h : Twins s t cs) (n : Narrowing) :
    (t.narrow n).result = (s.narrow n).result ∧ Twins (s.narrow n).solver (t.narrow n).solver cs := by
  unfold Solver.narrow
  cases hs : s.store.narrow n with
  | error e =>
    -- whether a narrowing fails is seen from the domains alone
    have ht : t.store.narrow n = .error e := by
      revert hs
      simp only [Store.narrow, h.domains_eq]
      cases s.store.domains.narrow n with
      | error e => exact id
      | ok r => cases r <;> simp
    rw [ht]
    exact ⟨rfl, h⟩
  | ok u =>
    obtain ⟨v, ht, hd⟩ : ∃ v, t.store.narrow n = .ok v ∧ v.domains = u.domains := by
      revert hs
      simp only [Store.narrow, h.domains_eq]
      cases s.store.domains.narrow n with
      | error e => simp
      | ok r =>
        cases r with
        | none =>
          intro hu
          cases hu
          exact ⟨_, rfl, h.domains_eq⟩
        | some e =>
          intro hu
          cases hu
          exact ⟨_, rfl, rfl⟩
    obtain ⟨new, hnew⟩ := h.left.exists_narrowed hs
    obtain ⟨new', hnew'⟩ := h.right.exists_narrowed ht
    rw [ht]
    exact ⟨rfl, (h.toKin.narrower (h.left.narrowed hnew) (h.right.narrowed hnew') hnew.toNarrower hnew'.toNarrower
      h.infeasible_eq).twins (h.ready_left.narrowed hnew) (h.ready_right.narrowed hnew') hd⟩

theorem Twins.extend (h : Twins s t cs) {e : Domain} (he : e.WellFormed) : Twins (s.extend e) (t.extend e) cs where
  left := h.left.extend he
  right := h.right.extend he
  depth_eq := h.depth_eq
  rewind_eq level hl := by
    show ((t.store.extend e).rewind level).domains = ((s.store.extend e).rewind level).domains
    rw [Store.rewind_extend h.left.valid, Store.rewind_extend h.right.valid]
    exact congrArg (·.extend e) (h.rewind_eq level hl)
  infeasible_eq := h.infeasible_eq
  covered_left := (h.ready_left.extend he).covered
  covered_right := (h.ready_right.extend he).covered
  domains_eq := congrArg (·.extend e) h.domains_eq

theorem Twins.newSet (h : Twins s t cs) (kernel envelope : List Int32) :
    (t.newSet kernel envelope).result = (s.newSet kernel envelope).result ∧
      Twins (s.newSet kernel envelope).solver (t.newSet kernel envelope).solver cs := by
  unfold Solver.newSet
  cases he : SetDomain.ofLists kernel envelope with
  | error f => exact ⟨rfl, h⟩
  | ok e => exact ⟨by rw [h.domains_eq], h.extend (e := .set e) (SetDomain.wellFormed_ofLists he)⟩

theorem Twins.newInt (h : Twins s t cs) (low high : Int32) :
    (t.newInt low high).result = (s.newInt low high).result ∧
      Twins (s.newInt low high).solver (t.newInt low high).solver cs := by
  unfold Solver.newInt
  split
  · rename_i hle
    exact ⟨by rw [h.domains_eq], h.extend (e := .int ⟨low, high, hle⟩) trivial⟩
  · exact ⟨rfl, h⟩

theorem Twins.mark (h : Twins s t cs) : Twins s.mark t.mark cs where
  left := h.left.mark
  right := h.right.mark
  depth_eq := congrArg (· + 1) h.depth_eq
  rewind_eq level hl := by
    have hl : level ≤ s.depth := Nat.lt_succ_iff.1 hl
    show (t.store.mark.rewind level).domains = (s.store.mark.rewind level).domains
    rw [Store.rewind_mark hl, Store.rewind_mark (h.depth_eq ▸ hl : level ≤ t.depth)]
    exact h.rewind_eq_of_le hl
  infeasible_eq := h.infeasible_eq
  covered_left := h.covered_left
  covered_right := h.covered_right
  domains_eq := h.domains_eq

private theorem Kin.twins_returnTo (h : Kin s t cs) (hl : level ≤ s.depth)
    (heq : (t.store.rewind level).domains = (s.store.rewind level).domains) :
    Twins (s.returnTo level) (t.returnTo level) cs := by
  have hl' : level ≤ t.depth := h.depth_eq ▸ hl
  have hs := h.left.ready_returnTo hl
  have ht := h.right.ready_returnTo hl'
  refine Kin.twins ⟨hs.toHosts, ht.toHosts, ?_, fun k hk => ?_, ?_⟩ hs ht ?_
  · rw [h.left.depth_returnTo hl, h.right.depth_returnTo hl']
  · rw [h.left.depth_returnTo hl] at hk
    rw [h.left.store_returnTo hl, h.right.store_returnTo hl', Store.rewind_rewind hk.le hl,
      Store.rewind_rewind hk.le hl']
    exact h.rewind_eq k (Nat.lt_of_lt_of_le hk hl)
  · rw [h.left.infeasible_returnTo hl, h.right.infeasible_returnTo hl', h.infeasible_eq]
  · rw [h.left.store_returnTo hl, h.right.store_returnTo hl', heq]

/-- Going back to a lower level makes twins, whatever happened on the current one. -/
theorem Kin.returnTo (h : Kin s t cs) (hl : level < s.depth) : Twins (s.returnTo level) (t.returnTo level) cs :=
  h.twins_returnTo hl.le (h.rewind_eq level hl)

theorem Twins.returnTo (h : Twins s t cs) (hl : level ≤ s.depth) : Twins (s.returnTo level) (t.returnTo level) cs :=
  h.twins_returnTo hl (h.rewind_eq_of_le hl)

/-- A solver that has got its store back is a twin of what it was. -/
theorem Ready.twins_restored (h : s.Ready cs) (ht : t.Ready cs) (hr : Restored s t) : Twins s t cs where
  left := h.toHosts
  right := ht.toHosts
  depth_eq := by rw [depth, hr.store_eq]; rfl
  rewind_eq level _ := by rw [hr.store_eq]; rfl
  infeasible_eq := hr.infeasible_eq
  covered_left := h.covered
  covered_right := ht.covered
  domains_eq := hr.domains_eq

/-! ### Propagation -/

/-- If one twin gets to a fixpoint then the other gets at least as far. -/
private theorem Twins.le_propagate (h : Twins s t cs) (hok : s.propagate.result = .ok ()) :
    t.propagate.result = .ok () ∧ s.propagate.solver.store.domains.view ≤ t.propagate.solver.store.domains.view := by
  have hfix := h.left.isFixpoint_iff.1 (h.ready_left.isFixpoint_propagate hok)
  have hfix' : t.IsFixpoint s.propagate.solver.store.domains := h.right.isFixpoint_iff.2 (h.domains_eq ▸ hfix)
  obtain ⟨hok', hin⟩ := h.ready_right.within_propagate hfix'
  have hwf := (h.right.propagate (by simp [hok'])).1.valid.wellFormed
  exact ⟨hok', ((Domains.within_iff hfix.1 hwf).1 hin).2.2⟩

/-- Propagation gets to the same fixpoint from twins. -/
theorem Twins.propagate_of_ok (h : Twins s t cs) (hok : s.propagate.result = .ok ()) :
    t.propagate.result = .ok () ∧ Twins s.propagate.solver t.propagate.solver cs := by
  -- each of the two fixpoints is below the other
  obtain ⟨hok', hle⟩ := h.le_propagate hok
  obtain ⟨-, hge⟩ := h.symm.le_propagate hok'
  obtain ⟨h1, h2⟩ := h.left.propagate (by simp [hok])
  obtain ⟨h3, h4⟩ := h.right.propagate (by simp [hok'])
  refine ⟨hok', (h.toKin.narrower h1 h3 h2.narrower h4.narrower ?_).twins ((h.ready_left.propagate hok).ready h1)
    ((h.ready_right.propagate hok').ready h3) ?_⟩
  · rw [h2.infeasible_eq, h4.infeasible_eq, h.infeasible_eq]
  · exact Store.Narrower.domains_eq h.domains_eq h2.narrower h4.narrower hle hge

/-- Twins propagate alike, unless there is a fault for want of an operand. -/
theorem Twins.propagate (h : Twins s t cs) :
    (s.propagate.result = .ok () ∧ t.propagate.result = .ok () ∧ Twins s.propagate.solver t.propagate.solver cs) ∨
      (∃ e e', s.propagate.result = .error (.error e) ∧ t.propagate.result = .error (.error e') ∧
        Kin s.propagate.solver t.propagate.solver cs) ∨
      Lacks cs s.store.domains ∧
        ∃ f, s.propagate.result = .error (.fault f) ∨ t.propagate.result = .error (.fault f) := by
  cases hs : s.propagate.result with
  | ok x => exact .inl ⟨rfl, h.propagate_of_ok hs⟩
  | error why =>
    cases why with
    | fault f => exact .inr (.inr ⟨(h.ready_left.safe_propagate hs).2, f, .inl rfl⟩)
    | error e =>
      cases ht : t.propagate.result with
      | ok x =>
        -- if one gets to a fixpoint then so does the other
        have hok := (h.symm.propagate_of_ok ht).1
        simp [hs] at hok
      | error why =>
        cases why with
        | fault f => exact .inr (.inr ⟨h.domains_eq ▸ (h.ready_right.safe_propagate ht).2, f, .inr rfl⟩)
        | error e' =>
          obtain ⟨h1, h2⟩ := h.left.propagate (by simp [hs])
          obtain ⟨h3, h4⟩ := h.right.propagate (by simp [ht])
          refine .inr (.inl ⟨e, e', rfl, rfl, h.toKin.narrower h1 h3 h2.narrower h4.narrower ?_⟩)
          rw [h2.infeasible_eq, h4.infeasible_eq, h.infeasible_eq]

/-! ### Additions -/

private theorem Twins.joined {w w' : WatchList} (h : Twins s t cs) (hd : c.posting.defect? s.store.domains = none)
    (hw : s.watches.registerAll? s.agents.nextKey c.posting.registrations = some w)
    (hw' : t.watches.registerAll? t.agents.nextKey c.posting.registrations = some w') :
    Twins (s.joined c.posting w) (t.joined c.posting w') (cs ++ [c]) :=
  have hs := h.ready_left.joined hd hw
  have ht := h.ready_right.joined (h.domains_eq ▸ hd) hw'
  { left := hs.toHosts
    right := ht.toHosts
    depth_eq := h.depth_eq
    rewind_eq := h.rewind_eq
    infeasible_eq := h.infeasible_eq
    covered_left := hs.covered
    covered_right := ht.covered
    domains_eq := h.domains_eq }

/-- The watch lists of twins take the same registrations. -/
private theorem Twins.registerAll (h : Twins s t cs) {rs : List Registration} {w : WatchList} {p : PropagatorId}
    (p' : PropagatorId) (hw : s.watches.registerAll? p rs = some w) : ∃ w', t.watches.registerAll? p' rs = some w' :=
  WatchList.exists_registerAll h.right.fits fun r hr =>
    h.domains_eq ▸ (WatchList.fits_registerAll hw h.left.fits).2 r hr

theorem Twins.nextKey_eq (h : Twins s t cs) : t.agents.nextKey = s.agents.nextKey := by
  rw [Table.nextKey, Table.nextKey, h.right.size_eq, h.left.size_eq]

private theorem add_of_unregistered (hinf : s.infeasible = false)
    (hd : c.posting.defect? s.store.domains = none)
    (hw : s.watches.registerAll? s.agents.nextKey c.posting.registrations = none) :
    (s.add c.posting).result = .error (.fault .unknownIndex) := by
  rw [Solver.add, if_neg (by simp [hinf])]
  simp only [record, hd, hw]

private theorem add_of_defect {f : Fault} (hinf : s.infeasible = false)
    (hd : c.posting.defect? s.store.domains = some f) : (s.add c.posting).result = .error (.fault f) := by
  rw [Solver.add, if_neg (by simp [hinf])]
  simp only [record, hd]

/-- Twins add a constraint alike, unless there is a fault for want of an operand. -/
theorem Twins.add (h : Twins s t cs) :
    (∃ p, (s.add c.posting).result = .ok p ∧ (t.add c.posting).result = .ok p ∧
        Twins (s.add c.posting).solver (t.add c.posting).solver (cs ++ [c])) ∨
      (∃ e n, (s.add c.posting).result = .error (.error e) ∧ (t.add c.posting).result = .error (.error e) ∧
        Kin (s.add c.posting).solver (t.add c.posting).solver (cs ++ [c].take n)) ∨
      (∃ f, (s.add c.posting).result = .error (.fault f) ∧ (t.add c.posting).result = .error (.fault f)) ∨
      Lacks (cs ++ [c]) s.store.domains ∧
        ∃ f, (s.add c.posting).result = .error (.fault f) ∨ (t.add c.posting).result = .error (.fault f) := by
  cases hinf : s.infeasible with
  | true =>
    rw [add_of_infeasible hinf, add_of_infeasible (h.infeasible_eq.trans hinf)]
    exact .inr (.inl ⟨.infeasibleState, 0, rfl, rfl, by simpa using h.toKin⟩)
  | false =>
    have hinf' : t.infeasible = false := h.infeasible_eq.trans hinf
    cases hd : c.posting.defect? s.store.domains with
    | some f => exact .inr (.inr (.inl ⟨f, add_of_defect hinf hd, add_of_defect hinf' (h.domains_eq ▸ hd)⟩))
    | none =>
      have hd' : c.posting.defect? t.store.domains = none := h.domains_eq ▸ hd
      cases hw : s.watches.registerAll? s.agents.nextKey c.posting.registrations with
      | none =>
        have hw' : t.watches.registerAll? t.agents.nextKey c.posting.registrations = none := by
          by_contra hno
          obtain ⟨w', hw'⟩ := Option.ne_none_iff_exists'.1 hno
          obtain ⟨w, hw₁⟩ := h.symm.registerAll s.agents.nextKey hw'
          simp [hw] at hw₁
        exact .inr (.inr (.inl ⟨_, add_of_unregistered hinf hd hw, add_of_unregistered hinf' hd' hw'⟩))
      | some w =>
        obtain ⟨w', hw'⟩ := h.registerAll t.agents.nextKey hw
        have hjoined := h.joined hd hw hw'
        rw [add_eq hinf hd hw, add_eq hinf' hd' hw']
        rcases hjoined.propagate with ⟨hs, ht, htwins⟩ | ⟨e, e', hs, ht, hkin⟩ | ⟨hl, f, hf⟩
        · rw [hs, ht]
          exact .inl ⟨s.agents.nextKey, rfl, by rw [h.nextKey_eq], htwins⟩
        · -- both have taken in the propagator before they gave up
          have hs' := h.left.add (c := c) (by simp [add_eq hinf hd hw, hs])
          have ht' := h.right.add (c := c) (by simp [add_eq hinf' hd' hw', ht])
          rw [add_eq hinf hd hw, hs] at hs'
          rw [add_eq hinf' hd' hw', ht] at ht'
          rw [hs, ht]
          refine .inr (.inl ⟨_, 1, rfl, rfl, ⟨hs'.resolve_left (by simp), ht'.resolve_left (by simp), hkin.depth_eq,
            hkin.rewind_eq, ?_⟩⟩)
          simp only [hkin.infeasible_eq, hkin.depth_eq]
        · refine .inr (.inr (.inr ⟨hl, f, hf.imp (fun hf => ?_) fun hf => ?_⟩)) <;> rw [hf]

/-- Twins add constraints alike, unless there is a fault for want of an operand. -/
theorem Twins.addAll (h : Twins s t cs) :
    ((s.addAll l).result = .ok () ∧ (t.addAll l).result = .ok () ∧
        Twins (s.addAll l).solver (t.addAll l).solver (cs ++ l)) ∨
      (∃ e n, (s.addAll l).result = .error (.error e) ∧ (t.addAll l).result = .error (.error e) ∧
        Kin (s.addAll l).solver (t.addAll l).solver (cs ++ l.take n)) ∨
      (∃ f, (s.addAll l).result = .error (.fault f) ∧ (t.addAll l).result = .error (.fault f)) ∨
      Lacks (cs ++ l) s.store.domains ∧
        ∃ f, (s.addAll l).result = .error (.fault f) ∨ (t.addAll l).result = .error (.fault f) := by
  induction l generalizing s t cs with
  | nil => exact .inl ⟨rfl, rfl, by rw [List.append_nil]; exact h⟩
  | cons c l ih =>
    rw [addAll_cons, addAll_cons]
    rcases h.add (c := c) with ⟨p, hs, ht, htwins⟩ | ⟨e, n, hs, ht, hkin⟩ | ⟨f, hs, ht⟩ | ⟨hl, f, hf⟩
    · obtain ⟨-, -, hn⟩ := h.ready_left.add hs
      have hassoc : cs ++ [c] ++ l = cs ++ c :: l := List.append_assoc _ _ _
      rw [hs, ht]
      rcases ih htwins with hok | ⟨e, n, hs, ht, hkin⟩ | hf | ⟨hl, hf⟩
      · exact .inl (hassoc ▸ hok)
      · exact .inr (.inl ⟨e, n + 1, hs, ht, by rw [List.append_assoc] at hkin; exact hkin⟩)
      · exact .inr (.inr (.inl hf))
      · exact .inr (.inr (.inr ⟨hassoc ▸ hl.of_size hn.size_sets hn.size_ints, hf⟩))
    · rw [hs, ht]
      refine .inr (.inl ⟨e, min n 1, rfl, rfl, ?_⟩)
      rcases n with - | n
      · simpa using hkin
      · simpa using hkin
    · rw [hs, ht]
      exact .inr (.inr (.inl ⟨f, rfl, rfl⟩))
    · refine .inr (.inr (.inr ⟨hl.mono fun d hd => ?_, f, hf.imp (fun hf => ?_) fun hf => ?_⟩))
      · simp at hd ⊢
        tauto
      · rw [hf]
      · rw [hf]

/-! ### Enumeration -/

/-- There is only one way to list the solutions in order. -/
theorem Exact.unique {d : Domains} {found found' : List Assignment} (h : Exact cs d found) (h' : Exact cs d found') :
    found' = found := by
  have hperm : found'.Perm found :=
    (List.perm_ext_iff_of_nodup h'.nodup h.nodup).2 fun a => (h'.mem_iff a).trans (h.mem_iff a).symm
  exact hperm.eq_of_pairwise (fun a b _ _ hab hba => absurd hba hab.asymm) h'.ordered h.ordered

/-- The enumeration leaves a twin of what the solver was. -/
theorem Ready.twins_solutions {found : List Assignment} (h : s.Ready cs) (hok : s.solutions.result = .ok found) :
    Twins s s.solutions.solver cs := by
  rcases h.toHosts.solutions hok with ⟨-, heq⟩ | ⟨hready, hr⟩
  · exact heq.symm ▸ .refl h
  · exact h.twins_restored hready hr

/-- Twins find the same solutions, unless there is a fault for want of an operand. -/
theorem Twins.solutions (h : Twins s t cs) :
    (∃ found, s.solutions.result = .ok found ∧ t.solutions.result = .ok found ∧
      Twins s.solutions.solver t.solutions.solver cs) ∨
      Lacks cs s.store.domains ∧ ∃ f, s.solutions.result = .error f ∨ t.solutions.result = .error f := by
  rcases h.ready_left.solutions with ⟨found, hs, hex⟩ | ⟨hl, hf⟩
  · rcases h.ready_right.solutions with ⟨found', ht, hex'⟩ | ⟨hl, hf⟩
    · obtain rfl := hex.unique (h.domains_eq ▸ hex')
      exact .inl ⟨found', hs, ht,
        (h.ready_left.twins_solutions hs).symm.trans (h.trans (h.ready_right.twins_solutions ht))⟩
    · exact .inr ⟨h.domains_eq ▸ hl, _, .inr hf⟩
  · exact .inr ⟨hl, _, .inl hf⟩

end Solver

end SetConstraints
