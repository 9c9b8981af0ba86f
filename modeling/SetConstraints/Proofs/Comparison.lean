import SetConstraints.Proofs.Twins

/-!
# Sessions that answer alike

Two sessions whose solvers are twins answer every request alike: with the same answer, but for the contradiction that
a propagation has found, and for who rests (`Session.Twins.perform`).  They are twins again afterwards, unless a
propagation or an addition has failed; then going back to a lower level makes them twins.  So as long as every such
failure is followed by going back to a lower level (`Session.Disciplined`), the sessions cannot be told apart
(`Session.Twins.agree`).  In particular the options make no difference to what is answered
(`Session.agree_of_options`).
-/

namespace SetConstraints

/-- The same answers, but for the contradiction found and for who rests. -/
inductive Alike : Except Failure Answer → Except Failure Answer → Prop
  | same (a : Except Failure Answer) : Alike a a
  | contradiction (c d : Contradiction) : Alike (.error (.contradiction c)) (.error (.contradiction d))
  | flag (b c : Bool) : Alike (.ok (.flag b)) (.ok (.flag c))

/-- An answer that is no fault is like no fault. -/
theorem Alike.ne_fault {a b : Except Failure Answer} (h : Alike a b) (ha : ∀ f, a ≠ .error (.fault f))
    (f : Fault) : b ≠ .error (.fault f) := by
  cases h with
  | same => exact ha f
  | contradiction c d => simp
  | flag b c => simp

/-- The request is a propagation or an addition, and the answer is an error. -/
def Request.fails (r : Request) (answer : Except Failure Answer) : Bool :=
  match r, answer with
  | .propagate, .error _ | .add _, .error _ | .addScript _, .error _ | .post _, .error _ => true
  | _, _ => false

namespace Session

/-- The session after some requests. -/
def run (s : Session) (rs : List Request) : Session := rs.foldl (fun s r => (s.perform r).2) s

/-- No request is answered by a fault. -/
def Survives (s : Session) : List Request → Prop
  | [] => True
  | r :: rs => (∀ f, (s.perform r).1 ≠ .error (.fault f)) ∧ (s.perform r).2.Survives rs

/-- Whether the next request goes back to a level below `depth`, if there is one. -/
def goesBack (depth : Nat) : List Request → Bool
  | [] => true
  | .backtrack level :: _ => level < depth
  | _ :: _ => false

/-- A propagation or an addition that fails is the last request, or the next one goes back to a lower level. -/
def Disciplined (s : Session) : List Request → Prop
  | [] => True
  | r :: rs =>
    (r.fails (s.perform r).1 = true → goesBack (s.perform r).2.solver.depth rs = true) ∧
      (s.perform r).2.Disciplined rs

/-- Two sessions answer a request alike, and unless it is a propagation or an addition that fails, they have the same
domains afterwards. -/
def Agree (s t : Session) (r : Request) : Prop :=
  Alike (s.perform r).1 (t.perform r).1 ∧
    (r.fails (s.perform r).1 = false → (t.perform r).2.solver.store.domains = (s.perform r).2.solver.store.domains)

/-- At one of the requests one of two sessions ends with a fault, since a constraint of theirs, or one that the
request asks to add, is about a variable that does not exist. -/
def Breaks (s t : Session) (rs : List Request) : Prop :=
  ∃ before q, before ++ [q] <+: rs ∧
    (∃ cs settled, (s.run before).Reached cs settled ∧
      Lacks (cs ++ q.constraints) (s.run before).solver.store.domains) ∧
    ∃ f, ((s.run before).perform q).1 = .error (.fault f) ∨ ((t.run before).perform q).1 = .error (.fault f)

variable {s t : Session} {cs : List Constraint} {settled : Bool} {r : Request} {rs : List Request}

/-- Two sessions with twins for solvers that have handed out the same propagators. -/
structure Twins (s t : Session) (cs : List Constraint) : Prop where
  solver : s.solver.Twins t.solver cs
  handles_eq : t.handles = s.handles

/-- Two sessions with solvers of the same constraints that have handed out the same propagators. -/
structure Kin (s t : Session) (cs : List Constraint) : Prop where
  solver : s.solver.Kin t.solver cs
  handles_eq : t.handles = s.handles

theorem Twins.kin (h : Twins s t cs) : Kin s t cs := ⟨h.solver.toKin, h.handles_eq⟩

theorem Twins.opened (h : Twins s t cs) : Twins s.opened t.opened cs :=
  ⟨{ h.solver with left := { h.solver.left with }, right := { h.solver.right with } }, h.handles_eq⟩

theorem Kin.opened (h : Kin s t cs) : Kin s.opened t.opened cs :=
  ⟨{ h.solver with left := { h.solver.left with }, right := { h.solver.right with } }, h.handles_eq⟩

/-! ### Questions -/

/-- A handle leads to the same propagator, or to the same error. -/
private theorem Twins.agent? (h : Twins s t cs) (p : PropagatorId) :
    (∃ e, s.agent? p = .error e ∧ t.agent? p = .error e) ∨
      ∃ a b, s.agent? p = .ok a ∧ t.agent? p = .ok b ∧ b.propagator = a.propagator := by
  simp only [Session.agent?, h.handles_eq]
  by_cases hp : s.handles.contains p = true
  · rw [if_pos hp, if_pos hp]
    cases ha : s.solver.agents.get? p with
    | none =>
      have hb : t.solver.agents.get? p = none := by
        rw [Table.get?_eq_none_iff] at ha ⊢
        rwa [h.solver.right.size_eq, ← h.solver.left.size_eq]
      rw [hb]
      exact .inl ⟨_, rfl, rfl⟩
    | some a =>
      obtain ⟨c, hc, -⟩ := h.solver.left.exists_constraint ha
      obtain ⟨b, hb⟩ := h.solver.right.exists_agent hc
      rw [hb]
      exact .inr ⟨a, b, rfl, rfl,
        (h.solver.right.propagator_eq p b c hb hc).trans (h.solver.left.propagator_eq p a c ha hc).symm⟩
  · rw [if_neg hp, if_neg hp]
    exact .inl ⟨_, rfl, rfl⟩

/-- The propagators of a solver are those of its constraints, in order. -/
private theorem map_propagator (h : s.solver.Hosts cs) :
    s.solver.agents.toList.map Agent.propagator = cs.map Constraint.propagator := by
  refine List.ext_getElem? fun i => ?_
  rw [List.getElem?_map, List.getElem?_map, Table.getElem?_toList]
  cases hc : cs[i]? with
  | none =>
    have hnone : s.solver.agents.get? ⟨i⟩ = none := by
      rw [Table.get?_eq_none_iff, h.size_eq]
      exact List.getElem?_eq_none_iff.1 hc
    exact congrArg _ hnone
  | some c =>
    obtain ⟨a, ha⟩ := h.exists_agent (p := ⟨i⟩) hc
    exact (congrArg _ ha).trans (congrArg some (h.propagator_eq ⟨i⟩ a c ha hc))

private theorem Twins.entailmentOfAll (h : Twins s t cs) : t.solver.entailmentOfAll = s.solver.entailmentOfAll := by
  -- the answer depends on the propagators and the domains only
  have hfold : ∀ u : Solver, u.entailmentOfAll =
      (u.agents.toList.map Agent.propagator).foldlM (fun e p => return e.and (← p.entailment u.store.domains))
        .satisfied := fun u => by
    rw [Solver.entailmentOfAll, List.foldlM_map]
  rw [hfold, hfold, h.solver.domains_eq, map_propagator h.solver.left, map_propagator h.solver.right]

theorem Twins.inspect (h : Twins s t cs) (r : Request) : Alike (s.inspect r) (t.inspect r) := by
  have hd := h.solver.domains_eq
  cases r with
  | entailment p =>
    rcases h.agent? p with ⟨e, ha, hb⟩ | ⟨a, b, ha, hb, heq⟩
    · simp only [Session.inspect, ha, hb]
      exact .same _
    · simp only [Session.inspect, ha, hb, bind, Except.bind, heq, hd]
      exact .same _
  | isPassive p =>
    rcases h.agent? p with ⟨e, ha, hb⟩ | ⟨a, b, ha, hb, -⟩
    · simp only [Session.inspect, ha, hb]
      exact .same _
    · simp only [Session.inspect, ha, hb]
      exact .flag _ _
  | describe p =>
    rcases h.agent? p with ⟨e, ha, hb⟩ | ⟨a, b, ha, hb, heq⟩
    · simp only [Session.inspect, ha, hb]
      exact .same _
    · simp only [Session.inspect, ha, hb, bind, Except.bind, heq]
      exact .same _
  | entailmentOfAll =>
    simp only [Session.inspect, h.entailmentOfAll]
    exact .same _
  | counts =>
    simp only [Session.inspect, hd, h.solver.depth_eq, h.solver.left.size_eq, h.solver.right.size_eq]
    exact .same _
  | see v =>
    simp only [Session.inspect, hd]
    exact .same _
  | contains x v =>
    simp only [Session.inspect, hd]
    exact .same _
  | _ => exact .same _

/-! ### Requests -/

/-- What two sessions are to each other once one of them has answered a request: twins unless a propagation or an
addition has failed, and kin unless it was a fault. -/
private def Stay (s t : Session) (cs : List Constraint) (r : Request) (answer : Except Failure Answer) : Prop :=
  ∃ n, (r.fails answer = false → Twins s t (cs ++ r.constraints.take n)) ∧
    ((∀ f, answer ≠ .error (.fault f)) → Kin s t (cs ++ r.constraints.take n))

private theorem stay_of_twins {answer : Except Failure Answer} (h : Twins s t cs) : Stay s t cs r answer :=
  ⟨0, fun _ => by simpa using h, fun _ => by simpa using h.kin⟩

private theorem stay_of_kin {answer : Except Failure Answer} {n : Nat} (h : Kin s t (cs ++ r.constraints.take n))
    (hr : r.fails answer = true) : Stay s t cs r answer :=
  ⟨n, fun hno => by simp [hr] at hno, fun _ => h⟩

private theorem stay_of_fault {f : Fault} (hr : r.fails (.error (.fault f)) = true) :
    Stay s t cs r (.error (.fault f)) :=
  ⟨0, fun hno => by simp [hr] at hno, fun hno => absurd rfl (hno f)⟩

/-- Twins answer an operation alike that has the same result on both and leaves twins. -/
private theorem Twins.settle {ε α : Type} {o o' : Outcome ε α} {failure : ε → Failure} {answer : α → Answer}
    (h : Twins s t cs) (hres : o'.result = o.result) (ho : o.solver.Twins o'.solver cs) :
    Alike (s.settle o failure answer).1 (t.settle o' failure answer).1 ∧
      Stay (s.settle o failure answer).2 (t.settle o' failure answer).2 cs r (s.settle o failure answer).1 := by
  refine ⟨?_, stay_of_twins ⟨ho, h.handles_eq⟩⟩
  simp only [Session.settle, hres]
  exact .same _

section
variable {ε α : Type} {f : Fault} {answer : α → Answer}

private theorem fault_settle_of_fault {o : Outcome (Stop ε) α} (failure : ε → Failure)
    (hf : o.result = .error (.fault f)) : (s.settle o (failureOf failure) answer).1 = .error (.fault f) := by
  simp only [Session.settle, hf, failureOf]

private theorem error_settle_of_error {o : Outcome Fault α} (hf : o.result = .error f) :
    (s.settle o .fault answer).1 = .error (.fault f) := by
  simp only [Session.settle, hf]

end

private theorem Twins.addPosting {c : Constraint} (h : Twins s t cs) :
    Alike (s.addPosting c.posting).1 (t.addPosting c.posting).1 ∧
        Stay (s.addPosting c.posting).2 (t.addPosting c.posting).2 cs (.add c) (s.addPosting c.posting).1 ∨
      Lacks (cs ++ [c]) s.solver.store.domains ∧
        ∃ f, (s.addPosting c.posting).1 = .error (.fault f) ∨ (t.addPosting c.posting).1 = .error (.fault f) := by
  unfold Session.addPosting
  rcases h.solver.add (c := c) with ⟨p, hs, ht, htwins⟩ | ⟨e, n, hs, ht, hkin⟩ | ⟨f, hs, ht⟩ | ⟨hl, f, hf⟩
  · simp only [hs, ht, h.handles_eq]
    exact .inl ⟨.same _, 1, fun _ => ⟨htwins, rfl⟩, fun _ => ⟨htwins.toKin, rfl⟩⟩
  · simp only [hs, ht]
    exact .inl ⟨.same _, stay_of_kin (n := n) ⟨hkin, h.handles_eq⟩ rfl⟩
  · simp only [hs, ht]
    exact .inl ⟨.same _, stay_of_fault rfl⟩
  · refine .inr ⟨hl, f, hf.imp (fun hf => ?_) fun hf => ?_⟩ <;> simp only [hf, failureOf]

/-- Sessions that are twins answer alike, unless there is a fault for want of an operand. -/
private theorem Twins.perform (h : Twins s t cs) (hr : r.BuiltIn) :
    Alike (s.perform r).1 (t.perform r).1 ∧ Stay (s.perform r).2 (t.perform r).2 cs r (s.perform r).1 ∨
      Lacks (cs ++ r.constraints) s.solver.store.domains ∧
        ∃ f, (s.perform r).1 = .error (.fault f) ∨ (t.perform r).1 = .error (.fault f) := by
  have ho := h.opened
  cases r with
  | newSet kernel envelope =>
    obtain ⟨hres, hsolver⟩ := ho.solver.newSet kernel envelope
    exact .inl (ho.settle hres hsolver)
  | newInt low high =>
    obtain ⟨hres, hsolver⟩ := ho.solver.newInt low high
    exact .inl (ho.settle hres hsolver)
  | narrow n =>
    obtain ⟨hres, hsolver⟩ := ho.solver.narrow n
    exact .inl (ho.settle hres hsolver)
  | propagate =>
    rw [perform_propagate, perform_propagate]
    rcases ho.solver.propagate with ⟨hs, ht, htwins⟩ | ⟨e, e', hs, ht, hkin⟩ | ⟨hl, f, hf⟩
    · exact .inl (ho.settle (ht.trans hs.symm) htwins)
    · simp only [Session.settle, hs, ht]
      exact .inl ⟨.contradiction e e', stay_of_kin (n := 0) ⟨by simpa using hkin, h.handles_eq⟩ rfl⟩
    · exact .inr ⟨hl.mono (List.subset_append_left _ _), f,
        hf.imp (fault_settle_of_fault .contradiction) (fault_settle_of_fault .contradiction)⟩
  | mark =>
    refine .inl ⟨?_, stay_of_twins ⟨ho.solver.mark, h.handles_eq⟩⟩
    have hdepth : t.opened.solver.mark.depth = s.opened.solver.mark.depth := ho.solver.mark.depth_eq
    show Alike (.ok (.level s.opened.solver.mark.depth)) (.ok (.level t.opened.solver.mark.depth))
    rw [hdepth]
    exact .same _
  | backtrack level =>
    rw [perform_backtrack, perform_backtrack]
    by_cases hl : s.opened.solver.depth < level
    · refine .inl (ho.settle ?_ ?_)
      · simp only [Solver.backtrack, ho.solver.depth_eq, if_pos hl]
      · simp only [Solver.backtrack, ho.solver.depth_eq, if_pos hl]
        exact ho.solver
    · refine .inl (ho.settle ?_ ?_)
      · simp only [Solver.backtrack, ho.solver.depth_eq, if_neg hl]
      · simp only [Solver.backtrack, ho.solver.depth_eq, if_neg hl]
        exact ho.solver.returnTo (Nat.le_of_not_lt hl)
  | add c => exact ho.addPosting
  | addScript script => exact hr.elim
  | post l =>
    rw [perform_post, perform_post]
    rcases ho.solver.addAll (l := l) with ⟨hs, ht, htwins⟩ | ⟨e, n, hs, ht, hkin⟩ | ⟨f, hs, ht⟩ | ⟨hl, f, hf⟩
    · simp only [Session.settle, hs, ht]
      refine .inl ⟨.same _, l.length, fun _ => ?_, fun _ => ?_⟩
      · exact ⟨by simpa [Request.constraints] using htwins, h.handles_eq⟩
      · exact ⟨by simpa [Request.constraints] using htwins.toKin, h.handles_eq⟩
    · simp only [Session.settle, hs, ht]
      exact .inl ⟨.same _, stay_of_kin (n := n) ⟨hkin, h.handles_eq⟩ rfl⟩
    · simp only [Session.settle, hs, ht]
      exact .inl ⟨.same _, stay_of_fault rfl⟩
    · exact .inr ⟨hl, f,
        hf.imp (fault_settle_of_fault .refusal) (fault_settle_of_fault .refusal)⟩
  | solve | allSolutions =>
    rcases ho.solver.solutions with ⟨found, hs, ht, htwins⟩ | ⟨hl, f, hf⟩
    · exact .inl (ho.settle (ht.trans hs.symm) htwins)
    · exact .inr ⟨hl.mono (List.subset_append_left _ _), f, hf.imp error_settle_of_error error_settle_of_error⟩
  | entailment p => exact .inl ⟨ho.inspect (.entailment p), stay_of_twins ho⟩
  | isPassive p => exact .inl ⟨ho.inspect (.isPassive p), stay_of_twins ho⟩
  | describe p => exact .inl ⟨ho.inspect (.describe p), stay_of_twins ho⟩
  | entailmentOfAll => exact .inl ⟨ho.inspect .entailmentOfAll, stay_of_twins ho⟩
  | counts => exact .inl ⟨ho.inspect .counts, stay_of_twins ho⟩
  | see v => exact .inl ⟨ho.inspect (.see v), stay_of_twins ho⟩
  | contains x v => exact .inl ⟨ho.inspect (.contains x v), stay_of_twins ho⟩

/-- Kin become twins when they go back to a lower level. -/
private theorem Kin.backtrack {level : Nat} (h : Kin s t cs) (hl : level < s.solver.depth) :
    (s.perform (.backtrack level)).1 = .ok .done ∧ (t.perform (.backtrack level)).1 = .ok .done ∧
      Twins (s.perform (.backtrack level)).2 (t.perform (.backtrack level)).2 cs := by
  have ho := h.opened
  have hback : ∀ u : Solver, u.depth = s.opened.solver.depth → u.backtrack level = ⟨.ok (), u.returnTo level⟩ :=
    fun u hu => if_neg (by rw [hu]; exact Nat.not_lt_of_gt hl)
  rw [perform_backtrack, perform_backtrack, hback _ rfl, hback _ ho.solver.depth_eq]
  exact ⟨rfl, rfl, ho.solver.returnTo hl, h.handles_eq⟩

/-! ### Sessions with discipline -/

/-- What two sessions are to each other when `rs` is still to come: twins, or kin that are about to go back. -/
private def Paired (s t : Session) (cs : List Constraint) (rs : List Request) : Prop :=
  Twins s t cs ∨ Kin s t cs ∧ goesBack s.solver.depth rs = true

private theorem Paired.perform (h : Paired s t cs (r :: rs)) (hr : r.BuiltIn) :
    Agree s t r ∧ Stay (s.perform r).2 (t.perform r).2 cs r (s.perform r).1 ∨
      Lacks (cs ++ r.constraints) s.solver.store.domains ∧
        ∃ f, (s.perform r).1 = .error (.fault f) ∨ (t.perform r).1 = .error (.fault f) := by
  rcases h with h | ⟨h, hback⟩
  · rcases h.perform hr with ⟨halike, n, htwins, hkin⟩ | hl
    · exact .inl ⟨⟨halike, fun hno => (htwins hno).solver.domains_eq⟩, n, htwins, hkin⟩
    · exact .inr hl
  · -- after a failure the next request can only be one that goes back
    obtain ⟨level, rfl, hl⟩ : ∃ level, r = .backtrack level ∧ level < s.solver.depth := by
      cases r with
      | backtrack level => exact ⟨level, rfl, of_decide_eq_true hback⟩
      | _ => cases hback
    obtain ⟨hs, ht, htwins⟩ := h.backtrack hl
    refine .inl ⟨⟨?_, fun _ => htwins.solver.domains_eq⟩, stay_of_twins htwins⟩
    rw [hs, ht]
    exact .same _

/-- As long as no request is a fault, sessions stay paired. -/
private theorem Paired.next (h : Stay (s.perform r).2 (t.perform r).2 cs r (s.perform r).1)
    (hs : s.Reached cs settled) (hr : r.BuiltIn) (hd : s.Disciplined (r :: rs))
    (hf : ∀ f, (s.perform r).1 ≠ .error (.fault f)) :
    ∃ cs' settled', (s.perform r).2.Reached cs' settled' ∧ Paired (s.perform r).2 (t.perform r).2 cs' rs := by
  obtain ⟨n, htwins, hkin⟩ := h
  refine ⟨_, _, hs.perform hr hf, ?_⟩
  -- how many constraints were taken in can be read off either session
  rw [take_of_hosts hs.hosts (hkin hf).solver.left]
  cases hfails : r.fails (s.perform r).1 with
  | false => exact .inl (htwins hfails)
  | true => exact .inr ⟨hkin hf, hd.1 hfails⟩

private theorem Breaks.cons (h : Breaks (s.perform r).2 (t.perform r).2 rs) : Breaks s t (r :: rs) := by
  obtain ⟨before, q, hpre, hl, hf⟩ := h
  exact ⟨r :: before, q, by simpa using hpre, hl, hf⟩

private theorem Paired.agree (h : Paired s t cs (rs ++ [r])) (hs : s.Reached cs settled)
    (hb : ∀ q ∈ rs ++ [r], q.BuiltIn) (hd : s.Disciplined (rs ++ [r])) (hsurv : s.Survives rs) :
    t.Survives rs ∧ Agree (s.run rs) (t.run rs) r ∨ Breaks s t (rs ++ [r]) := by
  induction rs generalizing s t cs settled with
  | nil =>
    exact (h.perform (hb r (by simp))).imp (fun h => ⟨trivial, h.1⟩) fun ⟨hl, hf⟩ =>
      ⟨[], r, List.prefix_rfl, ⟨cs, settled, hs, hl⟩, hf⟩
  | cons q rs ih =>
    have hq : q.BuiltIn := hb q (by simp)
    rcases h.perform hq with ⟨hagree, hstay⟩ | ⟨hl, hf⟩
    · obtain ⟨cs', settled', hs', hnext⟩ := Paired.next hstay hs hq hd hsurv.1
      rcases ih hnext hs' (fun p hp => hb p (List.mem_cons_of_mem _ hp)) hd.2 hsurv.2 with ⟨ht, hlast⟩ | hbreaks
      · exact .inl ⟨⟨hagree.1.ne_fault hsurv.1, ht⟩, hlast⟩
      · exact .inr hbreaks.cons
    · exact .inr ⟨[], q, by simp, ⟨cs, settled, hs, hl⟩, hf⟩

/-- Twins agree on the last request of a disciplined session, and so on every one, unless one of them ends for want of
a variable. -/
theorem Twins.agree (h : Twins s t cs) (hs : s.Reached cs settled) (hb : ∀ q ∈ rs ++ [r], q.BuiltIn)
    (hd : s.Disciplined (rs ++ [r])) (hsurv : s.Survives rs) :
    t.Survives rs ∧ Agree (s.run rs) (t.run rs) r ∨ Breaks s t (rs ++ [r]) :=
  Paired.agree (.inl h) hs hb hd hsurv

/-! ### Options -/

private theorem twins_new {o o' : Options} (hs : new? o = .ok s) (ht : new? o' = .ok t) : Twins s t [] := by
  -- new sessions differ in nothing but the options and the number of queue levels
  have hnew : ∀ {o : Options} {s : Session}, new? o = .ok s →
      s = { solver := { options := o, queue := .new o.levels } } := by
    intro o s h
    unfold new? Solver.new? at h
    split at h <;> cases h
    rfl
  have hleft := (Reached.new hs).ready
  have hright := (Reached.new ht).ready
  obtain rfl := hnew hs
  obtain rfl := hnew ht
  exact ⟨⟨⟨hleft.toHosts, hright.toHosts, rfl, fun _ _ => rfl, rfl⟩, hleft.covered, hright.covered, rfl⟩, rfl⟩

/-- The options make no difference to what a disciplined session is answered, nor to the domains after a request that
is no failed propagation or addition; in particular it makes none whether deltas are handed over. -/
theorem agree_of_options {o o' : Options} (hs : new? o = .ok s) (ht : new? o' = .ok t)
    (hb : ∀ q ∈ rs ++ [r], q.BuiltIn) (hd : s.Disciplined (rs ++ [r])) (hsurv : s.Survives rs) :
    t.Survives rs ∧ Agree (s.run rs) (t.run rs) r ∨ Breaks s t (rs ++ [r]) :=
  (twins_new hs ht).agree (.new hs) hb hd hsurv

/-! ### An example -/

/-- If neither of two sessions ends, then none ends for want of a variable. -/
theorem not_breaks (hs : s.Survives rs) (ht : t.Survives rs) : ¬ Breaks s t rs := by
  rintro ⟨before, q, ⟨later, rfl⟩, -, f, hf⟩
  induction before generalizing s t with
  | nil => exact hf.elim (hs.1 f) (ht.1 f)
  | cons p before ih => exact ih hs.2 ht.2 hf

instance (answer : Except Failure Answer) : Decidable (∀ f, answer ≠ .error (.fault f)) :=
  match answer with
  | .ok _ => isTrue nofun
  | .error (.fault f) => isFalse fun h => h f rfl
  | .error (.contradiction _) | .error (.refusal _) | .error .noHandle => isTrue nofun

instance decidableSurvives : (rs : List Request) → (s : Session) → Decidable (s.Survives rs)
  | [], _ => isTrue trivial
  | r :: rs, s =>
    have := decidableSurvives rs (s.perform r).2
    inferInstanceAs (Decidable (_ ∧ _))

instance decidableDisciplined : (rs : List Request) → (s : Session) → Decidable (s.Disciplined rs)
  | [], _ => isTrue trivial
  | r :: rs, s =>
    have := decidableDisciplined rs (s.perform r).2
    inferInstanceAs (Decidable ((_ → _) ∧ _))

/-- A new session, with or without deltas. -/
def blank (incremental : Bool) : Session :=
  { solver := { options := { incremental := incremental }, queue := .new Priority.count } }

/-- A set below a bound, a change that leaves no room to the bound, and the way back after the contradiction. -/
def detour : List Request :=
  [.newSet [1] [1, 2], .newInt 0 3, .add (.strictBound ⟨⟨0⟩, ⟨0⟩⟩), .mark, .narrow (.require ⟨0⟩ 2),
    .narrow (.atMost ⟨0⟩ 2), .propagate, .backtrack 0]

/-- The same solutions are found with and without deltas after the detour. -/
theorem agree_of_options_sample : (blank true).Disciplined (detour ++ [.allSolutions]) ∧
    (blank true).Survives detour ∧
    Agree ((blank true).run detour) ((blank false).run detour) .allSolutions ∧
    (((blank true).run detour).perform .allSolutions).1 =
      .ok (.solutions [⟨[[1, 2]], [3]⟩, ⟨[[1]], [2]⟩, ⟨[[1]], [3]⟩]) := by
  have hd : (blank true).Disciplined (detour ++ [.allSolutions]) := by decide +kernel
  have hs : (blank true).Survives detour := by decide +kernel
  have hb : ∀ q ∈ detour ++ [.allSolutions], q.BuiltIn := by simp [detour, Request.BuiltIn]
  have hends : ¬ Breaks (blank true) (blank false) (detour ++ [.allSolutions]) :=
    not_breaks (by decide +kernel) (by decide +kernel)
  have hwith : new? { incremental := true } = .ok (blank true) := rfl
  have hwithout : new? { incremental := false } = .ok (blank false) := rfl
  exact ⟨hd, hs, ((agree_of_options hwith hwithout hb hd hs).resolve_right hends).2, by decide +kernel⟩

end Session

end SetConstraints
