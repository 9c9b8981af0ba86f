import SetConstraints.Proofs.Solver.Adding
import SetConstraints.Proofs.Solver.Enumeration

/-!
# Sessions with the built-in constraints

The sessions reached by requests that add no scripts (`Session.Reached`) are told apart by the constraints that have
got a propagator, also those whose addition failed, and by whether each error of a propagation or an addition has been
answered by going back.  Their solvers host these constraints, and cover them if all errors have been answered
(`Session.Reached.hosts`, `Session.Reached.ready`).
-/

namespace SetConstraints

namespace Request

/-- The constraints that a request asks to add, in order. -/
def constraints : Request → List Constraint
  | .add c => [c]
  | .post cs => cs
  | _ => []

/-- The request adds no script. -/
def BuiltIn : Request → Prop
  | .addScript _ => False
  | _ => True

/-- The request makes the solver propagate. -/
def Propagates : Request → Prop
  | .propagate | .add _ | .post _ | .solve _ | .allSolutions => True
  | _ => False

/-- Whether each error of a propagation or an addition is followed by going back, once a request is answered, if
`settled` says whether it was so before. -/
def settles (r : Request) (answer : Except Failure Answer) (settled : Bool) : Bool :=
  match r, answer with
  | .propagate, .error _ | .add _, .error _ | .post _, .error _ => false
  | .backtrack _, .ok _ => true
  | _, _ => settled

end Request

namespace Session

/-- `s` is reached by requests that add no script and are no faults; `cs` are the constraints with a propagator, and
`settled` says whether each error of a propagation or an addition was followed by going back. -/
inductive Reached : Session → List Constraint → Bool → Prop
  | new {o : Options} {s : Session} (h : new? o = .ok s) : Reached s [] true
  | perform {s : Session} {cs : List Constraint} {settled : Bool} {r : Request} (h : Reached s cs settled)
      (hr : r.BuiltIn) (hf : ∀ f, (s.perform r).1 ≠ .error (.fault f)) :
      Reached (s.perform r).2
        (cs ++ r.constraints.take ((s.perform r).2.solver.agents.size - s.solver.agents.size))
        (r.settles (s.perform r).1 settled)

variable {s : Session} {cs : List Constraint} {settled : Bool} {r : Request}

/-- The session at the beginning of a request, when its journal is empty. -/
def opened (s : Session) : Session := { s with solver := { s.solver with journal := #[] } }

/-! ### What requests come to -/

theorem perform_propagate (s : Session) : s.perform .propagate =
    s.opened.settle s.opened.solver.propagate (failureOf .contradiction) fun _ => .done := rfl

theorem perform_backtrack (s : Session) (level : Nat) : s.perform (.backtrack level) =
    s.opened.settle (s.opened.solver.backtrack level) .fault fun _ => .done := rfl

theorem perform_add (s : Session) (c : Constraint) : s.perform (.add c) = s.opened.addPosting c.posting := rfl

theorem perform_post (s : Session) (l : List Constraint) : s.perform (.post l) =
    s.opened.settle (s.opened.solver.addAll l) (failureOf .refusal) fun _ => .done := rfl

/-! ### What requests leave -/

/-- What a request leaves: the solver hosts some of the constraints asked for, and covers them if `settled`. -/
private def Leaves (r : Request) (cs : List Constraint) (t : Session) (settled : Bool) : Prop :=
  ∃ n, t.solver.Hosts (cs ++ r.constraints.take n) ∧ (settled = true → t.solver.Ready (cs ++ r.constraints.take n))

private theorem leaves_of_ready {t : Session} (h : t.solver.Ready cs) : Leaves r cs t settled :=
  ⟨0, by simpa using h.toHosts, fun _ => by simpa using h⟩

private theorem leaves_of_hosts {t : Session} (h : t.solver.Hosts cs) (hr : settled = true → t.solver.Ready cs) :
    Leaves r cs t settled :=
  ⟨0, by simpa using h, fun hs => by simpa using hr hs⟩

private theorem leaves_same {t : Session} (h : s.solver.Hosts cs) (hr : settled = true → s.solver.Ready cs)
    (ht : t.solver = s.solver) : Leaves r cs t settled :=
  leaves_of_hosts (ht ▸ h) fun hs => ht ▸ hr hs

private theorem leaves_extend {t : Session} {e : Domain} (he : e.WellFormed) (h : s.solver.Hosts cs)
    (hr : settled = true → s.solver.Ready cs) (ht : t.solver = s.solver.extend e) : Leaves r cs t settled :=
  leaves_of_hosts (ht ▸ h.extend he) fun hs => ht ▸ (hr hs).extend he

private theorem leaves_narrow (n : Narrowing) (h : s.solver.Hosts cs) (hr : settled = true → s.solver.Ready cs) :
    Leaves (.narrow n) cs { s with solver := (s.solver.narrow n).solver } settled := by
  unfold Solver.narrow
  cases hn : s.solver.store.narrow n with
  | error e => exact leaves_of_hosts h hr
  | ok t =>
    obtain ⟨new, hnew⟩ := h.exists_narrowed hn
    exact leaves_of_hosts (h.narrowed hnew) fun hs => (hr hs).narrowed hnew

private theorem leaves_add {t : Session} (c : Constraint) (h : s.solver.Hosts cs)
    (hr : settled = true → s.solver.Ready cs) (ht : t.solver = (s.solver.add c.posting).solver)
    (hf : ∀ f, (s.solver.add c.posting).result ≠ .error (.fault f)) (after : Bool)
    (hafter : after = true → settled = true ∧ ∃ p, (s.solver.add c.posting).result = .ok p) :
    Leaves (.add c) cs t after := by
  rcases h.add hf with heq | hhosts
  · refine leaves_of_hosts ?_ fun hs => ?_
    · rw [ht, heq]
      exact h
    · rw [ht, heq]
      exact hr (hafter hs).1
  · refine ⟨1, by rw [ht]; exact hhosts, fun hs => ?_⟩
    obtain ⟨hs, p, hp⟩ := hafter hs
    obtain ⟨h1, h2, -⟩ := (hr hs).add hp
    rw [ht]
    exact h2.ready h1

private theorem leaves_post {t : Session} (l : List Constraint) (h : s.solver.Hosts cs)
    (hr : settled = true → s.solver.Ready cs) (ht : t.solver = (s.solver.addAll l).solver)
    (hf : ∀ f, (s.solver.addAll l).result ≠ .error (.fault f)) (after : Bool)
    (hafter : after = true → settled = true ∧ (s.solver.addAll l).result = .ok ()) : Leaves (.post l) cs t after := by
  by_cases hs : after = true
  · obtain ⟨hs, hok⟩ := hafter hs
    have hready := ((hr hs).addAll hok).1
    have htake : (Request.post l).constraints.take l.length = l := List.take_length
    exact ⟨l.length, by rw [htake, ht]; exact hready.toHosts, fun _ => by rw [htake, ht]; exact hready⟩
  · obtain ⟨n, hn⟩ := h.addAll hf
    exact ⟨n, ht ▸ hn, fun h => absurd h hs⟩

private theorem leaves_solutions {found : List Assignment} {t : Session} (h : s.solver.Hosts cs)
    (hr : settled = true → s.solver.Ready cs) (ht : t.solver = s.solver.solutions.solver)
    (hok : s.solver.solutions.result = .ok found) : Leaves r cs t settled := by
  rcases h.solutions hok with ⟨-, heq⟩ | ⟨hready, -⟩
  · exact leaves_of_hosts (by rw [ht, heq]; exact h) fun hs => by rw [ht, heq]; exact hr hs
  · exact leaves_of_ready (ht ▸ hready)

/-- An answer that is no fault comes from an operation that is none. -/
theorem ne_fault_of_settle {ε α : Type} {o : Outcome (Stop ε) α} {failure : ε → Failure} {answer : α → Answer}
    (hf : ∀ f, (s.settle o (failureOf failure) answer).1 ≠ .error (.fault f)) (f : Fault) :
    o.result ≠ .error (.fault f) :=
  fun h => hf f (by simp [settle, h, failureOf])

theorem ok_of_settle {α : Type} {o : Outcome Fault α} {answer : α → Answer}
    (hf : ∀ f, (s.settle o .fault answer).1 ≠ .error (.fault f)) : ∃ a, o.result = .ok a := by
  cases h : o.result with
  | error f => exact absurd (by simp [settle, h]) (hf f)
  | ok a => exact ⟨a, rfl⟩

private theorem leaves_propagate (h : s.solver.Hosts cs) (hr : settled = true → s.solver.Ready cs)
    (hf : ∀ f, s.solver.propagate.result ≠ .error (.fault f)) (after : Bool)
    (hafter : after = true → settled = true ∧ s.solver.propagate.result = .ok ()) :
    Leaves .propagate cs { s with solver := s.solver.propagate.solver } after := by
  have hhosts := (h.propagate hf).1
  refine leaves_of_hosts hhosts fun hs => ?_
  obtain ⟨hs, hok⟩ := hafter hs
  exact ((hr hs).propagate hok).ready hhosts

private theorem leaves_backtrack {level : Nat} (h : s.solver.Hosts cs)
    (hok : (s.solver.backtrack level).result = .ok ()) :
    Leaves (.backtrack level) cs { s with solver := (s.solver.backtrack level).solver } settled := by
  unfold Solver.backtrack at hok ⊢
  split at hok
  · cases hok
  · rename_i hl
    rw [if_neg hl]
    exact leaves_of_ready (h.ready_returnTo (Nat.le_of_not_lt hl))

private theorem leaves_perform (h : s.solver.Hosts cs) (hready : settled = true → s.solver.Ready cs) (hr : r.BuiltIn)
    (hf : ∀ f, (s.perform r).1 ≠ .error (.fault f)) :
    Leaves r cs (s.perform r).2 (r.settles (s.perform r).1 settled) := by
  have ho : s.opened.solver.Hosts cs := { h with }
  have hro : settled = true → s.opened.solver.Ready cs := fun hs => { hready hs with }
  cases r with
  | newSet kernel envelope =>
    rcases s.opened.solver.newSet_spec kernel envelope with ⟨e, he, heq⟩ | ⟨f, heq⟩
    · exact leaves_extend (e := .set e) he ho hro heq
    · exact leaves_same ho hro (congrArg Outcome.solver heq)
  | newInt low high =>
    rcases s.opened.solver.newInt_spec low high with ⟨e, heq⟩ | ⟨f, heq⟩
    · exact leaves_extend (e := .int e) trivial ho hro heq
    · exact leaves_same ho hro (congrArg Outcome.solver heq)
  | narrow n => exact leaves_narrow n ho hro
  | propagate =>
    refine leaves_propagate ho hro (ne_fault_of_settle hf) _ fun hs => ?_
    rw [perform_propagate] at hs
    cases hres : s.opened.solver.propagate.result with
    | error e => simp [settle, hres, Request.settles] at hs
    | ok x => exact ⟨by simpa [settle, hres, Request.settles] using hs, rfl⟩
  | mark => exact leaves_of_hosts ho.mark fun hs => (hro hs).mark
  | backtrack level =>
    obtain ⟨x, hx⟩ := ok_of_settle hf
    exact leaves_backtrack ho hx
  | add c =>
    rw [perform_add] at hf ⊢
    unfold addPosting at hf ⊢
    cases hres : (s.opened.solver.add c.posting).result with
    | error e =>
      simp only [hres] at hf ⊢
      refine leaves_add c ho hro rfl (fun f hno => ?_) _ fun hs => by simp [Request.settles] at hs
      obtain rfl : e = .fault f := by simpa [hres] using hno
      exact hf f rfl
    | ok p =>
      simp only [hres]
      exact leaves_add c ho hro rfl (by simp [hres]) _ fun hs => ⟨hs, p, hres⟩
  | addScript script => exact hr.elim
  | post l =>
    refine leaves_post l ho hro rfl (ne_fault_of_settle hf) _ fun hs => ?_
    rw [perform_post] at hs
    cases hres : (s.opened.solver.addAll l).result with
    | error e => simp [settle, hres, Request.settles] at hs
    | ok x => exact ⟨by simpa [settle, hres, Request.settles] using hs, rfl⟩
  | solve | allSolutions =>
    obtain ⟨found, hfound⟩ := ok_of_settle hf
    exact leaves_solutions ho hro rfl hfound
  | entailment | isPassive | describe | entailmentOfAll | counts | see | contains => exact leaves_of_hosts ho hro

/-- How many propagators have been added tells which constraints have got one. -/
theorem take_of_hosts {u v : Solver} {l : List Constraint} {n : Nat} (hu : u.Hosts cs)
    (hv : v.Hosts (cs ++ l.take n)) : l.take (v.agents.size - u.agents.size) = l.take n := by
  rw [hv.size_eq, hu.size_eq, List.length_append, Nat.add_sub_cancel_left, List.length_take]
  exact List.take_eq_take_iff.2 (by omega)

private theorem Reached.invariant (h : s.Reached cs settled) :
    s.solver.Hosts cs ∧ (settled = true → s.solver.Ready cs) := by
  induction h with
  | @new o s h =>
    obtain ⟨u, hu, rfl⟩ : ∃ u, Solver.new? o = .ok u ∧ s = { solver := u } := by
      cases hu : Solver.new? o with
      | error f => simp [new?, hu, bind, Except.bind] at h
      | ok u =>
        simp only [new?, hu, bind, Except.bind, pure, Except.pure, Except.ok.injEq] at h
        exact ⟨u, rfl, h.symm⟩
    exact ⟨Solver.hosts_new hu, fun _ => { Solver.hosts_new hu with covered := Solver.covered_nil _ _ }⟩
  | perform h hr hf ih =>
    obtain ⟨n, h1, h2⟩ := leaves_perform ih.1 ih.2 hr hf
    rw [take_of_hosts ih.1 h1]
    exact ⟨h1, h2⟩

/-- The solver of a session hosts the constraints that have got a propagator. -/
theorem Reached.hosts (h : s.Reached cs settled) : s.solver.Hosts cs := h.invariant.1

/-- If all errors have been answered by going back, the solver covers its constraints. -/
theorem Reached.ready (h : s.Reached cs true) : s.solver.Ready cs := h.invariant.2 rfl

theorem Reached.opened_hosts (h : s.Reached cs settled) : s.opened.solver.Hosts cs := { h.hosts with }

theorem Reached.opened_ready (h : s.Reached cs true) : s.opened.solver.Ready cs := { h.ready with }

/-! ### An example -/

/-- An answer that is no error leaves a session settled. -/
theorem Reached.step {a : Answer} {l : List Constraint} (h : s.Reached cs true) (hr : r.BuiltIn)
    (hok : (s.perform r).1 = .ok a)
    (hcs : cs ++ r.constraints.take ((s.perform r).2.solver.agents.size - s.solver.agents.size) = l) :
    (s.perform r).2.Reached l true := by
  have hnext := h.perform hr (by simp [hok])
  rw [hcs, hok] at hnext
  cases r <;> exact hnext

/-- A set between `{1}` and `{1, 2}` below a bound between 2 and 3. -/
private def below : Session :=
  let s : Session := { solver := { options := { checks := true }, queue := .new Priority.count } }
  (((s.perform (.newSet [1] [1, 2])).2.perform (.newInt 0 3)).2.perform (.add (.strictBound ⟨⟨0⟩, ⟨0⟩⟩))).2

/-- The session in which 2 has to be in the set, which has not been propagated yet. -/
def sample : Session := (below.perform (.narrow (.require ⟨0⟩ 2))).2

theorem reached_sample : sample.Reached [.strictBound ⟨⟨0⟩, ⟨0⟩⟩] true := by
  have h := Reached.new (o := { checks := true }) rfl
  have h := h.step (r := .newSet [1] [1, 2]) (a := .var (.set ⟨0⟩)) trivial (by decide +kernel) rfl
  have h := h.step (r := .newInt 0 3) (a := .var (.int ⟨0⟩)) trivial (by decide +kernel) rfl
  have h := h.step (r := .add (.strictBound ⟨⟨0⟩, ⟨0⟩⟩)) (a := .propagator ⟨0⟩) (l := [.strictBound ⟨⟨0⟩, ⟨0⟩⟩])
    trivial (by decide +kernel) (by decide +kernel)
  exact h.step (r := .narrow (.require ⟨0⟩ 2)) (a := .done) trivial (by decide +kernel) (by decide +kernel)

end Session

end SetConstraints
