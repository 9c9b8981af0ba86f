import SetConstraints.Proofs.Solver.Enumeration
import SetConstraints.Proofs.Solver.History

/-!
# Operations of a solver

A host creates variables, narrows domains, propagates, opens and leaves levels, adds propagators of any kind and
enumerates.  Every operation that is no fault takes the solver along a course, on which variables are created as asked
for and no level is left but those opened on the way, or by going back (`Solver.exists_course`).  So a whole session
is a course (`Solver.exists_course_performAll`).
-/

namespace SetConstraints

/-- What a host does with a solver. -/
inductive Operation
  | newSet (kernel envelope : List Int32)
  | newInt (low high : Int32)
  | narrow (n : Narrowing)
  | propagate
  | mark
  | backtrack (level : Nat)
  | add (c : Posting)
  | solutions

/-- The domain of the variable created by an operation. -/
def Operation.creations : Operation → List Domain
  | .newSet kernel envelope =>
    match SetDomain.ofLists kernel envelope with
    | .error _ => []
    | .ok d => [.set d]
  | .newInt low high => if h : low ≤ high then [.int ⟨low, high, h⟩] else []
  | _ => []

namespace Outcome

variable {ε α : Type}

/-- The solver that is left unless there is a fault. -/
def after (o : Outcome Fault α) : Except Fault Solver := o.result.map fun _ => o.solver

/-- The solver that is left, also by a contradiction, unless there is a fault. -/
def afterStop (o : Outcome (Stop ε) α) : Except Fault Solver :=
  match o.result with
  | .error (.fault f) => .error f
  | _ => .ok o.solver

theorem after_eq_ok {o : Outcome Fault α} {t : Solver} :
    o.after = .ok t ↔ (∃ a, o.result = .ok a) ∧ o.solver = t := by
  unfold after
  cases o.result <;> simp [Except.map]

theorem afterStop_eq_ok {o : Outcome (Stop ε) α} {t : Solver} :
    o.afterStop = .ok t ↔ (∀ f, o.result ≠ .error (.fault f)) ∧ o.solver = t := by
  unfold afterStop
  cases o.result with
  | ok a => simp
  | error e => cases e <;> simp

end Outcome

namespace Solver

/-- The solver after an operation.  A contradiction is an answer like any other, and a fault ends everything. -/
def perform (s : Solver) : Operation → Except Fault Solver
  | .newSet kernel envelope => (s.newSet kernel envelope).after
  | .newInt low high => (s.newInt low high).after
  | .narrow n => (s.narrow n).afterStop
  | .propagate => s.propagate.afterStop
  | .mark => .ok s.mark
  | .backtrack level => (s.backtrack level).after
  | .add c => (s.add c).afterStop
  | .solutions => s.solutions.after

/-- The solver after some operations. -/
def performAll (s : Solver) (ops : List Operation) : Except Fault Solver := ops.foldlM perform s

end Solver

namespace Occurrence

/-- The occurrence is part of propagation. -/
def Internal : Occurrence → Prop
  | .created _ | .narrowed _ | .opened | .wentBack _ | .added _ => False
  | _ => True

/-- The occurrence creates no variable and does not go below a level. -/
def Inside (level : Nat) (x : Occurrence) : Prop := x.creations = [] ∧ ∀ l, x = .wentBack l → level ≤ l

theorem Internal.inside {x : Occurrence} (h : x.Internal) (level : Nat) : x.Inside level := by
  cases x <;> first | exact h.elim | exact ⟨rfl, nofun⟩

theorem Internal.depth_eq {x : Occurrence} (h : x.Internal) (depth : Nat) : x.depth depth = depth := by
  cases x <;> first | exact h.elim | rfl

end Occurrence

namespace Solver

variable {s t u : Solver} {x : Occurrence} {xs : List Occurrence} {Q R : Occurrence → Prop} {p : PropagatorId}
  {a : Agent} {q : Queue}

/-- A course in which only what satisfies `Q` happens. -/
def CourseOf (Q : Occurrence → Prop) (s t : Solver) : Prop := ∃ xs, Course s xs t ∧ ∀ x ∈ xs, Q x.1

theorem CourseOf.refl (s : Solver) : CourseOf Q s s := ⟨[], .nil s, by simp⟩

theorem CourseOf.trans (h : CourseOf Q s t) (k : CourseOf Q t u) : CourseOf Q s u := by
  obtain ⟨xs, hxs, hQ⟩ := h
  obtain ⟨ys, hys, hQ'⟩ := k
  exact ⟨xs ++ ys, hxs.append hys, fun x hx => (List.mem_append.1 hx).elim (hQ x) (hQ' x)⟩

theorem CourseOf.imp (h : CourseOf Q s t) (hQ : ∀ x, Q x → R x) : CourseOf R s t :=
  have ⟨xs, hxs, hx⟩ := h
  ⟨xs, hxs, fun x hmem => hQ x.1 (hx x hmem)⟩

theorem Calls.courseOf {ps : List PropagatorId} (hx : Calls s x ps t) (hno : ∀ p, ¬ s.Asks p x) (hQ : Q x) :
    CourseOf Q s t :=
  ⟨[(x, ps)], .cons hx hno (.nil t), by simpa using hQ⟩

/-- A step other than a call. -/
theorem Step.courseOf (hx : Step s x t) (hnote : x.isNote = false) (hno : x.callees = []) (hQ : Q x) :
    CourseOf Q s t :=
  (hx.calls hnote).courseOf (not_asks hno) hQ

/-- A note of something else than a call. -/
private theorem courseOf_note {infeasible : Bool} {statistics : Statistics} {journal : Array JournalEntry}
    (hj : handovers journal = handovers s.journal) (hcalls : callees journal = callees s.journal) (hQ : Q .noted) :
    CourseOf Q s { s with infeasible := infeasible, statistics := statistics, journal := journal } :=
  Calls.courseOf ⟨.noted _ _ hj, hcalls.trans (List.append_nil _).symm, by simp⟩ (not_asks rfl) hQ

theorem Linked.courseOf (h : s.Linked) (hs : CourseOf Q s t) : t.Linked :=
  have ⟨_, hxs, _⟩ := hs
  h.path hxs.path

private theorem depth_of_internal (h : Path s xs t) (hs : s.Linked) (hxs : ∀ x ∈ xs, x.Internal) :
    t.depth = s.depth := by
  induction h with
  | nil => rfl
  | @cons s v t x xs hx _ ih =>
    have hv : v.depth = s.depth := (hx.depth_eq hs).trans ((hxs x (by simp)).depth_eq _)
    exact (ih (hs.step hx) fun y hy => hxs y (by simp [hy])).trans hv

theorem CourseOf.depth_eq (h : CourseOf Occurrence.Internal s t) (hs : s.Linked) : t.depth = s.depth :=
  have ⟨_, hxs, hin⟩ := h
  depth_of_internal hxs.path hs (List.forall_mem_map.2 hin)

/-! ### Propagation -/

/-- The solver that a run leaves: who has earned a rest is put to rest. -/
private def settled (p : PropagatorId) (o : Outcome (Stop Contradiction) Bool) : Solver :=
  match o.result with
  | .ok true => o.solver.putToRest p
  | _ => o.solver

/-- After a call that earns a rest the propagator is put to rest. -/
private theorem course_asking (hx : Step s x t) (hnote : x.isNote = false) (hin : x.Internal) (hasks : s.Asks p x)
    (hrest : Step t (.rested p) (t.putToRest p)) : CourseOf Occurrence.Internal s (t.putToRest p) :=
  ⟨_, .asking (hx.calls hnote) hasks (hrest.calls rfl) (.nil _), by simpa using ⟨hin, trivial⟩⟩

private theorem course_runDeltas {ds : List (Slot × Delta)} (h : s.Linked)
    (ha : s.agents.get? p = some { a with inbox := ⟨ds⟩ }) (hpas : a.passive = false) (hdue : a.due = false)
    (hw : s.queue.isWaiting p = false) : CourseOf Occurrence.Internal s (settled p (s.runDeltas p a ds)) := by
  induction ds generalizing s with
  | nil => exact .refl s
  | cons d later ih =>
    obtain ⟨l, delta⟩ := d
    obtain ⟨new, hnew⟩ := Action.narrowed_run (Action.only_true (a.propagator.incremental l delta)) h.valid.wellFormed
      false
    have hstep : Step s (.handed p l delta new) (s.handed p a l delta later) :=
      Step.handed (a := { a with inbox := ⟨(l, delta) :: later⟩ }) ha hpas hdue rfl hnew.changes_eq
    have hself : (s.handed p a l delta later).agents.get? p = some { a with inbox := ⟨later⟩ } :=
      Table.get?_set_self ha _
    have hasks : ∀ r, s.Asks r (.handed p l delta new) ↔
        r = p ∧ (a.propagator.incremental l delta).EarnsRest s.store :=
      fun _ => asks_handed_iff (a := { a with inbox := ⟨(l, delta) :: later⟩ }) ha
    rw [runDeltas_cons]
    cases hres : ((a.propagator.incremental l delta).run s.store false).result with
    | error e =>
      exact (hstep.calls rfl).courseOf (fun r hr => by simpa [hres] using ((hasks r).1 hr).2.2) trivial
    | ok _ =>
      cases hresting : ((a.propagator.incremental l delta).run s.store false).resting with
      | true => exact course_asking hstep rfl trivial ((hasks p).2 ⟨rfl, hresting, hres⟩) (.rested hself hpas hw)
      | false =>
        refine ((hstep.calls rfl).courseOf (fun r hr => ?_) trivial).trans (ih (h.step hstep) hself hw)
        simpa [hresting] using ((hasks r).1 hr).2.1

private theorem course_runScratch (ha : s.agents.get? p = some a) (hpas : a.passive = false)
    (hw : s.queue.isWaiting p = false) (hempty : s.store.changes = #[]) :
    CourseOf Occurrence.Internal s (settled p (s.runScratch p a)) := by
  have hstep : Step s (.scratch p (s.scratched p a).store.changes.toList) (s.scratched p a) :=
    .scratch ha hpas hempty rfl
  have hself : (s.scratched p a).agents.get? p = some { a with due := false, inbox := {} } := Table.get?_set_self ha _
  have hasks : ∀ r cs, s.Asks r (.scratch p cs) ↔ r = p ∧ a.propagator.fromScratch.EarnsRest s.store :=
    fun _ _ => asks_scratch_iff ha
  rw [runScratch_eq]
  cases hres : (a.propagator.fromScratch.run s.store false).result with
  | error e =>
    exact (hstep.calls rfl).courseOf (fun r hr => by simpa [hres] using ((hasks r _).1 hr).2.2) trivial
  | ok _ =>
    cases hresting : (a.propagator.fromScratch.run s.store false).resting with
    | true => exact course_asking hstep rfl trivial ((hasks p _).2 ⟨rfl, hresting, hres⟩) (.rested hself hpas hw)
    | false =>
      exact (hstep.calls rfl).courseOf (fun r hr => by simpa [hresting] using ((hasks r _).1 hr).2.1) trivial

private theorem course_runAgent (h : s.Linked) (ha : s.agents.get? p = some a) (hpas : a.passive = false)
    (hw : s.queue.isWaiting p = false) (hempty : s.store.changes = #[]) :
    CourseOf Occurrence.Internal s (s.runAgent p).solver := by
  have hrun : (s.runAgent p).solver = settled p (s.calls p a) := by
    rw [runAgent_eq ha, settled]
    cases (s.calls p a).result with
    | error e => rfl
    | ok resting => cases resting <;> rfl
  rw [hrun, calls]
  split
  · exact course_runScratch ha hpas hw hempty
  · rename_i hway
    rw [Bool.or_eq_true, not_or, Bool.not_eq_true] at hway
    exact course_runDeltas h ha hpas hway.1 hw

/-- A round happens within propagation. -/
theorem course_round (h : s.Linked) (hpop : s.queue.pop = some (p, q)) (hempty : s.store.changes = #[]) :
    CourseOf Occurrence.Internal s (({ s with queue := q } : Solver).runAgent p).solver := by
  obtain ⟨hwaits, hother⟩ := Queue.isWaiting_pop h.queue hpop
  obtain ⟨a, ha, hpas⟩ := h.active p hwaits
  refine ((Step.taken hpop).courseOf rfl rfl trivial).trans (course_runAgent (h.pop hpop) ha hpas ?_ hempty)
  rw [← Bool.not_eq_true, hother]
  simp

private theorem course_drain (h : s.Linked) (hempty : s.store.changes = #[]) :
    CourseOf Occurrence.Internal s s.drain.solver := by
  obtain ⟨t, ⟨ht, hch⟩, hstops⟩ := exists_stops
    (I := fun t => CourseOf Occurrence.Internal s t ∧ t.store.changes = #[])
    (fun t p q ⟨ht, hch⟩ hpop _ =>
      ⟨(ht.trans (course_round (h.courseOf ht) hpop hch)).trans (Step.delivered.courseOf rfl rfl trivial),
        by rw [store_notify]⟩)
    ⟨.refl s, hempty⟩
  generalize s.drain = o at hstops
  cases hstops with
  | empty hpop => exact ht
  | contradiction hpop hrun =>
    exact (ht.trans (course_round (h.courseOf ht) hpop hch)).trans ((Step.gaveUp _ _).courseOf rfl rfl trivial)
  | fault hpop hrun => exact ht.trans (course_round (h.courseOf ht) hpop hch)

theorem Linked.drain (h : s.Linked) (hempty : s.store.changes = #[]) : s.drain.solver.Linked :=
  h.courseOf (course_drain h hempty)

/-- A fixpoint that passes the check has been noted once for each propagator that is not at rest. -/
private theorem course_checkAgents {ps : List PropagatorId} (h : s.Linked) (hempty : s.store.changes = #[])
    (hok : (s.checkAgents s.depth ps).result = .ok ()) :
    CourseOf Occurrence.Internal s (s.checkAgents s.depth ps).solver := by
  induction ps generalizing s with
  | nil => exact .refl s
  | cons p ps ih =>
    rw [checkAgents] at hok ⊢
    cases ha : s.agents.get? p with
    | none =>
      simp only [ha] at hok ⊢
      exact ih h hempty hok
    | some a =>
      by_cases hpas : a.passive = true
      · simp only [ha, hpas, if_true] at hok ⊢
        exact ih h hempty hok
      · simp only [ha, if_neg hpas] at hok ⊢
        cases hres : (s.checkAgent s.depth p a).result with
        | error e => simp [hres] at hok
        | ok x =>
          have hnote : Calls s .noted [p] { s with journal := s.journal.push (.call (.scratch p) s.store.domains) } :=
            { step := .noted _ _ ((handovers_push _ _).trans (List.append_nil _))
              callees_eq := callees_push _ _
              active := fun q hq => by
                obtain rfl := List.mem_singleton.1 hq
                exact ⟨a, ha, (Bool.not_eq_true _).mp hpas⟩ }
          simp only [hres] at hok ⊢
          rw [solver_checkAgent h.valid.wellFormed hempty hres] at hok ⊢
          exact (hnote.courseOf (not_asks rfl) trivial).trans (ih (h.step hnote.step) hempty hok)

theorem course_propagate (h : s.Linked) (hf : ∀ f, s.propagate.result ≠ .error (.fault f)) :
    CourseOf Occurrence.Internal s s.propagate.solver := by
  have hnotify : CourseOf Occurrence.Internal s s.notify := Step.delivered.courseOf rfl rfl trivial
  have hdrain := hnotify.trans (course_drain (h.courseOf hnotify) (by rw [store_notify]))
  have hlinked := h.courseOf hdrain
  obtain ⟨j, hj⟩ := (propagate_cases hlinked.valid.wellFormed).resolve_right fun ⟨_, _, f, hno⟩ => hf f hno
  -- the check passes if it is made, since it would be a fault otherwise
  have hresult : s.propagate.result = s.notify.drain.result := by rw [hj]
  revert hresult
  cases hres : s.notify.drain.result with
  | error e =>
    intro _
    simp only [propagate, hres]
    exact hdrain
  | ok x =>
    simp only [propagate, hres]
    split
    · intro hok
      exact hdrain.trans (course_checkAgents hlinked (empty_of_drain (by rw [store_notify]) hres).2 hok)
    · exact fun _ => hdrain

theorem Linked.propagate (h : s.Linked) (hf : ∀ f, s.propagate.result ≠ .error (.fault f)) :
    s.propagate.solver.Linked := h.courseOf (course_propagate h hf)

/-! ### Additions -/

/-- An addition adds the propagator and propagates, unless it is refused. -/
theorem course_add {c : Posting} (h : s.Linked) (hf : ∀ f, (s.add c).result ≠ .error (.fault f)) :
    CourseOf (fun x => x.Internal ∨ x = .added c) s (s.add c).solver := by
  rcases s.add_cases c with hinf | ⟨f, hno, -⟩ | ⟨hinf, hd, w, hw⟩
  · rw [add_of_infeasible hinf]
    exact .refl s
  · exact absurd hno (hf f)
  · have hjoined : Step s (.added c) (s.joined c w) := .added hw
    have hsafe : ∀ f, (s.joined c w).propagate.result ≠ .error (.fault f) := fun f hno =>
      hf f (by rw [add_eq hinf hd hw, hno])
    have hpropagated : CourseOf (fun x => x.Internal ∨ x = .added c) s (s.joined c w).propagate.solver :=
      (hjoined.courseOf rfl rfl (.inr rfl)).trans ((course_propagate (h.step hjoined) hsafe).imp fun _ => .inl)
    rw [add_eq hinf hd hw]
    cases hres : (s.joined c w).propagate.result with
    | ok x => exact hpropagated
    | error why =>
      cases why with
      | fault f => exact hpropagated
      | error e => exact hpropagated.trans (courseOf_note rfl rfl (.inl trivial))

/-! ### Enumeration -/

/-- A search leaves no level but those that it opens, and ends on the level where it began. -/
def Nests (search : Solver → Outcome Fault (List Assignment)) : Prop :=
  ∀ t found, t.Linked → (search t).result = .ok found →
    CourseOf (·.Inside t.depth) t (search t).solver ∧ (search t).solver.depth = t.depth

/-- What stays above a level stays above the levels below it. -/
private theorem CourseOf.inside_of_le {k l : Nat} (h : CourseOf (·.Inside k) s t) (hl : l ≤ k) :
    CourseOf (·.Inside l) s t :=
  h.imp fun _ hx => ⟨hx.1, fun m hm => le_trans hl (hx.2 m hm)⟩

theorem course_decided (s : Solver) : CourseOf (·.Inside s.depth) s s.decided :=
  (Step.opened.courseOf rfl rfl ⟨rfl, nofun⟩).trans (courseOf_note rfl rfl ⟨rfl, nofun⟩)

private theorem course_back (ht : t.Linked) {k : Nat} (hs : CourseOf (·.Inside k) s t) (hl : k ≤ t.depth) :
    CourseOf (·.Inside k) s (t.returnTo k) ∧ (t.returnTo k).depth = k :=
  ⟨hs.trans ((Step.wentBack hl).courseOf rfl rfl ⟨rfl, by simp⟩), ht.depth_returnTo hl⟩

theorem course_explore {search : Solver → Outcome Fault (List Assignment)} {dec : Decision} {first : Bool}
    {found : List Assignment} (h : s.Linked) (hsearch : Nests search)
    (hok : (s.explore search dec first).result = .ok found) :
    CourseOf (·.Inside s.depth) s (s.explore search dec first).solver ∧
      (s.explore search dec first).solver.depth = s.depth := by
  have hdecided := course_decided s
  rw [explore_eq] at hok ⊢
  cases hn : dec.narrowing first with
  | error f => simp [hn] at hok
  | ok n =>
    cases hu : s.store.mark.narrow n with
    | error why =>
      cases why with
      | fault f => simp [hn, hu] at hok
      | error c =>
        simp only [hu]
        exact course_back (h.courseOf hdecided) hdecided (Nat.le_succ _)
    | ok u =>
      obtain ⟨new, hnew⟩ := h.mark.exists_narrowed hu
      have hstep : Step s.decided (.narrowed new) (s.entered u) := .narrowed hu hnew.changes_eq
      have hentered : CourseOf (·.Inside s.depth) s (s.entered u) :=
        hdecided.trans (hstep.courseOf rfl rfl ⟨rfl, nofun⟩)
      have hdepth : (s.entered u).depth = s.depth + 1 := hnew.depth_eq
      simp only [hn, hu] at hok ⊢
      cases hres : (search (s.entered u)).result with
      | error f => simp [hres] at hok
      | ok found =>
        obtain ⟨h1, h2⟩ := hsearch _ found (h.courseOf hentered) hres
        have h1 := hentered.trans (h1.inside_of_le (by omega))
        exact course_back (h.courseOf h1) h1 (by omega)

private theorem course_leaf (s : Solver) :
    CourseOf (·.Inside s.depth) s s.leaf.solver ∧ s.leaf.solver.depth = s.depth := by
  rcases solver_leaf s with heq | heq
  · rw [heq]
    exact ⟨.refl s, rfl⟩
  · rw [heq]
    exact ⟨courseOf_note rfl rfl ⟨rfl, nofun⟩, rfl⟩

private theorem nests_step {depth : Nat} (hbelow : ∀ k, depth = k + 1 → Nests (search k)) : Nests (search depth) := by
  intro s found h hok
  have hprop : (∀ f, s.propagate.result ≠ .error (.fault f)) →
      CourseOf (·.Inside s.depth) s s.propagate.solver ∧ s.propagate.solver.depth = s.depth := fun hf =>
    have hs := course_propagate h hf
    ⟨hs.imp fun _ hx => hx.inside _, hs.depth_eq h⟩
  have hsearch := searches depth s
  generalize search depth s = o at hsearch hok
  cases hsearch with
  | fault hf => cases hok
  | contradiction he => exact hprop (by simp [he])
  | leaf hp hdec =>
    obtain ⟨h1, h2⟩ := hprop (by simp [hp])
    obtain ⟨h3, h4⟩ := course_leaf s.propagate.solver
    rw [h2] at h3 h4
    exact ⟨h1.trans h3, h4⟩
  | tooDeep _ _ => cases hok
  | first _ _ _ _ => cases hok
  | both hp hdec hleft hfound hright =>
    obtain ⟨h1, h2⟩ := hprop (by simp [hp])
    obtain ⟨h3, h4⟩ := course_explore (h.courseOf h1) (hbelow _ rfl) (hleft ▸ hfound)
    rw [hleft, h2] at h3 h4
    rename_i left right _
    cases hres : right.result with
    | error f => simp [hres, Except.map] at hok
    | ok more =>
      obtain ⟨h5, h6⟩ := course_explore ((h.courseOf h1).courseOf h3) (hbelow _ rfl) (hright ▸ hres)
      rw [hright, h4] at h5 h6
      exact ⟨(h1.trans h3).trans h5, h6⟩

theorem nests_search (depth : Nat) : Nests (search depth) := by
  induction depth with
  | zero => exact nests_step fun k hk => nomatch hk
  | succ depth ih =>
    refine nests_step fun k hk => ?_
    obtain rfl := Nat.succ.inj hk
    exact ih

theorem Linked.explore {depth : Nat} {dec : Decision} {first : Bool} {found : List Assignment} (h : s.Linked)
    (hok : (s.explore (search depth) dec first).result = .ok found) :
    (s.explore (search depth) dec first).solver.Linked := h.courseOf (course_explore h (nests_search _) hok).1

/-- The enumeration leaves no level but those that it opens. -/
theorem course_solutions {found : List Assignment} (h : s.Linked) (hok : s.solutions.result = .ok found) :
    CourseOf (·.Inside s.depth) s s.solutions.solver := by
  cases hinf : s.infeasible with
  | true =>
    rw [solutions, if_pos hinf]
    exact .refl s
  | false =>
    rw [solutions_eq hinf] at hok ⊢
    cases hres : (search s.store.domains.freedom s.mark).result with
    | error f => simp [hres] at hok
    | ok found =>
      have hmark : CourseOf (·.Inside s.depth) s s.mark := Step.opened.courseOf rfl rfl ⟨rfl, by simp⟩
      obtain ⟨h1, h2⟩ := nests_search _ s.mark found (h.courseOf hmark) hres
      have hdepth : s.mark.depth = s.depth + 1 := rfl
      have h1 := hmark.trans (h1.inside_of_le (by omega))
      refine (course_back (h.courseOf h1) h1 (by omega)).1.trans (courseOf_note ?_ ?_ ⟨rfl, by simp⟩)
      · exact (handovers_push _ _).trans (List.append_nil _)
      · exact (callees_push _ _).trans (List.append_nil _)

/-! ### Operations -/

theorem creations_eq_nil {k : Nat} (hxs : ∀ x ∈ xs, x.Inside k) :
    xs.flatMap Occurrence.creations = [] := List.flatMap_eq_nil_iff.2 fun x hx => (hxs x hx).1

/-- An operation that is no fault is a course.  It creates the variable asked for, and goes below the current level
only to go back to the level asked for. -/
theorem exists_course {op : Operation} (h : s.Linked) (hok : s.perform op = .ok t) :
    ∃ xs, Course s xs t ∧ (xs.map Prod.fst).flatMap Occurrence.creations = op.creations ∧
      ∀ level, .wentBack level ∈ xs.map Prod.fst → op = .backtrack level ∨ s.depth ≤ level := by
  have hinside : CourseOf (·.Inside s.depth) s t →
      ∃ xs, Course s xs t ∧ (xs.map Prod.fst).flatMap Occurrence.creations = [] ∧
        ∀ level, .wentBack level ∈ xs.map Prod.fst → op = .backtrack level ∨ s.depth ≤ level := by
    rintro ⟨xs, hxs, hin⟩
    have hin : ∀ x ∈ xs.map Prod.fst, x.Inside s.depth := List.forall_mem_map.2 hin
    exact ⟨xs, hxs, creations_eq_nil hin, fun level hl => .inr ((hin _ hl).2 level rfl)⟩
  cases op with
  | newSet kernel envelope =>
    obtain ⟨⟨v, hv⟩, rfl⟩ := Outcome.after_eq_ok.1 hok
    revert hv
    unfold newSet
    cases he : SetDomain.ofLists kernel envelope with
    | error f => simp
    | ok e =>
      intro _
      have hstep : Step s (.created (.set e)) (s.extend (.set e)) := .created (SetDomain.wellFormed_ofLists he)
      exact ⟨_, .cons (hstep.calls rfl) (not_asks rfl) (.nil _),
        by simp [Operation.creations, he, Occurrence.creations], by simp⟩
  | newInt low high =>
    obtain ⟨⟨v, hv⟩, rfl⟩ := Outcome.after_eq_ok.1 hok
    revert hv
    unfold newInt
    split
    · rename_i hle
      intro _
      have hstep : Step s (.created (.int ⟨low, high, hle⟩)) (s.extend (.int ⟨low, high, hle⟩)) := .created trivial
      exact ⟨_, .cons (hstep.calls rfl) (not_asks rfl) (.nil _),
        by simp [Operation.creations, hle, Occurrence.creations], by simp⟩
    · simp
  | narrow n =>
    obtain ⟨hf, rfl⟩ := Outcome.afterStop_eq_ok.1 hok
    refine hinside ?_
    unfold narrow
    cases hn : s.store.narrow n with
    | error e => exact .refl s
    | ok u =>
      obtain ⟨new, hnew⟩ := h.exists_narrowed hn
      exact (Step.narrowed hn hnew.changes_eq).courseOf rfl rfl ⟨rfl, by simp⟩
  | propagate =>
    obtain ⟨hf, rfl⟩ := Outcome.afterStop_eq_ok.1 hok
    exact hinside ((course_propagate h hf).imp fun _ hx => hx.inside _)
  | mark =>
    cases hok
    exact hinside (Step.opened.courseOf rfl rfl ⟨rfl, by simp⟩)
  | backtrack level =>
    obtain ⟨⟨v, hv⟩, rfl⟩ := Outcome.after_eq_ok.1 hok
    revert hv
    unfold backtrack
    split
    · simp
    · rename_i hl
      intro _
      exact ⟨_, .cons ((Step.wentBack (Nat.le_of_not_lt hl)).calls rfl) (not_asks rfl) (.nil _), rfl,
        by simp +contextual⟩
  | add c =>
    obtain ⟨hf, rfl⟩ := Outcome.afterStop_eq_ok.1 hok
    refine hinside ((course_add h hf).imp fun x hx => ?_)
    rcases hx with hx | rfl
    · exact hx.inside _
    · exact ⟨rfl, by simp⟩
  | solutions =>
    obtain ⟨⟨found, hfound⟩, rfl⟩ := Outcome.after_eq_ok.1 hok
    exact hinside (course_solutions h hfound)

/-- An operation that is no fault is a path. -/
theorem exists_path {op : Operation} (h : s.Linked) (hok : s.perform op = .ok t) :
    ∃ xs, Path s xs t ∧ xs.flatMap Occurrence.creations = op.creations ∧
      ∀ level, .wentBack level ∈ xs → op = .backtrack level ∨ s.depth ≤ level :=
  have ⟨_, hxs, hcreations, hlevels⟩ := exists_course h hok
  ⟨_, hxs.path, hcreations, hlevels⟩

/-! ### Several operations -/

variable {op : Operation} {ops : List Operation}

theorem performAll_cons :
    s.performAll (op :: ops) = .ok t ↔ ∃ u, s.perform op = .ok u ∧ u.performAll ops = .ok t := by
  rw [performAll, List.foldlM_cons]
  cases h : s.perform op with
  | error f => simp [bind, Except.bind]
  | ok u => simp [bind, Except.bind, performAll]

/-- Operations of which none is a fault are a course. -/
theorem exists_course_performAll (h : s.Linked) (hops : s.performAll ops = .ok t) : ∃ xs, Course s xs t := by
  induction ops generalizing s with
  | nil =>
    cases hops
    exact ⟨[], .nil _⟩
  | cons op ops ih =>
    obtain ⟨u, hu, hops⟩ := performAll_cons.1 hops
    obtain ⟨xs, hxs, -⟩ := exists_course h hu
    obtain ⟨ys, hys⟩ := ih (h.path hxs.path) hops
    exact ⟨xs ++ ys, hxs.append hys⟩

theorem exists_path_performAll (h : s.Linked) (hops : s.performAll ops = .ok t) : ∃ xs, Path s xs t :=
  have ⟨_, hxs⟩ := exists_course_performAll h hops
  ⟨_, hxs.path⟩

theorem Linked.performAll (h : s.Linked) (hops : s.performAll ops = .ok t) : t.Linked :=
  have ⟨_, hxs⟩ := exists_path_performAll h hops
  h.path hxs

end Solver

end SetConstraints
