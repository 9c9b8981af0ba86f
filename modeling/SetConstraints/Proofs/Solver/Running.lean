import SetConstraints.Proofs.Constraint
import SetConstraints.Proofs.Table
import SetConstraints.Solver.Propagation

/-!
# Running a propagator

A run of a propagator is one call from scratch, or one call for each delta until the propagator asks for rest.  It
narrows the store and changes the state of this propagator only (`Solver.ran_runAgent`).  For the propagator of a
constraint, a successful run ends settled or at rest for good (`Solver.settles_runAgent`), and no run loses a view at
which the rules are stable (`Solver.keeps_runAgent`).
-/

namespace SetConstraints

namespace Solver

/-- What calls of the propagator `p` do, whatever the propagator: they take its state from `a` to `b` and leave the
changes `new`. -/
structure Called (P : Narrowing → Prop) (p : PropagatorId) (a b : Agent) (new : List Change) (s t : Solver) :
    Prop where
  eq_with : t = { s with
    store := t.store, agents := s.agents.set p b, statistics := t.statistics, journal := t.journal }
  narrowed : s.store.Narrowed P t.store new
  propagator_eq : b.propagator = a.propagator
  passive_eq : b.passive = a.passive
  pending : b.inbox.pending ⊆ a.inbox.pending

variable {s t u : Solver} {p : PropagatorId} {a b d : Agent} {P : Narrowing → Prop} {slot : Slot} {delta : Delta}
  {later ds : List (Slot × Delta)} {cs new : List Change}

/-! ### The calls of a run -/

/-- A solver after a call from scratch. -/
def scratched (s : Solver) (p : PropagatorId) (a : Agent) : Solver :=
  { s with
    store := (a.propagator.fromScratch.run s.store false).store
    agents := s.agents.set p { a with due := false, inbox := {} }
    statistics := { s.statistics with scratchCalls := s.statistics.scratchCalls + 1 }
    journal := s.journal.push (.call (.scratch p) s.store.domains) }

theorem runScratch_eq (s : Solver) (p : PropagatorId) (a : Agent) : s.runScratch p a =
    ⟨(a.propagator.fromScratch.run s.store false).result.map fun _ =>
      (a.propagator.fromScratch.run s.store false).resting, s.scratched p a⟩ := rfl

/-- A solver after a delta has been handed over. -/
def handed (s : Solver) (p : PropagatorId) (a : Agent) (slot : Slot) (delta : Delta)
    (later : List (Slot × Delta)) : Solver :=
  { s with
    store := ((a.propagator.incremental slot delta).run s.store false).store
    agents := s.agents.set p { a with inbox := ⟨later⟩ }
    statistics := { s.statistics with incrementalCalls := s.statistics.incrementalCalls + 1 }
    journal := s.journal.push (.call (.incremental p slot delta) s.store.domains) }

theorem runDeltas_cons (s : Solver) (p : PropagatorId) (a : Agent) (slot : Slot) (delta : Delta)
    (later : List (Slot × Delta)) : s.runDeltas p a ((slot, delta) :: later) =
      match ((a.propagator.incremental slot delta).run s.store false).result with
      | .error e => ⟨.error e, s.handed p a slot delta later⟩
      | .ok () =>
        if ((a.propagator.incremental slot delta).run s.store false).resting then
          ⟨.ok true, s.handed p a slot delta later⟩
        else (s.handed p a slot delta later).runDeltas p a later := rfl

/-- The calls of a run, before the propagator is put to rest. -/
def calls (s : Solver) (p : PropagatorId) (a : Agent) : Outcome (Stop Contradiction) Bool :=
  if a.due || !s.options.incremental then s.runScratch p a else s.runDeltas p a a.inbox.pending

theorem runAgent_eq (ha : s.agents.get? p = some a) : s.runAgent p =
    match (s.calls p a).result with
    | .error e => ⟨.error e, (s.calls p a).solver⟩
    | .ok resting => ⟨.ok (), if resting then (s.calls p a).solver.putToRest p else (s.calls p a).solver⟩ := by
  rw [runAgent, ha]
  rfl

/-! ### Runs of any propagator -/

private theorem Called.trans (h : Called P p a b cs s t) (k : Called P p b d new t u) :
    Called P p a d (cs ++ new) s u where
  eq_with := by rw [k.eq_with, h.eq_with, Table.set_set]
  narrowed := h.narrowed.trans k.narrowed
  propagator_eq := k.propagator_eq.trans h.propagator_eq
  passive_eq := k.passive_eq.trans h.passive_eq
  pending := List.Subset.trans k.pending h.pending

theorem called_scratched (p : PropagatorId) (hs : s.store.domains.WellFormed)
    (hP : a.propagator.fromScratch.Only P True) :
    ∃ new, Called P p a { a with due := false, inbox := {} } new s (s.scratched p a) := by
  obtain ⟨new, hnew⟩ := Action.narrowed_run hP hs false
  exact ⟨new, rfl, hnew, rfl, rfl, List.nil_subset _⟩

theorem called_handed (p : PropagatorId) (later : List (Slot × Delta)) (hs : s.store.domains.WellFormed)
    (hP : (a.propagator.incremental slot delta).Only P True) :
    ∃ new, Called P p { a with inbox := ⟨(slot, delta) :: later⟩ } { a with inbox := ⟨later⟩ } new s
      (s.handed p a slot delta later) := by
  obtain ⟨new, hnew⟩ := Action.narrowed_run hP hs false
  exact ⟨new, rfl, hnew, rfl, rfl, List.subset_cons_self _ _⟩

theorem called_runDeltas (hP : ∀ slot delta, (a.propagator.incremental slot delta).Only P True)
    (hs : s.store.domains.WellFormed) (ha : s.agents.get? p = some { a with inbox := ⟨ds⟩ }) :
    ∃ b new, Called P p { a with inbox := ⟨ds⟩ } b new s (s.runDeltas p a ds).solver := by
  induction ds generalizing s with
  | nil =>
    refine ⟨_, [], ?_, .refl hs, rfl, rfl, List.Subset.refl _⟩
    rw [Table.set_get? ha]
    rfl
  | cons d later ih =>
    obtain ⟨slot, delta⟩ := d
    obtain ⟨cs, hcs⟩ := called_handed p later hs (hP slot delta)
    rw [runDeltas_cons]
    split
    · exact ⟨_, cs, hcs⟩
    · split
      · exact ⟨_, cs, hcs⟩
      · obtain ⟨b, new, hnew⟩ := ih hcs.narrowed.wellFormed (Table.get?_set_self ha _)
        exact ⟨b, cs ++ new, hcs.trans hnew⟩

theorem called_calls (hscratch : a.propagator.fromScratch.Only P True)
    (hincremental : ∀ slot delta, (a.propagator.incremental slot delta).Only P True)
    (hs : s.store.domains.WellFormed) (ha : s.agents.get? p = some a) :
    ∃ b new, Called P p a b new s (s.calls p a).solver := by
  unfold calls
  split
  · exact ⟨_, called_scratched p hs hscratch⟩
  · exact called_runDeltas hincremental hs ha

/-- A run is a sequence of calls, after which the propagator may be put to rest. -/
theorem called_runAgent (hscratch : a.propagator.fromScratch.Only P True)
    (hincremental : ∀ slot delta, (a.propagator.incremental slot delta).Only P True)
    (hs : s.store.domains.WellFormed) (ha : s.agents.get? p = some a) :
    ∃ b new t, Called P p a b new s t ∧ ((s.runAgent p).solver = t ∨
      (s.runAgent p).solver = t.putToRest p ∧ (s.runAgent p).result = .ok ()) := by
  obtain ⟨b, new, hcalled⟩ := called_calls hscratch hincremental hs ha
  refine ⟨b, new, _, hcalled, ?_⟩
  rw [runAgent_eq ha]
  cases (s.calls p a).result with
  | error e => exact .inl rfl
  | ok resting =>
    cases resting with
    | false => exact .inl rfl
    | true => exact .inr ⟨rfl, rfl⟩

/-! ### Runs of the propagator of a constraint -/

section
variable {c : Constraint} {resting : Bool}

/-- What successful calls have achieved: the propagator may rest for good, or all is settled but what is news and was
so before, or comes from the calls themselves. -/
private def Achieves (c : Constraint) (s t : Solver) (old : News) (new : List Change) (resting : Bool) : Prop :=
  (resting = true → c.Inert t.store.domains.view) ∧ (resting = false →
    ∀ N : News, (c.Settled s.store.domains.view fun l e v => old l e v ∨ N l e v) →
      c.Settled t.store.domains.view fun l e v => N l e v ∨ c.posting.news new l e v)

private theorem achieves_runDeltas (hac : a.propagator = c.propagator) (hs : s.store.domains.WellFormed)
    (hscope : c.InScope s.store.domains) (ha : s.agents.get? p = some { a with inbox := ⟨ds⟩ })
    (hok : (s.runDeltas p a ds).result = .ok resting) :
    ∃ b new, Called (fun n => n.var ∈ c.operands) p { a with inbox := ⟨ds⟩ } b new s (s.runDeltas p a ds).solver ∧
      (resting = false → b = { a with inbox := {} }) ∧
      Achieves c s (s.runDeltas p a ds).solver (Inbox.news ⟨ds⟩) new resting := by
  induction ds generalizing s with
  | nil =>
    cases hok
    refine ⟨_, [], ⟨?_, .refl hs, rfl, rfl, List.Subset.refl _⟩, fun _ => rfl, by simp, fun _ N hN => ?_⟩
    · rw [Table.set_get? ha]
      rfl
    · refine Constraint.Settled.mono hN fun l e v hn => ?_
      exact hn.elim (fun h => absurd h (Inbox.not_news_empty l e v)) .inl
  | cons d later ih =>
    obtain ⟨slot, delta⟩ := d
    obtain ⟨cs, hcs⟩ := called_handed p later hs (hac ▸ c.only_incremental slot delta)
    rw [runDeltas_cons] at hok ⊢
    cases hres : ((a.propagator.incremental slot delta).run s.store false).result with
    | error e => simp [hres] at hok
    | ok x =>
      have hrun := Action.run_eq_of_result hres
      simp only [hres] at hok ⊢
      by_cases hrest : ((a.propagator.incremental slot delta).run s.store false).resting = true
      · rw [if_pos hrest] at hok ⊢
        cases hok
        rw [hrest, hac] at hrun
        refine ⟨_, cs, hcs, by simp, fun _ => ?_, by simp⟩
        have := (Constraint.resting_incremental hs hrun).1 rfl
        rwa [← hac] at this
      · rw [if_neg hrest] at hok ⊢
        obtain ⟨b, new, hnew, hb, hinert, hsettled⟩ := ih hcs.narrowed.wellFormed
          (fun r hr => (hcs.narrowed.has_iff _).2 (hscope r hr)) (Table.get?_set_self ha _) hok
        refine ⟨b, cs ++ new, hcs.trans hnew, hb, hinert, fun hr N hN => ?_⟩
        have hrun' : (c.propagator.incremental slot delta).run s.store false =
            ⟨(s.handed p a slot delta later).store,
              ((a.propagator.incremental slot delta).run s.store false).resting, .ok ()⟩ := by
          rw [← hac]
          exact hrun
        have h1 := Constraint.settles_incremental (N := fun l e v => Inbox.news ⟨later⟩ l e v ∨ N l e v) hs hscope
          hrun' hcs.narrowed (hN.mono fun l e v hn => by
            rw [Inbox.news_cons] at hn
            tauto)
        have h2 := hsettled hr (fun l e v => N l e v ∨ c.posting.news cs l e v) (h1.mono fun l e v hn => by tauto)
        exact h2.mono fun l e v hn => by
          rw [Posting.news_append]
          tauto

private theorem achieves_runScratch (hac : a.propagator = c.propagator) (hs : s.store.domains.WellFormed)
    (hscope : c.InScope s.store.domains) (hok : (s.runScratch p a).result = .ok resting) :
    ∃ new, Called (fun n => n.var ∈ c.operands) p a { a with due := false, inbox := {} } new s (s.scratched p a) ∧
      (resting = true → c.Inert (s.scratched p a).store.domains.view) ∧
      (resting = false → c.Settled (s.scratched p a).store.domains.view (c.posting.news new)) := by
  obtain ⟨new, hcalled⟩ := called_scratched p hs (hac ▸ c.only_fromScratch)
  refine ⟨new, hcalled, ?_⟩
  rw [runScratch_eq] at hok
  cases hres : (a.propagator.fromScratch.run s.store false).result with
  | error e => simp [hres, Except.map] at hok
  | ok x =>
    have hrun := Action.run_eq_of_result hres
    simp only [hres, Except.map, Except.ok.injEq] at hok
    have hrun' : c.propagator.fromScratch.run s.store false = ⟨(s.scratched p a).store, resting, .ok ()⟩ := by
      rw [← hac, ← hok]
      exact hrun
    refine ⟨fun hr => (Constraint.resting_fromScratch hs hrun').1 hr, fun _ => ?_⟩
    exact Constraint.settles_fromScratch hs hscope hrun' hcalled.narrowed

/-- A successful run of the propagator of a constraint puts it to rest where it is inert, or leaves nothing for it to
be told and the constraint settled up to other news, provided that this was so before or that the propagator was
due. -/
theorem settles_runAgent (hac : a.propagator = c.propagator) (hs : s.store.domains.WellFormed)
    (hscope : c.InScope s.store.domains) (ha : s.agents.get? p = some a) (hok : (s.runAgent p).result = .ok ()) :
    ∃ b new t, Called (fun n => n.var ∈ c.operands) p a b new s t ∧
      ((s.runAgent p).solver = t.putToRest p ∧ c.Inert t.store.domains.view ∨
        (s.runAgent p).solver = t ∧ b.due = false ∧ b.inbox = {} ∧ ∀ N : News,
          (a.due = true ∨ c.Settled s.store.domains.view fun l e v => a.inbox.news l e v ∨ N l e v) →
            c.Settled t.store.domains.view fun l e v => N l e v ∨ c.posting.news new l e v) := by
  cases hres : (s.calls p a).result with
  | error e =>
    rw [runAgent_eq ha, hres] at hok
    cases hok
  | ok resting =>
    have hend : (s.runAgent p).solver =
        if resting then (s.calls p a).solver.putToRest p else (s.calls p a).solver := by
      rw [runAgent_eq ha, hres]
    by_cases hway : (a.due || !s.options.incremental) = true
    · have hcalls : s.calls p a = s.runScratch p a := by rw [calls, if_pos hway]
      rw [hcalls] at hres hend
      obtain ⟨new, hcalled, hinert, hsettled⟩ := achieves_runScratch hac hs hscope hres
      refine ⟨_, new, _, hcalled, ?_⟩
      cases resting with
      | true => exact .inl ⟨hend, hinert rfl⟩
      | false => exact .inr ⟨hend, rfl, rfl, fun N _ => (hsettled rfl).mono fun _ _ _ => .inr⟩
    · have hcalls : s.calls p a = s.runDeltas p a a.inbox.pending := by rw [calls, if_neg hway]
      have hdue : a.due = false := by
        rw [Bool.or_eq_true, not_or, Bool.not_eq_true] at hway
        exact hway.1
      rw [hcalls] at hres hend
      obtain ⟨b, new, hcalled, hb, hinert, hsettled⟩ := achieves_runDeltas hac hs hscope ha hres
      refine ⟨b, new, _, hcalled, ?_⟩
      cases resting with
      | true => exact .inl ⟨hend, hinert rfl⟩
      | false =>
        obtain rfl := hb rfl
        exact .inr ⟨hend, hdue, rfl, fun N hN => hsettled rfl N (hN.resolve_left (by simp [hdue]))⟩

theorem keeps_runDeltas {V : View} (hac : a.propagator = c.propagator) (hs : s.store.domains.WellFormed)
    (hscope : c.InScope s.store.domains) (hst : c.Stable V) (hV : V ≤ s.store.domains.view)
    (htold : c.posting.Told V (Inbox.news ⟨ds⟩)) :
    V ≤ (s.runDeltas p a ds).solver.store.domains.view ∧ ∀ e, (s.runDeltas p a ds).result ≠ .error (.error e) := by
  induction ds generalizing s with
  | nil => exact ⟨hV, fun e he => by cases he⟩
  | cons d later ih =>
    obtain ⟨slot, delta⟩ := d
    obtain ⟨cs, hcs⟩ := called_handed p later hs (hac ▸ c.only_incremental slot delta)
    have hkeeps : (c.propagator.incremental slot delta).Keeps V s.store.domains.Has fun _ => True :=
      Constraint.keeps_incremental hst hscope fun l e v hn => htold l e v ((Inbox.news_cons _ _ _ _ _ _).2 (.inl hn))
    rw [← hac] at hkeeps
    obtain ⟨h1, h2⟩ := hkeeps.run hs hV false
    rw [runDeltas_cons]
    cases hres : ((a.propagator.incremental slot delta).run s.store false).result with
    | error why => exact ⟨h1, fun e he => h2 e (hres.trans (by simpa using he))⟩
    | ok x =>
      simp only
      split
      · exact ⟨h1, fun e he => by cases he⟩
      · exact ih (s := s.handed p a slot delta later) hcs.narrowed.wellFormed
          (fun r hr => (hcs.narrowed.has_iff _).2 (hscope r hr)) h1
          fun l e v hn => htold l e v ((Inbox.news_cons _ _ _ _ _ _).2 (.inr hn))

/-- A run of the propagator of a constraint loses no view at which the rules are stable, and above one it finds no
contradiction. -/
theorem keeps_runAgent {V : View} (hac : a.propagator = c.propagator) (hs : s.store.domains.WellFormed)
    (hscope : c.InScope s.store.domains) (ha : s.agents.get? p = some a) (hst : c.Stable V)
    (hV : V ≤ s.store.domains.view) (htold : c.posting.Told V a.inbox.news) :
    V ≤ (s.runAgent p).solver.store.domains.view ∧ ∀ e, (s.runAgent p).result ≠ .error (.error e) := by
  have hcalls : V ≤ (s.calls p a).solver.store.domains.view ∧ ∀ e, (s.calls p a).result ≠ .error (.error e) := by
    unfold calls
    split
    · have hkeeps : c.propagator.fromScratch.Keeps V s.store.domains.Has fun _ => True :=
        Constraint.keeps_fromScratch hst hscope
      rw [← hac] at hkeeps
      obtain ⟨h1, h2⟩ := hkeeps.run hs hV false
      refine ⟨h1, fun e he => ?_⟩
      rw [runScratch_eq] at he
      cases hres : (a.propagator.fromScratch.run s.store false).result with
      | ok x => simp [hres, Except.map] at he
      | error why => exact h2 e (hres.trans (by simpa [hres, Except.map] using he))
    · exact keeps_runDeltas hac hs hscope hst hV htold
  obtain ⟨h1, h2⟩ := hcalls
  rw [runAgent_eq ha]
  cases hres : (s.calls p a).result with
  | error why => exact ⟨h1, fun e he => h2 e (hres.trans (by simpa using he))⟩
  | ok resting =>
    refine ⟨?_, fun e he => by cases he⟩
    simp only
    split
    · exact h1
    · exact h1

theorem safe_runDeltas {f : Fault} (hac : a.propagator = c.propagator) (hs : s.store.domains.WellFormed)
    (hscope : c.InScope s.store.domains) (hslots : ∀ l, Inbox.Holds ⟨ds⟩ l → c.posting.Listens l)
    (hf : (s.runDeltas p a ds).result = .error (.fault f)) :
    f = .unknownIndex ∧ ∃ w ∈ c.operands, ¬ s.store.domains.Has w := by
  induction ds generalizing s with
  | nil => cases hf
  | cons d later ih =>
    obtain ⟨slot, delta⟩ := d
    obtain ⟨cs, hcs⟩ := called_handed p later hs (hac ▸ c.only_incremental slot delta)
    simp only [Inbox.holds_cons] at hslots
    rw [runDeltas_cons] at hf
    split at hf
    · rename_i e he
      obtain rfl : e = .fault f := by simpa using hf
      rw [hac] at he
      exact (Constraint.safe_incremental hscope (hslots slot (.inl rfl)) delta).run hs he
    · split at hf
      · cases hf
      · obtain ⟨hu, w, hw, hno⟩ := ih hcs.narrowed.wellFormed
          (fun r hr => (hcs.narrowed.has_iff _).2 (hscope r hr)) (fun l hl => hslots l (.inr hl)) hf
        exact ⟨hu, w, hw, fun h => hno ((hcs.narrowed.has_iff _).2 h)⟩

/-- A run of the propagator of a constraint is a fault only for want of a variable, provided that only deltas under
registered slots are pending. -/
theorem safe_runAgent {f : Fault} (hac : a.propagator = c.propagator) (hs : s.store.domains.WellFormed)
    (hscope : c.InScope s.store.domains) (ha : s.agents.get? p = some a)
    (hslots : ∀ l, a.inbox.Holds l → c.posting.Listens l) (hf : (s.runAgent p).result = .error (.fault f)) :
    f = .unknownIndex ∧ ∃ w ∈ c.operands, ¬ s.store.domains.Has w := by
  rw [runAgent_eq ha] at hf
  split at hf
  · rename_i e he
    obtain rfl : e = .fault f := by simpa using hf
    unfold calls at he
    split at he
    · rw [runScratch_eq] at he
      cases hres : (a.propagator.fromScratch.run s.store false).result with
      | ok x => simp [hres, Except.map] at he
      | error e =>
        obtain rfl : e = .fault f := by simpa [hres, Except.map] using he
        rw [hac] at hres
        exact (Constraint.safe_fromScratch hscope).run hs hres
    · exact safe_runDeltas hac hs hscope hslots he
  · cases hf

end

end Solver

end SetConstraints
