import SetConstraints.Proofs.Replay
import SetConstraints.Proofs.Solver.Running
import SetConstraints.Proofs.Within

/-!
# Deltas instead of starting over

A call from scratch and the deltas of what has happened since the last one come to the same: both end where the rules
are stable, and neither loses a view below the domains at which they are.  So both leave the largest such view, or
none is left and both find a contradiction (`Solver.deltas_agree`).

What makes the deltas suffice is that all is settled up to their news when the first of them is handed over, and up to
the news of the later ones after each call (`Solver.settled_runDeltas`).  Those that a propagator drops when it asks
for rest could not have done anything.
-/

namespace SetConstraints

/-! ### The news of an inbox -/

/-- An inbox holds an event under a slot exactly if the delta of the slot does. -/
theorem Inbox.news_iff_mem_delta {b : Inbox} (hb : b.Sorted) {l : Slot} {e : Event} {v : Int32} :
    b.news l e v ↔ (e, v) ∈ (b.delta l).entries := by
  obtain ⟨ds⟩ := b
  induction ds with
  | nil => exact iff_of_false (not_news_empty l e v) (by simp [delta, deltaIn])
  | cons x ds ih =>
    obtain ⟨k, d⟩ := x
    rw [news_cons, entries_delta_cons hb, List.mem_append, ih (List.pairwise_cons.1 hb).2, Delta.news]
    refine or_congr_left ?_
    by_cases hk : k = l
    · simp [hk]
    · simp [hk, Ne.symm hk]

/-- What is heard about changes is their news. -/
theorem Posting.mem_heard_iff {p : Posting} {cs : List Change} {l : Slot} {e : Event} {v : Int32} :
    (e, v) ∈ p.heard l cs ↔ p.news cs l e v := by
  simp only [heard, news, List.mem_flatMap]
  refine exists_congr fun c => and_congr_right fun _ => ?_
  by_cases hc : p.Hears c l
  · simp [hc, eq_comm]
  · simp [hc]

/-! ### Two ways to call a propagator -/

/-- Both runs end in a contradiction, or both succeed with the same domains and the same wish for rest. -/
inductive Outcome.Agree : Outcome (Stop Contradiction) Bool → Outcome (Stop Contradiction) Bool → Prop
  | contradiction {e e' : Contradiction} {s s' : Solver} : Agree ⟨.error (.error e), s⟩ ⟨.error (.error e'), s'⟩
  | ok {resting : Bool} {s s' : Solver} (h : s.store.domains = s'.store.domains) :
      Agree ⟨.ok resting, s⟩ ⟨.ok resting, s'⟩

/-- A run of the propagator of a constraint that leaves it nothing to do: it loses no view at which the rules are
stable, and if it succeeds, they are stable where it ends, with the wish for rest exactly where nothing can happen any
more. -/
private structure Outcome.Complete (c : Constraint) (s : Solver) (o : Outcome (Stop Contradiction) Bool) : Prop where
  narrowed : ∃ new, s.store.Narrowed (fun n => n.var ∈ c.operands) o.solver.store new
  ne_fault : ∀ f, o.result ≠ .error (.fault f)
  keeps : ∀ V, c.Stable V → V ≤ s.store.domains.view →
    V ≤ o.solver.store.domains.view ∧ ∀ e, o.result ≠ .error (.error e)
  stable : ∀ resting, o.result = .ok resting → c.Stable o.solver.store.domains.view ∧
    (resting = true ↔ c.Inert o.solver.store.domains.view)

/-- Complete runs end with the largest view at which the rules are stable, if there is one. -/
private theorem Outcome.Complete.agree {c : Constraint} {s : Solver} {o o' : Outcome (Stop Contradiction) Bool}
    (h : o.Complete c s) (h' : o'.Complete c s) : o.Agree o' := by
  obtain ⟨new, hnew⟩ := h.narrowed
  obtain ⟨new', hnew'⟩ := h'.narrowed
  have hcontradiction : ∀ {q q' : Outcome (Stop Contradiction) Bool}, q.Complete c s → q'.Complete c s →
      ∀ e resting, q.result = .error (.error e) → q'.result ≠ .ok resting := by
    intro q q' hq hq' e resting he hok
    obtain ⟨_, hn⟩ := hq'.narrowed
    exact (hq.keeps _ (hq'.stable resting hok).1 hn.le).2 e he
  obtain ⟨result, t⟩ := o
  obtain ⟨result', t'⟩ := o'
  cases result with
  | error why =>
    cases why with
    | fault f => exact absurd rfl (h.ne_fault f)
    | error e =>
      cases result' with
      | error why' =>
        cases why' with
        | fault f => exact absurd rfl (h'.ne_fault f)
        | error e' => exact .contradiction
      | ok resting' => exact absurd rfl (hcontradiction h h' e resting' rfl)
  | ok resting =>
    cases result' with
    | error why' =>
      cases why' with
      | fault f => exact absurd rfl (h'.ne_fault f)
      | error e' => exact absurd rfl (hcontradiction h' h e' resting rfl)
    | ok resting' =>
      obtain ⟨hst, hrest⟩ := h.stable resting rfl
      obtain ⟨hst', hrest'⟩ := h'.stable resting' rfl
      have hdomains : t'.store.domains = t.store.domains :=
        hnew.domains_eq rfl hnew'.toNarrower (h'.keeps _ hst hnew.le).1 (h.keeps _ hst' hnew'.le).1
      have hsame : resting = resting' := by
        rw [hdomains, ← hrest] at hrest'
        exact Bool.eq_iff_iff.2 hrest'.symm
      subst hsame
      exact .ok hdomains.symm

namespace Solver

variable {c : Constraint} {s : Solver} {p : PropagatorId} {a : Agent} {ds : List (Slot × Delta)} {resting : Bool}

/-- If all is settled up to the news of the deltas, a run that hands them over and succeeds leaves the rules stable,
and it ends with the wish for rest exactly where nothing can happen any more. -/
private theorem settled_runDeltas (hc : c.Separate) (hac : a.propagator = c.propagator)
    (hs : s.store.domains.WellFormed) (hscope : c.InScope s.store.domains)
    (hset : c.Settled s.store.domains.view (Inbox.news ⟨ds⟩)) (hrest : ds = [] → ¬ c.Inert s.store.domains.view)
    (hok : (s.runDeltas p a ds).result = .ok resting) :
    c.Stable (s.runDeltas p a ds).solver.store.domains.view ∧
      (resting = true ↔ c.Inert (s.runDeltas p a ds).solver.store.domains.view) := by
  induction ds generalizing s with
  | nil =>
    cases hok
    exact ⟨hset.stable Inbox.not_news_empty, iff_of_false (by simp) (hrest rfl)⟩
  | cons d later ih =>
    obtain ⟨slot, delta⟩ := d
    rw [runDeltas_cons] at hok ⊢
    cases hres : ((a.propagator.incremental slot delta).run s.store false).result with
    | error why => simp [hres] at hok
    | ok x =>
      have hrun : (c.propagator.incremental slot delta).run s.store false =
          ⟨(s.handed p a slot delta later).store,
            ((a.propagator.incremental slot delta).run s.store false).resting, .ok ()⟩ := by
        rw [← hac]
        exact Action.run_eq_of_result hres
      simp only [hres] at hok ⊢
      have hinert := Constraint.resting_incremental hs hrun
      have hlater : c.Settled (s.handed p a slot delta later).store.domains.view (Inbox.news ⟨later⟩) :=
        Constraint.settled_of_incremental hc hs hscope hrun
          (hset.mono fun l e v => (Inbox.news_cons slot delta later l e v).1)
      by_cases hresting : ((a.propagator.incremental slot delta).run s.store false).resting = true
      · rw [if_pos hresting] at hok ⊢
        cases hok
        have := hinert.1 hresting
        exact ⟨this.stable, iff_of_true rfl this⟩
      · rw [if_neg hresting] at hok ⊢
        obtain ⟨new, hcalled⟩ := called_handed p later hs (hac ▸ c.only_incremental slot delta)
        exact ih hcalled.narrowed.wellFormed (fun r hr => (hcalled.narrowed.has_iff r.var).2 (hscope r hr)) hlater
          (fun _ hi => hresting (hinert.2 hi)) hok

private theorem complete_runDeltas (hc : c.Separate) (hac : a.propagator = c.propagator)
    (hs : s.store.domains.WellFormed) (hhas : ∀ w ∈ c.operands, s.store.domains.Has w)
    (hscope : c.InScope s.store.domains) (ha : s.agents.get? p = some a)
    (hset : c.Settled s.store.domains.view a.inbox.news) (htold : c.posting.Told s.store.domains.view a.inbox.news)
    (hslots : ∀ l, a.inbox.Holds l → c.posting.Listens l) (hsome : a.inbox.pending ≠ []) :
    (s.runDeltas p a a.inbox.pending).Complete c s where
  narrowed := by
    obtain ⟨b, new, hnew⟩ := called_runDeltas (fun slot delta => hac ▸ c.only_incremental slot delta) hs ha
    exact ⟨new, hnew.narrowed⟩
  ne_fault f hf := by
    obtain ⟨-, w, hw, hno⟩ := safe_runDeltas hac hs hscope hslots hf
    exact hno (hhas w hw)
  keeps V hV hle := keeps_runDeltas hac hs hscope hV hle (htold.of_le hle)
  stable resting hok := settled_runDeltas hc hac hs hscope hset (fun hno => absurd hno hsome) hok

private theorem complete_runScratch (hc : c.Separate) (hac : a.propagator = c.propagator)
    (hs : s.store.domains.WellFormed) (hhas : ∀ w ∈ c.operands, s.store.domains.Has w)
    (hscope : c.InScope s.store.domains) (p : PropagatorId) : (s.runScratch p a).Complete c s := by
  have hrun : (s.runScratch p a).solver.store = (c.propagator.fromScratch.run s.store false).store := by
    rw [runScratch_eq, scratched, hac]
  have herror : ∀ why, (s.runScratch p a).result = .error why →
      (c.propagator.fromScratch.run s.store false).result = .error why := by
    intro why h
    rw [runScratch_eq, hac] at h
    cases hres : (c.propagator.fromScratch.run s.store false).result with
    | error e => simpa [hres, Except.map] using h
    | ok x => simp [hres, Except.map] at h
  constructor
  case narrowed =>
    rw [hrun]
    obtain ⟨new, hnew⟩ := Action.narrowed_run c.only_fromScratch hs false
    exact ⟨new, hnew⟩
  case ne_fault =>
    intro f hf
    obtain ⟨-, w, hw, hno⟩ := (Constraint.safe_fromScratch hscope).run hs (herror _ hf)
    exact hno (hhas w hw)
  case keeps =>
    intro V hV hle
    have hkept := (Constraint.keeps_fromScratch hV hscope).run hs hle false
    rw [hrun]
    exact ⟨hkept.1, fun e he => hkept.2 e (herror _ he)⟩
  case stable =>
    intro resting hok
    rw [hrun]
    rw [runScratch_eq, hac] at hok
    cases hres : (c.propagator.fromScratch.run s.store false).result with
    | error e => simp [hres, Except.map] at hok
    | ok x =>
      obtain rfl : (c.propagator.fromScratch.run s.store false).resting = resting := by
        simpa [hres, Except.map] using hok
      exact ⟨Constraint.stable_of_fromScratch hc hs hscope (Action.run_eq_of_result hres),
        Constraint.resting_fromScratch hs (Action.run_eq_of_result hres)⟩

/-- Let the rules have had no effect before some narrowings, and let a propagator be yet to be told exactly what it is
registered for of their changes; nothing, not even an empty delta, is pending under another slot, as it never is
(`Solver.Hosts`).  Then handing over its deltas comes to the same as a call from scratch. -/
theorem deltas_agree {u : Store} {new : List Change} (hc : c.Separate) (hac : a.propagator = c.propagator)
    (ha : s.agents.get? p = some a) (hu : u.domains.WellFormed) (hin : c.InScope u.domains)
    (hquiet : c.propagator.fromScratch.Quiet u ()) (hsteps : u.Steps (fun _ => True) s.store)
    (hnew : s.store.changes.toList = u.changes.toList ++ new) (hsorted : a.inbox.Sorted)
    (hslots : ∀ l, a.inbox.Holds l → c.posting.Listens l)
    (hheard : ∀ l, (a.inbox.delta l).entries = c.posting.heard l new) (hsome : a.inbox.pending ≠ []) :
    (s.runDeltas p a a.inbox.pending).Agree (s.runScratch p a) := by
  obtain ⟨cs, hcs⟩ := hsteps.narrowed hu
  obtain rfl : cs = new := List.append_cancel_left (hcs.changes_eq.symm.trans hnew)
  have hst := (Constraint.quiet_fromScratch hu hin).1 hquiet
  have hscope : c.InScope s.store.domains := fun r hr => (hcs.has_iff r.var).2 (hin r hr)
  have hhas : ∀ w ∈ c.operands, s.store.domains.Has w := fun w hw =>
    (hcs.has_iff w).2 (Constraint.has_of_stable hin hst w hw)
  have hnews : ∀ l e v, a.inbox.news l e v ↔ c.posting.news cs l e v := fun l e v => by
    rw [Inbox.news_iff_mem_delta hsorted, hheard, Posting.mem_heard_iff]
  have hset : c.Settled s.store.domains.view a.inbox.news :=
    ((hst.settled fun _ _ _ => False).of_explained hcs.explained hcs.le).mono fun l e v hn =>
      (hnews l e v).2 (hn.resolve_left id)
  have htold : c.posting.Told s.store.domains.view a.inbox.news := by
    intro l e v hn
    obtain ⟨ch, hch, he, hv, hl⟩ := (hnews l e v).1 hn
    exact ⟨ch, he, hv, hl, hcs.confirms ch hch⟩
  exact (complete_runDeltas hc hac hcs.wellFormed hhas hscope ha hset htold hslots hsome).agree
    (complete_runScratch hc hac hcs.wellFormed hhas hscope p)

/-- A set of at most two elements, below a bound that leaves room for both. -/
private def roomy : Store :=
  { domains := { sets := ⟨#[⟨#[⟨1, .possible⟩, ⟨2, .possible⟩], 0, 2⟩]⟩, ints := ⟨#[⟨0, 7, by decide⟩]⟩ } }

/-- The set has got an element, and the bound has become smaller, of which the propagator is to be told. -/
private def informed : Agent :=
  { propagator := (Constraint.strictBound ⟨⟨0⟩, ⟨0⟩⟩).propagator
    inbox := ⟨[(⟨0⟩, ⟨[(.kernelGrew, 2)]⟩), (⟨1⟩, ⟨[(.upperLowered, 4)]⟩)]⟩
    due := false }

/-- In the example the propagator asks for rest after the first delta, as it does when it is called from scratch. -/
theorem deltas_agree_sample :
    let s : Solver :=
      { options := {}, queue := .new Priority.count, agents := ⟨#[informed]⟩
        store := (roomy.tried (.require ⟨0⟩ 2)).tried (.atMost ⟨0⟩ 4) }
    (s.runDeltas ⟨0⟩ informed informed.inbox.pending).Agree (s.runScratch ⟨0⟩ informed) ∧
      (s.runDeltas ⟨0⟩ informed informed.inbox.pending).result = .ok true ∧
      (s.runDeltas ⟨0⟩ informed informed.inbox.pending).solver.statistics.incrementalCalls = 1 := by
  intro s
  have hquiet : (Constraint.strictBound ⟨⟨0⟩, ⟨0⟩⟩).propagator.fromScratch.Quiet roomy () :=
    ⟨by decide +kernel, by decide +kernel⟩
  have hsteps : roomy.Steps (fun _ => True) s.store :=
    .step trivial (Store.narrow_eq_tried (by decide +kernel)) <|
      .step trivial (Store.narrow_eq_tried (by decide +kernel)) (.refl _)
  have hheard : ∀ l, (informed.inbox.delta l).entries = (Constraint.strictBound ⟨⟨0⟩, ⟨0⟩⟩).posting.heard l
      [⟨.set ⟨0⟩, .kernelGrew, 2⟩, ⟨.int ⟨0⟩, .upperLowered, 4⟩] := by
    rintro ⟨_ | _ | n⟩
    · decide
    · decide
    · simp [Inbox.delta, Inbox.deltaIn, informed, Posting.heard, Posting.Hears, Constraint.posting,
        StrictBound.posting, StrictBound.setSlot, StrictBound.boundSlot]
  have hslots : ∀ l, informed.inbox.Holds l → (Constraint.strictBound ⟨⟨0⟩, ⟨0⟩⟩).posting.Listens l := by
    intro l hl
    refine StrictBound.listens_iff.2 (((Inbox.holds_cons _ _ _ l).1 hl).imp_right fun hl => ?_)
    exact ((Inbox.holds_cons _ _ _ l).1 hl).resolve_right (Inbox.not_holds_empty l)
  have hroomy : roomy.domains.WellFormed := Domains.wellFormed_of_ofLists (by decide +kernel)
  refine ⟨deltas_agree (c := .strictBound ⟨⟨0⟩, ⟨0⟩⟩) (u := roomy) trivial rfl rfl hroomy ?_ hquiet hsteps
    (by decide +kernel) (by simp [Inbox.Sorted, informed]) hslots hheard (by simp [informed]), by decide +kernel,
    by decide +kernel⟩
  intro r hr
  simp only [Constraint.posting, StrictBound.posting, List.mem_cons, List.not_mem_nil, or_false] at hr
  rcases hr with rfl | rfl
  · simp [Domains.has_set_iff, roomy, Table.size]
  · simp [Domains.has_int_iff, roomy, Table.size]

end Solver

end SetConstraints
