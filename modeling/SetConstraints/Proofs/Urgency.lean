import SetConstraints.Proofs.Queue.Arrivals
import SetConstraints.Proofs.Termination

/-!
# The most urgent first

Who waits in a solver waits at the level of its priority (`Solver.Placed`): nobody is put into the queue but with its
priority, propagators keep theirs, and no step of the solver moves anyone between the lines (`Solver.Step.placed`).
So the first in the most urgent line, who is run next, is as urgent as everyone that waits (`Solver.Placed.level_le`),
and since the queue is left alone while a propagator runs, this stays so until the run ends.
-/

namespace SetConstraints

namespace Solver

variable {s s₀ t : Solver} {o : Options} {x : Occurrence} {xs : List Occurrence} {p : PropagatorId} {a : Agent}
  {q : Queue} {r : Round} {w : Outcome (Stop Contradiction) Unit}

/-- Who waits is there, and waits at the level of its priority. -/
structure Placed (s : Solver) : Prop where
  queue : s.queue.WellFormed
  exists_agent : ∀ p level, p ∈ s.queue.line level →
    ∃ a, s.agents.get? p = some a ∧ a.propagator.priority.level = level

theorem placed_of_empty (hq : s.queue.WellFormed) (hempty : ∀ level, s.queue.line level = []) : s.Placed where
  queue := hq
  exists_agent p level hp := by
    rw [hempty] at hp
    cases hp

theorem placed_new (h : new? o = .ok s) : s.Placed := by
  refine placed_of_empty (linked_new h).queue fun level => ?_
  unfold new? at h
  split at h
  · cases h
  · cases h
    exact Queue.line_new _ level

/-! ### What leaves everyone in place -/

/-- Who waits stays in place if it stays in line and keeps its propagator. -/
theorem Placed.of_line (h : s.Placed) (hq : t.queue.WellFormed)
    (hline : ∀ p level, p ∈ t.queue.line level → p ∈ s.queue.line level)
    (hkept : ∀ p a, s.agents.get? p = some a → ∃ b, t.agents.get? p = some b ∧ b.propagator = a.propagator) :
    t.Placed where
  queue := hq
  exists_agent p level hp := by
    obtain ⟨a, ha, hlevel⟩ := h.exists_agent p level (hline p level hp)
    obtain ⟨b, hb, hba⟩ := hkept p a ha
    exact ⟨b, hb, by rw [hba, hlevel]⟩

theorem Placed.pop (h : s.Placed) (hpop : s.queue.pop = some (p, q)) : ({ s with queue := q } : Solver).Placed := by
  refine h.of_line (Queue.wellFormed_pop h.queue hpop) (fun x level hx => ?_) fun x b hb => ⟨b, hb, rfl⟩
  exact ((Queue.mem_line_pop h.queue hpop level).1 hx).2

/-- Who comes to wait with its priority is in place. -/
theorem Placed.enqueue (h : s.Placed) (ha : s.agents.get? p = some a) :
    ({ s with queue := s.queue.enqueue p a.propagator.priority } : Solver).Placed := by
  by_cases hw : s.queue.isWaiting p = true
  · rw [Queue.enqueue_of_isWaiting hw]
    exact h
  · rw [Bool.not_eq_true] at hw
    refine ⟨Queue.wellFormed_enqueue h.queue p a.propagator.priority, fun x level hx => ?_⟩
    rcases (Queue.mem_line_enqueue h.queue hw _ level).1 hx with hx | ⟨rfl, hl⟩
    · exact h.exists_agent x level hx
    · exact ⟨a, ha, hl.symm⟩

theorem Placed.tell (h : s.Placed) (c : Change) (w : Watcher) : (s.tell c w).Placed := by
  unfold Solver.tell
  split
  · cases hb : s.agents.get? w.propagator with
    | none => exact h
    | some b =>
      simp only
      split
      · exact h
      · have hplaced := h.enqueue hb
        by_cases hdue : b.due = true
        · rw [if_pos hdue]
          exact hplaced
        · rw [if_neg hdue]
          exact hplaced.of_line hplaced.queue (fun _ _ hx => hx) fun x a ha => kept_of_set ha hb rfl
  · exact h

theorem Placed.notify (h : s.Placed) : s.notify.Placed := by
  have hstart : ({ s with store := { s.store with changes := #[] } } : Solver).Placed := { h with }
  refine List.foldlRecOn (motive := Placed) s.store.changes.toList Solver.deliver hstart fun t ht c _ => ?_
  exact List.foldlRecOn (motive := Placed) (t.watches.watchers c.var) _ ht fun u hu w _ => hu.tell c w

/-- After a restart those wait that have just come to wait. -/
theorem placed_restart (hq : s.queue.WellFormed) : s.restart.Placed := by
  rw [restart_eq]
  have hfresh : s.fresh.Placed := placed_of_empty (Queue.wellFormed_clear hq) (Queue.line_clear hq)
  refine List.foldlRecOn (motive := Placed) s.fresh.agents.keys Solver.enqueue hfresh fun t ht p _ => ?_
  unfold Solver.enqueue
  cases ha : t.agents.get? p with
  | none => exact ht
  | some a =>
    simp only
    split
    · exact ht
    · exact ht.enqueue ha

theorem Placed.joined {c : Posting} {w : WatchList} (h : s.Placed) : (s.joined c w).Placed := by
  have hnew : (s.joined c w).agents.get? s.agents.nextKey = some { propagator := c.propagator } := by
    rw [agents_joined, if_pos rfl]
  have hbefore : ({ s.joined c w with queue := s.queue } : Solver).Placed :=
    h.of_line h.queue (fun _ _ hx => hx) fun x a ha => ⟨a, get?_joined ha c w, rfl⟩
  exact hbefore.enqueue hnew

/-! ### Along the steps of a solver -/

/-- Every step leaves those in place that wait. -/
theorem Step.placed (hx : Step s x t) (h : s.Linked) (hs : s.Placed) : t.Placed := by
  have hkept : ∀ p a, s.agents.get? p = some a → ∃ b, t.agents.get? p = some b ∧ b.propagator = a.propagator :=
    fun p a ha => hx.kept h ha
  cases hx with
  | created | narrowed | opened | scratch | handed | rested | noted =>
    exact hs.of_line hs.queue (fun _ _ hx => hx) hkept
  | wentBack hl =>
    apply placed_restart
    rw [queue_close]
    exact hs.queue
  | added => exact hs.joined
  | delivered => exact hs.notify
  | taken hpop => exact hs.pop hpop
  | gaveUp p e =>
    rw [giveUp_eq]
    exact placed_of_empty (Queue.wellFormed_clear hs.queue) (Queue.line_clear hs.queue)

theorem Path.placed (hxs : Path s xs t) (h : s.Linked) (hs : s.Placed) : t.Placed := by
  induction hxs with
  | nil => exact hs
  | cons hx _ ih => exact ih (h.step hx) (hx.placed h hs)

/-- Who is taken from the queue is as urgent as everyone that waits. -/
theorem Placed.level_le (h : s.Placed) (hpop : s.queue.pop = some (p, q)) :
    ∃ a, s.agents.get? p = some a ∧ ∀ x, s.queue.isWaiting x = true →
      ∃ b, s.agents.get? x = some b ∧ a.propagator.priority.level ≤ b.propagator.priority.level := by
  obtain ⟨level, rest, hline, hnone, -⟩ := Queue.line_pop h.queue hpop
  have hp : p ∈ s.queue.line level := by
    rw [hline]
    exact List.mem_cons_self
  obtain ⟨a, ha, rfl⟩ := h.exists_agent p level hp
  refine ⟨a, ha, fun x hx => ?_⟩
  obtain ⟨m, hm⟩ := (h.queue.isWaiting_iff x).1 hx
  obtain ⟨b, hb, rfl⟩ := h.exists_agent x m hm
  refine ⟨b, hb, ?_⟩
  by_contra hlt
  rw [hnone _ (Nat.lt_of_not_le hlt)] at hm
  cases hm

/-! ### The rounds of propagation -/

/-- A solver to which propagation comes from another by whole rounds, each of which succeeds. -/
inductive ComesTo (s : Solver) : Solver → Prop
  | refl : ComesTo s s
  | next {t : Solver} {r : Round} {w : Outcome (Stop Contradiction) Unit} (ht : ComesTo s t) (hrun : t.Runs r w)
      (hok : w.result = .ok ()) : ComesTo s w.solver.notify

/-- What comes of propagation is the same in all rounds. -/
theorem ComesTo.drain_eq (h : s.ComesTo t) : t.drain = s.drain := by
  induction h with
  | refl => rfl
  | @next t r w ht hrun hok ih =>
    obtain ⟨q, hpop, rfl, -⟩ := hrun
    rw [← ih, Solver.drain.eq_def t]
    split
    · rename_i hnone
      simp [hpop] at hnone
    · rename_i p' q' hpop'
      obtain ⟨rfl, rfl⟩ := Prod.mk.inj (Option.some.inj (hpop.symm.trans hpop'))
      simp only [hok]

theorem ComesTo.courseOf (h : s.ComesTo t) (hs : s.Linked) (hempty : s.store.changes = #[]) :
    CourseOf Occurrence.Internal s t ∧ t.store.changes = #[] := by
  induction h with
  | refl => exact ⟨.refl s, hempty⟩
  | next ht hrun hok ih =>
    obtain ⟨hcourse, hch⟩ := ih
    obtain ⟨q, hpop, rfl, -⟩ := hrun
    have hround := hcourse.trans (course_round (hs.courseOf hcourse) hpop hch)
    exact ⟨hround.trans (Step.delivered.courseOf rfl rfl trivial), by rw [store_notify]⟩

theorem CourseOf.placed {Q : Occurrence → Prop} (h : CourseOf Q s t) (hs : s.Linked) (hplaced : s.Placed) :
    t.Placed :=
  have ⟨_, hxs, _⟩ := h
  hxs.path.placed hs hplaced

theorem Runs.pop_eq (h : s.Runs r w) : s.queue.pop = some (r.propagator, w.solver.queue) := by
  obtain ⟨q, hpop, rfl, -⟩ := h
  rw [(runAgent_kept _ _).1]
  exact hpop

/-- In each round someone is run than whom nobody that waits is more urgent. -/
theorem most_urgent_of_runs (h₀ : new? o = .ok s₀) (hs : Path s₀ xs s) (ht : s.notify.ComesTo t) (hrun : t.Runs r w) :
    ∃ a, t.agents.get? r.propagator = some a ∧ ∀ x, t.queue.isWaiting x = true →
      ∃ b, t.agents.get? x = some b ∧ a.propagator.priority.level ≤ b.propagator.priority.level := by
  have hlinked := (linked_new h₀).path hs
  have hplaced := hs.placed (linked_new h₀) (placed_new h₀)
  have hnotified : s.notify.Linked := hlinked.step Step.delivered
  have hempty : s.notify.store.changes = #[] := by rw [store_notify]
  exact ((ht.courseOf hnotified hempty).1.placed hnotified hplaced.notify).level_le hrun.pop_eq

private theorem queue_checkAgent (s : Solver) (level : Nat) (p : PropagatorId) (a : Agent) :
    (s.checkAgent level p a).solver.queue = s.queue := by
  unfold checkAgent
  simp only
  split
  · rfl
  · rfl
  · split <;> rfl

/-- A check puts nobody into the queue. -/
theorem queue_checkAgents (s : Solver) (level : Nat) (ps : List PropagatorId) :
    (s.checkAgents level ps).solver.queue = s.queue := by
  induction ps generalizing s with
  | nil => rfl
  | cons p ps ih =>
    unfold checkAgents
    cases s.agents.get? p with
    | none => exact ih s
    | some a =>
      by_cases hpas : a.passive = true
      · simp only [hpas, if_true]
        exact ih s
      · simp only [if_neg hpas]
        split
        · exact queue_checkAgent s level p a
        · exact (ih _).trans (queue_checkAgent s level p a)

/-- After propagation has succeeded nobody waits, and a check does not change this, whomever it has come to. -/
theorem nobody_waits_in_check (h₀ : new? o = .ok s₀) (hs : Path s₀ xs s) (hok : s.notify.drain.result = .ok ())
    (ps : List PropagatorId) (x : PropagatorId) :
    (s.notify.drain.solver.checkAgents s.notify.drain.solver.depth ps).solver.queue.isWaiting x = false := by
  have hnotified : s.notify.Linked := ((linked_new h₀).path hs).step Step.delivered
  have hempty : s.notify.store.changes = #[] := by rw [store_notify]
  rw [queue_checkAgents]
  exact (Queue.pop_eq_none_iff (hnotified.drain hempty).queue).1 (empty_of_drain hempty hok).1 x

/-- A queue with a level for each priority takes whom the list of arrivals takes, the first of the most urgent, and
what it keeps beside the lines is exact; sending everyone away makes it as good as new.  In propagation, therefore,
nobody runs while someone more urgent waits, and nobody is checked at a fixpoint while someone waits. -/
theorem serves_most_urgent {n : Nat} (hn : Priority.count ≤ n) (ds : List Queue.Demand) :
    ((Queue.new n).serveAll ds).1 = (Arrival.serveAll [] ds).1 ∧
      ((Queue.new n).serveAll ds).2.Refines (Arrival.serveAll [] ds).2 ∧
      (∀ es, (((Queue.new n).serveAll ds).2.clear.serveAll es).1 = ((Queue.new n).serveAll es).1 ∧
        (((Queue.new n).serveAll ds).2.clear.serveAll es).2.Refines (Arrival.serveAll [] es).2 ∧
        ((Queue.new n).serveAll es).2.Refines (Arrival.serveAll [] es).2) ∧
      ∀ {o : Options} {s₀ s : Solver} {xs : List Occurrence}, new? o = .ok s₀ → Path s₀ xs s →
        (∀ {t : Solver} {r : Round} {w : Outcome (Stop Contradiction) Unit}, s.notify.ComesTo t → t.Runs r w →
          t.drain = s.notify.drain ∧ t.queue.pop = some (r.propagator, w.solver.queue) ∧
            ∃ a, t.agents.get? r.propagator = some a ∧ ∀ x, t.queue.isWaiting x = true →
              ∃ b, t.agents.get? x = some b ∧ a.propagator.priority.level ≤ b.propagator.priority.level) ∧
        (s.notify.drain.result = .ok () → ∀ ps x,
          (s.notify.drain.solver.checkAgents s.notify.drain.solver.depth ps).solver.queue.isWaiting x = false) := by
  obtain ⟨hanswers, hheld⟩ := (Queue.holds_new hn).serveAll ds
  refine ⟨hanswers, hheld.refines, fun es => ?_, fun h₀ hs => ⟨fun ht hrun => ?_, fun hok => ?_⟩⟩
  · obtain ⟨hnew, hnewHeld⟩ := (Queue.holds_new hn).serveAll es
    obtain ⟨hcleared, hclearedHeld⟩ := hheld.clear.serveAll es
    exact ⟨hcleared.trans hnew.symm, hclearedHeld.refines, hnewHeld.refines⟩
  · exact ⟨ht.drain_eq, hrun.pop_eq, most_urgent_of_runs h₀ hs ht hrun⟩
  · exact nobody_waits_in_check h₀ hs hok

/-- Those of low and of high priority come in turn, one of them twice, and come again while they are served. -/
private def errands : List Queue.Demand :=
  [.enqueue ⟨2⟩ .low, .enqueue ⟨0⟩ .high, .enqueue ⟨2⟩ .high, .enqueue ⟨1⟩ .high, .pop, .enqueue ⟨0⟩ .high, .pop,
    .pop, .pop, .pop, .enqueue ⟨3⟩ .medium, .clear, .enqueue ⟨1⟩ .veryLow, .enqueue ⟨3⟩ .low]

/-- Takes one from the upper bound of its variable once this is below 5, and watches for what it does itself. -/
private def stepping (priority : Priority) : Posting where
  propagator :=
    { name := "Stepping"
      text := "Stepping"
      priority := priority
      fromScratch := do
        let e ← Action.int ⟨0⟩
        if e.low < e.high ∧ e.high < 5 then Action.atMost ⟨0⟩ (e.high - 1)
      entailment := fun _ => .ok .undetermined }
  registrations := [⟨.int ⟨0⟩, .bounds, ⟨0⟩⟩]

/-- Two propagators, of which the less urgent one is the first to hear of a change. -/
private def rivalry : List Operation :=
  [.newInt 0 9, .add (stepping .low), .add (stepping .high), .narrow (.atMost ⟨0⟩ 4)]

/-- What comes of the propagator that is served next. -/
private def runNext (s : Solver) : Outcome (Stop Contradiction) Unit :=
  match s.queue.pop with
  | none => ⟨.ok (), s⟩
  | some (p, q) => ({ s with queue := q } : Solver).runAgent p

private theorem runs_runNext (hempty : s.store.changes = #[]) (hpop : s.queue.pop.map Prod.fst = some p) :
    ∃ cs, s.Runs ⟨p, cs⟩ s.runNext := by
  obtain ⟨⟨p, q⟩, hpair, rfl⟩ := Option.map_eq_some_iff.1 hpop
  have hserved : s.runNext = ({ s with queue := q } : Solver).runAgent p := by
    simp only [runNext, hpair]
  rw [hserved]
  exact exists_runs hempty hpair

/-- The errands leave one of the least priority, who came first, and one of low priority; the more urgent of the
rivals is run again while the other one still waits, and in the end nobody does. -/
theorem serves_most_urgent_sample :
    let blank : Solver := { options := {}, queue := .new Priority.count }
    Priority.count ≤ 4 ∧
      ((Queue.new 4).serveAll errands).1 = [none, none, none, none, some ⟨0⟩, none, some ⟨1⟩, some ⟨0⟩, some ⟨2⟩,
        none, none, none, none, none] ∧
      ((Queue.new 4).serveAll errands).2.Refines [⟨⟨1⟩, .veryLow⟩, ⟨⟨3⟩, .low⟩] ∧
      ∃ s t xs r w, blank.performAll rivalry = .ok s ∧ Path blank xs s ∧ s.notify.ComesTo t ∧ t.Runs r w ∧
        r.propagator = ⟨1⟩ ∧ t.queue.isWaiting ⟨0⟩ = true ∧ t.store.domains.ints.toList = [⟨0, 3, by decide⟩] ∧
        t.queue.pop = some (⟨1⟩, w.solver.queue) ∧ ∃ a b, t.agents.get? ⟨1⟩ = some a ∧ t.agents.get? ⟨0⟩ = some b ∧
          a.propagator.priority.level ≤ b.propagator.priority.level ∧ s.notify.drain.result = .ok () ∧
          ∀ ps x,
            (s.notify.drain.solver.checkAgents s.notify.drain.solver.depth ps).solver.queue.isWaiting x = false := by
  intro blank
  obtain ⟨hanswers, hrefines, -, hsolver⟩ := serves_most_urgent (n := 4) (by decide) errands
  have hlist : Arrival.serveAll [] errands = ([none, none, none, none, some ⟨0⟩, none, some ⟨1⟩, some ⟨0⟩, some ⟨2⟩,
      none, none, none, none, none], [⟨⟨1⟩, .veryLow⟩, ⟨⟨3⟩, .low⟩]) := by decide +kernel
  rw [hlist] at hanswers hrefines
  refine ⟨by decide, hanswers, hrefines, ?_⟩
  have hs : blank.performAll rivalry = .ok (blank.past rivalry) := performAll_eq (by decide +kernel)
  have hblank : new? {} = .ok blank := rfl
  obtain ⟨xs, hxs⟩ := exists_path_performAll (linked_new hblank) hs
  obtain ⟨cs, hfirst⟩ := runs_runNext (s := (blank.past rivalry).notify) (p := ⟨1⟩) (by rw [store_notify])
    (by decide +kernel)
  obtain ⟨ds, hsecond⟩ := runs_runNext (s := (blank.past rivalry).notify.runNext.solver.notify) (p := ⟨1⟩)
    (by rw [store_notify]) (by decide +kernel)
  have hok : (blank.past rivalry).notify.runNext.result = .ok () := by decide +kernel
  have hcomes := ComesTo.refl.next hfirst hok
  have hwaits : (blank.past rivalry).notify.runNext.solver.notify.queue.isWaiting ⟨0⟩ = true := by decide +kernel
  have hdone : (blank.past rivalry).notify.drain.result = .ok () := by decide +kernel
  obtain ⟨hrounds, hcheck⟩ := hsolver hblank hxs
  obtain ⟨-, hpop, a, ha, hall⟩ := hrounds hcomes hsecond
  obtain ⟨b, hb, hle⟩ := hall ⟨0⟩ hwaits
  exact ⟨_, _, xs, _, _, hs, hxs, hcomes, hsecond, rfl, hwaits, by decide +kernel, hpop, a, b, ha, hb, hle, hdone,
    hcheck hdone⟩

end Solver

end SetConstraints
