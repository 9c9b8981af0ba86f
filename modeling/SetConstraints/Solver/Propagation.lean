import SetConstraints.Solver.Basic

/-!
# Propagation

Pending changes are delivered to the propagators that watch for them, and waiting propagators are run, the most
urgent first, until none is left or one finds a contradiction.

The work left is the number of places taken in the queue together with one place per watcher for each change
pending or possible.  A delivery moves work from the second part to the first, an action does not add to it, and
taking a propagator from the queue uses it up (`work_notify_le`, `work_runAgent_le`, `work_pop`): this is why
propagation ends, whatever the propagators do.
-/

namespace SetConstraints

namespace Solver

/-! ### Delivery -/

/-- Tells one watcher about a change.  A propagator that is due hears nothing, since it will look at everything. -/
def tell (s : Solver) (c : Change) (w : Watcher) : Solver :=
  if w.events.contains c.event then
    match s.agents.get? w.propagator with
    | none => s
    | some a =>
      if a.passive then s
      else
        { s with
          agents :=
            if a.due then s.agents
            else s.agents.set w.propagator { a with inbox := a.inbox.push w.slot c.event c.value }
          queue := s.queue.enqueue w.propagator a.propagator.priority }
  else s

/-- Tells all watchers about a change. -/
def deliver (s : Solver) (c : Change) : Solver := (s.watches.watchers c.var).foldl (fun s w => s.tell c w) s

/-- Delivers the pending changes, oldest first. -/
def notify (s : Solver) : Solver :=
  s.store.changes.toList.foldl deliver { s with store := { s.store with changes := #[] } }

/-! ### Running a propagator -/

/-- Lets a propagator act on the store and records the call. -/
def act (s : Solver) (c : Call) (a : Action Unit) : Reply Unit × Solver :=
  let s := s.record (.call c s.store.domains)
  let reply := a.run s.store false
  (reply, { s with store := reply.store })

/-- Calls a propagator from scratch; what it has not been told yet is void. -/
def runScratch (s : Solver) (p : PropagatorId) (a : Agent) : Outcome (Stop Contradiction) Bool :=
  let s := { s with
    agents := s.agents.set p { a with due := false, inbox := {} }
    statistics := { s.statistics with scratchCalls := s.statistics.scratchCalls + 1 } }
  let (reply, s) := s.act (.scratch p) a.propagator.fromScratch
  ⟨reply.result.map fun _ => reply.resting, s⟩

/-- Hands a propagator its deltas one by one, until it asks for rest. -/
def runDeltas (s : Solver) (p : PropagatorId) (a : Agent) :
    List (Slot × Delta) → Outcome (Stop Contradiction) Bool
  | [] => ⟨.ok false, s⟩
  | (slot, delta) :: later =>
    let s := { s with
      agents := s.agents.set p { a with inbox := ⟨later⟩ }
      statistics := { s.statistics with incrementalCalls := s.statistics.incrementalCalls + 1 } }
    let (reply, s) := s.act (.incremental p slot delta) (a.propagator.incremental slot delta)
    match reply.result with
    | .error e => ⟨.error e, s⟩
    | .ok () => if reply.resting then ⟨.ok true, s⟩ else s.runDeltas p a later

/-- Puts a propagator to rest until the solver leaves the current level. -/
def putToRest (s : Solver) (p : PropagatorId) : Solver :=
  let s := s.log (.atRest p)
  let s := s.modifyAgent p fun a => { a with passive := true, inbox := {} }
  { s with passiveTrail := s.passiveTrail.push p }

/-- Runs a propagator in the way its state asks for. -/
def runAgent (s : Solver) (p : PropagatorId) : Outcome (Stop Contradiction) Unit :=
  match s.agents.get? p with
  | none => ⟨.error (.fault .unknownIndex), s⟩
  | some a =>
    let o := if a.due || !s.options.incremental then s.runScratch p a else s.runDeltas p a a.inbox.pending
    match o.result with
    | .error e => ⟨.error e, o.solver⟩
    | .ok resting => ⟨.ok (), if resting then o.solver.putToRest p else o.solver⟩

/-- What a contradiction leaves of a solver: the domains as they are, and nothing pending. -/
def giveUp (s : Solver) (p : PropagatorId) (c : Contradiction) : Solver :=
  let s := { s with statistics := { s.statistics with contradictions := s.statistics.contradictions + 1 } }
  let s :=
    match s.agents.get? p with
    | none => s
    | some a => s.log (.contradiction a.propagator.text p c)
  s.clearPending

/-! ### The work that is left -/

/-- A bound on the number of propagators still to be run. -/
def work (s : Solver) : Nat := s.queue.held + s.watches.total * s.store.potential

private theorem held_tell_le (s : Solver) (c : Change) (w : Watcher) :
    (s.tell c w).queue.held ≤ s.queue.held + (if w.events.contains c.event then 1 else 0) ∧
      (s.tell c w).watches = s.watches ∧ (s.tell c w).store = s.store := by
  unfold tell
  split
  · split
    · simp
    · split
      · simp
      · exact ⟨Queue.held_enqueue_le _ _ _, rfl, rfl⟩
  · simp

private theorem held_foldl_tell_le (c : Change) (ws : List Watcher) (s : Solver) :
    (ws.foldl (fun s w => s.tell c w) s).queue.held ≤
        s.queue.held + ws.countP (fun w => w.events.contains c.event) ∧
      (ws.foldl (fun s w => s.tell c w) s).watches = s.watches ∧
      (ws.foldl (fun s w => s.tell c w) s).store = s.store := by
  induction ws generalizing s with
  | nil => simp
  | cons w ws ih =>
    have h := held_tell_le s c w
    have := ih (s.tell c w)
    simp only [List.foldl_cons, List.countP_cons]
    refine ⟨by omega, this.2.1.trans h.2.1, this.2.2.trans h.2.2⟩

private theorem held_deliver_le (s : Solver) (c : Change) :
    (s.deliver c).queue.held ≤ s.queue.held + s.watches.audience c ∧ (s.deliver c).watches = s.watches ∧
      (s.deliver c).store = s.store :=
  held_foldl_tell_le c (s.watches.watchers c.var) s

private theorem held_foldl_deliver_le (cs : List Change) (s : Solver) :
    (cs.foldl deliver s).queue.held ≤ s.queue.held + s.watches.pairs cs ∧
      (cs.foldl deliver s).watches = s.watches ∧ (cs.foldl deliver s).store = s.store := by
  induction cs generalizing s with
  | nil => simp [WatchList.pairs]
  | cons c cs ih =>
    have h := held_deliver_le s c
    have hcs := ih (s.deliver c)
    rw [h.2.1] at hcs
    simp only [List.foldl_cons, WatchList.pairs]
    refine ⟨by omega, hcs.2.1, hcs.2.2.trans h.2.2⟩

/-- A delivery takes at most one place for each pair of a change and a watcher to be told about it. -/
theorem held_notify_le (s : Solver) :
    s.notify.queue.held ≤ s.queue.held + s.watches.pairs s.store.changes.toList ∧
      s.notify.watches = s.watches ∧ s.notify.store = { s.store with changes := #[] } :=
  held_foldl_deliver_le s.store.changes.toList { s with store := { s.store with changes := #[] } }

theorem work_notify_le (s : Solver) : s.notify.work ≤ s.work := by
  have h := s.held_notify_le
  have hpairs := s.watches.pairs_le s.store.changes.toList
  simp only [work, h.2.1, h.2.2, Store.potential, Array.length_toList, Nat.mul_add, Array.size_empty] at hpairs ⊢
  omega

private theorem act_snd (s : Solver) (c : Call) (a : Action Unit) :
    (s.act c a).2.queue = s.queue ∧ (s.act c a).2.watches = s.watches ∧
      (s.act c a).2.store.potential ≤ s.store.potential :=
  ⟨rfl, rfl, Action.potential_run a s.store false⟩

private theorem runScratch_kept (s : Solver) (p : PropagatorId) (a : Agent) :
    (s.runScratch p a).solver.queue = s.queue ∧ (s.runScratch p a).solver.watches = s.watches ∧
      (s.runScratch p a).solver.store.potential ≤ s.store.potential :=
  act_snd _ _ _

private theorem runDeltas_kept (s : Solver) (p : PropagatorId) (a : Agent) (ds : List (Slot × Delta)) :
    (s.runDeltas p a ds).solver.queue = s.queue ∧ (s.runDeltas p a ds).solver.watches = s.watches ∧
      (s.runDeltas p a ds).solver.store.potential ≤ s.store.potential := by
  induction ds generalizing s with
  | nil => simp [runDeltas]
  | cons d ds ih =>
    obtain ⟨slot, delta⟩ := d
    simp only [runDeltas]
    split
    · exact act_snd _ _ _
    · split
      · exact act_snd _ _ _
      · obtain ⟨h1, h2, h3⟩ := ih (act _ _ _).2
        exact ⟨h1, h2, Nat.le_trans h3 (act_snd _ _ _).2.2⟩

theorem runAgent_kept (s : Solver) (p : PropagatorId) :
    (s.runAgent p).solver.queue = s.queue ∧ (s.runAgent p).solver.watches = s.watches ∧
      (s.runAgent p).solver.store.potential ≤ s.store.potential := by
  unfold runAgent
  split
  · simp
  · rename_i a _
    have h : ∀ o : Outcome (Stop Contradiction) Bool,
        o = (if a.due || !s.options.incremental then s.runScratch p a else s.runDeltas p a a.inbox.pending) →
        o.solver.queue = s.queue ∧ o.solver.watches = s.watches ∧
          o.solver.store.potential ≤ s.store.potential := by
      rintro o rfl
      split
      · exact runScratch_kept s p a
      · exact runDeltas_kept s p a _
    have h := h _ rfl
    simp only
    split
    · exact h
    · split
      · exact h
      · exact h

theorem work_runAgent_le (s : Solver) (p : PropagatorId) : (s.runAgent p).solver.work ≤ s.work := by
  obtain ⟨h1, h2, h3⟩ := runAgent_kept s p
  simp only [work, h1, h2]
  have := Nat.mul_le_mul_left s.watches.total h3
  omega

theorem work_pop {s : Solver} {p : PropagatorId} {q : Queue} (h : s.queue.pop = some (p, q)) :
    ({ s with queue := q } : Solver).work < s.work := by
  have := Queue.held_pop h
  simp only [work]
  omega

/-! ### Reaching a fixpoint -/

/-- Runs waiting propagators, and those that their changes wake, until none waits or one gives up. -/
def drain (s : Solver) : Outcome (Stop Contradiction) Unit :=
  match _h : s.queue.pop with
  | none => ⟨.ok (), s⟩
  | some (p, q) =>
    let o := ({ s with queue := q } : Solver).runAgent p
    match o.result with
    | .error (.error c) => ⟨.error (.error c), o.solver.giveUp p c⟩
    | .error (.fault f) => ⟨.error (.fault f), o.solver⟩
    | .ok () => drain o.solver.notify
termination_by s.work
decreasing_by
  exact Nat.lt_of_le_of_lt (Nat.le_trans (work_notify_le _) (work_runAgent_le _ p)) (work_pop (by assumption))

/-- Runs a propagator again at a fixpoint: it must neither give up nor change anything.  What it does is taken
back, and its wish to rest is not heard. -/
def checkAgent (s : Solver) (level : Nat) (p : PropagatorId) (a : Agent) : Outcome (Stop Contradiction) Unit :=
  let (reply, s) := { s with store := s.store.mark }.act (.scratch p) a.propagator.fromScratch
  match reply.result with
  | .error (.fault f) => ⟨.error (.fault f), s⟩
  | .error (.error _) => ⟨.error (.fault (.contradictionAtFixpoint a.propagator.text)), s⟩
  | .ok () =>
    if s.store.changes.isEmpty then ⟨.ok (), { s with store := s.store.rewind level }⟩
    else ⟨.error (.fault (.changeAtFixpoint a.propagator.text s.store.changes.size)), s⟩

def checkAgents (s : Solver) (level : Nat) : List PropagatorId → Outcome (Stop Contradiction) Unit
  | [] => ⟨.ok (), s⟩
  | p :: ps =>
    match s.agents.get? p with
    | none => s.checkAgents level ps
    | some a =>
      if a.passive then s.checkAgents level ps
      else
        let o := s.checkAgent level p a
        match o.result with
        | .error e => ⟨.error e, o.solver⟩
        | .ok () => o.solver.checkAgents level ps

/-- Runs all propagators that are not at rest again, in order. -/
def checkFixpoint (s : Solver) : Outcome (Stop Contradiction) Unit := s.checkAgents s.depth s.agents.keys

/-- Propagates to a fixpoint, or to a contradiction. -/
def propagate (s : Solver) : Outcome (Stop Contradiction) Unit :=
  let o := s.notify.drain
  match o.result with
  | .error e => ⟨.error e, o.solver⟩
  | .ok () => if o.solver.options.checks then o.solver.checkFixpoint else ⟨.ok (), o.solver⟩

/-! ### Adding a constraint -/

/-- Adds a constraint and propagates.  The propagator stays even if this fails; failing before any level was
opened makes the solver infeasible for good. -/
def add (s : Solver) (c : Posting) : Outcome (Stop Refusal) PropagatorId :=
  if s.infeasible then ⟨.error (.error .infeasibleState), s⟩
  else
    let p := s.agents.nextKey
    let s := s.record (.call (.create p) s.store.domains)
    match c.defect? s.store.domains with
    | some f => ⟨.error (.fault f), s⟩
    | none =>
      match s.watches.registerAll? p c.registrations with
      | none => ⟨.error (.fault .unknownIndex), s⟩
      | some watches =>
        let s := s.log (.adding c.propagator.text p c.propagator.priority)
        let s := { s with
          watches := watches
          agents := s.agents.push { propagator := c.propagator }
          queue := s.queue.enqueue p c.propagator.priority }
        let o := s.propagate
        match o.result with
        | .ok () => ⟨.ok p, o.solver⟩
        | .error (.fault f) => ⟨.error (.fault f), o.solver⟩
        | .error (.error _) =>
          ⟨.error (.error .infeasiblePropagator),
            { o.solver with infeasible := o.solver.infeasible || o.solver.depth = 0 }⟩

end Solver

end SetConstraints
