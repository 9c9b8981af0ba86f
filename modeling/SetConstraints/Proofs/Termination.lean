import SetConstraints.Proofs.Backtracking

/-!
# Propagation and enumeration end

A round of propagation takes a place in the queue.  New places come from changes only, at most one for each watcher of
a change, and changes use up what is left in the domains (`Solver.Runs.progress`).  So the loop has at most as many
rounds as there are places at the beginning and pairs of a change and a watcher later on (`Solver.Drains.within`),
whatever the propagators do.

A decision of the search takes an undecided element or a step between bounds, propagation gives none back, and the
second branch starts from the domains that the first one started from (`Solver.domains_explore`).  So the search is a
recursion that needs no bound on its depth to end (`Solver.Linked.recurses`).
-/

namespace SetConstraints

namespace Solver

variable {s t v : Solver} {x : Occurrence} {xs : List Occurrence} {depth : Nat} {dec : Decision} {first : Bool}
  {found : List Assignment}

/-! ### The loop -/

/-- A round of propagation: who is taken from the queue, and the changes that its calls make, oldest first. -/
structure Round where
  propagator : PropagatorId
  changes : List Change

/-- A round in which the propagator first served is run, with the outcome `o`. -/
def Runs (s : Solver) (r : Round) (o : Outcome (Stop Contradiction) Unit) : Prop :=
  ∃ q, s.queue.pop = some (r.propagator, q) ∧ o = ({ s with queue := q } : Solver).runAgent r.propagator ∧
    o.solver.store.changes.toList = s.store.changes.toList ++ r.changes

/-- The rounds of propagation, changes being delivered after each, until nobody waits or a run does not succeed. -/
inductive Drains : Solver → List Round → Outcome (Stop Contradiction) Unit → Prop
  | empty {s : Solver} (hpop : s.queue.pop = none) : Drains s [] ⟨.ok (), s⟩
  | contradiction {s : Solver} {r : Round} {o : Outcome (Stop Contradiction) Unit} {e : Contradiction}
      (hrun : s.Runs r o) (he : o.result = .error (.error e)) :
      Drains s [r] ⟨.error (.error e), o.solver.giveUp r.propagator e⟩
  | fault {s : Solver} {r : Round} {o : Outcome (Stop Contradiction) Unit} {f : Fault} (hrun : s.Runs r o)
      (hf : o.result = .error (.fault f)) : Drains s [r] ⟨.error (.fault f), o.solver⟩
  | next {s : Solver} {r : Round} {rs : List Round} {o w : Outcome (Stop Contradiction) Unit} (hrun : s.Runs r o)
      (hok : o.result = .ok ()) (hrest : Drains o.solver.notify rs w) : Drains s (r :: rs) w

/-- The changes made in some rounds. -/
def Round.made (rs : List Round) : List Change := rs.flatMap Round.changes

/-- Who is served next runs. -/
theorem exists_runs {p : PropagatorId} {q : Queue} (hempty : s.store.changes = #[])
    (hpop : s.queue.pop = some (p, q)) : ∃ cs, s.Runs ⟨p, cs⟩ (({ s with queue := q } : Solver).runAgent p) := by
  refine ⟨(({ s with queue := q } : Solver).runAgent p).solver.store.changes.toList, q, hpop, rfl, ?_⟩
  rw [hempty]
  rfl

/-- The loop is made of rounds. -/
theorem exists_drains (hempty : s.store.changes = #[]) : ∃ rs, s.Drains rs s.drain := by
  fun_induction drain s with
  | case1 s hpop => exact ⟨[], .empty hpop⟩
  | case2 s p q hpop o e hrun =>
    obtain ⟨cs, hcs⟩ := exists_runs hempty hpop
    exact ⟨[⟨p, cs⟩], .contradiction hcs hrun⟩
  | case3 s p q hpop o f hrun =>
    obtain ⟨cs, hcs⟩ := exists_runs hempty hpop
    exact ⟨[⟨p, cs⟩], .fault hcs hrun⟩
  | case4 s p q hpop o hrun ih =>
    obtain ⟨cs, hcs⟩ := exists_runs hempty hpop
    obtain ⟨rs, hrs⟩ := ih (by rw [store_notify])
    exact ⟨⟨p, cs⟩ :: rs, .next hcs hrun hrs⟩

/-- A round takes one place in the queue, and gives at most one to each pair of a change and a watcher. -/
theorem Runs.progress {r : Round} {o : Outcome (Stop Contradiction) Unit} (h : s.Runs r o)
    (hempty : s.store.changes = #[]) :
    o.solver.notify.queue.held + 1 ≤ s.queue.held + s.watches.pairs r.changes ∧
      r.changes.length + o.solver.notify.store.domains.potential ≤ s.store.domains.potential ∧
      o.solver.notify.watches = s.watches := by
  obtain ⟨q, hpop, ho, hchanges⟩ := h
  have hheld := Queue.held_pop hpop
  obtain ⟨hqueue, hwatches, hpotential⟩ := runAgent_kept { s with queue := q } r.propagator
  rw [← ho] at hqueue hwatches hpotential
  obtain ⟨hnotify, hkept, hstore⟩ := o.solver.held_notify_le
  have hnew : o.solver.store.changes.toList = r.changes := by rw [hchanges, hempty]; rfl
  refine ⟨?_, ?_, hkept.trans hwatches⟩
  · rw [hnew, hwatches, hqueue] at hnotify
    change o.solver.notify.queue.held ≤ q.held + s.watches.pairs r.changes at hnotify
    omega
  · simp only [Store.potential, hempty] at hpotential
    rw [hstore, ← hnew, Array.length_toList]
    simpa using hpotential

/-- The loop ends in time: each round takes a place in the queue, and only changes give new ones. -/
theorem Drains.within {rs : List Round} {o : Outcome (Stop Contradiction) Unit} (h : s.Drains rs o)
    (hempty : s.store.changes = #[]) :
    rs.length ≤ s.queue.held + s.watches.pairs (Round.made rs) ∧
      (Round.made rs).length ≤ s.store.domains.potential := by
  induction h with
  | empty hpop => simp [Round.made]
  | contradiction hrun he | fault hrun he =>
    obtain ⟨hheld, hpotential, -⟩ := hrun.progress hempty
    simp only [Round.made, List.flatMap_cons, List.flatMap_nil, List.append_nil, List.length_singleton]
    constructor <;> omega
  | next hrun hok _ ih =>
    obtain ⟨hheld, hpotential, hwatches⟩ := hrun.progress hempty
    obtain ⟨h1, h2⟩ := ih (by rw [store_notify])
    rw [hwatches] at h1
    simp only [Round.made, List.flatMap_cons, WatchList.pairs_append, List.length_append, List.length_cons] at h1 h2 ⊢
    constructor <;> omega

/-! ### The recursion of the search -/

/-- The search as a recursion without a bound on its depth.  It comes to `o`, and at most `depth` calls of it, the
first one included, are open at a time; `below` is what the calls below come to. -/
inductive Recurses : Nat → Solver → Outcome Fault (List Assignment) → Prop
  | fault {depth : Nat} {s : Solver} {f : Fault} (hf : s.propagate.result = .error (.fault f)) :
      Recurses (depth + 1) s ⟨.error f, s.propagate.solver⟩
  | contradiction {depth : Nat} {s : Solver} {e : Contradiction} (he : s.propagate.result = .error (.error e)) :
      Recurses (depth + 1) s ⟨.ok [], s.propagate.solver⟩
  | leaf {depth : Nat} {s : Solver} (hok : s.propagate.result = .ok ())
      (hdec : s.propagate.solver.store.domains.decision? = none) : Recurses (depth + 1) s s.propagate.solver.leaf
  | first {depth : Nat} {s : Solver} {dec : Decision} {f : Fault} {left : Outcome Fault (List Assignment)}
      {below : Solver → Outcome Fault (List Assignment)} (hok : s.propagate.result = .ok ())
      (hdec : s.propagate.solver.store.domains.decision? = some dec)
      (hbelow : ∀ v, s.propagate.solver.Enters dec true v → Recurses depth v (below v))
      (hleft : s.propagate.solver.explore below dec true = left) (hf : left.result = .error f) :
      Recurses (depth + 1) s ⟨.error f, left.solver⟩
  | both {depth : Nat} {s : Solver} {dec : Decision} {left right : Outcome Fault (List Assignment)}
      {found : List Assignment} {below : Solver → Outcome Fault (List Assignment)}
      (hok : s.propagate.result = .ok ()) (hdec : s.propagate.solver.store.domains.decision? = some dec)
      (hbelow : ∀ v, s.propagate.solver.Enters dec true v → Recurses depth v (below v))
      (hleft : s.propagate.solver.explore below dec true = left) (hfound : left.result = .ok found)
      (hbelow' : ∀ v, left.solver.Enters dec false v → Recurses depth v (below v))
      (hright : left.solver.explore below dec false = right) :
      Recurses (depth + 1) s ⟨right.result.map (found ++ ·), right.solver⟩

/-- What is part of propagation gives nothing back to the domains. -/
private theorem Step.freedom_le (hx : Step s x t) (h : s.Linked) (hin : x.Internal) :
    t.store.domains.freedom ≤ s.store.domains.freedom := by
  have hrun : ∀ a : Action Unit, (a.run s.store false).store.domains.freedom ≤ s.store.domains.freedom := by
    intro a
    obtain ⟨new, hnew⟩ := Action.narrowed_run (Action.only_true a) h.valid.wellFormed false
    exact hnew.toNarrower.freedom_le
  cases hx with
  | created | narrowed | opened | wentBack | added => exact hin.elim
  | delivered => rw [store_notify]
  | scratch => exact hrun _
  | handed => exact hrun _
  | taken | rested | noted => exact le_rfl
  | gaveUp p e => rw [giveUp_eq]

private theorem freedom_of_internal (h : Path s xs t) (hs : s.Linked) (hxs : ∀ x ∈ xs, x.Internal) :
    t.store.domains.freedom ≤ s.store.domains.freedom := by
  induction h with
  | nil => exact le_rfl
  | @cons s v t x xs hx _ ih =>
    have hv := hx.freedom_le hs (hxs x (by simp))
    exact le_trans (ih (hs.step hx) fun y hy => hxs y (by simp [hy])) hv

/-- Propagation gives nothing back either. -/
private theorem freedom_propagate (h : s.Linked) (hok : s.propagate.result = .ok ()) :
    s.propagate.solver.store.domains.freedom ≤ s.store.domains.freedom := by
  obtain ⟨xs, hxs, hin⟩ := course_propagate h (by simp [hok])
  exact freedom_of_internal hxs.path h (List.forall_mem_map.2 hin)

/-- A branch is entered on a new level, where the decision narrows the domains. -/
theorem Enters.step (hv : s.Enters dec first v) (h : s.Linked) :
    (∃ new, Step s.decided (.narrowed new) v) ∧ v.depth = s.depth + 1 := by
  obtain ⟨n, u, -, hu, rfl⟩ := hv
  obtain ⟨new, hnew⟩ := h.mark.exists_narrowed hu
  exact ⟨⟨new, .narrowed hu hnew.changes_eq⟩, hnew.depth_eq⟩

theorem Enters.linked (hv : s.Enters dec first v) (h : s.Linked) : v.Linked := by
  obtain ⟨⟨new, hstep⟩, -⟩ := hv.step h
  exact (h.courseOf (course_decided s)).step hstep

/-- Who comes back from a branch finds the domains that were there before. -/
theorem domains_explore (h : s.Linked) (hok : (s.explore (search depth) dec first).result = .ok found) :
    (s.explore (search depth) dec first).solver.store.domains = s.store.domains := by
  have hsince : Since s s.decided [] := { since_mark h with }
  have hdecided : s.decided.Linked := h.courseOf (course_decided s)
  rw [explore_eq] at hok ⊢
  cases hn : dec.narrowing first with
  | error f => simp [hn] at hok
  | ok n =>
    cases hu : s.store.mark.narrow n with
    | error why =>
      cases why with
      | fault f => simp [hn, hu] at hok
      | error c =>
        simp only [hu]
        exact (hsince.reinstated h hdecided).domains_eq
    | ok u =>
      obtain ⟨⟨new, hstep⟩, hdepth⟩ := Enters.step ⟨n, u, hn, hu, rfl⟩ h
      have hentered := hdecided.step hstep
      simp only [hn, hu] at hok ⊢
      cases hres : (search depth (s.entered u)).result with
      | error f => simp [hres] at hok
      | ok found =>
        obtain ⟨⟨xs, hxs, hin⟩, -⟩ := nests_search depth _ found hentered hres
        have hin : ∀ x ∈ xs.map Prod.fst, x.Inside (s.entered u).depth := List.forall_mem_map.2 hin
        have hback := (hsince.step hdecided hstep nofun).path hentered hxs.path fun l hl => by
          have := (hin _ hl).2 l rfl
          omega
        rw [creations_eq_nil hin] at hback
        exact (hback.reinstated h (hentered.path hxs.path)).domains_eq

/-- Both branches of the next decision narrow the domains. -/
theorem exists_effect (h : s.Linked) (hdec : s.store.domains.decision? = some dec) (first : Bool) :
    ∃ n e, dec.narrowing first = .ok n ∧ s.store.domains.narrow n = .ok (some e) := by
  obtain ⟨l, r, hl, hr, hb⟩ := Domains.exists_branches h.valid.wellFormed hdec
  cases first with
  | true =>
    obtain ⟨e, he⟩ := hb.first
    exact ⟨l, e, hl, he⟩
  | false =>
    obtain ⟨e, he⟩ := hb.second
    exact ⟨r, e, hr, he⟩

/-- A branch of the next decision starts with less to decide. -/
private theorem Enters.freedom_lt (hv : s.Enters dec first v) (h : s.Linked)
    (hdec : s.store.domains.decision? = some dec) : v.store.domains.freedom < s.store.domains.freedom := by
  obtain ⟨n, u, hn, hu, rfl⟩ := hv
  obtain ⟨m, e, hm, he⟩ := exists_effect h hdec first
  obtain rfl := Except.ok.inj (hm.symm.trans hn)
  have hdomains : u.domains = e.domains := by
    simp only [Store.narrow, Store.mark, he, Except.ok.injEq] at hu
    rw [← hu]
  change u.domains.freedom < s.store.domains.freedom
  rw [hdomains]
  exact Domains.freedom_of_narrow he

private theorem recurses_step (h : s.Linked) (hdepth : s.store.domains.freedom ≤ depth)
    (hbelow : ∀ k, depth = k + 1 → ∀ v : Solver, v.Linked → v.store.domains.freedom ≤ k →
      Recurses (k + 1) v (search k v)) : Recurses (depth + 1) s (search depth s) := by
  have hpropagate : s.propagate.result = .ok () →
      s.propagate.solver.Linked ∧ s.propagate.solver.store.domains.freedom ≤ depth := by
    intro hok
    exact ⟨h.propagate (by simp [hok]), le_trans (freedom_propagate h hok) hdepth⟩
  -- both branches start with less than what propagation has left
  have hbranch : ∀ {t v : Solver} {k : Nat} {dec : Decision} {first : Bool}, depth = k + 1 → t.Linked →
      t.store.domains.freedom ≤ depth → t.store.domains.decision? = some dec → t.Enters dec first v →
      Recurses (k + 1) v (search k v) := by
    intro t v k dec first hk ht htd hdec hv
    have hlt := hv.freedom_lt ht hdec
    exact hbelow k hk v (hv.linked ht) (by omega)
  have hsearch := searches depth s
  generalize search depth s = o at hsearch
  cases hsearch with
  | fault hf => exact .fault hf
  | contradiction he => exact .contradiction he
  | leaf hok hdec => exact .leaf hok hdec
  | tooDeep hok hdec =>
    -- a decision needs something undecided
    obtain ⟨h1, h2⟩ := hpropagate hok
    obtain ⟨n, e, -, he⟩ := exists_effect h1 hdec true
    have := Domains.freedom_of_narrow he
    omega
  | first hok hdec hleft hf =>
    obtain ⟨h1, h2⟩ := hpropagate hok
    exact .first hok hdec (fun v hv => hbranch rfl h1 h2 hdec hv) hleft hf
  | both hok hdec hleft hfound hright =>
    obtain ⟨h1, h2⟩ := hpropagate hok
    have hlinked := h1.explore (hleft ▸ hfound)
    have hdomains := domains_explore h1 (hleft ▸ hfound)
    rw [hleft] at hlinked hdomains
    refine .both hok hdec (fun v hv => hbranch rfl h1 h2 hdec hv) hleft hfound (fun v hv => ?_) hright
    rw [← hdomains] at h2 hdec
    exact hbranch rfl hlinked h2 hdec hv

/-- A search that may go as deep as there is something undecided is a recursion without a bound. -/
theorem Linked.recurses (h : s.Linked) (hdepth : s.store.domains.freedom ≤ depth) :
    Recurses (depth + 1) s (search depth s) := by
  induction depth generalizing s with
  | zero => exact recurses_step h hdepth fun k hk => nomatch hk
  | succ depth ih =>
    refine recurses_step h hdepth fun k hk v hv hvd => ?_
    obtain rfl := Nat.succ.inj hk
    exact ih hv hvd

/-! ### Both end -/

variable {o : Options} {s₀ : Solver} {ops : List Operation}

/-- Propagation and enumeration end from every state that operations lead to, whatever the propagators do.
Propagation takes no more rounds than propagators wait after the first delivery and are told about changes made in the
rounds; there are no more of these changes than undecided elements and, counted twice, steps between bounds.  The
enumeration makes no more calls inside each other than one and the number of undecided elements and steps between
bounds. -/
theorem ends_within_bounds (h₀ : new? o = .ok s₀) (hs : s₀.performAll ops = .ok s) :
    (∃ rs, s.notify.Drains rs s.notify.drain ∧
      rs.length ≤ s.notify.queue.count + s.watches.pairs (Round.made rs) ∧
      (Round.made rs).length ≤ s.store.domains.undecided + 2 * s.store.domains.width) ∧
    (s.infeasible = true ∧ s.solutions = ⟨.ok [], s⟩ ∨
      ∃ w, s.mark.Recurses (1 + (s.store.domains.undecided + s.store.domains.width)) w ∧
        s.solutions = match w.result with
          | .error f => ⟨.error f, w.solver⟩
          | .ok found => ⟨.ok found, (w.solver.returnTo s.depth).log (.enumerated found.length)⟩) := by
  have h := (linked_new h₀).performAll hs
  constructor
  · have hnotified : s.notify.Linked := h.notified (notified_notify s)
    have hempty : s.notify.store.changes = #[] := by rw [store_notify]
    obtain ⟨rs, hrs⟩ := exists_drains hempty
    obtain ⟨hlength, hmade⟩ := hrs.within hempty
    rw [← hnotified.queue.count_eq, s.held_notify_le.2.1] at hlength
    rw [store_notify] at hmade
    exact ⟨rs, hrs, hlength, hmade⟩
  · cases hinf : s.infeasible with
    | true => exact .inl ⟨rfl, by rw [solutions, if_pos hinf]⟩
    | false =>
      refine .inr ⟨search s.store.domains.freedom s.mark, ?_, solutions_eq hinf⟩
      rw [Nat.add_comm]
      exact h.mark.recurses le_rfl

/-- Takes one from the upper bound of its variable until this is fixed, and watches for what it does itself. -/
private def lowering : Posting where
  propagator :=
    { name := "Lowering"
      text := "Lowering"
      fromScratch := do
        let e ← Action.int ⟨0⟩
        if e.low < e.high ∧ e.high < 5 then Action.atMost ⟨0⟩ (e.high - 1)
      entailment := fun _ => .ok .undetermined }
  registrations := [⟨.int ⟨0⟩, .bounds, ⟨0⟩⟩]

/-- A variable between 0 and 5 that is lowered to 4 from outside. -/
private def descent : List Operation :=
  [.newSet [] [7], .newInt 0 5, .add lowering, .narrow (.atMost ⟨0⟩ 4)]

/-- Each round makes the next one necessary, until the variable is fixed. -/
theorem ends_within_bounds_sample :
    let blank : Solver := { options := {}, queue := .new Priority.count }
    ∃ s rs, blank.performAll descent = .ok s ∧ s.notify.Drains rs s.notify.drain ∧
      rs.length ≤ 1 + s.watches.pairs (Round.made rs) ∧ (Round.made rs).length ≤ 9 ∧
      s.notify.drain.solver.store.domains.ints.toList = [⟨0, 0, by decide⟩] ∧ ∃ w, s.mark.Recurses 6 w := by
  intro blank
  have hs : blank.performAll descent = .ok (blank.past descent) := performAll_eq (by decide +kernel)
  obtain ⟨⟨rs, hrs, hlength, hmade⟩, hsearch⟩ := ends_within_bounds (o := {}) rfl hs
  have hcount : (blank.past descent).notify.queue.count = 1 := by decide +kernel
  have hundecided : (blank.past descent).store.domains.undecided = 1 := by decide +kernel
  have hwidth : (blank.past descent).store.domains.width = 4 := by decide +kernel
  have hfeasible : (blank.past descent).infeasible = false := by decide +kernel
  rw [hcount] at hlength
  rw [hundecided, hwidth] at hmade hsearch
  refine ⟨_, rs, hs, hrs, hlength, hmade, by decide +kernel, ?_⟩
  rcases hsearch with ⟨hinf, -⟩ | ⟨w, hw, -⟩
  · simp [hfeasible] at hinf
  · exact ⟨w, hw⟩

end Solver

end SetConstraints
