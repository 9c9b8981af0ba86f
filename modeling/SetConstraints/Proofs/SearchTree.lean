import SetConstraints.Proofs.Termination

/-!
# The tree of a search

A successful search is a binary tree.  It ends in contradictions and solutions, and both branches of each decision are
entered (`Solver.Linked.unfolds`): a decision is about something that propagation has left undecided, and coming back
from the first branch restores the domains in which it was taken.  The counters of the solver follow the tree node by
node (`Solver.Unfolds.tally_eq`), so they fit together as leaves and inner nodes of a binary tree do
(`Solver.counters_account`).
-/

namespace SetConstraints

/-- The tree of a search. -/
inductive SearchTree
  | contradiction
  | solution (a : Assignment)
  | decision (dec : Decision) (first second : SearchTree)

namespace SearchTree

/-- The solutions, in the order in which they are found. -/
def solutions : SearchTree → List Assignment
  | contradiction => []
  | solution a => [a]
  | decision _ first second => first.solutions ++ second.solutions

/-- The number of contradictions. -/
def contradictions : SearchTree → Nat
  | contradiction => 1
  | solution _ => 0
  | decision _ first second => first.contradictions + second.contradictions

/-- The number of nodes at which a decision is taken. -/
def decisions : SearchTree → Nat
  | contradiction => 0
  | solution _ => 0
  | decision _ first second => first.decisions + second.decisions + 1

/-- A binary tree has one leaf more than inner nodes. -/
theorem leaves_eq (t : SearchTree) : t.contradictions + t.solutions.length = t.decisions + 1 := by
  induction t with
  | contradiction => rfl
  | solution a => rfl
  | decision dec first second ih ih' =>
    simp only [contradictions, solutions, decisions, List.length_append]
    omega

end SearchTree

/-- The counters that a search moves. -/
@[ext]
structure Tally where
  contradictions : Nat
  decisions : Nat
  solutions : Nat

namespace Tally

instance : Add Tally :=
  ⟨fun a b => ⟨a.contradictions + b.contradictions, a.decisions + b.decisions, a.solutions + b.solutions⟩⟩

variable (a b : Tally)

@[simp] theorem contradictions_add : (a + b).contradictions = a.contradictions + b.contradictions := rfl

@[simp] theorem decisions_add : (a + b).decisions = a.decisions + b.decisions := rfl

@[simp] theorem solutions_add : (a + b).solutions = a.solutions + b.solutions := rfl

end Tally

/-- What the nodes of a tree add to the counters; a decision counts once for each of its branches. -/
def SearchTree.tally (t : SearchTree) : Tally := ⟨t.contradictions, 2 * t.decisions, t.solutions.length⟩

namespace Solver

variable {s t u v : Solver} {p : PropagatorId} {depth : Nat} {dec : Decision} {first : Bool} {tree : SearchTree}
  {found : List Assignment}

/-! ### The counters -/

def tally (s : Solver) : Tally := ⟨s.statistics.contradictions, s.statistics.decisions, s.statistics.solutions⟩

theorem tally_notify (s : Solver) : s.notify.tally = s.tally := by
  rw [(notified_notify s).eq_with]
  rfl

private theorem tally_runDeltas (p : PropagatorId) (a : Agent) (ds : List (Slot × Delta)) (s : Solver) :
    (s.runDeltas p a ds).solver.tally = s.tally := by
  induction ds generalizing s with
  | nil => rfl
  | cons d ds ih =>
    obtain ⟨slot, delta⟩ := d
    have hhanded : (s.handed p a slot delta ds).tally = s.tally := rfl
    rw [runDeltas_cons]
    split
    · exact hhanded
    · split
      · exact hhanded
      · exact (ih _).trans hhanded

/-- Runs of propagators are no contradictions, decisions or solutions yet. -/
theorem tally_runAgent (s : Solver) (p : PropagatorId) : (s.runAgent p).solver.tally = s.tally := by
  cases ha : s.agents.get? p with
  | none => simp only [runAgent, ha]
  | some a =>
    have hcalls : (s.calls p a).solver.tally = s.tally := by
      unfold calls
      split
      · rfl
      · exact tally_runDeltas p a _ s
    rw [runAgent_eq ha]
    split
    · exact hcalls
    · split
      · exact hcalls
      · exact hcalls

theorem tally_giveUp (s : Solver) (p : PropagatorId) (e : Contradiction) :
    (s.giveUp p e).tally = s.tally + ⟨1, 0, 0⟩ := by
  simp only [giveUp]
  split <;> rfl

/-- A loop counts the contradiction in which it ends, and nothing else. -/
theorem tally_drain (s : Solver) :
    (s.drain.result = .ok () → s.drain.solver.tally = s.tally) ∧
      ∀ e, s.drain.result = .error (.error e) → s.drain.solver.tally = s.tally + ⟨1, 0, 0⟩ := by
  have hrun : ∀ (t : Solver) p q, (({ t with queue := q } : Solver).runAgent p).solver.tally = t.tally :=
    fun t p q => tally_runAgent { t with queue := q } p
  obtain ⟨t, ht, hstops⟩ := exists_stops (I := fun t => t.tally = s.tally)
    (fun t p q ht _ _ => by rw [tally_notify, hrun, ht]) rfl
  generalize s.drain = o at hstops
  cases hstops with
  | empty hpop => exact ⟨fun _ => ht, nofun⟩
  | contradiction hpop herr => exact ⟨nofun, fun _ _ => by rw [tally_giveUp, hrun, ht]⟩
  | fault hpop herr => exact ⟨nofun, nofun⟩

theorem tally_propagate (h : s.Linked) :
    (s.propagate.result = .ok () → s.propagate.solver.tally = s.tally) ∧
      ∀ e, s.propagate.result = .error (.error e) → s.propagate.solver.tally = s.tally + ⟨1, 0, 0⟩ := by
  obtain ⟨hok, herr⟩ := tally_drain s.notify
  rw [tally_notify] at hok herr
  have hdrain := (h.notified (notified_notify s)).drain (by rw [store_notify])
  rcases propagate_cases hdrain.valid.wellFormed with ⟨j, hj⟩ | ⟨-, -, f, hf⟩
  · rw [hj]
    exact ⟨hok, herr⟩
  · rw [hf]
    exact ⟨nofun, nofun⟩

theorem tally_returnTo (h : s.Linked) {level : Nat} (hl : level ≤ s.depth) : (s.returnTo level).tally = s.tally := by
  rw [(returned_returnTo h hl).eq_with]
  rfl

theorem Enters.tally_eq (hv : s.Enters dec first v) : v.tally = s.tally + ⟨0, 1, 0⟩ := by
  obtain ⟨n, u, -, -, rfl⟩ := hv
  rfl

/-! ### The tree of a search -/

/-- Both branches of the next decision can be entered. -/
theorem exists_enters (h : s.Linked) (hdec : s.store.domains.decision? = some dec) (first : Bool) :
    ∃ v, s.Enters dec first v := by
  obtain ⟨n, e, hn, he⟩ := exists_effect h hdec first
  exact ⟨_, n, _, hn, by simp only [Store.narrow, Store.mark, he]; rfl, rfl⟩

/-- A search from `s` unfolds to a tree and ends in a solver.  At a decision each branch is entered, and left when it
has been searched. -/
inductive Unfolds : Solver → SearchTree → Solver → Prop
  | contradiction {s : Solver} {e : Contradiction} (he : s.propagate.result = .error (.error e)) :
      Unfolds s .contradiction s.propagate.solver
  | solution {s : Solver} {a : Assignment} (hok : s.propagate.result = .ok ())
      (hdec : s.propagate.solver.store.domains.decision? = none)
      (ha : s.propagate.solver.store.domains.assignment? = .ok a) :
      Unfolds s (.solution a) s.propagate.solver.counted
  | decision {s v w t u : Solver} {dec : Decision} {first second : SearchTree} (hok : s.propagate.result = .ok ())
      (hdec : s.propagate.solver.store.domains.decision? = some dec) (hv : s.propagate.solver.Enters dec true v)
      (hfirst : Unfolds v first t) (hw : (t.returnTo s.propagate.solver.depth).Enters dec false w)
      (hsecond : Unfolds w second u) :
      Unfolds s (.decision dec first second) (u.returnTo (t.returnTo s.propagate.solver.depth).depth)

/-- A branch that can be entered is searched from there, and left again. -/
private theorem explore_ok_of_enters {search : Solver → Outcome Fault (List Assignment)} (hv : s.Enters dec first v)
    (hok : (s.explore search dec first).result = .ok found) :
    (search v).result = .ok found ∧ (s.explore search dec first).solver = (search v).solver.returnTo s.depth := by
  obtain ⟨n, u, hn, hu, rfl⟩ := hv
  rw [explore_eq] at hok ⊢
  simp only [hn, hu] at hok ⊢
  cases hres : (search (s.entered u)).result with
  | error f => simp [hres] at hok
  | ok more =>
    obtain rfl : more = found := by simpa [hres] using hok
    exact ⟨rfl, rfl⟩

private theorem unfolds_step (h : s.Linked) (hok : (search depth s).result = .ok found)
    (hbelow : ∀ k, depth = k + 1 → ∀ (v : Solver) found, v.Linked → (search k v).result = .ok found →
      ∃ tree, v.Unfolds tree (search k v).solver ∧ tree.solutions = found) :
    ∃ tree, s.Unfolds tree (search depth s).solver ∧ tree.solutions = found := by
  have hsearch := searches depth s
  generalize search depth s = o at hsearch hok
  cases hsearch with
  | fault hf => cases hok
  | contradiction he => exact ⟨_, .contradiction he, Except.ok.inj hok⟩
  | leaf hprop hdec =>
    obtain ⟨a, ha, rfl, hcounted⟩ := leaf_ok hok
    refine ⟨.solution a, ?_, rfl⟩
    rw [hcounted]
    exact .solution hprop hdec ha
  | tooDeep _ _ => cases hok
  | first _ _ _ _ => cases hok
  | @both depth dec left right before hprop hdec hleft hfound hright =>
    cases hres : right.result with
    | error f => simp [hres, Except.map] at hok
    | ok after =>
      obtain rfl : before ++ after = found := by simpa [hres, Except.map] using hok
      have hlinked : s.propagate.solver.Linked := h.propagate (by simp [hprop])
      obtain ⟨v, hv⟩ := exists_enters hlinked hdec true
      subst hleft
      obtain ⟨h1, h2⟩ := explore_ok_of_enters hv hfound
      obtain ⟨first, hfirst, rfl⟩ := hbelow _ rfl v before (hv.linked hlinked) h1
      -- the second branch starts in the domains in which the decision was taken
      have hback := hlinked.explore hfound
      obtain ⟨w, hw⟩ := exists_enters hback (domains_explore hlinked hfound ▸ hdec) false
      subst hright
      obtain ⟨h3, h4⟩ := explore_ok_of_enters hw hres
      obtain ⟨second, hsecond, rfl⟩ := hbelow _ rfl w after (hw.linked hback) h3
      rw [h2] at h4 hw
      refine ⟨.decision dec first second, ?_, rfl⟩
      rw [h2, h4]
      exact .decision hprop hdec hv hfirst hw hsecond

/-- A search that finds solutions unfolds to a tree with these solutions. -/
theorem Linked.unfolds (h : s.Linked) (hok : (search depth s).result = .ok found) :
    ∃ tree, s.Unfolds tree (search depth s).solver ∧ tree.solutions = found := by
  induction depth generalizing s found with
  | zero => exact unfolds_step h hok fun k hk => nomatch hk
  | succ depth ih =>
    refine unfolds_step h hok fun k hk v found hv hfound => ?_
    obtain rfl := Nat.succ.inj hk
    exact ih hv hfound

/-- A branch is left for the level on which its decision was taken; the decision is counted, and what is found
below. -/
private theorem back_of_enters (h : s.Linked) (hv : s.Enters dec first v) (ht : t.Linked) (hdepth : t.depth = v.depth)
    (htally : t.tally = v.tally + tree.tally) :
    (t.returnTo s.depth).Linked ∧ (t.returnTo s.depth).depth = s.depth ∧
      (t.returnTo s.depth).tally = s.tally + ⟨0, 1, 0⟩ + tree.tally := by
  have hl : s.depth ≤ t.depth := by
    rw [hdepth, (hv.step h).2]
    exact Nat.le_succ _
  exact ⟨ht.returned hl (returned_returnTo ht hl), ht.depth_returnTo hl, by
    rw [tally_returnTo ht hl, htally, hv.tally_eq]⟩

/-- The counters follow the tree. -/
theorem Unfolds.tally_eq (ht : s.Unfolds tree t) (h : s.Linked) :
    t.Linked ∧ t.depth = s.depth ∧ t.tally = s.tally + tree.tally := by
  induction ht with
  | @contradiction s e he =>
    have hf : ∀ f, s.propagate.result ≠ .error (.fault f) := by simp [he]
    exact ⟨h.propagate hf, (course_propagate h hf).depth_eq h, (tally_propagate h).2 _ he⟩
  | @solution s a hok hdec ha =>
    have hf : ∀ f, s.propagate.result ≠ .error (.fault f) := by simp [hok]
    refine ⟨{ h.propagate hf with }, (course_propagate h hf).depth_eq h, ?_⟩
    rw [← (tally_propagate h).1 hok]
    rfl
  | @decision s v w t u dec first second hok hdec hv hfirst hw hsecond ih ih' =>
    have hf : ∀ f, s.propagate.result ≠ .error (.fault f) := by simp [hok]
    have hp := h.propagate hf
    obtain ⟨h1, h2, h3⟩ := ih (hv.linked hp)
    obtain ⟨h4, h5, h6⟩ := back_of_enters hp hv h1 h2 h3
    obtain ⟨h7, h8, h9⟩ := ih' (hw.linked h4)
    obtain ⟨h10, h11, h12⟩ := back_of_enters h4 hw h7 h8 h9
    refine ⟨h10, h11.trans (h5.trans ((course_propagate h hf).depth_eq h)), ?_⟩
    rw [h12, h6, (tally_propagate h).1 hok]
    ext <;> simp [SearchTree.tally, SearchTree.contradictions, SearchTree.decisions, SearchTree.solutions] <;> omega

/-! ### Enumerations -/

/-- A search propagates in solvers whose parts agree. -/
private theorem Linked.visits (h : s.Linked) (hu : Visits depth s u) : u.Linked := by
  induction hu with
  | here => exact h
  | first hok hdec henter _ ih => exact ih (henter.linked (h.propagate (by simp [hok])))
  | second hok hdec hleft hfound henter _ ih =>
    subst hleft
    exact ih (henter.linked ((h.propagate (by simp [hok])).explore hfound))

/-- The counters of an enumeration that returns account for its tree. -/
private theorem Linked.tree_of_solutions (h : s.Linked) (hinf : s.infeasible = false)
    (hok : s.solutions.result = .ok found) : ∃ tree t, s.mark.Unfolds tree t ∧ tree.solutions = found ∧
      s.solutions.solver.tally = s.tally + tree.tally := by
  rw [solutions_eq hinf] at hok ⊢
  cases hres : (search s.store.domains.freedom s.mark).result with
  | error f => simp [hres] at hok
  | ok more =>
    obtain rfl : more = found := by simpa [hres] using hok
    obtain ⟨tree, htree, hsolutions⟩ := h.mark.unfolds hres
    obtain ⟨ht, hdepth, htally⟩ := htree.tally_eq h.mark
    have hmark : s.mark.depth = s.depth + 1 := rfl
    refine ⟨tree, _, htree, hsolutions, ?_⟩
    simp only
    exact (tally_returnTo ht (by omega)).trans htally

variable {o : Options} {s₀ : Solver} {ops : List Operation}

/-- From every state that operations lead to, whatever the propagators do, an enumeration that returns unfolds to a
tree.  It has counted each of its solutions, two branches for each of its decisions and each of its contradictions, so
that these add up as the leaves of a binary tree do.  For wherever a search goes, each of the two branches of a
decision narrows the domains without a contradiction, the second one after the first has returned, and where nothing
is left to decide, every variable has its value. -/
theorem counters_account (h₀ : new? o = .ok s₀) (hs : s₀.performAll ops = .ok s) (hinf : s.infeasible = false) :
    (∀ found, s.solutions.result = .ok found → ∃ tree t d c, s.mark.Unfolds tree t ∧ tree.solutions = found ∧
      d = 2 * tree.decisions ∧ c = tree.contradictions ∧
      s.solutions.solver.statistics.solutions = s.statistics.solutions + found.length ∧
      s.solutions.solver.statistics.decisions = s.statistics.decisions + d ∧
      s.solutions.solver.statistics.contradictions = s.statistics.contradictions + c ∧
      c + found.length = d / 2 + 1) ∧
    ∀ u, Visits s.store.domains.freedom s.mark u → u.propagate.result = .ok () →
      (u.propagate.solver.store.domains.decision? = none →
        ∃ a, u.propagate.solver.store.domains.assignment? = .ok a) ∧
      ∀ dec, u.propagate.solver.store.domains.decision? = some dec →
        (∃ v, u.propagate.solver.Enters dec true v) ∧
        ∀ k left found, u.propagate.solver.explore (search k) dec true = left → left.result = .ok found →
          ∃ v, left.solver.Enters dec false v := by
  have h := (linked_new h₀).performAll hs
  constructor
  · intro found hok
    obtain ⟨tree, t, htree, rfl, htally⟩ := h.tree_of_solutions hinf hok
    have hleaves := tree.leaves_eq
    exact ⟨tree, t, _, _, htree, rfl, rfl, rfl, congrArg Tally.solutions htally, congrArg Tally.decisions htally,
      congrArg Tally.contradictions htally, by omega⟩
  · intro u hu hok
    have hlinked := (h.mark.visits hu).propagate (by simp [hok])
    refine ⟨fun hdec => ?_, fun dec hdec => ⟨exists_enters hlinked hdec true, fun k left found hleft hfound => ?_⟩⟩
    · obtain ⟨a, ha, -⟩ := Domains.exists_assignment hlinked.valid.wellFormed hdec
      exact ⟨a, ha⟩
    · subst hleft
      exact exists_enters (hlinked.explore hfound) (domains_explore hlinked hfound ▸ hdec) false

/-- Gives up as soon as 1 is in its set. -/
private def averse : Posting where
  propagator :=
    { name := "Averse"
      text := "Averse"
      fromScratch := do if (← Action.set ⟨0⟩).requires 1 then Action.fail "Averse"
      entailment := fun _ => .ok .satisfied }
  registrations := [⟨.set ⟨0⟩, .kernel, ⟨0⟩⟩]

/-- Two open elements and a step between bounds, and a search that has been counted before. -/
private def aversion : List Operation := [.newSet [] [1, 2], .newInt 0 1, .add averse, .solutions]

/-- With 1 in the set there is a contradiction, and without it there are four solutions; the counters have moved by as
much before. -/
theorem counters_account_sample :
    let blank : Solver := { options := {}, queue := .new Priority.count }
    ∃ s tree t, blank.performAll aversion = .ok s ∧ s.infeasible = false ∧ s.mark.Unfolds tree t ∧
      tree.solutions = [⟨[[2]], [0]⟩, ⟨[[2]], [1]⟩, ⟨[[]], [0]⟩, ⟨[[]], [1]⟩] ∧ tree.contradictions = 1 ∧
      s.solutions.solver.statistics.contradictions = 2 ∧ s.solutions.solver.statistics.decisions = 16 ∧
      s.solutions.solver.statistics.solutions = 8 := by
  intro blank
  have hs : blank.performAll aversion = .ok (blank.past aversion) := performAll_eq (by decide +kernel)
  have hfeasible : (blank.past aversion).infeasible = false := by decide +kernel
  have hfound : (blank.past aversion).solutions.result =
      .ok [⟨[[2]], [0]⟩, ⟨[[2]], [1]⟩, ⟨[[]], [0]⟩, ⟨[[]], [1]⟩] := by decide +kernel
  have hbefore :
      (blank.past aversion).statistics.contradictions = 1 ∧ (blank.past aversion).statistics.decisions = 8 ∧
      (blank.past aversion).statistics.solutions = 4 := by decide +kernel
  have hafter : (blank.past aversion).solutions.solver.statistics.contradictions = 2 := by decide +kernel
  obtain ⟨tree, t, d, c, htree, hsolutions, hd, rfl, h1, h2, h3, h4⟩ :=
    (counters_account (o := {}) rfl hs hfeasible).1 _ hfound
  rw [hbefore.2.2] at h1
  rw [hbefore.2.1] at h2
  rw [hbefore.1, hafter] at h3
  simp only [List.length_cons, List.length_nil] at h1 h4
  exact ⟨_, tree, t, hs, hfeasible, htree, hsolutions, by omega, hafter, by omega, h1⟩

end Solver

end SetConstraints
