import SetConstraints.Proofs.Decision
import SetConstraints.Proofs.Solver.Fixpoint

/-!
# Searching for all solutions

A branch of the search is explored on a level of its own, so that coming back restores the store and covers all
constraints again (`Solver.Hosts.back`).  From a solver that covers its constraints the search finds exactly the
assignments within the domains that satisfy all constraints, in order (`Solver.Ready.search`): propagation loses none
of them, a decision has each on one of its sides, and where no decision is left, one assignment is, at which all rules
are stable.  The number of open elements and steps between bounds shrinks with every decision, so the depth suffices.
-/

namespace SetConstraints

namespace Solver

variable {s t u v : Solver} {cs : List Constraint} {P : Narrowing → Prop} {depth : Nat} {dec : Decision}
  {first : Bool}
  {found : List Assignment}

/-! ### Branches -/

/-- A solver on a new level, where a decision is counted. -/
def decided (s : Solver) : Solver :=
  { s.mark with statistics := { s.statistics with decisions := s.statistics.decisions + 1 } }

/-- The solver in which a branch is searched, once the decision has narrowed the store. -/
def entered (s : Solver) (u : Store) : Solver := { s.decided with store := u }

theorem explore_eq (s : Solver) (search : Solver → Outcome Fault (List Assignment)) (dec : Decision) (first : Bool) :
    s.explore search dec first =
      match dec.narrowing first with
      | .error f => ⟨.error f, s.decided⟩
      | .ok n =>
        match s.store.mark.narrow n with
        | .error (.fault f) => ⟨.error f, s.decided⟩
        | .error (.error _) => ⟨.ok [], s.decided.returnTo s.depth⟩
        | .ok u =>
          match (search (s.entered u)).result with
          | .error f => ⟨.error f, (search (s.entered u)).solver⟩
          | .ok found => ⟨.ok found, (search (s.entered u)).solver.returnTo s.depth⟩ := by
  unfold explore
  cases dec.narrowing first with
  | error f => rfl
  | ok n =>
    simp only [narrow]
    have hstore : s.mark.store.narrow n = s.store.mark.narrow n := rfl
    rw [hstore]
    cases s.store.mark.narrow n with
    | error why => cases why <;> rfl
    | ok u => rfl

/-- The solver has the store that it had before, without pending changes. -/
structure Restored (s t : Solver) : Prop where
  store_eq : t.store = { s.store with changes := #[] }
  options_eq : t.options = s.options
  infeasible_eq : t.infeasible = s.infeasible

theorem Restored.domains_eq (h : Restored s t) : t.store.domains = s.store.domains := by rw [h.store_eq]

/-- Coming back from a level restores the store and covers all constraints. -/
theorem Hosts.back (h : t.Hosts cs) (hadv : Advanced P s.mark t) :
    (t.returnTo s.depth).Ready cs ∧ Restored s (t.returnTo s.depth) := by
  have hdepth : t.depth = s.depth + 1 := hadv.narrower.depth_eq
  have hret : Returned s.depth t (t.returnTo s.depth) := returned_returnTo h.toLinked (by omega)
  refine ⟨h.ready_returnTo (by omega), ?_, ?_, ?_⟩
  · rw [hret.eq_with]
    show t.store.rewind s.depth = _
    have hmark : s.mark.store = s.store.mark := rfl
    rw [hadv.narrower.rewind_eq s.depth (Nat.lt_succ_self _), hmark, depth, Store.rewind_mark le_rfl,
      Store.rewind_depth]
  · rw [hret.eq_with]
    exact hadv.options_eq
  · rw [hret.eq_with]
    exact hadv.infeasible_eq

/-- A search that hosts the constraints and narrows domains only. -/
def Sound (cs : List Constraint) (search : Solver → Outcome Fault (List Assignment)) : Prop :=
  ∀ t found, t.Hosts cs → (search t).result = .ok found →
    (search t).solver.Hosts cs ∧ Advanced (fun _ => True) t (search t).solver

theorem Hosts.decided (h : s.Hosts cs) : s.decided.Hosts cs := { h.mark with }

theorem Hosts.entered (h : s.Hosts cs) {n : Narrowing} {w : Store} (hn : s.store.mark.narrow n = .ok w) :
    (s.entered w).Hosts cs := by
  obtain ⟨new, hnew⟩ := h.mark.exists_narrowed hn
  exact h.decided.narrowed hnew

/-- After the exploration of a branch the store is as before, and all constraints are covered. -/
theorem Hosts.explore {search : Solver → Outcome Fault (List Assignment)} (h : s.Hosts cs) (hsearch : Sound cs search)
    (hok : (s.explore search dec first).result = .ok found) :
    (s.explore search dec first).solver.Ready cs ∧ Restored s (s.explore search dec first).solver := by
  rw [explore_eq] at hok ⊢
  cases hn : dec.narrowing first with
  | error f => simp [hn] at hok
  | ok n =>
    cases hu : s.store.mark.narrow n with
    | error why =>
      cases why with
      | fault f => simp [hn, hu] at hok
      | error c =>
        simp only [hu]
        exact h.decided.back (P := fun _ => True) ⟨.refl h.valid.wellFormed, rfl, rfl⟩
    | ok u =>
      obtain ⟨new, hnew⟩ := h.mark.exists_narrowed hu
      simp only [hn, hu] at hok ⊢
      cases hres : (search (s.entered u)).result with
      | error f => simp [hres] at hok
      | ok found =>
        obtain ⟨h1, h2⟩ := hsearch _ found (h.entered hu) hres
        exact h1.back (P := fun _ => True) ⟨hnew.toNarrower.trans h2.narrower, h2.options_eq, h2.infeasible_eq⟩

/-! ### The search -/

/-- How a search goes on after propagation. -/
inductive Searches (s : Solver) : Nat → Outcome Fault (List Assignment) → Prop
  | fault {depth : Nat} {f : Fault} (hf : s.propagate.result = .error (.fault f)) :
      Searches s depth ⟨.error f, s.propagate.solver⟩
  | contradiction {depth : Nat} {e : Contradiction} (he : s.propagate.result = .error (.error e)) :
      Searches s depth ⟨.ok [], s.propagate.solver⟩
  | leaf {depth : Nat} (hok : s.propagate.result = .ok ())
      (hdec : s.propagate.solver.store.domains.decision? = none) : Searches s depth s.propagate.solver.leaf
  | tooDeep {dec : Decision} (hok : s.propagate.result = .ok ())
      (hdec : s.propagate.solver.store.domains.decision? = some dec) :
      Searches s 0 ⟨.error .searchTooDeep, s.propagate.solver⟩
  | first {depth : Nat} {dec : Decision} {left : Outcome Fault (List Assignment)} {f : Fault}
      (hok : s.propagate.result = .ok ()) (hdec : s.propagate.solver.store.domains.decision? = some dec)
      (hleft : s.propagate.solver.explore (search depth) dec true = left) (hf : left.result = .error f) :
      Searches s (depth + 1) ⟨.error f, left.solver⟩
  | both {depth : Nat} {dec : Decision} {left right : Outcome Fault (List Assignment)} {found : List Assignment}
      (hok : s.propagate.result = .ok ()) (hdec : s.propagate.solver.store.domains.decision? = some dec)
      (hleft : s.propagate.solver.explore (search depth) dec true = left) (hfound : left.result = .ok found)
      (hright : left.solver.explore (search depth) dec false = right) :
      Searches s (depth + 1) ⟨right.result.map (found ++ ·), right.solver⟩

theorem searches (depth : Nat) (s : Solver) : s.Searches depth (search depth s) := by
  cases hres : s.propagate.result with
  | error e =>
    cases e with
    | fault f =>
      have heq : search depth s = ⟨.error f, s.propagate.solver⟩ := by cases depth <;> simp only [search, hres]
      exact heq ▸ .fault hres
    | error e =>
      have heq : search depth s = ⟨.ok [], s.propagate.solver⟩ := by cases depth <;> simp only [search, hres]
      exact heq ▸ .contradiction hres
  | ok x =>
    cases hdec : s.propagate.solver.store.domains.decision? with
    | none =>
      have heq : search depth s = s.propagate.solver.leaf := by cases depth <;> simp only [search, hres, hdec]
      exact heq ▸ .leaf hres hdec
    | some dec =>
      cases depth with
      | zero =>
        have heq : search 0 s = ⟨.error .searchTooDeep, s.propagate.solver⟩ := by simp only [search, hres, hdec]
        exact heq ▸ .tooDeep hres hdec
      | succ depth =>
        cases hleft : (s.propagate.solver.explore (search depth) dec true).result with
        | error f =>
          have heq : search (depth + 1) s =
              ⟨.error f, (s.propagate.solver.explore (search depth) dec true).solver⟩ := by
            rw [search]
            simp only [hres, hdec, hleft]
          exact heq ▸ .first hres hdec rfl hleft
        | ok found =>
          let right := (s.propagate.solver.explore (search depth) dec true).solver.explore (search depth) dec false
          have heq : search (depth + 1) s = ⟨right.result.map (found ++ ·), right.solver⟩ := by
            rw [search]
            simp only [hres, hdec, hleft, right]
          exact heq ▸ .both hres hdec rfl hleft rfl

/-- A solver at which a solution is counted. -/
def counted (s : Solver) : Solver :=
  { s with statistics := { s.statistics with solutions := s.statistics.solutions + 1 } }

/-- What the check of a solution finds. -/
private def leafFault? (s : Solver) : Option Fault :=
  if s.options.checks then
    match s.entailmentOfAll with
    | .error f => some f
    | .ok e => if e = .satisfied then none else some .leafNotSatisfied
  else none

private theorem leaf_eq (s : Solver) : s.leaf =
    match s.leafFault? with
    | some f => ⟨.error f, s⟩
    | none =>
      match s.store.domains.assignment? with
      | .error f => ⟨.error f, s.counted⟩
      | .ok a => ⟨.ok [a], s.counted⟩ := rfl

theorem solver_leaf (s : Solver) : s.leaf.solver = s ∨ s.leaf.solver = s.counted := by
  rw [leaf_eq]
  cases s.leafFault? with
  | some f => exact .inl rfl
  | none =>
    simp only
    cases s.store.domains.assignment? with
    | error f => exact .inr rfl
    | ok a => exact .inr rfl

theorem Hosts.leaf (h : s.Hosts cs) : s.leaf.solver.Hosts cs ∧ Advanced P s s.leaf.solver := by
  rcases solver_leaf s with heq | heq
  · rw [heq]
    exact ⟨h, .refl h.valid.wellFormed⟩
  · rw [heq]
    exact ⟨{ h with }, .refl h.valid.wellFormed, rfl, rfl⟩

private theorem Restored.advanced (h : Restored s t) (hs : s.store.domains.WellFormed) : Advanced P s t := by
  refine ⟨?_, h.options_eq, h.infeasible_eq⟩
  rw [h.store_eq]
  exact (Store.Narrower.refl hs).of_changes s.store.changes #[]

private theorem sound_step (hbelow : ∀ k, depth = k + 1 → Sound cs (search k)) : Sound cs (search depth) := by
  intro s found h hok
  have hpropagate : (∀ f, s.propagate.result ≠ .error (.fault f)) →
      s.propagate.solver.Hosts cs ∧ Advanced (fun _ => True) s s.propagate.solver := fun hf => by
    obtain ⟨h1, h2⟩ := h.propagate hf
    exact ⟨h1, h2.narrower.imp fun _ _ => trivial, h2.options_eq, h2.infeasible_eq⟩
  have hsearch := searches depth s
  generalize search depth s = o at hsearch hok
  cases hsearch with
  | fault hf => cases hok
  | contradiction he => exact hpropagate (by simp [he])
  | leaf hprop hdec =>
    obtain ⟨h1, h2⟩ := hpropagate (by simp [hprop])
    obtain ⟨h3, h4⟩ := h1.leaf (P := fun _ => True)
    exact ⟨h3, h2.trans h4⟩
  | tooDeep _ _ => cases hok
  | first _ _ _ _ => cases hok
  | both hprop hdec hleft hfound hright =>
    obtain ⟨h1, h2⟩ := hpropagate (by simp [hprop])
    obtain ⟨h3, h4⟩ := h1.explore (hbelow _ rfl) (hleft ▸ hfound)
    rw [hleft] at h3 h4
    rename_i left right _
    cases hres : right.result with
    | error f => simp [hres, Except.map] at hok
    | ok more =>
      obtain ⟨h5, h6⟩ := h3.toHosts.explore (hbelow _ rfl) (hright ▸ hres)
      rw [hright] at h5 h6
      exact ⟨h5.toHosts, h2.trans ((h4.advanced h1.valid.wellFormed).trans (h6.advanced h3.valid.wellFormed))⟩

/-- Searching goes on hosting the constraints, and ends on the level where it began. -/
theorem sound_search (cs : List Constraint) (depth : Nat) : Sound cs (search depth) := by
  induction depth with
  | zero => exact sound_step fun k hk => nomatch hk
  | succ depth ih =>
    refine sound_step fun k hk => ?_
    obtain rfl := Nat.succ.inj hk
    exact ih

theorem solutions_eq (hinf : s.infeasible = false) :
    s.solutions =
      match (search s.store.domains.freedom s.mark).result with
      | .error f => ⟨.error f, (search s.store.domains.freedom s.mark).solver⟩
      | .ok found => ⟨.ok found, ((search s.store.domains.freedom s.mark).solver.returnTo s.depth).log
          (.enumerated found.length)⟩ := by
  rw [solutions, if_neg (by simp [hinf])]
  rfl

/-- The enumeration restores the store and covers all constraints, unless the solver is infeasible. -/
theorem Hosts.solutions (h : s.Hosts cs) (hok : s.solutions.result = .ok found) :
    s.infeasible = true ∧ s.solutions.solver = s ∨ s.solutions.solver.Ready cs ∧ Restored s s.solutions.solver := by
  cases hinf : s.infeasible with
  | true => exact .inl ⟨rfl, by rw [Solver.solutions, if_pos hinf]⟩
  | false =>
    refine .inr ?_
    rw [solutions_eq hinf] at hok ⊢
    cases hres : (search s.store.domains.freedom s.mark).result with
    | error f => simp [hres] at hok
    | ok found =>
      obtain ⟨h1, h2⟩ := sound_search cs _ s.mark found h.mark hres
      obtain ⟨h3, h4⟩ := h1.back h2
      exact ⟨{ h3 with }, h4.store_eq, h4.options_eq, h4.infeasible_eq⟩

/-! ### The states in which a search propagates -/

/-- A search that explores a branch from `s` goes on in `v`. -/
def Enters (s : Solver) (dec : Decision) (first : Bool) (v : Solver) : Prop :=
  ∃ n u, dec.narrowing first = .ok n ∧ s.store.mark.narrow n = .ok u ∧ v = s.entered u

/-- A search from `s` propagates in `u`. -/
inductive Visits : Nat → Solver → Solver → Prop
  | here {depth : Nat} {s : Solver} : Visits depth s s
  | first {depth : Nat} {s v u : Solver} {dec : Decision} (hok : s.propagate.result = .ok ())
      (hdec : s.propagate.solver.store.domains.decision? = some dec)
      (henter : s.propagate.solver.Enters dec true v) (h : Visits depth v u) : Visits (depth + 1) s u
  | second {depth : Nat} {s v u : Solver} {dec : Decision} {left : Outcome Fault (List Assignment)}
      {found : List Assignment} (hok : s.propagate.result = .ok ())
      (hdec : s.propagate.solver.store.domains.decision? = some dec)
      (hleft : s.propagate.solver.explore (search depth) dec true = left) (hfound : left.result = .ok found)
      (henter : left.solver.Enters dec false v) (h : Visits depth v u) : Visits (depth + 1) s u

theorem Ready.decided (h : s.Ready cs) : s.decided.Ready cs := { h.mark with }

theorem Ready.entered (h : s.Ready cs) {n : Narrowing} {w : Store} (hn : s.store.mark.narrow n = .ok w) :
    (s.entered w).Ready cs := by
  obtain ⟨new, hnew⟩ := h.mark.exists_narrowed hn
  exact h.decided.narrowed hnew

/-- A search from a solver that covers its constraints propagates only in such solvers. -/
theorem Ready.visits (h : s.Ready cs) (hv : Visits depth s u) : u.Ready cs := by
  induction hv with
  | here => exact h
  | first hok hdec henter _ ih =>
    obtain ⟨n, w, -, hn, rfl⟩ := henter
    exact ih (((h.propagate hok).ready (h.toHosts.propagate (by simp [hok])).1).entered hn)
  | second hok hdec hleft hfound henter _ ih =>
    obtain ⟨n, w, -, hn, rfl⟩ := henter
    obtain ⟨h1, -⟩ := (h.toHosts.propagate (by simp [hok])).1.explore (sound_search cs _) (hleft ▸ hfound)
    rw [hleft] at h1
    exact ih (h1.entered hn)

/-! ### The assignments handed over -/

/-- A search from `s` hands over an assignment; `first` says whether it does so before it has left any branch. -/
inductive HandsOver : Nat → Solver → Bool → Assignment → Prop
  | leaf {depth : Nat} {s : Solver} {a : Assignment} (hok : s.propagate.result = .ok ())
      (hdec : s.propagate.solver.store.domains.decision? = none)
      (hleaf : s.propagate.solver.leaf.result = .ok [a]) : HandsOver depth s true a
  | first {depth : Nat} {s v : Solver} {dec : Decision} {first : Bool} {a : Assignment}
      (hok : s.propagate.result = .ok ()) (hdec : s.propagate.solver.store.domains.decision? = some dec)
      (henter : s.propagate.solver.Enters dec true v) (h : HandsOver depth v first a) :
      HandsOver (depth + 1) s first a
  | second {depth : Nat} {s v : Solver} {dec : Decision} {left : Outcome Fault (List Assignment)}
      {found : List Assignment} {first : Bool} {a : Assignment} (hok : s.propagate.result = .ok ())
      (hdec : s.propagate.solver.store.domains.decision? = some dec)
      (hleft : s.propagate.solver.explore (search depth) dec true = left) (hfound : left.result = .ok found)
      (henter : left.solver.Enters dec false v) (h : HandsOver depth v first a) : HandsOver (depth + 1) s false a

/-- Before it has left a branch, a search hands over one assignment at most. -/
theorem HandsOver.unique {a b : Assignment} (ha : HandsOver depth s true a) (hb : HandsOver depth s true b) :
    a = b := by
  generalize hfirst : true = first at ha
  induction ha with
  | leaf hok hdec hleaf =>
    cases hb with
    | leaf _ _ hleaf' => simpa [hleaf] using hleaf'
    | first _ hdec' _ _ => simp [hdec] at hdec'
  | first hok hdec henter _ ih =>
    cases hb with
    | leaf _ hdec' _ => simp [hdec] at hdec'
    | first _ hdec' henter' hb =>
      obtain rfl := Option.some.inj (hdec.symm.trans hdec')
      obtain ⟨n, w, hn, hw, rfl⟩ := henter
      obtain ⟨n', w', hn', hw', rfl⟩ := henter'
      obtain rfl := Except.ok.inj (hn.symm.trans hn')
      obtain rfl := Except.ok.inj (hw.symm.trans hw')
      exact ih hb hfirst
  | second _ _ _ _ _ _ _ => cases hfirst

/-- A solution that is handed over is counted. -/
theorem leaf_ok (hok : s.leaf.result = .ok found) :
    ∃ a, s.store.domains.assignment? = .ok a ∧ found = [a] ∧ s.leaf.solver = s.counted := by
  rw [leaf_eq] at hok ⊢
  cases hf : s.leafFault? with
  | some f => simp [hf] at hok
  | none =>
    cases ha : s.store.domains.assignment? with
    | error f => simp [hf, ha] at hok
    | ok a => exact ⟨a, rfl, by simpa [hf, ha] using hok.symm, rfl⟩

/-- A branch finds nothing, or what a search finds from where it begins. -/
private theorem explore_ok {search : Solver → Outcome Fault (List Assignment)}
    (hok : (s.explore search dec first).result = .ok found) :
    found = [] ∨ ∃ v, s.Enters dec first v ∧ (search v).result = .ok found := by
  rw [explore_eq] at hok
  cases hn : dec.narrowing first with
  | error f => simp [hn] at hok
  | ok n =>
    cases hw : s.store.mark.narrow n with
    | error why =>
      cases why with
      | fault f => simp [hn, hw] at hok
      | error c => exact .inl (by simpa [hn, hw] using hok.symm)
    | ok w =>
      cases hres : (search (s.entered w)).result with
      | error f => simp [hn, hw, hres] at hok
      | ok more =>
        obtain rfl : more = found := by simpa [hn, hw, hres] using hok
        exact .inr ⟨_, ⟨n, w, hn, hw, rfl⟩, hres⟩

/-- What a search finds has been handed over, and all but the first after a branch has been left. -/
private def Handed (depth : Nat) (s : Solver) (found : List Assignment) : Prop :=
  (∀ a ∈ found, ∃ first, HandsOver depth s first a) ∧ ∀ a ∈ found.tail, HandsOver depth s false a

private theorem handed_step (hok : (search depth s).result = .ok found)
    (hbelow : ∀ k, depth = k + 1 → ∀ t found, (search k t).result = .ok found → Handed k t found) :
    Handed depth s found := by
  have hsearch := searches depth s
  generalize search depth s = o at hsearch hok
  cases hsearch with
  | fault hf => cases hok
  | contradiction he =>
    obtain rfl : [] = found := Except.ok.inj hok
    exact ⟨by simp, by simp⟩
  | leaf hprop hdec =>
    obtain ⟨a, -, rfl, -⟩ := leaf_ok hok
    refine ⟨fun b hb => ?_, by simp⟩
    obtain rfl := List.mem_singleton.1 hb
    exact ⟨true, .leaf hprop hdec hok⟩
  | tooDeep _ _ => cases hok
  | first _ _ _ _ => cases hok
  | @both depth dec left right before hprop hdec hleft hfound hright =>
    cases hres : right.result with
    | error f => simp [hres, Except.map] at hok
    | ok after =>
      obtain rfl : before ++ after = found := by simpa [hres, Except.map] using hok
      have hsecond : ∀ a ∈ after, HandsOver (depth + 1) s false a := by
        intro a ha
        rcases explore_ok (hright ▸ hres) with rfl | ⟨v, henter, hv⟩
        · cases ha
        · obtain ⟨first, h⟩ := (hbelow _ rfl v _ hv).1 a ha
          exact .second hprop hdec hleft hfound henter h
      rcases explore_ok (hleft ▸ hfound) with rfl | ⟨v, henter, hv⟩
      · exact ⟨fun a ha => ⟨false, hsecond a ha⟩, fun a ha => hsecond a (List.mem_of_mem_tail ha)⟩
      · obtain ⟨h1, h2⟩ := hbelow _ rfl v _ hv
        refine ⟨fun a ha => ?_, fun a ha => ?_⟩
        · rcases List.mem_append.1 ha with ha | ha
          · obtain ⟨first, h⟩ := h1 a ha
            exact ⟨first, .first hprop hdec henter h⟩
          · exact ⟨false, hsecond a ha⟩
        · cases before with
          | nil => exact hsecond a (List.mem_of_mem_tail ha)
          | cons b before =>
            exact (List.mem_append.1 ha).elim (fun ha => .first hprop hdec henter (h2 a ha)) (hsecond a)

private theorem handed_search (hok : (search depth s).result = .ok found) : Handed depth s found := by
  induction depth generalizing s found with
  | zero => exact handed_step hok fun k hk => nomatch hk
  | succ depth ih =>
    refine handed_step hok fun k hk t found hfound => ?_
    obtain rfl := Nat.succ.inj hk
    exact ih hfound

/-! ### What a search finds -/

/-- The solutions within domains, each once and in order. -/
structure Exact (cs : List Constraint) (d : Domains) (found : List Assignment) : Prop where
  mem_iff : ∀ a, a ∈ found ↔ d.Admits a ∧ ∀ c ∈ cs, c.Holds a
  ordered : found.Pairwise Assignment.Precedes

/-- The solutions are found, or there is a fault for want of an operand. -/
def Finds (cs : List Constraint) (d : Domains) (r : Except Fault (List Assignment)) : Prop :=
  (∃ found, r = .ok found ∧ Exact cs d found) ∨ Lacks cs d ∧ r = .error .unknownIndex

/-- Propagation loses no solution. -/
theorem Hosts.exact_propagate (h : s.Hosts cs) (hok : s.propagate.result = .ok ())
    (hex : Exact cs s.propagate.solver.store.domains found) : Exact cs s.store.domains found where
  mem_iff a := (hex.mem_iff a).trans (and_congr_left fun hall => h.admits_propagate_iff hok hall)
  ordered := hex.ordered

/-- A contradiction means that there are no solutions. -/
theorem Hosts.exact_of_error (h : s.Hosts cs) {e : Contradiction} (he : s.propagate.result = .error (.error e)) :
    Exact cs s.store.domains [] where
  mem_iff a := ⟨fun hmem => absurd hmem (by simp), fun ⟨hadm, hall⟩ => absurd hall (h.not_holds_of_error he hadm)⟩
  ordered := .nil

private theorem entailmentOfAll_eq {as : List Agent} {d : Domains}
    (h : ∀ a ∈ as, a.propagator.entailment d = .ok .satisfied) :
    as.foldlM (fun e a => return e.and (← a.propagator.entailment d)) Entailment.satisfied =
      (.ok .satisfied : Except Fault Entailment) := by
  induction as with
  | nil => rfl
  | cons a as ih =>
    rw [List.foldlM_cons, h a (by simp)]
    exact ih fun b hb => h b (by simp [hb])

/-- At a fixpoint no constraint is found violated, and once all variables are decided all are found satisfied. -/
theorem Fixed.entailment (hfix : s.Fixed cs) (h : s.Hosts cs) {p : PropagatorId} {a : Agent}
    (ha : s.agents.get? p = some a) : ∃ e, s.entailment p = .ok e ∧ e ≠ .violated ∧
      ((∀ w, s.store.domains.Has w → s.store.domains.Decided w) → e = .satisfied) := by
  obtain ⟨c, hc, hmem⟩ := h.exists_constraint ha
  obtain ⟨e, he, hne, hsat⟩ :=
    Constraint.entailment_of_stable h.valid.wellFormed (h.inScope c hmem) (hfix.stable c hmem)
  refine ⟨e, ?_, hne, fun hdec => hsat fun x v hx => hdec _ hx v⟩
  simp only [Solver.entailment, ha, h.propagator_eq p a c ha hc, he]

theorem Fixed.entailmentOfAll (hfix : s.Fixed cs) (h : s.Hosts cs)
    (hdec : ∀ w, s.store.domains.Has w → s.store.domains.Decided w) : s.entailmentOfAll = .ok .satisfied := by
  refine entailmentOfAll_eq fun a ha => ?_
  obtain ⟨p, hp⟩ := Table.mem_toList_iff.1 ha
  obtain ⟨e, he, -, hsat⟩ := hfix.entailment h hp
  simp only [Solver.entailment, hp] at he
  rw [he, hsat hdec]

/-- At a fixpoint without a decision, the one assignment left is the only solution. -/
theorem Fixed.leaf (hfix : s.Fixed cs) (h : s.Hosts cs) (hdec : s.store.domains.decision? = none) :
    ∃ found, s.leaf.result = .ok found ∧ Exact cs s.store.domains found := by
  obtain ⟨a, ha, honly, hagree⟩ := Domains.exists_assignment h.valid.wellFormed hdec
  have hholds : ∀ c ∈ cs, c.Holds a := (h.holds_iff a).2 fun c hc =>
    (((hfix.stable c hc).settled fun _ _ _ => False).of_agree (h.inScope c hc) hagree).stable fun _ _ _ => id
  have hfault : s.leafFault? = none := by
    unfold leafFault?
    split
    · simp [hfix.entailmentOfAll h (Domains.decided_of_decision? h.valid.wellFormed hdec)]
    · rfl
  refine ⟨[a], by simp only [leaf_eq, hfault, ha], fun b => ?_, List.pairwise_singleton _ _⟩
  rw [List.mem_singleton, honly]
  exact ⟨fun hb => ⟨hb, hb ▸ hholds⟩, fun hb => hb.1⟩

/-- What a branch finds is what the search finds within the narrowed domains.  There is less to decide in them, so
that the depth suffices. -/
private theorem Ready.explore {n : Narrowing} {e : Effect} (h : s.Ready cs)
    (hdepth : s.store.domains.freedom ≤ depth + 1) (hn : dec.narrowing first = .ok n)
    (he : s.store.domains.narrow n = .ok (some e))
    (ih : ∀ t : Solver, t.Ready cs → t.store.domains.freedom ≤ depth →
      Finds cs t.store.domains (search depth t).result) :
    Finds cs e.domains (s.explore (search depth) dec first).result := by
  obtain ⟨w, hw, hdom⟩ : ∃ w, s.store.mark.narrow n = .ok w ∧ w.domains = e.domains := by
    exact ⟨_, by simp only [Store.narrow, Store.mark, he]; rfl, rfl⟩
  have hless : (s.entered w).store.domains.freedom ≤ depth := by
    have := Domains.freedom_of_narrow he
    show w.domains.freedom ≤ depth
    rw [hdom]
    omega
  have hfinds := ih (s.entered w) (h.entered hw) hless
  have hresult : (s.explore (search depth) dec first).result = (search depth (s.entered w)).result := by
    rw [explore_eq]
    simp only [hn, hw]
    cases hres : (search depth (s.entered w)).result <;> rfl
  rw [hresult, ← hdom]
  exact hfinds

/-- The two branches of a decision have all solutions, in order. -/
private theorem Exact.append {d : Domains} {n m : Narrowing} {e f : Effect} {left right : List Assignment}
    (hd : d.WellFormed) (hb : d.Branches n m) (he : d.narrow n = .ok (some e)) (hf : d.narrow m = .ok (some f))
    (hl : Exact cs e.domains left) (hr : Exact cs f.domains right) : Exact cs d (left ++ right) where
  mem_iff a := by
    rw [List.mem_append, hl.mem_iff, hr.mem_iff, Domains.admits_narrow_iff hd he, Domains.admits_narrow_iff hd hf]
    have := hb.accepts a
    tauto
  ordered := by
    refine List.pairwise_append.2 ⟨hl.ordered, hr.ordered, fun a ha b hb' => ?_⟩
    have ha := (Domains.admits_narrow_iff hd he).1 ((hl.mem_iff a).1 ha).1
    have hb' := (Domains.admits_narrow_iff hd hf).1 ((hr.mem_iff b).1 hb').1
    exact hb.precedes a b ha.1 hb'.1 ha.2 hb'.2

private theorem Finds.lacks {d : Domains} {r : Except Fault (List Assignment)} {f : Fault} (h : Finds cs d r)
    (hf : r = .error f) : f = .unknownIndex ∧ Lacks cs d := by
  rcases h with ⟨found, hfound, -⟩ | ⟨hl, hr⟩
  · simp [hf] at hfound
  · rw [hf] at hr
    exact ⟨by simpa using hr, hl⟩

private theorem Finds.exact {d : Domains} {r : Except Fault (List Assignment)} (h : Finds cs d r)
    (hr : r = .ok found) :
    Exact cs d found := by
  rcases h with ⟨found', hfound, hex⟩ | ⟨-, hf⟩
  · obtain rfl := Except.ok.inj (hr.symm.trans hfound)
    exact hex
  · simp [hr] at hf

private theorem finds_step (h : s.Ready cs) (hdepth : s.store.domains.freedom ≤ depth)
    (hbelow : ∀ k, depth = k + 1 → ∀ t : Solver, t.Ready cs → t.store.domains.freedom ≤ k →
      Finds cs t.store.domains (search k t).result) : Finds cs s.store.domains (search depth s).result := by
  have hsearch := searches depth s
  generalize search depth s = o at hsearch
  cases hprop : s.propagate.result with
  | error why =>
    cases why with
    | fault f =>
      obtain ⟨rfl, hl⟩ := h.safe_propagate hprop
      refine .inr ⟨hl, ?_⟩
      cases hsearch <;> simp_all
    | error e =>
      refine .inl ⟨[], ?_, h.toHosts.exact_of_error hprop⟩
      cases hsearch <;> simp_all
  | ok x =>
    obtain ⟨h1, h2⟩ := h.toHosts.propagate (by simp [hprop])
    have hfix := h.propagate hprop
    have hlacks : ∀ {d : Domains}, d.sets.size = s.propagate.solver.store.domains.sets.size →
        d.ints.size = s.propagate.solver.store.domains.ints.size → Lacks cs d → Lacks cs s.store.domains :=
      fun hs hi hl => hl.of_size (hs.trans h2.narrower.size_sets) (hi.trans h2.narrower.size_ints)
    have hfree : s.propagate.solver.store.domains.freedom ≤ depth := h2.narrower.freedom_le.trans hdepth
    cases hsearch with
    | fault hf => simp [hprop] at hf
    | contradiction he => simp [hprop] at he
    | leaf _ hdec =>
      obtain ⟨found, hfound, hex⟩ := hfix.leaf h1 hdec
      exact .inl ⟨found, hfound, h.toHosts.exact_propagate hprop hex⟩
    | tooDeep _ hdec =>
      obtain ⟨n, m, -, -, ⟨e, he⟩, -⟩ := Domains.exists_branches h1.valid.wellFormed hdec
      have := Domains.freedom_of_narrow he
      omega
    | first _ hdec hleft hf =>
      obtain ⟨n, m, hn, -, ⟨e, he⟩, -⟩ := Domains.exists_branches h1.valid.wellFormed hdec
      have heff := Domains.effective_of_narrow h1.valid.wellFormed he
      have hfinds := (hfix.ready h1).explore hfree hn he (hbelow _ rfl)
      rw [hleft] at hfinds
      obtain ⟨rfl, hl⟩ := hfinds.lacks hf
      exact .inr ⟨hlacks heff.size_sets heff.size_ints hl, rfl⟩
    | both _ hdec hleft hfound hright =>
      obtain ⟨n, m, hn, hm, hb⟩ := Domains.exists_branches h1.valid.wellFormed hdec
      obtain ⟨e, he⟩ := hb.first
      obtain ⟨f, hf⟩ := hb.second
      have heff := Domains.effective_of_narrow h1.valid.wellFormed hf
      have hl := (hfix.ready h1).explore hfree hn he (hbelow _ rfl)
      rw [hleft] at hl
      obtain ⟨h3, h4⟩ := h1.explore (sound_search cs _) (hleft ▸ hfound)
      rw [hleft] at h3 h4
      have hr := h3.explore (h4.domains_eq ▸ hfree) hm (h4.domains_eq ▸ hf) (hbelow _ rfl)
      rw [hright] at hr
      rcases hr with ⟨more, hmore, hex⟩ | ⟨hl, hf⟩
      · refine .inl ⟨_, by rw [hmore]; rfl, h.toHosts.exact_propagate hprop ?_⟩
        exact Exact.append h1.valid.wellFormed hb he hf (hl.exact hfound) hex
      · exact .inr ⟨hlacks heff.size_sets heff.size_ints hl, by rw [hf]; rfl⟩

/-- A search from a solver that covers its constraints finds all solutions, if it may go as deep as the domains
allow. -/
theorem Ready.search (h : s.Ready cs) (hdepth : s.store.domains.freedom ≤ depth) :
    Finds cs s.store.domains (search depth s).result := by
  induction depth generalizing s with
  | zero => exact finds_step h hdepth fun k hk => nomatch hk
  | succ depth ih =>
    refine finds_step h hdepth fun k hk t ht htd => ?_
    obtain rfl := Nat.succ.inj hk
    exact ih ht htd

/-- An assignment that is handed over satisfies all constraints, if a branch has been left before or the solver covers
its constraints: coming back from a branch covers all of them again. -/
theorem Hosts.holds_of_handsOver (h : s.Hosts cs) {a : Assignment} (ha : HandsOver depth s first a)
    (hs : first = false ∨ s.Ready cs) : ∀ c ∈ cs, c.Holds a := by
  induction ha with
  | @leaf depth s a hprop hdec hleaf =>
    have hready := hs.resolve_left (by simp)
    obtain ⟨found, hfound, hex⟩ := (hready.propagate hprop).leaf (h.propagate (by simp [hprop])).1 hdec
    obtain rfl : found = [a] := Except.ok.inj (hfound.symm.trans hleaf)
    exact ((hex.mem_iff a).1 (by simp)).2
  | first hprop hdec henter _ ih =>
    obtain ⟨n, w, -, hw, rfl⟩ := henter
    have h1 := (h.propagate (by simp [hprop])).1
    exact ih (h1.entered hw) (hs.imp_right fun hready => ((hready.propagate hprop).ready h1).entered hw)
  | second hprop hdec hleft hfound henter _ ih =>
    obtain ⟨n, w, -, hw, rfl⟩ := henter
    obtain ⟨h2, -⟩ := (h.propagate (by simp [hprop])).1.explore (sound_search cs _) (hleft ▸ hfound)
    rw [hleft] at h2
    exact ih (h2.entered hw).toHosts (.inr (h2.entered hw))

/-- The enumeration reports only solutions, except perhaps for the first assignment, and that one too if the solver
covers its constraints or is infeasible. -/
theorem Hosts.holds_of_solutions (h : s.Hosts cs) (hok : s.solutions.result = .ok found) :
    (∀ a ∈ found.tail, ∀ c ∈ cs, c.Holds a) ∧
      (s.Ready cs ∨ s.infeasible = true → ∀ a ∈ found, ∀ c ∈ cs, c.Holds a) := by
  cases hinf : s.infeasible with
  | true =>
    obtain rfl : [] = found := by simpa [Solver.solutions, hinf] using hok
    exact ⟨by simp, by simp⟩
  | false =>
    rw [solutions_eq hinf] at hok
    cases hres : (search s.store.domains.freedom s.mark).result with
    | error f => simp [hres] at hok
    | ok more =>
      obtain rfl : more = found := by simpa [hres] using hok
      obtain ⟨hall, htail⟩ := handed_search hres
      refine ⟨fun a ha => h.mark.holds_of_handsOver (htail a ha) (.inl rfl), fun hs a ha => ?_⟩
      obtain ⟨first, ha⟩ := hall a ha
      exact h.mark.holds_of_handsOver ha (.inr (hs.resolve_right (by simp)).mark)

/-- An infeasible solver has no solutions, and finds none. -/
theorem Hosts.solutions_of_infeasible (h : s.Hosts cs) (hinf : s.infeasible = true) :
    s.solutions.result = .ok [] ∧ Exact cs s.store.domains [] := by
  refine ⟨by rw [Solver.solutions, if_pos hinf],
    fun a => ⟨fun hmem => absurd hmem (by simp), fun ⟨hadm, hall⟩ => ?_⟩, .nil⟩
  have hle := ((Domains.admits_iff h.valid.wellFormed a).1 hadm).2.2.2
  exact (h.infeasible hinf a.view (le_trans hle (h.valid.le (Nat.zero_le _))) ((h.holds_iff a).1 hall)).elim

/-- The enumeration finds all solutions. -/
theorem Ready.solutions (h : s.Ready cs) : Finds cs s.store.domains s.solutions.result := by
  cases hinf : s.infeasible with
  | true => exact .inl ⟨[], h.toHosts.solutions_of_infeasible hinf⟩
  | false =>
    have hmark : s.mark.Ready cs := { h.toHosts.mark with covered := h.covered }
    have hfinds : Finds cs s.store.domains (Solver.search s.store.domains.freedom s.mark).result :=
      hmark.search le_rfl
    have hresult : s.solutions.result = (Solver.search s.store.domains.freedom s.mark).result := by
      rw [solutions_eq hinf]
      cases hres : (Solver.search s.store.domains.freedom s.mark).result <;> rfl
    rw [hresult]
    exact hfinds

end Solver

end SetConstraints
