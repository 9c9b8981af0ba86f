import SetConstraints.Proofs.Solver.Books
import SetConstraints.Proofs.Solver.Delivery
import SetConstraints.Proofs.Solver.Running

/-!
# Solvers of constraints

A solver hosts constraints if its propagators are theirs, what they have been told and will be told is right, and
those at rest are inert at every level at which they rest (`Solver.Hosts`).  Every operation keeps this, also after
contradictions.  It covers the constraints if moreover each of them rests, or is due and waits, or is settled up to
what it has not been told or has been told and waits for (`Solver.Covered`); a contradiction destroys this, and going
back restores it (`Solver.covered_of_returned`).
-/

namespace SetConstraints

namespace Solver

/-- The propagators of a solver are those of constraints, and what it keeps for them is right. -/
structure Hosts (s : Solver) (cs : List Constraint) : Prop extends Linked s where
  size_eq : s.agents.size = cs.length
  propagator_eq : ∀ p a c, s.agents.get? p = some a → cs[p.number]? = some c → a.propagator = c.propagator
  tells_iff : ∀ p c, cs[p.number]? = some c → ∀ ch l, s.watches.Tells p ch l ↔ c.posting.Hears ch l
  proper : ∀ c ∈ cs, c.Proper
  inScope : ∀ c ∈ cs, c.InScope s.store.domains
  receives : ∀ p a c, s.agents.get? p = some a → cs[p.number]? = some c →
    c.posting.Receives s.store.domains.view a.inbox
  confirms : ∀ ch ∈ s.store.changes.toList, s.store.domains.view.Confirms ch
  inert : ∀ level ≤ s.store.depth, ∀ p c, cs[p.number]? = some c →
    p ∈ (s.passiveTrail.rewind level).2.entries → c.Inert (s.store.rewind level).domains.view
  infeasible : s.infeasible = true → ∀ V ≤ (s.store.rewind 0).domains.view, ¬ ∀ c ∈ cs, c.Stable V

end Solver

/-- A propagator needs nothing, or waits for what it needs; `pending` are the changes not delivered yet. -/
inductive Agent.Covered (a : Agent) (c : Constraint) (V : View) (waits : Prop) (pending : List Change) : Prop
  | rests (h : a.passive = true)
  | due (h : a.due = true) (hw : waits)
  | settled (h : a.due = false) (hw : (∃ l e v, a.inbox.news l e v) → waits)
      (hs : c.Settled V fun l e v => a.inbox.news l e v ∨ c.posting.news pending l e v)

namespace Agent.Covered

variable {a : Agent} {c : Constraint} {V : View} {waits waits' : Prop} {pending new : List Change}

theorem imp (h : a.Covered c V waits pending) (hw : waits → waits') : a.Covered c V waits' pending := by
  cases h with
  | rests h => exact .rests h
  | due h hd => exact .due h (hw hd)
  | settled h hn hs => exact .settled h (hw ∘ hn) hs

/-- Narrowing adds to what a propagator is still to be told. -/
theorem narrowed {P : Narrowing → Prop} {u v : Store} (h : a.Covered c u.domains.view waits pending)
    (hn : u.Narrowed P v new) : a.Covered c v.domains.view waits (pending ++ new) := by
  cases h with
  | rests h => exact .rests h
  | due h hd => exact .due h hd
  | settled h hd hs =>
    refine .settled h hd ((hs.of_explained hn.explained hn.le).mono fun l e v hnews => ?_)
    rw [Posting.news_append]
    tauto

end Agent.Covered

namespace Solver

/-- Every propagator is covered. -/
def Covered (s : Solver) (cs : List Constraint) (pending : List Change) : Prop :=
  ∀ p a c, s.agents.get? p = some a → cs[p.number]? = some c →
    a.Covered c s.store.domains.view (s.queue.isWaiting p = true) pending

variable {s t : Solver} {cs : List Constraint} {P : Narrowing → Prop} {new pending : List Change} {p : PropagatorId}
  {a b : Agent} {c : Constraint}

theorem Hosts.exists_constraint (h : s.Hosts cs) (ha : s.agents.get? p = some a) :
    ∃ c, cs[p.number]? = some c ∧ c ∈ cs := by
  have hlt : p.number < cs.length := h.size_eq ▸ Table.isSome_get?_iff.1 (Option.isSome_iff_exists.2 ⟨a, ha⟩)
  exact ⟨cs[p.number], List.getElem?_eq_getElem hlt, List.getElem_mem hlt⟩

theorem Hosts.exists_agent (h : s.Hosts cs) (hc : cs[p.number]? = some c) : ∃ a, s.agents.get? p = some a := by
  refine Option.isSome_iff_exists.1 (Table.isSome_get?_iff.2 ?_)
  rw [h.size_eq]
  exact (List.getElem?_eq_some_iff.1 hc).1

theorem hosts_new {options : Options} (h : new? options = .ok s) : s.Hosts [] := by
  have hl := linked_new h
  unfold new? at h
  split at h <;> cases h
  exact
    { hl with
      size_eq := rfl
      propagator_eq := by simp
      tells_iff := by simp
      proper := by simp
      inScope := by simp
      receives := by simp
      confirms := by simp
      inert := by simp
      infeasible := by simp }

theorem covered_nil (s : Solver) (pending : List Change) : s.Covered [] pending := by
  intro p a c _ hc
  simp at hc

/-! ### Narrowing, new variables and new levels -/

private theorem le_rewind_of_narrower {u v : Store} (hn : u.Narrower P v) {level : Nat} (hl : level ≤ u.depth) :
    (v.rewind level).domains.view ≤ (u.rewind level).domains.view := by
  rcases Nat.lt_or_eq_of_le hl with hlt | rfl
  · rw [hn.rewind_eq level hlt]
  · rw [Store.rewind_depth, ← hn.depth_eq, Store.rewind_depth]
    exact hn.le

theorem Hosts.narrowed {u : Store} (h : s.Hosts cs) (hn : s.store.Narrowed P u new) :
    ({ s with store := u } : Solver).Hosts cs :=
  { h.toLinked.narrower hn.toNarrower, h with
    inScope := fun c hc r hr => (hn.has_iff _).2 (h.inScope c hc r hr)
    receives := fun p a c ha hc => (h.receives p a c ha hc).of_le hn.le
    confirms := fun ch hch => by
      rw [hn.changes_eq, List.mem_append] at hch
      rcases hch with hch | hch
      · exact (h.confirms ch hch).of_le hn.le
      · exact hn.confirms ch hch
    inert := fun level hl p c hc hp => by
      have hl : level ≤ s.store.depth := hn.depth_eq ▸ hl
      exact (h.inert level hl p c hc hp).of_le (le_rewind_of_narrower hn.toNarrower hl)
    infeasible := fun hinf V hV =>
      h.infeasible hinf V (le_trans hV (le_rewind_of_narrower hn.toNarrower (Nat.zero_le _))) }

theorem Covered.narrowed {u : Store} (h : s.Covered cs pending) (hn : s.store.Narrowed P u new) :
    ({ s with store := u } : Solver).Covered cs (pending ++ new) :=
  fun p a c ha hc => (h p a c ha hc).narrowed hn

theorem Hosts.extend {e : Domain} (h : s.Hosts cs) (he : e.WellFormed) : (s.extend e).Hosts cs :=
  { h.toLinked.extend he, h with
    tells_iff := fun p c hc ch l => (tells_extend s e p ch l).trans (h.tells_iff p c hc ch l)
    inScope := fun c hc r hr => Domains.has_extend (h.inScope c hc r hr)
    receives := fun p a c ha hc => (h.receives p a c ha hc).of_le (Domains.view_extend_le _ _)
    confirms := fun ch hch => (h.confirms ch hch).of_le (Domains.view_extend_le _ _)
    inert := fun level hl p c hc hp => by
      have := h.inert level hl p c hc hp
      show c.Inert ((s.store.extend e).rewind level).domains.view
      rw [Store.rewind_extend h.valid]
      exact this.of_le (Domains.view_extend_le _ _)
    infeasible := fun hinf V hV => by
      refine h.infeasible hinf V (le_trans hV ?_)
      show ((s.store.extend e).rewind 0).domains.view ≤ _
      rw [Store.rewind_extend h.valid]
      exact Domains.view_extend_le _ _ }

theorem Covered.extend {e : Domain} (h : s.Covered cs pending) (hs : s.Hosts cs) :
    (s.extend e).Covered cs pending := by
  intro p a c ha hc
  cases h p a c ha hc with
  | rests h => exact .rests h
  | due h hw => exact .due h hw
  | settled h hw hset =>
    exact .settled h hw (hset.of_agree (hs.inScope c (List.mem_of_getElem? hc)) fun _ => Domains.agree_extend)

theorem Hosts.mark (h : s.Hosts cs) : s.mark.Hosts cs :=
  { h.toLinked.mark, h with
    inert := fun level hl p c hc hp => by
      have hdepth := h.depth_eq
      rcases Nat.lt_or_eq_of_le hl with hlt | rfl
      · have hl := Nat.lt_succ_iff.1 hlt
        have hp : p ∈ (s.passiveTrail.mark.rewind level).2.entries := hp
        rw [Trail.rewind_mark (hdepth ▸ hl)] at hp
        show c.Inert (s.store.mark.rewind level).domains.view
        rw [Store.rewind_mark hl]
        exact h.inert level hl p c hc hp
      · have hp : p ∈ (s.passiveTrail.mark.rewind (s.store.depth + 1)).2.entries := hp
        rw [← hdepth, ← Trail.depth_mark, Trail.rewind_depth, Trail.entries_mark] at hp
        show c.Inert (s.store.mark.rewind s.store.mark.depth).domains.view
        rw [Store.rewind_depth]
        have := h.inert s.store.depth le_rfl p c hc (by rw [← hdepth, Trail.rewind_depth]; exact hp)
        rwa [Store.rewind_depth] at this
    infeasible := fun hinf V hV => by
      refine h.infeasible hinf V (le_trans hV ?_)
      show (s.store.mark.rewind 0).domains.view ≤ _
      rw [Store.rewind_mark (Nat.zero_le _)] }

/-! ### Going back -/

theorem Hosts.returned {level : Nat} (h : s.Hosts cs) (hl : level ≤ s.depth) (hr : Returned level s t) :
    t.Hosts cs := by
  have hagent : ∀ p b, t.agents.get? p = some b → ∃ a, s.agents.get? p = some a ∧ b.propagator = a.propagator ∧
      b.inbox = {} := by
    intro p b hb
    cases ha : s.agents.get? p with
    | none =>
      rw [(Table.get?_eq_none_iff _ _).2 (hr.size_eq ▸ (Table.get?_eq_none_iff _ _).1 ha)] at hb
      cases hb
    | some a =>
      obtain ⟨passive, hget, -⟩ := hr.agent p a ha
      obtain rfl := Option.some.inj (hget.symm.trans hb)
      exact ⟨a, rfl, rfl, rfl⟩
  have hstore : t.store = s.store.rewind level := by rw [hr.eq_with]
  have htrail : t.passiveTrail = (s.passiveTrail.rewind level).2 := by rw [hr.eq_with]
  have hwatches : t.watches = s.watches := by rw [hr.eq_with]
  have hinf : t.infeasible = s.infeasible := by rw [hr.eq_with]
  refine
    { h.toLinked.returned hl hr with
      size_eq := hr.size_eq.trans h.size_eq
      propagator_eq := fun p b c hb hc => ?_
      tells_iff := fun p c hc ch l => by rw [hwatches]; exact h.tells_iff p c hc ch l
      proper := h.proper
      inScope := fun c hc r hr => by
        rw [hstore]
        exact (Store.has_rewind_iff _ _ _).2 (h.inScope c hc r hr)
      receives := fun p b c hb hc => ?_
      confirms := fun ch hch => by simp [hstore, Store.rewind] at hch
      inert := fun k hk p c hc hp => ?_
      infeasible := fun hi V hV => ?_ }
  · obtain ⟨a, ha, hp, -⟩ := hagent p b hb
    exact hp.trans (h.propagator_eq p a c ha hc)
  · obtain ⟨a, -, -, hi⟩ := hagent p b hb
    rw [hi]
    exact Posting.receives_empty _ _
  · rw [hstore] at hk ⊢
    rw [Store.depth_rewind _ hl] at hk
    rw [htrail] at hp
    have hsplit := s.passiveTrail.rewind_rewind hk (h.depth_eq ▸ hl)
    rw [Store.rewind_rewind hk hl]
    exact h.inert k (le_trans hk hl) p c hc (by rw [hsplit]; exact hp)
  · rw [hstore, Store.rewind_rewind (Nat.zero_le _) hl] at hV
    exact h.infeasible (hinf ▸ hi) V hV

/-- Whatever was before, after going back every propagator rests or is due and waits. -/
theorem covered_of_returned {level : Nat} (hr : Returned level s t) (cs : List Constraint) (pending : List Change) :
    t.Covered cs pending := by
  intro p b c hb _
  have hdue : b.due = true := by
    cases ha : s.agents.get? p with
    | none =>
      rw [(Table.get?_eq_none_iff _ _).2 (hr.size_eq ▸ (Table.get?_eq_none_iff _ _).1 ha)] at hb
      cases hb
    | some a =>
      obtain ⟨passive, hget, -⟩ := hr.agent p a ha
      obtain rfl := Option.some.inj (hget.symm.trans hb)
      rfl
  cases hp : b.passive with
  | true => exact .rests hp
  | false => exact .due hdue ((hr.isWaiting p).2 ⟨b, hb, hp⟩)

end Solver

end SetConstraints
