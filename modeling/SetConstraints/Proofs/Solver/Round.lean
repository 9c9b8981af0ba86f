import SetConstraints.Proofs.Solver.Hosting

/-!
# One round of propagation

A round takes a propagator from the queue, runs it and delivers what it has changed.  Solvers go on hosting their
constraints (`Solver.Hosts.round`) and, unless the run fails, covering them (`Solver.Covered.round`); no round loses a
view at which all rules are stable (`Solver.Hosts.keeps_round`).
-/

namespace SetConstraints

/-- A narrowing of an operand of one of the constraints. -/
def Touches (cs : List Constraint) (n : Narrowing) : Prop := ∃ c ∈ cs, n.var ∈ c.operands

/-- An operand of one of the constraints does not exist. -/
def Lacks (cs : List Constraint) (d : Domains) : Prop := ∃ c ∈ cs, ∃ w ∈ c.operands, ¬ d.Has w

theorem Lacks.of_size {cs : List Constraint} {d e : Domains} (h : Lacks cs d) (hs : d.sets.size = e.sets.size)
    (hi : d.ints.size = e.ints.size) : Lacks cs e := by
  obtain ⟨c, hc, w, hw, hno⟩ := h
  exact ⟨c, hc, w, hw, fun hh => hno ((Domains.has_congr hs hi w).2 hh)⟩

theorem Lacks.mono {cs cs' : List Constraint} {d : Domains} (h : Lacks cs d) (hsub : cs ⊆ cs') : Lacks cs' d :=
  let ⟨c, hc, hw⟩ := h
  ⟨c, hsub hc, hw⟩

namespace Solver

variable {s t u : Solver} {cs : List Constraint} {P : Narrowing → Prop} {new pending : List Change}
  {p : PropagatorId} {a b : Agent} {c : Constraint} {q : Queue}

/-! ### The steps of a round -/

theorem Linked.pop (h : s.Linked) (hp : s.queue.pop = some (p, q)) : ({ s with queue := q } : Solver).Linked :=
  { h with
    queue := Queue.wellFormed_pop h.queue hp
    active := fun x hx => h.active x (((Queue.isWaiting_pop h.queue hp).2 x).1 hx).2 }

theorem Hosts.pop (h : s.Hosts cs) (hp : s.queue.pop = some (p, q)) : ({ s with queue := q } : Solver).Hosts cs :=
  { h.toLinked.pop hp, h with }

theorem Called.get? (h : Called P p a b new s t) (ha : s.agents.get? p = some a) :
    t.agents.get? p = some b ∧ ∀ x, x ≠ p → t.agents.get? x = s.agents.get? x := by
  rw [h.eq_with]
  exact ⟨Table.get?_set_self ha b, fun x hx => Table.get?_set_ne _ hx b⟩

theorem Linked.called (h : s.Linked) (hc : Called P p a b new s t) (ha : s.agents.get? p = some a) : t.Linked := by
  obtain ⟨hself, hother⟩ := hc.get? ha
  have hpassive : ∀ x v, (∃ d, t.agents.get? x = some d ∧ d.passive = v) ↔
      ∃ d, s.agents.get? x = some d ∧ d.passive = v := by
    intro x v
    by_cases hx : x = p
    · subst hx
      simp [hself, ha, hc.passive_eq]
    · rw [hother x hx]
  have hqueue : t.queue = s.queue := by rw [hc.eq_with]
  have htrail : t.passiveTrail = s.passiveTrail := by rw [hc.eq_with]
  have hwatches : t.watches = s.watches := by rw [hc.eq_with]
  have hn := h.narrower hc.narrowed.toNarrower
  exact
    { valid := hn.valid
      depth_eq := by rw [htrail]; exact hn.depth_eq
      passive_iff := fun x => by rw [htrail, hpassive]; exact h.passive_iff x
      nodup := by rw [htrail]; exact h.nodup
      queue := by rw [hqueue]; exact h.queue
      active := fun x hx => (hpassive x false).2 (h.active x (hqueue ▸ hx))
      fits := by rw [hwatches]; exact hn.fits
      isSome := fun x ch l ht => by
        rw [hwatches] at ht
        by_cases hx : x = p
        · subst hx
          exact Option.isSome_iff_exists.2 ⟨_, hself⟩
        · rw [hother x hx]
          exact h.isSome x ch l ht }

theorem Hosts.called (h : s.Hosts cs) (hc : Called P p a b new s t) (ha : s.agents.get? p = some a) :
    t.Hosts cs := by
  obtain ⟨hself, hother⟩ := hc.get? ha
  have hn := h.narrowed hc.narrowed
  have hlinked := h.toLinked.called hc ha
  have hsize : t.agents.size = s.agents.size := by
    rw [hc.eq_with]
    exact Table.size_set _ _ _
  have hwatches : t.watches = s.watches := by rw [hc.eq_with]
  have htrail : t.passiveTrail = s.passiveTrail := by rw [hc.eq_with]
  have hinf : t.infeasible = s.infeasible := by rw [hc.eq_with]
  refine
    { hlinked with
      size_eq := hsize.trans h.size_eq
      propagator_eq := fun x d e hd he => ?_
      tells_iff := by rw [hwatches]; exact h.tells_iff
      proper := h.proper
      inScope := hn.inScope
      receives := fun x d e hd he => ?_
      confirms := hn.confirms
      inert := by rw [htrail]; exact hn.inert
      infeasible := by rw [hinf]; exact hn.infeasible }
  · by_cases hx : x = p
    · subst hx
      obtain rfl := Option.some.inj (hself.symm.trans hd)
      exact hc.propagator_eq.trans (h.propagator_eq x a e ha he)
    · exact h.propagator_eq x d e (hother x hx ▸ hd) he
  · by_cases hx : x = p
    · subst hx
      obtain rfl := Option.some.inj (hself.symm.trans hd)
      exact (hn.receives x a e ha he).of_subset hc.pending
    · exact hn.receives x d e (hother x hx ▸ hd) he

private theorem putToRest_get? (hb : s.agents.get? p = some b) :
    (s.putToRest p).agents.get? p = some { b with passive := true, inbox := {} } ∧
      ∀ x, x ≠ p → (s.putToRest p).agents.get? x = s.agents.get? x := by
  have hmodify : (s.putToRest p).agents = s.agents.modify p fun a => { a with passive := true, inbox := {} } := rfl
  rw [hmodify]
  exact ⟨by rw [Table.get?_modify, if_pos rfl, hb]; rfl, fun x hx => by rw [Table.get?_modify, if_neg hx]⟩

theorem Linked.putToRest (h : s.Linked) (hb : s.agents.get? p = some b) (hpas : b.passive = false)
    (hw : s.queue.isWaiting p = false) : (s.putToRest p).Linked := by
  obtain ⟨hself, hother⟩ := putToRest_get? hb
  refine
    { h with
      passive_iff := fun x => ?_
      nodup := ?_
      active := fun x hx => ?_
      isSome := fun x ch l ht => ?_ }
  · have htrail : (s.putToRest p).passiveTrail.entries = p :: s.passiveTrail.entries := rfl
    rw [htrail, List.mem_cons]
    by_cases hx : x = p
    · subst hx
      simp [hself]
    · rw [hother x hx, ← h.passive_iff, or_iff_right hx]
  · refine List.nodup_cons.2 ⟨fun hp => ?_, h.nodup⟩
    simpa [hpas] using (h.passive_eq_true_iff hb).2 hp
  · have hwx : s.queue.isWaiting x = true := hx
    have hne : x ≠ p := by
      rintro rfl
      exact absurd (hw.symm.trans hwx) (by simp)
    rw [hother x hne]
    exact h.active x hwx
  · by_cases hx : x = p
    · subst hx
      exact Option.isSome_iff_exists.2 ⟨_, hself⟩
    · rw [hother x hx]
      exact h.isSome x ch l ht

theorem Hosts.putToRest (h : s.Hosts cs) (hb : s.agents.get? p = some b) (hpas : b.passive = false)
    (hw : s.queue.isWaiting p = false) (hc : cs[p.number]? = some c) (hinert : c.Inert s.store.domains.view) :
    (s.putToRest p).Hosts cs := by
  obtain ⟨hself, hother⟩ := putToRest_get? hb
  refine
    { h.toLinked.putToRest hb hpas hw, h with
      size_eq := (Table.size_modify _ _ _).trans h.size_eq
      propagator_eq := fun x d e hd he => ?_
      receives := fun x d e hd he => ?_
      inert := fun level hl x e he hx => ?_ }
  · by_cases hx : x = p
    · subst hx
      obtain rfl := Option.some.inj (hself.symm.trans hd)
      exact h.propagator_eq x b e hb he
    · exact h.propagator_eq x d e (hother x hx ▸ hd) he
  · by_cases hx : x = p
    · subst hx
      obtain rfl := Option.some.inj (hself.symm.trans hd)
      exact Posting.receives_empty _ _
    · exact h.receives x d e (hother x hx ▸ hd) he
  · have hl : level ≤ s.store.depth := hl
    show e.Inert (s.store.rewind level).domains.view
    have hx : x ∈ ((s.passiveTrail.push p).rewind level).2.entries := hx
    rcases Nat.lt_or_eq_of_le hl with hlt | rfl
    · rw [Trail.rewind_push (h.depth_eq ▸ hlt)] at hx
      exact h.inert level hl x e he hx
    · rw [← h.depth_eq, ← Trail.depth_push s.passiveTrail p, Trail.rewind_depth, Trail.entries_push,
        List.mem_cons] at hx
      rcases hx with rfl | hx
      · obtain rfl := Option.some.inj (hc.symm.trans he)
        rw [Store.rewind_depth]
        exact hinert
      · exact h.inert _ le_rfl x e he (by rw [← h.depth_eq, Trail.rewind_depth]; exact hx)

private theorem Notified.agent_before (hn : Notified s t) (hb : t.agents.get? p = some b) :
    ∃ a, s.agents.get? p = some a ∧ b = { a with inbox := b.inbox } ∧
      (∀ l e v, b.inbox.news l e v → a.inbox.news l e v ∨
        ∃ c ∈ s.store.changes.toList, c.event = e ∧ c.value = v ∧ s.watches.Tells p c l) ∧
      ∀ l, b.inbox.Holds l → a.inbox.Holds l ∨ ∃ c ∈ s.store.changes.toList, s.watches.Tells p c l := by
  cases ha : s.agents.get? p with
  | none =>
    rw [(Table.get?_eq_none_iff _ _).2 (hn.size_eq ▸ (Table.get?_eq_none_iff _ _).1 ha)] at hb
    cases hb
  | some a =>
    obtain ⟨inbox, hget, hnews⟩ := hn.agent p a ha
    obtain rfl := Option.some.inj (hget.symm.trans hb)
    exact ⟨a, rfl, rfl, fun l e v hb => ((hnews l e v).1 hb).imp_right fun h => h.2.2, hn.holds p a _ ha hget⟩

theorem Linked.notified (h : s.Linked) (hn : Notified s t) : t.Linked := by
  have hsame : ∀ p v, (∃ b, t.agents.get? p = some b ∧ b.passive = v) ↔
      ∃ a, s.agents.get? p = some a ∧ a.passive = v := by
    intro p v
    constructor
    · rintro ⟨b, hb, hv⟩
      obtain ⟨a, ha, heq, -⟩ := hn.agent_before hb
      rw [heq] at hv
      exact ⟨a, ha, hv⟩
    · rintro ⟨a, ha, hv⟩
      obtain ⟨inbox, hget, -⟩ := hn.agent p a ha
      exact ⟨_, hget, hv⟩
  have hstore : t.store = { s.store with changes := #[] } := by rw [hn.eq_with]
  have htrail : t.passiveTrail = s.passiveTrail := by rw [hn.eq_with]
  have hwatches : t.watches = s.watches := by rw [hn.eq_with]
  refine
    { valid := by rw [hstore]; exact h.valid.of_changes _
      depth_eq := by rw [htrail, hstore]; exact h.depth_eq
      passive_iff := fun p => by rw [htrail, hsame]; exact h.passive_iff p
      nodup := by rw [htrail]; exact h.nodup
      queue := hn.queue h.queue
      active := fun p hp => ?_
      fits := by rw [hwatches, hstore]; exact h.fits
      isSome := fun p c l ht => ?_ }
  · rw [hsame]
    exact ((hn.isWaiting p).1 hp).elim (h.active p) fun h => h.1
  · rw [hwatches] at ht
    exact Table.isSome_get?_iff.2 (hn.size_eq ▸ Table.isSome_get?_iff.1 (h.isSome p c l ht))

theorem Hosts.notified (h : s.Hosts cs) (hn : Notified s t) : t.Hosts cs := by
  have hstore : t.store = { s.store with changes := #[] } := by rw [hn.eq_with]
  have htrail : t.passiveTrail = s.passiveTrail := by rw [hn.eq_with]
  have hwatches : t.watches = s.watches := by rw [hn.eq_with]
  have hinf : t.infeasible = s.infeasible := by rw [hn.eq_with]
  refine
    { h.toLinked.notified hn with
      size_eq := hn.size_eq.trans h.size_eq
      propagator_eq := fun p b c hb hc => ?_
      tells_iff := by rw [hwatches]; exact h.tells_iff
      proper := h.proper
      inScope := by rw [hstore]; exact h.inScope
      receives := fun p b c hb hc => ⟨fun l hl => ?_, fun l e v hnews => ?_⟩
      confirms := by simp [hstore]
      inert := by rw [htrail, hstore]; exact h.inert
      infeasible := by rw [hinf, hstore]; exact h.infeasible }
  · obtain ⟨a, ha, heq, -⟩ := hn.agent_before hb
    rw [heq]
    exact h.propagator_eq p a c ha hc
  · obtain ⟨a, ha, -, -, hholds⟩ := hn.agent_before hb
    rcases hholds l hl with hl | ⟨ch, -, ht⟩
    · exact (h.receives p a c ha hc).listens l hl
    · exact ((h.tells_iff p c hc ch l).1 ht).listens
  · obtain ⟨a, ha, -, hold, -⟩ := hn.agent_before hb
    rw [hstore]
    rcases hold l e v hnews with hold | ⟨ch, hch, he, hv, ht⟩
    · exact (h.receives p a c ha hc).told l e v hold
    · exact ⟨ch, he, hv, (h.tells_iff p c hc ch l).1 ht, h.confirms ch hch⟩

theorem Covered.notified (hcov : s.Covered cs s.store.changes.toList) (h : s.Hosts cs) (hn : Notified s t) :
    t.Covered cs [] := by
  intro p b c hb hc
  have hview : t.store.domains = s.store.domains := by rw [hn.eq_with]
  obtain ⟨a, ha⟩ := h.exists_agent hc
  obtain ⟨inbox, hget, hnews⟩ := hn.agent p a ha
  obtain rfl := Option.some.inj (hget.symm.trans hb)
  by_cases hpas : a.passive = true
  · exact .rests hpas
  · rw [Bool.not_eq_true] at hpas
    rw [hview]
    have hwaits : s.queue.isWaiting p = true → t.queue.isWaiting p = true := fun hw => (hn.isWaiting p).2 (.inl hw)
    cases hcov p a c ha hc with
    | rests hp => simp [hpas] at hp
    | due hd hw => exact .due hd (hwaits hw)
    | settled hd hw hs =>
      refine .settled hd (fun ⟨l, e, v, hi⟩ => ?_) (hs.mono fun l e v hold => .inl ((hnews l e v).2 ?_))
      · rcases (hnews l e v).1 hi with hi | ⟨-, -, ch, hch, -, -, ht⟩
        · exact hwaits (hw ⟨l, e, v, hi⟩)
        · exact (hn.isWaiting p).2 (.inr ⟨⟨a, ha, hpas⟩, ch, hch, l, ht⟩)
      · rcases hold with hold | ⟨ch, hch, he, hv, hl⟩
        · exact .inl hold
        · exact .inr ⟨hpas, hd, ch, hch, he, hv, (h.tells_iff p c hc ch l).2 hl⟩

/-! ### Rounds -/

/-- What is the same, and how the domains compare, after propagators have run. -/
structure Advanced (P : Narrowing → Prop) (s t : Solver) : Prop where
  narrower : s.store.Narrower P t.store
  options_eq : t.options = s.options
  infeasible_eq : t.infeasible = s.infeasible

theorem Advanced.refl (hs : s.store.domains.WellFormed) : Advanced P s s := ⟨.refl hs, rfl, rfl⟩

theorem Advanced.trans (h : Advanced P s t) (k : Advanced P t u) : Advanced P s u :=
  ⟨h.narrower.trans k.narrower, k.options_eq.trans h.options_eq, k.infeasible_eq.trans h.infeasible_eq⟩

private theorem Called.advanced (h : Called P p a b new s t) : Advanced P s t :=
  ⟨h.narrowed.toNarrower, by rw [h.eq_with], by rw [h.eq_with]⟩

theorem Notified.advanced (h : Notified s t) (hs : s.store.domains.WellFormed) : Advanced P s t := by
  refine ⟨?_, by rw [h.eq_with], by rw [h.eq_with]⟩
  rw [h.eq_with]
  exact (Store.Narrower.refl hs).of_changes s.store.changes #[]

/-- The propagator that a round runs. -/
private theorem Hosts.next (h : s.Hosts cs) (hpop : s.queue.pop = some (p, q)) :
    ∃ a c, s.agents.get? p = some a ∧ a.passive = false ∧ cs[p.number]? = some c ∧ c ∈ cs ∧
      a.propagator = c.propagator ∧ q.isWaiting p = false := by
  obtain ⟨hw, hother⟩ := Queue.isWaiting_pop h.queue hpop
  obtain ⟨a, ha, hpas⟩ := h.active p hw
  obtain ⟨c, hc, hmem⟩ := h.exists_constraint ha
  refine ⟨a, c, ha, hpas, hc, hmem, h.propagator_eq p a c ha hc, ?_⟩
  rw [← Bool.not_eq_true, hother]
  simp

theorem Hosts.run (h : s.Hosts cs) (hpop : s.queue.pop = some (p, q)) :
    (({ s with queue := q } : Solver).runAgent p).solver.Hosts cs ∧
      Advanced (Touches cs) s (({ s with queue := q } : Solver).runAgent p).solver := by
  obtain ⟨a, c, ha, hpas, hc, hmem, hac, hw⟩ := h.next hpop
  have hpopped := h.pop hpop
  have htouches : ∀ n : Narrowing, n.var ∈ c.operands → Touches cs n := fun n hn => ⟨c, hmem, hn⟩
  -- the queue makes no difference to what a run narrows
  have hadvanced : ∀ {t}, Advanced (Touches cs) { s with queue := q } t → Advanced (Touches cs) s t := fun h =>
    ⟨h.narrower, h.options_eq, h.infeasible_eq⟩
  have hcalled : ∀ {b new t}, Called (fun n => n.var ∈ c.operands) p a b new { s with queue := q } t →
      t.Hosts cs ∧ Advanced (Touches cs) s t := fun hct =>
    ⟨hpopped.called hct ha, hadvanced ⟨hct.advanced.narrower.imp htouches, hct.advanced.2, hct.advanced.3⟩⟩
  cases hres : (({ s with queue := q } : Solver).runAgent p).result with
  | error e =>
    obtain ⟨b, new, t, hct, ht | ⟨-, hok⟩⟩ := called_runAgent (s := { s with queue := q })
      (hac ▸ c.only_fromScratch) (fun slot delta => hac ▸ c.only_incremental slot delta) h.valid.wellFormed ha
    · rw [ht]
      exact hcalled hct
    · simp [hres] at hok
  | ok x =>
    obtain ⟨b, new, t, hct, ⟨ht, hinert⟩ | ⟨ht, -⟩⟩ := settles_runAgent (s := { s with queue := q }) hac
      h.valid.wellFormed (h.inScope c hmem) ha hres
    · obtain ⟨h1, h2⟩ := hcalled hct
      have hqueue : t.queue = q := by rw [hct.eq_with]
      rw [ht]
      exact ⟨h1.putToRest (hct.get? ha).1 (hct.passive_eq.trans hpas) (hqueue ▸ hw) hc hinert,
        h2.narrower, h2.options_eq, h2.infeasible_eq⟩
    · rw [ht]
      exact hcalled hct

theorem Hosts.round (h : s.Hosts cs) (hpop : s.queue.pop = some (p, q)) :
    (({ s with queue := q } : Solver).runAgent p).solver.notify.Hosts cs ∧
      Advanced (Touches cs) s (({ s with queue := q } : Solver).runAgent p).solver.notify := by
  obtain ⟨h1, h2⟩ := h.run hpop
  exact ⟨h1.notified (notified_notify _), h2.trans ((notified_notify _).advanced h1.valid.wellFormed)⟩

/-- After a successful run everything is covered up to the changes not delivered yet. -/
private theorem Covered.run (hcov : s.Covered cs pending) (h : s.Hosts cs) (hpop : s.queue.pop = some (p, q))
    (hpending : s.store.changes.toList = pending)
    (hok : (({ s with queue := q } : Solver).runAgent p).result = .ok ()) :
    (({ s with queue := q } : Solver).runAgent p).solver.Covered cs
      (({ s with queue := q } : Solver).runAgent p).solver.store.changes.toList := by
  obtain ⟨a, c, ha, hpas, hc, hmem, hac, hw⟩ := h.next hpop
  have hwaiting := (Queue.isWaiting_pop h.queue hpop).2
  obtain ⟨b, new, t, hct, hend⟩ := settles_runAgent (s := { s with queue := q }) hac h.valid.wellFormed
    (h.inScope c hmem) ha hok
  obtain ⟨hself, hother⟩ := hct.get? ha
  have hqueue : t.queue = q := by rw [hct.eq_with]
  have hchanges : t.store.changes.toList = pending ++ new := hpending ▸ hct.narrowed.changes_eq
  have hothers : ∀ x d e, x ≠ p → s.agents.get? x = some d → cs[x.number]? = some e →
      d.Covered e t.store.domains.view (q.isWaiting x = true) (pending ++ new) :=
    fun x d e hx hd he => ((hcov x d e hd he).narrowed hct.narrowed).imp fun hw => (hwaiting x).2 ⟨hx, hw⟩
  rcases hend with ⟨ht, -⟩ | ⟨ht, hdue, hinbox, hsettles⟩
  · rw [ht]
    obtain ⟨hrest, hrestother⟩ := putToRest_get? hself
    intro x d e hd he
    by_cases hx : x = p
    · subst hx
      obtain rfl := Option.some.inj (hrest.symm.trans hd)
      exact .rests rfl
    · have hd' := hd
      rw [hrestother x hx, hother x hx] at hd'
      have := hothers x d e hx hd' he
      rw [← hchanges, ← hqueue] at this
      exact this
  · rw [ht, hchanges]
    intro x d e hd he
    rw [hqueue]
    by_cases hx : x = p
    · subst hx
      obtain rfl := Option.some.inj (hself.symm.trans hd)
      obtain rfl := Option.some.inj (hc.symm.trans he)
      refine .settled hdue (fun ⟨l, ev, v, hi⟩ => ?_)
        ((hsettles (c.posting.news pending) ?_).mono fun l ev v hn => ?_)
      · rw [hinbox] at hi
        exact absurd hi (Inbox.not_news_empty l ev v)
      · cases hcov x a c ha hc with
        | rests h => simp [hpas] at h
        | due h _ => exact .inl h
        | settled _ _ hs => exact .inr hs
      · rw [Posting.news_append]
        exact .inr hn
    · rw [hother x hx] at hd
      exact hothers x d e hx hd he

theorem Covered.round (hcov : s.Covered cs s.store.changes.toList) (h : s.Hosts cs)
    (hpop : s.queue.pop = some (p, q)) (hok : (({ s with queue := q } : Solver).runAgent p).result = .ok ()) :
    (({ s with queue := q } : Solver).runAgent p).solver.notify.Covered cs [] :=
  (hcov.run h hpop rfl hok).notified (h.run hpop).1 (notified_notify _)

/-- A view at which all rules are stable stays below the domains, and above one no contradiction is found. -/
theorem Hosts.keeps_run (h : s.Hosts cs) (hpop : s.queue.pop = some (p, q)) {V : View}
    (hst : ∀ c ∈ cs, c.Stable V) (hV : V ≤ s.store.domains.view) :
    V ≤ (({ s with queue := q } : Solver).runAgent p).solver.store.domains.view ∧
      ∀ e, (({ s with queue := q } : Solver).runAgent p).result ≠ .error (.error e) := by
  obtain ⟨a, c, ha, -, hc, hmem, hac, -⟩ := h.next hpop
  exact keeps_runAgent (s := { s with queue := q }) hac h.valid.wellFormed (h.inScope c hmem) ha (hst c hmem) hV
    ((h.receives p a c ha hc).told.of_le hV)

/-- A run is a fault only for want of an operand. -/
theorem Hosts.safe_run (h : s.Hosts cs) (hpop : s.queue.pop = some (p, q)) {f : Fault}
    (hf : (({ s with queue := q } : Solver).runAgent p).result = .error (.fault f)) :
    f = .unknownIndex ∧ Lacks cs s.store.domains := by
  obtain ⟨a, c, ha, -, hc, hmem, hac, -⟩ := h.next hpop
  obtain ⟨hu, hw⟩ := safe_runAgent (s := { s with queue := q }) hac h.valid.wellFormed (h.inScope c hmem) ha
    (h.receives p a c ha hc).listens hf
  exact ⟨hu, c, hmem, hw⟩

/-- What a contradiction leaves. -/
theorem giveUp_eq (s : Solver) (p : PropagatorId) (e : Contradiction) :
    s.giveUp p e = { s with
      queue := s.queue.clear
      agents := s.agents.map fun a => { a with inbox := {} }
      store := { s.store with changes := #[] }
      statistics := (s.giveUp p e).statistics
      journal := (s.giveUp p e).journal } := by
  unfold Solver.giveUp
  simp only [clearPending]
  split <;> rfl

theorem Linked.giveUp (h : s.Linked) (p : PropagatorId) (e : Contradiction) : (s.giveUp p e).Linked := by
  rw [giveUp_eq]
  refine
    { h with
      valid := h.valid.of_changes _
      passive_iff := fun p => ?_
      queue := Queue.wellFormed_clear h.queue
      active := fun p hp => by simp [Queue.isWaiting_clear] at hp
      isSome := fun p c l ht => by simpa using h.isSome p c l ht }
  rw [h.passive_iff]
  simp

theorem Hosts.giveUp (h : s.Hosts cs) (p : PropagatorId) (e : Contradiction) :
    (s.giveUp p e).Hosts cs ∧ Advanced P s (s.giveUp p e) := by
  have hlinked := h.toLinked.giveUp p e
  rw [giveUp_eq] at hlinked ⊢
  refine ⟨?_, (Store.Narrower.refl h.valid.wellFormed).of_changes s.store.changes #[], rfl, rfl⟩
  have hmap : ∀ p b, (s.agents.map fun a => { a with inbox := {} }).get? p = some b →
      ∃ a, s.agents.get? p = some a ∧ b = { a with inbox := {} } := by
    intro p b hb
    rw [Table.get?_map] at hb
    obtain ⟨a, ha, rfl⟩ := Option.map_eq_some_iff.1 hb
    exact ⟨a, ha, rfl⟩
  refine
    { hlinked, h with
      size_eq := (Table.size_map _ _).trans h.size_eq
      propagator_eq := fun p b c hb hc => ?_
      receives := fun p b c hb hc => ?_
      confirms := by simp }
  · obtain ⟨a, ha, rfl⟩ := hmap p b hb
    exact h.propagator_eq p a c ha hc
  · obtain ⟨a, ha, rfl⟩ := hmap p b hb
    exact Posting.receives_empty _ _

end Solver

end SetConstraints
