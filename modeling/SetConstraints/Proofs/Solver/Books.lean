import SetConstraints.Proofs.Levels
import SetConstraints.Proofs.Queue
import SetConstraints.Proofs.WatchList
import SetConstraints.Solver.Propagation

/-!
# The books of a solver

Whatever its propagators do, the parts of a solver agree with each other (`Solver.Linked`): both trails have the same
levels, the propagators at rest are those in the passive trail, nobody at rest waits, and only existing propagators
watch existing variables.  Going back makes every propagator due, and has all wait that are not at rest at the level
gone back to (`Solver.returned_returnTo`).
-/

namespace SetConstraints

namespace Solver

/-- The parts of a solver agree with each other. -/
structure Linked (s : Solver) : Prop where
  valid : s.store.Valid
  depth_eq : s.passiveTrail.depth = s.store.depth
  passive_iff : ∀ p, p ∈ s.passiveTrail.entries ↔ ∃ a, s.agents.get? p = some a ∧ a.passive = true
  nodup : s.passiveTrail.entries.Nodup
  queue : s.queue.WellFormed
  active : ∀ p, s.queue.isWaiting p = true → ∃ a, s.agents.get? p = some a ∧ a.passive = false
  fits : s.watches.Fits s.store.domains
  isSome : ∀ p c l, s.watches.Tells p c l → (s.agents.get? p).isSome

variable {s t : Solver}

theorem Linked.passive_eq_true_iff (h : s.Linked) {p : PropagatorId} {a : Agent} (ha : s.agents.get? p = some a) :
    a.passive = true ↔ p ∈ s.passiveTrail.entries := by
  rw [h.passive_iff]
  exact ⟨fun hp => ⟨a, ha, hp⟩, fun ⟨b, hb, hp⟩ => Option.some.inj (ha.symm.trans hb) ▸ hp⟩

/-- Who waits is not at rest. -/
theorem Linked.not_isWaiting (h : s.Linked) {p : PropagatorId} {a : Agent} (ha : s.agents.get? p = some a)
    (hpas : a.passive = true) : ¬ s.queue.isWaiting p = true := by
  intro hp
  obtain ⟨b, hb, hno⟩ := h.active p hp
  obtain rfl := Option.some.inj (ha.symm.trans hb)
  simp [hpas] at hno

theorem linked_new {options : Options} (h : new? options = .ok s) : s.Linked := by
  unfold new? at h
  split at h
  · cases h
  · rename_i hlevels
    cases h
    refine
      { valid := Store.valid_empty, depth_eq := rfl, passive_iff := fun p => by simp [Trail.entries, Table.get?],
        nodup := .nil, queue := Queue.wellFormed_new (Nat.not_lt.1 hlevels), active := fun p hp => ?_,
        fits := ⟨rfl, rfl⟩, isSome := fun p c l h => ?_ }
    · simp [Queue.isWaiting, Queue.new, Table.get?] at hp
    · obtain ⟨w, hw, -⟩ := h
      cases hc : c.var <;> simp [WatchList.watchers, hc, Table.get?] at hw

/-! ### Narrowing, new variables and new levels -/

theorem Linked.narrower {P : Narrowing → Prop} {u : Store} (h : s.Linked) (hn : s.store.Narrower P u) :
    ({ s with store := u } : Solver).Linked :=
  { h with
    valid := h.valid.narrower hn
    depth_eq := h.depth_eq.trans hn.depth_eq.symm
    fits := ⟨h.fits.1.trans hn.size_sets.symm, h.fits.2.trans hn.size_ints.symm⟩ }

/-- Whoever narrows, what has an effect is recorded and can be taken back. -/
theorem Linked.exists_narrowed {n : Narrowing} {u : Store} (h : s.Linked) (hn : s.store.narrow n = .ok u) :
    ∃ new, s.store.Narrowed (fun _ => True) u new := Store.narrowed_of_narrow h.valid.wellFormed trivial hn

/-- A solver with a new variable of a given domain. -/
def extend (s : Solver) (e : Domain) : Solver :=
  { s with
    store := s.store.extend e
    watches := match e with
      | .set _ => s.watches.addSet
      | .int _ => s.watches.addInt }

@[simp] theorem watchers_extend (s : Solver) (e : Domain) (v : Var) :
    (s.extend e).watches.watchers v = s.watches.watchers v := by
  cases e with
  | set e => exact s.watches.watchers_addSet v
  | int e => exact s.watches.watchers_addInt v

theorem tells_extend (s : Solver) (e : Domain) (p : PropagatorId) (c : Change) (l : Slot) :
    (s.extend e).watches.Tells p c l ↔ s.watches.Tells p c l := by
  simp only [WatchList.Tells, watchers_extend]

theorem Linked.extend {e : Domain} (h : s.Linked) (he : e.WellFormed) : (s.extend e).Linked :=
  { h with
    valid := h.valid.extend he
    fits := by
      obtain ⟨h1, h2⟩ := h.fits
      cases e with
      | set e =>
        exact ⟨by simpa [Solver.extend, WatchList.addSet, Store.extend, Domains.extend] using h1, h2⟩
      | int e =>
        exact ⟨h1, by simpa [Solver.extend, WatchList.addInt, Store.extend, Domains.extend] using h2⟩
    isSome := fun p c l ht => h.isSome p c l ((tells_extend s e p c l).1 ht) }

/-- Creating a set variable is an extension, or fails and changes nothing. -/
theorem newSet_spec (s : Solver) (kernel envelope : List Int32) :
    (∃ e : SetDomain, e.WellFormed ∧ (s.newSet kernel envelope).solver = s.extend (.set e)) ∨
      ∃ f, s.newSet kernel envelope = ⟨.error f, s⟩ := by
  unfold newSet
  cases h : SetDomain.ofLists kernel envelope with
  | error f => exact .inr ⟨f, rfl⟩
  | ok e => exact .inl ⟨e, SetDomain.wellFormed_ofLists h, rfl⟩

theorem newInt_spec (s : Solver) (low high : Int32) :
    (∃ e : IntDomain, (s.newInt low high).solver = s.extend (.int e)) ∨ ∃ f, s.newInt low high = ⟨.error f, s⟩ := by
  unfold newInt
  split
  · exact .inl ⟨_, rfl⟩
  · exact .inr ⟨_, rfl⟩

theorem Linked.mark (h : s.Linked) : s.mark.Linked :=
  { h with
    valid := h.valid.mark
    depth_eq := by simpa [Solver.mark] using h.depth_eq
    passive_iff := by simpa [Solver.mark] using h.passive_iff
    nodup := by simpa [Solver.mark] using h.nodup }

/-! ### Going back -/

/-- What a solver is like after it has gone back to a level. -/
structure Returned (level : Nat) (s t : Solver) : Prop where
  eq_with : t = { s with
    store := s.store.rewind level, passiveTrail := (s.passiveTrail.rewind level).2, agents := t.agents,
    queue := t.queue, journal := t.journal }
  size_eq : t.agents.size = s.agents.size
  agent : ∀ p a, s.agents.get? p = some a → ∃ passive, t.agents.get? p = some { a with
    inbox := {}, due := true, passive := passive } ∧ (passive = true ↔ p ∈ (s.passiveTrail.rewind level).2.entries)
  queue : t.queue.WellFormed
  isWaiting : ∀ p, t.queue.isWaiting p = true ↔ ∃ a, t.agents.get? p = some a ∧ a.passive = false

/-- A propagator that is there and not at rest. -/
private def Active (s : Solver) (p : PropagatorId) : Prop := ∃ a, s.agents.get? p = some a ∧ a.passive = false

private theorem enqueue_spec (s : Solver) (p : PropagatorId) (hq : s.queue.WellFormed) :
    s.enqueue p = { s with queue := (s.enqueue p).queue } ∧ (s.enqueue p).queue.WellFormed ∧
      ∀ x, (s.enqueue p).queue.isWaiting x = true ↔ s.queue.isWaiting x = true ∨ x = p ∧ s.Active x := by
  unfold enqueue
  cases hp : s.agents.get? p with
  | none =>
    refine ⟨rfl, hq, fun x => ⟨.inl, fun h => h.resolve_right ?_⟩⟩
    rintro ⟨rfl, a, ha, -⟩
    simp [hp] at ha
  | some a =>
    simp only
    split
    · rename_i hpas
      refine ⟨rfl, hq, fun x => ⟨.inl, fun h => h.resolve_right ?_⟩⟩
      rintro ⟨rfl, b, hb, hno⟩
      obtain rfl := Option.some.inj (hp.symm.trans hb)
      simp [hpas] at hno
    · rename_i hpas
      refine ⟨rfl, Queue.wellFormed_enqueue hq _ _, fun x => ?_⟩
      rw [Queue.isWaiting_enqueue]
      constructor
      · rintro (rfl | h)
        · exact .inr ⟨rfl, a, hp, (Bool.not_eq_true _).mp hpas⟩
        · exact .inl h
      · rintro (h | ⟨rfl, -⟩)
        · exact .inr h
        · exact .inl rfl

private theorem foldl_enqueue_spec (ps : List PropagatorId) (s : Solver) (hq : s.queue.WellFormed) :
    ps.foldl enqueue s = { s with queue := (ps.foldl enqueue s).queue } ∧ (ps.foldl enqueue s).queue.WellFormed ∧
      ∀ x, (ps.foldl enqueue s).queue.isWaiting x = true ↔ s.queue.isWaiting x = true ∨ x ∈ ps ∧ s.Active x := by
  induction ps generalizing s with
  | nil => exact ⟨rfl, hq, by simp⟩
  | cons p ps ih =>
    obtain ⟨h1, h2, h3⟩ := enqueue_spec s p hq
    obtain ⟨h4, h5, h6⟩ := ih (s.enqueue p) h2
    have hactive : ∀ x, (s.enqueue p).Active x ↔ s.Active x := fun x => by rw [Active, h1, Active]
    refine ⟨?_, h5, fun x => ?_⟩
    · rw [List.foldl_cons, h4, h1]
    · rw [List.foldl_cons, h6, h3, hactive, List.mem_cons, or_and_right, or_assoc]

/-- Nobody waits, nothing is pending, and everyone is due. -/
def fresh (s : Solver) : Solver :=
  { s with
    store := { s.store with changes := #[] }
    agents := s.agents.map fun a => { a with inbox := {}, due := true }
    queue := s.queue.clear }

theorem restart_eq (s : Solver) : s.restart = s.fresh.agents.keys.foldl enqueue s.fresh := by
  have hmap : (s.agents.map fun a => { a with inbox := {} }).map (fun a => { a with due := true }) =
      s.agents.map fun a => { a with inbox := {}, due := true } := by
    refine Table.ext_get? fun k => ?_
    simp only [Table.get?_map, Option.map_map]
    rfl
  simp only [restart, clearPending, hmap]
  rfl

private theorem restart_spec (s : Solver) (hq : s.queue.WellFormed) :
    s.restart = { s with
      store := { s.store with changes := #[] }
      agents := s.agents.map fun a => { a with inbox := {}, due := true }
      queue := s.restart.queue } ∧ s.restart.queue.WellFormed ∧
      ∀ p, s.restart.queue.isWaiting p = true ↔ s.Active p := by
  obtain ⟨h1, h2, h3⟩ := foldl_enqueue_spec s.fresh.agents.keys s.fresh (Queue.wellFormed_clear hq)
  rw [← restart_eq] at h1 h2 h3
  have hactive : ∀ p, s.fresh.Active p ↔ s.Active p := by
    intro p
    simp only [Active, fresh, Table.get?_map]
    cases s.agents.get? p <;> simp
  refine ⟨h1, h2, fun p => ?_⟩
  rw [h3, hactive, Table.mem_keys_iff]
  constructor
  · rintro (h | ⟨-, h⟩)
    · simp [fresh, Queue.isWaiting_clear] at h
    · exact h
  · rintro ⟨a, ha, hpas⟩
    exact .inr ⟨by simp [fresh, ha], a, ha, hpas⟩

/-- Ends the rest of some propagators. -/
private def wake (s : Solver) (ps : List PropagatorId) : Solver :=
  ps.foldl (fun s p => s.modifyAgent p fun a => { a with passive := false }) s

private theorem wake_spec (s : Solver) (ps : List PropagatorId) :
    s.wake ps = { s with agents := (s.wake ps).agents } ∧ (s.wake ps).agents.size = s.agents.size ∧
      ∀ x a, s.agents.get? x = some a →
        (s.wake ps).agents.get? x = some { a with passive := a.passive && !(decide (x ∈ ps)) } := by
  induction ps generalizing s with
  | nil => exact ⟨rfl, rfl, fun x a ha => by simpa [wake] using ha⟩
  | cons p ps ih =>
    have hcons : s.wake (p :: ps) = (s.modifyAgent p fun a => { a with passive := false }).wake ps := rfl
    obtain ⟨h1, h2, h3⟩ := ih (s.modifyAgent p fun a => { a with passive := false })
    rw [hcons]
    refine ⟨?_, ?_, fun x a ha => ?_⟩
    · rw [h1]
      rfl
    · rw [h2]
      exact Table.size_modify _ _ _
    · have hx : (s.modifyAgent p fun a => { a with passive := false }).agents.get? x =
          some { a with passive := a.passive && !(decide (x = p)) } := by
        simp only [modifyAgent, Table.get?_modify, ha]
        split
        · rename_i hxp
          simp [hxp]
        · rename_i hxp
          simp [hxp]
      rw [h3 x _ hx]
      simp [Bool.and_assoc]

/-- The stores and trails at a level, before anyone is woken. -/
private def rewound (s : Solver) (level : Nat) : Solver :=
  { s.log (.goingBack s.depth level) with
    store := s.store.rewind level
    passiveTrail := (s.passiveTrail.rewind level).2 }

private theorem close_eq {level : Nat} (hl : level < s.depth) :
    s.close level = (s.rewound level).wake (s.passiveTrail.rewind level).1 := by
  rw [close, if_pos hl]
  rfl

/-- Closing levels lets everyone wait who waits. -/
theorem queue_close (s : Solver) (level : Nat) : (s.close level).queue = s.queue := by
  by_cases hl : level < s.depth
  · rw [close_eq hl, (wake_spec _ _).1]
    rfl
  · rw [close, if_neg hl]

/-- What closing levels leaves, before everyone is made due. -/
private theorem close_spec (h : s.Linked) {level : Nat} (hl : level ≤ s.depth) :
    s.close level = { s with
        store := { s.store.rewind level with changes := (s.close level).store.changes }
        passiveTrail := (s.passiveTrail.rewind level).2
        agents := (s.close level).agents
        journal := (s.close level).journal } ∧
      (s.close level).agents.size = s.agents.size ∧
      ∀ p a, s.agents.get? p = some a →
        ∃ passive, (s.close level).agents.get? p = some { a with passive := passive } ∧
          (passive = true ↔ p ∈ (s.passiveTrail.rewind level).2.entries) := by
  rcases Nat.lt_or_eq_of_le hl with hlt | rfl
  · obtain ⟨h1, h2, h3⟩ := wake_spec (s.rewound level) (s.passiveTrail.rewind level).1
    rw [close_eq hlt]
    have hsplit := Trail.entries_rewind s.passiveTrail level
    have hnodup := h.nodup
    rw [← hsplit, List.nodup_append] at hnodup
    refine ⟨?_, h2, fun p a ha => ⟨_, h3 p a ha, ?_⟩⟩
    · rw [h1]
      rfl
    · -- who is woken has gone to rest above the level, and nobody goes to rest twice
      rw [Bool.and_eq_true, h.passive_eq_true_iff ha, ← hsplit, List.mem_append]
      simp only [Bool.not_eq_true', decide_eq_false_iff_not]
      constructor
      · rintro ⟨hp | hp, hno⟩
        · exact absurd hp hno
        · exact hp
      · exact fun hp => ⟨.inr hp, fun hq => hnodup.2.2 p hq p hp rfl⟩
  · have hclose : s.close s.depth = s := if_neg (Nat.lt_irrefl _)
    have hrewind : s.passiveTrail.rewind s.depth = ([], s.passiveTrail) := by
      rw [depth, ← h.depth_eq, Trail.rewind_depth]
    rw [hclose]
    refine ⟨?_, rfl, fun p a ha => ⟨a.passive, ha, ?_⟩⟩
    · rw [hrewind, show s.store.rewind s.depth = _ from Store.rewind_depth s.store]
    · rw [hrewind, h.passive_eq_true_iff ha]

theorem returned_returnTo (h : s.Linked) {level : Nat} (hl : level ≤ s.depth) :
    Returned level s (s.returnTo level) := by
  obtain ⟨h1, h2, h3⟩ := close_spec h hl
  have hq : (s.close level).queue.WellFormed := by
    rw [queue_close]
    exact h.queue
  obtain ⟨h4, h5, h6⟩ := restart_spec (s.close level) hq
  have hagents :
      (s.returnTo level).agents = (s.close level).agents.map fun a => { a with inbox := {}, due := true } := by
    rw [returnTo, h4]
  refine ⟨?_, ?_, fun p a ha => ?_, h5, fun p => ?_⟩
  · rw [returnTo, h4, h1]
    rfl
  · rw [hagents, Table.size_map, h2]
  · obtain ⟨passive, hget, hiff⟩ := h3 p a ha
    exact ⟨passive, by rw [hagents, Table.get?_map, hget, Option.map_some], hiff⟩
  · rw [returnTo, h6, ← returnTo, hagents, Active]
    cases hp : (s.close level).agents.get? p <;> simp [hp]

theorem Linked.store_returnTo {level : Nat} (h : s.Linked) (hl : level ≤ s.depth) :
    (s.returnTo level).store = s.store.rewind level := by
  rw [(returned_returnTo h hl).eq_with]

theorem Linked.infeasible_returnTo {level : Nat} (h : s.Linked) (hl : level ≤ s.depth) :
    (s.returnTo level).infeasible = s.infeasible := by
  rw [(returned_returnTo h hl).eq_with]

theorem Linked.depth_returnTo {level : Nat} (h : s.Linked) (hl : level ≤ s.depth) :
    (s.returnTo level).depth = level := by
  rw [depth, h.store_returnTo hl, Store.depth_rewind _ hl]

theorem Linked.returned {level : Nat} (h : s.Linked) (hl : level ≤ s.depth) (hr : Returned level s t) : t.Linked where
  valid := by
    rw [hr.eq_with]
    exact h.valid.rewind hl
  depth_eq := by
    rw [hr.eq_with]
    have := h.depth_eq
    exact ((Trail.depth_rewind _ (this ▸ hl)).trans (Store.depth_rewind _ hl).symm)
  passive_iff p := by
    have htrail : t.passiveTrail = (s.passiveTrail.rewind level).2 := by rw [hr.eq_with]
    rw [htrail]
    constructor
    · intro hp
      have hmem : p ∈ s.passiveTrail.entries := by
        rw [← Trail.entries_rewind s.passiveTrail level]
        exact List.mem_append_right _ hp
      obtain ⟨a, ha, -⟩ := (h.passive_iff p).1 hmem
      obtain ⟨passive, hget, hiff⟩ := hr.agent p a ha
      exact ⟨_, hget, hiff.2 hp⟩
    · rintro ⟨b, hb, hpas⟩
      cases ha : s.agents.get? p with
      | none =>
        rw [(Table.get?_eq_none_iff _ _).2 (hr.size_eq ▸ (Table.get?_eq_none_iff _ _).1 ha)] at hb
        cases hb
      | some a =>
        obtain ⟨passive, hget, hiff⟩ := hr.agent p a ha
        obtain rfl := Option.some.inj (hget.symm.trans hb)
        exact hiff.1 hpas
  nodup := by
    have hnodup := h.nodup
    rw [← Trail.entries_rewind s.passiveTrail level, List.nodup_append] at hnodup
    rw [hr.eq_with]
    exact hnodup.2.1
  queue := hr.queue
  active p hp := (hr.isWaiting p).1 hp
  fits := by
    rw [hr.eq_with]
    exact ⟨h.fits.1.trans (Store.size_sets_rewind _ _).symm, h.fits.2.trans (Store.size_ints_rewind _ _).symm⟩
  isSome p c l ht := by
    have hwatches : t.watches = s.watches := by rw [hr.eq_with]
    rw [hwatches] at ht
    exact Table.isSome_get?_iff.2 (hr.size_eq ▸ Table.isSome_get?_iff.1 (h.isSome p c l ht))

end Solver

end SetConstraints
