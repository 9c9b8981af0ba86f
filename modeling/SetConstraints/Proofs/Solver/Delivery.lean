import SetConstraints.Proofs.Queue
import SetConstraints.Proofs.WatchList
import SetConstraints.Solver.Propagation

/-!
# Delivery of changes

Delivery goes through pairs of a change and a watcher.  A propagator that is neither due nor at rest hears of a change
in each pair that concerns it, one that is not at rest waits afterwards, and nothing else happens
(`Solver.notified_notify`).  Under each slot it hears of every change that it listens to there once, in the order of
the changes (`Solver.gains_notify`).
-/

namespace SetConstraints

namespace Solver

/-- The watcher of a pair hears of the change of the pair under its slot. -/
def Concerns (x : Change × Watcher) (p : PropagatorId) : Prop :=
  x.2.propagator = p ∧ x.2.events.contains x.1.event = true

/-- What has happened after the delivery along a list of pairs. -/
structure Delivered (pairs : List (Change × Watcher)) (s t : Solver) : Prop where
  eq_with : t = { s with agents := t.agents, queue := t.queue }
  size_eq : t.agents.size = s.agents.size
  agent : ∀ p a, s.agents.get? p = some a → ∃ inbox, t.agents.get? p = some { a with inbox := inbox } ∧
    ∀ l e v, inbox.news l e v ↔ a.inbox.news l e v ∨
      (a.passive = false ∧ a.due = false ∧ ∃ x ∈ pairs, Concerns x p ∧ x.2.slot = l ∧ x.1.event = e ∧ x.1.value = v)
  holds : ∀ p a b, s.agents.get? p = some a → t.agents.get? p = some b → ∀ l, b.inbox.Holds l →
    a.inbox.Holds l ∨ ∃ x ∈ pairs, Concerns x p ∧ x.2.slot = l
  isWaiting : ∀ p, t.queue.isWaiting p = true ↔ s.queue.isWaiting p = true ∨
    (∃ a, s.agents.get? p = some a ∧ a.passive = false) ∧ ∃ x ∈ pairs, Concerns x p
  queue : s.queue.WellFormed → t.queue.WellFormed

variable {s t u : Solver} {xs ys : List (Change × Watcher)}

private theorem Delivered.refl (s : Solver) : Delivered [] s s where
  eq_with := rfl
  size_eq := rfl
  agent p a ha := ⟨a.inbox, ha, by simp⟩
  holds p a b ha hb l hl := .inl (Option.some.inj (ha.symm.trans hb) ▸ hl)
  isWaiting p := by simp
  queue := id

private theorem Delivered.trans (h : Delivered xs s t) (k : Delivered ys t u) : Delivered (xs ++ ys) s u where
  eq_with := by rw [k.eq_with, h.eq_with]
  size_eq := k.size_eq.trans h.size_eq
  agent p a ha := by
    obtain ⟨i, hi, hnews⟩ := h.agent p a ha
    obtain ⟨j, hj, hnews'⟩ := k.agent p _ hi
    refine ⟨j, hj, fun l e v => ?_⟩
    rw [hnews', hnews]
    simp only [List.mem_append, or_and_right, exists_or, and_or_left, or_assoc]
  holds p a b ha hb l hl := by
    obtain ⟨i, hi, -⟩ := h.agent p a ha
    simp only [List.mem_append, or_and_right, exists_or]
    rcases k.holds p _ b hi hb l hl with hl | hl
    · exact (h.holds p a _ ha hi l hl).imp_right .inl
    · exact .inr (.inr hl)
  isWaiting p := by
    have hsame : (∃ a, t.agents.get? p = some a ∧ a.passive = false) ↔
        ∃ a, s.agents.get? p = some a ∧ a.passive = false := by
      cases hs : s.agents.get? p with
      | none =>
        have := (Table.get?_eq_none_iff _ _).1 hs
        rw [(Table.get?_eq_none_iff _ _).2 (h.size_eq ▸ this)]
      | some a =>
        obtain ⟨i, hi, -⟩ := h.agent p a hs
        simp [hi]
    rw [k.isWaiting, h.isWaiting, hsame]
    simp only [List.mem_append, or_and_right, exists_or, and_or_left, or_assoc]
  queue hq := k.queue (h.queue hq)

private theorem exists_concerns {c : Change} {w : Watcher} {p : PropagatorId} :
    (∃ x ∈ [(c, w)], Concerns x p) ↔ w.propagator = p ∧ w.events.contains c.event = true := by
  simp [Concerns]

private theorem exists_news {c : Change} {w : Watcher} {p : PropagatorId} {l : Slot} {e : Event} {v : Int32} :
    (∃ x ∈ [(c, w)], Concerns x p ∧ x.2.slot = l ∧ x.1.event = e ∧ x.1.value = v) ↔
      (w.propagator = p ∧ w.events.contains c.event = true) ∧ w.slot = l ∧ c.event = e ∧ c.value = v := by
  simp [Concerns]

/-- Nothing happens if the watcher does not listen. -/
private theorem delivered_of_deaf {c : Change} {w : Watcher}
    (h : ∀ a, s.agents.get? w.propagator = some a → a.passive = false → ¬ w.events.contains c.event = true) :
    Delivered [(c, w)] s s where
  eq_with := rfl
  size_eq := rfl
  agent p a ha := by
    refine ⟨a.inbox, ha, fun l e v => ?_⟩
    rw [exists_news]
    refine ⟨.inl, fun hnews => hnews.resolve_right ?_⟩
    rintro ⟨hpas, -, ⟨rfl, hc⟩, -⟩
    exact h a ha hpas hc
  holds p a b ha hb l hl := .inl (Option.some.inj (ha.symm.trans hb) ▸ hl)
  isWaiting p := by
    rw [exists_concerns]
    refine ⟨.inl, fun hw => hw.resolve_right ?_⟩
    rintro ⟨⟨a, ha, hpas⟩, rfl, hc⟩
    exact h a ha hpas hc
  queue := id

/-- A watcher that listens waits, and hears of the change unless it is due anyway. -/
private theorem delivered_of_listening {c : Change} {w : Watcher} {b : Agent}
    (hb : s.agents.get? w.propagator = some b) (hpas : b.passive = false) (hc : w.events.contains c.event = true) :
    Delivered [(c, w)] s
      { s with
        agents :=
          if b.due then s.agents
          else s.agents.set w.propagator { b with inbox := b.inbox.push w.slot c.event c.value }
        queue := s.queue.enqueue w.propagator b.propagator.priority } where
  eq_with := rfl
  size_eq := by
    simp only
    split <;> simp
  agent p a ha := by
    simp only [exists_news]
    by_cases hp : p = w.propagator
    · subst hp
      obtain rfl := Option.some.inj (hb.symm.trans ha)
      by_cases hdue : b.due = true
      · exact ⟨b.inbox, by rw [if_pos hdue]; exact hb, by simp [hdue]⟩
      · refine ⟨b.inbox.push w.slot c.event c.value, by rw [if_neg hdue, Table.get?_set_self hb], fun l e v => ?_⟩
        rw [Bool.not_eq_true] at hdue
        rw [Inbox.news_push]
        simp [hpas, hdue, hc, eq_comm]
    · refine ⟨a.inbox, ?_, fun l e v => ⟨.inl, fun h => h.resolve_right fun h => hp h.2.2.1.1.symm⟩⟩
      split
      · exact ha
      · rw [Table.get?_set_ne _ hp, ha]
  holds p a d ha hd l hl := by
    by_cases hp : p = w.propagator
    · subst hp
      obtain rfl := Option.some.inj (hb.symm.trans ha)
      by_cases hdue : b.due = true
      · rw [if_pos hdue] at hd
        exact .inl (Option.some.inj (hb.symm.trans hd) ▸ hl)
      · rw [if_neg hdue, Table.get?_set_self hb] at hd
        obtain rfl := Option.some.inj hd
        refine ((Inbox.holds_push _ _ _ _ _).1 hl).symm.imp_right fun hl => ?_
        exact ⟨(c, w), by simp, ⟨rfl, hc⟩, hl.symm⟩
    · refine .inl ?_
      split at hd
      · exact Option.some.inj (ha.symm.trans hd) ▸ hl
      · rw [Table.get?_set_ne _ hp, ha] at hd
        exact Option.some.inj hd ▸ hl
  isWaiting p := by
    rw [Queue.isWaiting_enqueue, exists_concerns]
    constructor
    · rintro (rfl | h)
      · exact .inr ⟨⟨b, hb, hpas⟩, rfl, hc⟩
      · exact .inl h
    · rintro (h | ⟨-, rfl, -⟩)
      · exact .inr h
      · exact .inl rfl
  queue hq := Queue.wellFormed_enqueue hq _ _

private theorem delivered_tell (s : Solver) (c : Change) (w : Watcher) : Delivered [(c, w)] s (s.tell c w) := by
  unfold tell
  split
  · rename_i hc
    cases hb : s.agents.get? w.propagator with
    | none => exact delivered_of_deaf fun a ha => by simp [hb] at ha
    | some b =>
      simp only
      split
      · rename_i hpas
        refine delivered_of_deaf fun a ha hno => ?_
        obtain rfl := Option.some.inj (hb.symm.trans ha)
        simp [hpas] at hno
      · rename_i hpas
        exact delivered_of_listening hb ((Bool.not_eq_true _).mp hpas) hc
  · rename_i hc
    exact delivered_of_deaf fun _ _ _ => hc

private theorem delivered_foldl_tell (c : Change) (ws : List Watcher) (s : Solver) :
    Delivered (ws.map fun w => (c, w)) s (ws.foldl (fun s w => s.tell c w) s) := by
  induction ws generalizing s with
  | nil => exact .refl s
  | cons w ws ih => exact (delivered_tell s c w).trans (ih (s.tell c w))

private theorem watches_deliver (s : Solver) (c : Change) : (s.deliver c).watches = s.watches := by
  rw [deliver, (delivered_foldl_tell c (s.watches.watchers c.var) s).eq_with]

private theorem delivered_foldl_deliver (cs : List Change) (s : Solver) :
    Delivered (cs.flatMap fun c => (s.watches.watchers c.var).map fun w => (c, w)) s (cs.foldl deliver s) := by
  induction cs generalizing s with
  | nil => exact .refl s
  | cons c cs ih =>
    have h := delivered_foldl_tell c (s.watches.watchers c.var) s
    have := ih (s.deliver c)
    rw [watches_deliver] at this
    exact h.trans this

/-- A notified solver has no pending changes, and its propagators have been told what there was. -/
structure Notified (s t : Solver) : Prop where
  eq_with : t = { s with store := { s.store with changes := #[] }, agents := t.agents, queue := t.queue }
  size_eq : t.agents.size = s.agents.size
  agent : ∀ p a, s.agents.get? p = some a → ∃ inbox, t.agents.get? p = some { a with inbox := inbox } ∧
    ∀ l e v, inbox.news l e v ↔ a.inbox.news l e v ∨
      (a.passive = false ∧ a.due = false ∧
        ∃ c ∈ s.store.changes.toList, c.event = e ∧ c.value = v ∧ s.watches.Tells p c l)
  holds : ∀ p a b, s.agents.get? p = some a → t.agents.get? p = some b → ∀ l, b.inbox.Holds l →
    a.inbox.Holds l ∨ ∃ c ∈ s.store.changes.toList, s.watches.Tells p c l
  isWaiting : ∀ p, t.queue.isWaiting p = true ↔ s.queue.isWaiting p = true ∨
    (∃ a, s.agents.get? p = some a ∧ a.passive = false) ∧
      ∃ c ∈ s.store.changes.toList, ∃ l, s.watches.Tells p c l
  queue : s.queue.WellFormed → t.queue.WellFormed

theorem notified_notify (s : Solver) : Notified s s.notify := by
  have h := delivered_foldl_deliver s.store.changes.toList { s with store := { s.store with changes := #[] } }
  refine ⟨h.eq_with, h.size_eq, fun p a ha => ?_, fun p a b ha hb l hl => ?_, fun p => ?_, h.queue⟩
  · obtain ⟨i, hi, hnews⟩ := h.agent p a ha
    refine ⟨i, hi, fun l e v => ?_⟩
    rw [hnews]
    simp only [List.mem_flatMap, List.mem_map, Concerns, WatchList.Tells]
    grind
  · refine (h.holds p a b ha hb l hl).imp_right fun hx => ?_
    simp only [List.mem_flatMap, List.mem_map, Concerns, WatchList.Tells] at hx ⊢
    grind
  · refine (h.isWaiting p).trans ?_
    simp only [List.mem_flatMap, List.mem_map, Concerns, WatchList.Tells]
    grind

/-! ### Once and in order -/

/-- In the inbox of `p`, if it is neither due nor at rest, the deltas have grown by `f`. -/
def Gains (p : PropagatorId) (f : Slot → List (Event × Int32)) (s t : Solver) : Prop :=
  ∀ a, s.agents.get? p = some a → a.passive = false → a.due = false → a.inbox.Sorted →
    ∃ inbox, t.agents.get? p = some { a with inbox := inbox } ∧ inbox.Sorted ∧
      ∀ l, (inbox.delta l).entries = (a.inbox.delta l).entries ++ f l

variable {p : PropagatorId} {f g : Slot → List (Event × Int32)}

private theorem Gains.refl (s : Solver) : Gains p (fun _ => []) s s := fun a ha _ _ hsorted =>
  ⟨a.inbox, ha, hsorted, fun _ => (List.append_nil _).symm⟩

private theorem Gains.trans (h : Gains p f s t) (k : Gains p g t u) : Gains p (fun l => f l ++ g l) s u := by
  intro a ha hpas hdue hsorted
  obtain ⟨i, hi, hi', hf⟩ := h a ha hpas hdue hsorted
  obtain ⟨j, hj, hj', hg⟩ := k _ hi hpas hdue hi'
  exact ⟨j, hj, hj', fun l => by rw [hg, hf, List.append_assoc]⟩

/-- What a watcher of `p` passes on under `l`. -/
private def passedOn (p : PropagatorId) (l : Slot) (c : Change) (w : Watcher) : List (Event × Int32) :=
  if w.propagator = p ∧ w.slot = l ∧ w.events.contains c.event = true then [(c.event, c.value)] else []

private theorem gains_tell (s : Solver) (c : Change) (w : Watcher) :
    Gains p (fun l => passedOn p l c w) s (s.tell c w) := by
  intro a ha hpas hdue hsorted
  unfold tell
  by_cases hc : w.events.contains c.event = true
  · by_cases hw : w.propagator = p
    · subst hw
      refine ⟨a.inbox.push w.slot c.event c.value, ?_, Inbox.sorted_push hsorted _ _ _, fun l => ?_⟩
      · simp [hc, ha, hpas, hdue, Table.get?_set_self ha]
      · rw [Inbox.delta_push hsorted]
        by_cases hl : w.slot = l
        · subst hl
          simp [passedOn, hc, Delta.push]
        · simp [passedOn, hl, Ne.symm hl]
    · refine ⟨a.inbox, ?_, hsorted, fun l => by simp [passedOn, hw]⟩
      rw [if_pos hc]
      -- whatever happens to the watcher, `p` is another propagator
      split
      · exact ha
      · split
        · exact ha
        · simp only
          split
          · exact ha
          · rw [Table.get?_set_ne _ (Ne.symm hw), ha]
  · rw [if_neg hc]
    exact ⟨a.inbox, ha, hsorted, fun l => by simp [passedOn, hc]⟩

private theorem gains_foldl_tell (c : Change) (ws : List Watcher) (s : Solver) :
    Gains p (fun l => ws.flatMap (passedOn p l c)) s (ws.foldl (fun s w => s.tell c w) s) := by
  induction ws generalizing s with
  | nil => exact .refl s
  | cons w ws ih => exact (gains_tell s c w).trans (ih (s.tell c w))

private theorem flatMap_passedOn {ws : List Watcher} {l : Slot} {c : Change}
    (h : ws.Pairwise fun w x => ¬ (w.propagator = x.propagator ∧ w.slot = x.slot)) :
    ws.flatMap (passedOn p l c) =
      if ∃ w ∈ ws, w.propagator = p ∧ w.slot = l ∧ w.events.contains c.event = true then [(c.event, c.value)]
      else [] := by
  induction ws with
  | nil => simp
  | cons w ws ih =>
    obtain ⟨hw, hws⟩ := List.pairwise_cons.1 h
    rw [List.flatMap_cons, ih hws, passedOn]
    by_cases hp : w.propagator = p ∧ w.slot = l ∧ w.events.contains c.event = true
    · -- the other watchers are another propagator's or have another slot
      have hno : ¬ ∃ x ∈ ws, x.propagator = p ∧ x.slot = l ∧ x.events.contains c.event = true := by
        rintro ⟨x, hx, hxp, hxl, -⟩
        exact hw x hx ⟨hp.1.trans hxp.symm, hp.2.1.trans hxl.symm⟩
      rw [if_pos hp, if_neg hno, if_pos ⟨w, by simp, hp⟩, List.append_nil]
    · rw [if_neg hp, List.nil_append]
      simp only [List.exists_mem_cons_iff, hp, false_or]

/-- A propagator hears of a change at most once under each of its slots. -/
private theorem gains_deliver {c : Posting} (hd : s.watches.Distinct)
    (hc : ∀ ch l, s.watches.Tells p ch l ↔ c.Hears ch l) (ch : Change) :
    Gains p (fun l => c.heard l [ch]) s (s.deliver ch) := by
  have h := gains_foldl_tell (p := p) ch (s.watches.watchers ch.var) s
  -- of the watchers of the variable at most one is that of `p` under the slot
  have heq : (fun l => (s.watches.watchers ch.var).flatMap (passedOn p l ch)) = fun l => c.heard l [ch] := by
    funext l
    rw [flatMap_passedOn (hd ch.var), Posting.heard, List.flatMap_singleton]
    exact if_congr (hc ch l) rfl rfl
  rwa [heq] at h

private theorem gains_foldl_deliver {c : Posting} (cs : List Change) (hd : s.watches.Distinct)
    (hc : ∀ ch l, s.watches.Tells p ch l ↔ c.Hears ch l) :
    Gains p (fun l => c.heard l cs) s (cs.foldl deliver s) := by
  induction cs generalizing s with
  | nil => exact .refl s
  | cons ch cs ih =>
    have hrest := ih (s := s.deliver ch) (by rwa [watches_deliver]) (by rwa [watches_deliver])
    have hall := (gains_deliver hd hc ch).trans hrest
    simpa only [← Posting.heard_append, List.singleton_append, List.foldl_cons] using hall

/-- A notified propagator has been told, under each slot, what it listens to there, once and in order. -/
theorem gains_notify {c : Posting} (hd : s.watches.Distinct) (hc : ∀ ch l, s.watches.Tells p ch l ↔ c.Hears ch l) :
    Gains p (fun l => c.heard l s.store.changes.toList) s s.notify :=
  gains_foldl_deliver (s := { s with store := { s.store with changes := #[] } }) s.store.changes.toList hd hc

end Solver

end SetConstraints
