import SetConstraints.Constraint
import SetConstraints.Proofs.Solver.Operations

/-!
# Going back

What a solver can bring back of a level is not touched by what it does above (`Solver.Since.step`): narrowings and
propagators at rest are recorded under the level in which they happen, and new variables and propagators are there on
all levels.  So going back to the level from which one was opened reinstates what there was then, whatever propagators
have done in between (`Solver.reinstated_backtrack`).
-/

namespace SetConstraints

namespace Solver

variable {s t u v : Solver} {x : Occurrence} {xs : List Occurrence} {ds : List Domain} {level : Nat}
  {op : Operation} {ops before after : List Operation}

/-! ### Lower levels -/

private theorem rewind_eq_of_narrow {n : Narrowing} {w : Store} (h : s.Linked) (hl : level < s.depth)
    (hn : s.store.narrow n = .ok w) : w.rewind level = s.store.rewind level := by
  obtain ⟨new, hnew⟩ := h.exists_narrowed hn
  exact hnew.rewind_eq level hl

private theorem rewind_eq_of_run (a : Action Unit) (h : s.Linked) (hl : level < s.depth) :
    (a.run s.store false).store.rewind level = s.store.rewind level := by
  obtain ⟨new, hnew⟩ := Action.narrowed_run (Action.only_true a) h.valid.wellFormed false
  exact hnew.rewind_eq level hl

/-- A step above a level changes nothing on it, but for a new variable. -/
theorem Step.domains_rewind (hx : Step s x t) (h : s.Linked) (hl : level < s.depth)
    (hback : ∀ l, x = .wentBack l → level ≤ l) :
    (t.store.rewind level).domains = x.creations.foldl Domains.extend (s.store.rewind level).domains := by
  cases hx with
  | created => exact congrArg Store.domains (Store.rewind_extend h.valid _ level)
  | narrowed hn => exact congrArg Store.domains (rewind_eq_of_narrow h hl hn)
  | opened => exact congrArg Store.domains (Store.rewind_mark (Nat.le_of_lt hl))
  | wentBack hle =>
    -- going back in two steps is going back at once
    rw [h.store_returnTo hle, Store.rewind_rewind (hback _ rfl) hle]
    rfl
  | delivered =>
    rw [(notified_notify s).eq_with]
    rfl
  | scratch => exact congrArg Store.domains (rewind_eq_of_run _ h hl)
  | handed => exact congrArg Store.domains (rewind_eq_of_run _ h hl)
  | added | taken | rested | noted => rfl
  | gaveUp p e =>
    rw [giveUp_eq]
    rfl

/-- A step above a level leaves alone who has come to rest there. -/
theorem Step.trail_rewind (hx : Step s x t) (h : s.Linked) (hl : level < s.depth)
    (hback : ∀ l, x = .wentBack l → level ≤ l) :
    (t.passiveTrail.rewind level).2 = (s.passiveTrail.rewind level).2 := by
  cases hx with
  | opened => exact congrArg Prod.snd (Trail.rewind_mark (h.depth_eq ▸ Nat.le_of_lt hl))
  | wentBack hle =>
    rw [(returned_returnTo h hle).eq_with]
    have hsplit := s.passiveTrail.rewind_rewind (hback _ rfl) (h.depth_eq ▸ hle)
    exact (congrArg Prod.snd hsplit).symm
  | delivered => rw [(notified_notify s).eq_with]
  | @rested p =>
    have hl : level < s.passiveTrail.depth := by rwa [h.depth_eq]
    show ((s.passiveTrail.push p).rewind level).2 = (s.passiveTrail.rewind level).2
    rw [Trail.rewind_push hl]
  | created | narrowed | added | taken | scratch | handed | noted => rfl
  | gaveUp p e => rw [giveUp_eq]

/-! ### Since a level was opened -/

/-- What a solver can bring back of a state `s` below; `ds` are the domains of the variables created since then. -/
structure Since (s u : Solver) (ds : List Domain) : Prop where
  lt_depth : s.depth < u.depth
  domains_eq : (u.store.rewind s.depth).domains = ds.foldl Domains.extend s.store.domains
  trail_eq : (u.passiveTrail.rewind s.depth).2 = s.passiveTrail
  kept : ∀ p a, s.agents.get? p = some a → ∃ b, u.agents.get? p = some b ∧ b.propagator = a.propagator

theorem since_mark (h : s.Linked) : Since s s.mark [] where
  lt_depth := Nat.lt_succ_self _
  domains_eq := by
    show (s.store.mark.rewind s.store.depth).domains = s.store.domains
    rw [Store.rewind_mark le_rfl, Store.rewind_depth]
  trail_eq := by
    show (s.passiveTrail.mark.rewind s.store.depth).2 = s.passiveTrail
    rw [← h.depth_eq, Trail.rewind_mark le_rfl, Trail.rewind_depth]
  kept p a ha := ⟨a, ha, rfl⟩

theorem Since.step (h : Since s u ds) (hu : u.Linked) (hx : Step u x v)
    (hback : ∀ l, x = .wentBack l → s.depth < l) : Since s v (ds ++ x.creations) where
  lt_depth := by
    rw [hx.depth_eq hu]
    have := h.lt_depth
    cases x with
    | opened => exact Nat.lt_succ_of_lt this
    | wentBack l => exact hback l rfl
    | _ => exact this
  domains_eq := by
    rw [hx.domains_rewind hu h.lt_depth fun l hl => (hback l hl).le, h.domains_eq, List.foldl_append]
  trail_eq := (hx.trail_rewind hu h.lt_depth fun l hl => (hback l hl).le).trans h.trail_eq
  kept p a ha := by
    obtain ⟨b, hb, hp⟩ := h.kept p a ha
    obtain ⟨d, hd, hq⟩ := hx.kept hu hb
    exact ⟨d, hd, hq.trans hp⟩

theorem Since.path (h : Since s u ds) (hu : u.Linked) (hs : Path u xs v)
    (hback : ∀ l, .wentBack l ∈ xs → s.depth < l) : Since s v (ds ++ xs.flatMap Occurrence.creations) := by
  induction hs generalizing ds with
  | nil => simpa using h
  | @cons u w v x xs hx _ ih =>
    have := ih (h.step hu hx fun l hl => hback l (by simp [hl])) (hu.step hx) fun l hl => hback l (by simp [hl])
    rwa [List.append_assoc] at this

theorem Since.performAll (h : Since s u ds) (hu : u.Linked) (hops : u.performAll ops = .ok v)
    (hback : ∀ l, .backtrack l ∈ ops → s.depth < l) : Since s v (ds ++ ops.flatMap Operation.creations) := by
  induction ops generalizing u ds with
  | nil => cases hops; simpa using h
  | cons op ops ih =>
    obtain ⟨w, hw, hops⟩ := performAll_cons.1 hops
    obtain ⟨xs, hxs, hcreations, hlevels⟩ := exists_path hu hw
    -- an operation goes below its level only by going back to the level asked for
    have hnext := h.path hu hxs fun l hl => by
      rcases hlevels l hl with rfl | hle
      · exact hback l (by simp)
      · exact Nat.lt_of_lt_of_le h.lt_depth hle
    rw [hcreations] at hnext
    have := ih hnext (hu.path hxs) hops fun l hl => hback l (by simp [hl])
    rwa [List.append_assoc] at this

/-! ### Coming back -/

/-- `t` is on the level of `s` again, where everything is as it was; variables created since then have their domains
`ds`, propagators added since then are active, and nothing is pending but a call from scratch of everyone who is not
at rest. -/
structure Reinstated (s t : Solver) (ds : List Domain) : Prop where
  domains_eq : t.store.domains = ds.foldl Domains.extend s.store.domains
  depth_eq : t.depth = s.depth
  changes_eq : t.store.changes = #[]
  kept : ∀ p a, s.agents.get? p = some a →
    ∃ b, t.agents.get? p = some b ∧ b.propagator = a.propagator ∧ b.passive = a.passive
  active : ∀ p b, t.agents.get? p = some b → s.agents.get? p = none → b.passive = false
  due : ∀ p b, t.agents.get? p = some b → b.inbox = {} ∧ b.due = true
  mem_queue_iff : ∀ p, p ∈ t.queue.lines.toList.flatten ↔ ∃ b, t.agents.get? p = some b ∧ b.passive = false
  nodup_queue : t.queue.lines.toList.flatten.Nodup

theorem Since.reinstated (h : Since s u ds) (hs : s.Linked) (hu : u.Linked) :
    Reinstated s (u.returnTo s.depth) ds := by
  have hl := h.lt_depth.le
  have hr := returned_returnTo hu hl
  have hstore := hu.store_returnTo hl
  -- who is at rest afterwards was so in `s`
  have hagent : ∀ p b, (u.returnTo s.depth).agents.get? p = some b →
      b.inbox = {} ∧ b.due = true ∧ (b.passive = true ↔ ∃ a, s.agents.get? p = some a ∧ a.passive = true) := by
    intro p b hb
    obtain ⟨a, ha⟩ := Table.exists_get? hr.size_eq.symm hb
    obtain ⟨passive, hget, hiff⟩ := hr.agent p a ha
    obtain rfl := Option.some.inj (hget.symm.trans hb)
    rw [h.trail_eq, hs.passive_iff] at hiff
    exact ⟨rfl, rfl, hiff⟩
  refine
    { domains_eq := by rw [hstore, h.domains_eq]
      depth_eq := hu.depth_returnTo hl
      changes_eq := by rw [hstore]; rfl
      kept := fun p a ha => ?_
      active := fun p b hb hno => ?_
      due := fun p b hb => ⟨(hagent p b hb).1, (hagent p b hb).2.1⟩
      mem_queue_iff := fun p => (Queue.mem_flatten_lines hr.queue).trans (hr.isWaiting p)
      nodup_queue := Queue.nodup_flatten_lines hr.queue }
  · obtain ⟨b, hb, hp⟩ := h.kept p a ha
    obtain ⟨passive, hget, -⟩ := hr.agent p b hb
    refine ⟨_, hget, hp, ?_⟩
    have hiff := (hagent p _ hget).2.2
    rw [ha] at hiff
    rw [Bool.eq_iff_iff]
    simpa using hiff
  · have hiff := (hagent p b hb).2.2
    rw [hno] at hiff
    simpa using hiff

/-- Going back to a level from which one was opened brings everything back as it was, whatever the propagators are and
whatever was done on the levels above. -/
theorem reinstated_backtrack {o : Options} {s₀ : Solver} (h₀ : new? o = .ok s₀) (hs : s₀.performAll before = .ok s)
    (hu : s.mark.performAll after = .ok u) (hback : ∀ level, .backtrack level ∈ after → s.depth < level) :
    ∃ t, u.perform (.backtrack s.depth) = .ok t ∧ Reinstated s t (after.flatMap Operation.creations) := by
  have hlinked := (linked_new h₀).performAll hs
  have hsince := (since_mark hlinked).performAll hlinked.mark hu hback
  refine ⟨u.returnTo s.depth, ?_, hsince.reinstated hlinked (hlinked.mark.performAll hu)⟩
  rw [perform, backtrack, if_neg (Nat.not_lt_of_gt hsince.lt_depth)]
  rfl

/-- The solver after operations, or the same solver if one of them is a fault. -/
def past (s : Solver) (ops : List Operation) : Solver :=
  match s.performAll ops with
  | .ok t => t
  | .error _ => s

theorem performAll_eq (h : (s.performAll ops).isOk = true) : s.performAll ops = .ok (s.past ops) := by
  unfold past
  cases hops : s.performAll ops with
  | ok t => rfl
  | error f => rw [hops] at h; cases h

/-- A set between `{1}` and `{1, 2}` below a bound between 0 and 3. -/
private def bounding : List Operation :=
  [.newSet [1] [1, 2], .newInt 0 3, .add (Constraint.strictBound ⟨⟨0⟩, ⟨0⟩⟩).posting]

/-- A new variable, a change that fixes the bound, and one level higher a change that leaves no room to it. -/
private def digression : List Operation :=
  [.newInt 5 9, .narrow (.atMost ⟨0⟩ 2), .propagate, .mark, .narrow (.require ⟨0⟩ 2), .propagate, .backtrack 1,
    .add (Constraint.strictBound ⟨⟨0⟩, ⟨1⟩⟩).posting]

/-- After the digression the bound has two values again, and the new variable has all of its own. -/
theorem reinstated_backtrack_sample :
    let blank : Solver := { options := {}, queue := .new Priority.count }
    ∃ s u t, blank.performAll bounding = .ok s ∧ s.mark.performAll digression = .ok u ∧
      u.perform (.backtrack s.depth) = .ok t ∧ Reinstated s t [.int ⟨5, 9, by decide⟩] ∧
      t.store.domains.ints.toList = [⟨2, 3, by decide⟩, ⟨5, 9, by decide⟩] ∧
      u.store.domains.ints.toList = [⟨2, 2, by decide⟩, ⟨5, 9, by decide⟩] := by
  intro blank
  have hs : blank.performAll bounding = .ok (blank.past bounding) := performAll_eq (by decide +kernel)
  have hu : (blank.past bounding).mark.performAll digression = .ok ((blank.past bounding).mark.past digression) :=
    performAll_eq (by decide +kernel)
  have hdepth : (blank.past bounding).depth = 0 := by decide +kernel
  obtain ⟨t, ht, hback⟩ := reinstated_backtrack (o := {}) rfl hs hu (by simp [digression, hdepth])
  have hcreations : digression.flatMap Operation.creations = [.int ⟨5, 9, by decide⟩] := rfl
  rw [hcreations] at hback
  refine ⟨_, _, t, hs, hu, ht, hback, ?_, by decide +kernel⟩
  rw [hback.domains_eq]
  decide +kernel

end Solver

end SetConstraints
