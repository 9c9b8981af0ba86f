import SetConstraints.Proofs.Backtracking

/-!
# Rest

Those at rest have nothing to be told (`Solver.Undisturbed.step`), and a propagator stays at rest as long as the
solver does not go below the level at which it came to rest (`Solver.RestsFrom.step`): until then nobody calls it and
it does not wait, and going below that level wakes it (`Solver.RestsFrom.wakes`).  So the wish of a propagator for
rest is heard from the call in which it is expressed to the right moment (`Solver.rests_until_left`).  The calls of
the check of a fixpoint are an exception: what is asked for in them is not heard (`Solver.dozer_called_again`).
-/

namespace SetConstraints

namespace Solver

variable {o : Options} {s₀ s t u : Solver} {x : Occurrence} {xs before : List Occurrence} {p q : PropagatorId}
  {ps : List PropagatorId} {zs after : List (Occurrence × List PropagatorId)} {a : Agent} {k level : Nat}

/-! ### Nothing to be told -/

/-- Those at rest have nothing to be told. -/
def Undisturbed (s : Solver) : Prop :=
  ∀ p a, s.agents.get? p = some a → a.passive = true → ∀ l e v, ¬ a.inbox.news l e v

private theorem undisturbed_set {b : Agent} (h : s.Undisturbed) (hagents : t.agents = s.agents.set q b)
    (hpas : b.passive = false) : t.Undisturbed := by
  intro p d hd hrest
  rw [hagents] at hd
  by_cases hp : p = q
  · subst hp
    obtain ⟨c, hc⟩ := Table.exists_get? (Table.size_set s.agents p b).symm hd
    obtain rfl := Option.some.inj ((Table.get?_set_self hc b).symm.trans hd)
    simp [hpas] at hrest
  · rw [Table.get?_set_ne _ hp] at hd
    exact h p d hd hrest

theorem Undisturbed.step (h : s.Undisturbed) (hs : s.Linked) (hx : Step s x t) : t.Undisturbed := by
  cases hx with
  | created | narrowed | opened | taken | noted => exact h
  | wentBack hl =>
    have hr := returned_returnTo hs hl
    intro p b hb _
    obtain ⟨a, ha⟩ := Table.exists_get? hr.size_eq.symm hb
    obtain ⟨passive, hget, -⟩ := hr.agent p a ha
    obtain rfl := Option.some.inj (hget.symm.trans hb)
    exact Inbox.not_news_empty
  | added =>
    intro p b hb hpas
    rw [agents_joined] at hb
    split at hb
    · cases hb
      cases hpas
    · exact h p b hb hpas
  | delivered =>
    have hn := notified_notify s
    intro p b hb hpas l e v hnews
    obtain ⟨a, ha⟩ := Table.exists_get? hn.size_eq.symm hb
    obtain ⟨inbox, hget, hinbox⟩ := hn.agent p a ha
    obtain rfl := Option.some.inj (hget.symm.trans hb)
    -- nobody tells a propagator at rest
    rcases (hinbox l e v).1 hnews with hold | ⟨hno, -⟩
    · exact h p a ha hpas l e v hold
    · simp [hno] at hpas
  | scratch ha hpas => exact undisturbed_set h rfl hpas
  | handed ha hpas => exact undisturbed_set h rfl hpas
  | rested =>
    intro p b hb hpas
    simp only [putToRest, modifyAgent, log, record, Table.get?_modify] at hb
    split at hb
    · obtain ⟨a, -, rfl⟩ := Option.map_eq_some_iff.1 hb
      exact Inbox.not_news_empty
    · exact h p b hb hpas
  | gaveUp p e =>
    intro p b hb _
    rw [giveUp_eq] at hb
    simp only [Table.get?_map] at hb
    obtain ⟨a, -, rfl⟩ := Option.map_eq_some_iff.1 hb
    exact Inbox.not_news_empty

theorem Undisturbed.path (h : s.Undisturbed) (hs : s.Linked) (hxs : Path s xs t) : t.Undisturbed := by
  induction hxs with
  | nil => exact h
  | cons hx _ ih => exact ih (h.step hs hx) (hs.step hx)

theorem undisturbed_new (h : new? o = .ok s) : s.Undisturbed := by
  unfold new? at h
  split at h
  · cases h
  · cases h
    intro p a ha
    simp [Table.get?] at ha

/-! ### The level of a rest -/

/-- The propagator came to rest at level `k`, and the solver has not gone below this level since. -/
structure RestsFrom (p : PropagatorId) (k : Nat) (s : Solver) : Prop where
  le_depth : k ≤ s.depth
  mem : p ∈ (s.passiveTrail.rewind k).2.entries
  not_mem : ∀ level < k, p ∉ (s.passiveTrail.rewind level).2.entries

theorem restsFrom_putToRest (h : s.Linked) (ha : s.agents.get? p = some a) (hpas : a.passive = false) :
    RestsFrom p s.depth (s.putToRest p) := by
  have htrail : (s.putToRest p).passiveTrail = s.passiveTrail.push p := rfl
  have hdepth : s.passiveTrail.depth = s.depth := h.depth_eq
  refine ⟨le_rfl, ?_, fun level hl => ?_⟩
  · rw [htrail, ← hdepth, ← Trail.depth_push s.passiveTrail p, Trail.rewind_depth, Trail.entries_push]
    exact List.mem_cons_self
  · rw [htrail, Trail.rewind_push (hdepth.symm ▸ hl)]
    intro hp
    have hmem : p ∈ s.passiveTrail.entries := by
      rw [← Trail.entries_rewind s.passiveTrail level]
      exact List.mem_append_right _ hp
    simpa [hpas] using (h.passive_eq_true_iff ha).2 hmem

/-- A step that does not go below a level wakes nobody who rests there. -/
theorem Step.mem_rewind (hx : Step s x t) (h : s.Linked) (hl : level ≤ s.depth)
    (hback : ∀ l, x = .wentBack l → level ≤ l) (hp : p ∈ (s.passiveTrail.rewind level).2.entries) :
    p ∈ (t.passiveTrail.rewind level).2.entries := by
  rcases Nat.lt_or_eq_of_le hl with hlt | rfl
  · rwa [hx.trail_rewind h hlt hback]
  · have hdepth : s.passiveTrail.depth = s.depth := h.depth_eq
    have hall : s.passiveTrail.rewind s.depth = ([], s.passiveTrail) := by rw [← hdepth, Trail.rewind_depth]
    cases hx with
    | created | narrowed | added | taken | scratch | handed | noted => exact hp
    | opened =>
      show p ∈ (s.passiveTrail.mark.rewind s.depth).2.entries
      rwa [Trail.rewind_mark hdepth.ge]
    | @wentBack level hle =>
      -- there is no level between
      obtain rfl := Nat.le_antisymm hle (hback level rfl)
      rw [(returned_returnTo h le_rfl).eq_with]
      show p ∈ ((s.passiveTrail.rewind s.depth).2.rewind s.depth).2.entries
      rw [hall] at hp ⊢
      rwa [hall]
    | delivered =>
      rw [(notified_notify s).eq_with]
      exact hp
    | @rested q =>
      show p ∈ ((s.passiveTrail.push q).rewind s.depth).2.entries
      rw [← hdepth, ← Trail.depth_push s.passiveTrail q, Trail.rewind_depth]
      rw [hall] at hp
      exact List.mem_cons_of_mem _ hp
    | gaveUp q e =>
      rw [giveUp_eq]
      exact hp

theorem RestsFrom.step (h : RestsFrom p k s) (hs : s.Linked) (hx : Step s x t)
    (hback : ∀ l, x = .wentBack l → k ≤ l) : RestsFrom p k t where
  le_depth := by
    rw [hx.depth_eq hs]
    have := h.le_depth
    cases x with
    | opened => exact Nat.le_succ_of_le this
    | wentBack l => exact hback l rfl
    | _ => exact this
  mem := hx.mem_rewind hs h.le_depth hback h.mem
  not_mem level hl := by
    rw [hx.trail_rewind hs (Nat.lt_of_lt_of_le hl h.le_depth) fun l he => (Nat.le_of_lt hl).trans (hback l he)]
    exact h.not_mem level hl

theorem RestsFrom.passive (h : RestsFrom p k s) (hs : s.Linked) :
    ∃ a, s.agents.get? p = some a ∧ a.passive = true := by
  rw [← hs.passive_iff, ← Trail.entries_rewind s.passiveTrail k]
  exact List.mem_append_right _ h.mem

theorem RestsFrom.not_mem_queue (h : RestsFrom p k s) (hs : s.Linked) : p ∉ s.queue.lines.toList.flatten := by
  obtain ⟨a, ha, hpas⟩ := h.passive hs
  exact fun hp => hs.not_isWaiting ha hpas ((Queue.mem_flatten_lines hs.queue).1 hp)

theorem RestsFrom.not_called (h : RestsFrom p k s) (hs : s.Linked) (hx : Calls s x ps t) : p ∉ ps := by
  intro hp
  obtain ⟨a, ha, hpas⟩ := h.passive hs
  obtain ⟨b, hb, hno⟩ := hx.active p hp
  obtain rfl := Option.some.inj (ha.symm.trans hb)
  simp [hpas] at hno

/-- As long as the solver does not go below the level of its rest, a propagator rests, and nobody calls it. -/
theorem RestsFrom.course (h : RestsFrom p k s) (hs : s.Linked) (hzs : Course s zs t)
    (hback : ∀ l ps, (.wentBack l, ps) ∈ zs → k ≤ l) : RestsFrom p k t ∧ ∀ z ∈ zs, p ∉ z.2 := by
  induction hzs with
  | nil => exact ⟨h, by simp⟩
  | @cons s t u x ps xs hx hno _ ih =>
    have hnext := h.step hs hx.step fun l hl => hback l ps (by simp [hl])
    obtain ⟨hend, hrest⟩ := ih hnext (hs.step hx.step) fun l ps hl => hback l ps (by simp [hl])
    exact ⟨hend, List.forall_mem_cons.2 ⟨h.not_called hs hx, hrest⟩⟩
  | @asking s t u v x q ps xs hx _ hq _ ih =>
    have hnext := h.step hs hx.step fun l hl => hback l ps (by simp [hl])
    have hlinked := hs.step hx.step
    obtain ⟨hend, hrest⟩ := ih (hnext.step hlinked hq.step nofun) (hlinked.step hq.step)
      fun l ps hl => hback l ps (by simp [hl])
    exact ⟨hend, List.forall_mem_cons.2 ⟨h.not_called hs hx, List.forall_mem_cons.2 ⟨by simp, hrest⟩⟩⟩

/-- Going below the level of its rest wakes a propagator, which then waits to be called from scratch. -/
theorem RestsFrom.wakes (h : RestsFrom p k s) (hs : s.Linked) (hl : level < k) :
    ∃ a, (s.returnTo level).agents.get? p = some a ∧ a.passive = false ∧ a.due = true ∧ a.inbox = {} ∧
      p ∈ (s.returnTo level).queue.lines.toList.flatten := by
  have hle : level ≤ s.depth := (Nat.le_of_lt hl).trans h.le_depth
  have hr := returned_returnTo hs hle
  obtain ⟨a, ha, -⟩ := h.passive hs
  obtain ⟨passive, hget, hiff⟩ := hr.agent p a ha
  obtain rfl : passive = false := by
    rw [← Bool.not_eq_true, hiff]
    exact h.not_mem level hl
  exact ⟨_, hget, rfl, rfl, rfl, (Queue.mem_flatten_lines hr.queue).2 ((hr.isWaiting p).2 ⟨_, hget, rfl⟩)⟩

/-! ### From the wish for rest to the end of the rest -/

private theorem Asks.unique (h : s.Asks p x) (k : s.Asks q x) : p = q := by
  cases x with
  | scratch | handed => exact h.1.symm.trans k.1
  | _ => exact h.elim

/-- After a call that earns it a rest, a propagator rests from the level of the call on. -/
theorem Asks.course (hasks : s.Asks p x) (hs : s.Linked) (hzs : Course s ((x, ps) :: after) t)
    (hback : ∀ l qs, (.wentBack l, qs) ∈ after → s.depth ≤ l) :
    RestsFrom p s.depth t ∧ ∀ z ∈ after, p ∉ z.2 := by
  cases hzs with
  | cons _ hno => exact absurd hasks (hno p)
  | @asking _ v u _ _ q _ zs hx hq hrest hafter =>
    obtain rfl := hasks.unique hq
    have hlinked := hs.step hx.step
    have hdepth : v.depth = s.depth := (hx.step.depth_eq hs).trans <| by
      cases x with
      | scratch | handed => rfl
      | _ => exact hasks.elim
    have hrests : RestsFrom p s.depth u := by
      rw [← hdepth]
      cases hrest.step with
      | rested ha hpas => exact restsFrom_putToRest hlinked ha hpas
    obtain ⟨hend, hcalls⟩ := hrests.course (hlinked.step hrest.step) hafter fun l qs hl => hback l qs (by simp [hl])
    exact ⟨hend, List.forall_mem_cons.2 ⟨by simp, hcalls⟩⟩

/-- What holds of those at rest. -/
structure Rests (s : Solver) : Prop where
  depth_eq : s.passiveTrail.depth = s.depth
  passive_iff : ∀ p a, s.agents.get? p = some a → (a.passive = true ↔ p ∈ s.passiveTrail.entries)
  count_eq : ∀ p a, s.agents.get? p = some a → a.passive = true → s.passiveTrail.entries.count p = 1
  not_mem_queue : ∀ p a, s.agents.get? p = some a → a.passive = true → p ∉ s.queue.lines.toList.flatten
  empty : ∀ p a, s.agents.get? p = some a → a.passive = true → ∀ l d, (l, d) ∈ a.inbox.pending → d.entries = []

theorem Linked.rests (h : s.Linked) (hun : s.Undisturbed) : s.Rests where
  depth_eq := h.depth_eq
  passive_iff _ _ ha := h.passive_eq_true_iff ha
  count_eq _ _ ha hpas := List.count_eq_one_of_mem h.nodup ((h.passive_eq_true_iff ha).1 hpas)
  not_mem_queue _ _ ha hpas hp := h.not_isWaiting ha hpas ((Queue.mem_flatten_lines h.queue).1 hp)
  empty p a ha hpas l d hd := List.eq_nil_iff_forall_not_mem.2 fun (e, v) hv => hun p a ha hpas l e v ⟨d, hd, hv⟩

/-- Every session is a course.  Whatever has happened, those at rest are those in the trail of the levels, each there
once, and neither wait nor have anything to be told.  From a call of a run that earns a propagator a rest on, as long
as no level below that of the call is gone back to, nobody calls this propagator and it does not wait; going back
below wakes it, and it waits to be called from scratch. -/
theorem rests_until_left (h₀ : new? o = .ok s₀) :
    (∀ ops v, s₀.performAll ops = .ok v → ∃ zs, Course s₀ zs v) ∧
      (∀ before s, Path s₀ before s → s.Rests) ∧
        ∀ before s x ps p after t, Path s₀ before s → Course s ((x, ps) :: after) t → s.Asks p x →
          (∀ l qs, (.wentBack l, qs) ∈ after → s.depth ≤ l) →
            (∀ z ∈ after, p ∉ z.2) ∧ p ∉ t.queue.lines.toList.flatten ∧
              ∀ level < s.depth, t.backtrack level = ⟨.ok (), t.returnTo level⟩ ∧
                ∃ a, (t.returnTo level).agents.get? p = some a ∧ a.passive = false ∧ a.due = true ∧
                  p ∈ (t.returnTo level).queue.lines.toList.flatten := by
  have hnew := linked_new h₀
  refine ⟨fun ops v => exists_course_performAll hnew, fun before s hs => ?_, ?_⟩
  · exact (hnew.path hs).rests ((undisturbed_new h₀).path hnew hs)
  · intro before s x ps p after t hs hzs hasks hback
    have hlinked := hnew.path hs
    obtain ⟨hrests, hcalls⟩ := hasks.course hlinked hzs hback
    have hend := hlinked.path hzs.path
    refine ⟨hcalls, hrests.not_mem_queue hend, fun level hl => ⟨?_, ?_⟩⟩
    · have hle : level ≤ t.depth := (Nat.le_of_lt hl).trans hrests.le_depth
      rw [backtrack, if_neg (Nat.not_lt.2 hle)]
    · obtain ⟨a, ha, hpas, hdue, -, hwaits⟩ := hrests.wakes hend hl
      exact ⟨a, ha, hpas, hdue, hwaits⟩

/-- A propagator that is content from scratch.  What it is told under slot 1 makes it lower the second variable and
ask for rest; it hears of the first variable under three slots, and of the second one under the first of them. -/
private def napper : Posting where
  propagator :=
    { name := "napper", text := "napper", fromScratch := .done (), entailment := fun _ => .ok .undetermined
      incremental := fun l _ => if l = ⟨1⟩ then .atMost ⟨1⟩ 7 >>= fun _ => .askRest else .done () }
  registrations :=
    [⟨.int ⟨0⟩, .bounds, ⟨0⟩⟩, ⟨.int ⟨1⟩, .bounds, ⟨0⟩⟩, ⟨.int ⟨0⟩, .bounds, ⟨1⟩⟩, ⟨.int ⟨0⟩, .bounds, ⟨2⟩⟩]

private def twoInts : Solver :=
  (({ options := {}, queue := .new Priority.count } : Solver).extend (.int ⟨0, 6, by decide⟩)).extend
    (.int ⟨0, 8, by decide⟩)

private def napping : WatchList := (twoInts.watches.registerAll? ⟨0⟩ napper.registrations).getD {}

private def raised (s : Solver) (v : Int32) : Solver := (s.narrow (.atLeast ⟨0⟩ v)).solver

/-- The napper has been called from scratch, and a level higher it is about to be told of a change under three
slots. -/
private def beforeDeltas : Solver :=
  let s := (twoInts.joined napper napping).notify.popped.scratched ⟨0⟩ { propagator := napper.propagator }
  (s.raised 1).mark.notify.popped

private def lifted : Delta := ⟨[(.lowerRaised, 1)]⟩

private def owed (deltas : List (Slot × Delta)) : Agent where
  propagator := napper.propagator
  inbox := ⟨deltas⟩
  due := false

/-- The first delta has been handed over, and the second one is to make the napper ask for rest. -/
private def beforeRest : Solver :=
  beforeDeltas.handed ⟨0⟩ (owed [(⟨0⟩, lifted), (⟨1⟩, lifted), (⟨2⟩, lifted)]) ⟨0⟩ lifted
    [(⟨1⟩, lifted), (⟨2⟩, lifted)]

private def afterRest : Solver :=
  (beforeRest.handed ⟨0⟩ (owed [(⟨1⟩, lifted), (⟨2⟩, lifted)]) ⟨1⟩ lifted [(⟨2⟩, lifted)]).putToRest ⟨0⟩

/-- While the napper rests, a level is opened on which the first variable changes, and left again. -/
private def whileResting : Solver := ((afterRest.notify.mark.raised 3).notify).returnTo 1

/-- The napper asks for rest with one delta left, in a call that makes a change about which it would have been
told. -/
theorem rests_until_left_sample :
    ∃ s₀ before s x ps after t, new? {} = .ok s₀ ∧ Path s₀ before s ∧ Course s ((x, ps) :: after) t ∧
      s.Asks ⟨0⟩ x ∧ (∀ l qs, (.wentBack l, qs) ∈ after → s.depth ≤ l) ∧ s.depth = 1 ∧ s.Rests ∧
      (∀ z ∈ after, ⟨0⟩ ∉ z.2) ∧ ⟨0⟩ ∉ t.queue.lines.toList.flatten ∧
      t.backtrack 0 = ⟨.ok (), t.returnTo 0⟩ ∧ ∃ a, (t.returnTo 0).agents.get? ⟨0⟩ = some a ∧ a.passive = false ∧
        a.due = true ∧ ⟨0⟩ ∈ (t.returnTo 0).queue.lines.toList.flatten := by
  have hbefore : Path _ [.created (.int ⟨0, 6, by decide⟩), .created (.int ⟨0, 8, by decide⟩), .added napper,
      .delivered, .taken ⟨0⟩, .scratch ⟨0⟩ [], .narrowed [⟨.int ⟨0⟩, .lowerRaised, 1⟩], .opened, .delivered,
      .taken ⟨0⟩, .handed ⟨0⟩ ⟨0⟩ lifted []] beforeRest :=
    .cons (.created trivial) <| .cons (.created trivial) <| .cons (.added (w := napping) rfl) <|
      .cons .delivered <| .cons (.taken rfl) <| .cons (.scratch rfl rfl rfl rfl) <|
      .cons (.narrowed (n := .atLeast ⟨0⟩ 1) rfl rfl) <| .cons .opened <| .cons .delivered <| .cons (.taken rfl) <|
      .cons (.handed rfl rfl rfl rfl rfl) <| .nil _
  have hasks : beforeRest.Asks ⟨0⟩ (.handed ⟨0⟩ ⟨1⟩ lifted [⟨.int ⟨1⟩, .upperLowered, 7⟩]) :=
    ⟨rfl, owed [(⟨1⟩, lifted), (⟨2⟩, lifted)], rfl, rfl, rfl⟩
  have hcourse : Course beforeRest [(.handed ⟨0⟩ ⟨1⟩ lifted [⟨.int ⟨1⟩, .upperLowered, 7⟩], [⟨0⟩]), (.rested ⟨0⟩, []),
      (.delivered, []), (.opened, []), (.narrowed [⟨.int ⟨0⟩, .lowerRaised, 3⟩], []), (.delivered, []),
      (.wentBack 1, [])] whileResting :=
    .asking ((Step.handed (a := owed [(⟨1⟩, lifted), (⟨2⟩, lifted)]) rfl rfl rfl rfl rfl).calls rfl) hasks
        ((Step.rested (a := owed [(⟨2⟩, lifted)]) rfl rfl rfl).calls rfl) <|
      .cons (Step.delivered.calls rfl) (not_asks rfl) <| .cons (Step.opened.calls rfl) (not_asks rfl) <|
      .cons ((Step.narrowed (n := .atLeast ⟨0⟩ 3) rfl rfl).calls rfl) (not_asks rfl) <|
      .cons (Step.delivered.calls rfl) (not_asks rfl) <|
      .cons ((Step.wentBack (by decide +kernel)).calls rfl) (not_asks rfl) <| .nil _
  have hback : ∀ l qs, (Occurrence.wentBack l, qs) ∈ [(.rested ⟨0⟩, []), (.delivered, []), (.opened, []),
      (.narrowed [⟨.int ⟨0⟩, .lowerRaised, 3⟩], []), (.delivered, []), (.wentBack 1, ([] : List PropagatorId))] →
        beforeRest.depth ≤ l := by
    have hdepth : beforeRest.depth = 1 := rfl
    simp +contextual [hdepth]
  obtain ⟨-, hrests, hcalls⟩ := rests_until_left (o := {}) rfl
  obtain ⟨h1, h2, h3⟩ := hcalls _ _ _ _ _ _ _ hbefore hcourse hasks hback
  exact ⟨_, _, _, _, _, _, _, rfl, hbefore, hcourse, hasks, hback, rfl, hrests _ _ hbefore, h1, h2,
    h3 0 (by decide +kernel)⟩

/-- A propagator that asks for rest from scratch only, once 1 is in the kernel of the set. -/
private def dozer : Propagator where
  name := "dozer"
  text := "dozer"
  fromScratch := do
    let d ← Action.set ⟨0⟩
    if d.requires 1 then Action.askRest
  incremental _ _ := pure ()
  entailment _ := .ok .undetermined

private def dozing : List Operation :=
  [.newSet [] [1], .add { propagator := dozer, registrations := [⟨.set ⟨0⟩, .anySet, ⟨0⟩⟩] },
    .narrow (.require ⟨0⟩ 1), .propagate]

private def checking : Solver := { options := { checks := true }, queue := .new Priority.count }

/-- Rest is not granted in a check.  The last call here is one of the check; the dozer earns a rest in it, but it
neither rests nor waits nor is due afterwards, and the next check calls it again, though no level has been left
meanwhile. -/
theorem dozer_called_again :
    ∃ s₀ s t, new? { checks := true } = .ok s₀ ∧ s₀.performAll dozing = .ok s ∧ s.perform .propagate = .ok t ∧
      s.journal.back? = some (.call (.scratch ⟨0⟩) s.store.domains) ∧ dozer.fromScratch.EarnsRest s.store ∧
      (s.agents.get? ⟨0⟩).map Agent.passive = some false ∧ (s.agents.get? ⟨0⟩).map Agent.due = some false ∧
      s.queue.lines.toList.flatten = [] ∧ callees t.journal = callees s.journal ++ [⟨0⟩] := by
  have hs : checking.performAll dozing = .ok (checking.past dozing) := performAll_eq (by decide +kernel)
  have ht : (checking.past dozing).performAll [.propagate] = .ok ((checking.past dozing).past [.propagate]) :=
    performAll_eq (by decide +kernel)
  obtain ⟨v, hv, hnil⟩ := performAll_cons.1 ht
  cases hnil
  exact ⟨_, _, _, rfl, hs, hv, by decide +kernel, ⟨by decide +kernel, by decide +kernel⟩, by decide +kernel,
    by decide +kernel, by decide +kernel, by decide +kernel⟩

end Solver

end SetConstraints
