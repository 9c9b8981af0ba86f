import SetConstraints.Proofs.Solver.Adding

/-!
# Histories of a solver

Whatever its propagators do, all that a solver ever does is made of a few steps: variables and propagators are added,
levels opened and left, domains narrowed from outside, changes delivered, propagators taken from the queue, called,
put to rest or given up (`Solver.Step`).  A path is a sequence of steps, labelled by what happened
(`Solver.Path`).  Every step keeps the books (`Solver.Linked.step`) and the propagators that there are
(`Solver.Step.kept`), so that what holds along paths holds of all solvers.

A course is a path whose steps say in addition whom they call, as the journal has it.  Nobody at rest is called, and
who earns a rest in a run comes to rest at once (`Solver.Course`).
-/

namespace SetConstraints

/-- What happens to a solver in one step; `cs` are the changes that the step makes. -/
inductive Occurrence
  | created (d : Domain)
  | narrowed (cs : List Change)
  | opened
  | wentBack (level : Nat)
  | added (c : Posting)
  | delivered
  | taken (p : PropagatorId)
  | scratch (p : PropagatorId) (cs : List Change)
  | handed (p : PropagatorId) (l : Slot) (d : Delta) (cs : List Change)
  | rested (p : PropagatorId)
  | gaveUp (p : PropagatorId)
  /-- A note in the statistics or, but for deltas handed over, in the journal, or that no solution is left. -/
  | noted

namespace Occurrence

/-- The domains of the variables created. -/
def creations : Occurrence → List Domain
  | .created d => [d]
  | _ => []

/-- The propagators added. -/
def postings : Occurrence → List Posting
  | .added c => [c]
  | _ => []

/-- The changes made, in order. -/
def changes : Occurrence → List Change
  | .narrowed cs | .scratch _ cs | .handed _ _ _ cs => cs
  | _ => []

/-- The propagators called, but for those that a note is about. -/
def callees : Occurrence → List PropagatorId
  | .scratch p _ | .handed p _ _ _ => [p]
  | _ => []

/-- A note. -/
def isNote : Occurrence → Bool
  | .noted => true
  | _ => false

/-- The number of open levels afterwards. -/
def depth : Occurrence → Nat → Nat
  | .opened, depth => depth + 1
  | .wentBack level, _ => level
  | _, depth => depth

end Occurrence

/-- What an entry of a journal says to have been handed over. -/
def JournalEntry.handover? : JournalEntry → Option (PropagatorId × Slot × Delta)
  | .call (.incremental p l d) _ => some (p, l, d)
  | _ => none

/-- The deltas that a journal says to have been handed over, oldest first. -/
def handovers (journal : Array JournalEntry) : List (PropagatorId × Slot × Delta) :=
  journal.toList.filterMap JournalEntry.handover?

/-- The propagator that an entry of a journal says to have been called to propagate. -/
def JournalEntry.callee? : JournalEntry → Option PropagatorId
  | .call (.scratch p) _ | .call (.incremental p _ _) _ => some p
  | _ => none

/-- The propagators that a journal says to have been called to propagate, by whomever, oldest call first. -/
def callees (journal : Array JournalEntry) : List PropagatorId := journal.toList.filterMap JournalEntry.callee?

private theorem filterMap_push {α β : Type} (f : α → Option β) (xs : Array α) (x : α) :
    (xs.push x).toList.filterMap f = xs.toList.filterMap f ++ (f x).toList := by
  rw [Array.toList_push, List.filterMap_append]
  cases h : f x <;> simp [h]

@[simp] theorem handovers_push (journal : Array JournalEntry) (e : JournalEntry) :
    handovers (journal.push e) = handovers journal ++ e.handover?.toList := filterMap_push _ _ _

@[simp] theorem callees_push (journal : Array JournalEntry) (e : JournalEntry) :
    callees (journal.push e) = callees journal ++ e.callee?.toList := filterMap_push _ _ _

/-- A call that does this asks for rest and finds no contradiction. -/
def Action.EarnsRest (a : Action Unit) (s : Store) : Prop :=
  (a.run s false).resting = true ∧ (a.run s false).result = .ok ()

namespace Solver

/-- The steps that a solver takes. -/
inductive Step : Solver → Occurrence → Solver → Prop
  | created {s : Solver} {d : Domain} (hd : d.WellFormed) : Step s (.created d) (s.extend d)
  | narrowed {s : Solver} {n : Narrowing} {u : Store} {cs : List Change} (hn : s.store.narrow n = .ok u)
      (hcs : u.changes.toList = s.store.changes.toList ++ cs) : Step s (.narrowed cs) { s with store := u }
  | opened {s : Solver} : Step s .opened s.mark
  | wentBack {s : Solver} {level : Nat} (hl : level ≤ s.depth) : Step s (.wentBack level) (s.returnTo level)
  | added {s : Solver} {c : Posting} {w : WatchList}
      (hw : s.watches.registerAll? s.agents.nextKey c.registrations = some w) : Step s (.added c) (s.joined c w)
  | delivered {s : Solver} : Step s .delivered s.notify
  | taken {s : Solver} {p : PropagatorId} {q : Queue} (hpop : s.queue.pop = some (p, q)) :
      Step s (.taken p) { s with queue := q }
  | scratch {s : Solver} {p : PropagatorId} {a : Agent} {cs : List Change} (ha : s.agents.get? p = some a)
      (hpas : a.passive = false) (hempty : s.store.changes = #[])
      (hcs : (s.scratched p a).store.changes.toList = cs) : Step s (.scratch p cs) (s.scratched p a)
  | handed {s : Solver} {p : PropagatorId} {a : Agent} {l : Slot} {d : Delta} {later : List (Slot × Delta)}
      {cs : List Change} (ha : s.agents.get? p = some a) (hpas : a.passive = false) (hdue : a.due = false)
      (hin : a.inbox.pending = (l, d) :: later)
      (hcs : (s.handed p a l d later).store.changes.toList = s.store.changes.toList ++ cs) :
      Step s (.handed p l d cs) (s.handed p a l d later)
  | rested {s : Solver} {p : PropagatorId} {a : Agent} (ha : s.agents.get? p = some a) (hpas : a.passive = false)
      (hw : s.queue.isWaiting p = false) : Step s (.rested p) (s.putToRest p)
  | gaveUp {s : Solver} (p : PropagatorId) (e : Contradiction) : Step s (.gaveUp p) (s.giveUp p e)
  | noted {s : Solver} (infeasible : Bool) (statistics : Statistics) {journal : Array JournalEntry}
      (hj : handovers journal = handovers s.journal) :
      Step s .noted { s with infeasible := infeasible, statistics := statistics, journal := journal }

/-- A solver whose next propagator, if any waits, has been taken from the queue. -/
def popped (s : Solver) : Solver := { s with queue := (s.queue.pop.map Prod.snd).getD s.queue }

/-- A sequence of steps, with what happened in them. -/
inductive Path : Solver → List Occurrence → Solver → Prop
  | nil (s : Solver) : Path s [] s
  | cons {s t u : Solver} {x : Occurrence} {xs : List Occurrence} (hx : Step s x t) (hs : Path t xs u) :
      Path s (x :: xs) u

variable {s t u : Solver} {x : Occurrence} {xs ys : List Occurrence} {p : PropagatorId} {a : Agent}

/-! ### What every step keeps -/

private theorem exists_called_scratched (h : s.Linked) (p : PropagatorId) (a : Agent) :
    ∃ new, Called (fun _ => True) p a { a with due := false, inbox := {} } new s (s.scratched p a) :=
  called_scratched p h.valid.wellFormed (Action.only_true _)

private theorem exists_called_handed {l : Slot} {d : Delta} {later : List (Slot × Delta)} (h : s.Linked)
    (p : PropagatorId) (hin : a.inbox.pending = (l, d) :: later) :
    ∃ new, Called (fun _ => True) p a { a with inbox := ⟨later⟩ } new s (s.handed p a l d later) := by
  have hcalled : ∃ new,
      Called (fun _ => True) p { a with inbox := ⟨(l, d) :: later⟩ } { a with inbox := ⟨later⟩ } new s
      (s.handed p a l d later) := called_handed p later h.valid.wellFormed (Action.only_true _)
  rwa [← hin] at hcalled

theorem Linked.step (h : s.Linked) (hx : Step s x t) : t.Linked := by
  cases hx with
  | created hd => exact h.extend hd
  | narrowed hn hcs =>
    obtain ⟨new, hnew⟩ := h.exists_narrowed hn
    exact h.narrower hnew.toNarrower
  | opened => exact h.mark
  | wentBack hl => exact h.returned hl (returned_returnTo h hl)
  | added hw => exact h.joined hw
  | delivered => exact h.notified (notified_notify s)
  | taken hpop => exact h.pop hpop
  | scratch ha hpas hempty hcs =>
    obtain ⟨new, hnew⟩ := exists_called_scratched h _ _
    exact h.called hnew ha
  | handed ha hpas hdue hin hcs =>
    obtain ⟨new, hnew⟩ := exists_called_handed h _ hin
    exact h.called hnew ha
  | rested ha hpas hw => exact h.putToRest ha hpas hw
  | gaveUp p e => exact h.giveUp p e
  | noted => exact { h with }

theorem Linked.path (h : s.Linked) (hs : Path s xs t) : t.Linked := by
  induction hs with
  | nil => exact h
  | cons hx _ ih => exact ih (h.step hx)

/-- Whose state is replaced keeps its propagator if the new state has it. -/
theorem kept_of_set {q : PropagatorId} {b b' : Agent} (ha : s.agents.get? p = some a)
    (hb : s.agents.get? q = some b) (hp : b'.propagator = b.propagator) :
    ∃ d, (s.agents.set q b').get? p = some d ∧ d.propagator = a.propagator := by
  by_cases hpq : p = q
  · subst hpq
    obtain rfl := Option.some.inj (ha.symm.trans hb)
    exact ⟨b', Table.get?_set_self hb b', hp⟩
  · exact ⟨a, (Table.get?_set_ne _ hpq b').trans ha, rfl⟩

/-- A propagator stays. -/
theorem Step.kept (hx : Step s x t) (h : s.Linked) (ha : s.agents.get? p = some a) :
    ∃ b, t.agents.get? p = some b ∧ b.propagator = a.propagator := by
  cases hx with
  | created | narrowed | opened | taken | noted => exact ⟨a, ha, rfl⟩
  | wentBack hl =>
    obtain ⟨passive, hget, -⟩ := (returned_returnTo h hl).agent p a ha
    exact ⟨_, hget, rfl⟩
  | added => exact ⟨a, get?_joined ha _ _, rfl⟩
  | delivered =>
    obtain ⟨inbox, hget, -⟩ := (notified_notify s).agent p a ha
    exact ⟨_, hget, rfl⟩
  | scratch hb => exact kept_of_set ha hb rfl
  | handed hb => exact kept_of_set ha hb rfl
  | rested hb =>
    simp only [putToRest, modifyAgent, log, record, Table.get?_modify, ha]
    split
    · exact ⟨_, rfl, rfl⟩
    · exact ⟨a, rfl, rfl⟩
  | gaveUp q e =>
    rw [giveUp_eq]
    exact ⟨{ a with inbox := {} }, by rw [Table.get?_map, ha, Option.map_some], rfl⟩

theorem Step.depth_eq (hx : Step s x t) (h : s.Linked) : t.depth = x.depth s.depth := by
  cases hx with
  | created | opened | added | taken | noted => rfl
  | narrowed hn =>
    obtain ⟨new, hnew⟩ := h.exists_narrowed hn
    exact hnew.depth_eq
  | wentBack hl => exact h.depth_returnTo hl
  | delivered =>
    rw [depth, (notified_notify s).eq_with]
    rfl
  | @scratch p a =>
    obtain ⟨new, hnew⟩ := exists_called_scratched h p a
    exact hnew.narrowed.depth_eq
  | handed _ _ _ hin =>
    obtain ⟨new, hnew⟩ := exists_called_handed h _ hin
    exact hnew.narrowed.depth_eq
  | rested => rfl
  | gaveUp p e =>
    rw [giveUp_eq]
    rfl

/-! ### Who is called, and who asks for rest -/

/-- A step in which the propagators `ps` are called to propagate, none of which is at rest. -/
structure Calls (s : Solver) (x : Occurrence) (ps : List PropagatorId) (t : Solver) : Prop where
  step : Step s x t
  callees_eq : callees t.journal = callees s.journal ++ ps
  active : ∀ p ∈ ps, ∃ a, s.agents.get? p = some a ∧ a.passive = false

/-- What happens is a call of `p` in a run, which earns it a rest. -/
def Asks (s : Solver) (p : PropagatorId) : Occurrence → Prop
  | .scratch q _ => q = p ∧ ∃ a, s.agents.get? p = some a ∧ a.propagator.fromScratch.EarnsRest s.store
  | .handed q l d _ => q = p ∧ ∃ a, s.agents.get? p = some a ∧ (a.propagator.incremental l d).EarnsRest s.store
  | _ => False

private theorem exists_agent_iff {P : Agent → Prop} {r : PropagatorId} (ha : s.agents.get? p = some a) :
    (p = r ∧ ∃ b, s.agents.get? r = some b ∧ P b) ↔ r = p ∧ P a := by
  constructor
  · rintro ⟨rfl, b, hb, hP⟩
    obtain rfl := Option.some.inj (ha.symm.trans hb)
    exact ⟨rfl, hP⟩
  · rintro ⟨rfl, hP⟩
    exact ⟨rfl, a, ha, hP⟩

theorem asks_scratch_iff {r : PropagatorId} {cs : List Change} (ha : s.agents.get? p = some a) :
    s.Asks r (.scratch p cs) ↔ r = p ∧ a.propagator.fromScratch.EarnsRest s.store := exists_agent_iff ha

theorem asks_handed_iff {r : PropagatorId} {l : Slot} {d : Delta} {cs : List Change} (ha : s.agents.get? p = some a) :
    s.Asks r (.handed p l d cs) ↔ r = p ∧ (a.propagator.incremental l d).EarnsRest s.store := exists_agent_iff ha

theorem not_asks (hx : x.callees = []) (p : PropagatorId) : ¬ s.Asks p x := by
  cases x with
  | scratch | handed => cases hx
  | _ => exact id

/-- A path, with what happened in its steps and whom they called.  Who earns a rest comes to rest at once. -/
inductive Course : Solver → List (Occurrence × List PropagatorId) → Solver → Prop
  | nil (s : Solver) : Course s [] s
  | cons {s t u : Solver} {x : Occurrence} {ps : List PropagatorId} {xs : List (Occurrence × List PropagatorId)}
      (hx : Calls s x ps t) (hno : ∀ p, ¬ s.Asks p x) (hs : Course t xs u) : Course s ((x, ps) :: xs) u
  | asking {s t u v : Solver} {x : Occurrence} {p : PropagatorId} {ps : List PropagatorId}
      {xs : List (Occurrence × List PropagatorId)} (hx : Calls s x ps t) (hasks : s.Asks p x)
      (hrest : Calls t (.rested p) [] u) (hs : Course u xs v) : Course s ((x, ps) :: (.rested p, []) :: xs) v

section
variable {ps : List PropagatorId} {zs ws : List (Occurrence × List PropagatorId)}

theorem Course.append (h : Course s zs t) (k : Course t ws u) : Course s (zs ++ ws) u := by
  induction h with
  | nil => exact k
  | cons hx hno _ ih => exact .cons hx hno (ih k)
  | asking hx hasks hrest _ ih => exact .asking hx hasks hrest (ih k)

theorem Course.path (h : Course s zs t) : Path s (zs.map Prod.fst) t := by
  induction h with
  | nil => exact .nil _
  | cons hx _ _ ih => exact .cons hx.step ih
  | asking hx _ hrest _ ih => exact .cons hx.step (.cons hrest.step ih)

end

private theorem journal_foldl {α : Type} {f : Solver → α → Solver} (hf : ∀ s x, (f s x).journal = s.journal)
    (xs : List α) (s : Solver) : (xs.foldl f s).journal = s.journal := by
  induction xs generalizing s with
  | nil => rfl
  | cons x xs ih => exact (ih (f s x)).trans (hf s x)

private theorem journal_enqueue (s : Solver) (p : PropagatorId) : (s.enqueue p).journal = s.journal := by
  unfold enqueue
  split
  · rfl
  · split <;> rfl

/-- Going back calls nobody. -/
private theorem callees_returnTo (s : Solver) (level : Nat) :
    callees (s.returnTo level).journal = callees s.journal := by
  have hrestart (u : Solver) : u.restart.journal = u.journal := journal_foldl journal_enqueue _ _
  have hwake (ps : List PropagatorId) (u : Solver) :
      (ps.foldl (fun u p => u.modifyAgent p fun a => { a with passive := false }) u).journal = u.journal :=
    journal_foldl (by intros; rfl) ps u
  rw [returnTo, hrestart, close]
  split
  · simp only [hwake]
    exact (callees_push _ _).trans (List.append_nil _)
  · rfl

private theorem callees_giveUp (s : Solver) (p : PropagatorId) (e : Contradiction) :
    callees (s.giveUp p e).journal = callees s.journal := by
  simp only [giveUp, clearPending]
  split
  · rfl
  · exact (callees_push _ _).trans (List.append_nil _)

/-- A step that is no note calls whom it says to call. -/
theorem Step.calls (hx : Step s x t) (hnote : x.isNote = false) : Calls s x x.callees t := by
  refine ⟨hx, ?_, fun p hp => ?_⟩
  · cases hx with
    | created | narrowed | opened | taken => exact (List.append_nil _).symm
    | wentBack => exact (callees_returnTo _ _).trans (List.append_nil _).symm
    | added | scratch | handed | rested =>
      simp [Solver.joined, scratched, Solver.handed, putToRest, modifyAgent, log, record, JournalEntry.callee?,
        Occurrence.callees]
    | delivered =>
      rw [(notified_notify s).eq_with]
      exact (List.append_nil _).symm
    | gaveUp => exact (callees_giveUp _ _ _).trans (List.append_nil _).symm
    | noted => cases hnote
  · cases hx with
    | scratch ha hpas =>
      obtain rfl := List.mem_singleton.1 hp
      exact ⟨_, ha, hpas⟩
    | handed ha hpas =>
      obtain rfl := List.mem_singleton.1 hp
      exact ⟨_, ha, hpas⟩
    | _ => cases hp

end Solver

end SetConstraints
