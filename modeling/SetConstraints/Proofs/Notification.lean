import SetConstraints.Proofs.Solver.Operations

/-!
# Notification

Every change reaches those who listen to it once, and in order (`Solver.told_eq_heard`).  The changes of a step are
all that it does to the domains (`Solver.Step.altered`), and the watch list says of every propagator what its
registrations say (`Solver.Registered`).  From a call from scratch on, each step keeps the account of a propagator:
what it has been told, what is pending and what is still to be delivered make up what there has been to hear
(`Solver.Informed.step`).
-/

namespace SetConstraints

/-! ### The changes of a step -/

/-- Narrowings with an effect and new variables turn `d` into `e`; the narrowings make the changes, in order. -/
inductive Domains.Altered : Domains → List Change → Domains → Prop
  | refl (d : Domains) : Altered d [] d
  | narrowed {d e : Domains} {n : Narrowing} {f : Effect} {cs : List Change} (hn : d.narrow n = .ok (some f))
      (h : Altered f.domains cs e) : Altered d (f.changes ++ cs) e
  | extended {d e : Domains} {cs : List Change} (v : Domain) (h : Altered (d.extend v) cs e) : Altered d cs e

theorem Domains.Altered.trans {d e f : Domains} {cs ds : List Change} (h : d.Altered cs e) (k : e.Altered ds f) :
    d.Altered (cs ++ ds) f := by
  induction h with
  | refl d => exact k
  | narrowed hn _ ih =>
    rw [List.append_assoc]
    exact .narrowed hn (ih k)
  | extended v _ ih => exact .extended v (ih k)

namespace Store

variable {s t : Store} {P : Narrowing → Prop}

private theorem altered_of_narrow {n : Narrowing} (h : s.narrow n = .ok t) :
    ∃ cs, t.changes.toList = s.changes.toList ++ cs ∧ s.domains.Altered cs t.domains := by
  unfold narrow at h
  split at h
  · cases h
  · cases h
    exact ⟨[], by simp, .refl _⟩
  · rename_i f hf
    cases h
    exact ⟨f.changes ++ [], by simp, .narrowed hf (.refl _)⟩

/-- Narrowings put all their changes with those that are pending. -/
theorem Steps.altered (h : s.Steps P t) :
    ∃ cs, t.changes.toList = s.changes.toList ++ cs ∧ s.domains.Altered cs t.domains := by
  induction h with
  | refl s => exact ⟨[], by simp, .refl _⟩
  | step _ hn _ ih =>
    obtain ⟨cs, hcs, hc⟩ := altered_of_narrow hn
    obtain ⟨ds, hds, hd⟩ := ih
    exact ⟨cs ++ ds, by rw [hds, hcs, List.append_assoc], hc.trans hd⟩

end Store

/-- Neither is `p` called from scratch or put to rest, nor is anything given up or taken back. -/
def Occurrence.Continues (p : PropagatorId) : Occurrence → Prop
  | .scratch q _ | .rested q => q ≠ p
  | .wentBack _ | .gaveUp _ => False
  | _ => True

namespace Solver

variable {o : Options} {s₀ s t u : Solver} {x : Occurrence} {xs before after : List Occurrence} {ps : List Posting}
  {c : Posting} {p : PropagatorId} {cs : List Change}

private theorem altered_of_run {a : Action Unit} (s : Store)
    (hcs : (a.run s false).store.changes.toList = s.changes.toList ++ cs) :
    s.domains.Altered cs (a.run s false).store.domains := by
  obtain ⟨ds, hds, hd⟩ := (Action.steps_run (Action.only_true a) s false).altered
  obtain rfl := List.append_cancel_left (hcs.symm.trans hds)
  exact hd

/-- The changes of a step other than going back are what it does to the domains. -/
theorem Step.altered (hx : Step s x t) (hback : ∀ level, x ≠ .wentBack level) :
    s.store.domains.Altered x.changes t.store.domains := by
  cases hx with
  | created => exact .extended _ (.refl _)
  | narrowed hn hcs =>
    obtain ⟨ds, hds, hd⟩ := Store.altered_of_narrow hn
    obtain rfl := List.append_cancel_left (hcs.symm.trans hds)
    exact hd
  | opened | added | taken | rested | noted => exact .refl _
  | wentBack => exact absurd rfl (hback _)
  | delivered =>
    rw [store_notify]
    exact .refl _
  | scratch ha hpas hempty hcs => exact altered_of_run s.store (hcs.trans (by rw [hempty]; rfl))
  | handed ha hpas hdue hin hcs => exact altered_of_run s.store hcs
  | gaveUp p e =>
    rw [giveUp_eq]
    exact .refl _

/-! ### Registrations -/

/-- `ps` are the wishes of all propagators, in the order in which they were added.  The watch list tells each what it
has registered for, under each slot at most once. -/
structure Registered (s : Solver) (ps : List Posting) : Prop where
  size_eq : s.agents.size = ps.length
  tells_iff : ∀ p c, ps[p.number]? = some c → ∀ ch l, s.watches.Tells p ch l ↔ c.Hears ch l
  distinct : s.watches.Distinct

private theorem Registered.joined {w : WatchList} (h : s.Registered ps) (hs : s.Linked)
    (hw : s.watches.registerAll? s.agents.nextKey c.registrations = some w) :
    (s.joined c w).Registered (ps ++ [c]) where
  size_eq := by
    rw [List.length_append, List.length_singleton, ← h.size_eq]
    exact Table.size_push _ _
  tells_iff p d hd ch l := by
    refine (hs.tells_joined hw p ch l).trans ?_
    rw [getElem?_append_singleton h.size_eq] at hd
    split at hd
    · rename_i hp
      obtain rfl := Option.some.inj hd
      rw [if_pos hp]
    · rename_i hp
      rw [if_neg hp, h.tells_iff p d hd]
  distinct := WatchList.distinct_registerAll hw h.distinct

theorem Registered.step (h : s.Registered ps) (hs : s.Linked) (hx : Step s x t) :
    t.Registered (ps ++ x.postings) := by
  have hkeep (hsize : t.agents.size = s.agents.size) (hw : t.watches = s.watches) (hno : x.postings = []) :
      t.Registered (ps ++ x.postings) := by
    rw [hno, List.append_nil]
    exact ⟨hsize.trans h.size_eq, by rw [hw]; exact h.tells_iff, by rw [hw]; exact h.distinct⟩
  cases hx with
  | added hw => exact h.joined hs hw
  | @created d =>
    have hnil : ps ++ (Occurrence.created d).postings = ps := List.append_nil ps
    rw [hnil]
    exact
      { size_eq := h.size_eq
        tells_iff := fun p c hc ch l => (tells_extend s _ p ch l).trans (h.tells_iff p c hc ch l)
        distinct := fun v => by rw [watchers_extend]; exact h.distinct v }
  | wentBack hl =>
    have hr := returned_returnTo hs hl
    exact hkeep hr.size_eq (by rw [hr.eq_with]) rfl
  | delivered =>
    have hn := notified_notify s
    exact hkeep hn.size_eq (by rw [hn.eq_with]) rfl
  | gaveUp q e => exact hkeep (by rw [giveUp_eq]; exact Table.size_map _ _) (by rw [giveUp_eq]) rfl
  | scratch | handed => exact hkeep (Table.size_set _ _ _) rfl rfl
  | rested => exact hkeep (Table.size_modify _ _ _) rfl rfl
  | narrowed | opened | taken | noted => exact hkeep rfl rfl rfl

theorem Registered.path (h : s.Registered ps) (hs : s.Linked) (hxs : Path s xs t) :
    t.Registered (ps ++ xs.flatMap Occurrence.postings) := by
  induction hxs generalizing ps with
  | nil => simpa using h
  | cons hx _ ih =>
    have := ih (h.step hs hx) (hs.step hx)
    rwa [List.append_assoc] at this

/-! ### The account of a propagator -/

/-- What `p` has been told under `l` in all deltas handed to it, oldest first. -/
def told (s : Solver) (p : PropagatorId) (l : Slot) : List (Event × Int32) :=
  (handovers s.journal).flatMap fun (q, k, d) => if q = p ∧ k = l then d.entries else []

/-- Since `u`, there have been the changes `cs`.  What `p` has been told about them, what is pending and what has not
been delivered yet is all that there was to hear for it, in order. -/
def Informed (u : Solver) (p : PropagatorId) (c : Posting) (cs : List Change) (t : Solver) : Prop :=
  ∃ a, t.agents.get? p = some a ∧ a.passive = false ∧ a.due = false ∧ a.inbox.Sorted ∧
    ∀ l, ∃ new, t.told p l = u.told p l ++ new ∧
      new ++ (a.inbox.delta l).entries ++ c.heard l t.store.changes.toList = c.heard l cs

private theorem told_handed (s : Solver) (q : PropagatorId) (b : Agent) (k : Slot) (d : Delta)
    (later : List (Slot × Delta)) (p : PropagatorId) (l : Slot) :
    (s.handed q b k d later).told p l = s.told p l ++ if q = p ∧ k = l then d.entries else [] := by
  simp [told, Solver.handed, JournalEntry.handover?]

theorem Informed.step (h : Informed u p c cs s) (hd : s.watches.Distinct)
    (hc : ∀ ch l, s.watches.Tells p ch l ↔ c.Hears ch l) (hx : Step s x t) (hon : x.Continues p) :
    Informed u p c (cs ++ x.changes) t := by
  obtain ⟨a, ha, hpas, hdue, hsorted, haccount⟩ := h
  -- a step that leaves `p` alone adds its changes to those still to be delivered
  have hkeep (hget : t.agents.get? p = some a) (htold : ∀ l, t.told p l = s.told p l)
      (hchanges : t.store.changes.toList = s.store.changes.toList ++ x.changes) :
      Informed u p c (cs ++ x.changes) t := by
    refine ⟨a, hget, hpas, hdue, hsorted, fun l => ?_⟩
    obtain ⟨new, hnew, heq⟩ := haccount l
    refine ⟨new, (htold l).trans hnew, ?_⟩
    rw [hchanges, Posting.heard_append, Posting.heard_append, ← heq, List.append_assoc, List.append_assoc,
      List.append_assoc]
  cases hx with
  | created | opened | taken => exact hkeep ha (fun _ => rfl) (List.append_nil _).symm
  | noted _ _ hj => exact hkeep ha (fun l => by rw [told, hj]; rfl) (List.append_nil _).symm
  | narrowed hn hcs => exact hkeep ha (fun _ => rfl) hcs
  | wentBack | gaveUp => exact hon.elim
  | added hw =>
    refine hkeep (get?_joined ha _ _) (fun l => ?_) (List.append_nil _).symm
    simp [told, Solver.joined, log, record, JournalEntry.handover?]
  | delivered =>
    obtain ⟨inbox, hget, hsorted', hgain⟩ := gains_notify hd hc a ha hpas hdue hsorted
    refine ⟨_, hget, hpas, hdue, hsorted', fun l => ?_⟩
    obtain ⟨new, hnew, heq⟩ := haccount l
    refine ⟨new, ?_, ?_⟩
    · rw [(notified_notify s).eq_with]
      exact hnew
    · have hnone : c.heard l s.notify.store.changes.toList = [] := by
        rw [store_notify]
        rfl
      rw [hgain, hnone, List.append_nil, ← List.append_assoc, heq]
      exact congrArg _ (List.append_nil cs).symm
  | scratch hb hpas' hempty hcs =>
    -- nothing is pending when another propagator is called from scratch, and all that is pending afterwards is its
    -- doing
    refine hkeep ((Table.get?_set_ne _ (Ne.symm hon) _).trans ha) (fun l => ?_) ?_
    · simp [told, scratched, JournalEntry.handover?]
    · rw [hempty]
      exact hcs
  | rested hb =>
    refine hkeep ?_ (fun l => ?_) (List.append_nil _).symm
    · simp only [putToRest, modifyAgent, log, record, Table.get?_modify, if_neg (Ne.symm hon), ha]
    · simp [told, putToRest, modifyAgent, log, record, JournalEntry.handover?]
  | @handed q b k d later ds hb hbpas hbdue hin hcs =>
    by_cases hq : q = p
    · -- what is handed over was first under its slot
      subst hq
      obtain rfl := Option.some.inj (ha.symm.trans hb)
      have hsplit : a.inbox = ⟨(k, d) :: later⟩ := congrArg Inbox.mk hin
      rw [hsplit] at hsorted haccount
      refine ⟨_, Table.get?_set_self ha _, hpas, hdue, (List.pairwise_cons.1 hsorted).2, fun l => ?_⟩
      obtain ⟨new, hnew, heq⟩ := haccount l
      rw [Inbox.entries_delta_cons hsorted] at heq
      refine ⟨new ++ if k = l then d.entries else [], ?_, ?_⟩
      · rw [told_handed, hnew, List.append_assoc]
        simp only [true_and]
      · rw [hcs, Posting.heard_append, Occurrence.changes, Posting.heard_append, ← heq]
        simp only [List.append_assoc]
    · refine hkeep ((Table.get?_set_ne _ (Ne.symm hq) _).trans ha) (fun l => ?_) hcs
      rw [told_handed, if_neg fun h => hq h.1, List.append_nil]

theorem Informed.path (h : Informed u p c cs s) (hs : s.Linked) (hr : s.Registered ps) (hp : ps[p.number]? = some c)
    (hxs : Path s xs t) (hon : ∀ x ∈ xs, x.Continues p) :
    Informed u p c (cs ++ xs.flatMap Occurrence.changes) t := by
  induction hxs generalizing cs ps with
  | nil => simpa using h
  | @cons s v t x xs hx _ ih =>
    have hnext := h.step hr.distinct (hr.tells_iff p c hp) hx (hon x (by simp))
    -- wishes added on the way come after that of `p`
    have hp' : (ps ++ x.postings)[p.number]? = some c := by
      rw [List.getElem?_append_left (List.getElem?_eq_some_iff.1 hp).1, hp]
    have := ih hnext (hs.step hx) (hr.step hs hx) hp' fun y hy => hon y (by simp [hy])
    rwa [List.append_assoc] at this

/-- The changes of a stretch are all that happens to the domains in it. -/
theorem Path.altered (hxs : Path s xs t) (hback : ∀ level, .wentBack level ∉ xs) :
    s.store.domains.Altered (xs.flatMap Occurrence.changes) t.store.domains := by
  induction hxs with
  | nil => exact .refl _
  | @cons s v t x xs hx _ ih =>
    exact (hx.altered fun level hl => hback level (by simp [hl])).trans
      (ih fun level hl => hback level (by simp [hl]))

end Solver

end SetConstraints
