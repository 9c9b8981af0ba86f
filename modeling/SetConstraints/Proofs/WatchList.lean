import SetConstraints.Proofs.News
import SetConstraints.Proofs.Table
import SetConstraints.WatchList

/-!
# Who is told what

A propagator is told about a change under a slot if it has registered for it there (`tells_registerAll`), and only
once, however often it has registered (`distinct_registerAll`); others' registrations and new variables make no
difference to it.
-/

namespace SetConstraints

namespace WatchList

/-- A propagator is told about a change under a slot. -/
def Tells (l : WatchList) (p : PropagatorId) (c : Change) (slot : Slot) : Prop :=
  ∃ w ∈ l.watchers c.var, w.propagator = p ∧ w.slot = slot ∧ w.events.contains c.event = true

instance (l : WatchList) (p : PropagatorId) (c : Change) (slot : Slot) : Decidable (l.Tells p c slot) :=
  inferInstanceAs (Decidable (∃ w ∈ l.watchers c.var, _))

/-- There is an entry for every variable, and for no other. -/
def Fits (l : WatchList) (d : Domains) : Prop := l.sets.size = d.sets.size ∧ l.ints.size = d.ints.size

variable {l m : WatchList} {p q : PropagatorId} {c : Change} {slot : Slot} {d : Domains}

private theorem exists_mem_join (w : Watcher) (ws : List Watcher) (q : PropagatorId) (slot : Slot) (e : Event) :
    (∃ x ∈ join w ws, x.propagator = q ∧ x.slot = slot ∧ x.events.contains e = true) ↔
      (∃ x ∈ ws, x.propagator = q ∧ x.slot = slot ∧ x.events.contains e = true) ∨
        (w.propagator = q ∧ w.slot = slot ∧ w.events.contains e = true) := by
  induction ws with
  | nil => simp [join]
  | cons v ws ih =>
    simp only [join]
    split
    · rename_i hsame
      simp only [List.exists_mem_cons_iff, EventSet.contains_union, Bool.or_eq_true, hsame.1, hsame.2, and_or_left,
        or_assoc]
      rw [or_comm (b := ∃ x, _)]
    · simp only [List.exists_mem_cons_iff, ih, or_assoc]

private theorem tells_register {r : Registration} (h : l.register? p r = some m) :
    m.Tells q c slot ↔
      l.Tells q c slot ∨ p = q ∧ r.var = c.var ∧ r.slot = slot ∧ r.events.contains c.event = true := by
  obtain ⟨v, events, k⟩ := r
  cases v with
  | set s =>
    obtain ⟨ws, hws, rfl⟩ := Option.map_eq_some_iff.1 h
    cases hc : c.var with
    | set s' =>
      by_cases hs : s' = s
      · subst hs
        simp only [Tells, hc, watchers, Table.get?_set_self hws, hws, Option.getD_some, exists_mem_join, true_and]
      · simp [Tells, hc, watchers, Table.get?_set_ne _ hs, Ne.symm hs]
    | int x => simp [Tells, hc, watchers]
  | int x =>
    obtain ⟨ws, hws, rfl⟩ := Option.map_eq_some_iff.1 h
    cases hc : c.var with
    | set s => simp [Tells, hc, watchers]
    | int x' =>
      by_cases hx : x' = x
      · subst hx
        simp only [Tells, hc, watchers, Table.get?_set_self hws, hws, Option.getD_some, exists_mem_join, true_and]
      · simp [Tells, hc, watchers, Table.get?_set_ne _ hx, Ne.symm hx]

private theorem fits_register {r : Registration} (h : l.register? p r = some m) (hl : l.Fits d) :
    m.Fits d ∧ d.Has r.var := by
  obtain ⟨v, events, k⟩ := r
  cases v with
  | set s =>
    obtain ⟨ws, hws, rfl⟩ := Option.map_eq_some_iff.1 h
    have := Table.isSome_get?_iff.1 (Option.isSome_iff_exists.2 ⟨ws, hws⟩)
    exact ⟨by simpa [Fits] using hl, Table.isSome_get?_iff.2 (hl.1 ▸ this)⟩
  | int x =>
    obtain ⟨ws, hws, rfl⟩ := Option.map_eq_some_iff.1 h
    have := Table.isSome_get?_iff.1 (Option.isSome_iff_exists.2 ⟨ws, hws⟩)
    exact ⟨by simpa [Fits] using hl, Table.isSome_get?_iff.2 (hl.2 ▸ this)⟩

theorem tells_registerAll {rs : List Registration} (h : l.registerAll? p rs = some m) :
    m.Tells q c slot ↔ l.Tells q c slot ∨
      p = q ∧ ∃ r ∈ rs, r.var = c.var ∧ r.slot = slot ∧ r.events.contains c.event = true := by
  induction rs generalizing l with
  | nil =>
    cases h
    simp
  | cons r rs ih =>
    simp only [registerAll?, List.foldlM_cons, Option.bind_eq_bind, Option.bind_eq_some_iff] at h
    obtain ⟨k, hk, h⟩ := h
    rw [ih h, tells_register hk, List.exists_mem_cons_iff]
    tauto

/-- Registering succeeds only for variables that exist. -/
theorem fits_registerAll {rs : List Registration} (h : l.registerAll? p rs = some m) (hl : l.Fits d) :
    m.Fits d ∧ ∀ r ∈ rs, d.Has r.var := by
  induction rs generalizing l with
  | nil =>
    cases h
    exact ⟨hl, by simp⟩
  | cons r rs ih =>
    simp only [registerAll?, List.foldlM_cons, Option.bind_eq_bind, Option.bind_eq_some_iff] at h
    obtain ⟨k, hk, h⟩ := h
    obtain ⟨hkd, hr⟩ := fits_register hk hl
    obtain ⟨hm, hrs⟩ := ih h hkd
    exact ⟨hm, fun x hx => by
      rcases List.mem_cons.1 hx with rfl | hx
      · exact hr
      · exact hrs x hx⟩

private theorem exists_register {r : Registration} (hl : l.Fits d) (hr : d.Has r.var) :
    ∃ m, l.register? p r = some m ∧ m.Fits d := by
  suffices h : (l.register? p r).isSome by
    obtain ⟨m, hm⟩ := Option.isSome_iff_exists.1 h
    exact ⟨m, hm, (fits_register hm hl).1⟩
  obtain ⟨v, events, k⟩ := r
  cases v with
  | set s =>
    have hs : (l.sets.get? s).isSome := Table.isSome_get?_iff.2 (hl.1 ▸ Table.isSome_get?_iff.1 hr)
    simpa [register?] using hs
  | int x =>
    have hx : (l.ints.get? x).isSome := Table.isSome_get?_iff.2 (hl.2 ▸ Table.isSome_get?_iff.1 hr)
    simpa [register?] using hx

/-- Registering succeeds for all variables that exist. -/
theorem exists_registerAll {rs : List Registration} (hl : l.Fits d) (hrs : ∀ r ∈ rs, d.Has r.var) :
    ∃ m, l.registerAll? p rs = some m := by
  induction rs generalizing l with
  | nil => exact ⟨l, rfl⟩
  | cons r rs ih =>
    obtain ⟨k, hk, hkd⟩ := exists_register (p := p) hl (hrs r (by simp))
    obtain ⟨m, hm⟩ := ih hkd fun x hx => hrs x (by simp [hx])
    exact ⟨m, by simpa [registerAll?, List.foldlM_cons, hk] using hm⟩

/-! ### Nobody is told twice -/

/-- No variable has two watchers of one propagator under one slot. -/
def Distinct (l : WatchList) : Prop :=
  ∀ v, (l.watchers v).Pairwise fun w x => ¬ (w.propagator = x.propagator ∧ w.slot = x.slot)

private theorem exists_of_mem_join {w x : Watcher} {ws : List Watcher} (hx : x ∈ join w ws) :
    (x.propagator = w.propagator ∧ x.slot = w.slot) ∨
      ∃ y ∈ ws, x.propagator = y.propagator ∧ x.slot = y.slot := by
  induction ws with
  | nil => exact .inl (List.mem_singleton.1 hx ▸ ⟨rfl, rfl⟩)
  | cons v ws ih =>
    rw [join] at hx
    split at hx
    · rcases List.mem_cons.1 hx with rfl | hx
      · exact .inr ⟨v, by simp, rfl, rfl⟩
      · exact .inr ⟨x, by simp [hx], rfl, rfl⟩
    · rcases List.mem_cons.1 hx with rfl | hx
      · exact .inr ⟨x, by simp, rfl, rfl⟩
      · rcases ih hx with h | ⟨y, hy, h⟩
        · exact .inl h
        · exact .inr ⟨y, by simp [hy], h⟩

private theorem distinct_join {w : Watcher} {ws : List Watcher}
    (h : ws.Pairwise fun w x => ¬ (w.propagator = x.propagator ∧ w.slot = x.slot)) :
    (join w ws).Pairwise fun w x => ¬ (w.propagator = x.propagator ∧ w.slot = x.slot) := by
  induction ws with
  | nil => exact List.pairwise_singleton _ _
  | cons v ws ih =>
    have hsplit := List.pairwise_cons.1 h
    rw [join]
    split
    · exact List.pairwise_cons.2 hsplit
    · rename_i hne
      refine List.pairwise_cons.2 ⟨fun x hx hsame => ?_, ih hsplit.2⟩
      rcases exists_of_mem_join hx with hw | ⟨y, hy, heq⟩
      · exact hne ⟨hsame.1.trans hw.1, hsame.2.trans hw.2⟩
      · exact hsplit.1 y hy ⟨hsame.1.trans heq.1, hsame.2.trans heq.2⟩

private theorem distinct_register {r : Registration} (h : l.register? p r = some m) (hl : l.Distinct) :
    m.Distinct := by
  obtain ⟨v, events, k⟩ := r
  intro x
  cases v with
  | set s =>
    obtain ⟨ws, hws, rfl⟩ := Option.map_eq_some_iff.1 h
    have hold := hl (.set s)
    rw [watchers, hws, Option.getD_some] at hold
    cases x with
    | set s' =>
      by_cases hs : s' = s
      · subst hs
        simpa only [watchers, Table.get?_set_self hws, Option.getD_some] using distinct_join hold
      · simpa only [watchers, Table.get?_set_ne _ hs] using hl (.set s')
    | int x => exact hl (.int x)
  | int y =>
    obtain ⟨ws, hws, rfl⟩ := Option.map_eq_some_iff.1 h
    have hold := hl (.int y)
    rw [watchers, hws, Option.getD_some] at hold
    cases x with
    | set s => exact hl (.set s)
    | int y' =>
      by_cases hy : y' = y
      · subst hy
        simpa only [watchers, Table.get?_set_self hws, Option.getD_some] using distinct_join hold
      · simpa only [watchers, Table.get?_set_ne _ hy] using hl (.int y')

/-- A propagator that registers again for what it watches is still one watcher. -/
theorem distinct_registerAll {rs : List Registration} (h : l.registerAll? p rs = some m) (hl : l.Distinct) :
    m.Distinct := by
  induction rs generalizing l with
  | nil =>
    cases h
    exact hl
  | cons r rs ih =>
    simp only [registerAll?, List.foldlM_cons, Option.bind_eq_bind, Option.bind_eq_some_iff] at h
    obtain ⟨k, hk, h⟩ := h
    exact ih h (distinct_register hk hl)

/-! ### New variables -/

private theorem getD_push {κ α : Type} [Key κ] (t : Table κ (List α)) (k : κ) :
    ((t.push []).get? k).getD [] = (t.get? k).getD [] := by
  rw [Table.get?_push]
  split
  · rename_i h
    rw [(Table.get?_eq_none_iff t k).2 (Nat.le_of_eq h.symm)]
    rfl
  · rfl

/-- Nobody watches a new variable. -/
theorem watchers_addSet (l : WatchList) (v : Var) : l.addSet.watchers v = l.watchers v := by
  cases v with
  | set s => exact getD_push l.sets s
  | int x => rfl

theorem watchers_addInt (l : WatchList) (v : Var) : l.addInt.watchers v = l.watchers v := by
  cases v with
  | set s => rfl
  | int x => exact getD_push l.ints x

end WatchList

end SetConstraints
