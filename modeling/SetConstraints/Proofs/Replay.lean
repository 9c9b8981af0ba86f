import SetConstraints.Proofs.Store

/-!
# The two logs of a store

Whoever narrows a store writes two logs: the trail, from which narrowings can be taken back, and the changes, which
tell the propagators what has happened.  One narrowing that has an effect writes one entry into the trail and one
change of its own kind, and a second change if it has fixed an integer (`Store.tried_spec`).  So after any number of
them both logs are exact: the domains are got back from the trail, and got again from the changes
(`Store.logged_tryAll`).
-/

namespace SetConstraints

/-- The kind of event that a narrowing brings about. -/
def Narrowing.event : Narrowing → Event
  | .require _ _ => .kernelGrew
  | .exclude _ _ => .envelopeShrank
  | .atLeast _ _ => .lowerRaised
  | .atMost _ _ => .upperLowered

/-- The change that tells of a narrowing. -/
def Narrowing.change (n : Narrowing) : Change := ⟨n.var, n.event, n.value⟩

/-- The elements that some changes say to have entered the kernel or left the envelope of a set. -/
def Change.elements (s : SetVar) (cs : List Change) : List Int32 :=
  (cs.filter fun c => c.var = .set s ∧ (c.event = .kernelGrew ∨ c.event = .envelopeShrank)).map Change.value

namespace IntDomain

variable {d e : IntDomain} {v : Int32}

/-- Replaces the lower bound, if this leaves a value. -/
def withLow (d : IntDomain) (v : Int32) : IntDomain := if h : v ≤ d.high then ⟨v, d.high, h⟩ else d

/-- Replaces the upper bound, if this leaves a value. -/
def withHigh (d : IntDomain) (v : Int32) : IntDomain := if h : d.low ≤ v then ⟨d.low, v, h⟩ else d

/-- A lower bound that has been raised is the value asked for, and there was more than one value before. -/
theorem changed_atLeast (h : d.atLeast v = .changed e) : d.withLow v = e ∧ e.low = v ∧ d.low ≠ d.high := by
  unfold atLeast at h
  split at h
  · cases h
  · rename_i hlow
    split at h
    · rename_i hhigh
      cases h
      refine ⟨dif_pos hhigh, rfl, fun heq => ?_⟩
      rw [heq] at hlow
      exact hlow hhigh
    · cases h

theorem changed_atMost (h : d.atMost v = .changed e) : d.withHigh v = e ∧ e.high = v ∧ d.low ≠ d.high := by
  unfold atMost at h
  split at h
  · cases h
  · rename_i hhigh
    split at h
    · rename_i hlow
      cases h
      refine ⟨dif_pos hlow, rfl, fun heq => ?_⟩
      rw [← heq] at hhigh
      exact hhigh hlow
    · cases h

end IntDomain

namespace Domains

variable {d : Domains} {n : Narrowing} {e : Effect}

/-- Whether a variable is an integer with one value only. -/
def fixes (d : Domains) : Var → Bool
  | .set _ => false
  | .int x => ((d.ints.get? x).map IntDomain.isFixed).getD false

/-- Makes a change again that is known from its event; that a variable has become fixed is known from its bounds. -/
def replay (d : Domains) (c : Change) : Domains :=
  match c.var, c.event with
  | .set s, .kernelGrew => { d with sets := d.sets.modify s (·.overwrite c.value .required) }
  | .set s, .envelopeShrank => { d with sets := d.sets.modify s (·.overwrite c.value .excluded) }
  | .int x, .lowerRaised => { d with ints := d.ints.modify x (·.withLow c.value) }
  | .int x, .upperLowered => { d with ints := d.ints.modify x (·.withHigh c.value) }
  | _, _ => d

/-! ### One narrowing -/

/-- The changes with which a narrowing that has an effect is logged. -/
structure Logs (d : Domains) (n : Narrowing) (e : Effect) : Prop where
  changes_eq : e.changes = n.change ::
    if !d.fixes n.var && e.domains.fixes n.var then [⟨n.var, .instantiated, n.value⟩] else []
  replay_eq : e.changes.foldl replay d = e.domains

/-- The ways in which a narrowing has an effect. -/
inductive Narrows (d : Domains) : Narrowing → Effect → Prop
  | require {s : SetVar} {v : Int32} {b b' : SetDomain} (hb : d.sets.get? s = some b)
      (hb' : b.require v = .changed b') :
      Narrows d (.require s v) (d.withSet s v .kernelGrew b')
  | exclude {s : SetVar} {v : Int32} {b b' : SetDomain} (hb : d.sets.get? s = some b)
      (hb' : b.exclude v = .changed b') :
      Narrows d (.exclude s v) (d.withSet s v .envelopeShrank b')
  | atLeast {x : IntVar} {v : Int32} {b b' : IntDomain} (hb : d.ints.get? x = some b)
      (hb' : b.atLeast v = .changed b') :
      Narrows d (.atLeast x v) (d.withInt x v .lowerRaised b b')
  | atMost {x : IntVar} {v : Int32} {b b' : IntDomain} (hb : d.ints.get? x = some b)
      (hb' : b.atMost v = .changed b') :
      Narrows d (.atMost x v) (d.withInt x v .upperLowered b b')

private theorem outcome_eq_some {α : Type} {effect : α → Effect} {r : Narrowed α}
    (h : outcome effect r = .ok (some e)) : ∃ b, r = .changed b ∧ effect b = e := by
  unfold outcome at h
  split at h
  · cases h
  · rename_i b
    cases h
    exact ⟨b, rfl, rfl⟩
  · cases h

theorem narrows_of_narrow (h : d.narrow n = .ok (some e)) : d.Narrows n e := by
  cases n <;> simp only [narrow] at h <;> split at h <;> try cases h
  all_goals
    rename_i b hb
    obtain ⟨b', hb', rfl⟩ := outcome_eq_some h
  · exact .require hb hb'
  · exact .exclude hb hb'
  · exact .atLeast hb hb'
  · exact .atMost hb hb'

private theorem logs_withInt {x : IntVar} {v : Int32} {event : Event} {b b' : IntDomain}
    (hb : d.ints.get? x = some b) (hvar : n.var = .int x) (hevent : n.event = event) (hvalue : n.value = v)
    (hbefore : b.low ≠ b.high) (hlow : b'.low = b'.high → b'.low = v)
    (hreplay : d.replay ⟨.int x, event, v⟩ = { d with ints := d.ints.set x b' }) :
    d.Logs n (d.withInt x v event b b') := by
  have hbefore : d.fixes (.int x) = false := by simp [fixes, hb, IntDomain.isFixed, hbefore]
  have hafter : (d.withInt x v event b b').domains.fixes (.int x) = b'.isFixed := by
    simp [fixes, withInt, Table.get?_set_self hb]
  have hchange : n.change = ⟨.int x, event, v⟩ := by rw [Narrowing.change, hvar, hevent, hvalue]
  constructor
  · rw [hchange, hvar, hvalue, hbefore, hafter]
    by_cases hfixed : b'.low = b'.high
    · simp [withInt, IntDomain.isFixed, hfixed, ← hlow hfixed]
    · simp [withInt, IntDomain.isFixed, hfixed]
  · -- the second change, if there is one, is known from the first
    simp only [withInt, List.foldl_cons, hreplay]
    split <;> rfl

/-- A narrowing that has an effect is logged by one change of its kind, and by a second one if it fixes an integer. -/
theorem logs_of_narrow (h : d.narrow n = .ok (some e)) : d.Logs n e := by
  cases narrows_of_narrow h with
  | require hb hb' =>
    refine ⟨rfl, ?_⟩
    simp only [withSet, List.foldl_cons, List.foldl_nil, replay, Table.modify, hb, SetDomain.overwrite_of_require hb']
  | exclude hb hb' =>
    refine ⟨rfl, ?_⟩
    simp only [withSet, List.foldl_cons, List.foldl_nil, replay, Table.modify, hb, SetDomain.overwrite_of_exclude hb']
  | atLeast hb hb' =>
    obtain ⟨hlow, hvalue, hbefore⟩ := IntDomain.changed_atLeast hb'
    refine logs_withInt hb rfl rfl rfl hbefore (fun _ => hvalue) ?_
    simp only [replay, Table.modify, hb, hlow]
  | atMost hb hb' =>
    obtain ⟨hhigh, hvalue, hbefore⟩ := IntDomain.changed_atMost hb'
    refine logs_withInt hb rfl rfl rfl hbefore (fun hfixed => hfixed.trans hvalue) ?_
    simp only [replay, Table.modify, hb, hhigh]

/-- A narrowing of a set asks for an element to be decided in one way. -/
private theorem exists_accepts_iff {s : SetVar} (hs : n.var = .set s) :
    ∃ m ≠ Membership.possible, ∀ V : View, V.Accepts n ↔ V.element s n.value = m := by
  cases n with
  | require r v =>
    cases hs
    exact ⟨.required, nofun, fun _ => Iff.rfl⟩
  | exclude r v =>
    cases hs
    exact ⟨.excluded, nofun, fun _ => Iff.rfl⟩
  | atLeast x v => cases hs
  | atMost x v => cases hs

/-- An element is decided when a change tells of it, and was not decided before. -/
theorem Effective.possible_of_mem {c : Change} {s : SetVar} (h : d.Effective n e) (hc : c ∈ e.changes)
    (hs : c.var = .set s) :
    d.view.element s c.value = .possible ∧ e.domains.view.element s c.value ≠ .possible := by
  obtain ⟨hvar, hvalue, -⟩ := h.about c hc
  obtain ⟨m, hm, haccepts⟩ := exists_accepts_iff (hvar.symm.trans hs)
  have hdecided : e.domains.view.element s c.value = m := by
    rw [hvalue]
    exact (haccepts _).1 h.accepts
  refine ⟨?_, hdecided ▸ hm⟩
  by_contra hno
  -- what was decided before is decided in the same way, so that the narrowing would have been without effect
  have hsame := View.element_of_le h.le hno
  apply h.not_accepts
  rw [haccepts, ← hvalue, ← hsame]
  exact hdecided

end Domains

namespace Store

variable {s t u : Store} {n : Narrowing} {e : Effect}

/-- The store after a narrowing has been tried; one that fails leaves it as it is. -/
def tried (s : Store) (n : Narrowing) : Store :=
  match s.narrow n with
  | .ok t => t
  | .error _ => s

theorem narrow_eq_tried (h : (s.narrow n).isOk = true) : s.narrow n = .ok (s.tried n) := by
  unfold tried
  cases hn : s.narrow n with
  | ok t => rfl
  | error e => rw [hn] at h; cases h

/-- The store after some narrowings have been tried, one after the other. -/
def tryAll (s : Store) (ns : List Narrowing) : Store := ns.foldl tried s

/-- What becomes of a store when a narrowing is tried: it fails or is without effect, and leaves everything as it was,
or it changes the domains, and leaves one entry in the trail and one change of its kind, and a second one if it has
fixed an integer that was not fixed before. -/
inductive Tried (s : Store) (n : Narrowing) : Store → Prop
  | failed {why : Stop Contradiction} (h : s.narrow n = .error why) : Tried s n s
  | idle (h : s.narrow n = .ok s) : Tried s n s
  | effective {t : Store} {undo : Undo} (h : s.narrow n = .ok t) (hdomains : t.domains ≠ s.domains)
      (htrail : t.trail = s.trail.push undo) (hundo : undo.var = n.var) (hback : t.domains.takeBack undo = s.domains)
      (hchanges : t.changes.toList = s.changes.toList ++ n.change ::
        if !s.domains.fixes n.var && t.domains.fixes n.var then [⟨n.var, .instantiated, n.value⟩] else []) :
      Tried s n t

/-- The entries of a trail and the changes that are left on the way from one store to another. -/
structure Logged (s t : Store) (undos : List Undo) (new : List Change) : Prop where
  trail_eq : t.trail = { s.trail with recent := undos ++ s.trail.recent }
  changes_eq : t.changes.toList = s.changes.toList ++ new
  takeBack_eq : undos.foldl Domains.takeBack t.domains = s.domains
  replay_eq : new.foldl Domains.replay s.domains = t.domains
  /-- There is an entry in the trail for every change but those that tell of a fixed integer. -/
  length_eq : undos.length = (new.filter (·.event ≠ .instantiated)).length
  nodup : ∀ x, (Change.elements x new).Nodup

/-! ### One narrowing is tried -/

/-- A store after a narrowing with an effect. -/
private def recorded (s : Store) (e : Effect) : Store :=
  { domains := e.domains, trail := s.trail.push e.undo, changes := s.changes ++ e.changes.toArray }

private theorem tried_cases (s : Store) (n : Narrowing) :
    (∃ why, s.narrow n = .error why) ∧ s.tried n = s ∨ s.narrow n = .ok s ∧ s.tried n = s ∨
      ∃ e, s.domains.narrow n = .ok (some e) ∧ s.narrow n = .ok (s.recorded e) ∧ s.tried n = s.recorded e := by
  unfold tried
  cases h : s.narrow n with
  | error why => exact .inl ⟨⟨why, rfl⟩, rfl⟩
  | ok t =>
    unfold narrow at h
    split at h
    · cases h
    · cases h
      exact .inr (.inl ⟨rfl, rfl⟩)
    · rename_i e he
      cases h
      exact .inr (.inr ⟨e, he, rfl, rfl⟩)

theorem tried_spec (hs : s.domains.WellFormed) (n : Narrowing) : s.Tried n (s.tried n) := by
  rcases s.tried_cases n with ⟨⟨why, hfailed⟩, heq⟩ | ⟨hidle, heq⟩ | ⟨e, he, hok, heq⟩
  · rw [heq]
    exact .failed hfailed
  · rw [heq]
    exact .idle hidle
  · rw [heq]
    have heff := Domains.effective_of_narrow hs he
    have hlogs := Domains.logs_of_narrow he
    refine .effective hok (fun hsame => ?_) rfl heff.undo_var heff.takeBack_eq ?_
    · -- the narrowing would have been accepted before
      have hsame : e.domains = s.domains := hsame
      have hacc := heff.accepts
      rw [hsame] at hacc
      exact heff.not_accepts hacc
    · simp [recorded, hlogs.changes_eq]

/-- The elements told of on the way from one store to another were possible before and are decided afterwards. -/
private def Settles (s t : Store) (new : List Change) : Prop :=
  t.domains.view ≤ s.domains.view ∧ ∀ x v, v ∈ Change.elements x new →
    s.domains.view.element x v = .possible ∧ t.domains.view.element x v ≠ .possible

private theorem elements_append (x : SetVar) (cs ds : List Change) :
    Change.elements x (cs ++ ds) = Change.elements x cs ++ Change.elements x ds := by
  simp [Change.elements]

private theorem mem_elements_iff {x : SetVar} {v : Int32} {cs : List Change} :
    v ∈ Change.elements x cs ↔ ∃ c ∈ cs, c.var = .set x ∧ (c.event = .kernelGrew ∨ c.event = .envelopeShrank) ∧
      c.value = v := by
  simp [Change.elements, and_assoc]

private theorem Logged.refl (s : Store) : s.Logged s [] [] where
  trail_eq := rfl
  changes_eq := (List.append_nil _).symm
  takeBack_eq := rfl
  replay_eq := rfl
  length_eq := rfl
  nodup _ := List.nodup_nil

private theorem Logged.trans {us vs : List Undo} {cs ds : List Change} (h : s.Logged t us cs) (hd : s.Settles t cs)
    (k : t.Logged u vs ds) (kd : t.Settles u ds) : s.Logged u (vs ++ us) (cs ++ ds) where
  trail_eq := by rw [k.trail_eq, h.trail_eq, List.append_assoc]
  changes_eq := by rw [k.changes_eq, h.changes_eq, List.append_assoc]
  takeBack_eq := by rw [List.foldl_append, k.takeBack_eq, h.takeBack_eq]
  replay_eq := by rw [List.foldl_append, h.replay_eq, k.replay_eq]
  length_eq := by
    rw [List.length_append, List.filter_append, List.length_append, h.length_eq, k.length_eq]
    omega
  nodup x := by
    rw [elements_append, List.nodup_append]
    refine ⟨h.nodup x, k.nodup x, ?_⟩
    -- what the first changes tell of is decided when the others are made
    rintro v hv w hw rfl
    exact (hd.2 x v hv).2 (kd.2 x v hw).1

private theorem Settles.trans {cs ds : List Change} (h : s.Settles t cs) (k : t.Settles u ds) :
    s.Settles u (cs ++ ds) := by
  refine ⟨le_trans k.1 h.1, fun x v hv => ?_⟩
  rw [elements_append, List.mem_append] at hv
  rcases hv with hv | hv
  · obtain ⟨hbefore, hafter⟩ := h.2 x v hv
    refine ⟨hbefore, ?_⟩
    rw [View.element_of_le k.1 hafter]
    exact hafter
  · obtain ⟨hbefore, hafter⟩ := k.2 x v hv
    refine ⟨?_, hafter⟩
    by_contra hno
    exact hno ((View.element_of_le h.1 hno).symm.trans hbefore)

private theorem Settles.refl (s : Store) : s.Settles s [] := by
  refine ⟨le_rfl, fun x v hv => ?_⟩
  simp [Change.elements] at hv

/-- A narrowing tells of one element at most. -/
private theorem nodup_elements (hlogs : s.domains.Logs n e) (x : SetVar) : (Change.elements x e.changes).Nodup := by
  have hone : ∀ c : Change, (Change.elements x [c]).Nodup := by
    intro c
    unfold Change.elements
    rw [List.filter_cons]
    split
    · exact List.nodup_singleton _
    · exact List.nodup_nil
  rw [hlogs.changes_eq]
  split
  · -- that an integer is fixed is told of no set
    have hmore : Change.elements x [⟨n.var, .instantiated, n.value⟩] = [] := by simp [Change.elements]
    rw [← List.singleton_append, elements_append, hmore, List.append_nil]
    exact hone n.change
  · exact hone n.change

/-- What one narrowing leaves in the logs. -/
private theorem logged_tried (hs : s.domains.WellFormed) (n : Narrowing) :
    ∃ undos new, s.Logged (s.tried n) undos new ∧ s.Settles (s.tried n) new := by
  rcases s.tried_cases n with ⟨-, heq⟩ | ⟨-, heq⟩ | ⟨e, he, -, heq⟩
  · rw [heq]
    exact ⟨[], [], .refl s, .refl s⟩
  · rw [heq]
    exact ⟨[], [], .refl s, .refl s⟩
  · rw [heq]
    have heff := Domains.effective_of_narrow hs he
    have hlogs := Domains.logs_of_narrow he
    refine ⟨[e.undo], e.changes,
      { trail_eq := rfl
        changes_eq := by simp [recorded]
        takeBack_eq := heff.takeBack_eq
        replay_eq := hlogs.replay_eq
        length_eq := ?_
        nodup := nodup_elements hlogs }, heff.le, fun x v hv => ?_⟩
    · have hkind : n.event ≠ .instantiated := by cases n <;> exact nofun
      rw [hlogs.changes_eq]
      split
      · simp [Narrowing.change, hkind]
      · simp [Narrowing.change, hkind]
    · obtain ⟨c, hc, hvar, -, rfl⟩ := mem_elements_iff.1 hv
      exact heff.possible_of_mem hc hvar

/-! ### Several narrowings are tried -/

private theorem wellFormed_tried (hs : s.domains.WellFormed) (n : Narrowing) : (s.tried n).domains.WellFormed := by
  rcases s.tried_cases n with ⟨-, heq⟩ | ⟨-, heq⟩ | ⟨e, he, -, heq⟩
  · rwa [heq]
  · rwa [heq]
  · rw [heq]
    exact (Domains.effective_of_narrow hs he).wellFormed

private theorem wellFormed_tryAll (hs : s.domains.WellFormed) (ns : List Narrowing) :
    (s.tryAll ns).domains.WellFormed :=
  List.foldlRecOn (motive := fun t => t.domains.WellFormed) ns tried hs fun _ ht n _ => wellFormed_tried ht n

private theorem exists_logged (hs : s.domains.WellFormed) (ns : List Narrowing) :
    ∃ undos new, s.Logged (s.tryAll ns) undos new ∧ s.Settles (s.tryAll ns) new := by
  induction ns generalizing s with
  | nil => exact ⟨[], [], .refl s, .refl s⟩
  | cons n ns ih =>
    obtain ⟨us, cs, h, hd⟩ := logged_tried hs n
    obtain ⟨vs, ds, k, kd⟩ := ih (wellFormed_tried hs n)
    exact ⟨vs ++ us, cs ++ ds, h.trans hd k kd, hd.trans kd⟩

/-- Narrowings are tried one after the other on any domains.  Each leaves everything as it is or is entered into both
logs, and all together can be taken back by the entries of the trail and made again by the changes. -/
theorem logged_tryAll (hs : s.domains.WellFormed) (ns : List Narrowing) :
    (∀ n, (s.tryAll ns).Tried n ((s.tryAll ns).tried n)) ∧ ∃ undos new, s.Logged (s.tryAll ns) undos new := by
  constructor
  · intro n
    exact tried_spec (wellFormed_tryAll hs ns) n
  · obtain ⟨undos, new, h, -⟩ := exists_logged hs ns
    exact ⟨undos, new, h⟩

/-- A set between `{1}` and `{1, 2, 5}`, and an integer between -1 and 9. -/
private def unnarrowed : Store where
  domains :=
    { sets := ⟨#[⟨#[⟨1, .required⟩, ⟨2, .possible⟩, ⟨5, .possible⟩], 1, 3⟩]⟩
      ints := ⟨#[⟨-1, 9, by decide⟩]⟩ }

/-- Narrowings of which some fail and some have no effect, and the last that has one fixes the integer. -/
private def attempts : List Narrowing :=
  [.require ⟨0⟩ 2, .require ⟨0⟩ 2, .exclude ⟨0⟩ 2, .exclude ⟨0⟩ 5, .atMost ⟨0⟩ 4, .atLeast ⟨0⟩ 7, .atLeast ⟨0⟩ 4,
    .exclude ⟨0⟩ 8, .require ⟨1⟩ 1]

theorem logged_tryAll_sample : unnarrowed.domains.WellFormed ∧
    (∀ n, (unnarrowed.tryAll attempts).Tried n ((unnarrowed.tryAll attempts).tried n)) ∧
    ∃ undos, unnarrowed.Logged (unnarrowed.tryAll attempts) undos
      [⟨.set ⟨0⟩, .kernelGrew, 2⟩, ⟨.set ⟨0⟩, .envelopeShrank, 5⟩, ⟨.int ⟨0⟩, .upperLowered, 4⟩,
        ⟨.int ⟨0⟩, .lowerRaised, 4⟩, ⟨.int ⟨0⟩, .instantiated, 4⟩] ∧ undos.length = 4 := by
  have hs : unnarrowed.domains.WellFormed := Domains.wellFormed_of_ofLists (by decide +kernel)
  obtain ⟨htried, undos, new, h⟩ := logged_tryAll hs attempts
  have hnew : new = [⟨.set ⟨0⟩, .kernelGrew, 2⟩, ⟨.set ⟨0⟩, .envelopeShrank, 5⟩, ⟨.int ⟨0⟩, .upperLowered, 4⟩,
      ⟨.int ⟨0⟩, .lowerRaised, 4⟩, ⟨.int ⟨0⟩, .instantiated, 4⟩] := by
    refine Eq.trans h.changes_eq.symm ?_
    decide +kernel
  subst hnew
  exact ⟨hs, htried, undos, h, h.length_eq⟩

end Store

end SetConstraints
