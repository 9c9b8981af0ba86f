import Mathlib.Order.Defs.PartialOrder
import SetConstraints.Assignment
import SetConstraints.Proofs.SetDomain
import SetConstraints.Proofs.Table

/-!
# Views

A view says of every value of every set whether it is in, out or undecided, and of every integer between which
bounds it lies.  Domains have a view, in which a variable that does not exist is wide open, and so have
assignments, in which nothing is undecided.  Smaller views say more, and an assignment lies within domains exactly
if its view is below theirs (`admits_iff`).

An effective narrowing makes the view smaller, brings about what it asks for, explains every difference by a
change, and can be taken back (`effective_of_narrow`).  It fails only where no view below accepts it
(`narrow_ne_error`).
-/

namespace SetConstraints

/-- What is known about the values of all variables. -/
structure View where
  element : SetVar → Int32 → Membership
  low : IntVar → Int32
  high : IntVar → Int32
  low_le_high : ∀ x, low x ≤ high x

namespace View

/-- The smaller view has decided all that the larger one has, and alike. -/
structure Below (V W : View) : Prop where
  element : ∀ s v, W.element s v = .possible ∨ V.element s v = W.element s v
  low : ∀ x, W.low x ≤ V.low x
  high : ∀ x, V.high x ≤ W.high x

instance : Preorder View where
  le := Below
  le_refl V := ⟨fun _ _ => .inr rfl, fun _ => Int32.le_refl _, fun _ => Int32.le_refl _⟩
  le_trans U V W h k :=
    { element := fun s v => by have := h.element s v; have := k.element s v; grind
      low := fun x => Int32.le_trans (k.low x) (h.low x)
      high := fun x => Int32.le_trans (h.high x) (k.high x) }

variable {V W : View} {s : SetVar} {x : IntVar} {v : Int32}

theorem element_of_le (h : V ≤ W) (hd : W.element s v ≠ .possible) : V.element s v = W.element s v :=
  (h.element s v).resolve_left hd

theorem required_of_le (h : V ≤ W) (hr : W.element s v = .required) : V.element s v = .required :=
  (element_of_le h (by simp [hr])).trans hr

theorem excluded_of_le (h : V ≤ W) (he : W.element s v = .excluded) : V.element s v = .excluded :=
  (element_of_le h (by simp [he])).trans he

/-- Two views say the same about a variable. -/
def Agree (V W : View) : Var → Prop
  | .set s => ∀ v, V.element s v = W.element s v
  | .int x => V.low x = W.low x ∧ V.high x = W.high x

/-- The view with one element decided, or left open, as told. -/
def update (V : View) (s : SetVar) (v : Int32) (m : Membership) : View :=
  { V with element := fun r w => if r = s ∧ w = v then m else V.element r w }

@[simp] theorem element_update_self (V : View) (s : SetVar) (v : Int32) (m : Membership) :
    (V.update s v m).element s v = m := by
  simp [update]

theorem element_update_of_ne {r : SetVar} {w : Int32} (V : View) (m : Membership) (h : ¬ (r = s ∧ w = v)) :
    (V.update s v m).element r w = V.element r w :=
  if_neg h

/-- Deciding an open element makes a view smaller. -/
theorem update_le {m : Membership} (h : V.element s v = .possible) : V.update s v m ≤ V where
  element r w := by
    by_cases hrw : r = s ∧ w = v
    · exact .inl (hrw.1 ▸ hrw.2 ▸ h)
    · exact .inr (element_update_of_ne V m hrw)
  low _ := Int32.le_refl _
  high _ := Int32.le_refl _

/-- What a narrowing asks for is already so. -/
def Accepts (V : View) : Narrowing → Prop
  | .require s v => V.element s v = .required
  | .exclude s v => V.element s v = .excluded
  | .atLeast x v => v ≤ V.low x
  | .atMost x v => V.high x ≤ v

theorem Accepts.of_le {n : Narrowing} (hn : W.Accepts n) (h : V ≤ W) : V.Accepts n := by
  cases n with
  | require s v => exact required_of_le h hn
  | exclude s v => exact excluded_of_le h hn
  | atLeast x v => exact Int32.le_trans hn (h.low x)
  | atMost x v => exact Int32.le_trans (h.high x) hn

/-- What a change tells is so. -/
def Confirms (V : View) (c : Change) : Prop :=
  match c.var, c.event with
  | .set s, .kernelGrew => V.element s c.value = .required
  | _, _ => True

theorem Confirms.of_le {c : Change} (hc : W.Confirms c) (h : V ≤ W) : V.Confirms c := by
  unfold Confirms at hc ⊢
  split at hc
  · exact required_of_le h hc
  · trivial

/-- Every difference between two views is told by a change. -/
structure Explained (V W : View) (changes : List Change) : Prop where
  element : ∀ s v, W.element s v = V.element s v ∨
    (W.element s v = .required ∧ ⟨.set s, .kernelGrew, v⟩ ∈ changes) ∨
    (W.element s v = .excluded ∧ ⟨.set s, .envelopeShrank, v⟩ ∈ changes)
  high : ∀ x, W.high x = V.high x ∨ ∃ v, ⟨.int x, .upperLowered, v⟩ ∈ changes

theorem Explained.refl (V : View) (changes : List Change) : Explained V V changes :=
  ⟨fun _ _ => .inl rfl, fun _ => .inl rfl⟩

theorem Explained.trans {U V W : View} {cs ds : List Change} (h : Explained U V cs) (k : Explained V W ds) :
    Explained U W (cs ++ ds) where
  element s v := by
    have := h.element s v
    have := k.element s v
    grind
  high x := by
    have := h.high x
    have := k.high x
    grind

end View

/-! ### The view of domains -/

/-- The variable that a narrowing is about. -/
def Narrowing.var : Narrowing → Var
  | .require s _ | .exclude s _ => .set s
  | .atLeast x _ | .atMost x _ => .int x

/-- The variable whose domain is restored. -/
def Undo.var : Undo → Var
  | .release s _ => .set s
  | .bounds x _ => .int x

/-- The value that a narrowing is about. -/
def Narrowing.value : Narrowing → Int32
  | .require _ v | .exclude _ v | .atLeast _ v | .atMost _ v => v

namespace Domains

/-- What domains say; nothing about a variable that does not exist. -/
def view (d : Domains) : View where
  element s v := (d.sets.get? s).elim .possible (·.membership v)
  low x := (d.ints.get? x).elim Int32.minValue IntDomain.low
  high x := (d.ints.get? x).elim Int32.maxValue IntDomain.high
  low_le_high x := by
    cases d.ints.get? x with
    | none => exact Int32.le_maxValue _
    | some e => exact e.low_le_high

/-- Every set domain is well formed. -/
def WellFormed (d : Domains) : Prop := ∀ s e, d.sets.get? s = some e → e.WellFormed

/-- Domains are well formed if every set domain comes from its own kernel and envelope. -/
theorem wellFormed_of_ofLists {d : Domains}
    (h : ∀ e ∈ d.sets.toList, SetDomain.ofLists e.kernel e.envelope = .ok e) : d.WellFormed := fun s e he =>
  SetDomain.wellFormed_ofLists (h e (Table.mem_toList_iff.2 ⟨s, he⟩))

/-- The variable exists. -/
def Has (d : Domains) : Var → Prop
  | .set s => (d.sets.get? s).isSome
  | .int x => (d.ints.get? x).isSome

variable {d : Domains} {s : SetVar} {x : IntVar} {v : Int32}

@[simp] theorem view_element_of_get? {e : SetDomain} (h : d.sets.get? s = some e) :
    d.view.element s v = e.membership v := by
  simp [view, h]

@[simp] theorem view_low_of_get? {e : IntDomain} (h : d.ints.get? x = some e) : d.view.low x = e.low := by
  simp [view, h]

@[simp] theorem view_high_of_get? {e : IntDomain} (h : d.ints.get? x = some e) : d.view.high x = e.high := by
  simp [view, h]

theorem has_set_iff {d : Domains} {s : SetVar} : d.Has (.set s) ↔ s.number < d.sets.size := by
  simp [Has, Table.get?, Table.size, Key.index]

theorem has_int_iff {d : Domains} {x : IntVar} : d.Has (.int x) ↔ x.number < d.ints.size := by
  simp [Has, Table.get?, Table.size, Key.index]

theorem has_congr {d e : Domains} (hs : e.sets.size = d.sets.size) (hi : e.ints.size = d.ints.size) (w : Var) :
    e.Has w ↔ d.Has w := by
  cases w with
  | set s => rw [has_set_iff, has_set_iff, hs]
  | int x => rw [has_int_iff, has_int_iff, hi]

/-! ### Narrowing -/

/-- What an effective narrowing brings about. -/
structure Effective (d : Domains) (n : Narrowing) (e : Effect) : Prop where
  wellFormed : e.domains.WellFormed
  le : e.domains.view ≤ d.view
  accepts : e.domains.view.Accepts n
  not_accepts : ¬ d.view.Accepts n
  /-- Nothing more than asked for is decided. -/
  le_of_accepts : ∀ V ≤ d.view, V.Accepts n → V ≤ e.domains.view
  explained : d.view.Explained e.domains.view e.changes
  confirms : ∀ c ∈ e.changes, e.domains.view.Confirms c
  about : ∀ c ∈ e.changes, c.var = n.var ∧ c.value = n.value ∧
    ∀ s, c.var = .set s → c.event = .kernelGrew ∨ c.event = .envelopeShrank
  changes_ne_nil : e.changes ≠ []
  takeBack_eq : e.domains.takeBack e.undo = d
  undo_var : e.undo.var = n.var
  size_sets : e.domains.sets.size = d.sets.size
  size_ints : e.domains.ints.size = d.ints.size
  values_eq : ∀ s, (e.domains.sets.get? s).map SetDomain.values = (d.sets.get? s).map SetDomain.values
  domain_eq : ∀ w, w ≠ n.var → e.domains.domain? w = d.domain? w

private theorem domain?_set_of_ne {d : Domains} {s : SetVar} {e : SetDomain} {w : Var} (h : w ≠ .set s) :
    ({ d with sets := d.sets.set s e } : Domains).domain? w = d.domain? w := by
  cases w with
  | set r =>
    have : r ≠ s := fun he => h (he ▸ rfl)
    simp only [domain?, set?, Table.get?_set_ne _ this]
  | int x => rfl

private theorem domain?_int_of_ne {d : Domains} {x : IntVar} {e : IntDomain} {w : Var} (h : w ≠ .int x) :
    ({ d with ints := d.ints.set x e } : Domains).domain? w = d.domain? w := by
  cases w with
  | set s => rfl
  | int y =>
    have : y ≠ x := fun he => h (he ▸ rfl)
    simp only [domain?, int?, Table.get?_set_ne _ this]

/-- The narrowing decides the membership of `v` in `s` to be `m`, which the event tells. -/
private inductive Decides (s : SetVar) (v : Int32) : Narrowing → Membership → Event → Prop
  | require : Decides s v (.require s v) .required .kernelGrew
  | exclude : Decides s v (.exclude s v) .excluded .envelopeShrank

private theorem Decides.accepts_iff {n : Narrowing} {m : Membership} {event : Event} (h : Decides s v n m event)
    (V : View) : V.Accepts n ↔ V.element s v = m := by
  cases h <;> rfl

private theorem element_withSet {event : Event} {b e : SetDomain} {m : Membership} (hb : d.sets.get? s = some b)
    (he : b.Moved v m e) (r : SetVar) (w : Int32) :
    (d.withSet s v event e).domains.view.element r w = if r = s ∧ w = v then m else d.view.element r w := by
  by_cases hr : r = s
  · subst hr
    simp [withSet, view, Table.get?_set_self hb, hb, he.membership_eq]
  · simp [withSet, view, Table.get?_set_ne _ hr, hr]

private theorem wellFormed_withSet {event : Event} {b e : SetDomain} (hd : d.WellFormed)
    (hb : d.sets.get? s = some b) (he : e.WellFormed) : (d.withSet s v event e).domains.WellFormed := by
  intro r f hf
  rw [withSet] at hf
  by_cases hr : r = s
  · rw [hr, Table.get?_set_self hb] at hf
    exact Option.some.inj hf ▸ he
  · rw [Table.get?_set_ne _ hr] at hf
    exact hd r f hf

private theorem values_withSet {event : Event} {b e : SetDomain} (hb : d.sets.get? s = some b)
    (he : e.values = b.values) (r : SetVar) :
    ((d.withSet s v event e).domains.sets.get? r).map SetDomain.values = (d.sets.get? r).map SetDomain.values := by
  rw [withSet]
  by_cases hr : r = s
  · rw [hr, Table.get?_set_self hb, hb, Option.map_some, Option.map_some, he]
  · rw [Table.get?_set_ne _ hr]

/-- Deciding a possible element of a set. -/
private theorem effective_withSet {n : Narrowing} {m : Membership} {event : Event} {b e : SetDomain}
    (hd : d.WellFormed) (hb : d.sets.get? s = some b) (he : b.Moved v m e) (hp : b.membership v = .possible)
    (hn : Decides s v n m event) : d.Effective n (d.withSet s v event e) where
  wellFormed := wellFormed_withSet hd hb he.wellFormed
  le := by
    refine ⟨fun r w => ?_, fun _ => Int32.le_refl _, fun _ => Int32.le_refl _⟩
    rw [element_withSet hb he]
    split
    · rename_i h
      obtain ⟨rfl, rfl⟩ := h
      exact .inl ((view_element_of_get? hb).trans hp)
    · exact .inr rfl
  accepts := by
    rw [hn.accepts_iff, element_withSet hb he, if_pos ⟨rfl, rfl⟩]
  not_accepts := by
    rw [hn.accepts_iff, view_element_of_get? hb, hp]
    cases hn <;> exact nofun
  le_of_accepts V hV hacc := by
    refine ⟨fun r w => ?_, hV.low, hV.high⟩
    rw [element_withSet hb he]
    split
    · rename_i h
      obtain ⟨rfl, rfl⟩ := h
      exact .inr ((hn.accepts_iff V).1 hacc)
    · exact hV.element r w
  explained := by
    refine ⟨fun r w => ?_, fun _ => .inl rfl⟩
    rw [element_withSet hb he]
    split
    · rename_i h
      obtain ⟨rfl, rfl⟩ := h
      cases hn with
      | require => exact .inr (.inl ⟨rfl, List.mem_singleton_self _⟩)
      | exclude => exact .inr (.inr ⟨rfl, List.mem_singleton_self _⟩)
    · exact .inl rfl
  confirms c hc := by
    obtain rfl := List.mem_singleton.1 hc
    cases hn with
    | require => exact (element_withSet hb he s v).trans (if_pos ⟨rfl, rfl⟩)
    | exclude => trivial
  about c hc := by
    obtain rfl := List.mem_singleton.1 hc
    cases hn with
    | require => exact ⟨rfl, rfl, fun _ _ => .inl rfl⟩
    | exclude => exact ⟨rfl, rfl, fun _ _ => .inr rfl⟩
  changes_ne_nil := List.cons_ne_nil _ _
  takeBack_eq := by
    simp only [withSet, takeBack, Table.modify, Table.get?_set_self hb, he.release_eq, Table.set_set_self hb]
  undo_var := by cases hn <;> rfl
  size_sets := Table.size_set ..
  size_ints := rfl
  values_eq := values_withSet hb he.values_eq
  domain_eq w hw := domain?_set_of_ne (by cases hn <;> exact hw)

/-- The narrowing moves a bound of `x` inwards to `v`, which turns `b` into `e` and the event tells. -/
private inductive Tightens (x : IntVar) (v : Int32) (b e : IntDomain) : Narrowing → Event → Prop
  | atLeast (hlt : b.low < v) (hlow : e.low = v) (hhigh : e.high = b.high) :
      Tightens x v b e (.atLeast x v) .lowerRaised
  | atMost (hlt : v < b.high) (hlow : e.low = b.low) (hhigh : e.high = v) :
      Tightens x v b e (.atMost x v) .upperLowered

private theorem Tightens.var_eq {n : Narrowing} {event : Event} {b e : IntDomain} (h : Tightens x v b e n event) :
    n.var = .int x := by
  cases h <;> rfl

private theorem Tightens.value_eq {n : Narrowing} {event : Event} {b e : IntDomain} (h : Tightens x v b e n event) :
    n.value = v := by
  cases h <;> rfl

/-- A bound of the narrowed domain is the old one or `v`. -/
private theorem Tightens.within {n : Narrowing} {event : Event} {b e : IntDomain} (h : Tightens x v b e n event) :
    b.low ≤ e.low ∧ e.high ≤ b.high := by
  cases h <;> grind

private theorem low_withInt {event : Event} {b e : IntDomain} (hb : d.ints.get? x = some b) (y : IntVar) :
    (d.withInt x v event b e).domains.view.low y = if y = x then e.low else d.view.low y := by
  by_cases hy : y = x
  · subst hy
    simp [withInt, view, Table.get?_set_self hb]
  · simp [withInt, view, Table.get?_set_ne _ hy, hy]

private theorem high_withInt {event : Event} {b e : IntDomain} (hb : d.ints.get? x = some b) (y : IntVar) :
    (d.withInt x v event b e).domains.view.high y = if y = x then e.high else d.view.high y := by
  by_cases hy : y = x
  · subst hy
    simp [withInt, view, Table.get?_set_self hb]
  · simp [withInt, view, Table.get?_set_ne _ hy, hy]

/-- A moved bound may fix the variable as well. -/
private theorem changes_withInt {event : Event} {b e : IntDomain} {c : Change}
    (hc : c ∈ (d.withInt x v event b e).changes) :
    c = ⟨.int x, event, v⟩ ∨ c = ⟨.int x, .instantiated, e.low⟩ ∧ e.low = e.high := by
  rw [withInt, List.mem_cons] at hc
  rcases hc with rfl | hc
  · exact .inl rfl
  · split at hc
    · rename_i hfixed
      exact .inr ⟨List.mem_singleton.1 hc, by simpa [IntDomain.isFixed] using hfixed⟩
    · cases hc

/-- Moving a bound of an integer inwards. -/
private theorem effective_withInt {n : Narrowing} {event : Event} {b e : IntDomain} (hd : d.WellFormed)
    (hb : d.ints.get? x = some b) (hn : Tightens x v b e n event) : d.Effective n (d.withInt x v event b e) where
  wellFormed := hd
  le := by
    refine ⟨fun _ _ => .inr rfl, fun y => ?_, fun y => ?_⟩
    · rw [low_withInt hb]
      split
      · rename_i hy
        rw [hy, view_low_of_get? hb]
        exact hn.within.1
      · exact Int32.le_refl _
    · rw [high_withInt hb]
      split
      · rename_i hy
        rw [hy, view_high_of_get? hb]
        exact hn.within.2
      · exact Int32.le_refl _
  accepts := by
    cases hn with
    | atLeast hlt hlow hhigh =>
      rw [View.Accepts, low_withInt hb, if_pos rfl, hlow]
      exact Int32.le_refl _
    | atMost hlt hlow hhigh =>
      rw [View.Accepts, high_withInt hb, if_pos rfl, hhigh]
      exact Int32.le_refl _
  not_accepts := by
    cases hn with
    | atLeast hlt hlow hhigh =>
      rw [View.Accepts, view_low_of_get? hb]
      exact Int32.not_le.2 hlt
    | atMost hlt hlow hhigh =>
      rw [View.Accepts, view_high_of_get? hb]
      exact Int32.not_le.2 hlt
  le_of_accepts V hV hacc := by
    refine ⟨hV.element, fun y => ?_, fun y => ?_⟩
    · have hle := hV.low y
      rw [low_withInt hb]
      split
      · rename_i hy
        subst hy
        rw [view_low_of_get? hb] at hle
        cases hn with
        | atLeast hlt hlow hhigh => exact hlow ▸ hacc
        | atMost hlt hlow hhigh => exact hlow ▸ hle
      · exact hle
    · have hle := hV.high y
      rw [high_withInt hb]
      split
      · rename_i hy
        subst hy
        rw [view_high_of_get? hb] at hle
        cases hn with
        | atLeast hlt hlow hhigh => exact hhigh ▸ hle
        | atMost hlt hlow hhigh => exact hhigh ▸ hacc
      · exact hle
  explained := by
    refine ⟨fun _ _ => .inl rfl, fun y => ?_⟩
    rw [high_withInt hb]
    split
    · rename_i hy
      subst hy
      cases hn with
      | atLeast hlt hlow hhigh => exact .inl (hhigh.trans (view_high_of_get? hb).symm)
      | atMost hlt hlow hhigh => exact .inr ⟨v, List.mem_cons_self ..⟩
    · exact .inl rfl
  confirms c hc := by
    rcases changes_withInt hc with rfl | ⟨rfl, -⟩ <;> trivial
  about c hc := by
    rcases changes_withInt hc with rfl | ⟨rfl, hfixed⟩
    · exact ⟨hn.var_eq.symm, hn.value_eq.symm, fun _ h => by cases h⟩
    · refine ⟨hn.var_eq.symm, ?_, fun _ h => by cases h⟩
      rw [hn.value_eq]
      cases hn with
      | atLeast hlt hlow hhigh => exact hlow
      | atMost hlt hlow hhigh => exact hfixed.trans hhigh
  changes_ne_nil := List.cons_ne_nil _ _
  takeBack_eq := by
    simp only [withInt, takeBack, Table.set_set_self hb]
  undo_var := hn.var_eq.symm
  size_sets := rfl
  size_ints := Table.size_set ..
  values_eq _ := rfl
  domain_eq w hw := domain?_int_of_ne (hn.var_eq ▸ hw)

/-- The ways in which a narrowing can end. -/
inductive Ends (d : Domains) (n : Narrowing) : Except (Stop Contradiction) (Option Effect) → Prop
  | unknown (hno : ¬ d.Has n.var) : Ends d n (.error (.fault .unknownIndex))
  | unchanged (hhas : d.Has n.var) (hacc : d.view.Accepts n) : Ends d n (.ok none)
  | changed {e : Effect} (hhas : d.Has n.var) (heff : d.Effective n e) : Ends d n (.ok (some e))
  | emptied (hhas : d.Has n.var) (hno : ∀ V ≤ d.view, ¬ V.Accepts n) : Ends d n (.error (.error .emptyDomain))

private theorem ends_withSet {n : Narrowing} {m : Membership} {event : Event} {b : SetDomain}
    {r : Narrowed SetDomain} (hd : d.WellFormed) (hb : d.sets.get? s = some b) (hn : Decides s v n m event)
    (hr : b.Decided v m r) : d.Ends n (outcome (d.withSet s v event) r) := by
  have hhas : d.Has n.var := by cases hn <;> simp [Has, Narrowing.var, hb]
  have hv : d.view.element s v = b.membership v := view_element_of_get? hb
  cases hr with
  | unchanged hm => exact .unchanged hhas ((hn.accepts_iff _).2 (hv.trans hm))
  | changed hp he => exact .changed hhas (effective_withSet hd hb he hp hn)
  | emptied hp hm =>
    refine .emptied hhas fun V hV hacc => hm ?_
    rw [← hv, ← View.element_of_le hV (hv ▸ hp)]
    exact (hn.accepts_iff V).1 hacc

private theorem ends_atLeast (hd : d.WellFormed) (x : IntVar) (v : Int32) :
    d.Ends (.atLeast x v) (d.narrow (.atLeast x v)) := by
  rw [narrow]
  cases hb : d.ints.get? x with
  | none => exact .unknown (by simp [Has, Narrowing.var, hb])
  | some b =>
    have hhas : d.Has (.int x) := by simp [Has, hb]
    simp only [IntDomain.atLeast]
    split
    · rename_i hle
      exact .unchanged hhas (by rwa [View.Accepts, view_low_of_get? hb])
    · rename_i hlow
      split
      · exact .changed hhas (effective_withInt hd hb (.atLeast (Int32.not_le.1 hlow) rfl rfl))
      · rename_i hhigh
        refine .emptied hhas fun V hV hacc => hhigh ?_
        have hle := hV.high x
        rw [view_high_of_get? hb] at hle
        exact Int32.le_trans hacc (Int32.le_trans (V.low_le_high x) hle)

private theorem ends_atMost (hd : d.WellFormed) (x : IntVar) (v : Int32) :
    d.Ends (.atMost x v) (d.narrow (.atMost x v)) := by
  rw [narrow]
  cases hb : d.ints.get? x with
  | none => exact .unknown (by simp [Has, Narrowing.var, hb])
  | some b =>
    have hhas : d.Has (.int x) := by simp [Has, hb]
    simp only [IntDomain.atMost]
    split
    · rename_i hle
      exact .unchanged hhas (by rwa [View.Accepts, view_high_of_get? hb])
    · rename_i hhigh
      split
      · exact .changed hhas (effective_withInt hd hb (.atMost (Int32.not_le.1 hhigh) rfl rfl))
      · rename_i hlow
        refine .emptied hhas fun V hV hacc => hlow ?_
        have hle := hV.low x
        rw [view_low_of_get? hb] at hle
        exact Int32.le_trans hle (Int32.le_trans (V.low_le_high x) hacc)

theorem ends_narrow (hd : d.WellFormed) (n : Narrowing) : d.Ends n (d.narrow n) := by
  cases n with
  | require s v =>
    rw [narrow]
    cases hb : d.sets.get? s with
    | none => exact .unknown (by simp [Has, Narrowing.var, hb])
    | some b => exact ends_withSet hd hb .require (SetDomain.decided_require (hd s b hb) v)
  | exclude s v =>
    rw [narrow]
    cases hb : d.sets.get? s with
    | none => exact .unknown (by simp [Has, Narrowing.var, hb])
    | some b => exact ends_withSet hd hb .exclude (SetDomain.decided_exclude (hd s b hb) v)
  | atLeast x v => exact ends_atLeast hd x v
  | atMost x v => exact ends_atMost hd x v

theorem effective_of_narrow {n : Narrowing} {e : Effect} (hd : d.WellFormed) (h : d.narrow n = .ok (some e)) :
    d.Effective n e := by
  have hends := ends_narrow hd n
  rw [h] at hends
  cases hends with
  | changed hhas heff => exact heff

theorem accepts_of_narrow_none {n : Narrowing} (hd : d.WellFormed) (h : d.narrow n = .ok none) :
    d.view.Accepts n := by
  have hends := ends_narrow hd n
  rw [h] at hends
  cases hends with
  | unchanged hhas hacc => exact hacc

/-- Only an existing variable can be narrowed. -/
theorem has_of_narrow {n : Narrowing} {r : Option Effect} (hd : d.WellFormed) (h : d.narrow n = .ok r) :
    d.Has n.var := by
  have hends := ends_narrow hd n
  rw [h] at hends
  cases hends with
  | unchanged hhas hacc => exact hhas
  | changed hhas heff => exact hhas

/-- Only a variable that does not exist makes a narrowing a fault. -/
theorem fault_of_narrow {n : Narrowing} {f : Fault} (hd : d.WellFormed) (h : d.narrow n = .error (.fault f)) :
    f = .unknownIndex ∧ ¬ d.Has n.var := by
  have hends := ends_narrow hd n
  rw [h] at hends
  cases hends with
  | unknown hno => exact ⟨rfl, hno⟩

/-- A narrowing that some smaller view accepts is no contradiction. -/
theorem narrow_ne_error {n : Narrowing} {V : View} (hd : d.WellFormed) (hV : V ≤ d.view) (hn : V.Accepts n)
    (c : Contradiction) : d.narrow n ≠ .error (.error c) := by
  intro h
  have hends := ends_narrow hd n
  rw [h] at hends
  cases hends with
  | emptied hhas hno => exact hno V hV hn

/-- A narrowing that is accepted already has no effect. -/
theorem narrow_eq_none {n : Narrowing} (hd : d.WellFormed) (hn : d.view.Accepts n) (hh : d.Has n.var) :
    d.narrow n = .ok none := by
  have hends := ends_narrow hd n
  generalize d.narrow n = r at hends
  cases hends with
  | unknown hno => exact absurd hh hno
  | unchanged hhas hacc => rfl
  | changed hhas heff => exact absurd hn heff.not_accepts
  | emptied hhas hno => exact absurd hn (hno _ le_rfl)

/-- An element becomes certain only by being required. -/
theorem Effective.required {n : Narrowing} {e : Effect} (h : d.Effective n e) (hn : n ≠ .require s v)
    (hr : e.domains.view.element s v = .required) : d.view.element s v = .required := by
  rcases h.explained.element s v with heq | ⟨-, hc⟩ | ⟨hex, -⟩
  · exact heq ▸ hr
  · obtain ⟨hvar, hval, -⟩ := h.about _ hc
    have hacc := h.accepts
    cases n with
    | require r w =>
      cases hvar
      cases hval
      exact absurd rfl hn
    | exclude r w =>
      cases hvar
      cases hval
      exact absurd (hr.symm.trans hacc) (by simp)
    | atLeast x w => cases hvar
    | atMost x w => cases hvar
  · exact absurd (hr.symm.trans hex) (by simp)

/-- The largest bound of an integer is lowered only on request. -/
theorem Effective.high_eq {n : Narrowing} {e : Effect} (h : d.Effective n e) (hn : ∀ w, n ≠ .atMost x w) :
    e.domains.view.high x = d.view.high x := by
  refine Int32.le_antisymm (h.le.high x) ?_
  -- the view that differs from the domains only in what was asked for keeps the old bound
  let V : View :=
    { e.domains.view with
      high := fun y => if y = x then d.view.high x else e.domains.view.high y
      low_le_high := fun y => by
        split
        · rename_i hy
          exact Int32.le_trans (e.domains.view.low_le_high y) (hy ▸ h.le.high y)
        · exact e.domains.view.low_le_high y }
  have hV : V ≤ d.view := by
    refine ⟨h.le.element, h.le.low, fun y => ?_⟩
    show (if y = x then d.view.high x else e.domains.view.high y) ≤ d.view.high y
    split
    · rename_i hy
      exact hy ▸ Int32.le_refl _
    · exact h.le.high y
  have hacc : V.Accepts n := by
    have hacc := h.accepts
    cases n with
    | require r w => exact hacc
    | exclude r w => exact hacc
    | atLeast y w => exact hacc
    | atMost y w =>
      have hy : y ≠ x := by
        rintro rfl
        exact hn w rfl
      show (if y = x then d.view.high x else e.domains.view.high y) ≤ w
      rw [if_neg hy]
      exact hacc
  have hhigh := (h.le_of_accepts V hV hacc).high x
  rwa [show V.high x = d.view.high x from if_pos rfl] at hhigh

/-! ### What is left to decide -/

/-- The number of open elements and of steps between bounds, which no search can go deeper than. -/
def freedom (d : Domains) : Nat := d.undecided + d.width

/-- An effective narrowing decides something. -/
theorem freedom_of_narrow {n : Narrowing} {e : Effect} (h : d.narrow n = .ok (some e)) :
    e.domains.freedom < d.freedom := by
  have := progress_of_narrow h
  unfold freedom
  omega

end Domains

/-- A value outside a set, or in it, in the terms of a view. -/
theorem SetDomain.requires_iff (d : SetDomain) (v : Int32) : d.requires v = true ↔ d.membership v = .required := by
  simp [requires]

theorem SetDomain.allows_iff (d : SetDomain) (v : Int32) : d.allows v = true ↔ d.membership v ≠ .excluded := by
  simp [allows]

/-- The view of an existing set is that of its domain. -/
theorem Domains.membership_eq {d : Domains} {s : SetVar} {e : SetDomain} (h : d.sets.get? s = some e) (v : Int32) :
    e.membership v = d.view.element s v :=
  (view_element_of_get? h).symm

/-- The view says of a set all that its domain says. -/
structure View.Follows (V : View) (s : SetVar) (e : SetDomain) : Prop where
  wellFormed : e.WellFormed
  element_eq : ∀ v, e.membership v ≠ .possible → V.element s v = e.membership v

theorem View.Follows.required {V : View} {s : SetVar} {e : SetDomain} {v : Int32} (h : V.Follows s e)
    (he : e.requires v = true) : V.element s v = .required := by
  rw [SetDomain.requires_iff] at he
  rw [h.element_eq v (by simp [he]), he]

theorem View.Follows.excluded {V : View} {s : SetVar} {e : SetDomain} {v : Int32} (h : V.Follows s e)
    (he : e.allows v = false) : V.element s v = .excluded := by
  rw [← Bool.not_eq_true, SetDomain.allows_iff, not_not] at he
  rw [h.element_eq v (by simp [he]), he]

theorem View.follows_of_le {d : Domains} {V : View} {s : SetVar} {e : SetDomain} (hd : d.WellFormed)
    (hV : V ≤ d.view) (he : d.sets.get? s = some e) : V.Follows s e where
  wellFormed := hd s e he
  element_eq v hp := by
    rw [Domains.membership_eq he] at hp ⊢
    exact element_of_le hV hp

end SetConstraints
