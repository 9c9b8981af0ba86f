import SetConstraints.Inbox
import SetConstraints.Proofs.Action
import SetConstraints.Propagator

/-!
# What a propagator is yet to be told

The changes to the variables of a propagator reach it as events under its slots.  News are the events that it has
not been told yet, wherever they are on their way.  An inbox is meant for a propagator if all of its events are under
slots at which the propagator is registered and tell of what has happened (`Posting.Receives`).
-/

namespace SetConstraints

/-- Events under slots. -/
abbrev News := Slot → Event → Int32 → Prop

/-- The events of a delta under a slot. -/
def Delta.news (slot : Slot) (d : Delta) : News := fun l e v => l = slot ∧ (e, v) ∈ d.entries

namespace Inbox

/-- A delta is pending under a slot. -/
def Holds (b : Inbox) (l : Slot) : Prop := ∃ d, (l, d) ∈ b.pending

theorem not_holds_empty (l : Slot) : ¬ Holds {} l := by
  rintro ⟨d, hd⟩
  cases hd

theorem holds_cons (slot : Slot) (d : Delta) (later : List (Slot × Delta)) (l : Slot) :
    Holds ⟨(slot, d) :: later⟩ l ↔ l = slot ∨ Holds ⟨later⟩ l := by
  simp only [Holds, List.mem_cons, Prod.mk.injEq, exists_or, exists_and_left, exists_eq, and_true]

theorem holds_push (b : Inbox) (slot : Slot) (event : Event) (value : Int32) (l : Slot) :
    (b.push slot event value).Holds l ↔ l = slot ∨ b.Holds l := by
  obtain ⟨ds⟩ := b
  simp only [push]
  induction ds with
  | nil => rw [pushIn, holds_cons]
  | cons x ds ih =>
    obtain ⟨k, d⟩ := x
    simp only [pushIn]
    split
    · rename_i hk
      subst hk
      simp only [holds_cons]
      tauto
    · split
      · rw [holds_cons]
      · rw [holds_cons, holds_cons, ih, or_left_comm]

/-- The events of all deltas. -/
def news (b : Inbox) : News := fun l e v => ∃ d, (l, d) ∈ b.pending ∧ (e, v) ∈ d.entries

theorem not_news_empty (l : Slot) (e : Event) (v : Int32) : ¬ news {} l e v := by
  rintro ⟨d, hd, -⟩
  cases hd

theorem news_cons (slot : Slot) (d : Delta) (later : List (Slot × Delta)) (l : Slot) (e : Event) (v : Int32) :
    news ⟨(slot, d) :: later⟩ l e v ↔ d.news slot l e v ∨ news ⟨later⟩ l e v := by
  simp only [news, Delta.news, List.mem_cons, Prod.mk.injEq]
  constructor
  · rintro ⟨d', ⟨rfl, rfl⟩ | hd, hv⟩
    · exact .inl ⟨rfl, hv⟩
    · exact .inr ⟨d', hd, hv⟩
  · rintro (⟨rfl, hv⟩ | ⟨d', hd, hv⟩)
    · exact ⟨d, .inl ⟨rfl, rfl⟩, hv⟩
    · exact ⟨d', .inr hd, hv⟩

theorem news_push (b : Inbox) (slot : Slot) (event : Event) (value : Int32) (l : Slot) (e : Event) (v : Int32) :
    (b.push slot event value).news l e v ↔ b.news l e v ∨ l = slot ∧ e = event ∧ v = value := by
  obtain ⟨ds⟩ := b
  simp only [push]
  induction ds with
  | nil =>
    rw [pushIn, news_cons]
    simp [news, Delta.news, Delta.push]
  | cons x ds ih =>
    obtain ⟨k, d⟩ := x
    simp only [pushIn]
    split
    · rename_i hk
      subst hk
      simp only [news_cons, Delta.news, Delta.push, List.mem_append, List.mem_singleton, Prod.mk.injEq]
      tauto
    · split
      · rw [news_cons, news_cons]
        simp only [Delta.news, Delta.push, List.nil_append, List.mem_singleton, Prod.mk.injEq]
        tauto
      · rw [news_cons, news_cons, ih, or_assoc]

/-- Slots stay in order when an event comes in. -/
theorem sorted_push {b : Inbox} (hb : b.Sorted) (l : Slot) (e : Event) (v : Int32) : (b.push l e v).Sorted := by
  obtain ⟨r⟩ := b
  show (pushIn l e v r).Pairwise _
  induction r with
  | nil => exact List.pairwise_singleton _ _
  | cons x r ih =>
    have hsplit := List.pairwise_cons.1 hb
    rw [pushIn]
    split
    · exact List.pairwise_cons.2 hsplit
    · rename_i hne
      split
      · rename_i hlt
        refine List.pairwise_cons.2 ⟨fun y hy => ?_, hb⟩
        rcases List.mem_cons.1 hy with rfl | hy
        · exact hlt
        · exact Nat.lt_trans hlt (hsplit.1 y hy)
      · rename_i hge
        refine List.pairwise_cons.2 ⟨fun y hy => ?_, ih hsplit.2⟩
        rcases (holds_push ⟨r⟩ l e v y.1).1 ⟨y.2, hy⟩ with h | ⟨d, hd⟩
        · rw [h]
          exact Nat.lt_of_le_of_ne (Nat.le_of_not_lt hge) fun heq => hne (congrArg Slot.mk heq)
        · exact hsplit.1 (y.1, d) hd

/-- The first delta of an inbox is all that is pending under its slot. -/
theorem entries_delta_cons {k : Slot} {d : Delta} {later : List (Slot × Delta)} (h : Sorted ⟨(k, d) :: later⟩)
    (l : Slot) :
    (delta ⟨(k, d) :: later⟩ l).entries = (if k = l then d.entries else []) ++ (delta ⟨later⟩ l).entries := by
  show (deltaIn l ((k, d) :: later)).entries = _
  rw [deltaIn]
  split
  · rename_i hk
    subst hk
    rw [delta, deltaIn_eq_empty (List.pairwise_cons.1 h).1, List.append_nil]
  · rfl

end Inbox

namespace Posting

/-- A wish is registered to hear about a change under a slot. -/
def Hears (p : Posting) (c : Change) (l : Slot) : Prop :=
  ∃ r ∈ p.registrations, r.var = c.var ∧ r.slot = l ∧ r.events.contains c.event = true

instance (p : Posting) (c : Change) (l : Slot) : Decidable (p.Hears c l) :=
  inferInstanceAs (Decidable (∃ r ∈ p.registrations, _))

/-- Something is registered under a slot. -/
def Listens (p : Posting) (l : Slot) : Prop := ∃ r ∈ p.registrations, r.slot = l

theorem Hears.listens {p : Posting} {c : Change} {l : Slot} (h : p.Hears c l) : p.Listens l :=
  let ⟨r, hr, _, hl, _⟩ := h
  ⟨r, hr, hl⟩

/-- What there is to hear under a slot about some changes, in order. -/
def heard (p : Posting) (l : Slot) (changes : List Change) : List (Event × Int32) :=
  changes.flatMap fun c => if p.Hears c l then [(c.event, c.value)] else []

theorem heard_append (p : Posting) (l : Slot) (cs ds : List Change) :
    p.heard l (cs ++ ds) = p.heard l cs ++ p.heard l ds := List.flatMap_append

/-- What there is to hear about some changes. -/
def news (p : Posting) (changes : List Change) : News := fun l e v =>
  ∃ c ∈ changes, c.event = e ∧ c.value = v ∧ p.Hears c l

theorem news_append {p : Posting} {cs ds : List Change} {l : Slot} {e : Event} {v : Int32} :
    p.news (cs ++ ds) l e v ↔ p.news cs l e v ∨ p.news ds l e v := by
  simp only [news, List.mem_append, or_and_right, exists_or]

/-- All news comes from changes that the view confirms. -/
def Told (p : Posting) (V : View) (news : News) : Prop :=
  ∀ l e v, news l e v → ∃ c : Change, c.event = e ∧ c.value = v ∧ p.Hears c l ∧ V.Confirms c

theorem Told.of_le {p : Posting} {V W : View} {news : News} (h : p.Told W news) (hle : V ≤ W) : p.Told V news := by
  intro l e v hn
  obtain ⟨c, he, hv, hl, hc⟩ := h l e v hn
  exact ⟨c, he, hv, hl, hc.of_le hle⟩

/-- An inbox is meant for a posting: deltas are pending under registered slots only, and what they tell of comes from
changes that the view confirms. -/
structure Receives (p : Posting) (V : View) (b : Inbox) : Prop where
  listens : ∀ l, b.Holds l → p.Listens l
  told : p.Told V b.news

theorem receives_empty (p : Posting) (V : View) : p.Receives V {} where
  listens l hl := absurd hl (Inbox.not_holds_empty l)
  told l e v hn := absurd hn (Inbox.not_news_empty l e v)

theorem Receives.of_le {p : Posting} {V W : View} {b : Inbox} (h : p.Receives W b) (hle : V ≤ W) : p.Receives V b :=
  ⟨h.listens, h.told.of_le hle⟩

theorem Receives.of_subset {p : Posting} {V : View} {b d : Inbox} (h : p.Receives V b)
    (hsub : d.pending ⊆ b.pending) : p.Receives V d where
  listens l hl :=
    have ⟨x, hx⟩ := hl
    h.listens l ⟨x, hsub hx⟩
  told l e v hn :=
    have ⟨x, hx, hv⟩ := hn
    h.told l e v ⟨x, hsub hx, hv⟩

end Posting

end SetConstraints
