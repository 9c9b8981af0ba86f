import SetConstraints.Proofs.View

/-!
# Assignments as views

An assignment decides everything.  It lies within domains exactly if it is an assignment of their variables, with
sets as increasing lists, whose view is below that of the domains (`Domains.admits_iff`).  Any choice of the possible
elements and of one of the bounds completes domains to an assignment (`Domains.admits_completion`).
-/

namespace SetConstraints

namespace Assignment

/-- What an assignment says. -/
def view (a : Assignment) : View where
  element s v := if v ∈ a.set s then .required else .excluded
  low := a.int
  high := a.int
  low_le_high _ := Int32.le_refl _

variable {a : Assignment} {s : SetVar} {v : Int32}

@[simp] theorem view_eq_required : a.view.element s v = .required ↔ v ∈ a.set s := by
  simp [view]

@[simp] theorem view_eq_excluded : a.view.element s v = .excluded ↔ v ∉ a.set s := by
  simp [view]

end Assignment

theorem SetDomain.admits_iff {e : SetDomain} (he : e.WellFormed) (l : List Int32) :
    e.Admits l ↔ l.Pairwise (· < ·) ∧
      ∀ v, e.membership v = .possible ∨ (if v ∈ l then Membership.required else .excluded) = e.membership v := by
  refine and_congr_right fun _ => ?_
  simp only [mem_kernel he, mem_envelope he]
  constructor
  · rintro ⟨h1, h2⟩ v
    have := h1 v
    have := h2 v
    cases hm : e.membership v <;> simp_all
  · intro h
    refine ⟨fun v hv => ?_, fun v hv he => ?_⟩ <;> have := h v <;> simp_all

/-- An assignment lies within domains exactly if its view is below theirs. -/
theorem Domains.admits_iff {d : Domains} (hd : d.WellFormed) (a : Assignment) :
    d.Admits a ↔ a.sets.length = d.sets.size ∧ a.ints.length = d.ints.size ∧
      (∀ s, d.Has (.set s) → (a.set s).Pairwise (· < ·)) ∧ a.view ≤ d.view := by
  constructor
  · intro h
    refine ⟨h.length_sets, h.length_ints, fun s hs => ?_, ⟨fun s v => ?_, fun x => ?_, fun x => ?_⟩⟩
    · obtain ⟨e, he⟩ := Option.isSome_iff_exists.1 hs
      exact (h.admits_set s e he).1
    · cases he : d.sets.get? s with
      | none => exact .inl (by simp [view, he])
      | some e =>
        rw [view_element_of_get? he]
        exact ((SetDomain.admits_iff (hd s e he) _).1 (h.admits_set s e he)).2 v
    · cases he : d.ints.get? x with
      | none => simp [view, he]
      | some e =>
        rw [view_low_of_get? he]
        exact (h.admits_int x e he).1
    · cases he : d.ints.get? x with
      | none => simp [view, he]
      | some e =>
        rw [view_high_of_get? he]
        exact (h.admits_int x e he).2
  · rintro ⟨h1, h2, h3, h4⟩
    refine ⟨h1, h2, fun s e he => ?_, fun x e he => ?_⟩
    · refine (SetDomain.admits_iff (hd s e he) _).2 ⟨h3 s (by simp [Has, he]), fun v => ?_⟩
      have := h4.element s v
      rwa [view_element_of_get? he] at this
    · exact ⟨view_low_of_get? he ▸ h4.low x, view_high_of_get? he ▸ h4.high x⟩

namespace Domains

variable {d : Domains} {takes : SetVar → Int32 → Prop} [∀ s, DecidablePred (takes s)] {bound : IntDomain → Int32}
  {s : SetVar} {x : IntVar} {v : Int32}

/-- Each set takes, beside its certain elements, some of the possible ones, and each integer a value of its domain. -/
def completion (d : Domains) (takes : SetVar → Int32 → Prop) [∀ s, DecidablePred (takes s)]
    (bound : IntDomain → Int32) : Assignment where
  sets := d.sets.keys.map fun s =>
    (d.sets.get? s).elim [] fun e => e.envelope.filter fun v => e.requires v || decide (takes s v)
  ints := d.ints.toList.map bound

private theorem set_completion {e : SetDomain} (h : d.sets.get? s = some e) :
    (d.completion takes bound).set s = e.envelope.filter fun v => e.requires v || decide (takes s v) := by
  have hs : s.number < d.sets.size := has_set_iff.1 (by simp [Has, h])
  simp [completion, Assignment.set, Table.keys, List.getElem?_range hs, Key.ofIndex, h]

theorem mem_completion (hd : d.WellFormed) (h : d.Has (.set s)) : v ∈ (d.completion takes bound).set s ↔
    d.view.element s v = .required ∨ d.view.element s v = .possible ∧ takes s v := by
  obtain ⟨e, he⟩ := Option.isSome_iff_exists.1 h
  rw [set_completion he, List.mem_filter, SetDomain.mem_envelope (hd _ _ he), Bool.or_eq_true, decide_eq_true_eq,
    SetDomain.requires_iff, membership_eq he]
  cases d.view.element s v <;> simp

theorem int_completion {b : IntDomain} (h : d.ints.get? x = some b) : (d.completion takes bound).int x = bound b := by
  have h : d.ints.entries[x.number]? = some b := h
  simp [completion, Assignment.int, Table.toList, h]

theorem admits_completion (hd : d.WellFormed) (hbound : ∀ b : IntDomain, b.Admits (bound b)) :
    d.Admits (d.completion takes bound) where
  length_sets := by simp [completion, Table.keys]
  length_ints := by simp [completion, Table.toList, Table.size]
  admits_set s e he := by
    have hwf := hd s e he
    rw [set_completion he]
    refine ⟨(SetDomain.pairwise_envelope hwf).filter _, fun v hv => ?_, fun v hv => (List.mem_filter.1 hv).1⟩
    have hr := (SetDomain.mem_kernel hwf v).1 hv
    simp [SetDomain.mem_envelope_of_mem_kernel hwf hv, SetDomain.requires_iff, hr]
  admits_int x b hb := by
    rw [int_completion hb]
    exact hbound b

end Domains

end SetConstraints
