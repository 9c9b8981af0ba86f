import SetConstraints.Proofs.Store

/-!
# Domains within domains

Domains lie within others if they are those of the same variables and every one of them is narrower or the same: its
kernel has grown, its envelope has shrunk, its bounds have moved inwards.  For well-formed domains this is the order
of their views (`Domains.within_iff`), and domains that come from the same ones by narrowing and lie within each other
are the same (`Domains.eq_of_within`).
-/

namespace SetConstraints

namespace Domains

/-- The same variables with narrower or the same domains. -/
structure Within (d e : Domains) : Prop where
  size_sets : d.sets.size = e.sets.size
  size_ints : d.ints.size = e.ints.size
  set : ∀ x a b, d.sets.get? x = some a → e.sets.get? x = some b → b.kernel ⊆ a.kernel ∧ a.envelope ⊆ b.envelope
  int : ∀ x a b, d.ints.get? x = some a → e.ints.get? x = some b → b.low ≤ a.low ∧ a.high ≤ b.high

variable {d e : Domains}

/-- Kernels grow and envelopes shrink exactly if what is decided stays so. -/
private theorem membership_iff {a b : SetDomain} (ha : a.WellFormed) (hb : b.WellFormed) :
    (b.kernel ⊆ a.kernel ∧ a.envelope ⊆ b.envelope) ↔
      ∀ v, b.membership v = .possible ∨ a.membership v = b.membership v := by
  simp only [List.subset_def, SetDomain.mem_kernel ha, SetDomain.mem_kernel hb, SetDomain.mem_envelope ha,
    SetDomain.mem_envelope hb]
  constructor
  · rintro ⟨hk, he⟩ v
    have := @hk v
    have := @he v
    cases hm : b.membership v <;> simp_all
  · intro h
    constructor
    · intro v hv
      have := h v
      simp_all
    · intro v hv hno
      have := h v
      simp_all

theorem within_iff (hd : d.WellFormed) (he : e.WellFormed) :
    d.Within e ↔ d.sets.size = e.sets.size ∧ d.ints.size = e.ints.size ∧ d.view ≤ e.view := by
  constructor
  · intro h
    refine ⟨h.size_sets, h.size_ints, ⟨fun x v => ?_, fun x => ?_, fun x => ?_⟩⟩
    · cases hb : e.sets.get? x with
      | none => exact .inl (by simp [view, hb])
      | some b =>
        obtain ⟨a, ha⟩ := Table.exists_get? h.size_sets hb
        rw [view_element_of_get? ha, view_element_of_get? hb]
        exact (membership_iff (hd x a ha) (he x b hb)).1 (h.set x a b ha hb) v
    · cases hb : e.ints.get? x with
      | none => simp [view, hb]
      | some b =>
        obtain ⟨a, ha⟩ := Table.exists_get? h.size_ints hb
        rw [view_low_of_get? ha, view_low_of_get? hb]
        exact (h.int x a b ha hb).1
    · cases hb : e.ints.get? x with
      | none => simp [view, hb]
      | some b =>
        obtain ⟨a, ha⟩ := Table.exists_get? h.size_ints hb
        rw [view_high_of_get? ha, view_high_of_get? hb]
        exact (h.int x a b ha hb).2
  · rintro ⟨hs, hi, hle⟩
    refine ⟨hs, hi, fun x a b ha hb => ?_, fun x a b ha hb => ?_⟩
    · refine (membership_iff (hd x a ha) (he x b hb)).2 fun v => ?_
      have := hle.element x v
      rwa [view_element_of_get? ha, view_element_of_get? hb] at this
    · have hlow := hle.low x
      have hhigh := hle.high x
      rw [view_low_of_get? ha, view_low_of_get? hb] at hlow
      rw [view_high_of_get? ha, view_high_of_get? hb] at hhigh
      exact ⟨hlow, hhigh⟩

/-- Domains over the same values that lie within each other are the same. -/
theorem eq_of_within (hd : d.WellFormed) (he : e.WellFormed) (h : d.Within e) (k : e.Within d)
    (hvalues : ∀ x, (d.sets.get? x).map SetDomain.values = (e.sets.get? x).map SetDomain.values) : d = e := by
  have hsets : d.sets = e.sets := by
    refine Table.ext_get? fun x => ?_
    have hval := hvalues x
    cases ha : d.sets.get? x with
    | none =>
      rw [ha] at hval
      exact (Option.map_eq_none_iff.1 hval.symm).symm
    | some a =>
      obtain ⟨b, hb⟩ := Table.exists_get? k.size_sets ha
      rw [ha, hb, Option.map_some, Option.map_some, Option.some.injEq] at hval
      rw [hb, Option.some.injEq]
      refine SetDomain.ext_membership (hd x a ha) (he x b hb) hval fun v => ?_
      have h1 := (membership_iff (hd x a ha) (he x b hb)).1 (h.set x a b ha hb) v
      have h2 := (membership_iff (he x b hb) (hd x a ha)).1 (k.set x b a hb ha) v
      rcases h1 with h1 | h1
      · exact h2.elim (fun h2 => h2.trans h1.symm) Eq.symm
      · exact h1
  have hints : d.ints = e.ints := by
    refine Table.ext_get? fun x => ?_
    cases ha : d.ints.get? x with
    | none => exact ((Table.get?_eq_none_iff _ _).2 (k.size_ints ▸ (Table.get?_eq_none_iff _ _).1 ha)).symm
    | some a =>
      obtain ⟨b, hb⟩ := Table.exists_get? k.size_ints ha
      obtain ⟨hl, hh⟩ := h.int x a b ha hb
      obtain ⟨hl', hh'⟩ := k.int x b a hb ha
      rw [hb, Option.some.injEq]
      obtain ⟨al, ah, _⟩ := a
      obtain ⟨bl, bh, _⟩ := b
      obtain rfl : al = bl := Int32.le_antisymm hl' hl
      obtain rfl : ah = bh := Int32.le_antisymm hh hh'
      rfl
  obtain ⟨ds, di⟩ := d
  obtain ⟨es, ei⟩ := e
  exact congrArg₂ Domains.mk hsets hints

end Domains

/-- Narrowing leads to domains within those before. -/
theorem Store.Narrower.within {P : Narrowing → Prop} {s t : Store} (h : s.Narrower P t) (hs : s.domains.WellFormed) :
    t.domains.Within s.domains :=
  (Domains.within_iff h.wellFormed hs).2 ⟨h.size_sets, h.size_ints, h.le⟩

/-- Domains narrowed from the same domains are the same if they have the same view. -/
theorem Store.Narrower.domains_eq {P Q : Narrowing → Prop} {s t u v : Store} (hd : t.domains = s.domains)
    (hu : s.Narrower P u) (hv : t.Narrower Q v) (hle : u.domains.view ≤ v.domains.view)
    (hge : v.domains.view ≤ u.domains.view) : v.domains = u.domains := by
  have hsets : v.domains.sets.size = u.domains.sets.size :=
    hv.size_sets.trans ((congrArg (·.sets.size) hd).trans hu.size_sets.symm)
  have hints : v.domains.ints.size = u.domains.ints.size :=
    hv.size_ints.trans ((congrArg (·.ints.size) hd).trans hu.size_ints.symm)
  refine Domains.eq_of_within hv.wellFormed hu.wellFormed
    ((Domains.within_iff hv.wellFormed hu.wellFormed).2 ⟨hsets, hints, hge⟩)
    ((Domains.within_iff hu.wellFormed hv.wellFormed).2 ⟨hsets.symm, hints.symm, hle⟩) fun x => ?_
  rw [hv.values_eq, hu.values_eq, hd]

end SetConstraints
