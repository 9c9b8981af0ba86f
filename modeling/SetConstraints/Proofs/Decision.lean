import Mathlib.Data.List.Sort
import SetConstraints.Proofs.Assignment
import SetConstraints.Solver.Enumeration

/-!
# Decisions and the order of assignments

Assignments are ordered lexicographically, with an element in a set before the same element out of it
(`Assignment.Precedes`).  A decision is about the first open element, or else the first open integer.  So both its
narrowings have an effect, every assignment takes one side of it, and those on the first side precede those on the
second (`Domains.exists_branches`).  Without a decision exactly one assignment is left (`Domains.exists_assignment`).
-/

namespace SetConstraints

namespace Assignment

/-- In the first set that differs, the smallest element of one assignment only belongs to `a`; or the sets are the
same and the first integer that differs is smaller in `a`. -/
def Precedes (a b : Assignment) : Prop :=
  (∃ s v, (∀ r : SetVar, r.number < s.number → a.set r = b.set r) ∧ (∀ w < v, w ∈ a.set s ↔ w ∈ b.set s) ∧
    v ∈ a.set s ∧ v ∉ b.set s) ∨
  a.sets = b.sets ∧ ∃ x, (∀ y : IntVar, y.number < x.number → a.int y = b.int y) ∧ a.int x < b.int x

theorem Precedes.ne {a b : Assignment} (h : a.Precedes b) : a ≠ b := by
  rintro rfl
  rcases h with ⟨s, v, -, -, hv, hno⟩ | ⟨-, x, -, hx⟩
  · exact hno hv
  · exact Int32.lt_irrefl hx

/-- Of two assignments only one precedes the other: they differ first in one place. -/
theorem Precedes.asymm {a b : Assignment} (h : a.Precedes b) : ¬ b.Precedes a := by
  rcases h with ⟨s, v, hs, hw, hv, hno⟩ | ⟨hsets, x, hx, hlt⟩
  · rintro (⟨s', v', hs', hw', hv', hno'⟩ | ⟨hsets, -⟩)
    · rcases Nat.lt_trichotomy s.number s'.number with hlt | heq | hlt
      · exact hno (hs' s hlt ▸ hv)
      · obtain rfl : s = s' := congrArg SetVar.mk heq
        rcases eq_or_ne v v' with rfl | hne
        · exact hno hv'
        rcases Int32.le_total v v' with hle | hle
        · exact hno ((hw' v (Int32.lt_of_le_of_ne hle hne)).2 hv)
        · exact hno' ((hw v' (Int32.lt_of_le_of_ne hle hne.symm)).2 hv')
      · exact hno' (hs s' hlt ▸ hv')
    · exact hno (by rwa [Assignment.set, hsets])
  · rintro (⟨s', v', -, -, hv', hno'⟩ | ⟨-, x', hx', hlt'⟩)
    · exact hno' (by rwa [Assignment.set, hsets])
    · rcases Nat.lt_trichotomy x.number x'.number with hlt₁ | heq | hlt₁
      · exact Int32.lt_irrefl (hx' x hlt₁ ▸ hlt)
      · obtain rfl : x = x' := congrArg IntVar.mk heq
        exact Int32.lt_irrefl (Int32.lt_trans hlt hlt')
      · exact Int32.lt_irrefl (hx x' hlt₁ ▸ hlt')

end Assignment

namespace Domains

variable {d : Domains} {a b : Assignment}

/-- All elements of a set are decided, or the bounds of an integer are the same. -/
def Decided (d : Domains) : Var → Prop
  | .set s => ∀ v, d.view.element s v ≠ .possible
  | .int x => d.view.low x = d.view.high x

/-! ### Assignments of decided variables -/

theorem Admits.set_eq (ha : d.Admits a) (hb : d.Admits b) (hd : d.WellFormed) {s : SetVar} (hs : d.Has (.set s))
    (hdec : d.Decided (.set s)) : a.set s = b.set s := by
  obtain ⟨-, -, hsa, hva⟩ := (admits_iff hd a).1 ha
  obtain ⟨-, -, hsb, hvb⟩ := (admits_iff hd b).1 hb
  refine List.Pairwise.eq_of_mem_iff (hsa s hs) (hsb s hs) fun v => ?_
  rw [← Assignment.view_eq_required, ← Assignment.view_eq_required, View.element_of_le hva (hdec v),
    View.element_of_le hvb (hdec v)]

theorem Admits.int_eq (ha : d.Admits a) (hb : d.Admits b) (hd : d.WellFormed) {x : IntVar}
    (hdec : d.Decided (.int x)) : a.int x = b.int x := by
  have hva := ((admits_iff hd a).1 ha).2.2.2
  have hvb := ((admits_iff hd b).1 hb).2.2.2
  have hdec : d.view.low x = d.view.high x := hdec
  have := hva.low x
  have := hva.high x
  have := hvb.low x
  have := hvb.high x
  simp only [Assignment.view] at *
  grind

theorem Admits.sets_eq (ha : d.Admits a) (hb : d.Admits b) (hd : d.WellFormed)
    (hdec : ∀ s, d.Has (.set s) → d.Decided (.set s)) : a.sets = b.sets := by
  refine List.ext_getElem (ha.length_sets.trans hb.length_sets.symm) fun i hi hi' => ?_
  have hs : d.Has (.set ⟨i⟩) := has_set_iff.2 (ha.length_sets ▸ hi)
  have := ha.set_eq hb hd hs (hdec ⟨i⟩ hs)
  simpa [Assignment.set, hi, hi'] using this

theorem Admits.eq_of_decided (ha : d.Admits a) (hb : d.Admits b) (hd : d.WellFormed)
    (hdec : ∀ w, d.Has w → d.Decided w) : a = b := by
  have hsets := ha.sets_eq hb hd fun s hs => hdec _ hs
  have hints : a.ints = b.ints := by
    refine List.ext_getElem (ha.length_ints.trans hb.length_ints.symm) fun i hi hi' => ?_
    have hx : d.Has (.int ⟨i⟩) := has_int_iff.2 (ha.length_ints ▸ hi)
    have := ha.int_eq hb hd (hdec _ hx)
    simpa [Assignment.int, hi, hi'] using this
  cases a
  cases b
  simp_all

/-! ### The next decision -/

private theorem firstUndecided?_eq_some {e : SetDomain} (he : e.WellFormed) {v : Int32}
    (h : e.firstUndecided? = some v) : e.membership v = .possible ∧ ∀ w < v, e.membership w ≠ .possible := by
  obtain ⟨hv, l, l', heq, hbefore⟩ := List.find?_eq_some_iff_append.1 h
  have hmem : v ∈ e.envelope := by simp [heq]
  rw [SetDomain.mem_envelope he] at hmem
  have hsorted := SetDomain.pairwise_envelope he
  rw [heq, List.pairwise_append, List.pairwise_cons] at hsorted
  have hvreq : e.membership v ≠ .required := by simpa [SetDomain.requires] using hv
  refine ⟨by cases hm : e.membership v <;> simp_all, fun w hw hp => ?_⟩
  have hw' : w ∈ e.envelope := (SetDomain.mem_envelope he w).2 (by simp [hp])
  rw [heq, List.mem_append, List.mem_cons] at hw'
  rcases hw' with hw' | rfl | hw'
  · simpa [SetDomain.requires, hp] using hbefore w hw'
  · exact Int32.lt_irrefl hw
  · exact Int32.lt_asymm hw (hsorted.2.1.1 w hw')

private theorem firstUndecided?_eq_none {e : SetDomain} (he : e.WellFormed) (h : e.firstUndecided? = none)
    (v : Int32) :
    e.membership v ≠ .possible := by
  intro hp
  have := List.find?_eq_none.1 h v ((SetDomain.mem_envelope he v).2 (by simp [hp]))
  simp [SetDomain.requires, hp] at this

/-- The open element of a set variable that a decision would be about. -/
private def element? (d : Domains) (s : SetVar) : Option Decision :=
  (d.sets.get? s).bind fun e => e.firstUndecided?.bind fun v => some (.element s v)

private def split? (d : Domains) (x : IntVar) : Option Decision :=
  (d.ints.get? x).bind fun e => if e.isFixed then none else some (.split x e.low)

private theorem decision?_eq (d : Domains) :
    d.decision? = (d.sets.keys.findSome? d.element?).or (d.ints.keys.findSome? d.split?) := rfl

private theorem decided_of_element? (hd : d.WellFormed) {s : SetVar} (hs : d.Has (.set s)) (h : d.element? s = none) :
    d.Decided (.set s) := by
  intro v
  obtain ⟨e, he⟩ := Option.isSome_iff_exists.1 hs
  rw [view_element_of_get? he]
  refine firstUndecided?_eq_none (hd s e he) ?_ v
  cases hf : e.firstUndecided? with
  | none => rfl
  | some w => simp [element?, he, hf] at h

private theorem decided_of_split? {x : IntVar} (hx : d.Has (.int x)) (h : d.split? x = none) :
    d.Decided (.int x) := by
  obtain ⟨e, he⟩ := Option.isSome_iff_exists.1 hx
  show d.view.low x = d.view.high x
  rw [view_low_of_get? he, view_high_of_get? he]
  by_contra hne
  simp [split?, he, IntDomain.isFixed, hne] at h

private theorem decided_of_keys (hd : d.WellFormed) (h : d.sets.keys.findSome? d.element? = none) (s : SetVar)
    (hs : d.Has (.set s)) : d.Decided (.set s) :=
  decided_of_element? hd hs (Table.findSome?_keys_eq_none h hs)

theorem decided_of_decision? (hd : d.WellFormed) (h : d.decision? = none) : ∀ w, d.Has w → d.Decided w := by
  rw [decision?_eq, Option.or_eq_none_iff] at h
  intro w hw
  cases w with
  | set s => exact decided_of_keys hd h.1 s hw
  | int x => exact decided_of_split? hw (Table.findSome?_keys_eq_none h.2 hw)

/-- What the next decision is about. -/
def Concerns (d : Domains) : Decision → Prop
  | .element s v => d.Has (.set s) ∧ d.view.element s v = .possible ∧ (∀ w < v, d.view.element s w ≠ .possible) ∧
      ∀ r : SetVar, r.number < s.number → d.Decided (.set r)
  | .split x v => d.Has (.int x) ∧ d.view.low x = v ∧ v < d.view.high x ∧ (∀ s, d.Has (.set s) → d.Decided (.set s)) ∧
      ∀ y : IntVar, y.number < x.number → d.Decided (.int y)

theorem concerns_decision? (hd : d.WellFormed) {dec : Decision} (h : d.decision? = some dec) : d.Concerns dec := by
  rw [decision?_eq, Option.or_eq_some_iff] at h
  rcases h with h | ⟨hsets, h⟩
  · obtain ⟨s, hs, hdec, hbefore⟩ := Table.findSome?_keys_eq_some h
    obtain ⟨e, he⟩ := Option.isSome_iff_exists.1 hs
    obtain ⟨v, hv, rfl⟩ : ∃ v, e.firstUndecided? = some v ∧ Decision.element s v = dec := by
      simpa [element?, he, Option.bind_eq_some_iff] using hdec
    obtain ⟨h1, h2⟩ := firstUndecided?_eq_some (hd s e he) hv
    refine ⟨hs, by rw [view_element_of_get? he, h1], fun w hw => by rw [view_element_of_get? he]; exact h2 w hw,
      fun r hr => decided_of_element? hd ?_ (hbefore r hr)⟩
    rw [has_set_iff]
    exact Nat.lt_trans hr (has_set_iff.1 hs)
  · obtain ⟨x, hx, hdec, hbefore⟩ := Table.findSome?_keys_eq_some h
    obtain ⟨e, he⟩ := Option.isSome_iff_exists.1 hx
    obtain ⟨hne, rfl⟩ : e.isFixed = false ∧ Decision.split x e.low = dec := by
      simpa [split?, he] using hdec
    refine ⟨hx, view_low_of_get? he, ?_, decided_of_keys hd hsets, fun y hy => decided_of_split? ?_ (hbefore y hy)⟩
    · rw [view_high_of_get? he]
      have := e.low_le_high
      simp only [IntDomain.isFixed, decide_eq_false_iff_not] at hne
      grind
    · rw [has_int_iff]
      exact Nat.lt_trans hy (has_int_iff.1 hx)

/-! ### The two sides of a decision -/

/-- Both narrowings of a decision have an effect, every assignment within the domains is on one side, and those on the
first side precede those on the second. -/
structure Branches (d : Domains) (n m : Narrowing) : Prop where
  first : ∃ e, d.narrow n = .ok (some e)
  second : ∃ e, d.narrow m = .ok (some e)
  accepts : ∀ a, d.Admits a → a.view.Accepts n ∨ a.view.Accepts m
  precedes : ∀ a b, d.Admits a → d.Admits b → a.view.Accepts n → b.view.Accepts m → a.Precedes b

/-- A narrowing that some view below the domains accepts, but not the domains, has an effect. -/
private theorem effective_of_accepts {n : Narrowing} {V : View} (hd : d.WellFormed) (hn : d.Has n.var)
    (hV : V ≤ d.view) (hacc : V.Accepts n) (hno : ¬ d.view.Accepts n) : ∃ e, d.narrow n = .ok (some e) := by
  cases h : d.narrow n with
  | ok o =>
    cases o with
    | none => exact absurd (accepts_of_narrow_none hd h) hno
    | some e => exact ⟨e, rfl⟩
  | error why =>
    cases why with
    | error c => exact absurd h (narrow_ne_error hd hV hacc c)
    | fault f => exact absurd hn (fault_of_narrow hd h).2

/-- A view below another that fixes one integer. -/
private def fix (V : View) (x : IntVar) (v : Int32) : View :=
  { V with
    low := fun y => if y = x then v else V.low y
    high := fun y => if y = x then v else V.high y
    low_le_high := fun y => by
      split
      · exact Int32.le_refl _
      · exact V.low_le_high y }

private theorem fix_le {V : View} {x : IntVar} {v : Int32} (hl : V.low x ≤ v) (hh : v ≤ V.high x) :
    fix V x v ≤ V where
  element _ _ := .inr rfl
  low y := by
    show V.low y ≤ if y = x then v else V.low y
    split
    · subst y; exact hl
    · exact Int32.le_refl _
  high y := by
    show (if y = x then v else V.high y) ≤ V.high y
    split
    · subst y; exact hh
    · exact Int32.le_refl _

private theorem branches_element (hd : d.WellFormed) {s : SetVar} {v : Int32} (h : d.Concerns (.element s v)) :
    d.Branches (.require s v) (.exclude s v) := by
  obtain ⟨hs, hp, hbelow, hbefore⟩ := h
  have hside : ∀ m, ∃ V : View, V ≤ d.view ∧ V.element s v = m := fun m =>
    ⟨d.view.update s v m, View.update_le hp, View.element_update_self ..⟩
  refine ⟨?_, ?_, fun a ha => ?_, fun a b ha hb hna hmb => ?_⟩
  · obtain ⟨V, hV, hv⟩ := hside .required
    exact effective_of_accepts hd hs hV hv (by simp [View.Accepts, hp])
  · obtain ⟨V, hV, hv⟩ := hside .excluded
    exact effective_of_accepts hd hs hV hv (by simp [View.Accepts, hp])
  · simp only [View.Accepts, Assignment.view_eq_required, Assignment.view_eq_excluded]
    exact Classical.em _
  · refine .inl ⟨s, v, fun r hr => ?_, fun w hw => ?_, by simpa [View.Accepts] using hna,
      by simpa [View.Accepts] using hmb⟩
    · exact ha.set_eq hb hd (has_set_iff.2 (Nat.lt_trans hr (has_set_iff.1 hs))) (hbefore r hr)
    · have hva := ((admits_iff hd a).1 ha).2.2.2
      have hvb := ((admits_iff hd b).1 hb).2.2.2
      rw [← Assignment.view_eq_required, ← Assignment.view_eq_required, View.element_of_le hva (hbelow w hw),
        View.element_of_le hvb (hbelow w hw)]

private theorem branches_split (hd : d.WellFormed) {x : IntVar} {v w : Int32} (h : d.Concerns (.split x v))
    (hw : next? v = some w) : d.Branches (.atMost x v) (.atLeast x w) := by
  obtain ⟨hx, hlow, hhigh, hsets, hbefore⟩ := h
  have hvw := toInt_of_next? hw
  have hwh : w ≤ d.view.high x := by
    rw [Int32.le_iff_toInt_le]
    rw [Int32.lt_iff_toInt_lt] at hhigh
    omega
  have hlt : v < w := by
    rw [Int32.lt_iff_toInt_lt]
    omega
  refine ⟨?_, ?_, fun a ha => ?_, fun a b ha hb hna hmb => ?_⟩
  · refine effective_of_accepts hd hx
      (fix_le (v := v) (by rw [hlow]; exact Int32.le_refl _) (Int32.le_of_lt hhigh)) ?_ ?_
    · simp [View.Accepts, fix]
    · exact Int32.not_le.2 hhigh
  · refine effective_of_accepts hd hx (fix_le (v := w) (by rw [hlow]; exact Int32.le_of_lt hlt) hwh) ?_ ?_
    · simp [View.Accepts, fix]
    · show ¬ w ≤ d.view.low x
      rw [hlow]
      exact Int32.not_le.2 hlt
  · show a.int x ≤ v ∨ w ≤ a.int x
    simp only [Int32.le_iff_toInt_le]
    omega
  · refine .inr ⟨ha.sets_eq hb hd hsets, x, fun y hy => ha.int_eq hb hd (hbefore y hy), ?_⟩
    have h1 : a.int x ≤ v := hna
    have h2 : w ≤ b.int x := hmb
    grind

/-- A decision has two narrowings, which are its branches. -/
theorem exists_branches (hd : d.WellFormed) {dec : Decision} (h : d.decision? = some dec) :
    ∃ n m, dec.narrowing true = .ok n ∧ dec.narrowing false = .ok m ∧ d.Branches n m := by
  have hc := concerns_decision? hd h
  cases dec with
  | element s v => exact ⟨_, _, rfl, rfl, branches_element hd hc⟩
  | split x v =>
    cases hw : next? v with
    | none =>
      obtain rfl := (next?_eq_none_iff v).1 hw
      exact absurd hc.2.2.1 (Int32.not_lt.2 (Int32.le_maxValue _))
    | some w => exact ⟨_, _, rfl, by simp [Decision.narrowing, hw], branches_split hd hc hw⟩

/-- The assignments on one side of a decision are those within the narrowed domains. -/
theorem admits_narrow_iff (hd : d.WellFormed) {n : Narrowing} {e : Effect} (h : d.narrow n = .ok (some e)) :
    e.domains.Admits a ↔ d.Admits a ∧ a.view.Accepts n := by
  have heff := effective_of_narrow hd h
  have hsets : (∀ s, e.domains.Has (.set s) → (a.set s).Pairwise (· < ·)) ↔
      ∀ s, d.Has (.set s) → (a.set s).Pairwise (· < ·) :=
    forall_congr' fun s => by rw [has_congr heff.size_sets heff.size_ints]
  rw [admits_iff heff.wellFormed, admits_iff hd, hsets, heff.size_sets, heff.size_ints]
  constructor
  · rintro ⟨h1, h2, h3, h4⟩
    exact ⟨⟨h1, h2, h3, le_trans h4 heff.le⟩, heff.accepts.of_le h4⟩
  · rintro ⟨⟨h1, h2, h3, h4⟩, hacc⟩
    exact ⟨h1, h2, h3, heff.le_of_accepts _ h4 hacc⟩

/-! ### Leaves -/

/-- Without a decision one assignment is left, and it says what the domains say. -/
theorem exists_assignment (hd : d.WellFormed) (h : d.decision? = none) :
    ∃ a, d.assignment? = .ok a ∧ (∀ b, d.Admits b ↔ b = a) ∧ ∀ w, d.Has w → d.view.Agree a.view w := by
  have hdec := decided_of_decision? hd h
  have hall : (d.sets.toList.all SetDomain.isInstantiated && d.ints.toList.all IntDomain.isFixed) = true := by
    rw [Bool.and_eq_true, List.all_eq_true, List.all_eq_true]
    refine ⟨fun e he => ?_, fun e he => ?_⟩
    · obtain ⟨s, hs⟩ := Table.mem_toList_iff.1 he
      refine (SetDomain.isInstantiated_iff (hd s e hs)).2 fun v => ?_
      rw [← view_element_of_get? hs]
      exact hdec (.set s) (by simp [Has, hs]) v
    · obtain ⟨x, hx⟩ := Table.mem_toList_iff.1 he
      have : d.view.low x = d.view.high x := hdec (.int x) (by simp [Has, hx])
      rw [view_low_of_get? hx, view_high_of_get? hx] at this
      simpa [IntDomain.isFixed] using this
  have hadmits : d.Admits ⟨d.sets.toList.map SetDomain.kernel, d.ints.toList.map IntDomain.low⟩ :=
    { length_sets := by simp [Table.toList, Table.size]
      length_ints := by simp [Table.toList, Table.size]
      admits_set := fun s e he => by
        have hset :
            Assignment.set ⟨d.sets.toList.map SetDomain.kernel, d.ints.toList.map IntDomain.low⟩ s = e.kernel := by
          have he : d.sets.entries[s.number]? = some e := he
          simp [Assignment.set, Table.toList, he]
        rw [hset]
        exact ⟨SetDomain.pairwise_kernel (hd s e he), fun v hv => hv,
          fun v hv => SetDomain.mem_envelope_of_mem_kernel (hd s e he) hv⟩
      admits_int := fun x e he => by
        have hint :
            Assignment.int ⟨d.sets.toList.map SetDomain.kernel, d.ints.toList.map IntDomain.low⟩ x = e.low := by
          have he : d.ints.entries[x.number]? = some e := he
          simp [Assignment.int, Table.toList, he]
        rw [hint]
        exact ⟨Int32.le_refl _, e.low_le_high⟩ }
  refine ⟨_, by rw [assignment?, if_pos hall], fun b => ⟨fun hb => hb.eq_of_decided hadmits hd hdec, ?_⟩,
    fun w hw => ?_⟩
  · rintro rfl
    exact hadmits
  · have hle := ((admits_iff hd _).1 hadmits).2.2.2
    cases w with
    | set s => exact fun v => (View.element_of_le hle (hdec _ hw v)).symm
    | int x =>
      have hfix : d.view.low x = d.view.high x := hdec _ hw
      have h1 := hle.low x
      have h2 := hle.high x
      rw [← hfix] at h2
      have heq := Int32.le_antisymm h1 h2
      exact ⟨heq, hfix ▸ heq⟩

end Domains

end SetConstraints
