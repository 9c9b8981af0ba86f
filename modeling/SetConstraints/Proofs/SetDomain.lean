import Mathlib.Data.List.Sort
import SetConstraints.SetDomain

/-!
# What set domains represent

A domain is well formed if its values increase and its sizes count what they should.  Such a domain is determined
by its values and by the membership of each of them (`ext_membership`): kernel and envelope are the values known
to be in and the values not known to be out (`mem_kernel`, `mem_envelope`), and each narrowing moves one possible
value to one side (`decided_require`, `decided_exclude`), from which releasing it brings it back.
-/

namespace SetConstraints

namespace SetDomain

/-- The values of the initial envelope. -/
def values (d : SetDomain) : List Int32 := d.elements.toList.map Element.value

/-- The values increase, and the sizes are those of kernel and envelope. -/
structure WellFormed (d : SetDomain) : Prop where
  increasing : d.elements.toList.Pairwise (·.value < ·.value)
  kernelSize_eq : d.kernelSize = d.elements.countP (·.membership = .required)
  envelopeSize_eq : d.envelopeSize = d.elements.countP (·.membership ≠ .excluded)

variable {d e : SetDomain}

/-! ### Looking up a value -/

private theorem value_lt_value {a : Array Element} (ha : a.toList.Pairwise (·.value < ·.value)) {i j : Fin a.size}
    (h : i < j) : a[i].value < a[j].value := by
  have := List.pairwise_iff_getElem.1 ha i j (by simp) (by simp) h
  rwa [Array.getElem_toList, Array.getElem_toList] at this

private theorem value_findBetween {a : Array Element} {v : Int32} {lo hi : Nat} {h : hi ≤ a.size} {i : Fin a.size}
    (hf : findBetween a v lo hi h = some i) : a[i].value = v := by
  fun_induction findBetween a v lo hi h with
  | case1 lo hi h hlt mid hv => exact Option.some.inj hf ▸ hv
  | case2 lo hi h hlt mid hne hv ih => exact ih hf
  | case3 lo hi h hlt mid hne hv ih => exact ih hf
  | case4 => cases hf

private theorem value_ne_of_findBetween {a : Array Element} {v : Int32} {lo hi : Nat} {h : hi ≤ a.size}
    (ha : a.toList.Pairwise (·.value < ·.value)) (hn : findBetween a v lo hi h = none) (j : Fin a.size)
    (hlo : lo ≤ j) (hhi : j < hi) : a[j].value ≠ v := by
  fun_induction findBetween a v lo hi h with
  | case1 => cases hn
  | case2 lo hi h hl mid hne hv ih =>
    rcases lt_trichotomy j mid with hj | rfl | hj
    · have := value_lt_value ha hj
      grind
    · exact hne
    · exact ih hn hj hhi
  | case3 lo hi h hl mid hne hv ih =>
    rcases lt_trichotomy j mid with hj | rfl | hj
    · exact ih hn hlo hj
    · exact hne
    · intro he
      exact hv (he ▸ value_lt_value ha hj)
  | case4 => omega

theorem value_of_find {v : Int32} {i : Nat} {hi : i < d.elements.size} (h : d.find v = some ⟨i, hi⟩) :
    d.elements[i].value = v :=
  value_findBetween h

theorem find_value (hd : d.WellFormed) {i : Nat} (hi : i < d.elements.size) :
    d.find d.elements[i].value = some ⟨i, hi⟩ := by
  cases h : d.find d.elements[i].value with
  | none => exact absurd rfl (value_ne_of_findBetween hd.increasing h ⟨i, hi⟩ (Nat.zero_le _) hi)
  | some j =>
    have hj := value_of_find h
    rcases lt_trichotomy ⟨i, hi⟩ j with hij | rfl | hij
    · have := value_lt_value hd.increasing hij
      grind
    · rfl
    · have := value_lt_value hd.increasing hij
      grind

theorem mem_values_iff (hd : d.WellFormed) (v : Int32) : v ∈ d.values ↔ ∃ i, d.find v = some i := by
  constructor
  · intro h
    obtain ⟨x, hx, rfl⟩ := List.mem_map.1 h
    obtain ⟨i, hi, rfl⟩ := List.mem_iff_getElem.1 hx
    exact ⟨⟨i, by simpa using hi⟩, find_value hd (by simpa using hi)⟩
  · rintro ⟨i, hi⟩
    exact List.mem_map.2 ⟨d.elements[i], by simp, value_of_find hi⟩

theorem membership_value (hd : d.WellFormed) {i : Nat} (hi : i < d.elements.size) :
    d.membership d.elements[i].value = d.elements[i].membership := by
  rw [membership, find_value hd hi]
  rfl

theorem membership_of_find {v : Int32} {i : Nat} {hi : i < d.elements.size} (h : d.find v = some ⟨i, hi⟩) :
    d.membership v = d.elements[i].membership := by
  simp [membership, h]

theorem membership_of_find_none {v : Int32} (h : d.find v = none) : d.membership v = .excluded := by
  simp [membership, h]

/-! ### Kernel and envelope -/

private theorem mem_valuesWith (hd : d.WellFormed) {p : Membership → Bool} (hp : p .excluded = false) (v : Int32) :
    v ∈ d.valuesWith p ↔ p (d.membership v) = true := by
  simp only [valuesWith, List.mem_map, List.mem_filter]
  constructor
  · rintro ⟨x, ⟨hx, hpx⟩, rfl⟩
    obtain ⟨i, hi, rfl⟩ := List.mem_iff_getElem.1 hx
    have := membership_value hd (by simpa using hi)
    simp_all
  · intro h
    cases hf : d.find v with
    | none => rw [membership_of_find_none hf, hp] at h; cases h
    | some i =>
      rw [membership_of_find hf] at h
      exact ⟨d.elements[i], ⟨by simp, h⟩, value_of_find hf⟩

theorem mem_kernel (hd : d.WellFormed) (v : Int32) : v ∈ d.kernel ↔ d.membership v = .required := by
  simp [kernel, mem_valuesWith hd]

theorem mem_envelope (hd : d.WellFormed) (v : Int32) : v ∈ d.envelope ↔ d.membership v ≠ .excluded := by
  simp [envelope, mem_valuesWith hd]

theorem mem_envelope_of_mem_kernel (hd : d.WellFormed) {v : Int32} (hv : v ∈ d.kernel) : v ∈ d.envelope := by
  rw [mem_kernel hd] at hv
  rw [mem_envelope hd, hv]
  decide

private theorem pairwise_valuesWith (hd : d.WellFormed) (p : Membership → Bool) :
    (d.valuesWith p).Pairwise (· < ·) :=
  List.pairwise_map.2 (hd.increasing.filter _)

theorem pairwise_kernel (hd : d.WellFormed) : d.kernel.Pairwise (· < ·) := pairwise_valuesWith hd _

theorem pairwise_envelope (hd : d.WellFormed) : d.envelope.Pairwise (· < ·) := pairwise_valuesWith hd _

/-- The last element of an increasing list is the largest. -/
theorem maxKernel?_eq_some (hd : d.WellFormed) {v : Int32} (h : d.maxKernel? = some v) :
    v ∈ d.kernel ∧ ∀ w ∈ d.kernel, w ≤ v := by
  obtain ⟨l, hl⟩ := List.getLast?_eq_some_iff.1 h
  have hp := pairwise_kernel hd
  rw [hl, List.pairwise_append] at hp
  refine ⟨by simp [hl], fun w hw => ?_⟩
  rw [hl, List.mem_append] at hw
  rcases hw with hw | hw
  · exact Int32.le_of_lt (hp.2.2 w hw v (by simp))
  · rw [List.mem_singleton.1 hw]
    exact Int32.le_refl v

theorem maxKernel?_eq_none (h : d.maxKernel? = none) : d.kernel = [] := List.getLast?_eq_none_iff.1 h

/-- What is left of an increasing list from the first value that is not below a bound. -/
theorem mem_dropWhile_lt {l : List Int32} (hl : l.Pairwise (· < ·)) (b v : Int32) :
    v ∈ l.dropWhile (· < b) ↔ v ∈ l ∧ b ≤ v := by
  induction l with
  | nil => simp
  | cons a l ih =>
    rw [List.pairwise_cons] at hl
    have := hl.1 v
    rw [List.dropWhile_cons]
    split
    · rw [ih hl.2]
      grind
    · grind

/-- No value is undecided exactly if kernel and envelope have the same size. -/
theorem isInstantiated_iff (hd : d.WellFormed) : d.isInstantiated = true ↔ ∀ v, d.membership v ≠ .possible := by
  have hsum : d.elements.countP (·.membership ≠ .excluded) =
      d.elements.countP (·.membership = .required) + d.undecided := by
    obtain ⟨⟨l⟩, k, n⟩ := d
    simp only [undecided, List.countP_toArray]
    clear hd
    induction l with
    | nil => rfl
    | cons x l ih =>
      simp only [List.countP_cons]
      rw [ih]
      cases x.membership <;> simp <;> omega
  have hzero : d.isInstantiated = true ↔ d.undecided = 0 := by
    simp only [isInstantiated, decide_eq_true_eq, hd.kernelSize_eq, hd.envelopeSize_eq, hsum]
    omega
  rw [hzero, undecided, Array.countP_eq_zero]
  constructor
  · intro h v hv
    cases hf : d.find v with
    | none => rw [membership_of_find_none hf] at hv; cases hv
    | some i =>
      rw [membership_of_find hf] at hv
      exact h d.elements[i] (by simp) (by simpa using hv)
  · intro h x hx
    obtain ⟨i, hi, rfl⟩ := Array.mem_iff_getElem.1 hx
    have := membership_value hd hi ▸ h _
    simpa using this

/-- A well-formed domain is determined by its values and their membership. -/
theorem ext_membership (hd : d.WellFormed) (he : e.WellFormed) (hv : d.values = e.values)
    (hm : ∀ v, d.membership v = e.membership v) : d = e := by
  have hel : d.elements = e.elements := by
    apply Array.ext
    · simpa [values] using congrArg List.length hv
    · intro i hi hj
      have hval : d.elements[i].value = e.elements[i].value := by
        have := congrArg (·[i]?) hv
        simpa [values, hi, hj] using this
      have h1 := membership_value hd hi
      have h2 := membership_value he hj
      have hmem : d.elements[i].membership = e.elements[i].membership := by
        rw [hm] at h1
        exact h1.symm.trans ((congrArg e.membership hval).trans h2)
      generalize d.elements[i] = x at *
      generalize e.elements[i] = y at *
      cases x; cases y
      simp_all
  obtain ⟨de, dk, dn⟩ := d
  obtain ⟨ee, ek, en⟩ := e
  simp only at hel
  subst hel
  have h1 := hd.kernelSize_eq.trans he.kernelSize_eq.symm
  have h2 := hd.envelopeSize_eq.trans he.envelopeSize_eq.symm
  simp only at h1 h2
  rw [h1, h2]

/-! ### Changing a membership -/

variable {m : Membership} {v w : Int32}

@[simp] theorem values_assign (d : SetDomain) (i : Fin d.elements.size) (m : Membership) :
    (d.assign i m).values = d.values := by
  apply List.ext_getElem
  · simp [values, assign]
  · intro j hj hj'
    simp only [values, assign, List.getElem_map, Array.toList_set, List.getElem_set]
    split
    · rename_i h
      simp [← h]
    · rfl

private theorem increasing_iff (d : SetDomain) :
    d.elements.toList.Pairwise (·.value < ·.value) ↔ d.values.Pairwise (· < ·) :=
  List.pairwise_map.symm

/-- The sizes follow the membership that replaces another. -/
private theorem countP_assign {p : Membership → Bool} (d : SetDomain) {i : Nat} (hi : i < d.elements.size)
    (m : Membership) :
    (d.assign ⟨i, hi⟩ m).elements.countP (p ·.membership) + (p d.elements[i].membership).toNat =
      d.elements.countP (p ·.membership) + (p m).toNat := by
  have hpos : p d.elements[i].membership = true → 0 < d.elements.countP (p ·.membership) := fun h =>
    Array.countP_pos_iff.2 ⟨d.elements[i], by simp, h⟩
  simp only [assign, Array.countP_set, Fin.getElem_fin] at hpos ⊢
  generalize p d.elements[i].membership = b at *
  generalize d.elements.countP (p ·.membership) = n at *
  cases b <;> cases p m <;> simp only [Bool.toNat_true, Bool.toNat_false, if_true, Bool.false_eq_true, if_false] <;>
    have := hpos <;> simp at this <;> omega

theorem wellFormed_assign (hd : d.WellFormed) (i : Fin d.elements.size) (m : Membership) :
    (d.assign i m).WellFormed where
  increasing := by
    rw [increasing_iff, values_assign, ← increasing_iff]
    exact hd.increasing
  kernelSize_eq := by
    have h := countP_assign (p := (· = .required)) d i.isLt m
    have hk := hd.kernelSize_eq
    simp only [assign, Fin.getElem_fin] at h ⊢
    generalize d.elements[i.val].membership = b at *
    cases b <;> cases m <;> simp [Membership.kernelCount] at h ⊢ <;> omega
  envelopeSize_eq := by
    have h := countP_assign (p := (· ≠ .excluded)) d i.isLt m
    have hk := hd.envelopeSize_eq
    simp only [assign, Fin.getElem_fin] at h ⊢
    generalize d.elements[i.val].membership = b at *
    cases b <;> cases m <;> simp [Membership.envelopeCount] at h hk ⊢ <;> omega

/-- Replacing the membership of one value leaves that of the others. -/
theorem membership_assign (hd : d.WellFormed) {i : Fin d.elements.size} (hi : d.find v = some i) (m : Membership) :
    (d.assign i m).membership w = if w = v then m else d.membership w := by
  have hw := wellFormed_assign hd i m
  have hsize : (d.assign i m).elements.size = d.elements.size := by simp [assign]
  have hvalue : ∀ (j : Nat) (hj : j < d.elements.size),
      (d.assign i m).elements[j].value = d.elements[j].value := fun j hj => by
    have := congrArg (·[j]?) (values_assign d i m)
    simpa [values, hj, hsize] using this
  have hmember : ∀ (j : Nat) (hj : j < d.elements.size),
      (d.assign i m).elements[j].membership = if j = i then m else d.elements[j].membership := fun j hj => by
    simp only [assign, Array.getElem_set]
    split <;> simp_all [eq_comm]
  cases hf : d.find w with
  | some j =>
    have hmem := membership_value hw (by rw [hsize]; exact j.isLt)
    simp only [hvalue j j.isLt, hmember j j.isLt] at hmem
    have hwj := value_of_find hf
    have hvi := value_of_find hi
    rw [hwj] at hmem
    rw [hmem, membership_of_find hf]
    by_cases hj : j = i
    · have : w = v := by rw [← hwj, ← hvi, hj]
      simp [hj, this]
    · have : w ≠ v := fun he => hj (Option.some.inj (hf.symm.trans (he ▸ hi)))
      simp [this, Fin.val_inj, hj]
  | none =>
    have hwv : w ≠ v := by
      rintro rfl
      rw [hf] at hi
      cases hi
    rw [if_neg hwv, membership_of_find_none hf]
    cases hf' : (d.assign i m).find w with
    | none => exact membership_of_find_none hf'
    | some j =>
      have hmem : w ∈ (d.assign i m).values := (mem_values_iff hw w).2 ⟨j, hf'⟩
      rw [values_assign, mem_values_iff hd, hf] at hmem
      obtain ⟨k, hk⟩ := hmem
      cases hk

/-- What assigning a possible value does, and how releasing it takes that back. -/
structure Moved (d : SetDomain) (v : Int32) (m : Membership) (e : SetDomain) : Prop where
  wellFormed : e.WellFormed
  values_eq : e.values = d.values
  membership_eq : ∀ w, e.membership w = if w = v then m else d.membership w
  release_eq : e.release v = d

private theorem moved_assign (hd : d.WellFormed) {i : Fin d.elements.size} (hi : d.find v = some i)
    (hp : d.membership v = .possible) (m : Membership) : d.Moved v m (d.assign i m) where
  wellFormed := wellFormed_assign hd i m
  values_eq := values_assign d i m
  membership_eq w := membership_assign hd hi m
  release_eq := by
    have hw := wellFormed_assign hd i m
    cases hf : (d.assign i m).find v with
    | none =>
      have hmem : v ∈ (d.assign i m).values := by
        rw [values_assign]
        exact (mem_values_iff hd v).2 ⟨i, hi⟩
      obtain ⟨j, hj⟩ := (mem_values_iff hw v).1 hmem
      rw [hf] at hj
      cases hj
    | some j =>
      simp only [release, hf]
      apply ext_membership (wellFormed_assign hw j .possible) hd (by simp)
      intro w
      rw [membership_assign hw hf, membership_assign hd hi]
      split
      · rename_i h
        rw [h, hp]
      · rfl

/-- The ways to decide that `m` is the membership of `v`: it may be so already, be still possible, or be otherwise. -/
inductive Decided (d : SetDomain) (v : Int32) (m : Membership) : Narrowed SetDomain → Prop
  | unchanged (hm : d.membership v = m) : Decided d v m .unchanged
  | changed {e : SetDomain} (hp : d.membership v = .possible) (he : d.Moved v m e) : Decided d v m (.changed e)
  | emptied (hp : d.membership v ≠ .possible) (hm : d.membership v ≠ m) : Decided d v m .emptied

theorem decided_require (hd : d.WellFormed) (v : Int32) : d.Decided v .required (d.require v) := by
  unfold require
  split
  · rename_i hf
    have hm := membership_of_find_none hf
    exact .emptied (by simp [hm]) (by simp [hm])
  · rename_i i hf
    have hfind := membership_of_find hf
    split
    · rename_i hm
      exact .unchanged (hfind.trans hm)
    · rename_i hm
      exact .changed (hfind.trans hm) (moved_assign hd hf (hfind.trans hm) _)
    · rename_i hm
      have hm := hfind.trans hm
      exact .emptied (by simp [hm]) (by simp [hm])

theorem decided_exclude (hd : d.WellFormed) (v : Int32) : d.Decided v .excluded (d.exclude v) := by
  unfold exclude
  split
  · rename_i hf
    exact .unchanged (membership_of_find_none hf)
  · rename_i i hf
    have hfind := membership_of_find hf
    split
    · rename_i hm
      exact .unchanged (hfind.trans hm)
    · rename_i hm
      exact .changed (hfind.trans hm) (moved_assign hd hf (hfind.trans hm) _)
    · rename_i hm
      have hm := hfind.trans hm
      exact .emptied (by simp [hm]) (by simp [hm])

/-! ### Overwriting a membership -/

/-- Replaces the membership of a value, if it is one of the domain's. -/
def overwrite (d : SetDomain) (v : Int32) (m : Membership) : SetDomain :=
  match d.find v with
  | none => d
  | some i => d.assign i m

/-- Making a value undecided again overwrites its membership. -/
theorem release_eq_overwrite (d : SetDomain) (v : Int32) : d.release v = d.overwrite v .possible := rfl

theorem overwrite_of_require {v : Int32} (h : d.require v = .changed e) : d.overwrite v .required = e := by
  unfold require at h
  unfold overwrite
  cases hf : d.find v with
  | none => simp [hf] at h
  | some i =>
    simp only [hf] at h
    split at h <;> cases h
    rfl

theorem overwrite_of_exclude {v : Int32} (h : d.exclude v = .changed e) : d.overwrite v .excluded = e := by
  unfold exclude at h
  unfold overwrite
  cases hf : d.find v with
  | none => simp [hf] at h
  | some i =>
    simp only [hf] at h
    split at h <;> cases h
    rfl

/-! ### New domains -/

theorem wellFormed_free (l : List Int32) :
    WellFormed ⟨((sortValues l).map (⟨·, .possible⟩)).toArray, 0, (sortValues l).length⟩ where
  increasing := by simpa [List.pairwise_map] using pairwise_sortValues l
  kernelSize_eq := by
    symm
    simp only [List.countP_toArray, List.countP_map, List.countP_eq_zero]
    simp
  envelopeSize_eq := by
    symm
    simp only [List.countP_toArray, List.countP_map, List.countP_eq_length]
    simp

private theorem wellFormed_foldlM {f : SetDomain → Int32 → Except Fault SetDomain}
    (hf : ∀ b v e, b.WellFormed → f b v = .ok e → e.WellFormed) (l : List Int32) {b : SetDomain} (hb : b.WellFormed)
    (h : l.foldlM f b = .ok d) : d.WellFormed := by
  induction l generalizing b with
  | nil =>
    cases h
    exact hb
  | cons v l ih =>
    rw [List.foldlM_cons] at h
    cases hv : f b v with
    | error e => rw [hv] at h; cases h
    | ok e =>
      rw [hv] at h
      exact ih (hf b v e hb hv) h

theorem wellFormed_ofLists {kernel envelope : List Int32} (h : ofLists kernel envelope = .ok d) :
    d.WellFormed := by
  refine wellFormed_foldlM (fun b v e hb he => ?_) kernel (wellFormed_free envelope) h
  split at he
  · cases he
  · cases he
    exact wellFormed_assign hb _ _

end SetDomain

end SetConstraints
