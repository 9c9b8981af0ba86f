import Mathlib.Data.Fintype.Card
import SetConstraints.Proofs.Backtracking
import SetConstraints.Proofs.Replay

/-!
# Set domains as pairs of sets

A well-formed domain represents its kernel and its envelope: both are increasing lists whose lengths are the sizes
that are kept, and the look-ups, the test for a single value and the largest element are about these lists
(`SetDomain.WellFormed.represents`).  Overwriting a membership neither leaves the range of machine words nor meets a
value that is not one of the domain's, as long as nothing but recorded values is given back
(`SetDomain.overwrite?_eq`, `Domains.takeBack?_eq`); what is recorded for going back always is of this kind
(`Store.Later.sound`).
-/

namespace SetConstraints

namespace SetDomain

variable {d e : SetDomain} {v : Int32} {m : Membership} {initial : List Int32}

/-! ### Kernel and envelope as lists -/

/-- A domain with the values of an initial envelope stands for its kernel and its envelope. -/
structure Represents (d : SetDomain) (initial : List Int32) : Prop where
  values_eq : d.values = sortValues initial
  increasing : d.values.Pairwise (· < ·)
  kernel_increasing : d.kernel.Pairwise (· < ·)
  envelope_increasing : d.envelope.Pairwise (· < ·)
  kernel_subset : d.kernel ⊆ d.envelope
  envelope_subset : d.envelope ⊆ initial
  requires_iff : ∀ v, d.requires v = true ↔ v ∈ d.kernel
  allows_iff : ∀ v, d.allows v = true ↔ v ∈ d.envelope
  kernelSize_eq : d.kernelSize = d.kernel.length
  envelopeSize_eq : d.envelopeSize = d.envelope.length
  isInstantiated_iff : d.isInstantiated = true ↔ d.kernel = d.envelope
  maxKernel?_eq_some_iff : ∀ v, d.maxKernel? = some v ↔ v ∈ d.kernel ∧ ∀ w ∈ d.kernel, w ≤ v

theorem length_valuesWith (d : SetDomain) (p : Membership → Bool) :
    (d.valuesWith p).length = d.elements.countP (p ·.membership) := by
  rw [valuesWith, List.length_map, ← List.countP_eq_length_filter, Array.countP_toList]

theorem WellFormed.kernelSize_eq_length (hd : d.WellFormed) : d.kernelSize = d.kernel.length := by
  rw [hd.kernelSize_eq, kernel, length_valuesWith]

theorem WellFormed.envelopeSize_eq_length (hd : d.WellFormed) : d.envelopeSize = d.envelope.length := by
  rw [hd.envelopeSize_eq, envelope, length_valuesWith]

theorem kernel_sublist_envelope (d : SetDomain) : d.kernel.Sublist d.envelope := by
  apply List.Sublist.map
  apply List.monotone_filter_right
  intro x hx
  have hx : x.membership = .required := by simpa using hx
  simp [hx]

theorem WellFormed.kernelSize_le (hd : d.WellFormed) : d.kernelSize ≤ d.envelopeSize := by
  rw [hd.kernelSize_eq_length, hd.envelopeSize_eq_length]
  exact d.kernel_sublist_envelope.length_le

theorem envelope_subset_values (d : SetDomain) : d.envelope ⊆ d.values := by
  intro v hv
  obtain ⟨x, hx, rfl⟩ := List.mem_map.1 hv
  exact List.mem_map.2 ⟨x, (List.mem_filter.1 hx).1, rfl⟩

theorem WellFormed.represents (hd : d.WellFormed) (hv : d.values = sortValues initial) : d.Represents initial where
  values_eq := hv
  increasing := by
    rw [hv]
    exact pairwise_sortValues initial
  kernel_increasing := pairwise_kernel hd
  envelope_increasing := pairwise_envelope hd
  kernel_subset := d.kernel_sublist_envelope.subset
  envelope_subset v hmem := by
    have hvalues := d.envelope_subset_values hmem
    rwa [hv, mem_sortValues] at hvalues
  requires_iff v := by rw [requires_iff, mem_kernel hd]
  allows_iff v := by rw [allows_iff, mem_envelope hd]
  kernelSize_eq := hd.kernelSize_eq_length
  envelopeSize_eq := hd.envelopeSize_eq_length
  isInstantiated_iff := by
    rw [isInstantiated, decide_eq_true_eq, hd.kernelSize_eq_length, hd.envelopeSize_eq_length]
    constructor
    · exact d.kernel_sublist_envelope.eq_of_length
    · intro heq
      rw [heq]
  maxKernel?_eq_some_iff v := by
    constructor
    · exact maxKernel?_eq_some hd
    · rintro ⟨hmem, hmax⟩
      cases h : d.maxKernel? with
      | none =>
        rw [maxKernel?_eq_none h] at hmem
        cases hmem
      | some w =>
        obtain ⟨hw, hle⟩ := maxKernel?_eq_some hd h
        rw [Int32.le_antisymm (hmax w hw) (hle v hmem)]

/-! ### Overwriting with checks -/

/-- The number of different machine words. -/
def wordCount : Nat := 2 ^ 64

/-- A size that changes from one contribution to another, unless a step on the way is no machine word. -/
def resize? (size before after : Nat) : Option Nat :=
  if size + after < wordCount ∧ before ≤ size + after then some (size + after - before) else none

/-- Replaces the membership of a value and adjusts both sizes, unless a size is no machine word on the way, or the
value is none of the domain's and is to be anything but excluded. -/
def overwrite? (d : SetDomain) (v : Int32) (m : Membership) : Option SetDomain :=
  match d.find v with
  | none => if m = .excluded then some d else none
  | some i => do
    let before := d.membership v
    let kernelSize ← resize? d.kernelSize before.kernelCount m.kernelCount
    let envelopeSize ← resize? d.envelopeSize before.envelopeCount m.envelopeCount
    return { d.assign i m with kernelSize, envelopeSize }

/-- Gives a value a membership back, unless overwriting fails or leaves a kernel larger than the envelope. -/
def restore? (d : SetDomain) (v : Int32) (m : Membership) : Option SetDomain := do
  let e ← d.overwrite? v m
  if e.kernelSize ≤ e.envelopeSize then return e else none

/-- The domain between two lists of values, unless a kernel value cannot be overwritten. -/
def ofLists? (kernel envelope : List Int32) : Option SetDomain :=
  kernel.foldlM (fun d v => d.overwrite? v .required)
    { elements := ((sortValues envelope).map (⟨·, .possible⟩)).toArray, kernelSize := 0,
      envelopeSize := (sortValues envelope).length }

/-- There are no more values than numbers of 32 bits. -/
theorem WellFormed.size_le (hd : d.WellFormed) : d.elements.size ≤ 2 ^ 32 := by
  have hnodup : d.values.Nodup := by
    have hincreasing : d.values.Pairwise (· < ·) := List.pairwise_map.2 hd.increasing
    exact hincreasing.imp fun hlt => Int32.ne_of_lt hlt
  have hinj : Function.Injective fun v : Int32 => v.toBitVec.toFin := by
    intro v w h
    exact Int32.toBitVec_inj.1 (BitVec.toFin_inj.1 h)
  have hle := (hnodup.map hinj).length_le_card
  rw [Fintype.card_fin] at hle
  simpa [values] using hle

theorem wellFormed_overwrite (hd : d.WellFormed) (v : Int32) (m : Membership) : (d.overwrite v m).WellFormed := by
  unfold overwrite
  split
  · exact hd
  · exact wellFormed_assign hd _ m

@[simp] theorem values_overwrite (d : SetDomain) (v : Int32) (m : Membership) :
    (d.overwrite v m).values = d.values := by
  unfold overwrite
  split
  · rfl
  · exact values_assign d _ m

private theorem resize?_eq {size before after : Nat} (hsize : size ≤ 2 ^ 32) (hafter : after ≤ 1)
    (hbefore : before ≤ size) : resize? size before after = some (size + after - before) := by
  unfold resize? wordCount
  rw [if_pos]
  constructor <;> omega

/-- What a value contributes to the sizes is part of them. -/
private theorem counts_le (hd : d.WellFormed) (v : Int32) :
    (d.membership v).kernelCount ≤ d.kernelSize ∧ (d.membership v).envelopeCount ≤ d.envelopeSize := by
  rw [hd.kernelSize_eq_length, hd.envelopeSize_eq_length]
  cases hm : d.membership v with
  | excluded => exact ⟨Nat.zero_le _, Nat.zero_le _⟩
  | possible =>
    refine ⟨Nat.zero_le _, List.length_pos_of_mem (a := v) ?_⟩
    rw [mem_envelope hd, hm]
    exact nofun
  | required =>
    have hv : v ∈ d.kernel := by rw [mem_kernel hd, hm]
    exact ⟨List.length_pos_of_mem hv, List.length_pos_of_mem (mem_envelope_of_mem_kernel hd hv)⟩

/-- The membership of a value of the domain can be overwritten. -/
theorem overwrite?_eq (hd : d.WellFormed) (hv : v ∈ d.values) (m : Membership) :
    d.overwrite? v m = some (d.overwrite v m) := by
  obtain ⟨i, hi⟩ := (mem_values_iff hd v).1 hv
  obtain ⟨hkernel, henvelope⟩ := counts_le hd v
  have hsizes : d.kernelSize ≤ 2 ^ 32 ∧ d.envelopeSize ≤ 2 ^ 32 := by
    rw [hd.kernelSize_eq, hd.envelopeSize_eq]
    exact ⟨Nat.le_trans Array.countP_le_size hd.size_le, Nat.le_trans Array.countP_le_size hd.size_le⟩
  have hcounts : m.kernelCount ≤ 1 ∧ m.envelopeCount ≤ 1 := by cases m <;> decide
  have hassign : { d.assign i m with
      kernelSize := d.kernelSize + m.kernelCount - (d.membership v).kernelCount
      envelopeSize := d.envelopeSize + m.envelopeCount - (d.membership v).envelopeCount } = d.assign i m := by
    rw [membership_of_find hi]
    rfl
  simp only [overwrite?, overwrite, hi, resize?_eq hsizes.1 hcounts.1 hkernel,
    resize?_eq hsizes.2 hcounts.2 henvelope]
  exact congrArg some hassign

theorem restore?_eq (hd : d.WellFormed) (hv : v ∈ d.values) (m : Membership) :
    d.restore? v m = some (d.overwrite v m) := by
  have hle := (wellFormed_overwrite hd v m).kernelSize_le
  simp [restore?, overwrite?_eq hd hv, hle]

private theorem mem_values_of_find {i : Fin d.elements.size} (hi : d.find v = some i) : v ∈ d.values :=
  List.mem_map.2 ⟨d.elements[i], by simp, value_of_find hi⟩

theorem mem_values_of_require (h : d.require v = .changed e) : v ∈ d.values := by
  unfold require at h
  cases hf : d.find v with
  | none => simp [hf] at h
  | some i => exact mem_values_of_find hf

theorem mem_values_of_exclude (h : d.exclude v = .changed e) : v ∈ d.values := by
  unfold exclude at h
  cases hf : d.find v with
  | none => simp [hf] at h
  | some i => exact mem_values_of_find hf

/-! ### New domains with checks -/

private theorem foldlM_require {kernel : List Int32} (hd : d.WellFormed) (h : ∀ v ∈ kernel, v ∈ d.values) :
    ∃ e, kernel.foldlM (fun d v =>
        match d.find v with
        | none => .error (.kernelOutsideEnvelope v)
        | some i => .ok (d.assign i .required)) d = (.ok e : Except Fault SetDomain) ∧
      kernel.foldlM (fun d v => d.overwrite? v .required) d = some e ∧ e.values = d.values := by
  induction kernel generalizing d with
  | nil => exact ⟨d, rfl, rfl, rfl⟩
  | cons v kernel ih =>
    have hv : v ∈ d.values := h v List.mem_cons_self
    obtain ⟨i, hi⟩ := (mem_values_iff hd v).1 hv
    have hassign : d.overwrite v .required = d.assign i .required := by
      simp only [overwrite, hi]
    obtain ⟨e, hplain, hchecked, hvalues⟩ := ih (wellFormed_assign hd i .required) fun w hw => by
      rw [values_assign]
      exact h w (List.mem_cons_of_mem v hw)
    refine ⟨e, ?_, ?_, hvalues.trans (values_assign d i .required)⟩
    · rw [List.foldlM_cons, hi]
      exact hplain
    · rw [List.foldlM_cons, overwrite?_eq hd hv, hassign]
      exact hchecked

/-- A kernel within the envelope is taken in value by value, without a check that fails. -/
theorem exists_ofLists {kernel envelope : List Int32} (h : kernel ⊆ envelope) :
    ∃ d, ofLists kernel envelope = .ok d ∧ ofLists? kernel envelope = some d ∧ d.values = sortValues envelope := by
  have hvalues : values ⟨((sortValues envelope).map (⟨·, .possible⟩)).toArray, 0, (sortValues envelope).length⟩ =
      sortValues envelope := by
    simp [values, Function.comp_def]
  have hmem : ∀ v ∈ kernel, v ∈ values ⟨((sortValues envelope).map (⟨·, .possible⟩)).toArray, 0,
      (sortValues envelope).length⟩ := by
    intro v hv
    rw [hvalues, mem_sortValues]
    exact h hv
  obtain ⟨d, hplain, hchecked, hsame⟩ := foldlM_require (wellFormed_free envelope) hmem
  exact ⟨d, hplain, hchecked, hsame.trans hvalues⟩

end SetDomain

namespace Domains

variable {d e f : Domains} {n : Narrowing} {u : Undo} {us : List Undo} {r : Effect}

/-! ### Going back with checks -/

/-- Takes a narrowing back, unless its variable is not there or giving the value back fails. -/
def takeBack? (d : Domains) : Undo → Option Domains
  | .release s v => do
    let e ← (← d.sets.get? s).restore? v .possible
    return { d with sets := d.sets.set s e }
  | .bounds x before => do
    let _ ← d.ints.get? x
    return { d with ints := d.ints.set x before }

/-- What is to be taken back is about a value of one of the sets, or about one of the integers. -/
def Knows (d : Domains) : Undo → Prop
  | .release s v => ∃ e, d.sets.get? s = some e ∧ v ∈ e.values
  | .bounds x _ => (d.ints.get? x).isSome

/-- The variables stay, and so do the values of the sets. -/
structure Keeps (d e : Domains) : Prop where
  sets : ∀ s b, d.sets.get? s = some b → ∃ c, e.sets.get? s = some c ∧ c.values = b.values
  ints : d.ints.size ≤ e.ints.size

theorem Keeps.refl (d : Domains) : d.Keeps d := ⟨fun _ b hb => ⟨b, hb, rfl⟩, Nat.le_refl _⟩

theorem Keeps.trans (h : d.Keeps e) (k : e.Keeps f) : d.Keeps f := by
  refine ⟨fun s b hb => ?_, Nat.le_trans h.ints k.ints⟩
  obtain ⟨c, hc, hcb⟩ := h.sets s b hb
  obtain ⟨c', hc', hcc⟩ := k.sets s c hc
  exact ⟨c', hc', hcc.trans hcb⟩

theorem Knows.of_keeps (hu : d.Knows u) (h : d.Keeps e) : e.Knows u := by
  cases u with
  | release s v =>
    obtain ⟨b, hb, hv⟩ := hu
    obtain ⟨c, hc, hcb⟩ := h.sets s b hb
    refine ⟨c, hc, ?_⟩
    rw [hcb]
    exact hv
  | bounds x before => exact Table.isSome_get?_iff.2 (Nat.lt_of_lt_of_le (Table.isSome_get?_iff.1 hu) h.ints)

theorem keeps_extend (d : Domains) (e : Domain) : d.Keeps (d.extend e) := by
  cases e with
  | set e =>
    refine ⟨fun s b hb => ⟨b, ?_, rfl⟩, Nat.le_refl _⟩
    exact (Table.get?_push_of_isSome (Option.isSome_iff_exists.2 ⟨b, hb⟩) e).trans hb
  | int e =>
    refine ⟨fun s b hb => ⟨b, hb, rfl⟩, ?_⟩
    show d.ints.size ≤ (d.ints.push e).size
    rw [Table.size_push]
    exact Nat.le_succ _

theorem Effective.keeps (h : d.Effective n r) : d.Keeps r.domains := by
  refine ⟨fun s b hb => ?_, Nat.le_of_eq h.size_ints.symm⟩
  have hvalues := h.values_eq s
  rw [hb, Option.map_some] at hvalues
  obtain ⟨c, hc, hcb⟩ := Option.map_eq_some_iff.1 hvalues
  exact ⟨c, hc, hcb⟩

/-- What an effective narrowing records can be taken back. -/
theorem knows_of_narrow (h : d.narrow n = .ok (some r)) : d.Knows r.undo := by
  cases narrows_of_narrow h with
  | require hb hb' => exact ⟨_, hb, SetDomain.mem_values_of_require hb'⟩
  | exclude hb hb' => exact ⟨_, hb, SetDomain.mem_values_of_exclude hb'⟩
  | atLeast hb hb' => exact Option.isSome_iff_exists.2 ⟨_, hb⟩
  | atMost hb hb' => exact Option.isSome_iff_exists.2 ⟨_, hb⟩

theorem wellFormed_takeBack (hd : d.WellFormed) (u : Undo) : (d.takeBack u).WellFormed := by
  cases u with
  | bounds x before => exact hd
  | release s v =>
    intro r f hf
    simp only [takeBack, Table.get?_modify] at hf
    split at hf
    · obtain ⟨b, hb, rfl⟩ := Option.map_eq_some_iff.1 hf
      exact SetDomain.wellFormed_overwrite (hd r b hb) v .possible
    · exact hd r f hf

theorem keeps_takeBack (d : Domains) (u : Undo) : d.Keeps (d.takeBack u) := by
  cases u with
  | bounds x before =>
    refine ⟨fun s b hb => ⟨b, hb, rfl⟩, ?_⟩
    show d.ints.size ≤ (d.ints.set x before).size
    rw [Table.size_set]
  | release s v =>
    refine ⟨fun r b hb => ?_, Nat.le_refl _⟩
    simp only [takeBack, Table.get?_modify, hb]
    by_cases hr : r = s
    · rw [if_pos hr]
      exact ⟨b.release v, rfl, SetDomain.values_overwrite b v .possible⟩
    · rw [if_neg hr]
      exact ⟨b, rfl, rfl⟩

/-- What is about known values is taken back without a check that fails. -/
theorem takeBack?_eq (hd : d.WellFormed) (hu : d.Knows u) : d.takeBack? u = some (d.takeBack u) := by
  cases u with
  | release s v =>
    obtain ⟨b, hb, hv⟩ := hu
    simp only [takeBack?, takeBack, Table.modify, hb, Option.bind_eq_bind, Option.bind_some,
      SetDomain.restore?_eq (hd s b hb) hv, SetDomain.release_eq_overwrite]
    rfl
  | bounds x before =>
    obtain ⟨b, hb⟩ := Option.isSome_iff_exists.1 hu
    simp only [takeBack?, takeBack, hb]
    rfl

theorem foldl_takeBack (hd : d.WellFormed) (us : List Undo) :
    (us.foldl takeBack d).WellFormed ∧ d.Keeps (us.foldl takeBack d) := by
  induction us generalizing d with
  | nil => exact ⟨hd, .refl d⟩
  | cons u us ih =>
    obtain ⟨hwell, hkeeps⟩ := ih (wellFormed_takeBack hd u)
    exact ⟨hwell, (keeps_takeBack d u).trans hkeeps⟩

theorem foldlM_takeBack? (hd : d.WellFormed) (hus : ∀ u ∈ us, d.Knows u) :
    us.foldlM takeBack? d = some (us.foldl takeBack d) := by
  induction us generalizing d with
  | nil => rfl
  | cons u us ih =>
    rw [List.foldlM_cons, takeBack?_eq hd (hus u List.mem_cons_self), List.foldl_cons]
    apply ih (wellFormed_takeBack hd u)
    intro w hw
    exact (hus w (List.mem_cons_of_mem u hw)).of_keeps (keeps_takeBack d u)

end Domains

namespace Store

variable {s t u : Store} {level : Nat}

/-- All sets are well formed, and all that is recorded can be taken back. -/
structure Sound (s : Store) : Prop where
  wellFormed : s.domains.WellFormed
  knows : ∀ u ∈ s.trail.entries, s.domains.Knows u

theorem sound_empty : Sound {} where
  wellFormed := Store.valid_empty.wellFormed
  knows u hu := by simp [Trail.entries] at hu

/-- A store that comes from another by what a solver does to its store. -/
inductive Later (s : Store) : Store → Prop
  | refl : Later s s
  | extend {t : Store} {e : Domain} (ht : Later s t) (he : e.WellFormed) : Later s (t.extend e)
  | narrow {t u : Store} {n : Narrowing} (ht : Later s t) (hn : t.narrow n = .ok u) : Later s u
  | deliver {t : Store} (ht : Later s t) : Later s { t with changes := #[] }
  | mark {t : Store} (ht : Later s t) : Later s t.mark
  | rewind {t : Store} {level : Nat} (ht : Later s t) (hl : level ≤ t.depth) : Later s (t.rewind level)

theorem Later.trans (h : s.Later t) (k : t.Later u) : s.Later u := by
  induction k with
  | refl => exact h
  | extend _ he ih => exact ih.extend he
  | narrow _ hn ih => exact ih.narrow hn
  | deliver _ ih => exact ih.deliver
  | mark _ ih => exact ih.mark
  | rewind _ hl ih => exact ih.rewind hl

theorem Steps.later {P : Narrowing → Prop} (h : s.Steps P t) : s.Later t := by
  induction h with
  | refl s => exact .refl
  | step _ hn _ ih => exact (Later.refl.narrow hn).trans ih

/-- Whatever is done to a store, the variables stay, with the values of the sets, and what is recorded can be taken
back. -/
theorem Later.sound (h : s.Later t) (hs : s.Sound) : t.Sound ∧ s.domains.Keeps t.domains := by
  induction h with
  | refl => exact ⟨hs, .refl _⟩
  | @extend t e _ he ih =>
    obtain ⟨ht, hkeeps⟩ := ih
    have hmore := t.domains.keeps_extend e
    exact ⟨⟨Domains.wellFormed_extend ht.wellFormed he, fun u hu => (ht.knows u hu).of_keeps hmore⟩,
      hkeeps.trans hmore⟩
  | @narrow t u n _ hn ih =>
    obtain ⟨ht, hkeeps⟩ := ih
    unfold Store.narrow at hn
    split at hn
    · cases hn
    · cases hn
      exact ⟨ht, hkeeps⟩
    · rename_i e he
      cases hn
      have heff := Domains.effective_of_narrow ht.wellFormed he
      refine ⟨⟨heff.wellFormed, fun u hu => ?_⟩, hkeeps.trans heff.keeps⟩
      rw [Trail.entries_push, List.mem_cons] at hu
      rcases hu with rfl | hu
      · exact (Domains.knows_of_narrow he).of_keeps heff.keeps
      · exact (ht.knows u hu).of_keeps heff.keeps
  | deliver _ ih => exact ⟨⟨ih.1.wellFormed, ih.1.knows⟩, ih.2⟩
  | @mark t _ ih =>
    refine ⟨⟨ih.1.wellFormed, fun u hu => ih.1.knows u ?_⟩, ih.2⟩
    rwa [Store.mark, Trail.entries_mark] at hu
  | @rewind t level _ _ ih =>
    obtain ⟨ht, hkeeps⟩ := ih
    obtain ⟨hwell, hback⟩ := Domains.foldl_takeBack ht.wellFormed (t.trail.rewind level).1
    refine ⟨⟨hwell, fun u hu => (ht.knows u ?_).of_keeps hback⟩, hkeeps.trans hback⟩
    rw [← Trail.entries_rewind t.trail level]
    exact List.mem_append_right _ hu

/-- Going back passes all checks. -/
theorem Sound.takeBack?_eq (h : s.Sound) (level : Nat) :
    (s.trail.rewind level).1.foldlM Domains.takeBack? s.domains = some (s.rewind level).domains := by
  apply Domains.foldlM_takeBack? h.wellFormed
  intro u hu
  apply h.knows
  rw [← Trail.entries_rewind s.trail level]
  exact List.mem_append_left _ hu

end Store

namespace Solver

variable {s s₀ t u : Solver} {o : Options} {x : Occurrence} {xs : List Occurrence}

/-! ### What a solver does to its store -/

theorem Step.later (hx : Step s x t) (h : s.Linked) : s.store.Later t.store := by
  cases hx with
  | created hd => exact Store.Later.refl.extend hd
  | narrowed hn => exact Store.Later.refl.narrow hn
  | opened => exact Store.Later.refl.mark
  | wentBack hl =>
    rw [h.store_returnTo hl]
    exact Store.Later.refl.rewind hl
  | added | taken | rested | noted => exact .refl
  | delivered =>
    rw [store_notify]
    exact Store.Later.refl.deliver
  | scratch => exact (Action.steps_run (Action.only_true _) s.store false).later
  | handed => exact (Action.steps_run (Action.only_true _) s.store false).later
  | gaveUp p e =>
    rw [giveUp_eq]
    exact Store.Later.refl.deliver

theorem Path.later (hxs : Path s xs t) (h : s.Linked) : s.store.Later t.store := by
  induction hxs with
  | nil => exact .refl
  | cons hx _ ih => exact (hx.later h).trans (ih (h.step hx))

/-- A new set variable is created without a check that fails.  Whatever the solver does with its store from then on,
its operations included, the domain of the variable has the values of the initial envelope and stands for a kernel and
an envelope, and every further narrowing of it, and going back to any level, passes all checks. -/
theorem represented_throughout {before : List Operation} {kernel envelope : List Int32} (h₀ : new? o = .ok s₀)
    (hs : s₀.performAll before = .ok s) (hsub : kernel ⊆ envelope) :
    ∃ x d t, SetDomain.ofLists? kernel envelope = some d ∧ s.newSet kernel envelope = ⟨.ok x, t⟩ ∧
      t.store.domains.sets.get? x = some d ∧
      (∀ after u, t.performAll after = .ok u → ∃ xs, Path t xs u) ∧
      (∀ xs u, Path t xs u → t.store.Later u.store) ∧
      ∀ w, t.store.Later w → ∃ e, w.domains.sets.get? x = some e ∧ e.Represents envelope ∧
        (∀ v f, e.require v = .changed f → e.overwrite? v .required = some f) ∧
        (∀ v f, e.exclude v = .changed f → e.overwrite? v .excluded = some f) ∧
        ∀ level, (w.trail.rewind level).1.foldlM Domains.takeBack? w.domains = some (w.rewind level).domains := by
  have hlinked := (linked_new h₀).performAll hs
  obtain ⟨xs, hxs⟩ := exists_path_performAll (linked_new h₀) hs
  obtain ⟨d, hplain, hchecked, hvalues⟩ := SetDomain.exists_ofLists hsub
  have hwell : Domain.WellFormed (.set d) := SetDomain.wellFormed_ofLists hplain
  have hcreated : Step s (.created (.set d)) (s.extend (.set d)) := .created hwell
  have hlinked' := hlinked.step hcreated
  have hempty : s₀.store = {} := by
    unfold new? at h₀
    split at h₀
    · cases h₀
    · cases h₀
      rfl
  have hsound : (s.extend (.set d)).store.Sound := by
    have hlater := (hxs.later (linked_new h₀)).trans (hcreated.later hlinked)
    rw [hempty] at hlater
    exact (hlater.sound Store.sound_empty).1
  have hget : (s.extend (.set d)).store.domains.sets.get? s.store.domains.sets.nextKey = some d :=
    (Table.get?_push_eq _ _ _).trans (if_pos rfl)
  refine ⟨s.store.domains.sets.nextKey, d, s.extend (.set d), hchecked, ?_, hget, ?_, ?_, ?_⟩
  · rw [newSet, hplain]
    rfl
  · intro after u hafter
    exact exists_path_performAll hlinked' hafter
  · intro xs u hpath
    exact hpath.later hlinked'
  · intro w hw
    obtain ⟨hsound, hkeeps⟩ := hw.sound hsound
    obtain ⟨e, he, hsame⟩ := hkeeps.sets _ d hget
    have hwell := hsound.wellFormed _ e he
    refine ⟨e, he, hwell.represents (hsame.trans hvalues), fun v f hf => ?_, fun v f hf => ?_, hsound.takeBack?_eq⟩
    · rw [SetDomain.overwrite?_eq hwell (SetDomain.mem_values_of_require hf), SetDomain.overwrite_of_require hf]
    · rw [SetDomain.overwrite?_eq hwell (SetDomain.mem_values_of_exclude hf), SetDomain.overwrite_of_exclude hf]

/-- Values far apart, out of order and repeated. -/
private def scattered : List Int32 := [9, 5, -3, 5, Int32.maxValue, Int32.minValue, 9]

/-- Two levels of narrowings, of which one fails, and the way back to the first of them. -/
private def wandering : List Operation :=
  [.mark, .narrow (.require ⟨1⟩ 9), .narrow (.exclude ⟨1⟩ (-3)), .mark, .narrow (.exclude ⟨1⟩ Int32.maxValue),
    .narrow (.require ⟨1⟩ (-3)), .narrow (.exclude ⟨0⟩ 1), .newInt 0 3, .backtrack 2]

theorem represented_throughout_sample :
    let blank : Solver := { options := {}, queue := .new Priority.count }
    ∃ s t u e, blank.performAll [.newSet [] [1], .mark] = .ok s ∧ [5, 5] ⊆ scattered ∧
      s.newSet [5, 5] scattered = ⟨.ok ⟨1⟩, t⟩ ∧ t.performAll wandering = .ok u ∧
      u.store.domains.sets.get? ⟨1⟩ = some e ∧ e.Represents scattered ∧ e.kernel = [5, 9] ∧
      e.envelope = [Int32.minValue, 5, 9, Int32.maxValue] := by
  intro blank
  have hs : blank.performAll [.newSet [] [1], .mark] = .ok (blank.past [.newSet [] [1], .mark]) :=
    performAll_eq (by decide +kernel)
  have hsub : [5, 5] ⊆ scattered := by decide
  obtain ⟨x, d, t, -, hnew, -, hpaths, hlater, hall⟩ := represented_throughout (o := {}) rfl hs hsub
  have hresult : ((blank.past [.newSet [] [1], .mark]).newSet [5, 5] scattered).result = .ok ⟨1⟩ := by decide +kernel
  have hsolver : t = ((blank.past [.newSet [] [1], .mark]).newSet [5, 5] scattered).solver := by rw [hnew]
  rw [hnew] at hresult
  obtain rfl : x = ⟨1⟩ := Except.ok.inj hresult
  have hu : t.performAll wandering = .ok (t.past wandering) := by
    apply performAll_eq
    rw [hsolver]
    decide +kernel
  obtain ⟨xs, hxs⟩ := hpaths wandering _ hu
  obtain ⟨e, he, hrepresents, -⟩ := hall _ (hlater xs _ hxs)
  have hlists : ((t.past wandering).store.domains.sets.get? ⟨1⟩).map (fun e => (e.kernel, e.envelope)) =
      some ([5, 9], [Int32.minValue, 5, 9, Int32.maxValue]) := by
    rw [hsolver]
    decide +kernel
  rw [he, Option.map_some, Option.some.injEq, Prod.mk.injEq] at hlists
  exact ⟨_, t, _, e, hs, hsub, hnew, hu, he, hrepresents, hlists.1, hlists.2⟩

end Solver

end SetConstraints
