import SetConstraints.Constraint.StrictBound
import SetConstraints.Proofs.Assignment
import SetConstraints.Proofs.News

/-!
# The rules for a strict bound above a set

Certain elements are smaller than the smallest bound, and possible ones smaller than the largest.  The first can
only be disturbed by a new element of the kernel and the second by a smaller largest bound, which is what the
propagator listens for.  It asks for rest only where every possible element is smaller than the smallest bound
(`StrictBound.Inert`), and there nothing can disturb it any more.
-/

namespace SetConstraints

instance lawfulOrderMaxInt32 : Std.LawfulOrderMax Int32 where
  max_eq_or a b := by
    show (if a ≤ b then b else a) = a ∨ (if a ≤ b then b else a) = b
    grind
  max_le_iff a b c := by
    show (if a ≤ b then b else a) ≤ c ↔ a ≤ c ∧ b ≤ c
    grind

theorem next?_le_iff {v w x : Int32} (h : next? v = some w) : w ≤ x ↔ v < x := by
  have := toInt_of_next? h
  rw [Int32.le_iff_toInt_le, Int32.lt_iff_toInt_lt]
  omega

theorem not_lt_of_next?_eq_none {v x : Int32} (h : next? v = none) : ¬ v < x := by
  rw [(next?_eq_none_iff v).1 h]
  exact Int32.not_lt.2 (Int32.le_maxValue x)

theorem Delta.mem_values {d : Delta} {e : Event} {v : Int32} : v ∈ d.values e ↔ (e, v) ∈ d.entries := by
  simp only [values, List.mem_map, List.mem_filter, decide_eq_true_eq]
  constructor
  · rintro ⟨⟨f, w⟩, ⟨h, rfl⟩, rfl⟩
    exact h
  · exact fun h => ⟨(e, v), ⟨h, rfl⟩, rfl⟩

namespace StrictBound

/-- Neither rule has an effect. -/
structure Stable (c : StrictBound) (V : View) : Prop where
  lt_low : ∀ v, V.element c.set v = .required → v < V.low c.bound
  lt_high : ∀ v, V.element c.set v ≠ .excluded → v < V.high c.bound

/-- A certain element that is not below the smallest bound is in the news, and so is some change of the largest
bound if a possible element is not below it. -/
structure Settled (c : StrictBound) (V : View) (news : News) : Prop where
  lt_low : ∀ v, V.element c.set v = .required → v < V.low c.bound ∨ news setSlot .kernelGrew v
  lt_high : (∀ v, V.element c.set v ≠ .excluded → v < V.high c.bound) ∨ ∃ e v, news boundSlot e v

/-- Whatever the set and the bound will be, the constraint holds. -/
def Inert (c : StrictBound) (V : View) : Prop := ∀ v, V.element c.set v ≠ .excluded → v < V.low c.bound

/-- The variables of the constraint. -/
def operands (c : StrictBound) : List Var := [.set c.set, .int c.bound]

/-- The operands exist. -/
def InScope (c : StrictBound) (d : Domains) : Prop := ∀ w ∈ c.operands, d.Has w

/-- What the rules do: elements are removed, and the bound is raised to the number after a value. -/
def Rule (c : StrictBound) : Narrowing → Prop
  | .exclude x _ => x = c.set
  | .atLeast x w => x = c.bound ∧ ∃ v : Int32, w.toInt = v.toInt + 1
  | _ => False

variable {c : StrictBound} {V W : View} {s t : Store} {r r' : Bool}

theorem Inert.of_le (h : c.Inert W) (hV : V ≤ W) : c.Inert V := fun v hv =>
  Int32.lt_of_lt_of_le (h v fun he => hv (View.excluded_of_le hV he)) (hV.low c.bound)

theorem Inert.stable (h : c.Inert V) : c.Stable V where
  lt_low v hv := h v (by simp [hv])
  lt_high v hv := Int32.lt_of_lt_of_le (h v hv) (V.low_le_high _)

theorem Rule.var_mem {n : Narrowing} (h : c.Rule n) : n.var ∈ c.operands := by
  cases n with
  | require x v => exact h.elim
  | exclude x v => simp [Narrowing.var, operands, show x = c.set from h]
  | atLeast x v => simp [Narrowing.var, operands, show x = c.bound from h.1]
  | atMost x v => exact h.elim

/-- Only the operands matter. -/
theorem Settled.of_agree {N : News} (h : c.Settled V N) (hag : ∀ w ∈ c.operands, V.Agree W w) : c.Settled W N := by
  have hs : ∀ v, V.element c.set v = W.element c.set v := hag (.set c.set) (by simp [operands])
  have hb : V.low c.bound = W.low c.bound ∧ V.high c.bound = W.high c.bound := hag (.int c.bound) (by simp [operands])
  refine ⟨fun v hv => ?_, ?_⟩
  · rw [← hs] at hv
    rw [← hb.1]
    exact h.lt_low v hv
  · simp only [← hs, ← hb.2]
    exact h.lt_high

/-- Registered are the slots of the set and of the bound. -/
theorem listens_iff {slot : Slot} : c.posting.Listens slot ↔ slot = setSlot ∨ slot = boundSlot := by
  simp [Posting.Listens, posting, eq_comm]

private theorem inScope_iff {d : Domains} : c.InScope d ↔ d.Has (.set c.set) ∧ d.Has (.int c.bound) := by
  simp [InScope, operands]

/-! ### Entailment -/

/-- The constraint cannot hold any more: a certain element is not below the largest bound. -/
def Broken (c : StrictBound) (V : View) : Prop := ∃ v, V.element c.set v = .required ∧ V.high c.bound ≤ v

private theorem entailment_of_get? {d : Domains} {e : SetDomain} {b : IntDomain} (he : d.sets.get? c.set = some e)
    (hb : d.ints.get? c.bound = some b) : c.entailment d = .ok (
      if e.maxKernel?.any (b.high ≤ ·) then .violated
      else if e.envelope.all (· < b.low) then .satisfied
      else .undetermined) := by
  simp only [entailment, Domains.set?, Domains.int?, he, hb, bind, Except.bind, pure, Except.pure]

private theorem any_maxKernel?_iff {e : SetDomain} (he : e.WellFormed) (b : Int32) :
    e.maxKernel?.any (b ≤ ·) = true ↔ ∃ v, e.membership v = .required ∧ b ≤ v := by
  cases hm : e.maxKernel? with
  | none =>
    have hk := SetDomain.maxKernel?_eq_none hm
    have hno : ∀ v, e.membership v ≠ .required := fun v hv => by simpa [hk] using (SetDomain.mem_kernel he v).2 hv
    simp [hno]
  | some m =>
    obtain ⟨hmem, hmax⟩ := SetDomain.maxKernel?_eq_some he hm
    rw [Option.any_some, decide_eq_true_eq]
    constructor
    · exact fun hb => ⟨m, (SetDomain.mem_kernel he m).1 hmem, hb⟩
    · rintro ⟨v, hv, hb⟩
      exact Int32.le_trans hb (hmax v ((SetDomain.mem_kernel he v).2 hv))

/-- The entailment is read off the view. -/
theorem exists_entailment {d : Domains} (hd : d.WellFormed) (h : c.InScope d) : ∃ e, c.entailment d = .ok e ∧
    (e = .violated ↔ c.Broken d.view) ∧ (e = .satisfied ↔ ¬ c.Broken d.view ∧ c.Inert d.view) := by
  obtain ⟨hhs, hhb⟩ := inScope_iff.1 h
  obtain ⟨e, he⟩ := Option.isSome_iff_exists.1 hhs
  obtain ⟨b, hb⟩ := Option.isSome_iff_exists.1 hhb
  have hbroken : e.maxKernel?.any (b.high ≤ ·) = true ↔ c.Broken d.view := by
    simp only [any_maxKernel?_iff (hd _ _ he), Broken, Domains.membership_eq he, Domains.view_high_of_get? hb]
  have hinert : e.envelope.all (· < b.low) = true ↔ c.Inert d.view := by
    simp only [List.all_eq_true, decide_eq_true_eq, SetDomain.mem_envelope (hd _ _ he), Domains.membership_eq he,
      Inert, Domains.view_low_of_get? hb]
  exact ⟨_, entailment_of_get? he hb, Entailment.ite_iff hbroken hinert⟩

private theorem inScope_of_entailment {d : Domains} {e : Entailment} (h : c.entailment d = .ok e) : c.InScope d := by
  unfold entailment at h
  rw [inScope_iff, Domains.Has, Domains.Has]
  cases hb : d.ints.get? c.bound with
  | none => simp [Domains.int?, hb, bind, Except.bind] at h
  | some b =>
    cases he : d.sets.get? c.set with
    | none => simp [Domains.int?, Domains.set?, hb, he, bind, Except.bind] at h
    | some e => exact ⟨rfl, rfl⟩

/-- What is broken stays so. -/
theorem Broken.not_stable (h : c.Broken W) (hV : V ≤ W) : ¬ c.Stable V := by
  intro hst
  obtain ⟨v, hv, hle⟩ := h
  have hlt := hst.lt_high v (by simp [View.required_of_le hV hv])
  exact Int32.not_lt.2 (Int32.le_trans (hV.high _) hle) hlt

/-- Once set and bound are decided, the constraint holds unless it is broken. -/
theorem inert_of_decided (h : ∀ v, V.element c.set v ≠ .possible) (hb : V.low c.bound = V.high c.bound)
    (hno : ¬ c.Broken V) : c.Inert V := by
  intro v hv
  have hr : V.element c.set v = .required := by
    have := h v
    cases hm : V.element c.set v <;> simp_all
  rw [hb]
  exact Int32.not_le.1 fun hle => hno ⟨v, hr, hle⟩

/-- Once the set is decided, stable rules have nothing more to do. -/
theorem Stable.inert (h : c.Stable V) (hdec : ∀ v, V.element c.set v ≠ .possible) : c.Inert V := by
  intro v hv
  refine h.lt_low v ?_
  have := hdec v
  cases hm : V.element c.set v <;> simp_all

/-- Unless it is broken, the constraint has a solution: the certain elements alone, below the largest bound. -/
theorem exists_solution {d : Domains} (hd : d.WellFormed) (h : c.InScope d) (hb : ¬ c.Broken d.view) :
    ∃ a, d.Admits a ∧ c.Holds a := by
  obtain ⟨hhs, hhb⟩ := inScope_iff.1 h
  obtain ⟨b, hget⟩ := Option.isSome_iff_exists.1 hhb
  refine ⟨d.completion (fun _ _ => False) IntDomain.high,
    Domains.admits_completion hd fun b => ⟨b.low_le_high, Int32.le_rfl⟩, fun v hv => ?_⟩
  rw [Domains.mem_completion hd hhs] at hv
  rw [Domains.int_completion hget, ← Domains.view_high_of_get? hget]
  exact Int32.not_le.1 fun hle => hb ⟨v, hv.resolve_right And.right, hle⟩

/-- If the constraint holds for the whole envelope and the smallest bound, it holds whatever they will be. -/
theorem inert_of_forall {d : Domains} (hd : d.WellFormed) (h : c.InScope d) (hall : ∀ a, d.Admits a → c.Holds a) :
    c.Inert d.view := by
  obtain ⟨hhs, hhb⟩ := inScope_iff.1 h
  obtain ⟨b, hget⟩ := Option.isSome_iff_exists.1 hhb
  intro v hv
  have hholds := hall (d.completion (fun _ _ => True) IntDomain.low)
    (Domains.admits_completion hd fun b => ⟨Int32.le_rfl, b.low_le_high⟩) v
  rw [Domains.int_completion hget, ← Domains.view_low_of_get? hget] at hholds
  refine hholds ((Domains.mem_completion hd hhs).2 ?_)
  cases hm : d.view.element c.set v <;> simp_all

/-! ### The parts of a call -/

/-- Makes the bound larger than a value, if there is one. -/
private def raise (c : StrictBound) : Option Int32 → Action Unit
  | none => .done ()
  | some v => c.raiseAbove v

/-- The part of a call about a delta that depends on the slot. -/
private def react (c : StrictBound) (slot : Slot) (delta : Delta) : Action Unit :=
  if slot = setSlot then c.raise (delta.values .kernelGrew).max?
  else if slot = boundSlot then c.prune
  else .stop (.fault .unregisteredSlot)

private theorem fromScratch_eq (c : StrictBound) :
    c.fromScratch = (Action.set c.set).bind fun e => (c.raise e.maxKernel?).bind fun _ =>
      c.prune.bind fun _ => c.restIfEntailed := by
  simp only [fromScratch, Action.bind_eq]
  congr
  funext e
  cases e.maxKernel? <;> rfl

private theorem incremental_eq (c : StrictBound) (slot : Slot) (delta : Delta) :
    c.incremental slot delta = (c.react slot delta).bind fun _ => c.restIfEntailed := by
  simp only [incremental, react, Action.bind_eq]
  split
  · cases (delta.values .kernelGrew).max? <;> rfl
  · split <;> rfl

private theorem prune_eq (c : StrictBound) :
    c.prune = (Action.int c.bound).bind fun b => (Action.set c.set).bind fun e =>
      (e.envelope.dropWhile (· < b.high)).forM (Action.exclude c.set) := rfl

private theorem restIfEntailed_eq (c : StrictBound) :
    c.restIfEntailed = Action.domains.bind fun d => (Action.lift (c.entailment d)).bind fun e =>
      if e = .satisfied then Action.askRest else .done () := rfl

private theorem only_raise (c : StrictBound) (o : Option Int32) :
    (c.raise o).Only (fun n => ∃ v w, next? v = some w ∧ n = .atLeast c.bound w) False := by
  cases o with
  | none => trivial
  | some v =>
    simp only [raise, raiseAbove]
    split
    · trivial
    · rename_i w hw
      exact ⟨⟨v, w, hw, rfl⟩, trivial⟩

private theorem only_prune (c : StrictBound) : c.prune.Only (fun n => ∃ v, n = .exclude c.set v) False := by
  rw [prune_eq]
  exact (Action.only_int _).bind fun _ => (Action.only_set _).bind fun _ =>
    Action.Only.forM fun v _ => ⟨⟨v, rfl⟩, trivial⟩

private theorem rule_raise (c : StrictBound) (o : Option Int32) {R : Prop} : (c.raise o).Only c.Rule R :=
  (c.only_raise o).imp (by rintro _ ⟨v, w, hw, rfl⟩; exact ⟨rfl, v, toInt_of_next? hw⟩) False.elim

private theorem rule_prune (c : StrictBound) {R : Prop} : c.prune.Only c.Rule R :=
  c.only_prune.imp (by rintro _ ⟨v, rfl⟩; rfl) False.elim

private theorem rule_react (c : StrictBound) (slot : Slot) (delta : Delta) {R : Prop} :
    (c.react slot delta).Only c.Rule R := by
  unfold react
  split
  · exact c.rule_raise _
  · split
    · exact c.rule_prune
    · trivial

private theorem rule_restIfEntailed (c : StrictBound) : c.restIfEntailed.Only c.Rule True := by
  rw [restIfEntailed_eq]
  refine Action.Only.bind (fun _ => trivial) fun d => (Action.only_lift _).bind fun e => ?_
  split
  · exact ⟨trivial, trivial⟩
  · trivial

/-! ### Calls that lose nothing -/

section
variable {has : Var → Prop}

private theorem keeps_raise {o : Option Int32} (h : ∀ v, o = some v → v < V.low c.bound) :
    (c.raise o).Keeps V has fun _ => True := by
  cases o with
  | none => exact Action.within_done trivial
  | some v =>
    have hv := h v rfl
    simp only [raise, raiseAbove]
    split
    · rename_i hn
      exact absurd hv (not_lt_of_next?_eq_none hn)
    · rename_i w hw
      exact Action.keeps_narrow ((next?_le_iff hw).2 hv)

private theorem keeps_prune (h : c.Stable V) : c.prune.Keeps V has fun _ => True := by
  rw [prune_eq]
  refine Action.keeps_int.bind fun b hb => Action.keeps_set.bind
    fun e he => Action.within_forM fun v hv => Action.keeps_narrow ?_
  rw [SetDomain.mem_dropWhile_lt (SetDomain.pairwise_envelope he.wellFormed)] at hv
  by_contra hne
  have := h.lt_high v hne
  have := hb.2
  grind

private theorem fault_of_entailment {d : Domains} {f : Fault} (h : c.entailment d = .error f) :
    f = .unknownIndex := by
  cases hb : d.ints.get? c.bound with
  | none => simpa [entailment, Domains.int?, hb, bind, Except.bind, eq_comm] using h
  | some b =>
    cases hs : d.sets.get? c.set with
    | none => simpa [entailment, Domains.set?, Domains.int?, hb, hs, bind, Except.bind, eq_comm] using h
    | some e => simp [entailment, Domains.set?, Domains.int?, hb, hs, bind, Except.bind, pure, Except.pure] at h

private theorem entailment_error {d : Domains} {f : Fault} (h : c.entailment d = .error f) : ¬ c.InScope d := by
  rw [inScope_iff]
  rintro ⟨hs, hb⟩
  obtain ⟨e, he⟩ := Option.isSome_iff_exists.1 hs
  obtain ⟨b, hb⟩ := Option.isSome_iff_exists.1 hb
  simp [entailment_of_get? he hb] at h

private theorem keeps_restIfEntailed : c.restIfEntailed.Keeps V has fun _ => True := by
  rw [restIfEntailed_eq]
  exact Action.within_domains.bind fun d hd => Action.Within.bind (Q := fun _ => True)
    (Action.within_lift (fun _ _ => trivial) fun f _ => ⟨f, rfl⟩)
    fun e _ => Action.within_ite (fun _ => Action.within_askRest) fun _ => Action.within_done trivial

theorem keeps_fromScratch (h : c.Stable V) : c.fromScratch.Keeps V has fun _ => True := by
  rw [fromScratch_eq]
  refine Action.keeps_set.bind fun e he => (keeps_raise fun v hv => h.lt_low v ?_).bind
    fun _ _ => (keeps_prune h).bind fun _ _ => keeps_restIfEntailed
  have hk := (SetDomain.mem_kernel he.wellFormed v).1 (SetDomain.maxKernel?_eq_some he.wellFormed hv).1
  rw [he.element_eq v (by simp [hk]), hk]

/-- A call about a delta loses nothing if the elements that it tells of are in the kernel. -/
theorem keeps_incremental (h : c.Stable V) {slot : Slot} {delta : Delta}
    (htold : slot = setSlot → ∀ v, (.kernelGrew, v) ∈ delta.entries → V.element c.set v = .required) :
    (c.incremental slot delta).Keeps V has fun _ => True := by
  rw [incremental_eq]
  refine Action.Within.bind (Q := fun _ => True) (Action.within_ite (fun hslot => keeps_raise fun v hv => ?_)
    fun _ => Action.within_ite (fun _ => keeps_prune h) fun _ => Action.within_stop ⟨_, rfl⟩)
    fun _ _ => keeps_restIfEntailed
  exact h.lt_low v (htold hslot v (Delta.mem_values.1 (List.max?_mem hv)))

private theorem safe_raise (o : Option Int32) : (c.raise o).Safe c.operands has := by
  cases o with
  | none => exact Action.within_done trivial
  | some v =>
    simp only [raise, raiseAbove]
    split
    · exact Action.within_stop (by simp)
    · exact Action.safe_narrow (by simp [Narrowing.var, operands])

private theorem safe_prune (c : StrictBound) : c.prune.Safe c.operands has := by
  rw [prune_eq]
  exact (Action.safe_int (by simp [operands])).bind fun _ => (Action.safe_set (by simp [operands])).bind fun _ =>
    Action.within_forM fun _ _ => Action.safe_narrow (by simp [Narrowing.var, operands])

private theorem safe_restIfEntailed (c : StrictBound) : c.restIfEntailed.Safe c.operands has := by
  rw [restIfEntailed_eq]
  refine Action.within_domains.bind fun d hd => Action.Within.bind (Q := fun _ => True)
    (Action.within_lift (fun _ _ => trivial) fun f hf g hg => ?_)
    fun e _ => Action.within_ite (fun _ => Action.within_askRest) fun _ => Action.within_done trivial
  cases hg
  refine ⟨fault_of_entailment hf, ?_⟩
  by_contra hno
  push Not at hno
  exact entailment_error hf fun w hw => (hd.2 w).2 (hno w hw)

theorem safe_fromScratch (c : StrictBound) : c.fromScratch.Safe c.operands has := by
  rw [fromScratch_eq]
  exact (Action.safe_set (by simp [operands])).bind fun _ => (safe_raise _).bind fun _ =>
    (safe_prune c).bind fun _ => safe_restIfEntailed c

/-- A call about a delta is safe under a slot that is registered. -/
theorem safe_incremental {slot : Slot} (h : c.posting.Listens slot) (delta : Delta) :
    (c.incremental slot delta).Safe c.operands has := by
  rw [incremental_eq]
  refine Action.Safe.bind ?_ fun _ => safe_restIfEntailed c
  refine Action.within_ite (fun _ => safe_raise _) fun hset =>
    Action.within_ite (fun _ => safe_prune c) fun hbound => ?_
  exact absurd (listens_iff.1 h) (not_or.2 ⟨hset, hbound⟩)

end

/-- Under any other slot it is a fault, and nothing happens. -/
theorem incremental_of_not_listens {slot : Slot} (h : ¬ c.posting.Listens slot) (delta : Delta) :
    (c.incremental slot delta).run s r = ⟨s, r, .error (.fault .unregisteredSlot)⟩ := by
  obtain ⟨hset, hbound⟩ := not_or.1 (mt listens_iff.2 h)
  rw [incremental_eq, react, if_neg hset, if_neg hbound]
  rfl

/-! ### How calls leave the bounds -/

private theorem news_of_kernelGrew {cs : List Change} {v : Int32} (h : ⟨.set c.set, .kernelGrew, v⟩ ∈ cs) :
    c.posting.news cs setSlot .kernelGrew v :=
  ⟨_, h, rfl, rfl, ⟨.set c.set, .kernel, setSlot⟩, by simp [posting], rfl, rfl, rfl⟩

private theorem news_of_upperLowered {cs : List Change} {v : Int32} (h : ⟨.int c.bound, .upperLowered, v⟩ ∈ cs) :
    c.posting.news cs boundSlot .upperLowered v :=
  ⟨_, h, rfl, rfl, ⟨.int c.bound, .upperBoundAndAssign, boundSlot⟩, by simp [posting], rfl, rfl, rfl⟩

private theorem required_of_explained {cs : List Change} (h : V.Explained W cs) {v : Int32}
    (hv : W.element c.set v = .required) :
    V.element c.set v = .required ∨ c.posting.news cs setSlot .kernelGrew v := by
  rcases h.element c.set v with he | ⟨-, hc⟩ | ⟨he, -⟩
  · exact .inl (he ▸ hv)
  · exact .inr (news_of_kernelGrew hc)
  · simp [hv] at he

/-- Possible elements stay below the largest bound unless it is changed. -/
private theorem lt_high_of_explained {cs : List Change} (h : V.Explained W cs) (hle : W ≤ V)
    (hV : ∀ v, V.element c.set v ≠ .excluded → v < V.high c.bound) :
    (∀ v, W.element c.set v ≠ .excluded → v < W.high c.bound) ∨ ∃ e v, c.posting.news cs boundSlot e v := by
  rcases h.high c.bound with hh | ⟨v, hc⟩
  · exact .inl fun v hv => hh ▸ hV v fun he => hv (View.excluded_of_le hle he)
  · exact .inr ⟨_, v, news_of_upperLowered hc⟩

theorem Settled.of_explained {N : News} {cs : List Change} (h : c.Settled V N) (hex : V.Explained W cs)
    (hle : W ≤ V) : c.Settled W fun l e v => N l e v ∨ c.posting.news cs l e v where
  lt_low v hv := by
    rcases required_of_explained hex hv with hv | hn
    · exact (h.lt_low v hv).imp (Int32.lt_of_lt_of_le · (hle.low _)) .inl
    · exact .inr (.inr hn)
  lt_high := by
    rcases h.lt_high with h | ⟨e, v, hn⟩
    · exact (lt_high_of_explained hex hle h).imp_right fun ⟨e, v, hn⟩ => ⟨e, v, .inr hn⟩
    · exact .inr ⟨e, v, .inl hn⟩

private theorem lt_low_of_raise {o : Option Int32} (hs : s.domains.WellFormed)
    (h : (c.raise o).run s r = ⟨t, r', .ok ()⟩) : ∀ v, o = some v → v < t.domains.view.low c.bound := by
  rintro v rfl
  simp only [raise, raiseAbove] at h
  split at h
  · simp [Action.run] at h
  · rename_i w hw
    exact (next?_le_iff hw).1 (Action.accepts_of_run (n := .atLeast c.bound w) hs h)

/-- Pruning leaves every possible element below the largest bound. -/
private theorem lt_high_of_prune (hs : s.domains.WellFormed) (h : c.prune.run s r = ⟨t, r', .ok ()⟩) :
    ∀ v, t.domains.view.element c.set v ≠ .excluded → v < s.domains.view.high c.bound := by
  obtain ⟨new, hnew⟩ := Action.narrowed_run c.only_prune hs r
  rw [h] at hnew
  obtain ⟨u, q, b, h1, h2⟩ := Action.run_bind_ok (c.prune_eq ▸ h)
  obtain ⟨rfl, rfl, hb⟩ := Action.run_int_ok h1
  obtain ⟨u', q', e, h3, h4⟩ := Action.run_bind_ok h2
  obtain ⟨rfl, rfl, he⟩ := Action.run_set_ok h3
  intro v hv
  rw [Domains.view_high_of_get? hb]
  by_contra hlt
  have hmem : v ∈ e.envelope := by
    rw [SetDomain.mem_envelope (hs _ _ he), Domains.membership_eq he]
    exact fun hx => hv (View.excluded_of_le hnew.le hx)
  exact hv (Action.excluded_of_run hs h4 v
    ((SetDomain.mem_dropWhile_lt (SetDomain.pairwise_envelope (hs _ _ he)) _ _).2 ⟨hmem, Int32.not_lt.1 hlt⟩))

/-- The last part of a call changes nothing, and asks for rest exactly where the constraint is inert. -/
private theorem restIfEntailed_ok (hs : s.domains.WellFormed)
    (h : c.restIfEntailed.run s false = ⟨t, r', .ok ()⟩) : t = s ∧ (r' = true ↔ c.Inert s.domains.view) := by
  rw [restIfEntailed_eq] at h
  cases he : c.entailment s.domains with
  | error f => simp [Action.domains, Action.bind, Action.run, he, Action.lift] at h
  | ok e =>
    simp only [Action.domains, Action.bind, Action.run, he, Action.lift] at h
    have hsat : e = .satisfied ↔ c.Inert s.domains.view := by
      obtain ⟨e', he', -, hiff⟩ := exists_entailment hs (inScope_of_entailment he)
      obtain rfl : e = e' := Except.ok.inj (he.symm.trans he')
      exact hiff.trans (and_iff_right_of_imp fun hi hb => hb.not_stable le_rfl hi.stable)
    rw [← hsat]
    split at h <;> cases h <;> exact ⟨rfl, by simpa⟩

/-! ### Calls as a whole -/

theorem rule_fromScratch (c : StrictBound) : c.fromScratch.Only c.Rule True := by
  rw [fromScratch_eq]
  exact (Action.only_set _).bind fun _ => (c.rule_raise _).bind fun _ => c.rule_prune.bind fun _ =>
    c.rule_restIfEntailed

theorem rule_incremental (c : StrictBound) (slot : Slot) (delta : Delta) :
    (c.incremental slot delta).Only c.Rule True := by
  rw [incremental_eq]
  exact (c.rule_react slot delta).bind fun _ => c.rule_restIfEntailed

theorem only_fromScratch (c : StrictBound) : c.fromScratch.Only (fun n => n.var ∈ c.operands) True :=
  c.rule_fromScratch.imp (fun _ => Rule.var_mem) id

theorem only_incremental (c : StrictBound) (slot : Slot) (delta : Delta) :
    (c.incremental slot delta).Only (fun n => n.var ∈ c.operands) True :=
  (c.rule_incremental slot delta).imp (fun _ => Rule.var_mem) id

/-- Apart from the wish to rest, the last part of a call can be left out. -/
private theorem run_bind_rest_ok {a : Action Unit} (ha : a.Only c.Rule False)
    (hs : s.domains.WellFormed) (h : (a.bind fun _ => c.restIfEntailed).run s false = ⟨t, r', .ok ()⟩) :
    a.run s false = ⟨t, false, .ok ()⟩ ∧ (r' = true ↔ c.Inert t.domains.view) := by
  obtain ⟨u, q, ⟨⟩, h1, h2⟩ := Action.run_bind_ok h
  have hw := Action.wellFormed_run a hs false
  have hq := Action.resting_run ha s false
  rw [h1] at hw hq
  obtain rfl : q = false := hq
  obtain ⟨rfl, hr⟩ := restIfEntailed_ok hw h2
  exact ⟨h1, hr⟩

/-- The first parts of a call from scratch, without the wish to rest. -/
private theorem fromScratch_ok (hs : s.domains.WellFormed) (h : c.fromScratch.run s false = ⟨t, r', .ok ()⟩) :
    ∃ e, s.domains.sets.get? c.set = some e ∧
      ((c.raise e.maxKernel?).bind fun _ => c.prune).run s false = ⟨t, false, .ok ()⟩ ∧
      (r' = true ↔ c.Inert t.domains.view) := by
  obtain ⟨u, q, e, h1, h2⟩ := Action.run_bind_ok (c.fromScratch_eq ▸ h)
  obtain ⟨rfl, rfl, he⟩ := Action.run_set_ok h1
  rw [← Action.bind_assoc] at h2
  exact ⟨e, he, run_bind_rest_ok ((c.rule_raise _).bind fun _ => c.rule_prune) hs h2⟩

/-- The first part of a call about a delta, without the wish to rest. -/
private theorem incremental_ok (hs : s.domains.WellFormed) {slot : Slot} {delta : Delta}
    (h : (c.incremental slot delta).run s false = ⟨t, r', .ok ()⟩) :
    (c.react slot delta).run s false = ⟨t, false, .ok ()⟩ ∧ (r' = true ↔ c.Inert t.domains.view) :=
  run_bind_rest_ok (c.rule_react slot delta) hs (c.incremental_eq slot delta ▸ h)

/-- What succeeds is about the set or about the bound. -/
private theorem react_ok {slot : Slot} {delta : Delta} (h : (c.react slot delta).run s r = ⟨t, r', .ok ()⟩) :
    (slot = setSlot ∧ (c.raise (delta.values .kernelGrew).max?).run s r = ⟨t, r', .ok ()⟩) ∨
      slot ≠ setSlot ∧ c.prune.run s r = ⟨t, r', .ok ()⟩ := by
  unfold react at h
  split at h
  · exact .inl ⟨by assumption, h⟩
  · split at h
    · exact .inr ⟨by assumption, h⟩
    · cases h

/-- Rest is asked for exactly where nothing can be disturbed. -/
theorem resting_fromScratch (hs : s.domains.WellFormed) (h : c.fromScratch.run s false = ⟨t, r', .ok ()⟩) :
    r' = true ↔ c.Inert t.domains.view :=
  have ⟨_, _, _, hrest⟩ := fromScratch_ok hs h
  hrest

theorem resting_incremental (hs : s.domains.WellFormed) {slot : Slot} {delta : Delta}
    (h : (c.incremental slot delta).run s false = ⟨t, r', .ok ()⟩) : r' = true ↔ c.Inert t.domains.view :=
  (incremental_ok hs h).2

/-- Raising the bound requires no element and leaves the largest bound alone. -/
private theorem eq_of_raise {o : Option Int32} (hs : s.domains.WellFormed)
    (h : (c.raise o).run s r = ⟨t, r', .ok ()⟩) :
    (∀ v, t.domains.view.element c.set v = .required → s.domains.view.element c.set v = .required) ∧
      t.domains.view.high c.bound = s.domains.view.high c.bound := by
  have hsteps := Action.steps_run (c.only_raise o) s r
  rw [h] at hsteps
  exact ⟨fun v => hsteps.required hs (by rintro _ ⟨-, w, -, rfl⟩; simp),
    hsteps.high_eq hs (by rintro _ ⟨-, w, -, rfl⟩; simp)⟩

/-- Pruning requires no element and leaves the largest bound alone. -/
private theorem eq_of_prune (hs : s.domains.WellFormed) (h : c.prune.run s r = ⟨t, r', .ok ()⟩) :
    (∀ v, t.domains.view.element c.set v = .required → s.domains.view.element c.set v = .required) ∧
      t.domains.view.high c.bound = s.domains.view.high c.bound := by
  have hsteps := Action.steps_run c.only_prune s r
  rw [h] at hsteps
  exact ⟨fun v => hsteps.required hs (by rintro _ ⟨w, rfl⟩; simp), hsteps.high_eq hs (by rintro _ ⟨w, rfl⟩; simp)⟩

/-- A successful call from scratch leaves the rules stable. -/
theorem stable_of_fromScratch (hs : s.domains.WellFormed) (h : c.fromScratch.run s false = ⟨t, r', .ok ()⟩) :
    c.Stable t.domains.view := by
  obtain ⟨e, he, h3, -⟩ := fromScratch_ok hs h
  obtain ⟨u, q, ⟨⟩, h4, h5⟩ := Action.run_bind_ok h3
  have hu := Action.wellFormed_run (c.raise e.maxKernel?) hs false
  rw [h4] at hu
  obtain ⟨new, hnew⟩ := Action.narrowed_run c.only_prune hu q
  rw [h5] at hnew
  refine ⟨fun v hv => ?_, fun v hv => ?_⟩
  · have hk := (eq_of_raise hs h4).1 v ((eq_of_prune hu h5).1 v hv)
    rw [Domains.view_element_of_get? he, ← SetDomain.mem_kernel (hs _ _ he)] at hk
    cases hm : e.maxKernel? with
    | none => simp [SetDomain.maxKernel?_eq_none hm] at hk
    | some m =>
      have hle := (SetDomain.maxKernel?_eq_some (hs _ _ he) hm).2 v hk
      exact Int32.lt_of_lt_of_le (Int32.lt_of_le_of_lt hle (lt_low_of_raise hs h4 m hm)) (hnew.le.low _)
  · rw [(eq_of_prune hu h5).2]
    exact lt_high_of_prune hu h5 v hv

/-- A successful call about a delta deals with its news, and brings no other. -/
theorem settled_of_incremental (hs : s.domains.WellFormed) {slot : Slot} {delta : Delta} {N : News}
    (h : (c.incremental slot delta).run s false = ⟨t, r', .ok ()⟩)
    (hN : c.Settled s.domains.view fun l e v => delta.news slot l e v ∨ N l e v) : c.Settled t.domains.view N := by
  obtain ⟨new, hnew⟩ := Action.narrowed_run (c.only_incremental slot delta) hs false
  rw [h] at hnew
  rcases react_ok (incremental_ok hs h).1 with ⟨hslot, h1⟩ | ⟨hslot, h1⟩
  · obtain ⟨hrequired, hhigh⟩ := eq_of_raise hs h1
    refine ⟨fun v hv => ?_, ?_⟩
    · rcases hN.lt_low v (hrequired v hv) with hlt | ⟨-, hd⟩ | hn
      · exact .inl (Int32.lt_of_lt_of_le hlt (hnew.le.low _))
      · -- the delta tells of it, and the bound has been raised above all that the delta tells of
        have hmem := Delta.mem_values.2 hd
        cases hm : (delta.values .kernelGrew).max? with
        | none => simp [List.max?_eq_none_iff.1 hm] at hmem
        | some m =>
          have hle := (List.max?_le_iff hm (x := m)).1 Int32.le_rfl v hmem
          exact .inl (Int32.lt_of_le_of_lt hle (lt_low_of_raise hs h1 m hm))
      · exact .inr hn
    · rcases hN.lt_high with hlt | ⟨e, v, ⟨hl, -⟩ | hn⟩
      · exact .inl fun v hv => hhigh ▸ hlt v fun he => hv (View.excluded_of_le hnew.le he)
      · rw [hslot] at hl
        exact absurd hl (by decide)
      · exact .inr ⟨e, v, hn⟩
  · obtain ⟨hrequired, hhigh⟩ := eq_of_prune hs h1
    refine ⟨fun v hv => ?_, .inl fun v hv => hhigh ▸ lt_high_of_prune hs h1 v hv⟩
    rcases hN.lt_low v (hrequired v hv) with hlt | ⟨hl, -⟩ | hn
    · exact .inl (Int32.lt_of_lt_of_le hlt (hnew.le.low _))
    · exact absurd hl.symm hslot
    · exact .inr hn

/-! ### Quiet calls -/

private theorem quiet_restIfEntailed (hs : s.domains.WellFormed) (h : c.InScope s.domains) :
    c.restIfEntailed.Quiet s () := by
  rw [restIfEntailed_eq, Action.quiet_bind hs]
  refine ⟨s.domains, by simp, ?_⟩
  cases hc : c.entailment s.domains with
  | error f => exact absurd h (entailment_error hc)
  | ok r =>
    rw [Action.quiet_bind hs]
    refine ⟨r, by simp, ?_⟩
    split <;> simp

private theorem quiet_raise {e : SetDomain} (hs : s.domains.WellFormed) (he : e.WellFormed)
    (hb : s.domains.Has (.int c.bound)) :
    (c.raise e.maxKernel?).Quiet s () ↔ ∀ v ∈ e.kernel, v < s.domains.view.low c.bound := by
  cases hm : e.maxKernel? with
  | none => simp [raise, SetDomain.maxKernel?_eq_none hm]
  | some m =>
    obtain ⟨hmem, hmax⟩ := SetDomain.maxKernel?_eq_some he hm
    simp only [raise, raiseAbove]
    split
    · rename_i hn
      exact iff_of_false (by simp) fun hall => not_lt_of_next?_eq_none hn (hall m hmem)
    · rename_i w hw
      rw [Action.atLeast, Action.quiet_narrow hs, and_iff_left (by exact hb), View.Accepts, next?_le_iff hw]
      exact ⟨fun hlt v hv => Int32.lt_of_le_of_lt (hmax v hv) hlt, fun hall => hall m hmem⟩

private theorem quiet_prune {e : SetDomain} {b : IntDomain} (hs : s.domains.WellFormed)
    (he : s.domains.sets.get? c.set = some e) (hb : s.domains.ints.get? c.bound = some b) :
    c.prune.Quiet s () ↔ ∀ v ∈ e.envelope, v < s.domains.view.high c.bound := by
  have hwf := hs _ _ he
  have hhs : s.domains.Has (.set c.set) := by simp [Domains.Has, he]
  rw [prune_eq, Action.quiet_bind hs]
  simp only [Action.quiet_int hs, hb, Option.some.injEq, exists_eq_left', Action.quiet_set_bind hs he,
    Action.quiet_forM hs, Action.exclude, Action.quiet_narrow hs, View.Accepts, Domains.view_high_of_get? hb,
    Domains.view_element_of_get? he, SetDomain.mem_dropWhile_lt (SetDomain.pairwise_envelope hwf)]
  constructor
  · intro hall v hv
    by_contra hlt
    exact (SetDomain.mem_envelope hwf v).1 hv (hall v ⟨hv, Int32.not_lt.1 hlt⟩).1
  · exact fun hall v hv => absurd (hall v hv.1) (Int32.not_lt.2 hv.2)

/-- A call from scratch has no effect exactly if all is stable. -/
theorem quiet_fromScratch (hs : s.domains.WellFormed) (h : c.InScope s.domains) :
    c.fromScratch.Quiet s () ↔ c.Stable s.domains.view := by
  obtain ⟨hhs, hhb⟩ := inScope_iff.1 h
  obtain ⟨e, he⟩ := Option.isSome_iff_exists.1 hhs
  obtain ⟨b, hb⟩ := Option.isSome_iff_exists.1 hhb
  have hwf := hs _ _ he
  rw [fromScratch_eq, Action.quiet_set_bind hs he, Action.quiet_bind_unit hs, Action.quiet_bind_unit hs,
    and_iff_left (quiet_restIfEntailed hs h), quiet_raise hs hwf hhb, quiet_prune hs he hb]
  simp only [SetDomain.mem_kernel hwf, SetDomain.mem_envelope hwf, Domains.membership_eq he]
  exact ⟨fun hst => ⟨hst.1, hst.2⟩, fun hst => ⟨hst.1, hst.2⟩⟩

/-! ### The largest value -/

private theorem run_raise_maxValue :
    (c.raise (some Int32.maxValue)).run s r = ⟨s, r, .error (.error .emptyDomain)⟩ := by
  simp [raise, raiseAbove, next?, Action.run]

/-- No bound is above the largest value, and none is computed. -/
theorem fromScratch_of_maxValue {e : SetDomain} (hs : s.domains.WellFormed) (he : s.domains.sets.get? c.set = some e)
    (hmem : Int32.maxValue ∈ e.kernel) : c.fromScratch.run s false = ⟨s, false, .error (.error .emptyDomain)⟩ := by
  have hmax : e.maxKernel? = some Int32.maxValue := by
    cases hm : e.maxKernel? with
    | none => simp [SetDomain.maxKernel?_eq_none hm] at hmem
    | some m =>
      have hle := (SetDomain.maxKernel?_eq_some (hs _ _ he) hm).2 _ hmem
      rw [Int32.le_antisymm hle (Int32.le_maxValue m)]
  rw [fromScratch_eq, Action.run_bind]
  simp only [Action.set, Action.run, Domains.set?, he, Action.lift, hmax, Action.run_bind, run_raise_maxValue]

theorem incremental_of_maxValue {delta : Delta} (hmem : Int32.maxValue ∈ delta.values .kernelGrew) :
    (c.incremental setSlot delta).run s false = ⟨s, false, .error (.error .emptyDomain)⟩ := by
  have hmax : (delta.values .kernelGrew).max? = some Int32.maxValue := by
    cases hm : (delta.values .kernelGrew).max? with
    | none => simp [List.max?_eq_none_iff.1 hm] at hmem
    | some m =>
      have hle := (List.max?_le_iff hm (x := m)).1 Int32.le_rfl _ hmem
      rw [Int32.le_antisymm hle (Int32.le_maxValue m)]
  rw [incremental_eq, react, if_pos rfl, Action.run_bind, hmax, run_raise_maxValue]

/-! ### Solutions -/

/-- The certain elements alone are below each value that stable rules leave to the bound. -/
theorem Stable.holds_kernel {d : Domains} (h : c.Stable d.view) (hd : d.WellFormed) (hin : c.InScope d)
    {bound : IntDomain → Int32} (hbound : ∀ b : IntDomain, b.Admits (bound b)) :
    c.Holds (d.completion (fun _ _ => False) bound) := by
  obtain ⟨hhs, hhb⟩ := inScope_iff.1 hin
  obtain ⟨b, hget⟩ := Option.isSome_iff_exists.1 hhb
  intro v hv
  rw [Domains.mem_completion hd hhs] at hv
  have hlt := h.lt_low v (hv.resolve_right And.right)
  rw [Domains.view_low_of_get? hget] at hlt
  rw [Domains.int_completion hget]
  exact Int32.lt_of_lt_of_le hlt (hbound b).1

/-- All possible elements together are below the largest value that stable rules leave to the bound. -/
theorem Stable.holds_envelope {d : Domains} (h : c.Stable d.view) (hd : d.WellFormed) (hin : c.InScope d) :
    c.Holds (d.completion (fun _ _ => True) IntDomain.high) := by
  obtain ⟨hhs, hhb⟩ := inScope_iff.1 hin
  obtain ⟨b, hget⟩ := Option.isSome_iff_exists.1 hhb
  intro v hv
  rw [Domains.mem_completion hd hhs] at hv
  rw [Domains.int_completion hget, ← Domains.view_high_of_get? hget]
  refine h.lt_high v fun he => ?_
  simp [he] at hv

/-- An assignment satisfies the constraint exactly if the rules are stable in its view. -/
theorem holds_iff (c : StrictBound) (a : Assignment) : c.Holds a ↔ c.Stable a.view := by
  have hne : ∀ v, a.view.element c.set v ≠ .excluded ↔ v ∈ a.set c.set := by simp
  constructor
  · exact fun h => ⟨fun v hv => h v (Assignment.view_eq_required.1 hv), fun v hv => h v ((hne v).1 hv)⟩
  · exact fun h v hv => h.lt_low v (Assignment.view_eq_required.2 hv)

end StrictBound

end SetConstraints
