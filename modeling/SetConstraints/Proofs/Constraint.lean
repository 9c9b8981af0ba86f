import SetConstraints.Constraint
import SetConstraints.Proofs.Constraint.AtMostClosure
import SetConstraints.Proofs.Constraint.Difference
import SetConstraints.Proofs.Constraint.StrictBound

/-!
# What the constraints have in common

Each constraint has views at which its rules are stable.  Its solutions are the assignments with such a view
(`Constraint.holds_iff`), a call from scratch has no effect exactly at them (`quiet_fromScratch`), and no call loses
any of them (`keeps_fromScratch`, `keeps_incremental`).  Between calls a view is settled up to what is news: a call
from scratch leaves it so, a call about a delta deals with the news of the delta, and narrowing adds only what it
tells (`settles_fromScratch`, `settles_incremental`, `Settled.of_explained`).  A call that cannot disturb the rules
itself leaves no news of its own (`stable_of_fromScratch`, `settled_of_incremental`).

The entailment of a constraint is read off the view as well (`exists_entailment`): it tells whether the constraint is
broken, in which case no view below is stable, and whether it is secure, in which case every view below is.
-/

namespace SetConstraints

namespace Constraint

def propagator (c : Constraint) : Propagator := c.posting.propagator

/-- The rules have no effect. -/
def Stable : Constraint → View → Prop
  | .difference c => c.Stable
  | .strictBound c => c.Stable
  | .atMostClosure c => c.Stable

/-- The rules have no effect but where there is news. -/
def Settled : Constraint → View → News → Prop
  | .difference c => c.Settled
  | .strictBound c => c.Settled
  | .atMostClosure c => c.Settled

/-- The rules will never have an effect again. -/
def Inert : Constraint → View → Prop
  | .difference _ => fun _ => False
  | .strictBound c => c.Inert
  | .atMostClosure _ => fun _ => False

/-- The variables of a constraint. -/
def operands : Constraint → List Var
  | .difference c => c.operands
  | .strictBound c => c.operands
  | .atMostClosure c => c.operands

/-- The variables that a constraint listens to exist. -/
def InScope (c : Constraint) (d : Domains) : Prop := ∀ r ∈ c.posting.registrations, d.Has r.var

/-- Nodes have both a set of successors and a set of the closure. -/
def Proper : Constraint → Prop
  | .atMostClosure c => c.relation.length = c.closure.length
  | _ => True

/-- No variable stands both among the sets of a relation and among those of a closure, so that a call does not disturb
what it relies on itself. -/
def Separate : Constraint → Prop
  | .atMostClosure c => ∀ x ∈ c.relation, x ∉ c.closure
  | _ => True

variable {c : Constraint} {V W : View} {s t : Store} {resting : Bool}

theorem proper_of_defect {d : Domains} (h : c.posting.defect? d = none) : c.Proper := by
  cases c with
  | difference c => trivial
  | strictBound c => trivial
  | atMostClosure c =>
    show c.relation.length = c.closure.length
    by_contra hne
    simp [posting, AtMostClosure.posting, hne] at h

theorem defect_of_proper (h : c.Proper) (d : Domains) : c.posting.defect? d = none := by
  cases c with
  | difference c => rfl
  | strictBound c => rfl
  | atMostClosure c => exact if_pos h

/-- The only defect of a constraint is a node without one of its sets. -/
theorem eq_of_defect {d : Domains} {f : Fault} (h : c.posting.defect? d = some f) :
    ∃ m n, f = .unequalLengths m n := by
  cases c with
  | difference c => cases h
  | strictBound c => cases h
  | atMostClosure c =>
    simp only [posting, AtMostClosure.posting] at h
    split at h
    · cases h
    · exact ⟨_, _, (Option.some.inj h).symm⟩

private theorem difference_inScope {c : Difference} {d : Domains} (h : (difference c).InScope d) : c.InScope d := by
  simpa [InScope, posting, Difference.posting, Difference.InScope, Difference.operands] using h

private theorem strictBound_inScope {c : StrictBound} {d : Domains} (h : (strictBound c).InScope d) :
    c.InScope d := by
  simpa [InScope, posting, StrictBound.posting, StrictBound.InScope, StrictBound.operands] using h

private theorem atMostClosure_listens {c : AtMostClosure} {has : Var → Prop}
    (h : ∀ r ∈ (atMostClosure c).posting.registrations, has r.var) : ∀ x ∈ c.relation, has (.set x) := by
  intro x hx
  obtain ⟨i, hi⟩ := List.getElem?_of_mem hx
  exact h ⟨.set x, .envelope, ⟨i⟩⟩ (List.mem_map.2 ⟨(x, i), List.mem_zipIdx_iff_getElem?.2 hi, rfl⟩)

/-! ### Views -/

theorem Inert.of_le (h : c.Inert W) (hV : V ≤ W) : c.Inert V := by
  cases c with
  | difference c => exact h
  | strictBound c => exact StrictBound.Inert.of_le h hV
  | atMostClosure c => exact h

theorem Inert.stable (h : c.Inert V) : c.Stable V := by
  cases c with
  | difference c => exact h.elim
  | strictBound c => exact StrictBound.Inert.stable h
  | atMostClosure c => exact h.elim

theorem Stable.settled (h : c.Stable V) (N : News) : c.Settled V N := by
  cases c with
  | difference c => exact fun v => .inl (h v)
  | strictBound c => exact ⟨fun v hv => .inl (h.lt_low v hv), .inl h.lt_high⟩
  | atMostClosure c => exact .inl h

theorem Settled.mono {N N' : News} (h : c.Settled V N) (hN : ∀ l e v, N l e v → N' l e v) : c.Settled V N' := by
  cases c with
  | difference c => exact fun v => (h v).imp_right fun ⟨l, e, hn⟩ => ⟨l, e, hN l e v hn⟩
  | strictBound c =>
    exact ⟨fun v hv => (h.lt_low v hv).imp_right (hN _ _ _),
      h.lt_high.imp_right fun ⟨e, v, hn⟩ => ⟨e, v, hN _ _ _ hn⟩⟩
  | atMostClosure c => exact Or.imp_right (fun ⟨l, e, v, hn⟩ => ⟨l, e, v, hN l e v hn⟩) h

/-- Without news, what is settled is stable. -/
theorem Settled.stable {N : News} (h : c.Settled V N) (hN : ∀ l e v, ¬ N l e v) : c.Stable V := by
  cases c with
  | difference c => exact fun v => (h v).resolve_right fun ⟨l, e, hn⟩ => hN l e v hn
  | strictBound c =>
    exact ⟨fun v hv => (h.lt_low v hv).resolve_right (hN _ _ _),
      h.lt_high.resolve_right fun ⟨e, v, hn⟩ => hN _ e v hn⟩
  | atMostClosure c => exact Or.resolve_right h fun ⟨l, e, v, hn⟩ => hN l e v hn

theorem Settled.of_explained {N : News} {cs : List Change} (h : c.Settled V N) (hex : V.Explained W cs)
    (hle : W ≤ V) : c.Settled W fun l e v => N l e v ∨ c.posting.news cs l e v := by
  cases c with
  | difference c => exact Difference.Settled.of_explained h hex
  | strictBound c => exact StrictBound.Settled.of_explained h hex hle
  | atMostClosure c => exact AtMostClosure.Settled.of_explained h hex hle

/-- The operands of a constraint exist where its rules are stable. -/
theorem has_of_stable {d : Domains} (h : c.InScope d) (hst : c.Stable d.view) : ∀ w ∈ c.operands, d.Has w := by
  cases c with
  | difference c => exact difference_inScope h
  | strictBound c => exact strictBound_inScope h
  | atMostClosure c => exact AtMostClosure.has_of_stable hst

/-- Views that agree on the variables there are cannot be told apart. -/
theorem Settled.of_agree {d : Domains} {N : News} (h : c.Settled d.view N) (hd : c.InScope d)
    (hag : ∀ w, d.Has w → d.view.Agree W w) : c.Settled W N := by
  cases c with
  | difference c => exact Difference.Settled.of_agree h fun w hw => hag w (difference_inScope hd w hw)
  | strictBound c => exact StrictBound.Settled.of_agree h fun w hw => hag w (strictBound_inScope hd w hw)
  | atMostClosure c =>
    exact Or.imp_left (fun hst : c.Stable d.view =>
      hst.of_agree fun w hw => hag w (AtMostClosure.has_of_stable hst w hw)) h

/-! ### Calls -/

theorem only_fromScratch (c : Constraint) : c.propagator.fromScratch.Only (fun n => n.var ∈ c.operands) True := by
  cases c with
  | difference c => exact c.only_fromScratch.imp (fun _ => id) False.elim
  | strictBound c => exact c.only_fromScratch
  | atMostClosure c => exact c.only_fromScratch.imp (fun _ => id) False.elim

theorem only_incremental (c : Constraint) (slot : Slot) (delta : Delta) :
    (c.propagator.incremental slot delta).Only (fun n => n.var ∈ c.operands) True := by
  cases c with
  | difference c => exact (c.only_incremental slot delta).imp (fun _ => id) False.elim
  | strictBound c => exact c.only_incremental slot delta
  | atMostClosure c => exact c.only_fromScratch.imp (fun _ => id) False.elim

section
variable {has : Var → Prop}

theorem keeps_fromScratch (h : c.Stable V) (hin : ∀ r ∈ c.posting.registrations, has r.var) :
    c.propagator.fromScratch.Keeps V has fun _ => True := by
  cases c with
  | difference c => exact Difference.keeps_fromScratch h
  | strictBound c => exact StrictBound.keeps_fromScratch h
  | atMostClosure c => exact AtMostClosure.keeps_fromScratch h (atMostClosure_listens hin)

/-- The elements that a delta tells of have to be where it says. -/
theorem keeps_incremental (h : c.Stable V) (hin : ∀ r ∈ c.posting.registrations, has r.var) {slot : Slot}
    {delta : Delta} (htold : c.posting.Told V (delta.news slot)) :
    (c.propagator.incremental slot delta).Keeps V has fun _ => True := by
  cases c with
  | difference c => exact Difference.keeps_incremental h slot delta
  | strictBound c =>
    refine StrictBound.keeps_incremental h fun hslot v hv => ?_
    obtain ⟨⟨w, e, x⟩, rfl, rfl, ⟨r, hr, hvar, hl, -⟩, hconf⟩ := htold slot _ v ⟨rfl, hv⟩
    simp only [posting, StrictBound.posting, List.mem_cons, List.not_mem_nil, or_false] at hr
    rcases hr with rfl | rfl
    · cases hvar
      exact hconf
    · rw [hslot] at hl
      cases hl
  | atMostClosure c => exact AtMostClosure.keeps_fromScratch h (atMostClosure_listens hin)

theorem safe_fromScratch (hin : ∀ r ∈ c.posting.registrations, has r.var) :
    c.propagator.fromScratch.Safe c.operands has := by
  cases c with
  | difference c => exact c.safe_fromScratch
  | strictBound c => exact c.safe_fromScratch
  | atMostClosure c => exact c.safe_fromScratch (atMostClosure_listens hin)

/-- Only under a slot that is registered has a propagator to know what a delta is about. -/
theorem safe_incremental (hin : ∀ r ∈ c.posting.registrations, has r.var) {slot : Slot}
    (hslot : c.posting.Listens slot) (delta : Delta) : (c.propagator.incremental slot delta).Safe c.operands has := by
  cases c with
  | difference c => exact c.safe_incremental slot delta
  | strictBound c => exact StrictBound.safe_incremental hslot delta
  | atMostClosure c => exact c.safe_fromScratch (atMostClosure_listens hin)

end

private theorem resting_of_only {a : Action Unit} {P : Narrowing → Prop} (ha : a.Only P False)
    (h : a.run s false = ⟨t, resting, .ok ()⟩) : resting = true ↔ False := by
  have hfalse := Action.resting_run ha s false
  rw [h] at hfalse
  exact ⟨fun hr => Bool.noConfusion (hfalse.symm.trans hr), False.elim⟩

/-- Rest is asked for exactly where nothing can happen any more. -/
theorem resting_fromScratch (hs : s.domains.WellFormed)
    (h : c.propagator.fromScratch.run s false = ⟨t, resting, .ok ()⟩) : resting = true ↔ c.Inert t.domains.view := by
  cases c with
  | difference c => exact resting_of_only c.only_fromScratch h
  | strictBound c => exact StrictBound.resting_fromScratch hs h
  | atMostClosure c => exact resting_of_only c.only_fromScratch h

theorem resting_incremental (hs : s.domains.WellFormed) {slot : Slot} {delta : Delta}
    (h : (c.propagator.incremental slot delta).run s false = ⟨t, resting, .ok ()⟩) :
    resting = true ↔ c.Inert t.domains.view := by
  cases c with
  | difference c => exact resting_of_only (c.only_incremental slot delta) h
  | strictBound c => exact StrictBound.resting_incremental hs h
  | atMostClosure c => exact resting_of_only c.only_fromScratch h

section
variable {P : Narrowing → Prop} {new : List Change}

/-- After a successful call from scratch all is settled up to what it has changed itself. -/
theorem settles_fromScratch (hs : s.domains.WellFormed) (h : c.InScope s.domains)
    (hrun : c.propagator.fromScratch.run s false = ⟨t, resting, .ok ()⟩) (hnew : s.Narrowed P t new) :
    c.Settled t.domains.view (c.posting.news new) := by
  cases c with
  | difference c => exact Stable.settled (c := .difference c) (Difference.stable_of_fromScratch hs hrun) _
  | strictBound c => exact Stable.settled (c := .strictBound c) (StrictBound.stable_of_fromScratch hs hrun) _
  | atMostClosure c => exact AtMostClosure.settles_fromScratch hs (atMostClosure_listens h) hrun hnew

/-- A successful call about a delta deals with its news. -/
theorem settles_incremental (hs : s.domains.WellFormed) (h : c.InScope s.domains) {slot : Slot} {delta : Delta}
    {N : News} (hrun : (c.propagator.incremental slot delta).run s false = ⟨t, resting, .ok ()⟩)
    (hnew : s.Narrowed P t new) (hN : c.Settled s.domains.view fun l e v => delta.news slot l e v ∨ N l e v) :
    c.Settled t.domains.view fun l e v => N l e v ∨ c.posting.news new l e v := by
  cases c with
  | difference c =>
    exact Settled.mono (c := .difference c) (Difference.settled_of_incremental hs hrun hN) fun _ _ _ => .inl
  | strictBound c =>
    exact Settled.mono (c := .strictBound c) (StrictBound.settled_of_incremental hs hrun hN) fun _ _ _ => .inl
  | atMostClosure c => exact (settles_fromScratch (c := .atMostClosure c) hs h hrun hnew).mono fun _ _ _ => .inr

end

/-- A successful call from scratch leaves the rules stable, unless it disturbs them itself. -/
theorem stable_of_fromScratch (hc : c.Separate) (hs : s.domains.WellFormed) (h : c.InScope s.domains)
    (hrun : c.propagator.fromScratch.run s false = ⟨t, resting, .ok ()⟩) : c.Stable t.domains.view := by
  cases c with
  | difference c => exact Difference.stable_of_fromScratch hs hrun
  | strictBound c => exact StrictBound.stable_of_fromScratch hs hrun
  | atMostClosure c => exact AtMostClosure.stable_of_fromScratch hs (atMostClosure_listens h) hc hrun

/-- A successful call about a delta deals with its news, and brings no other, unless it disturbs the rules itself. -/
theorem settled_of_incremental (hc : c.Separate) (hs : s.domains.WellFormed) (h : c.InScope s.domains) {slot : Slot}
    {delta : Delta} {N : News} (hrun : (c.propagator.incremental slot delta).run s false = ⟨t, resting, .ok ()⟩)
    (hN : c.Settled s.domains.view fun l e v => delta.news slot l e v ∨ N l e v) : c.Settled t.domains.view N := by
  cases c with
  | difference c => exact Difference.settled_of_incremental hs hrun hN
  | strictBound c => exact StrictBound.settled_of_incremental hs hrun hN
  | atMostClosure c => exact (stable_of_fromScratch (c := .atMostClosure c) hc hs h hrun).settled N

/-- A call from scratch has no effect exactly if the rules are stable. -/
theorem quiet_fromScratch (hs : s.domains.WellFormed) (h : c.InScope s.domains) :
    c.propagator.fromScratch.Quiet s () ↔ c.Stable s.domains.view := by
  cases c with
  | difference c => exact Difference.quiet_fromScratch hs (difference_inScope h)
  | strictBound c => exact StrictBound.quiet_fromScratch hs (strictBound_inScope h)
  | atMostClosure c => exact AtMostClosure.quiet_fromScratch hs (atMostClosure_listens h)

/-! ### Solutions -/

/-- An assignment satisfies a constraint exactly if the rules are stable in its view. -/
theorem holds_iff (hc : c.Proper) (a : Assignment) : c.Holds a ↔ c.Stable a.view := by
  cases c with
  | difference c => exact c.holds_iff a
  | strictBound c => exact c.holds_iff a
  | atMostClosure c => exact c.holds_iff hc a

/-! ### Entailment -/

/-- The constraint cannot hold any more. -/
def Broken : Constraint → View → Prop
  | .difference c => c.Broken
  | .strictBound c => c.Broken
  | .atMostClosure c => c.Broken

/-- Unless it is broken, the constraint holds whatever is still open. -/
def Secure : Constraint → View → Prop
  | .difference c => c.Secure
  | .strictBound c => c.Inert
  | .atMostClosure c => c.Secure

/-- The entailment tells whether the constraint is broken, and if not, whether it is secure. -/
theorem exists_entailment {d : Domains} (hd : d.WellFormed) (h : ∀ w ∈ c.operands, d.Has w) :
    ∃ e, c.propagator.entailment d = .ok e ∧
      (e = .violated ↔ c.Broken d.view) ∧ (e = .satisfied ↔ ¬ c.Broken d.view ∧ c.Secure d.view) := by
  cases c with
  | difference c => exact Difference.exists_entailment hd h
  | strictBound c => exact StrictBound.exists_entailment hd h
  | atMostClosure c => exact AtMostClosure.exists_entailment hd h

/-- The rules are not stable at any view below one at which the constraint is broken. -/
theorem Broken.not_stable (h : c.Broken W) (hV : V ≤ W) : ¬ c.Stable V := by
  cases c with
  | difference c => exact Difference.Broken.not_stable h hV
  | strictBound c => exact StrictBound.Broken.not_stable h hV
  | atMostClosure c => exact AtMostClosure.Broken.not_stable h hV

/-- The rules are stable at any view below one at which the constraint is secure. -/
theorem Secure.stable (h : c.Secure W) (hb : ¬ c.Broken W) (hV : V ≤ W) : c.Stable V := by
  cases c with
  | difference c => exact Difference.Secure.stable h hb hV
  | strictBound c => exact (StrictBound.Inert.of_le h hV).stable
  | atMostClosure c => exact AtMostClosure.Secure.stable h hb hV

/-- Stable rules are secure once the sets are decided. -/
theorem Stable.secure (h : c.Stable V) (hdec : ∀ x, .set x ∈ c.operands → ∀ v, V.element x v ≠ .possible) :
    c.Secure V := by
  cases c with
  | difference c => exact hdec
  | strictBound c => exact StrictBound.Stable.inert h (hdec c.set (by simp [operands, StrictBound.operands]))
  | atMostClosure c => exact hdec

/-- Where the rules are stable a constraint is not found violated, and where all sets are decided as well it is found
satisfied. -/
theorem entailment_of_stable {d : Domains} (hd : d.WellFormed) (h : c.InScope d) (hst : c.Stable d.view) :
    ∃ e, c.propagator.entailment d = .ok e ∧ e ≠ .violated ∧
      ((∀ x v, d.Has (.set x) → d.view.element x v ≠ .possible) → e = .satisfied) := by
  have hhas := has_of_stable h hst
  obtain ⟨e, he, hviolated, hsatisfied⟩ := exists_entailment hd hhas
  have hno : ¬ c.Broken d.view := fun hb => hb.not_stable le_rfl hst
  exact ⟨e, he, fun heq => hno (hviolated.1 heq), fun hdec =>
    hsatisfied.2 ⟨hno, hst.secure fun x hx v => hdec x v (hhas _ hx)⟩⟩

end Constraint

end SetConstraints
