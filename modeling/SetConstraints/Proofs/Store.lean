import SetConstraints.Action
import SetConstraints.Proofs.View

/-!
# Stores under narrowing and going back

Whatever is done to a store between two moments without going back is a sequence of narrowings (`Store.Steps`).
Such a sequence makes the view smaller, accounts for every difference by the changes it leaves behind, and cannot
be told from below: going back to a level opened before gives the same store as it would have at the beginning
(`Steps.narrowed`).  A call of a propagator is such a sequence (`Action.steps_run`).
-/

namespace SetConstraints

namespace Trail

variable {α : Type}

private theorem undo_push {n : Nat} {t : Trail α} (h0 : 0 < n) (h : n ≤ t.depth) (a : α) :
    undo n (t.push a) = (a :: (undo n t).1, (undo n t).2) := by
  obtain ⟨recent, below⟩ := t
  cases n with
  | zero => omega
  | succ n =>
    cases below with
    | nil => simp [depth] at h
    | cons outer below => rfl

private theorem undo_add (m n : Nat) (t : Trail α) (h : m + n ≤ t.depth) :
    undo (m + n) t = ((undo m t).1 ++ (undo n (undo m t).2).1, (undo n (undo m t).2).2) := by
  fun_induction undo m t with
  | case1 t => simp
  | case2 m recent => simp [depth] at h
  | case3 m recent outer below older t hu ih =>
    rw [hu] at ih
    rw [show m + 1 + n = (m + n) + 1 by omega]
    simp only [undo, ih (by simp only [depth, List.length_cons] at h ⊢; omega), List.append_assoc]

theorem rewind_push {t : Trail α} {level : Nat} (h : level < t.depth) (a : α) :
    (t.push a).rewind level = (a :: (t.rewind level).1, (t.rewind level).2) :=
  undo_push (n := t.depth - level) (by omega) (Nat.sub_le _ _) a

@[simp] theorem rewind_depth (t : Trail α) : t.rewind t.depth = ([], t) := by
  simp [rewind, undo]

theorem rewind_mark {t : Trail α} {level : Nat} (h : level ≤ t.depth) : t.mark.rewind level = t.rewind level := by
  obtain ⟨recent, below⟩ := t
  simp only [rewind, depth_mark]
  rw [show (Trail.mk recent below).depth + 1 - level = ((Trail.mk recent below).depth - level) + 1 by omega]
  simp [mark, undo]

theorem depth_rewind (t : Trail α) {level : Nat} (h : level ≤ t.depth) : (t.rewind level).2.depth = level := by
  rw [rewind, depth_undo]
  omega

theorem rewind_rewind {t : Trail α} {l k : Nat} (hk : k ≤ l) (hl : l ≤ t.depth) :
    t.rewind k = ((t.rewind l).1 ++ ((t.rewind l).2.rewind k).1, ((t.rewind l).2.rewind k).2) := by
  have hd := depth_rewind t hl
  simp only [rewind] at hd ⊢
  rw [hd, show t.depth - k = (t.depth - l) + (l - k) by omega]
  exact undo_add _ _ t (by omega)

theorem entries_rewind (t : Trail α) (level : Nat) : (t.rewind level).1 ++ (t.rewind level).2.entries = t.entries :=
  undo_append _ t

end Trail

namespace Store

variable {s t u : Store} {level : Nat}

/-! ### Going back -/

@[simp] theorem depth_mark (s : Store) : s.mark.depth = s.depth + 1 := rfl

theorem depth_rewind (s : Store) (h : level ≤ s.depth) : (s.rewind level).depth = level := s.trail.depth_rewind h

theorem rewind_depth (s : Store) : s.rewind s.depth = { s with changes := #[] } := by
  simp [rewind, depth]

theorem rewind_mark (h : level ≤ s.depth) : s.mark.rewind level = s.rewind level := by
  simp only [rewind, mark, Trail.rewind_mark h]

theorem rewind_rewind {k l : Nat} (hk : k ≤ l) (hl : l ≤ s.depth) : (s.rewind l).rewind k = s.rewind k := by
  have h := s.trail.rewind_rewind hk hl
  simp only [rewind, h, List.foldl_append]

/-! ### Sequences of narrowings -/

/-- `t` comes from `s` by narrowings that satisfy `P`. -/
inductive Steps (P : Narrowing → Prop) : Store → Store → Prop
  | refl (s : Store) : Steps P s s
  | step {s t u : Store} {n : Narrowing} : P n → s.narrow n = .ok t → Steps P t u → Steps P s u

/-- What is the same, and what can still be taken back, after narrowings that satisfy `P`. -/
structure Narrower (P : Narrowing → Prop) (s t : Store) : Prop where
  wellFormed : t.domains.WellFormed
  le : t.domains.view ≤ s.domains.view
  depth_eq : t.depth = s.depth
  rewind_eq : ∀ level < s.depth, t.rewind level = s.rewind level
  has_undo : (∀ u ∈ s.trail.entries, s.domains.Has u.var) → ∀ u ∈ t.trail.entries, t.domains.Has u.var
  size_sets : t.domains.sets.size = s.domains.sets.size
  size_ints : t.domains.ints.size = s.domains.ints.size
  values_eq : ∀ x, (t.domains.sets.get? x).map SetDomain.values = (s.domains.sets.get? x).map SetDomain.values
  domain_eq : ∀ w, (∀ n, P n → w ≠ n.var) → t.domains.domain? w = s.domains.domain? w
  freedom_le : t.domains.freedom ≤ s.domains.freedom

/-- Such narrowings leave `new` behind, which accounts for all that they do. -/
structure Narrowed (P : Narrowing → Prop) (s t : Store) (new : List Change) : Prop extends Narrower P s t where
  changes_eq : t.changes.toList = s.changes.toList ++ new
  explained : s.domains.view.Explained t.domains.view new
  confirms : ∀ c ∈ new, t.domains.view.Confirms c
  about : ∀ c ∈ new, ∃ n, P n ∧ c.var = n.var ∧ c.value = n.value ∧
    ∀ s, c.var = .set s → c.event = .kernelGrew ∨ c.event = .envelopeShrank
  eq_of_nil : new = [] → t = s

theorem Narrower.refl {P : Narrowing → Prop} (hs : s.domains.WellFormed) : Narrower P s s where
  wellFormed := hs
  le := le_rfl
  depth_eq := rfl
  rewind_eq _ _ := rfl
  has_undo := id
  size_sets := rfl
  size_ints := rfl
  values_eq _ := rfl
  domain_eq _ _ := rfl
  freedom_le := le_rfl

theorem Narrower.trans {P : Narrowing → Prop} (h : Narrower P s t) (k : Narrower P t u) : Narrower P s u where
  wellFormed := k.wellFormed
  le := le_trans k.le h.le
  depth_eq := k.depth_eq.trans h.depth_eq
  rewind_eq level hl := (k.rewind_eq level (h.depth_eq ▸ hl)).trans (h.rewind_eq level hl)
  has_undo hu := k.has_undo (h.has_undo hu)
  size_sets := k.size_sets.trans h.size_sets
  size_ints := k.size_ints.trans h.size_ints
  values_eq x := (k.values_eq x).trans (h.values_eq x)
  domain_eq w hw := (k.domain_eq w hw).trans (h.domain_eq w hw)
  freedom_le := le_trans k.freedom_le h.freedom_le

theorem Narrower.imp {P Q : Narrowing → Prop} (h : Narrower P s t) (hPQ : ∀ n, P n → Q n) : Narrower Q s t :=
  { h with domain_eq := fun w hw => h.domain_eq w fun n hn => hw n (hPQ n hn) }

/-- Which changes are pending makes no difference. -/
theorem Narrower.of_changes {P : Narrowing → Prop} (h : Narrower P s t) (cs ds : Array Change) :
    Narrower P { s with changes := cs } { t with changes := ds } :=
  { h with }

theorem Narrower.has_iff {P : Narrowing → Prop} (h : Narrower P s t) (w : Var) : t.domains.Has w ↔ s.domains.Has w :=
  Domains.has_congr h.size_sets h.size_ints w

theorem Narrowed.refl {P : Narrowing → Prop} (hs : s.domains.WellFormed) : Narrowed P s s [] :=
  { Narrower.refl hs with
    changes_eq := by simp
    explained := .refl _ _
    confirms := by simp
    about := by simp
    eq_of_nil := fun _ => rfl }

theorem Narrowed.trans {P : Narrowing → Prop} {cs ds : List Change} (h : Narrowed P s t cs) (k : Narrowed P t u ds) :
    Narrowed P s u (cs ++ ds) :=
  { h.toNarrower.trans k.toNarrower with
    changes_eq := by rw [k.changes_eq, h.changes_eq, List.append_assoc]
    explained := h.explained.trans k.explained
    confirms := fun c hc => by
      rcases List.mem_append.1 hc with hc | hc
      · exact (h.confirms c hc).of_le k.le
      · exact k.confirms c hc
    about := fun c hc => (List.mem_append.1 hc).elim (h.about c) (k.about c)
    eq_of_nil := fun hnil => by
      rw [List.append_eq_nil_iff] at hnil
      exact (k.eq_of_nil hnil.2).trans (h.eq_of_nil hnil.1) }

/-- What is left behind is known from the pending changes. -/
theorem Narrowed.new_eq {P Q : Narrowing → Prop} {cs ds : List Change} (h : Narrowed P s t cs)
    (k : Narrowed Q s t ds) :
    cs = ds :=
  List.append_cancel_left (h.changes_eq.symm.trans k.changes_eq)

/-- An element that no narrowing is about is left alone. -/
theorem Narrowed.element_eq {P : Narrowing → Prop} {cs : List Change} {x : SetVar} {v : Int32}
    (h : Narrowed P s t cs) (hno : ∀ n, P n → ¬ (n.var = .set x ∧ n.value = v)) :
    t.domains.view.element x v = s.domains.view.element x v := by
  have htold : ∀ e, ⟨.set x, e, v⟩ ∉ cs := by
    intro e hc
    obtain ⟨n, hn, hvar, hval, -⟩ := h.about _ hc
    exact hno n hn ⟨hvar.symm, hval.symm⟩
  rcases h.explained.element x v with heq | ⟨-, hc⟩ | ⟨-, hc⟩
  · exact heq
  · exact absurd hc (htold _)
  · exact absurd hc (htold _)

/-- One narrowing: what has an effect is recorded and can be taken back. -/
theorem narrowed_of_narrow {P : Narrowing → Prop} {n : Narrowing} (hs : s.domains.WellFormed) (hn : P n)
    (h : s.narrow n = .ok t) : ∃ new, Narrowed P s t new := by
  unfold narrow at h
  split at h
  · cases h
  · cases h
    exact ⟨[], .refl hs⟩
  · rename_i e he
    cases h
    have heff := Domains.effective_of_narrow hs he
    refine ⟨e.changes,
      { wellFormed := heff.wellFormed
        le := heff.le
        changes_eq := by simp
        explained := heff.explained
        confirms := heff.confirms
        about := fun c hc => ⟨n, hn, heff.about c hc⟩
        eq_of_nil := fun hnil => absurd hnil heff.changes_ne_nil
        depth_eq := rfl
        rewind_eq := fun level hl => ?_
        has_undo := fun hu u hmem => ?_
        size_sets := heff.size_sets
        size_ints := heff.size_ints
        values_eq := heff.values_eq
        domain_eq := fun w hw => heff.domain_eq w (hw n hn)
        freedom_le := Nat.le_of_lt (Domains.freedom_of_narrow he) }⟩
    · simp only [rewind, Trail.rewind_push hl, List.foldl_cons, heff.takeBack_eq]
    · refine (Domains.has_congr heff.size_sets heff.size_ints _).2 ?_
      rw [Trail.entries_push, List.mem_cons] at hmem
      rcases hmem with rfl | hmem
      · exact heff.undo_var ▸ Domains.has_of_narrow hs he
      · exact hu u hmem

theorem Steps.narrowed {P : Narrowing → Prop} (h : Steps P s t) (hs : s.domains.WellFormed) :
    ∃ new, Narrowed P s t new := by
  induction h with
  | refl s => exact ⟨[], .refl hs⟩
  | step hn hnarrow _ ih =>
    obtain ⟨cs, hcs⟩ := narrowed_of_narrow hs hn hnarrow
    obtain ⟨ds, hds⟩ := ih hcs.wellFormed
    exact ⟨cs ++ ds, hcs.trans hds⟩

/-- A fact that every narrowing keeps in reverse holds before a sequence of them if it holds after. -/
private theorem Steps.of_effective {P : Narrowing → Prop} {Q : Domains → Prop} (h : Steps P s t)
    (hs : s.domains.WellFormed)
    (hQ : ∀ (d : Domains) n e, P n → d.Effective n e → Q e.domains → Q d) (ht : Q t.domains) : Q s.domains := by
  induction h with
  | refl s => exact ht
  | @step s u t n hn hnarrow _ ih =>
    obtain ⟨cs, hcs⟩ := narrowed_of_narrow hs hn hnarrow
    have hu := ih hcs.wellFormed ht
    unfold narrow at hnarrow
    split at hnarrow
    · cases hnarrow
    · cases hnarrow
      exact hu
    · rename_i e he
      cases hnarrow
      exact hQ _ n e hn (Domains.effective_of_narrow hs he) hu

/-- Narrowings that do not require an element leave it uncertain. -/
theorem Steps.required {P : Narrowing → Prop} {x : SetVar} {v : Int32} (h : Steps P s t) (hs : s.domains.WellFormed)
    (hP : ∀ n, P n → n ≠ .require x v) (ht : t.domains.view.element x v = .required) :
    s.domains.view.element x v = .required :=
  h.of_effective (Q := fun d => d.view.element x v = .required) hs (fun _ n _ hn heff => heff.required (hP n hn)) ht

/-- Narrowings that do not lower the largest bound of an integer leave it alone. -/
theorem Steps.high_eq {P : Narrowing → Prop} {x : IntVar} (h : Steps P s t) (hs : s.domains.WellFormed)
    (hP : ∀ n, P n → ∀ w, n ≠ .atMost x w) : t.domains.view.high x = s.domains.view.high x :=
  h.of_effective (Q := fun d => t.domains.view.high x = d.view.high x) hs
    (fun _ n _ hn heff heq => heq.trans (heff.high_eq (hP n hn))) rfl

end Store

/-! ### Calls of propagators -/

namespace Action

variable {α β : Type} {P : Narrowing → Prop} {R : Prop}

/-- Every narrowing that an action may perform satisfies `P`, and rest is asked for only if `R` holds. -/
def Only (P : Narrowing → Prop) (R : Prop) : Action α → Prop
  | done _ => True
  | look next => ∀ d, (next d).Only P R
  | narrow n next => P n ∧ next.Only P R
  | rest next => R ∧ next.Only P R
  | stop _ => True

theorem Only.bind {a : Action α} {f : α → Action β} (ha : a.Only P R) (hf : ∀ x, (f x).Only P R) :
    (a.bind f).Only P R := by
  induction a with
  | done x => exact hf x
  | look next ih => exact fun d => ih d (ha d)
  | narrow n next ih => exact ⟨ha.1, ih ha.2⟩
  | rest next ih => exact ⟨ha.1, ih ha.2⟩
  | stop why => trivial

theorem Only.forM {l : List α} {f : α → Action Unit} (hf : ∀ x ∈ l, (f x).Only P R) : (l.forM f).Only P R := by
  induction l with
  | nil => trivial
  | cons x l ih => exact (hf x (by simp)).bind fun _ => ih fun y hy => hf y (by simp [hy])

theorem Only.imp {Q : Narrowing → Prop} {R' : Prop} {a : Action α} (ha : a.Only P R) (hP : ∀ n, P n → Q n)
    (hR : R → R') : a.Only Q R' := by
  induction a with
  | done x => trivial
  | look next ih => exact fun d => ih d (ha d)
  | narrow n next ih => exact ⟨hP n ha.1, ih ha.2⟩
  | rest next ih => exact ⟨hR ha.1, ih ha.2⟩
  | stop why => trivial

theorem only_lift (r : Except Fault α) : (lift r).Only P R := by
  cases r <;> trivial

theorem only_set (s : SetVar) : (set s).Only P R := fun _ => only_lift _

theorem only_int (x : IntVar) : (int x).Only P R := fun _ => only_lift _

theorem only_true (a : Action α) : a.Only (fun _ => True) True := by
  induction a with
  | done x => trivial
  | look next ih => exact ih
  | narrow n next ih => exact ⟨trivial, ih⟩
  | rest next ih => exact ⟨trivial, ih⟩
  | stop why => trivial

theorem steps_run {a : Action α} (ha : a.Only P R) (s : Store) (resting : Bool) :
    s.Steps P (a.run s resting).store := by
  induction a generalizing s resting with
  | done x => exact .refl s
  | look next ih => exact ih s.domains (ha _) s resting
  | narrow n next ih =>
    simp only [run]
    split
    · exact .refl s
    · rename_i t h
      exact .step ha.1 h (ih ha.2 t resting)
  | rest next ih => exact ih ha.2 s true
  | stop why => exact .refl s

/-- An action that never asks for rest leaves this as it was. -/
theorem resting_run {a : Action α} (ha : a.Only P False) (s : Store) (resting : Bool) :
    (a.run s resting).resting = resting := by
  induction a generalizing s resting with
  | done x => rfl
  | look next ih => exact ih s.domains (ha _) s resting
  | narrow n next ih =>
    simp only [run]
    split
    · rfl
    · exact ih ha.2 _ resting
  | rest next ih => exact ha.1.elim
  | stop why => rfl

end Action

end SetConstraints
