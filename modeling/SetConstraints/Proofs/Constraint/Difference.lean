import SetConstraints.Constraint.Difference
import SetConstraints.Proofs.Assignment
import SetConstraints.Proofs.News

/-!
# The rules for the difference of two sets

The rules are stable at an element if none of them has an effect on it.  A call concerns each element on its own: it
leaves the rules stable there (`Difference.stable_of_fromScratch`), and it loses nothing that is stable
(`Difference.keeps_filter`).
-/

namespace SetConstraints

namespace Difference

/-- None of the five rules has an effect on an element. -/
structure StableAt (c : Difference) (V : View) (v : Int32) : Prop where
  of_required : V.element c.difference v = .required →
    V.element c.minuend v = .required ∧ V.element c.subtrahend v = .excluded
  excluded : V.element c.subtrahend v = .required ∨ V.element c.minuend v = .excluded →
    V.element c.difference v = .excluded
  required : V.element c.minuend v = .required → V.element c.subtrahend v = .excluded →
    V.element c.difference v = .required
  minuend_excluded : V.element c.difference v = .excluded → V.element c.subtrahend v = .excluded →
    V.element c.minuend v = .excluded
  subtrahend_required : V.element c.difference v = .excluded → V.element c.minuend v = .required →
    V.element c.subtrahend v = .required

/-- The rules are stable at every element. -/
def Stable (c : Difference) (V : View) : Prop := ∀ v, c.StableAt V v

/-- Every element at which the rules are not stable is in the news. -/
def Settled (c : Difference) (V : View) (news : News) : Prop := ∀ v, c.StableAt V v ∨ ∃ l e, news l e v

/-- The variables of the constraint. -/
def operands (c : Difference) : List Var := [.set c.minuend, .set c.subtrahend, .set c.difference]

variable {c : Difference} {V : View} {v : Int32} {s : Store}

/-! ### The rules one by one -/

/-- An element certain in the subtrahend, or impossible in the minuend, is not in the difference. -/
private def excludeDifference (c : Difference) (v : Int32) : Action Unit := do
  if (← Action.set c.subtrahend).requires v || !(← Action.set c.minuend).allows v then
    Action.exclude c.difference v

/-- An element certain in the minuend and impossible in the subtrahend is in the difference. -/
private def requireDifference (c : Difference) (v : Int32) : Action Unit := do
  if (← Action.set c.minuend).requires v && !(← Action.set c.subtrahend).allows v then
    Action.require c.difference v

/-- An element impossible in the subtrahend is not in the minuend either. -/
private def excludeMinuend (c : Difference) (v : Int32) : Action Unit := do
  if !(← Action.set c.subtrahend).allows v then Action.exclude c.minuend v

/-- An element certain in the minuend is in the subtrahend. -/
private def requireSubtrahend (c : Difference) (v : Int32) : Action Unit := do
  if (← Action.set c.minuend).requires v then Action.require c.subtrahend v

private theorem filter_eq (c : Difference) (v : Int32) :
    c.filter v = (Action.set c.difference).bind fun e =>
      if e.requires v = true then (Action.require c.minuend v).bind fun _ => Action.exclude c.subtrahend v
      else (c.excludeDifference v).bind fun _ => (c.requireDifference v).bind fun _ =>
        (Action.set c.difference).bind fun e =>
          if (!e.allows v) = true then (c.excludeMinuend v).bind fun _ => c.requireSubtrahend v
          else .done () := by
  simp only [filter, excludeDifference, requireDifference, excludeMinuend, requireSubtrahend, Action.bind_eq,
    Action.pure_eq, Action.bind_assoc, Action.ite_bind, Action.done_bind]

/-! ### Quiet calls -/

private theorem stableAt_iff : c.StableAt V v ↔
    (V.element c.difference v = .required →
      V.element c.minuend v = .required ∧ V.element c.subtrahend v = .excluded) ∧
    (V.element c.subtrahend v = .required ∨ V.element c.minuend v = .excluded →
      V.element c.difference v = .excluded) ∧
    (V.element c.minuend v = .required → V.element c.subtrahend v = .excluded →
      V.element c.difference v = .required) ∧
    (V.element c.difference v = .excluded → V.element c.subtrahend v = .excluded →
      V.element c.minuend v = .excluded) ∧
    (V.element c.difference v = .excluded → V.element c.minuend v = .required →
      V.element c.subtrahend v = .required) :=
  ⟨fun ⟨h1, h2, h3, h4, h5⟩ => ⟨h1, h2, h3, h4, h5⟩, fun ⟨h1, h2, h3, h4, h5⟩ => ⟨h1, h2, h3, h4, h5⟩⟩

/-- The operands exist. -/
def InScope (c : Difference) (d : Domains) : Prop := ∀ w ∈ c.operands, d.Has w

private theorem get?_of_inScope {d : Domains} (h : c.InScope d) :
    (∃ a, d.sets.get? c.minuend = some a) ∧ (∃ b, d.sets.get? c.subtrahend = some b) ∧
      ∃ e, d.sets.get? c.difference = some e :=
  ⟨Option.isSome_iff_exists.1 (h (.set c.minuend) (by simp [operands])),
    Option.isSome_iff_exists.1 (h (.set c.subtrahend) (by simp [operands])),
    Option.isSome_iff_exists.1 (h (.set c.difference) (by simp [operands]))⟩

/-- The rules have no effect on an element exactly if they are stable at it. -/
theorem quiet_filter (hs : s.domains.WellFormed) (h : c.InScope s.domains) :
    (c.filter v).Quiet s () ↔ c.StableAt s.domains.view v := by
  obtain ⟨⟨a, ha⟩, ⟨b, hb⟩, ⟨e, he⟩⟩ := get?_of_inScope h
  have hrequire : ∀ x, s.domains.Has (.set x) →
      ((Action.require x v).Quiet s () ↔ s.domains.view.element x v = .required) := fun x hx =>
    (Action.quiet_narrow hs).trans (and_iff_left hx)
  have hexclude : ∀ x, s.domains.Has (.set x) →
      ((Action.exclude x v).Quiet s () ↔ s.domains.view.element x v = .excluded) := fun x hx =>
    (Action.quiet_narrow hs).trans (and_iff_left hx)
  have hha : s.domains.Has (.set c.minuend) := h _ (by simp [operands])
  have hhb : s.domains.Has (.set c.subtrahend) := h _ (by simp [operands])
  have hhe : s.domains.Has (.set c.difference) := h _ (by simp [operands])
  have hreq : ∀ x d, s.domains.sets.get? x = some d →
      (d.requires v = true ↔ s.domains.view.element x v = .required) :=
    fun x d hd => by rw [SetDomain.requires_iff, Domains.membership_eq hd]
  have hall : ∀ x d, s.domains.sets.get? x = some d → (d.allows v = true ↔ s.domains.view.element x v ≠ .excluded) :=
    fun x d hd => by rw [SetDomain.allows_iff, Domains.membership_eq hd]
  simp only [filter_eq, excludeDifference, requireDifference, excludeMinuend, requireSubtrahend, Action.bind_eq,
    Action.pure_eq, Action.quiet_set_bind hs ha, Action.quiet_set_bind hs hb, Action.quiet_set_bind hs he,
    Action.quiet_bind_unit hs, Action.quiet_ite, Action.quiet_done, hrequire _ hha, hrequire _ hhb, hrequire _ hhe,
    hexclude _ hha, hexclude _ hhb, hexclude _ hhe, Bool.or_eq_true, Bool.and_eq_true, Bool.not_eq_true',
    ← Bool.not_eq_true, hreq _ _ ha, hreq _ _ hb, hreq _ _ he, hall _ _ ha, hall _ _ hb, hall _ _ he]
  rw [stableAt_iff]
  generalize s.domains.view.element c.minuend v = m
  generalize s.domains.view.element c.subtrahend v = n
  generalize s.domains.view.element c.difference v = k
  cases m <;> cases n <;> cases k <;> simp

private theorem StableAt.of_agree {W : View} (h : c.StableAt V v) (hag : ∀ w ∈ c.operands, V.Agree W w) :
    c.StableAt W v := by
  have ha : V.element c.minuend v = W.element c.minuend v := hag (.set c.minuend) (by simp [operands]) v
  have hb : V.element c.subtrahend v = W.element c.subtrahend v := hag (.set c.subtrahend) (by simp [operands]) v
  have he : V.element c.difference v = W.element c.difference v := hag (.set c.difference) (by simp [operands]) v
  rw [stableAt_iff] at h ⊢
  rwa [← ha, ← hb, ← he]

/-- Only the operands matter. -/
theorem Settled.of_agree {W : View} {N : News} (h : c.Settled V N) (hag : ∀ w ∈ c.operands, V.Agree W w) :
    c.Settled W N :=
  fun v => (h v).imp_left fun hv => hv.of_agree hag

/-! ### What calls do -/

theorem only_filter (c : Difference) (v : Int32) :
    (c.filter v).Only (fun n => n.var ∈ c.operands ∧ n.value = v) False := by
  have hA : (Narrowing.var (.require c.minuend v)) ∈ c.operands := by simp [Narrowing.var, operands]
  have hB : (Narrowing.var (.require c.subtrahend v)) ∈ c.operands := by simp [Narrowing.var, operands]
  have hC : (Narrowing.var (.require c.difference v)) ∈ c.operands := by simp [Narrowing.var, operands]
  have hset : ∀ x, (Action.set x).Only (fun n => n.var ∈ c.operands ∧ n.value = v) False := Action.only_set
  rw [filter_eq]
  refine (hset _).bind fun e => ?_
  split
  · exact Action.Only.bind ⟨⟨hA, rfl⟩, trivial⟩ fun _ => ⟨⟨hB, rfl⟩, trivial⟩
  · refine Action.Only.bind ?_ fun _ => Action.Only.bind ?_ fun _ => (hset _).bind fun e => ?_
    · refine (hset _).bind fun _ => (hset _).bind fun _ => ?_
      split
      · exact ⟨⟨hC, rfl⟩, trivial⟩
      · trivial
    · refine (hset _).bind fun _ => (hset _).bind fun _ => ?_
      split
      · exact ⟨⟨hC, rfl⟩, trivial⟩
      · trivial
    · split
      · refine Action.Only.bind ?_ fun _ => ?_
        · refine (hset _).bind fun _ => ?_
          split
          · exact ⟨⟨hA, rfl⟩, trivial⟩
          · trivial
        · refine (hset _).bind fun _ => ?_
          split
          · exact ⟨⟨hB, rfl⟩, trivial⟩
          · trivial
      · trivial

/-- A view at which the rules are stable is not lost. -/
theorem keeps_filter {has : Var → Prop} (h : c.StableAt V v) :
    (c.filter v).Keeps V has fun _ => True := by
  have hdone : (Action.done () : Action Unit).Keeps V has fun _ => True := Action.within_done trivial
  rw [filter_eq]
  refine Action.keeps_set.bind fun e he => Action.within_ite (fun hr => ?_) fun hr => ?_
  · have := h.of_required (he.required hr)
    exact (Action.keeps_narrow (n := .require c.minuend v) this.1).bind fun _ _ =>
      Action.keeps_narrow (n := .exclude c.subtrahend v) this.2
  · refine Action.Within.bind (Q := fun _ => True) ?_ fun _ _ => Action.Within.bind (Q := fun _ => True) ?_ fun _ _ =>
      Action.keeps_set.bind fun e he => Action.within_ite (fun hr => ?_) fun _ => hdone
    · refine Action.keeps_set.bind fun b hb => Action.keeps_set.bind fun a ha =>
        Action.within_ite (fun hr => Action.keeps_narrow ?_) fun _ => hdone
      rw [Bool.or_eq_true, Bool.not_eq_true'] at hr
      exact h.excluded (hr.imp hb.required ha.excluded)
    · refine Action.keeps_set.bind fun a ha => Action.keeps_set.bind fun b hb =>
        Action.within_ite (fun hr => Action.keeps_narrow ?_) fun _ => hdone
      rw [Bool.and_eq_true, Bool.not_eq_true'] at hr
      exact h.required (ha.required hr.1) (hb.excluded hr.2)
    · have hex := he.excluded (by simpa using hr)
      refine Action.Within.bind (Q := fun _ => True) ?_ fun _ _ => ?_
      · exact Action.keeps_set.bind fun b hb =>
          Action.within_ite (fun hr => Action.keeps_narrow (h.minuend_excluded hex (hb.excluded (by simpa using hr))))
            fun _ => hdone
      · exact Action.keeps_set.bind fun a ha =>
          Action.within_ite (fun hr => Action.keeps_narrow (h.subtrahend_required hex (ha.required hr)))
            fun _ => hdone

/-! ### How calls leave the elements -/

private theorem hears_operand (c : Difference) {x : SetVar} (hx : .set x ∈ c.operands) {e : Event}
    (he : EventSet.anySet.contains e = true) (v : Int32) : ∃ l, c.posting.Hears ⟨.set x, e, v⟩ l := by
  simp only [operands, List.mem_cons, Var.set.injEq, List.not_mem_nil, or_false] at hx
  rcases hx with rfl | rfl | rfl
  · exact ⟨⟨0⟩, ⟨.set c.minuend, .anySet, ⟨0⟩⟩, by simp [posting], rfl, rfl, he⟩
  · exact ⟨⟨1⟩, ⟨.set c.subtrahend, .anySet, ⟨1⟩⟩, by simp [posting], rfl, rfl, he⟩
  · exact ⟨⟨2⟩, ⟨.set c.difference, .anySet, ⟨2⟩⟩, by simp [posting], rfl, rfl, he⟩

/-- A change of an operand at an element is news about the element. -/
private theorem news_of_explained {W : View} {cs : List Change} (h : V.Explained W cs) {x : SetVar}
    (hx : .set x ∈ c.operands) (v : Int32) :
    W.element x v = V.element x v ∨ ∃ l e, c.posting.news cs l e v := by
  rcases h.element x v with h | ⟨-, hc⟩ | ⟨-, hc⟩
  · exact .inl h
  · obtain ⟨l, hl⟩ := c.hears_operand hx (e := .kernelGrew) rfl v
    exact .inr ⟨l, _, _, hc, rfl, rfl, hl⟩
  · obtain ⟨l, hl⟩ := c.hears_operand hx (e := .envelopeShrank) rfl v
    exact .inr ⟨l, _, _, hc, rfl, rfl, hl⟩

private theorem StableAt.of_explained {W : View} {cs : List Change} (h : c.StableAt V v) (hex : V.Explained W cs) :
    c.StableAt W v ∨ ∃ l e, c.posting.news cs l e v := by
  rcases news_of_explained hex (c := c) (x := c.minuend) (by simp [operands]) v with ha | hn
  · rcases news_of_explained hex (c := c) (x := c.subtrahend) (by simp [operands]) v with hb | hn
    · rcases news_of_explained hex (c := c) (x := c.difference) (by simp [operands]) v with he | hn
      · left
        rw [stableAt_iff] at h ⊢
        rwa [ha, hb, he]
      · exact .inr hn
    · exact .inr hn
  · exact .inr hn

theorem Settled.of_explained {W : View} {N : News} {cs : List Change} (h : c.Settled V N) (hex : V.Explained W cs) :
    c.Settled W fun l e v => N l e v ∨ c.posting.news cs l e v := by
  intro v
  rcases h v with h | ⟨l, e, h⟩
  · exact (h.of_explained hex).imp_right fun ⟨l, e, h⟩ => ⟨l, e, .inr h⟩
  · exact .inr ⟨l, e, .inl h⟩

/-- A rule that decides the element in one operand if a condition holds, and does nothing else. -/
private structure Applies (p : Prop) (x : SetVar) (m : Membership) (v : Int32) (V W : View) : Prop where
  le : W ≤ V
  decided : p → W.element x v = m
  element_eq : ∀ y, W.element y v = V.element y v ∨ p ∧ y = x

/-- A rule in the form of a guarded narrowing applies if its condition holds. -/
private theorem applies_of_run {p : Prop} [Decidable p] {n : Narrowing} {x : SetVar} {m : Membership}
    (hn : ∀ V : View, V.Accepts n ↔ V.element x v = m) (hx : n.var = .set x) (hs : s.domains.WellFormed) {t : Store}
    {r r' : Bool} (hrun : (if p then Action.narrow n (.done ()) else .done ()).run s r = ⟨t, r', .ok ()⟩) :
    t.domains.WellFormed ∧ Applies p x m v s.domains.view t.domains.view := by
  by_cases hp : p
  · rw [if_pos hp] at hrun
    obtain ⟨new, hnew⟩ :=
      Action.narrowed_run (P := (· = n)) (R := False) (a := .narrow n (.done ())) ⟨rfl, trivial⟩ hs r
    rw [hrun] at hnew
    refine ⟨hnew.wellFormed, hnew.le, fun _ => (hn _).1 (Action.accepts_of_run hs hrun), fun y => ?_⟩
    by_cases hy : y = x
    · exact .inr ⟨hp, hy⟩
    · refine .inl (hnew.element_eq ?_)
      rintro _ rfl ⟨hvar, -⟩
      exact hy (Var.set.inj (hvar.symm.trans hx))
  · rw [if_neg hp] at hrun
    cases hrun
    exact ⟨hs, le_rfl, fun h => absurd h hp, fun y => .inl rfl⟩

private theorem required_iff {d : Domains} {x : SetVar} {e : SetDomain} (h : d.sets.get? x = some e) :
    e.requires v = true ↔ d.view.element x v = .required := by
  rw [SetDomain.requires_iff, Domains.membership_eq h]

private theorem excluded_iff {d : Domains} {x : SetVar} {e : SetDomain} (h : d.sets.get? x = some e) :
    e.allows v = false ↔ d.view.element x v = .excluded := by
  rw [← Bool.not_eq_true, SetDomain.allows_iff, not_not, Domains.membership_eq h]

section
variable {t : Store} {r r' : Bool}

private theorem applies_excludeDifference (hs : s.domains.WellFormed)
    (h : (c.excludeDifference v).run s r = ⟨t, r', .ok ()⟩) :
    t.domains.WellFormed ∧ Applies (s.domains.view.element c.subtrahend v = .required ∨
      s.domains.view.element c.minuend v = .excluded) c.difference .excluded v s.domains.view t.domains.view := by
  obtain ⟨u, q, b, h1, h2⟩ := Action.run_bind_ok h
  obtain ⟨rfl, rfl, hb⟩ := Action.run_set_ok h1
  obtain ⟨u, q, a, h3, h4⟩ := Action.run_bind_ok h2
  obtain ⟨rfl, rfl, ha⟩ := Action.run_set_ok h3
  rw [← required_iff hb, ← excluded_iff ha, ← Bool.not_eq_true', ← Bool.or_eq_true]
  exact applies_of_run (n := .exclude c.difference v) (fun _ => Iff.rfl) rfl hs h4

private theorem applies_requireDifference (hs : s.domains.WellFormed)
    (h : (c.requireDifference v).run s r = ⟨t, r', .ok ()⟩) :
    t.domains.WellFormed ∧ Applies (s.domains.view.element c.minuend v = .required ∧
      s.domains.view.element c.subtrahend v = .excluded) c.difference .required v s.domains.view t.domains.view := by
  obtain ⟨u, q, a, h1, h2⟩ := Action.run_bind_ok h
  obtain ⟨rfl, rfl, ha⟩ := Action.run_set_ok h1
  obtain ⟨u, q, b, h3, h4⟩ := Action.run_bind_ok h2
  obtain ⟨rfl, rfl, hb⟩ := Action.run_set_ok h3
  rw [← required_iff ha, ← excluded_iff hb, ← Bool.not_eq_true', ← Bool.and_eq_true]
  exact applies_of_run (n := .require c.difference v) (fun _ => Iff.rfl) rfl hs h4

private theorem applies_excludeMinuend (hs : s.domains.WellFormed)
    (h : (c.excludeMinuend v).run s r = ⟨t, r', .ok ()⟩) :
    t.domains.WellFormed ∧ Applies (s.domains.view.element c.subtrahend v = .excluded) c.minuend .excluded v
      s.domains.view t.domains.view := by
  obtain ⟨u, q, b, h1, h2⟩ := Action.run_bind_ok h
  obtain ⟨rfl, rfl, hb⟩ := Action.run_set_ok h1
  rw [← excluded_iff hb, ← Bool.not_eq_true']
  exact applies_of_run (n := .exclude c.minuend v) (fun _ => Iff.rfl) rfl hs h2

private theorem applies_requireSubtrahend (hs : s.domains.WellFormed)
    (h : (c.requireSubtrahend v).run s r = ⟨t, r', .ok ()⟩) :
    t.domains.WellFormed ∧ Applies (s.domains.view.element c.minuend v = .required) c.subtrahend .required v
      s.domains.view t.domains.view := by
  obtain ⟨u, q, a, h1, h2⟩ := Action.run_bind_ok h
  obtain ⟨rfl, rfl, ha⟩ := Action.run_set_ok h1
  rw [← required_iff ha]
  exact applies_of_run (n := .require c.subtrahend v) (fun _ => Iff.rfl) rfl hs h2

/-- An element that the difference may still have is stable after the rules that decide it there. -/
private theorem stableAt_of_allowed {V₀ V₁ V₂ : View} (hopen : V₀.element c.difference v ≠ .required)
    (h₁ : Applies (V₀.element c.subtrahend v = .required ∨ V₀.element c.minuend v = .excluded) c.difference .excluded
      v V₀ V₁)
    (h₂ : Applies (V₁.element c.minuend v = .required ∧ V₁.element c.subtrahend v = .excluded) c.difference .required
      v V₁ V₂)
    (hall : V₂.element c.difference v ≠ .excluded) : c.StableAt V₂ v := by
  have hlost : ¬ (V₀.element c.subtrahend v = .required ∨ V₀.element c.minuend v = .excluded) := fun h =>
    hall (View.excluded_of_le h₂.le (h₁.decided h))
  have hsame : ∀ y, V₁.element y v = V₀.element y v := fun y => (h₁.element_eq y).resolve_right fun h => hlost h.1
  have hle : ∀ y, V₁.element y v = .possible ∨ V₂.element y v = V₁.element y v := fun y => h₂.le.element y v
  by_cases hp : V₁.element c.minuend v = .required ∧ V₁.element c.subtrahend v = .excluded
  · have := h₂.decided hp
    have := hle c.minuend
    have := hle c.subtrahend
    rw [stableAt_iff]
    grind
  · have hsame₂ : ∀ y, V₂.element y v = V₀.element y v := fun y =>
      ((h₂.element_eq y).resolve_right fun h => hp h.1).trans (hsame y)
    simp only [hsame] at hp
    simp only [hsame₂, stableAt_iff] at hall ⊢
    grind

/-- An element that the difference cannot have is stable after the rules that decide it in the other two. -/
private theorem stableAt_of_excluded {V₀ V₁ V₂ : View} (hex : V₀.element c.difference v = .excluded)
    (h₁ : Applies (V₀.element c.subtrahend v = .excluded) c.minuend .excluded v V₀ V₁)
    (h₂ : Applies (V₁.element c.minuend v = .required) c.subtrahend .required v V₁ V₂) : c.StableAt V₂ v := by
  have hdiff : V₂.element c.difference v = .excluded := View.excluded_of_le (h₂.le.trans h₁.le) hex
  have hm := h₂.element_eq c.minuend
  have hn := h₁.element_eq c.subtrahend
  have hm' := h₂.le.element c.minuend v
  have hn' := h₂.element_eq c.subtrahend
  have := h₁.decided
  have := h₂.decided
  rw [stableAt_iff]
  grind

/-- One pass over the rules is enough, also where two operands are the same variable: what a later rule decides does
not call for an earlier one. -/
private theorem stableAt_of_filter (hs : s.domains.WellFormed) (h : (c.filter v).run s r = ⟨t, r', .ok ()⟩) :
    c.StableAt t.domains.view v := by
  obtain ⟨u, q, e, h1, h2⟩ := Action.run_bind_ok (c.filter_eq v ▸ h)
  obtain ⟨rfl, rfl, he⟩ := Action.run_set_ok h1
  by_cases hreq : e.requires v = true
  · rw [if_pos hreq] at h2
    obtain ⟨u', q', ⟨⟩, h3, h4⟩ := Action.run_bind_ok h2
    obtain ⟨cs, hcs⟩ := Action.narrowed_run (Action.only_true (Action.require c.minuend v)) hs q
    rw [h3] at hcs
    obtain ⟨ds, hds⟩ := Action.narrowed_run (Action.only_true (Action.exclude c.subtrahend v)) hcs.wellFormed q'
    rw [h4] at hds
    have hk := View.required_of_le (hds.le.trans hcs.le) ((required_iff he).1 hreq)
    have hm := View.required_of_le hds.le (Action.accepts_of_run (n := .require c.minuend v) hs h3)
    have hn : t.domains.view.element c.subtrahend v = .excluded :=
      Action.accepts_of_run (n := .exclude c.subtrahend v) hcs.wellFormed h4
    rw [stableAt_iff, hk, hm, hn]
    simp
  · rw [if_neg hreq] at h2
    rw [required_iff he] at hreq
    obtain ⟨s₁, q₁, ⟨⟩, h3, h4⟩ := Action.run_bind_ok h2
    obtain ⟨hs₁, ha₁⟩ := applies_excludeDifference hs h3
    obtain ⟨s₂, q₂, ⟨⟩, h5, h6⟩ := Action.run_bind_ok h4
    obtain ⟨hs₂, ha₂⟩ := applies_requireDifference hs₁ h5
    obtain ⟨u, q, e₂, h7, h8⟩ := Action.run_bind_ok h6
    obtain ⟨rfl, rfl, he₂⟩ := Action.run_set_ok h7
    by_cases hall : (!e₂.allows v) = true
    · rw [if_pos hall] at h8
      obtain ⟨s₃, q₃, ⟨⟩, h9, h10⟩ := Action.run_bind_ok h8
      obtain ⟨hs₃, ha₃⟩ := applies_excludeMinuend hs₂ h9
      rw [Bool.not_eq_true', excluded_iff he₂] at hall
      exact stableAt_of_excluded hall ha₃ (applies_requireSubtrahend hs₃ h10).2
    · rw [if_neg hall] at h8
      cases h8
      rw [Bool.not_eq_true', excluded_iff he₂] at hall
      exact stableAt_of_allowed hreq ha₁ ha₂ hall

/-- A pass over one element leaves the others alone. -/
private theorem element_eq_of_filter {x : SetVar} {w : Int32} (hs : s.domains.WellFormed) (hw : w ≠ v)
    (h : (c.filter v).run s r = ⟨t, r', .ok ()⟩) : t.domains.view.element x w = s.domains.view.element x w := by
  obtain ⟨new, hnew⟩ := Action.narrowed_run (c.only_filter v) hs r
  rw [h] at hnew
  exact hnew.element_eq fun n hn ⟨_, hval⟩ => hw (hval.symm.trans hn.2)

/-- Rules that are stable at an element stay so while other elements are dealt with. -/
private theorem StableAt.of_eq {W : View} (h : c.StableAt V v) (heq : ∀ x, W.element x v = V.element x v) :
    c.StableAt W v := by
  rw [stableAt_iff] at h ⊢
  rwa [heq, heq, heq]

/-- Passes over some elements leave the rules stable at these, and at all others at which they were. -/
private theorem stableAt_of_forM (hs : s.domains.WellFormed) {vs : List Int32}
    (h : (vs.forM c.filter).run s r = ⟨t, r', .ok ()⟩) :
    ∀ v, v ∈ vs ∨ c.StableAt s.domains.view v → c.StableAt t.domains.view v := by
  induction vs generalizing s r with
  | nil =>
    cases h
    exact fun v hv => hv.resolve_left (by simp)
  | cons w vs ih =>
    obtain ⟨u, q, ⟨⟩, h1, h2⟩ := Action.run_bind_ok h
    have hu : u.domains.WellFormed := by
      have := Action.wellFormed_run (c.filter w) hs r
      rwa [h1] at this
    refine fun v hv => ih hu h2 v ?_
    by_cases hvw : v = w
    · exact .inr (hvw ▸ stableAt_of_filter hs h1)
    · exact (hv.imp_left fun hv => (List.mem_cons.1 hv).resolve_left hvw).imp_right fun hst =>
        hst.of_eq fun x => element_eq_of_filter hs hvw h1

end

/-- An element outside minuend and difference is stable. -/
private theorem stableAt_of_not_mem {d : Domains} {a e : SetDomain} (hd : d.WellFormed)
    (ha : d.sets.get? c.minuend = some a) (he : d.sets.get? c.difference = some e)
    (hv : v ∉ candidates a e) : c.StableAt d.view v := by
  simp only [candidates, mem_sortValues, List.mem_append, not_or, SetDomain.mem_envelope (hd _ _ ha),
    SetDomain.mem_envelope (hd _ _ he), not_not, Domains.membership_eq ha, Domains.membership_eq he] at hv
  rw [stableAt_iff, hv.1, hv.2]
  simp

private theorem incremental_eq (c : Difference) (slot : Slot) (delta : Delta) :
    c.incremental slot delta = (delta.entries.map Prod.snd).forM c.filter := by
  simp only [incremental]
  induction delta.entries with
  | nil => rfl
  | cons e es ih => exact congrArg ((c.filter e.2).bind ·) (funext fun _ => ih)

private theorem fromScratch_eq (c : Difference) :
    c.fromScratch = (Action.set c.minuend).bind fun a => (Action.set c.difference).bind fun e =>
      (candidates a e).forM c.filter := rfl

/-- A successful call from scratch leaves the rules stable. -/
theorem stable_of_fromScratch (hs : s.domains.WellFormed) {t : Store} {r r' : Bool}
    (hrun : c.fromScratch.run s r = ⟨t, r', .ok ()⟩) : c.Stable t.domains.view := by
  obtain ⟨u, q, a, h1, h2⟩ := Action.run_bind_ok (c.fromScratch_eq ▸ hrun)
  obtain ⟨rfl, rfl, ha⟩ := Action.run_set_ok h1
  obtain ⟨u', q', e, h3, h4⟩ := Action.run_bind_ok h2
  obtain ⟨rfl, rfl, he⟩ := Action.run_set_ok h3
  intro v
  refine stableAt_of_forM hs h4 v ?_
  by_cases hv : v ∈ candidates a e
  · exact .inl hv
  · exact .inr (stableAt_of_not_mem hs ha he hv)

/-- A successful call about a delta deals with its news, and brings no other. -/
theorem settled_of_incremental (hs : s.domains.WellFormed) {t : Store} {r r' : Bool} {slot : Slot} {delta : Delta}
    {N : News} (hrun : (c.incremental slot delta).run s r = ⟨t, r', .ok ()⟩)
    (hN : c.Settled s.domains.view fun l e v => delta.news slot l e v ∨ N l e v) : c.Settled t.domains.view N := by
  intro v
  have hst := stableAt_of_forM hs (c.incremental_eq slot delta ▸ hrun) v
  rcases hN v with hv | ⟨l, e, hv | hv⟩
  · exact .inl (hst (.inr hv))
  · exact .inl (hst (.inl (List.mem_map.2 ⟨(e, v), hv.2, rfl⟩)))
  · exact .inr ⟨l, e, hv⟩

/-! ### Calls as a whole -/

theorem only_fromScratch (c : Difference) : c.fromScratch.Only (fun n => n.var ∈ c.operands) False := by
  rw [fromScratch_eq]
  exact (Action.only_set _).bind fun _ => (Action.only_set _).bind fun _ =>
    Action.Only.forM fun v _ => (c.only_filter v).imp (fun _ h => h.1) id

theorem only_incremental (c : Difference) (slot : Slot) (delta : Delta) :
    (c.incremental slot delta).Only (fun n => n.var ∈ c.operands) False := by
  rw [incremental_eq]
  exact Action.Only.forM fun v _ => (c.only_filter v).imp (fun _ h => h.1) id

/-- A call from scratch has no effect exactly if all is stable. -/
theorem quiet_fromScratch (hs : s.domains.WellFormed) (h : c.InScope s.domains) :
    c.fromScratch.Quiet s () ↔ c.Stable s.domains.view := by
  obtain ⟨⟨a, ha⟩, -, ⟨e, he⟩⟩ := get?_of_inScope h
  rw [fromScratch_eq, Action.quiet_set_bind hs ha, Action.quiet_set_bind hs he, Action.quiet_forM hs]
  simp only [quiet_filter hs h]
  constructor
  · intro hst v
    by_cases hv : v ∈ candidates a e
    · exact hst v hv
    · exact stableAt_of_not_mem hs ha he hv
  · exact fun hst v _ => hst v

theorem keeps_fromScratch {has : Var → Prop} (h : c.Stable V) :
    c.fromScratch.Keeps V has fun _ => True := by
  rw [fromScratch_eq]
  exact Action.keeps_set.bind fun _ _ => Action.keeps_set.bind fun _ _ =>
    Action.within_forM fun v _ => keeps_filter (h v)

theorem keeps_incremental {has : Var → Prop} (h : c.Stable V) (slot : Slot) (delta : Delta) :
    (c.incremental slot delta).Keeps V has fun _ => True := by
  rw [incremental_eq]
  exact Action.within_forM fun v _ => keeps_filter (h v)

private theorem safe_filter {has : Var → Prop} (v : Int32) : (c.filter v).Safe c.operands has := by
  have hA : .set c.minuend ∈ c.operands := by simp [operands]
  have hB : .set c.subtrahend ∈ c.operands := by simp [operands]
  have hC : .set c.difference ∈ c.operands := by simp [operands]
  have hdone : (Action.done () : Action Unit).Safe c.operands has := Action.within_done trivial
  have hnarrow : ∀ {p : Prop} [Decidable p] {n : Narrowing}, n.var ∈ c.operands →
      (if p then Action.narrow n (.done ()) else .done ()).Safe c.operands has := fun hn =>
    Action.within_ite (fun _ => Action.safe_narrow hn) fun _ => hdone
  rw [filter_eq]
  refine (Action.safe_set hC).bind fun _ => Action.within_ite (fun _ => ?_) fun _ => ?_
  · exact (Action.safe_narrow (n := .require c.minuend v) hA).bind fun _ =>
      Action.safe_narrow (n := .exclude c.subtrahend v) hB
  · refine Action.Safe.bind ?_ fun _ => Action.Safe.bind ?_ fun _ =>
      (Action.safe_set hC).bind fun _ => Action.within_ite (fun _ => ?_) fun _ => hdone
    · exact (Action.safe_set hB).bind fun _ => (Action.safe_set hA).bind fun _ => hnarrow hC
    · exact (Action.safe_set hA).bind fun _ => (Action.safe_set hB).bind fun _ => hnarrow hC
    · refine Action.Safe.bind ?_ fun _ => ?_
      · exact (Action.safe_set hB).bind fun _ => hnarrow hA
      · exact (Action.safe_set hA).bind fun _ => hnarrow hB

theorem safe_fromScratch {has : Var → Prop} (c : Difference) : c.fromScratch.Safe c.operands has := by
  rw [fromScratch_eq]
  exact (Action.safe_set (by simp [operands])).bind fun _ => (Action.safe_set (by simp [operands])).bind fun _ =>
    Action.within_forM fun v _ => safe_filter v

theorem safe_incremental {has : Var → Prop} (c : Difference) (slot : Slot) (delta : Delta) :
    (c.incremental slot delta).Safe c.operands has := by
  rw [incremental_eq]
  exact Action.within_forM fun v _ => safe_filter v

/-! ### Solutions -/

/-- An assignment satisfies the constraint exactly if the rules are stable in its view. -/
theorem holds_iff (c : Difference) (a : Assignment) : c.Holds a ↔ c.Stable a.view := by
  refine forall_congr' fun v => ?_
  rw [stableAt_iff]
  simp only [Assignment.view_eq_required, Assignment.view_eq_excluded]
  grind

/-! ### Entailment -/

/-- An element has lost all support: it is certain in the minuend and possible in neither of the others, or certain in
the difference, but not possible in the minuend or certain in the subtrahend. -/
def BrokenAt (c : Difference) (V : View) (v : Int32) : Prop :=
  (V.element c.minuend v = .required ∧ V.element c.subtrahend v = .excluded ∧ V.element c.difference v = .excluded) ∨
    (V.element c.difference v = .required ∧
      (V.element c.minuend v = .excluded ∨ V.element c.subtrahend v = .required))

/-- The constraint cannot hold any more. -/
def Broken (c : Difference) (V : View) : Prop := ∃ v, c.BrokenAt V v

/-- All three sets are decided. -/
def Secure (c : Difference) (V : View) : Prop := ∀ x, .set x ∈ c.operands → ∀ v, V.element x v ≠ .possible

private theorem missing_iff {a b e : SetDomain} (ha : a.WellFormed) :
    (a.kernel.any fun v => !b.allows v && !e.allows v) = true ↔
      ∃ v, a.membership v = .required ∧ b.membership v = .excluded ∧ e.membership v = .excluded := by
  simp only [List.any_eq_true, SetDomain.mem_kernel ha, Bool.and_eq_true, Bool.not_eq_true', ← Bool.not_eq_true,
    SetDomain.allows_iff, not_not]

private theorem excess_iff {a b e : SetDomain} (he : e.WellFormed) :
    (e.kernel.any fun v => !a.allows v || b.requires v) = true ↔
      ∃ v, e.membership v = .required ∧ (a.membership v = .excluded ∨ b.membership v = .required) := by
  simp only [List.any_eq_true, SetDomain.mem_kernel he, Bool.or_eq_true, Bool.not_eq_true', ← Bool.not_eq_true,
    SetDomain.allows_iff, not_not, SetDomain.requires_iff]

/-- The entailment is read off the view. -/
theorem exists_entailment {d : Domains} (hd : d.WellFormed) (h : c.InScope d) : ∃ e, c.entailment d = .ok e ∧
    (e = .violated ↔ c.Broken d.view) ∧ (e = .satisfied ↔ ¬ c.Broken d.view ∧ c.Secure d.view) := by
  obtain ⟨⟨a, ha⟩, ⟨b, hb⟩, ⟨e, he⟩⟩ := get?_of_inScope h
  have hbroken : c.Broken d.view ↔ ((a.kernel.any fun v => !b.allows v && !e.allows v) ||
      e.kernel.any fun v => !a.allows v || b.requires v) = true := by
    rw [Bool.or_eq_true, missing_iff (hd _ _ ha), excess_iff (hd _ _ he), ← exists_or]
    simp only [Broken, BrokenAt, Domains.membership_eq ha, Domains.membership_eq hb, Domains.membership_eq he]
  have hsecure : c.Secure d.view ↔ (a.isInstantiated && b.isInstantiated && e.isInstantiated) = true := by
    simp only [Bool.and_eq_true, SetDomain.isInstantiated_iff (hd _ _ ha), SetDomain.isInstantiated_iff (hd _ _ hb),
      SetDomain.isInstantiated_iff (hd _ _ he), Domains.membership_eq ha, Domains.membership_eq hb,
      Domains.membership_eq he, Secure, operands, List.mem_cons, Var.set.injEq, List.not_mem_nil, or_false,
      forall_eq_or_imp, forall_eq, and_assoc]
  refine ⟨_, ?_, Entailment.ite_iff hbroken.symm hsecure.symm⟩
  simp only [entailment, Domains.set?, ha, hb, he, bind, Except.bind, pure, Except.pure]

/-- What is broken stays so. -/
theorem Broken.not_stable {W : View} (h : c.Broken W) (hV : V ≤ W) : ¬ c.Stable V := by
  intro hst
  obtain ⟨v, ⟨ha, hb, he⟩ | ⟨he, ha | hb⟩⟩ := h
  · have := (hst v).required (View.required_of_le hV ha) (View.excluded_of_le hV hb)
    simp [View.excluded_of_le hV he] at this
  · have := ((hst v).of_required (View.required_of_le hV he)).1
    simp [View.excluded_of_le hV ha] at this
  · have := ((hst v).of_required (View.required_of_le hV he)).2
    simp [View.required_of_le hV hb] at this

/-- Once the sets are decided, the rules are stable unless they are broken. -/
theorem Secure.stable {W : View} (h : c.Secure W) (hb : ¬ c.Broken W) (hV : V ≤ W) : c.Stable V := by
  intro v
  have hne : ¬ c.BrokenAt W v := fun hv => hb ⟨v, hv⟩
  have hA := h c.minuend (by simp [operands]) v
  have hB := h c.subtrahend (by simp [operands]) v
  have hC := h c.difference (by simp [operands]) v
  rw [stableAt_iff, View.element_of_le hV hA, View.element_of_le hV hB, View.element_of_le hV hC]
  unfold BrokenAt at hne
  generalize W.element c.minuend v = m at *
  generalize W.element c.subtrahend v = n at *
  generalize W.element c.difference v = k at *
  cases m <;> cases n <;> cases k <;> simp_all

/-- The elements that support what is certain: the minuend takes those certain in the difference, the subtrahend those
certain in the minuend only, and the difference those certain in the minuend that the subtrahend cannot have. -/
private def Takes (c : Difference) (V : View) (x : SetVar) (v : Int32) : Prop :=
  (x = c.minuend ∧ V.element c.difference v = .required) ∨
    (x = c.subtrahend ∧ V.element c.minuend v = .required ∧ V.element c.difference v ≠ .required) ∨
    (x = c.difference ∧ V.element c.minuend v = .required ∧ V.element c.subtrahend v = .excluded)

section
variable {d : Domains} (hab : c.minuend ≠ c.subtrahend) (hae : c.minuend ≠ c.difference)
  (hbe : c.subtrahend ≠ c.difference)
include hab hae hbe

/-- Unless it is broken, the constraint on three different sets has a solution that respects all that is decided. -/
private theorem exists_solution_of_le {W : View} (hd : d.WellFormed) (h : c.InScope d) (hW : W ≤ d.view)
    (hb : ¬ c.Broken W) : ∃ a, d.Admits a ∧ c.Holds a ∧
      ∀ x v, d.Has (.set x) → W.element x v ≠ .possible → a.view.element x v = W.element x v := by
  classical
  let takes : SetVar → Int32 → Prop := fun x v =>
    W.element x v = .required ∨ W.element x v = .possible ∧ c.Takes W x v
  have hmem : ∀ x v, d.Has (.set x) → (v ∈ (d.completion takes IntDomain.low).set x ↔ takes x v) := by
    intro x v hx
    rw [Domains.mem_completion hd hx]
    have hle := hW.element x v
    simp only [takes]
    cases hm : d.view.element x v <;> simp_all
  refine ⟨d.completion takes IntDomain.low,
    Domains.admits_completion hd fun b => ⟨Int32.le_rfl, b.low_le_high⟩, fun v => ?_, fun x v hx hv => ?_⟩
  · have hne : ¬ c.BrokenAt W v := fun hv => hb ⟨v, hv⟩
    rw [hmem _ _ (h _ (by simp [operands])), hmem _ _ (h _ (by simp [operands])),
      hmem _ _ (h _ (by simp [operands]))]
    simp only [takes, Takes, hab, hae, hbe, hab.symm, hae.symm, hbe.symm, true_and, false_and, or_false, false_or]
    unfold BrokenAt at hne
    generalize W.element c.minuend v = m at *
    generalize W.element c.subtrahend v = n at *
    generalize W.element c.difference v = k at *
    cases m <;> cases n <;> cases k <;> simp_all
  · have := hmem x v hx
    cases hm : W.element x v <;> simp_all [takes]

/-- Unless it is broken, the constraint on three different sets has a solution. -/
theorem exists_solution (hd : d.WellFormed) (h : c.InScope d) (hb : ¬ c.Broken d.view) :
    ∃ a, d.Admits a ∧ c.Holds a :=
  have ⟨a, ha, hholds, _⟩ := exists_solution_of_le hab hae hbe hd h le_rfl hb
  ⟨a, ha, hholds⟩

/-- Where the rules are stable, an open element of one of three different sets can be decided either way. -/
private theorem not_broken_update (h : c.Stable V) {x : SetVar} (hp : V.element x v = .possible) (m : Membership) :
    ¬ c.Broken (V.update x v m) := by
  rintro ⟨w, hw⟩
  by_cases hwv : w = v
  · subst hwv
    have hst := h w
    rw [stableAt_iff] at hst
    have hother : ∀ y, y = x ∨ (V.update x w m).element y w = V.element y w := fun y =>
      or_iff_not_imp_left.2 fun hy => View.element_update_of_ne V m fun hyx => hy hyx.1
    have ha := hother c.minuend
    have hb := hother c.subtrahend
    have he := hother c.difference
    unfold BrokenAt at hw
    grind
  · have hsame : ∀ y, (V.update x v m).element y w = V.element y w := fun y =>
      View.element_update_of_ne V m fun hyx => hwv hyx.2
    refine Broken.not_stable (c := c) (W := V) ⟨w, ?_⟩ le_rfl h
    unfold BrokenAt at hw ⊢
    rwa [hsame, hsame, hsame] at hw

/-- Where the rules are stable on three different sets, an element is in a solution unless it is excluded, and missing
in one unless it is required. -/
theorem exists_support (hd : d.WellFormed) (h : c.InScope d) (hst : c.Stable d.view) {x : SetVar}
    (hx : d.Has (.set x)) {m : Membership} (hm : m ≠ .possible)
    (hv : d.view.element x v = .possible ∨ d.view.element x v = m) :
    ∃ a, d.Admits a ∧ c.Holds a ∧ a.view.element x v = m := by
  rcases hv with hp | hv
  · obtain ⟨a, ha, hholds, heq⟩ := exists_solution_of_le hab hae hbe hd h (View.update_le hp)
      (not_broken_update hab hae hbe hst hp m)
    refine ⟨a, ha, hholds, ?_⟩
    rw [heq x v hx, View.element_update_self]
    rwa [View.element_update_self]
  · obtain ⟨a, ha, hholds, heq⟩ := exists_solution_of_le hab hae hbe hd h le_rfl fun hb => hb.not_stable le_rfl hst
    exact ⟨a, ha, hholds, (heq x v hx (hv ▸ hm)).trans hv⟩

end

end Difference

end SetConstraints
