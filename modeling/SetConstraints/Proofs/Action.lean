import SetConstraints.Proofs.Store

/-!
# Reasoning about calls

What a call of a propagator does is described in two ways.  `Action.Within` follows a property of the domains
through a call, with what is known of the results and of the ways to stop; it composes along the steps of the call.
`Action.Quiet` says that a call succeeds without any effect; such a call is quiet in all its steps, which says how
things stand in the domains.
-/

namespace SetConstraints

namespace Action

variable {α β : Type} {a : Action α} {f : α → Action β} {s : Store}

/-! ### The laws of actions -/

theorem bind_eq (a : Action α) (f : α → Action β) : (a >>= f) = a.bind f := rfl

theorem pure_eq (x : α) : (pure x : Action α) = done x := rfl

@[simp] theorem done_bind (x : α) (f : α → Action β) : (done x).bind f = f x := rfl

theorem bind_assoc {γ : Type} (a : Action α) (f : α → Action β) (h : β → Action γ) :
    (a.bind f).bind h = a.bind fun x => (f x).bind h := by
  induction a with
  | done x => rfl
  | look next ih => exact congrArg look (funext ih)
  | narrow n next ih => exact congrArg (narrow n) ih
  | rest next ih => exact congrArg rest ih
  | stop why => rfl

theorem ite_bind {p : Prop} [Decidable p] (a b : Action α) (f : α → Action β) :
    (if p then a else b).bind f = if p then a.bind f else b.bind f := by
  split <;> rfl

/-- What a call does to the store, and how it ends, does not depend on whether rest was asked for before. -/
theorem run_resting (a : Action α) (s : Store) (resting : Bool) :
    (a.run s resting).store = (a.run s false).store ∧ (a.run s resting).result = (a.run s false).result := by
  induction a generalizing s resting with
  | done x => exact ⟨rfl, rfl⟩
  | look next ih => exact ih s.domains s resting
  | narrow n next ih =>
    simp only [run]
    split
    · exact ⟨rfl, rfl⟩
    · exact ih _ resting
  | rest next ih => exact ⟨rfl, rfl⟩
  | stop why => exact ⟨rfl, rfl⟩

theorem narrowed_run {P : Narrowing → Prop} {R : Prop} (ha : a.Only P R) (hs : s.domains.WellFormed)
    (resting : Bool) :
    ∃ new, s.Narrowed P (a.run s resting).store new :=
  (steps_run ha s resting).narrowed hs

theorem wellFormed_run (a : Action α) (hs : s.domains.WellFormed) (resting : Bool) :
    (a.run s resting).store.domains.WellFormed :=
  have ⟨_, h⟩ := narrowed_run (only_true a) hs resting
  h.wellFormed

/-! ### Calls within a property of the domains -/

/-- Domains that satisfy `I` satisfy it after the call; a result satisfies `Q`, and a reason to stop `E`. -/
def Within (I : Domains → Prop) (E : Stop Contradiction → Prop) (Q : α → Prop) (a : Action α) : Prop :=
  ∀ (s : Store) (resting : Bool), s.domains.WellFormed → I s.domains →
    I (a.run s resting).store.domains ∧
      match (a.run s resting).result with
      | .ok x => Q x
      | .error why => E why

variable {I : Domains → Prop} {E : Stop Contradiction → Prop} {Q : α → Prop} {R : β → Prop}

theorem within_done {x : α} (h : Q x) : (done x).Within I E Q := fun _ _ _ hI => ⟨hI, h⟩

theorem within_stop {why : Stop Contradiction} (h : E why) : (stop why : Action α).Within I E Q :=
  fun _ _ _ hI => ⟨hI, h⟩

theorem Within.bind (ha : a.Within I E Q) (hf : ∀ x, Q x → (f x).Within I E R) : (a.bind f).Within I E R := by
  intro s resting hs hI
  obtain ⟨h1, h2⟩ := ha s resting hs hI
  have hw := wellFormed_run a hs resting
  rw [run_bind]
  cases hr : a.run s resting with
  | mk t r result =>
    rw [hr] at h1 h2 hw
    cases result with
    | ok x => exact hf x h2 t r hw h1
    | error why => exact ⟨h1, h2⟩

theorem Within.mono {Q' : α → Prop} (ha : a.Within I E Q) (h : ∀ x, Q x → Q' x) : a.Within I E Q' := by
  intro s resting hs hI
  obtain ⟨h1, h2⟩ := ha s resting hs hI
  refine ⟨h1, ?_⟩
  split <;> simp_all

theorem within_ite {p : Prop} [Decidable p] {b : Action α} (ha : p → a.Within I E Q) (hb : ¬ p → b.Within I E Q) :
    (if p then a else b).Within I E Q := by
  split
  · exact ha (by assumption)
  · exact hb (by assumption)

theorem within_forM {l : List α} {f : α → Action Unit} (hf : ∀ x ∈ l, (f x).Within I E fun _ => True) :
    (l.forM f).Within I E fun _ => True := by
  induction l with
  | nil => exact within_done trivial
  | cons x l ih => exact (hf x (by simp)).bind fun _ _ => ih fun y hy => hf y (by simp [hy])

theorem within_domains : domains.Within I E fun d => d.WellFormed ∧ I d :=
  fun _ _ hs hI => ⟨hI, hs, hI⟩

theorem within_askRest : askRest.Within I E fun _ => True := fun _ _ _ hI => ⟨hI, trivial⟩

theorem within_lift {r : Except Fault α} (hok : ∀ x, r = .ok x → Q x) (herr : ∀ f, r = .error f → E (.fault f)) :
    (lift r).Within I E Q := by
  cases r with
  | ok x => exact within_done (hok x rfl)
  | error f => exact within_stop (herr f rfl)

/-- Looking at a set gives its domain in domains that satisfy the property. -/
theorem within_set {x : SetVar} (h : ∀ d, I d → ¬ d.Has (.set x) → E (.fault .unknownIndex)) :
    (set x).Within I E fun e => ∃ d : Domains, d.WellFormed ∧ I d ∧ d.sets.get? x = some e := by
  refine within_domains.bind fun d hd => within_lift (fun e he => ⟨d, hd.1, hd.2, ?_⟩) fun f hf => ?_
  · unfold Domains.set? at he
    split at he <;> simp_all
  · unfold Domains.set? at hf
    split at hf
    · cases hf
      exact h d hd.2 (by simp [Domains.Has, *])
    · cases hf

/-- Looking at an integer gives its domain in domains that satisfy the property. -/
theorem within_int {x : IntVar} (h : ∀ d, I d → ¬ d.Has (.int x) → E (.fault .unknownIndex)) :
    (int x).Within I E fun e => ∃ d : Domains, d.WellFormed ∧ I d ∧ d.ints.get? x = some e := by
  refine within_domains.bind fun d hd => within_lift (fun e he => ⟨d, hd.1, hd.2, ?_⟩) fun f hf => ?_
  · unfold Domains.int? at he
    split at he <;> simp_all
  · unfold Domains.int? at hf
    split at hf
    · cases hf
      exact h d hd.2 (by simp [Domains.Has, *])
    · cases hf

theorem within_narrow {n : Narrowing}
    (h : ∀ d : Domains, d.WellFormed → I d →
      match d.narrow n with
      | .ok none => True
      | .ok (some e) => I e.domains
      | .error why => E why) :
    (narrow n (done ())).Within I E fun _ => True := by
  intro s resting hs hI
  have h := h s.domains hs hI
  simp only [run, Store.narrow]
  cases hn : s.domains.narrow n with
  | error why =>
    rw [hn] at h
    exact ⟨hI, h⟩
  | ok o =>
    rw [hn] at h
    cases o with
    | none => exact ⟨hI, trivial⟩
    | some e => exact ⟨h, trivial⟩

/-! ### Calls that lose nothing below a view -/

/-- A view below the domains stays below, and the call finds no contradiction; `has` says which variables there
are. -/
def Keeps (V : View) (has : Var → Prop) (Q : α → Prop) (a : Action α) : Prop :=
  a.Within (fun d => V ≤ d.view ∧ ∀ w, d.Has w ↔ has w) (fun why => ∃ f, why = .fault f) Q

variable {V : View} {ws : List Var} {has : Var → Prop}

theorem keeps_narrow {n : Narrowing} (hn : V.Accepts n) : (narrow n (done ())).Keeps V has fun _ => True := by
  refine within_narrow fun d hd hI => ?_
  cases h : d.narrow n with
  | ok o =>
    cases o with
    | none => trivial
    | some e =>
      have heff := Domains.effective_of_narrow hd h
      exact ⟨heff.le_of_accepts V hI.1 hn, fun w =>
        (Domains.has_congr heff.size_sets heff.size_ints w).trans (hI.2 w)⟩
  | error why =>
    cases why with
    | error c => exact absurd h (Domains.narrow_ne_error hd hI.1 hn c)
    | fault f => exact ⟨f, rfl⟩

/-- What the domain of a set says, the view below says too. -/
theorem keeps_set {x : SetVar} : (set x).Keeps V has fun e => V.Follows x e :=
  (within_set fun _ _ _ => ⟨_, rfl⟩).mono fun _ ⟨_, hd, hI, he⟩ => View.follows_of_le hd hI.1 he

/-- The bounds of an integer are no tighter than those of the view below. -/
theorem keeps_int {x : IntVar} : (int x).Keeps V has fun e => e.low ≤ V.low x ∧ V.high x ≤ e.high :=
  (within_int fun _ _ _ => ⟨_, rfl⟩).mono fun _ ⟨_, _, hI, he⟩ =>
    ⟨Domains.view_low_of_get? he ▸ hI.1.low x, Domains.view_high_of_get? he ▸ hI.1.high x⟩

/-- What a call that loses nothing comes to. -/
theorem Keeps.run (ha : a.Keeps V s.domains.Has Q) (hs : s.domains.WellFormed) (hV : V ≤ s.domains.view)
    (resting : Bool) :
    V ≤ (a.run s resting).store.domains.view ∧ ∀ e, (a.run s resting).result ≠ .error (.error e) := by
  obtain ⟨h1, h2⟩ := ha s resting hs ⟨hV, fun _ => Iff.rfl⟩
  refine ⟨h1.1, fun e he => ?_⟩
  rw [he] at h2
  obtain ⟨f, hf⟩ := h2
  cases hf

/-! ### Calls that fail only for want of a variable -/

/-- Nothing but a variable that does not exist makes the call end in a fault, which says so. -/
def Safe (ws : List Var) (has : Var → Prop) (a : Action α) : Prop :=
  a.Within (fun d => ∀ w, d.Has w ↔ has w)
    (fun why => ∀ f, why = .fault f → f = .unknownIndex ∧ ∃ w ∈ ws, ¬ has w) fun _ => True

theorem Safe.bind (ha : a.Safe ws has) (hf : ∀ x, (f x).Safe ws has) : (a.bind f).Safe ws has :=
  Within.bind ha fun x _ => hf x

theorem safe_set {x : SetVar} (hx : .set x ∈ ws) : (set x).Safe ws has :=
  (within_set fun _ hI hno f hf => ⟨by cases hf; rfl, _, hx, fun hs => hno ((hI _).2 hs)⟩).mono fun _ _ => trivial

theorem safe_int {x : IntVar} (hx : .int x ∈ ws) : (int x).Safe ws has :=
  (within_int fun _ hI hno f hf => ⟨by cases hf; rfl, _, hx, fun hs => hno ((hI _).2 hs)⟩).mono fun _ _ => trivial

theorem safe_narrow {n : Narrowing} (hw : n.var ∈ ws) : (narrow n (done ())).Safe ws has := by
  refine within_narrow fun d hd hI => ?_
  cases h : d.narrow n with
  | ok o =>
    cases o with
    | none => trivial
    | some e =>
      have heff := Domains.effective_of_narrow hd h
      exact fun w => (Domains.has_congr heff.size_sets heff.size_ints w).trans (hI w)
  | error why =>
    rintro f rfl
    obtain ⟨hf, hno⟩ := Domains.fault_of_narrow hd h
    exact ⟨hf, n.var, hw, fun hs => hno ((hI _).2 hs)⟩

theorem Safe.run (ha : a.Safe ws s.domains.Has) (hs : s.domains.WellFormed) {resting : Bool} {fault : Fault}
    (h : (a.run s resting).result = .error (.fault fault)) : fault = .unknownIndex ∧ ∃ w ∈ ws, ¬ s.domains.Has w := by
  have := (ha s resting hs fun _ => Iff.rfl).2
  rw [h] at this
  exact this _ rfl

/-! ### Successful calls -/

theorem run_eq_of_result {x : α} (h : (a.run s false).result = .ok x) :
    a.run s false = ⟨(a.run s false).store, (a.run s false).resting, .ok x⟩ := by
  rw [← h]

/-- A call in two parts succeeds if both do. -/
theorem run_bind_ok {t : Store} {r r' : Bool} {y : β} (h : (a.bind f).run s r = ⟨t, r', .ok y⟩) :
    ∃ u q x, a.run s r = ⟨u, q, .ok x⟩ ∧ (f x).run u q = ⟨t, r', .ok y⟩ := by
  rw [run_bind] at h
  cases ha : a.run s r with
  | mk u q result =>
    rw [ha] at h
    cases result with
    | error why => cases h
    | ok x => exact ⟨u, q, x, rfl, h⟩

/-- What a successful narrowing asks for is so afterwards. -/
theorem accepts_of_run {n : Narrowing} {t : Store} {r r' : Bool} (hs : s.domains.WellFormed)
    (h : (narrow n (done ())).run s r = ⟨t, r', .ok ()⟩) : t.domains.view.Accepts n := by
  simp only [run, Store.narrow] at h
  cases hn : s.domains.narrow n with
  | error why => simp [hn] at h
  | ok o =>
    rw [hn] at h
    cases o with
    | none =>
      cases h
      exact Domains.accepts_of_narrow_none hs hn
    | some e =>
      cases h
      exact (Domains.effective_of_narrow hs hn).accepts

/-- What each round of a successful loop brings about holds afterwards. -/
theorem forM_of_run {P : α → View → Prop} {l : List α} {f : α → Action Unit} {t : Store} {r r' : Bool}
    (hmono : ∀ x V W, W ≤ V → P x V → P x W)
    (hf : ∀ x ∈ l, ∀ u v q q', u.domains.WellFormed → (f x).run u q = ⟨v, q', .ok ()⟩ → P x v.domains.view)
    (hs : s.domains.WellFormed) (h : (l.forM f).run s r = ⟨t, r', .ok ()⟩) : ∀ x ∈ l, P x t.domains.view := by
  induction l generalizing s r with
  | nil => simp
  | cons y l ih =>
    obtain ⟨u, q, ⟨⟩, h1, h2⟩ := run_bind_ok h
    obtain ⟨cs, hcs⟩ := narrowed_run (only_true (f y)) hs r
    rw [h1] at hcs
    obtain ⟨ds, hds⟩ := narrowed_run (only_true (l.forM f)) hcs.wellFormed q
    rw [h2] at hds
    intro x hx
    rcases List.mem_cons.1 hx with rfl | hx
    · exact hmono x _ _ hds.le (hf x (by simp) s u r q hs h1)
    · exact ih (fun z hz => hf z (by simp [hz])) hcs.wellFormed h2 x hx

/-- Values that have been removed one after the other are excluded. -/
theorem excluded_of_run {x : SetVar} {vs : List Int32} {t : Store} {r r' : Bool} (hs : s.domains.WellFormed)
    (h : (vs.forM (exclude x)).run s r = ⟨t, r', .ok ()⟩) : ∀ v ∈ vs, t.domains.view.element x v = .excluded :=
  forM_of_run (P := fun v V => V.element x v = .excluded) (fun _ _ _ hle he => View.excluded_of_le hle he)
    (fun v _ _ _ _ _ hu hrun => accepts_of_run (n := .exclude x v) hu hrun) hs h

theorem run_set_ok {x : SetVar} {t : Store} {r r' : Bool} {e : SetDomain}
    (h : (set x).run s r = ⟨t, r', .ok e⟩) : t = s ∧ r' = r ∧ s.domains.sets.get? x = some e := by
  simp only [set, run, Domains.set?] at h
  split at h <;> simp_all [lift, run]

theorem run_int_ok {x : IntVar} {t : Store} {r r' : Bool} {e : IntDomain}
    (h : (int x).run s r = ⟨t, r', .ok e⟩) : t = s ∧ r' = r ∧ s.domains.ints.get? x = some e := by
  simp only [int, run, Domains.int?] at h
  split at h <;> simp_all [lift, run]

/-! ### Quiet calls -/

/-- The call succeeds with the result `x` and has no effect. -/
def Quiet (a : Action α) (s : Store) (x : α) : Prop := (a.run s false).store = s ∧ (a.run s false).result = .ok x

@[simp] theorem quiet_done {x y : α} : (done x).Quiet s y ↔ x = y := by
  simp [Quiet, run]

@[simp] theorem quiet_stop {why : Stop Contradiction} {x : α} : ¬ (stop why).Quiet s x := by
  simp [Quiet, run]

@[simp] theorem quiet_domains {d : Domains} : domains.Quiet s d ↔ s.domains = d := by
  simp [Quiet, domains, run]

@[simp] theorem quiet_lift {r : Except Fault α} {x : α} : (lift r).Quiet s x ↔ r = .ok x := by
  cases r <;> simp [lift]

@[simp] theorem quiet_askRest : askRest.Quiet s () := ⟨rfl, rfl⟩

theorem quiet_bind (hs : s.domains.WellFormed) {y : β} :
    (a.bind f).Quiet s y ↔ ∃ x, a.Quiet s x ∧ (f x).Quiet s y := by
  obtain ⟨cs, hcs⟩ := narrowed_run (only_true a) hs false
  simp only [Quiet, run_bind]
  cases hr : a.run s false with
  | mk t r result =>
    rw [hr] at hcs
    cases result with
    | error why => simp
    | ok x =>
      obtain ⟨h1, h2⟩ := run_resting (f x) t r
      simp only [h1, h2, Except.ok.injEq]
      constructor
      · rintro ⟨hstore, hres⟩
        -- nothing that was changed on the way could have been changed back
        obtain ⟨ds, hds⟩ := narrowed_run (only_true (f x)) hcs.wellFormed false
        have hchanges := hds.changes_eq
        rw [hstore, hcs.changes_eq, List.append_assoc, List.self_eq_append_right, List.append_eq_nil_iff] at hchanges
        obtain rfl : t = s := hcs.eq_of_nil hchanges.1
        exact ⟨x, ⟨rfl, rfl⟩, hstore, hres⟩
      · rintro ⟨y', ⟨rfl, rfl⟩, h⟩
        exact h

theorem quiet_bind_unit (hs : s.domains.WellFormed) {a : Action Unit} {f : Unit → Action β} {y : β} :
    (a.bind f).Quiet s y ↔ a.Quiet s () ∧ (f ()).Quiet s y :=
  (quiet_bind hs).trans ⟨fun ⟨_, h⟩ => h, fun h => ⟨(), h⟩⟩

theorem quiet_ite {p : Prop} [Decidable p] {b : Action α} {x : α} :
    (if p then a else b).Quiet s x ↔ if p then a.Quiet s x else b.Quiet s x := by
  split <;> rfl

theorem quiet_forM (hs : s.domains.WellFormed) {l : List α} {f : α → Action Unit} :
    (l.forM f).Quiet s () ↔ ∀ x ∈ l, (f x).Quiet s () := by
  induction l with
  | nil => simp [List.forM, pure_eq]
  | cons x l ih =>
    rw [show (x :: l).forM f = (f x).bind fun _ => l.forM f from rfl, quiet_bind_unit hs, List.forall_mem_cons,
      ih]

theorem quiet_set {x : SetVar} {e : SetDomain} (hs : s.domains.WellFormed) :
    (set x).Quiet s e ↔ s.domains.sets.get? x = some e := by
  rw [show set x = domains.bind fun d => lift (d.set? x) from rfl, quiet_bind hs]
  simp only [quiet_domains, quiet_lift, exists_eq_left', Domains.set?]
  split <;> simp_all

theorem quiet_int {x : IntVar} {e : IntDomain} (hs : s.domains.WellFormed) :
    (int x).Quiet s e ↔ s.domains.ints.get? x = some e := by
  rw [show int x = domains.bind fun d => lift (d.int? x) from rfl, quiet_bind hs]
  simp only [quiet_domains, quiet_lift, exists_eq_left', Domains.int?]
  split <;> simp_all

theorem quiet_set_bind {x : SetVar} {e : SetDomain} {f : SetDomain → Action β} {y : β} (hs : s.domains.WellFormed)
    (h : s.domains.sets.get? x = some e) : ((set x).bind f).Quiet s y ↔ (f e).Quiet s y := by
  simp [quiet_bind hs, quiet_set hs, h]

/-- A narrowing has no effect exactly if what it asks for is already so. -/
theorem quiet_narrow {n : Narrowing} (hs : s.domains.WellFormed) :
    (narrow n (done ())).Quiet s () ↔ s.domains.view.Accepts n ∧ s.domains.Has n.var := by
  constructor
  · intro h
    simp only [Quiet, run, Store.narrow] at h
    cases hn : s.domains.narrow n with
    | error why => simp [hn] at h
    | ok o =>
      refine ⟨?_, Domains.has_of_narrow hs hn⟩
      cases o with
      | none => exact Domains.accepts_of_narrow_none hs hn
      | some e =>
        have hd : e.domains = s.domains := by
          have := h.1
          simp only [hn] at this
          exact congrArg Store.domains this
        exact hd ▸ (Domains.effective_of_narrow hs hn).accepts
  · rintro ⟨hacc, hhas⟩
    simp [Quiet, run, Store.narrow, Domains.narrow_eq_none hs hacc hhas]

end Action

end SetConstraints
