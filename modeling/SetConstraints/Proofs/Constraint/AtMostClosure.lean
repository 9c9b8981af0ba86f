import SetConstraints.Constraint.AtMostClosure
import SetConstraints.Proofs.Assignment
import SetConstraints.Proofs.Graph.Reachability
import SetConstraints.Proofs.News

/-!
# The rules for a set of reachable nodes

A view leaves the edges possible whose ends no successor set excludes, and what can be reached along them is all
that the sets of the closure may contain.  Fewer edges mean less that can be reached, so only an element that
leaves the set of successors of a node can disturb the rules, which is what the propagator listens for.
-/

namespace SetConstraints

namespace AtMostClosure

/-- An edge that a view leaves possible. -/
def Possible (c : AtMostClosure) (V : View) (i j : Fin c.size) : Prop :=
  ∃ v, V.element (c.relation.get i) v ≠ .excluded ∧ c.node? v = some j

/-- A value that the set of a node may contain. -/
def MayReach (c : AtMostClosure) (V : View) (node : Nat) (v : Int32) : Prop :=
  (c.reflexive = true ∧ v.toInt = node) ∨
    ∃ i j, i.val = node ∧ c.node? v = some j ∧ Relation.TransGen (c.Possible V) i j

/-- Neither rule has an effect. -/
structure Stable (c : AtMostClosure) (V : View) : Prop where
  isNode : ∀ s ∈ c.relation, ∀ v, V.element s v ≠ .excluded → c.isNode v = true
  mayReach : ∀ (i : Nat) (s : SetVar), c.closure[i]? = some s → ∀ v, V.element s v ≠ .excluded → c.MayReach V i v

/-- The rules are stable, or there is some news. -/
def Settled (c : AtMostClosure) (V : View) (news : News) : Prop := c.Stable V ∨ ∃ l e v, news l e v

/-- The variables of the constraint. -/
def operands (c : AtMostClosure) : List Var := (c.relation ++ c.closure).map .set

/-- The sets of successors exist. -/
def InScope (c : AtMostClosure) (d : Domains) : Prop := ∀ s ∈ c.relation, d.Has (.set s)

variable {c : AtMostClosure} {V W : View} {s t : Store} {r r' : Bool}

/-! ### What can be reached -/

/-- Only the nodes among the successors matter. -/
theorem MayReach.mono {i : Nat} {v : Int32} (h : c.MayReach V i v) (hmore : ∀ s ∈ c.relation, ∀ v,
    c.isNode v = true → V.element s v ≠ .excluded → W.element s v ≠ .excluded) : c.MayReach W i v := by
  rcases h with h | ⟨j, k, hj, hk, hpath⟩
  · exact .inl h
  · refine .inr ⟨j, k, hj, hk, Relation.TransGen.mono (fun _ _ ⟨w, hw, hb⟩ => ⟨w, ?_, hb⟩) _ _ hpath⟩
    exact hmore _ (List.get_mem _ _) w (by simp [isNode, hb]) hw

theorem MayReach.of_le {i : Nat} {v : Int32} (h : c.MayReach V i v) (hle : V ≤ W) : c.MayReach W i v :=
  h.mono fun _ _ _ _ hv he => hv (View.excluded_of_le hle he)

theorem node?_eq_some_iff {v : Int32} {j : Fin c.size} : c.node? v = some j ↔ v.toInt = j := by
  unfold node?
  have hj := j.isLt
  constructor
  · intro h
    split at h
    · cases h
      simp only
      omega
    · cases h
  · intro h
    have hv : 0 ≤ v.toInt ∧ v.toInt.toNat < c.size := by omega
    rw [dif_pos hv, Option.some.injEq]
    exact Fin.ext (by simp only; omega)

/-- Edges lead from a node to a value: it stands for a node at the end of at least one edge, or for the node itself if
the closure is reflexive. -/
def Leads (c : AtMostClosure) (edge : Fin c.size → Fin c.size → Prop) (i : Fin c.size) (v : Int32) : Prop :=
  ∃ j, c.node? v = some j ∧ ((c.reflexive ∧ j = i) ∨ Relation.TransGen edge i j)

private theorem mayReach_iff {i : Fin c.size} {v : Int32} : c.MayReach V i v ↔ c.Leads (c.Possible V) i v := by
  constructor
  · rintro (⟨hr, hv⟩ | ⟨j, k, hj, hk, hpath⟩)
    · exact ⟨i, node?_eq_some_iff.2 hv, .inl ⟨hr, rfl⟩⟩
    · exact ⟨k, hk, .inr (Fin.ext hj ▸ hpath)⟩
  · rintro ⟨j, hj, ⟨hr, rfl⟩ | hpath⟩
    · exact .inl ⟨hr, node?_eq_some_iff.1 hj⟩
    · exact .inr ⟨i, j, rfl, hj, hpath⟩

private theorem not_mayReach_minValue {i : Nat} : ¬ c.MayReach V i Int32.minValue := by
  have hmin : Int32.minValue.toInt = -2147483648 := by decide
  rintro (⟨-, h⟩ | ⟨-, k, -, hk, -⟩)
  · omega
  · unfold node? at hk
    split at hk
    · omega
    · cases hk

/-- The operands of stable rules exist, since a variable that does not exist excludes nothing. -/
theorem has_of_stable {d : Domains} (h : c.Stable d.view) : ∀ w ∈ c.operands, d.Has w := by
  intro w hw
  simp only [operands, List.mem_map, List.mem_append] at hw
  obtain ⟨x, hx, rfl⟩ := hw
  by_contra hno
  have hopen : ∀ v, d.view.element x v ≠ .excluded := by
    intro v
    simp only [Domains.Has, Option.not_isSome_iff_eq_none] at hno
    simp [Domains.view, hno]
  rcases hx with hx | hx
  · have := h.isNode x hx _ (hopen Int32.minValue)
    revert this
    simp [isNode, node?]
  · obtain ⟨i, hi⟩ := List.getElem?_of_mem hx
    exact not_mayReach_minValue (h.mayReach i x hi _ (hopen Int32.minValue))

/-- Only the operands matter. -/
theorem Stable.of_agree (h : c.Stable V) (hag : ∀ w ∈ c.operands, V.Agree W w) : c.Stable W := by
  have hset : ∀ x, x ∈ c.relation ∨ x ∈ c.closure → ∀ v, V.element x v = W.element x v := fun x hx =>
    hag (.set x) (by simpa [operands] using hx)
  refine ⟨fun x hx v hv => h.isNode x hx v (hset x (.inl hx) v ▸ hv), fun i x hx v hv => ?_⟩
  have hmem := List.mem_of_getElem? hx
  exact (h.mayReach i x hx v (hset x (.inr hmem) v ▸ hv)).mono fun y hy u _ hu => hset y (.inl hy) u ▸ hu

private theorem edge_iff {d : Domains} (hd : d.WellFormed) (h : c.InScope d) (i j : Fin c.size) :
    (c.graph d).Edge i j ↔ c.Possible d.view i j := by
  obtain ⟨e, he⟩ := Option.isSome_iff_exists.1 (h _ (List.get_mem c.relation i))
  have hnext : (c.graph d).next i = e.envelope.filterMap c.node? := by
    have : (c.graph d).next i = c.successors d (c.relation.get i) := by
      simp [Graph.next, graph]
      rfl
    rw [this, successors, he]
  simp only [Graph.Edge, hnext, List.mem_filterMap, Possible, Domains.view_element_of_get? he,
    SetDomain.mem_envelope (hd _ _ he)]

/-- What the set of a node may contain is what the graph leads to. -/
theorem mayReach_iff_leads {d : Domains} (hd : d.WellFormed) (h : c.InScope d) (i : Fin c.size) (v : Int32) :
    c.MayReach d.view i v ↔ c.Leads (c.graph d).Edge i v := by
  rw [mayReach_iff, show (c.graph d).Edge = c.Possible d.view from funext₂ fun j k => propext (edge_iff hd h j k)]

/-- The reachability of the possible edges says what the set of a node may contain. -/
private theorem exists_reachability {d : Domains} (hd : d.WellFormed) (h : c.InScope d) :
    ∃ r, c.reachability d = .ok r ∧ ∀ i v, c.mayContain r i v = true ↔ c.MayReach d.view i v := by
  obtain ⟨r, hr, hreaches⟩ := (c.graph d).exists_reachability
  refine ⟨r, by rw [reachability, hr], fun i v => ?_⟩
  simp only [mayContain, MayReach, Bool.or_eq_true, Bool.and_eq_true, decide_eq_true_eq]
  refine or_congr_right ⟨fun ⟨hnode, hpath⟩ => ?_, fun ⟨j, k, hj, hk, hpath⟩ => ?_⟩
  · by_cases hi : i < c.size
    · obtain ⟨k, hk⟩ := Option.isSome_iff_exists.1 hnode
      obtain ⟨hlt, hpath⟩ := (hreaches ⟨i, hi⟩ _).1 hpath
      refine ⟨⟨i, hi⟩, k, rfl, hk, ?_⟩
      have hval : k = ⟨v.toInt.toNat, hlt⟩ := by
        unfold node? at hk
        split at hk <;> cases hk
        rfl
      exact hval ▸ Relation.TransGen.mono (fun a b => (edge_iff hd h a b).1) _ _ hpath
    · have : r.components.componentOf[i]? = none := Vector.getElem?_eq_none (Nat.not_lt.1 hi)
      simp [Reachability.reaches, this] at hpath
  · subst hj
    refine ⟨by simp [isNode, hk], (hreaches j _).2 ?_⟩
    unfold node? at hk
    split at hk <;> cases hk
    rename_i hv
    exact ⟨hv.2, Relation.TransGen.mono (fun a b => (edge_iff hd h a b).2) _ _ hpath⟩

/-! ### The parts of a call -/

/-- Removes a value from the successors of a node unless it is certain. -/
private def discard (s : SetVar) (v : Int32) : Action Unit := do
  if (← Action.set s).requires v then Action.fail name
  else Action.exclude s v

/-- Removes the values that are not nodes from the successors of a node. -/
private def removeOutsideOf (c : AtMostClosure) (s : SetVar) : Action Unit := do
  ((← Action.set s).envelope.filter fun v => !c.isNode v).forM (discard s)

private theorem removeOutside_eq (c : AtMostClosure) : c.removeOutside = c.relation.forM c.removeOutsideOf := rfl

private theorem discard_eq (s : SetVar) (v : Int32) : discard s v =
    (Action.set s).bind fun e => if e.requires v = true then Action.fail name else Action.exclude s v := rfl

private theorem removeOutsideOf_eq (c : AtMostClosure) (s : SetVar) : c.removeOutsideOf s =
    (Action.set s).bind fun e => (e.envelope.filter fun v => !c.isNode v).forM (discard s) := rfl

private theorem removeUnreachable_eq (c : AtMostClosure) (r : Reachability c.size) (s : SetVar) (i : Nat) :
    c.removeUnreachable r s i = (Action.set s).bind fun e =>
      (e.envelope.filter fun v => !c.mayContain r i v).forM (Action.exclude s) := rfl

private theorem fromScratch_eq (c : AtMostClosure) : c.fromScratch = c.removeOutside.bind fun _ =>
    Action.domains.bind fun d => (Action.lift (c.reachability d)).bind fun r =>
      c.closure.zipIdx.forM fun e => c.removeUnreachable r e.1 e.2 := rfl

private theorem mem_relation_operands {x : SetVar} (h : x ∈ c.relation) : .set x ∈ c.operands := by
  simp [operands, h]

private theorem mem_closure_operands {x : SetVar} {i : Nat} (h : (x, i) ∈ c.closure.zipIdx) :
    .set x ∈ c.operands := by
  have := List.fst_mem_of_mem_zipIdx h
  simp [operands, this]

private theorem only_removeOutside (c : AtMostClosure) :
    c.removeOutside.Only (fun n => ∃ x v, n = .exclude x v ∧ x ∈ c.relation ∧ c.isNode v = false) False := by
  rw [removeOutside_eq]
  refine Action.Only.forM fun x hx => ?_
  rw [removeOutsideOf_eq]
  refine (Action.only_set x).bind fun e => Action.Only.forM fun v hv => ?_
  rw [discard_eq]
  refine (Action.only_set x).bind fun e => ?_
  split
  · trivial
  · exact ⟨⟨x, v, rfl, hx, by simpa using (List.mem_filter.1 hv).2⟩, trivial⟩

private theorem only_removeClosure (c : AtMostClosure) (r : Reachability c.size) :
    (c.closure.zipIdx.forM fun e => c.removeUnreachable r e.1 e.2).Only
      (fun n => ∃ i x v, n = .exclude x v ∧ c.closure[i]? = some x ∧ c.mayContain r i v = false) False := by
  refine Action.Only.forM fun e he => ?_
  rw [removeUnreachable_eq]
  exact (Action.only_set _).bind fun _ => Action.Only.forM fun v hv =>
    ⟨⟨e.2, e.1, v, rfl, List.mem_zipIdx_iff_getElem?.1 he, by simpa using (List.mem_filter.1 hv).2⟩, trivial⟩

/-- A call does nothing but remove elements of its operands. -/
private theorem excludes_fromScratch (c : AtMostClosure) :
    c.fromScratch.Only (fun n => ∃ x v, n = .exclude x v ∧ .set x ∈ c.operands) False := by
  rw [fromScratch_eq]
  refine Action.Only.bind (c.only_removeOutside.imp ?_ id) fun _ => Action.Only.bind (fun _ => trivial) fun _ =>
    (Action.only_lift _).bind fun r => (c.only_removeClosure r).imp ?_ id
  · rintro _ ⟨x, v, rfl, hx, -⟩
    exact ⟨x, v, rfl, mem_relation_operands hx⟩
  · rintro _ ⟨i, x, v, rfl, hx, -⟩
    exact ⟨x, v, rfl, by simp [operands, List.mem_of_getElem? hx]⟩

theorem only_fromScratch (c : AtMostClosure) : c.fromScratch.Only (fun n => n.var ∈ c.operands) False :=
  c.excludes_fromScratch.imp (by rintro _ ⟨x, v, rfl, hx⟩; exact hx) id

/-! ### Calls that lose nothing -/

/-- A view at which the rules are stable is not lost; the sets of successors have to exist. -/
theorem keeps_fromScratch {has : Var → Prop} (h : c.Stable V) (hin : ∀ x ∈ c.relation, has (.set x)) :
    c.fromScratch.Keeps V has fun _ => True := by
  rw [fromScratch_eq, removeOutside_eq]
  refine Action.Within.bind (Q := fun _ => True) (Action.within_forM fun x hx => ?_) fun _ _ =>
    Action.within_domains.bind fun d hd => Action.Within.bind
      (Q := fun r => ∀ i v, c.MayReach V i v → c.mayContain r i v = true) ?_ fun r hr =>
        Action.within_forM fun e he => ?_
  · rw [removeOutsideOf_eq]
    refine Action.keeps_set.bind fun e he => Action.within_forM fun v hv => ?_
    have hex : V.element x v = .excluded := by
      by_contra hne
      simp [h.isNode x hx v hne] at hv
    rw [discard_eq]
    refine Action.keeps_set.bind fun f hf => Action.within_ite (fun hr => ?_) fun _ =>
      Action.keeps_narrow hex
    have := hf.required hr
    simp [hex] at this
  · obtain ⟨r, hr, hcontain⟩ := exists_reachability (c := c) hd.1 fun x hx => (hd.2.2 _).2 (hin x hx)
    refine Action.within_lift (fun r' hr' i v hv => ?_) fun f _ => ⟨f, rfl⟩
    obtain rfl : r = r' := Except.ok.inj (hr.symm.trans hr')
    exact (hcontain i v).2 (hv.of_le hd.2.1)
  · rw [removeUnreachable_eq]
    refine Action.keeps_set.bind fun f hf => Action.within_forM fun v hv => Action.keeps_narrow ?_
    by_contra hne
    have := hr e.2 v (h.mayReach e.2 e.1 (List.mem_zipIdx_iff_getElem?.1 he) v hne)
    simp [this] at hv

theorem safe_fromScratch {has : Var → Prop} (c : AtMostClosure) (hin : ∀ x ∈ c.relation, has (.set x)) :
    c.fromScratch.Safe c.operands has := by
  rw [fromScratch_eq, removeOutside_eq]
  refine Action.Safe.bind (Action.within_forM fun x hx => ?_) fun _ => Action.within_domains.bind fun d hd =>
    Action.Safe.bind (Action.within_lift (fun _ _ => trivial) fun f hf _ _ => ?_) fun r =>
      Action.within_forM fun e he => ?_
  · have hmem := mem_relation_operands hx
    rw [removeOutsideOf_eq]
    refine (Action.safe_set hmem).bind fun e => Action.within_forM fun v hv => ?_
    rw [discard_eq]
    exact (Action.safe_set hmem).bind fun _ => Action.within_ite (fun _ => Action.within_stop (by simp)) fun _ =>
      Action.safe_narrow hmem
  · obtain ⟨r, hr, -⟩ := exists_reachability (c := c) hd.1 fun x hx => (hd.2 _).2 (hin x hx)
    simp [hr] at hf
  · have hmem := mem_closure_operands he
    rw [removeUnreachable_eq]
    exact (Action.safe_set hmem).bind fun _ => Action.within_forM fun _ _ => Action.safe_narrow hmem

/-! ### How calls leave the sets -/

private theorem hears_relation (c : AtMostClosure) {x : SetVar} (hx : x ∈ c.relation) (v : Int32) :
    ∃ l, c.posting.Hears ⟨.set x, .envelopeShrank, v⟩ l := by
  obtain ⟨i, hi⟩ := List.getElem?_of_mem hx
  refine ⟨⟨i⟩, ⟨.set x, .envelope, ⟨i⟩⟩, ?_, rfl, rfl, rfl⟩
  exact List.mem_map.2 ⟨(x, i), List.mem_zipIdx_iff_getElem?.2 hi, rfl⟩

/-- The edges stay possible unless there is news. -/
private theorem relation_of_explained {cs : List Change} (h : V.Explained W cs) :
    (∀ x ∈ c.relation, ∀ v, V.element x v ≠ .excluded → W.element x v ≠ .excluded) ∨
      ∃ l e v, c.posting.news cs l e v := by
  refine or_iff_not_imp_right.2 fun hno x hx v hv he => hno ?_
  rcases h.element x v with hsame | ⟨hr, -⟩ | ⟨-, hc⟩
  · exact absurd (hsame ▸ he) hv
  · simp [he] at hr
  · obtain ⟨l, hl⟩ := c.hears_relation hx v
    exact ⟨l, _, v, _, hc, rfl, rfl, hl⟩

private theorem Stable.of_explained {cs : List Change} (h : c.Stable V) (hex : V.Explained W cs) (hle : W ≤ V) :
    c.Settled W (c.posting.news cs) := by
  refine (relation_of_explained (c := c) hex).imp_left fun hmore => ⟨fun x hx v hv => ?_, fun i x hx v hv => ?_⟩
  · exact h.isNode x hx v fun he => hv (View.excluded_of_le hle he)
  · exact (h.mayReach i x hx v fun he => hv (View.excluded_of_le hle he)).mono fun y hy u _ => hmore y hy u

theorem Settled.of_explained {N : News} {cs : List Change} (h : c.Settled V N) (hex : V.Explained W cs)
    (hle : W ≤ V) : c.Settled W fun l e v => N l e v ∨ c.posting.news cs l e v := by
  rcases h with h | ⟨l, e, v, hn⟩
  · exact (h.of_explained hex hle).imp_right fun ⟨l, e, v, hn⟩ => ⟨l, e, v, .inr hn⟩
  · exact .inr ⟨l, e, v, .inl hn⟩

private theorem excluded_of_discard {x : SetVar} {v : Int32} (hs : s.domains.WellFormed)
    (h : (discard x v).run s r = ⟨t, r', .ok ()⟩) : t.domains.view.element x v = .excluded := by
  obtain ⟨u, q, e, h1, h2⟩ := Action.run_bind_ok (discard_eq x v ▸ h)
  obtain ⟨rfl, rfl, he⟩ := Action.run_set_ok h1
  split at h2
  · simp [Action.fail, Action.run] at h2
  · exact Action.accepts_of_run (n := .exclude x v) hs h2

/-- A loop over the elements of a set that fail a test leaves only elements that pass it. -/
private theorem pass_of_run {x : SetVar} {p : Int32 → Bool} {f : Int32 → Action Unit} (hs : s.domains.WellFormed)
    (hf : ∀ v u w q q', u.domains.WellFormed → (f v).run u q = ⟨w, q', .ok ()⟩ →
      w.domains.view.element x v = .excluded)
    (h : ((Action.set x).bind fun e => (e.envelope.filter fun v => !p v).forM f).run s r = ⟨t, r', .ok ()⟩) :
    ∀ v, t.domains.view.element x v ≠ .excluded → p v = true := by
  intro v hv
  obtain ⟨u, q, e, h1, h2⟩ := Action.run_bind_ok h
  obtain ⟨rfl, rfl, he⟩ := Action.run_set_ok h1
  obtain ⟨cs, hcs⟩ := Action.narrowed_run (Action.only_true _) hs q
  rw [h2] at hcs
  have hmem : v ∈ e.envelope := by
    rw [SetDomain.mem_envelope (hs _ _ he), Domains.membership_eq he]
    exact fun hx => hv (View.excluded_of_le hcs.le hx)
  by_contra hp
  exact hv (Action.forM_of_run (P := fun v V => V.element x v = .excluded)
    (fun _ _ _ hle hx => View.excluded_of_le hle hx) (fun v _ => hf v) hs h2 v (by simpa [hmem] using hp))

private theorem isNode_of_removeOutside (hs : s.domains.WellFormed)
    (h : c.removeOutside.run s r = ⟨t, r', .ok ()⟩) :
    ∀ x ∈ c.relation, ∀ v, t.domains.view.element x v ≠ .excluded → c.isNode v = true :=
  Action.forM_of_run (P := fun x V => ∀ v, V.element x v ≠ .excluded → c.isNode v = true)
    (fun _ _ _ hle h v hv => h v fun he => hv (View.excluded_of_le hle he))
    (fun x _ _ _ _ _ hu hrun => pass_of_run hu (fun _ _ _ _ _ hw => excluded_of_discard hw)
      (c.removeOutsideOf_eq x ▸ hrun)) hs (c.removeOutside_eq ▸ h)

private theorem mayContain_of_removeClosure {q : Reachability c.size} (hs : s.domains.WellFormed)
    (h : (c.closure.zipIdx.forM fun e => c.removeUnreachable q e.1 e.2).run s r = ⟨t, r', .ok ()⟩) :
    ∀ e ∈ c.closure.zipIdx, ∀ v, t.domains.view.element e.1 v ≠ .excluded → c.mayContain q e.2 v = true := by
  refine Action.forM_of_run (P := fun e V => ∀ v, V.element e.1 v ≠ .excluded → c.mayContain q e.2 v = true)
    (fun e _ _ hle h v hv => ?_) (fun e _ u w _ _ hu hrun => ?_) hs h
  · exact h v fun hx => hv (View.excluded_of_le hle hx)
  · rw [removeUnreachable_eq] at hrun
    exact pass_of_run hu (fun v _ _ _ _ hw h => Action.accepts_of_run (n := .exclude e.1 v) hw h) hrun

/-- The two parts of a successful call: the successors that are no nodes are removed, then what cannot be reached
along the edges left. -/
private theorem fromScratch_ok (hs : s.domains.WellFormed) (h : c.InScope s.domains)
    (hrun : c.fromScratch.run s r = ⟨t, r', .ok ()⟩) :
    ∃ u q reach, u.domains.WellFormed ∧ c.removeOutside.run s r = ⟨u, q, .ok ()⟩ ∧
      (∀ i v, c.mayContain reach i v = true ↔ c.MayReach u.domains.view i v) ∧
      (c.closure.zipIdx.forM fun e => c.removeUnreachable reach e.1 e.2).run u q = ⟨t, r', .ok ()⟩ := by
  obtain ⟨u, q, ⟨⟩, h1, h2⟩ := Action.run_bind_ok (c.fromScratch_eq ▸ hrun)
  obtain ⟨cs, hcs⟩ := Action.narrowed_run c.only_removeOutside hs r
  rw [h1] at hcs
  obtain ⟨reach, hreach, hcontain⟩ :=
    exists_reachability (c := c) hcs.wellFormed fun x hx => (hcs.has_iff _).2 (h x hx)
  exact ⟨u, q, reach, hcs.wellFormed, h1, hcontain, by
    simpa only [Action.domains, Action.bind, Action.run, hreach, Action.lift] using h2⟩

/-- If the second part leaves all edges possible, the rules are stable in the end. -/
private theorem stable_of_kept {u : Store} {q : Bool} {reach : Reachability c.size} (hs : s.domains.WellFormed)
    (hu : u.domains.WellFormed) (h1 : c.removeOutside.run s r = ⟨u, q, .ok ()⟩)
    (hcontain : ∀ i v, c.mayContain reach i v = true ↔ c.MayReach u.domains.view i v)
    (h2 : (c.closure.zipIdx.forM fun e => c.removeUnreachable reach e.1 e.2).run u q = ⟨t, r', .ok ()⟩)
    (hmore : ∀ x ∈ c.relation, ∀ v, u.domains.view.element x v ≠ .excluded → t.domains.view.element x v ≠ .excluded) :
    c.Stable t.domains.view := by
  obtain ⟨ds, hds⟩ := Action.narrowed_run (c.only_removeClosure reach) hu q
  rw [h2] at hds
  refine ⟨fun x hx v hv => ?_, fun i x hx v hv => ?_⟩
  · exact isNode_of_removeOutside hs h1 x hx v fun he => hv (View.excluded_of_le hds.le he)
  · have := mayContain_of_removeClosure hu h2 (x, i) (List.mem_zipIdx_iff_getElem?.2 hx) v hv
    exact ((hcontain i v).1 this).mono fun y hy w _ => hmore y hy w

/-- After a successful call from scratch all is stable unless there is news. -/
theorem settles_fromScratch {P : Narrowing → Prop} {new : List Change} (hs : s.domains.WellFormed)
    (h : c.InScope s.domains) (hrun : c.fromScratch.run s r = ⟨t, r', .ok ()⟩) (hnew : s.Narrowed P t new) :
    c.Settled t.domains.view (c.posting.news new) := by
  obtain ⟨u, q, reach, hu, h1, hcontain, h2⟩ := fromScratch_ok hs h hrun
  obtain ⟨cs, hcs⟩ := Action.narrowed_run (Action.only_true c.removeOutside) hs r
  obtain ⟨ds, hds⟩ := Action.narrowed_run
    (Action.only_true (c.closure.zipIdx.forM fun e => c.removeUnreachable reach e.1 e.2)) hu q
  rw [h1] at hcs
  rw [h2] at hds
  rcases relation_of_explained (c := c) hds.explained with hmore | ⟨l, e, v, ch, hch, hn⟩
  · exact .inl (stable_of_kept hs hu h1 hcontain h2 hmore)
  · rw [hnew.new_eq (hcs.trans hds)]
    exact .inr ⟨l, e, v, ch, List.mem_append_right _ hch, hn⟩

/-- A successful call from scratch leaves the rules stable if no variable stands on both sides. -/
theorem stable_of_fromScratch (hs : s.domains.WellFormed) (h : c.InScope s.domains)
    (hapart : ∀ x ∈ c.relation, x ∉ c.closure) (hrun : c.fromScratch.run s r = ⟨t, r', .ok ()⟩) :
    c.Stable t.domains.view := by
  obtain ⟨u, q, reach, hu, h1, hcontain, h2⟩ := fromScratch_ok hs h hrun
  obtain ⟨ds, hds⟩ := Action.narrowed_run (c.only_removeClosure reach) hu q
  rw [h2] at hds
  refine stable_of_kept hs hu h1 hcontain h2 fun x hx v hv => ?_
  rw [hds.element_eq]
  · exact hv
  · rintro _ ⟨i, y, w, rfl, hy, -⟩ ⟨hvar, -⟩
    exact hapart x hx (Var.set.inj hvar ▸ List.mem_of_getElem? hy)

/-! ### Quiet calls -/

/-- A loop that would remove the elements of a set that fail a test has no effect exactly if all pass it, one of
the values failing in any case. -/
private theorem quiet_loop {x : SetVar} {p : Int32 → Bool} {f : Int32 → Action Unit} (hs : s.domains.WellFormed)
    (hf : ∀ v, (f v).Quiet s () → s.domains.view.element x v = .excluded) (hp : p Int32.minValue = false) :
    ((Action.set x).bind fun e => (e.envelope.filter fun v => !p v).forM f).Quiet s () ↔
      ∀ v, s.domains.view.element x v ≠ .excluded → p v = true := by
  rw [Action.quiet_bind hs]
  simp only [Action.quiet_set hs, Action.quiet_forM hs, List.mem_filter, Bool.not_eq_true']
  constructor
  · rintro ⟨e, he, hq⟩ v hv
    by_contra hno
    refine hv (hf v (hq v ⟨?_, by simpa using hno⟩))
    rwa [SetDomain.mem_envelope (hs _ _ he), Domains.membership_eq he]
  · intro hall
    cases he : s.domains.sets.get? x with
    | none =>
      have := hall Int32.minValue (by simp [Domains.view, he])
      simp [hp] at this
    | some e =>
      refine ⟨e, rfl, fun v hv => ?_⟩
      have := hall v (by rw [← Domains.membership_eq he]; exact (SetDomain.mem_envelope (hs _ _ he) v).1 hv.1)
      simp [hv.2] at this

private theorem quiet_removeOutside (hs : s.domains.WellFormed) :
    c.removeOutside.Quiet s () ↔
      ∀ x ∈ c.relation, ∀ v, s.domains.view.element x v ≠ .excluded → c.isNode v = true := by
  rw [removeOutside_eq, Action.quiet_forM hs]
  refine forall₂_congr fun x _ => ?_
  rw [removeOutsideOf_eq]
  refine quiet_loop hs (fun v hq => ?_) ?_
  · rw [discard_eq, Action.quiet_bind hs] at hq
    obtain ⟨e, he, hq⟩ := hq
    rw [Action.quiet_ite] at hq
    split at hq
    · exact absurd hq Action.quiet_stop
    · exact ((Action.quiet_narrow hs).1 hq).1
  · simp [isNode, node?]

private theorem quiet_removeClosure {q : Reachability c.size} (hs : s.domains.WellFormed)
    (hq : ∀ i v, c.mayContain q i v = true ↔ c.MayReach s.domains.view i v) :
    (c.closure.zipIdx.forM fun e => c.removeUnreachable q e.1 e.2).Quiet s () ↔
      ∀ (i : Nat) (x : SetVar), c.closure[i]? = some x →
        ∀ v, s.domains.view.element x v ≠ .excluded → c.MayReach s.domains.view i v := by
  have hmin : ∀ i, c.mayContain q i Int32.minValue = false := fun i => by
    rw [← Bool.not_eq_true, hq]
    exact not_mayReach_minValue
  have hloop : ∀ e : SetVar × Nat, (c.removeUnreachable q e.1 e.2).Quiet s () ↔
      ∀ v, s.domains.view.element e.1 v ≠ .excluded → c.MayReach s.domains.view e.2 v := fun e => by
    simp only [← hq, removeUnreachable_eq]
    exact quiet_loop hs (fun v hv => ((Action.quiet_narrow hs).1 hv).1) (hmin e.2)
  rw [Action.quiet_forM hs]
  simp only [hloop, Prod.forall, List.mem_zipIdx_iff_getElem?]
  exact forall_comm

/-- A call from scratch has no effect exactly if all is stable. -/
theorem quiet_fromScratch (hs : s.domains.WellFormed) (h : c.InScope s.domains) :
    c.fromScratch.Quiet s () ↔ c.Stable s.domains.view := by
  obtain ⟨reach, hreach, hcontain⟩ := exists_reachability hs h
  rw [fromScratch_eq, Action.quiet_bind_unit hs, quiet_removeOutside hs, Action.quiet_bind hs]
  simp only [Action.quiet_domains, exists_eq_left', Action.quiet_bind hs, Action.quiet_lift, hreach, Except.ok.injEq,
    quiet_removeClosure hs hcontain]
  exact ⟨fun h => ⟨h.1, h.2⟩, fun h => ⟨h.1, h.2⟩⟩

/-! ### Solutions -/

private theorem possible_view (c : AtMostClosure) (a : Assignment) : c.Possible a.view = c.Edge a := by
  funext i j
  simp [Possible, Edge]

/-- An assignment satisfies the constraint exactly if the rules are stable in its view. -/
theorem holds_iff (c : AtMostClosure) (hlen : c.relation.length = c.closure.length) (a : Assignment) :
    c.Holds a ↔ c.Stable a.view := by
  have hne : ∀ x v, a.view.element x v ≠ .excluded ↔ v ∈ a.set x := by simp
  have hreach : ∀ (i : Fin c.size) v, c.MayReach a.view i v ↔ c.Leads (c.Edge a) i v := fun i v => by
    rw [mayReach_iff, possible_view]
  constructor
  · refine fun h => ⟨fun x hx v hv => h.isNode_of_mem x hx v ((hne x v).1 hv), fun i x hx v hv => ?_⟩
    have hi : i < c.size := by
      rw [size, hlen]
      exact (List.getElem?_eq_some_iff.1 hx).1
    exact (hreach ⟨i, hi⟩ v).2 (h.reaches_of_mem ⟨i, hi⟩ x hx v ((hne x v).1 hv))
  · exact fun h => ⟨fun x hx v hv => h.isNode x hx v ((hne x v).2 hv), fun i x hx v hv =>
      (hreach i v).1 (h.mayReach i x hx v ((hne x v).2 hv))⟩

/-! ### Entailment -/

/-- The constraint cannot hold any more: a certain successor is no node, or a node's set certainly has an element that
cannot be reached. -/
def Broken (c : AtMostClosure) (V : View) : Prop :=
  (∃ x ∈ c.relation, ∃ v, V.element x v = .required ∧ c.isNode v = false) ∨
    ∃ i x, c.closure[i]? = some x ∧ ∃ v, V.element x v = .required ∧ ¬ c.MayReach V i v

/-- All sets are decided. -/
def Secure (c : AtMostClosure) (V : View) : Prop := ∀ x, .set x ∈ c.operands → ∀ v, V.element x v ≠ .possible

private theorem exists_anyM {α : Type} {l : List α} {f : α → Except Fault Bool} {P : α → Prop}
    (h : ∀ x ∈ l, ∃ b, f x = .ok b ∧ (b = true ↔ P x)) : ∃ b, l.anyM f = .ok b ∧ (b = true ↔ ∃ x ∈ l, P x) := by
  induction l with
  | nil => exact ⟨false, rfl, by simp⟩
  | cons x l ih =>
    obtain ⟨b, hb, hiff⟩ := h x (by simp)
    simp only [List.anyM, hb, bind, Except.bind, List.exists_mem_cons_iff, ← hiff]
    cases b with
    | true => exact ⟨true, rfl, by simp⟩
    | false => simpa using ih fun y hy => h y (by simp [hy])

private theorem exists_allM {α : Type} {l : List α} {f : α → Except Fault Bool} {P : α → Prop}
    (h : ∀ x ∈ l, ∃ b, f x = .ok b ∧ (b = true ↔ P x)) : ∃ b, l.allM f = .ok b ∧ (b = true ↔ ∀ x ∈ l, P x) := by
  induction l with
  | nil => exact ⟨true, rfl, by simp⟩
  | cons x l ih =>
    obtain ⟨b, hb, hiff⟩ := h x (by simp)
    simp only [List.allM, hb, bind, Except.bind, List.forall_mem_cons, ← hiff]
    cases b with
    | true => simpa using ih fun y hy => h y (by simp [hy])
    | false => exact ⟨false, rfl, by simp⟩

private theorem exists_any_kernel {d : Domains} (hd : d.WellFormed) {x : SetVar} (hx : d.Has (.set x))
    (p : Int32 → Bool) : ∃ b, (do return (← d.set? x).kernel.any fun v => !p v : Except Fault Bool) = .ok b ∧
      (b = true ↔ ∃ v, d.view.element x v = .required ∧ p v = false) := by
  obtain ⟨e, he⟩ := Option.isSome_iff_exists.1 hx
  refine ⟨e.kernel.any fun v => !p v, by simp only [Domains.set?, he, bind, Except.bind, pure, Except.pure], ?_⟩
  simp [SetDomain.mem_kernel (hd _ _ he), Domains.membership_eq he]

private theorem exists_isInstantiated {d : Domains} (hd : d.WellFormed) {x : SetVar} (hx : d.Has (.set x)) :
    ∃ b, (do return (← d.set? x).isInstantiated : Except Fault Bool) = .ok b ∧
      (b = true ↔ ∀ v, d.view.element x v ≠ .possible) := by
  obtain ⟨e, he⟩ := Option.isSome_iff_exists.1 hx
  refine ⟨e.isInstantiated, by simp only [Domains.set?, he, bind, Except.bind, pure, Except.pure], ?_⟩
  simp only [SetDomain.isInstantiated_iff (hd _ _ he), Domains.membership_eq he]

/-- The entailment is read off the view. -/
theorem exists_entailment {d : Domains} (hd : d.WellFormed) (h : ∀ w ∈ c.operands, d.Has w) :
    ∃ e, c.entailment d = .ok e ∧
      (e = .violated ↔ c.Broken d.view) ∧ (e = .satisfied ↔ ¬ c.Broken d.view ∧ c.Secure d.view) := by
  obtain ⟨r, hr, hcontain⟩ := exists_reachability hd fun x hx => h _ (mem_relation_operands hx)
  obtain ⟨b₁, h₁, houtside⟩ := exists_anyM fun x (hx : x ∈ c.relation) =>
    exists_any_kernel hd (h _ (mem_relation_operands hx)) c.isNode
  obtain ⟨b₂, h₂, hunreachable⟩ := exists_anyM fun e (he : e ∈ c.closure.zipIdx) =>
    exists_any_kernel hd (h _ (mem_closure_operands he)) (c.mayContain r e.2)
  obtain ⟨b₃, h₃, hdecided⟩ := exists_allM fun x (hx : x ∈ c.relation ++ c.closure) =>
    exists_isInstantiated hd (h (.set x) (List.mem_map_of_mem hx))
  have heq : c.entailment d = .ok (
      if b₁ = true ∨ b₂ = true then .violated else if b₃ = true then .satisfied else .undetermined) := by
    rw [entailment, h₁]
    cases b₁ with
    | true => rfl
    | false =>
      simp only [bind, Except.bind, pure, Except.pure, hr] at h₂ h₃ ⊢
      rw [h₂, h₃]
      cases b₂ <;> cases b₃ <;> rfl
  refine ⟨_, heq, Entailment.ite_iff ?_ ?_⟩
  · refine or_congr houtside (hunreachable.trans ?_)
    simp only [← hcontain, Bool.not_eq_true, Prod.exists, List.mem_zipIdx_iff_getElem?]
    exact exists_comm
  · simp only [hdecided, Secure, operands, List.mem_map, Var.set.injEq, exists_eq_right]

/-- What is broken stays so. -/
theorem Broken.not_stable (h : c.Broken W) (hV : V ≤ W) : ¬ c.Stable V := by
  intro hst
  rcases h with ⟨x, hx, v, hv, hno⟩ | ⟨i, x, hx, v, hv, hno⟩
  · have := hst.isNode x hx v (by simp [View.required_of_le hV hv])
    simp [hno] at this
  · exact hno ((hst.mayReach i x hx v (by simp [View.required_of_le hV hv])).of_le hV)

private theorem Secure.required {x : SetVar} {v : Int32} (h : c.Secure V) (hx : x ∈ c.relation ∨ x ∈ c.closure)
    (hv : V.element x v ≠ .excluded) : V.element x v = .required := by
  have := h x (by simpa [operands] using hx) v
  cases hm : V.element x v <;> simp_all

/-- Once the sets are decided, the rules are stable unless they are broken. -/
theorem Secure.stable (h : c.Secure W) (hb : ¬ c.Broken W) (hV : V ≤ W) : c.Stable V := by
  have hst : c.Stable W := by
    refine ⟨fun x hx v hv => ?_, fun i x hx v hv => ?_⟩
    · by_contra hno
      exact hb (.inl ⟨x, hx, v, h.required (.inl hx) hv, by simpa using hno⟩)
    · by_contra hno
      exact hb (.inr ⟨i, x, hx, v, h.required (.inr (List.mem_of_getElem? hx)) hv, hno⟩)
  refine hst.of_agree fun w hw => ?_
  obtain ⟨x, -, rfl⟩ := List.mem_map.1 hw
  exact fun v => (View.element_of_le hV (h x hw v)).symm

/-- Unless it is broken, the constraint on sets of which none stands on both sides has a solution: the largest
relation and the smallest sets of the closure. -/
theorem exists_solution {d : Domains} (hd : d.WellFormed) (h : ∀ w ∈ c.operands, d.Has w) (hb : ¬ c.Broken d.view)
    (hlen : c.relation.length = c.closure.length) (hapart : ∀ x ∈ c.relation, x ∉ c.closure) :
    ∃ a, d.Admits a ∧ c.Holds a := by
  let a := d.completion (fun x v => x ∈ c.relation ∧ c.isNode v = true) IntDomain.low
  have hmem : ∀ x, .set x ∈ c.operands → ∀ v, v ∈ a.set x ↔ d.view.element x v = .required ∨
      d.view.element x v = .possible ∧ x ∈ c.relation ∧ c.isNode v = true := fun x hx v =>
    Domains.mem_completion hd (h _ hx)
  refine ⟨a, Domains.admits_completion hd fun b => ⟨Int32.le_rfl, b.low_le_high⟩, (c.holds_iff hlen a).2
    ⟨fun x hx v hv => ?_, fun i x hx v hv => ?_⟩⟩
  · by_contra hno
    rw [ne_eq, Assignment.view_eq_excluded, not_not, hmem x (mem_relation_operands hx)] at hv
    rcases hv with hv | ⟨-, -, hv⟩
    · exact hb (.inl ⟨x, hx, v, hv, by simpa using hno⟩)
    · exact hno hv
  · have hcl := List.mem_of_getElem? hx
    rw [ne_eq, Assignment.view_eq_excluded, not_not, hmem x (by simp [operands, hcl])] at hv
    have hr : d.view.element x v = .required := hv.resolve_right fun hp => hapart x hp.2.1 hcl
    have hreach : c.MayReach d.view i v := by
      by_contra hno
      exact hb (.inr ⟨i, x, hx, v, hr, hno⟩)
    -- every edge still possible is taken
    refine hreach.mono fun y hy u hu hne => ?_
    rw [ne_eq, Assignment.view_eq_excluded, not_not, hmem y (mem_relation_operands hy)]
    cases hm : d.view.element y u <;> simp_all

/-- Where the rules are stable, taking all that is possible is a solution. -/
theorem exists_largest {d : Domains} (hd : d.WellFormed) (hst : c.Stable d.view)
    (hlen : c.relation.length = c.closure.length) :
    ∃ a, d.Admits a ∧ c.Holds a ∧ ∀ x v, d.Has (.set x) → (v ∈ a.set x ↔ d.view.element x v ≠ .excluded) := by
  let a := d.completion (fun _ _ => True) IntDomain.low
  have hmem : ∀ x v, d.Has (.set x) → (v ∈ a.set x ↔ d.view.element x v ≠ .excluded) := fun x v hx => by
    rw [Domains.mem_completion hd hx]
    cases d.view.element x v <;> simp
  have hview : ∀ x, .set x ∈ c.operands → ∀ v, a.view.element x v ≠ .excluded ↔ d.view.element x v ≠ .excluded :=
    fun x hx v => by rw [ne_eq, Assignment.view_eq_excluded, not_not, hmem x v (has_of_stable hst _ hx)]
  refine ⟨a, Domains.admits_completion hd fun b => ⟨Int32.le_rfl, b.low_le_high⟩,
    (c.holds_iff hlen a).2 ⟨fun x hx v hv => ?_, fun i x hx v hv => ?_⟩, hmem⟩
  · exact hst.isNode x hx v ((hview x (mem_relation_operands hx) v).1 hv)
  · have hx' : .set x ∈ c.operands := by simp [operands, List.mem_of_getElem? hx]
    exact (hst.mayReach i x hx v ((hview x hx' v).1 hv)).mono fun y hy u _ =>
      (hview y (mem_relation_operands hy) u).2

/-! ### What a call removes -/

/-- A successor that is no node, or an element of the set of a node that cannot be reached. -/
def Unfit (c : AtMostClosure) (V : View) (x : SetVar) (v : Int32) : Prop :=
  (x ∈ c.relation ∧ c.isNode v = false) ∨ ∃ i, c.closure[i]? = some x ∧ ¬ c.MayReach V i v

/-- The first part of a call leaves the edges between nodes, and so what can be reached. -/
private theorem mayReach_removeOutside_iff {u : Store} {q : Bool} (hs : s.domains.WellFormed)
    (h1 : c.removeOutside.run s r = ⟨u, q, .ok ()⟩) (i : Nat) (v : Int32) :
    c.MayReach u.domains.view i v ↔ c.MayReach s.domains.view i v := by
  obtain ⟨cs, hcs⟩ := Action.narrowed_run c.only_removeOutside hs r
  rw [h1] at hcs
  refine ⟨fun hv => hv.of_le hcs.le, fun hv => hv.mono fun x _ k hk hne => ?_⟩
  rw [hcs.element_eq]
  · exact hne
  · rintro _ ⟨y, w, rfl, -, hw⟩ ⟨-, hval⟩
    simp [show w = k from hval, hk] at hw

/-- A successful call removes the elements that are unfit at its start, and nothing else. -/
theorem element_of_fromScratch (hs : s.domains.WellFormed) (h : c.InScope s.domains)
    (hrun : c.fromScratch.run s r = ⟨t, r', .ok ()⟩) (x : SetVar) (v : Int32) :
    (t.domains.view.element x v = .excluded ↔ s.domains.view.element x v = .excluded ∨ c.Unfit s.domains.view x v) ∧
      (t.domains.view.element x v = .required ↔ s.domains.view.element x v = .required) := by
  obtain ⟨u, q, reach, hu, h1, hcontain, h2⟩ := fromScratch_ok hs h hrun
  obtain ⟨cs, hcs⟩ := Action.narrowed_run c.only_removeOutside hs r
  obtain ⟨ds, hds⟩ := Action.narrowed_run (c.only_removeClosure reach) hu q
  have hsteps := Action.steps_run c.excludes_fromScratch s r
  rw [h1] at hcs
  rw [h2] at hds
  rw [hrun] at hsteps
  have hle := hds.le.trans hcs.le
  have hreach : ∀ i w, c.mayContain reach i w = true ↔ c.MayReach s.domains.view i w := fun i w =>
    (hcontain i w).trans (mayReach_removeOutside_iff hs h1 i w)
  refine ⟨⟨fun hv => ?_, ?_⟩, hsteps.required hs (by rintro _ ⟨y, w, rfl, -⟩; simp), View.required_of_le hle⟩
  · -- neither part removes an element that is fit
    by_contra hno
    push Not at hno
    obtain ⟨hne, hfit⟩ := hno
    refine hne ?_
    rw [← hcs.element_eq, ← hds.element_eq]
    · exact hv
    · rintro _ ⟨i, y, w, rfl, hy, hw⟩ ⟨hvar, hval⟩
      cases hvar
      cases hval
      refine hfit (.inr ⟨i, hy, fun hmay => ?_⟩)
      simp [(hreach i w).2 hmay] at hw
    · rintro _ ⟨y, w, rfl, hy, hw⟩ ⟨hvar, hval⟩
      cases hvar
      cases hval
      exact hfit (.inl ⟨hy, hw⟩)
  · rintro (hv | ⟨hx, hno⟩ | ⟨i, hx, hno⟩)
    · exact View.excluded_of_le hle hv
    · by_contra hne
      have := isNode_of_removeOutside hs h1 x hx v fun he => hne (View.excluded_of_le hds.le he)
      simp [hno] at this
    · by_contra hne
      exact hno ((hreach i v).1
        (mayContain_of_removeClosure hu h2 (x, i) (List.mem_zipIdx_iff_getElem?.2 hx) v hne))

end AtMostClosure

end SetConstraints
