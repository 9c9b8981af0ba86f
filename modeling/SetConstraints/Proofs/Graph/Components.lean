import Mathlib.Logic.Relation
import SetConstraints.Graph.Components

/-!
# Components are completed in order

The walk keeps its stack in layers, one for each node on the path: below it the layers of the nodes before it on
the path, above it the nodes that were entered later and turned out to be strongly connected with it.  What a
layer has explored leads to complete components, to itself, or to a node below whose entry is not before the low
value of the layer (`Layer`).  So a node that is left while its low value is its own entry takes exactly its layer
along, and any other joins the layer below.

At the end each node has a component, nodes of one component reach each other, and an edge never leads to a
component completed later (`Ordered`, `Graph.ordered_components`).
-/

namespace SetConstraints

namespace Graph

variable {n : Nat}

/-- There is a path, possibly without edges. -/
def Reach (g : Graph n) : Fin n → Fin n → Prop := Relation.ReflTransGen g.Edge

end Graph

namespace Walk

variable {n : Nat} {g : Graph n} {w : Walk n}

/-- The nodes `above` and `v` form a layer of the stack on top of `below`; of the successors of `v`, those in
`later` are still to be explored. -/
structure Layer (g : Graph n) (w : Walk n) (v : Fin n) (later above below : List (Fin n)) : Prop where
  connected : ∀ u ∈ above, g.Reach u v ∧ g.Reach v u
  explored : ∀ u ∈ above, ∀ x ∈ g.next u, (w.entered.get x).isSome ∧
    (x ∈ below → ∀ t, w.entered.get x = some t → w.low.get v ≤ t)
  split : ∃ past, g.next v = past ++ later ∧ ∀ x ∈ past, (w.entered.get x).isSome ∧
    (x ∈ below → ∀ t, w.entered.get x = some t → w.low.get v ≤ t)
  low_le : ∀ t, w.entered.get v = some t → w.low.get v ≤ t
  low_reached : ∃ x ∈ v :: below, w.entered.get x = some (w.low.get v) ∧ g.Reach v x

/-- A stack consists of the layers of the nodes on a path, each with an edge from the node below. -/
def Layered (g : Graph n) (w : Walk n) : List (Fin n × List (Fin n)) → List (Fin n) → Prop
  | [], stack => stack = []
  | (v, later) :: path, stack => ∃ above below, stack = above ++ v :: below ∧ Layer g w v later above below ∧
      (∀ u ∈ path.head?, g.Edge u.1 v) ∧ Layered g w path below

/-- Complete components are closed under edges, which never lead to a later one. -/
structure Ordered (g : Graph n) (componentOf : Vector (Option Nat) n) (components : Array (List (Fin n))) : Prop where
  mem_iff : ∀ k (v : Fin n), (∃ members, components[k]? = some members ∧ v ∈ members) ↔ componentOf.get v = some k
  ne_nil : ∀ members ∈ components, members ≠ []
  nodup : ∀ members ∈ components, members.Nodup
  le_of_edge : ∀ u v k, g.Edge u v → componentOf.get u = some k → ∃ j ≤ k, componentOf.get v = some j
  reach : ∀ u v k, componentOf.get u = some k → componentOf.get v = some k → g.Reach u v

/-- What every round of a walk keeps. -/
structure Inv (g : Graph n) (w : Walk n) : Prop where
  layered : Layered g w w.path w.stack
  decreasing : w.stack.Pairwise fun u v => ∀ s t, w.entered.get u = some s → w.entered.get v = some t → t < s
  lt_time : ∀ (v : Fin n) t, w.entered.get v = some t → t < w.time
  onStack_iff : ∀ v : Fin n, w.onStack.get v = true ↔ v ∈ w.stack
  entered_iff : ∀ v : Fin n, (w.entered.get v).isSome ↔ v ∈ w.stack ∨ (w.componentOf.get v).isSome
  not_complete : ∀ v ∈ w.stack, w.componentOf.get v = none
  ordered : Ordered g w.componentOf w.components

/-! ### Entries of vectors -/

theorem get_set {α : Type} (xs : Vector α n) (i j : Fin n) (a : α) :
    (xs.set i a i.isLt).get j = if i = j then a else xs.get j := by
  show (xs.set i a)[(j : Nat)] = if i = j then a else xs[(j : Nat)]
  rw [Vector.getElem_set]
  simp only [Fin.val_inj]

private theorem get_setAll_cases {α : Type} (a : α) (xs : Vector α n) (l : List (Fin n)) (j : Fin n) :
    (j ∈ l → (setAll a xs l).get j = a) ∧ (j ∉ l → (setAll a xs l).get j = xs.get j) := by
  induction l generalizing xs with
  | nil => exact ⟨fun h => absurd h List.not_mem_nil, fun _ => rfl⟩
  | cons i l ih =>
    obtain ⟨hset, hkept⟩ := ih (xs.set i a)
    have hentry := get_set xs i j a
    rw [setAll, List.foldl_cons, ← setAll]
    constructor
    · intro h
      by_cases hj : j ∈ l
      · exact hset hj
      · rw [hkept hj, hentry, if_pos ((List.mem_cons.mp h).resolve_right hj).symm]
    · intro h
      rw [List.mem_cons, not_or] at h
      rw [hkept h.2, hentry, if_neg (Ne.symm h.1)]

private theorem get_setAll {α : Type} (a : α) (xs : Vector α n) (l : List (Fin n)) (j : Fin n) [Decidable (j ∈ l)] :
    (setAll a xs l).get j = if j ∈ l then a else xs.get j := by
  split
  · exact (get_setAll_cases a xs l j).1 ‹_›
  · exact (get_setAll_cases a xs l j).2 ‹_›

private theorem popThrough_append {v : Fin n} {above : List (Fin n)} (h : v ∉ above) (below : List (Fin n)) :
    popThrough v (above ++ v :: below) = (above ++ [v], below) := by
  induction above with
  | nil => simp [popThrough]
  | cons u above ih =>
    have huv : u ≠ v := fun e => h (by simp [e])
    simp [popThrough, huv, ih fun hv => h (by simp [hv])]

/-! ### Layers -/

/-- A layer depends only on the entries and on the low value of its node. -/
private theorem Layer.congr {w' : Walk n} {v : Fin n} {later above below : List (Fin n)}
    (h : Layer g w v later above below) (hlow : w'.low.get v = w.low.get v)
    (hsome : ∀ x : Fin n, (w.entered.get x).isSome → w'.entered.get x = w.entered.get x)
    (hv : (w.entered.get v).isSome) :
    Layer g w' v later above below where
  connected := h.connected
  explored u hu x hx := by
    have := h.explored u hu x hx
    rw [hlow, hsome x this.1]
    exact this
  split := by
    obtain ⟨past, hpast, hx⟩ := h.split
    refine ⟨past, hpast, fun x hxp => ?_⟩
    rw [hlow, hsome x (hx x hxp).1]
    exact hx x hxp
  low_le t ht := by
    rw [hsome v hv] at ht
    rw [hlow]
    exact h.low_le t ht
  low_reached := by
    obtain ⟨x, hx, he, hr⟩ := h.low_reached
    refine ⟨x, hx, ?_, hr⟩
    rw [hlow, hsome x (by rw [he]; rfl)]
    exact he

private theorem Layered.congr {w' : Walk n} {path : List (Fin n × List (Fin n))} {stack : List (Fin n)}
    (h : Layered g w path stack) (hlow : ∀ v ∈ stack, w'.low.get v = w.low.get v)
    (hsome : ∀ x : Fin n, (w.entered.get x).isSome → w'.entered.get x = w.entered.get x)
    (hstack : ∀ x ∈ stack, (w.entered.get x).isSome) : Layered g w' path stack := by
  induction path generalizing stack with
  | nil => exact h
  | cons f path ih =>
    obtain ⟨v, later⟩ := f
    obtain ⟨above, below, rfl, hlayer, hedge, hrest⟩ := h
    have hb : ∀ x ∈ below, (w.entered.get x).isSome := fun x hx => hstack x (by simp [hx])
    exact ⟨above, below, rfl, hlayer.congr (hlow v (by simp)) hsome (hstack v (by simp)), hedge,
      ih hrest (fun x hx => hlow x (by simp [hx])) hb⟩

/-- Every node on the stack reaches the node on top of the path. -/
private theorem Layered.reach_head {v : Fin n} {later : List (Fin n)} {path : List (Fin n × List (Fin n))}
    {stack : List (Fin n)} (h : Layered g w ((v, later) :: path) stack) : ∀ x ∈ stack, g.Reach x v := by
  induction path generalizing v later stack with
  | nil =>
    obtain ⟨above, below, rfl, hlayer, -, hrest⟩ := h
    obtain rfl : below = [] := hrest
    intro x hx
    rcases List.mem_append.1 hx with hx | hx
    · exact (hlayer.connected x hx).1
    · rw [List.mem_singleton.1 hx]
      exact .refl
  | cons f path ih =>
    obtain ⟨above, below, rfl, hlayer, hedge, hrest⟩ := h
    intro x hx
    rcases List.mem_append.1 hx with hx | hx
    · exact (hlayer.connected x hx).1
    · rcases List.mem_cons.1 hx with rfl | hx
      · exact .refl
      · exact (ih hrest x hx).tail (hedge f (by simp))

/-- The successor explored next has an entry, and the low value may have come down to it. -/
private theorem Layer.advance {w' : Walk n} {v u : Fin n} {later above below : List (Fin n)}
    (h : Layer g w v (u :: later) above below)
    (hsome : ∀ x : Fin n, (w.entered.get x).isSome → w'.entered.get x = w.entered.get x)
    (hv : (w.entered.get v).isSome)
    (hle : w'.low.get v ≤ w.low.get v) (hu : (w'.entered.get u).isSome)
    (hlow : u ∈ below → ∀ t, w'.entered.get u = some t → w'.low.get v ≤ t)
    (hreached : ∃ x ∈ v :: below, w'.entered.get x = some (w'.low.get v) ∧ g.Reach v x) :
    Layer g w' v later above below where
  connected := h.connected
  explored y hy x hx := by
    obtain ⟨h1, h2⟩ := h.explored y hy x hx
    rw [hsome x h1]
    exact ⟨h1, fun hb t ht => Nat.le_trans hle (h2 hb t ht)⟩
  split := by
    obtain ⟨past, hpast, hx⟩ := h.split
    refine ⟨past ++ [u], by simp [hpast], fun x hxp => ?_⟩
    rcases List.mem_append.1 hxp with hxp | hxp
    · obtain ⟨h1, h2⟩ := hx x hxp
      rw [hsome x h1]
      exact ⟨h1, fun hb t ht => Nat.le_trans hle (h2 hb t ht)⟩
    · rw [List.mem_singleton.1 hxp]
      exact ⟨hu, hlow⟩
  low_le t ht := by
    rw [hsome v hv] at ht
    exact Nat.le_trans hle (h.low_le t ht)
  low_reached := hreached

/-- What a layer whose node has nothing left to explore leads to. -/
private theorem Layer.explored_all {v : Fin n} {above below : List (Fin n)} (h : Layer g w v [] above below) :
    ∀ u ∈ above ++ [v], ∀ x ∈ g.next u, (w.entered.get x).isSome ∧
      (x ∈ below → ∀ t, w.entered.get x = some t → w.low.get v ≤ t) := by
  intro u hu x hx
  rcases List.mem_append.1 hu with hu | hu
  · exact h.explored u hu x hx
  · obtain ⟨past, hpast, hxp⟩ := h.split
    rw [List.mem_singleton.1 hu, hpast, List.append_nil] at hx
    exact hxp x hx

/-- All nodes of a layer reach each other. -/
private theorem Layer.reach {v : Fin n} {later above below : List (Fin n)} (h : Layer g w v later above below) :
    ∀ a ∈ above ++ [v], g.Reach a v ∧ g.Reach v a := by
  intro a ha
  rcases List.mem_append.1 ha with ha | ha
  · exact h.connected a ha
  · rw [List.mem_singleton.1 ha]
    exact ⟨.refl, .refl⟩

/-- A layer whose node has nothing left to explore is taken into the layer below, with the smaller of the low
values. -/
private theorem Layer.merge {v u : Fin n} {later above aboveU belowU : List (Fin n)}
    (hv : Layer g w v [] above (aboveU ++ u :: belowU)) (hu : Layer g w u later aboveU belowU) (huv : g.Reach u v)
    (hvu : g.Reach v u) (path : List (Fin n × List (Fin n)))
    (hreached : ∃ x ∈ u :: belowU, w.entered.get x = some (min (w.low.get u) (w.low.get v)) ∧ g.Reach u x) :
    Layer g { w with low := w.low.set u (min (w.low.get u) (w.low.get v)) u.isLt, path := path } u later
      (above ++ v :: aboveU) belowU where
  connected a ha := by
    have hcases : a ∈ above ++ [v] ∨ a ∈ aboveU := by simpa [or_assoc] using ha
    rcases hcases with ha | ha
    · obtain ⟨h1, h2⟩ := hv.reach a ha
      exact ⟨h1.trans hvu, huv.trans h2⟩
    · exact hu.connected a ha
  explored a ha y hy := by
    have hcases : a ∈ above ++ [v] ∨ a ∈ aboveU := by simpa [or_assoc] using ha
    simp only [get_set, if_true]
    rcases hcases with ha | ha
    · obtain ⟨h1, h2⟩ := hv.explored_all a ha y hy
      exact ⟨h1, fun hb t ht => Nat.le_trans (Nat.min_le_right _ _) (h2 (by simp [hb]) t ht)⟩
    · obtain ⟨h1, h2⟩ := hu.explored a ha y hy
      exact ⟨h1, fun hb t ht => Nat.le_trans (Nat.min_le_left _ _) (h2 hb t ht)⟩
  split := by
    obtain ⟨past, hpast, hy⟩ := hu.split
    refine ⟨past, hpast, fun y hyp => ?_⟩
    simp only [get_set, if_true]
    exact ⟨(hy y hyp).1, fun hb t ht => Nat.le_trans (Nat.min_le_left _ _) ((hy y hyp).2 hb t ht)⟩
  low_le t ht := by
    simp only [get_set, if_true]
    exact Nat.le_trans (Nat.min_le_left _ _) (hu.low_le t ht)
  low_reached := by
    simp only [get_set, if_true]
    exact hreached

/-! ### Completing a component -/

private theorem Ordered.lt_size {of : Vector (Option Nat) n} {comps : Array (List (Fin n))} (h : Ordered g of comps)
    {v : Fin n} {k : Nat} (hv : of.get v = some k) : k < comps.size := by
  obtain ⟨members, hm, -⟩ := (h.mem_iff k v).2 hv
  exact (Array.getElem?_eq_some_iff.1 hm).1

/-- Nodes that reach each other, and otherwise lead to complete components only, form the next component. -/
private theorem Ordered.push {of : Vector (Option Nat) n} {comps : Array (List (Fin n))} (h : Ordered g of comps)
    (members : List (Fin n)) (hne : members ≠ []) (hnodup : members.Nodup) (hnone : ∀ x ∈ members, of.get x = none)
    (hclosed : ∀ u ∈ members, ∀ x, g.Edge u x → x ∈ members ∨ (of.get x).isSome)
    (hreach : ∀ a ∈ members, ∀ b ∈ members, g.Reach a b) :
    Ordered g (setAll (some comps.size) of members) (comps.push members) where
  mem_iff k v := by
    rw [get_setAll]
    have hk := h.mem_iff k v
    have hlt := fun hv => h.lt_size (v := v) (k := k) hv
    simp only [Array.getElem?_push]
    grind
  ne_nil m hm := by
    rcases Array.mem_push.1 hm with hm | rfl
    · exact h.ne_nil m hm
    · exact hne
  nodup m hm := by
    rcases Array.mem_push.1 hm with hm | rfl
    · exact h.nodup m hm
    · exact hnodup
  le_of_edge u v k huv hu := by
    rw [get_setAll] at hu ⊢
    split at hu
    · obtain rfl := Option.some.inj hu
      split
      · exact ⟨_, Nat.le_refl _, rfl⟩
      · obtain ⟨j, hj⟩ := Option.isSome_iff_exists.1 ((hclosed u (by assumption) v huv).resolve_left (by assumption))
        exact ⟨j, Nat.le_of_lt (h.lt_size hj), hj⟩
    · obtain ⟨j, hjk, hj⟩ := h.le_of_edge u v k huv hu
      split
      · rename_i hv
        rw [hnone v hv] at hj
        cases hj
      · exact ⟨j, hjk, hj⟩
  reach u v k hu hv := by
    rw [get_setAll] at hu hv
    split at hu <;> split at hv
    · exact hreach u (by assumption) v (by assumption)
    · exact absurd (h.lt_size hv) (by have := Option.some.inj hu; omega)
    · exact absurd (h.lt_size hu) (by have := Option.some.inj hv; omega)
    · exact h.reach u v k hu hv

/-! ### What one round keeps -/

namespace Inv

theorem isSome_of_mem (h : Inv g w) {v : Fin n} (hv : v ∈ w.stack) : (w.entered.get v).isSome :=
  (h.entered_iff v).2 (.inl hv)

private theorem nodup (h : Inv g w) : w.stack.Nodup := by
  refine h.decreasing.imp_of_mem fun {a b} ha _ hab he => ?_
  subst he
  obtain ⟨t, ht⟩ := Option.isSome_iff_exists.1 (h.isSome_of_mem ha)
  exact absurd (hab t t ht ht) (Nat.lt_irrefl t)

/-- Entering a node puts a new layer on the stack. -/
private theorem enter (h : Inv g w) {u : Fin n} (hu : w.entered.get u = none) (path : List (Fin n × List (Fin n)))
    (hl : Layered g ({ w with path := path }.enter g u) path w.stack)
    (hedge : ∀ f ∈ path.head?, g.Edge f.1 u) : Inv g ({ w with path := path }.enter g u) := by
  have hus : u ∉ w.stack := fun hm => by have := h.isSome_of_mem hm; simp [hu] at this
  have hent : ∀ x : Fin n, ({ w with path := path }.enter g u).entered.get x =
      if u = x then some w.time else w.entered.get x := fun x => get_set _ _ _ _
  have hlow : ({ w with path := path }.enter g u).low.get u = w.time := by
    simp only [Walk.enter, get_set, if_true]
  refine
    { layered := ⟨[], w.stack, rfl, ⟨by simp, by simp, ⟨[], rfl, by simp⟩, ?_, ?_⟩, hedge, hl⟩
      decreasing := ?_, lt_time := ?_, onStack_iff := ?_, entered_iff := ?_, not_complete := ?_
      ordered := h.ordered }
  · intro t ht
    rw [hent, if_pos rfl] at ht
    rw [hlow]
    exact Nat.le_of_eq (Option.some.inj ht)
  · exact ⟨u, by simp, by rw [hent, if_pos rfl, hlow], .refl⟩
  · refine List.pairwise_cons.2
      ⟨fun x hx s t hs ht => ?_, h.decreasing.imp_of_mem fun {a b} ha hb hab s t hs ht => ?_⟩
    · have hux : u ≠ x := fun e => hus (e ▸ hx)
      rw [hent, if_pos rfl] at hs
      rw [hent, if_neg hux] at ht
      exact Option.some.inj hs ▸ h.lt_time x t ht
    · have hua : u ≠ a := fun e => hus (e ▸ ha)
      have hub : u ≠ b := fun e => hus (e ▸ hb)
      rw [hent, if_neg hua] at hs
      rw [hent, if_neg hub] at ht
      exact hab s t hs ht
  · intro x t ht
    rw [hent] at ht
    show t < w.time + 1
    split at ht
    · have := Option.some.inj ht
      omega
    · have := h.lt_time x t ht
      omega
  · intro x
    have := h.onStack_iff x
    simp only [Walk.enter, get_set, List.mem_cons]
    split
    · simp_all
    · rename_i hne
      simpa [Ne.symm hne] using this
  · intro x
    rw [hent]
    have := h.entered_iff x
    simp only [Walk.enter, List.mem_cons]
    split
    · simp_all
    · rename_i hne
      simpa [Ne.symm hne] using this
  · intro x hx
    rcases List.mem_cons.1 hx with rfl | hx
    · cases hc : w.componentOf.get x with
      | none => exact hc
      | some k =>
        have := (h.entered_iff x).2 (.inr (by rw [hc]; rfl))
        rw [hu] at this
        cases this
    · exact h.not_complete x hx

private theorem enter_root (h : Inv g w) (hp : w.path = []) {u : Fin n} (hu : w.entered.get u = none) :
    Inv g (w.enter g u) := by
  have := h.enter hu [] (by have := h.layered; rw [hp] at this; exact this) (by simp)
  rwa [← hp] at this

private theorem enter_next (h : Inv g w) {v u : Fin n} {later : List (Fin n)} {path : List (Fin n × List (Fin n))}
    (hp : w.path = (v, u :: later) :: path) (hu : w.entered.get u = none) :
    Inv g ({ w with path := (v, later) :: path }.enter g u) := by
  have hl := h.layered
  rw [hp] at hl
  obtain ⟨above, below, hs, hlayer, hedge, hrest⟩ := hl
  have hus : u ∉ w.stack := fun hm => by have := h.isSome_of_mem hm; simp [hu] at this
  have hstack : ∀ x ∈ above ++ v :: below, (w.entered.get x).isSome := fun x hx => h.isSome_of_mem (hs ▸ hx)
  have hne : ∀ x ∈ above ++ v :: below, u ≠ x := fun x hx e => hus (hs ▸ e ▸ hx)
  have hsome : ∀ x : Fin n, (w.entered.get x).isSome →
      ({ w with path := (v, later) :: path }.enter g u).entered.get x = w.entered.get x := by
    intro x hx
    have : u ≠ x := fun e => by subst e; simp [hu] at hx
    simp only [Walk.enter, get_set, if_neg this]
  have hlow : ∀ x ∈ above ++ v :: below,
      ({ w with path := (v, later) :: path }.enter g u).low.get x = w.low.get x := by
    intro x hx
    simp only [Walk.enter, get_set, if_neg (hne x hx)]
  refine h.enter hu _ ⟨above, below, hs, ?_, hedge, hrest.congr ?_ hsome ?_⟩ ?_
  · refine hlayer.advance hsome (hstack v (by simp)) (Nat.le_of_eq (hlow v (by simp))) ?_ ?_ ?_
    · simp only [Walk.enter, get_set, if_true, Option.isSome_some]
    · exact fun hb => absurd rfl (hne u (by simp [hb]))
    · obtain ⟨x, hx, he, hr⟩ := hlayer.low_reached
      have hxs : x ∈ above ++ v :: below := List.mem_append_right _ hx
      exact ⟨x, hx, by rw [hsome x (hstack x hxs), hlow v (by simp), he], hr⟩
  · exact fun x hx => hlow x (by simp [hx])
  · exact fun x hx => hstack x (by simp [hx])
  · intro f hf
    obtain rfl := Option.some.inj hf
    obtain ⟨past, hpast, -⟩ := hlayer.split
    simp [Graph.Edge, hpast]

private theorem meet_eq (w : Walk n) (v u : Fin n) (entry : Nat) : w.meet v u entry =
    if w.onStack.get u = true then { w with low := w.low.set v (min (w.low.get v) entry) v.isLt } else w := rfl

/-- Meeting a node that was entered before may lower the low value. -/
private theorem meet (h : Inv g w) {v u : Fin n} {later : List (Fin n)} {path : List (Fin n × List (Fin n))}
    {entry : Nat} (hp : w.path = (v, u :: later) :: path) (hu : w.entered.get u = some entry) :
    Inv g ({ w with path := (v, later) :: path }.meet v u entry) := by
  have hl := h.layered
  rw [hp] at hl
  obtain ⟨above, below, hs, hlayer, hedge, hrest⟩ := hl
  have hv : (w.entered.get v).isSome := h.isSome_of_mem (by simp [hs])
  have hvb : v ∉ below := by
    have := h.nodup
    rw [hs, List.nodup_append] at this
    exact (List.nodup_cons.1 this.2.1).1
  have hux : g.Edge v u := by
    obtain ⟨past, hpast, -⟩ := hlayer.split
    simp [Graph.Edge, hpast]
  rw [meet_eq]
  split
  · rename_i hon
    have hus : u ∈ w.stack := (h.onStack_iff u).1 hon
    refine
      { layered := ⟨above, below, hs,
          hlayer.advance (fun _ _ => rfl) hv ?_ (by simp only [hu, Option.isSome_some]) ?_ ?_,
          hedge, hrest.congr ?_ (fun _ _ => rfl) fun x hx => h.isSome_of_mem (by simp [hs, hx])⟩
        decreasing := h.decreasing, lt_time := h.lt_time, onStack_iff := h.onStack_iff
        entered_iff := h.entered_iff, not_complete := h.not_complete, ordered := h.ordered }
    · simp only [get_set, if_true]
      exact Nat.min_le_left _ _
    · intro _ t ht
      simp only [get_set, if_true]
      exact Option.some.inj (hu.symm.trans ht) ▸ Nat.min_le_right _ _
    · simp only [get_set, if_true]
      rcases Nat.le_total (w.low.get v) entry with hle | hle
      · obtain ⟨x, hx, he, hr⟩ := hlayer.low_reached
        exact ⟨x, hx, by rw [he, Nat.min_eq_left hle], hr⟩
      · refine ⟨u, ?_, by rw [hu, Nat.min_eq_right hle], .single hux⟩
        -- a node above `v` has a later entry, so the low value was smaller already
        rw [hs] at hus
        rcases List.mem_append.1 hus with hua | hub
        · obtain ⟨t, ht⟩ := Option.isSome_iff_exists.1 hv
          have hdec := h.decreasing
          rw [hs, List.pairwise_append] at hdec
          have hlt := hdec.2.2 u hua v (by simp) entry t hu ht
          have := hlayer.low_le t ht
          omega
        · exact hub
    · intro x hx
      have : v ≠ x := fun e => hvb (e ▸ hx)
      simp only [get_set, if_neg this]
  · rename_i hon
    have hus : u ∉ w.stack := fun hm => hon ((h.onStack_iff u).2 hm)
    refine
      { layered := ⟨above, below, hs, hlayer.advance (fun _ _ => rfl) hv (Nat.le_refl _)
          (by simp only [hu, Option.isSome_some]) (fun hb => absurd (by simp [hs, hb]) hus) hlayer.low_reached, hedge,
          hrest.congr (fun _ _ => rfl) (fun _ _ => rfl) fun x hx => h.isSome_of_mem (by simp [hs, hx])⟩
        decreasing := h.decreasing, lt_time := h.lt_time, onStack_iff := h.onStack_iff
        entered_iff := h.entered_iff, not_complete := h.not_complete, ordered := h.ordered }

/-- Leaving a node whose low value is its own entry completes its layer. -/
private theorem complete (h : Inv g w) {v : Fin n} {path : List (Fin n × List (Fin n))} {low : Vector Nat n}
    (hp : w.path = (v, []) :: path) (hlow : ∀ x ∈ w.stack, low.get x = w.low.get x)
    (hv : w.entered.get v = some (w.low.get v)) :
    Inv g ({ w with low := low, path := path }.complete v) := by
  have hl := h.layered
  rw [hp] at hl
  obtain ⟨above, below, hs, hlayer, -, hrest⟩ := hl
  have hnodup := h.nodup
  have hdec := h.decreasing
  rw [hs, List.append_cons, List.pairwise_append] at hdec
  have hsplit : w.stack = (above ++ [v]) ++ below := by simp [hs]
  have hva : v ∉ above := by
    rw [hs, List.nodup_append] at hnodup
    exact fun hm => hnodup.2.2 v hm v (by simp) rfl
  have hdisj : ∀ x ∈ above ++ [v], x ∉ below := fun x hx hb => by
    rw [hsplit, List.nodup_append] at hnodup
    exact hnodup.2.2 x hx x hb rfl
  -- an edge to a node below would have lowered the low value under the entry
  have hclosed : ∀ u ∈ above ++ [v], ∀ x, g.Edge u x → x ∈ above ++ [v] ∨ (w.componentOf.get x).isSome := by
    intro u hu x hux
    obtain ⟨hx, hxlow⟩ := hlayer.explored_all u hu x hux
    rcases (h.entered_iff x).1 hx with hxs | hxc
    · rw [hsplit] at hxs
      rcases List.mem_append.1 hxs with hxs | hxb
      · exact .inl hxs
      · obtain ⟨t, ht⟩ := Option.isSome_iff_exists.1 hx
        have h1 := hdec.2.2 v (by simp) x hxb _ t hv ht
        have h2 := hxlow hxb t ht
        omega
    · exact .inr hxc
  have hreach := hlayer.reach
  have hord := h.ordered.push (above ++ [v]) (by simp)
    ((List.nodup_append.1 (hsplit ▸ hnodup)).1)
    (fun x hx => h.not_complete x (hsplit ▸ List.mem_append_left _ hx)) hclosed
    fun a ha b hb => (hreach a ha).1.trans (hreach b hb).2
  simp only [Walk.complete, hs, popThrough_append hva]
  refine
    { layered := hrest.congr (fun x hx => hlow x (by simp [hs, hx])) (fun _ _ => rfl)
        fun x hx => h.isSome_of_mem (by simp [hs, hx])
      decreasing := hdec.2.1, lt_time := h.lt_time, onStack_iff := ?_, entered_iff := ?_, not_complete := ?_
      ordered := hord }
  · intro x
    have := h.onStack_iff x
    rw [hsplit, List.mem_append] at this
    have := hdisj x
    simp only [get_setAll]
    grind
  · intro x
    have := h.entered_iff x
    rw [hsplit, List.mem_append] at this
    simp only [get_setAll]
    grind
  · intro x hx
    have : x ∉ above ++ [v] := fun hm => hdisj x hm hx
    simp only [get_setAll, if_neg this]
    exact h.not_complete x (by simp [hs, hx])

/-- Leaving any other node adds its layer to the one below. -/
private theorem merge (h : Inv g w) {v u : Fin n} {later : List (Fin n)} {path : List (Fin n × List (Fin n))}
    (hp : w.path = (v, []) :: (u, later) :: path) (hv : w.entered.get v ≠ some (w.low.get v)) :
    Inv g { w with low := w.low.set u (min (w.low.get u) (w.low.get v)) u.isLt, path := (u, later) :: path } := by
  have hl := h.layered
  rw [hp] at hl
  obtain ⟨above, below, hs, hlayer, hedge, hrest⟩ := hl
  have huv : g.Reach u v := .single (hedge (u, later) (by simp))
  have hback := hrest.reach_head
  obtain ⟨aboveU, belowU, rfl, hlayerU, hedgeU, hrestU⟩ := hrest
  have hdec := h.decreasing
  rw [hs, List.pairwise_append, List.pairwise_cons, List.pairwise_append] at hdec
  -- the low value leads to a node below, and from there to `u`
  obtain ⟨x, hx, hxe, hvx⟩ := hlayer.low_reached
  have hxb : x ∈ aboveU ++ u :: belowU := by
    rcases List.mem_cons.1 hx with rfl | hx
    · exact absurd hxe hv
    · exact hx
  have hreached : ∃ y ∈ u :: belowU, w.entered.get y = some (min (w.low.get u) (w.low.get v)) ∧ g.Reach u y := by
    rcases Nat.le_total (w.low.get u) (w.low.get v) with hmin | hmin
    · rw [Nat.min_eq_left hmin]
      exact hlayerU.low_reached
    · refine ⟨x, ?_, by rw [hxe, Nat.min_eq_right hmin], huv.trans hvx⟩
      rcases List.mem_append.1 hxb with hxa | hxb
      · -- a node above `u` has a later entry, so the low value of `u` was smaller already
        obtain ⟨t, ht⟩ := Option.isSome_iff_exists.1 (h.isSome_of_mem (v := u) (by simp [hs]))
        have h1 := hdec.2.1.2.2.2 x hxa u (by simp) _ t hxe ht
        have h2 := hlayerU.low_le t ht
        omega
      · exact hxb
  have hub : u ∉ belowU := by
    have := h.nodup
    rw [hs, List.nodup_append, List.nodup_cons, List.nodup_append] at this
    exact (List.nodup_cons.1 this.2.1.2.2.1).1
  refine
    { layered := ⟨above ++ v :: aboveU, belowU, by simp [hs],
        hlayer.merge hlayerU huv (hvx.trans (hback x hxb)) _ hreached, hedgeU, hrestU.congr ?_ (fun _ _ => rfl) ?_⟩
      decreasing := h.decreasing, lt_time := h.lt_time, onStack_iff := h.onStack_iff
      entered_iff := h.entered_iff, not_complete := h.not_complete, ordered := h.ordered }
  · intro y hy
    have : u ≠ y := fun e => hub (e ▸ hy)
    simp only [get_set, if_neg this]
  · exact fun y hy => h.isSome_of_mem (by simp [hs, hy])

private theorem leave_nil (w : Walk n) (v : Fin n) : w.leave v [] =
    if w.entered.get v = some (w.low.get v) then { w with path := [] }.complete v else { w with path := [] } := rfl

private theorem leave_cons (w : Walk n) (v u : Fin n) (later : List (Fin n)) (path : List (Fin n × List (Fin n))) :
    w.leave v ((u, later) :: path) =
      let low := w.low.set u (min (w.low.get u) (w.low.get v)) u.isLt
      if w.entered.get v = some (low.get v) then { w with low := low, path := (u, later) :: path }.complete v
      else { w with low := low, path := (u, later) :: path } := rfl

/-- Leaving a node completes its layer or hands it on. -/
private theorem leave (h : Inv g w) {v : Fin n} {path : List (Fin n × List (Fin n))} (hp : w.path = (v, []) :: path) :
    Inv g (w.leave v path) := by
  have hl := h.layered
  rw [hp] at hl
  obtain ⟨above, below, hs, hlayer, -, hrest⟩ := hl
  cases path with
  | nil =>
    have hroot : w.entered.get v = some (w.low.get v) := by
      obtain rfl : below = [] := hrest
      obtain ⟨x, hx, he, -⟩ := hlayer.low_reached
      rwa [List.mem_singleton.1 hx] at he
    rw [leave_nil, if_pos hroot]
    exact h.complete hp (fun _ _ => rfl) hroot
  | cons f path =>
    obtain ⟨u, later⟩ := f
    obtain ⟨aboveU, belowU, rfl, hlayerU, -, -⟩ := hrest
    have hdec := h.decreasing
    rw [hs, List.pairwise_append, List.pairwise_cons] at hdec
    have huv : u ≠ v := by
      rintro rfl
      have := h.nodup
      rw [hs, List.nodup_append, List.nodup_cons] at this
      exact this.2.1.1 (by simp)
    simp only [leave_cons, get_set, if_neg huv]
    split
    · rename_i hroot
      refine h.complete hp (fun x hx => ?_) hroot
      rw [get_set]
      split
      · rename_i hux
        subst hux
        obtain ⟨t, ht⟩ := Option.isSome_iff_exists.1 (h.isSome_of_mem (v := u) (by simp [hs]))
        have h1 := hdec.2.1.1 u (by simp) _ t hroot ht
        have h2 := hlayerU.low_le t ht
        exact Nat.min_eq_left (by omega)
      · rfl
    · rename_i hroot
      exact h.merge hp hroot

end Inv

/-! ### The whole walk -/

private theorem entered_leave (w : Walk n) (v : Fin n) (path : List (Fin n × List (Fin n))) :
    (w.leave v path).entered = w.entered := by
  unfold leave
  simp only
  split <;> split <;> rfl

private theorem Inv.explore (h : Inv g w) : Inv g (explore g w) ∧ (explore g w).path = [] ∧
    ∀ v : Fin n, (w.entered.get v).isSome → ((explore g w).entered.get v).isSome := by
  fun_induction Walk.explore g w with
  | case1 w hp => exact ⟨h, hp, fun _ hv => hv⟩
  | case2 w v u later path hp w' hu ih =>
    obtain ⟨h1, h2, h3⟩ := ih (h.enter_next hp hu)
    refine ⟨h1, h2, fun x hx => h3 x ?_⟩
    simp only [Walk.enter, get_set]
    split
    · rfl
    · exact hx
  | case3 w v u later path hp w' entry hu ih =>
    obtain ⟨h1, h2, h3⟩ := ih (h.meet hp hu)
    refine ⟨h1, h2, fun x hx => h3 x ?_⟩
    unfold Walk.meet
    split <;> exact hx
  | case4 w v path hp ih =>
    obtain ⟨h1, h2, h3⟩ := ih (h.leave hp)
    exact ⟨h1, h2, fun x hx => h3 x (by rwa [entered_leave])⟩

private theorem Inv.exploreFrom (h : Inv g w) (hp : w.path = []) (root : Fin n) :
    Inv g (exploreFrom g w root) ∧ (exploreFrom g w root).path = [] ∧
      ((exploreFrom g w root).entered.get root).isSome ∧
      ∀ v : Fin n, (w.entered.get v).isSome → ((exploreFrom g w root).entered.get v).isSome := by
  unfold Walk.exploreFrom
  split
  · rename_i t ht
    have ht : w.entered.get root = some t := ht
    exact ⟨h, hp, by rw [ht]; rfl, fun _ hv => hv⟩
  · rename_i hu
    obtain ⟨h1, h2, h3⟩ := (h.enter_root hp hu).explore
    have hent : ∀ x : Fin n, (w.enter g root).entered.get x = if root = x then some w.time else w.entered.get x :=
      fun x => get_set _ _ _ _
    refine ⟨h1, h2, h3 root (by rw [hent, if_pos rfl]; rfl), fun x hx => h3 x ?_⟩
    rw [hent]
    split
    · rfl
    · exact hx

private theorem inv_start : Inv g {} where
  layered := rfl
  decreasing := .nil
  lt_time v t h := by simp [Vector.get] at h
  onStack_iff v := by simp [Vector.get]
  entered_iff v := by simp [Vector.get]
  not_complete v hv := by cases hv
  ordered :=
    { mem_iff := by simp [Vector.get]
      ne_nil := by simp
      nodup := by simp
      le_of_edge := by simp [Vector.get]
      reach := by simp [Vector.get] }

private theorem inv_foldl (roots : List (Fin n)) (h : Inv g w) (hp : w.path = []) :
    Inv g (roots.foldl (exploreFrom g) w) ∧ (roots.foldl (exploreFrom g) w).path = [] ∧
      (∀ v ∈ roots, ((roots.foldl (exploreFrom g) w).entered.get v).isSome) ∧
      ∀ v : Fin n, (w.entered.get v).isSome → ((roots.foldl (exploreFrom g) w).entered.get v).isSome := by
  induction roots generalizing w with
  | nil => exact ⟨h, hp, by simp, fun _ hv => hv⟩
  | cons root roots ih =>
    obtain ⟨h1, h2, h3, h4⟩ := h.exploreFrom hp root
    obtain ⟨k1, k2, k3, k4⟩ := ih h1 h2
    refine ⟨k1, k2, fun v hv => ?_, fun v hv => k4 v (h4 v hv)⟩
    rcases List.mem_cons.1 hv with rfl | hv
    · exact k4 v h3
    · exact k3 v hv

/-- At the end nobody is being visited, and every node was entered. -/
theorem inv_whole (g : Graph n) :
    Inv g (whole g) ∧ (whole g).path = [] ∧ ∀ v : Fin n, ((whole g).entered.get v).isSome := by
  obtain ⟨h, hp, hentered, -⟩ := inv_foldl (g := g) (List.finRange n) inv_start rfl
  exact ⟨h, hp, fun v => hentered v (List.mem_finRange v)⟩

end Walk

namespace Graph

variable {n : Nat} (g : Graph n)

/-- Each node has a component, and edges never lead to a component completed later. -/
theorem ordered_components :
    Walk.Ordered g g.components.componentOf g.components.members ∧
      ∀ v : Fin n, (g.components.componentOf.get v).isSome := by
  obtain ⟨h, hp, hentered⟩ := Walk.inv_whole g
  refine ⟨h.ordered, fun v => ?_⟩
  have hstack := h.layered
  rw [hp] at hstack
  rcases (h.entered_iff v).1 (hentered v) with hs | hc
  · rw [show _ = [] from hstack] at hs
    cases hs
  · exact hc

end Graph

end SetConstraints
