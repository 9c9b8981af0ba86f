import Mathlib.Algebra.BigOperators.Group.Finset.Basic
import Mathlib.Algebra.BigOperators.Fin
import SetConstraints.Proofs.Graph.Components

/-!
# The walk ends, and finds the strongly connected components

Every round of the walk uses up a successor still to be explored or a node still to be left, and entering a node only
moves its successors from those to come to the path (`Walk.ahead_enter`).  So the walk through all roots makes one
round for each node and one for each edge (`Walk.visits_whole`).

What it has found then are the classes of nodes that reach each other: an edge never leads to a later component, hence
no path does, and a path there and back stays in one component (`Graph.Decomposition`).
-/

namespace SetConstraints

namespace Walk

variable {n : Nat} {g : Graph n} {w x : Walk n}

/-! ### Rounds -/

/-- It takes `k` rounds from `w` until the path is empty, which leaves `x`.  In a round the next successor of the
current node is entered or has been entered before, or the node is left. -/
inductive Explores (g : Graph n) : Nat → Walk n → Walk n → Prop
  | done {w : Walk n} (hp : w.path = []) : Explores g 0 w w
  | enter {k : Nat} {w x : Walk n} {v u : Fin n} {later : List (Fin n)} {path : List (Fin n × List (Fin n))}
      (hp : w.path = (v, u :: later) :: path) (hu : w.entered.get u = none)
      (h : Explores g k ({ w with path := (v, later) :: path }.enter g u) x) : Explores g (k + 1) w x
  | meet {k : Nat} {w x : Walk n} {v u : Fin n} {later : List (Fin n)} {path : List (Fin n × List (Fin n))}
      {entry : Nat} (hp : w.path = (v, u :: later) :: path) (hu : w.entered.get u = some entry)
      (h : Explores g k ({ w with path := (v, later) :: path }.meet v u entry) x) : Explores g (k + 1) w x
  | leave {k : Nat} {w x : Walk n} {v : Fin n} {path : List (Fin n × List (Fin n))} (hp : w.path = (v, []) :: path)
      (h : Explores g k (w.leave v path) x) : Explores g (k + 1) w x

/-- It takes `k` rounds from `w` to visit some roots one after the other, which leaves `x`.  Nothing is to be done for
a root that was entered before. -/
inductive Visits (g : Graph n) : Nat → List (Fin n) → Walk n → Walk n → Prop
  | nil (w : Walk n) : Visits g 0 [] w w
  | skip {k : Nat} {roots : List (Fin n)} {w x : Walk n} {root : Fin n} {entry : Nat}
      (hr : w.entered.get root = some entry) (h : Visits g k roots w x) : Visits g k (root :: roots) w x
  | explore {j k : Nat} {roots : List (Fin n)} {w x y : Walk n} {root : Fin n} (hr : w.entered.get root = none)
      (hx : Explores g j (w.enter g root) x) (h : Visits g k roots x y) : Visits g (j + k) (root :: roots) w y

/-- The rounds to come: one for each successor to be explored and one for each node to be left, of the nodes not
entered and of those on the path. -/
def ahead (g : Graph n) (w : Walk n) : Nat :=
  (∑ v, if (w.entered.get v).isNone then (g.next v).length + 1 else 0) +
    (w.path.map fun f => f.2.length + 1).sum

/-- Entering a node moves its successors to the path. -/
private theorem ahead_enter {u : Fin n} (hu : w.entered.get u = none) : ahead g (w.enter g u) = ahead g w := by
  have hentered (v : Fin n) : (w.enter g u).entered.get v = if u = v then some w.time else w.entered.get v :=
    get_set _ _ _ _
  -- only `u` is no longer among the nodes not entered
  have hothers :
      ∑ v ∈ Finset.univ.erase u, (if ((w.enter g u).entered.get v).isNone then (g.next v).length + 1 else 0) =
      ∑ v ∈ Finset.univ.erase u, if (w.entered.get v).isNone then (g.next v).length + 1 else 0 := by
    apply Finset.sum_congr rfl
    intro v hv
    have huv : u ≠ v := (Finset.ne_of_mem_erase hv).symm
    rw [hentered, if_neg huv]
  have hpath : (w.enter g u).path = (u, g.next u) :: w.path := rfl
  unfold ahead
  rw [← Finset.add_sum_erase _ _ (Finset.mem_univ u), ← Finset.add_sum_erase _ _ (Finset.mem_univ u), hothers,
    hentered, if_pos rfl, hu, hpath, List.map_cons, List.sum_cons]
  simp only [Option.isNone_some, Option.isNone_none, Bool.false_eq_true, if_true, if_false]
  omega

/-- Exploring a successor that was entered before takes it off the path. -/
private theorem ahead_meet {v u : Fin n} {later : List (Fin n)} {path : List (Fin n × List (Fin n))}
    (hp : w.path = (v, u :: later) :: path) (entry : Nat) :
    ahead g ({ w with path := (v, later) :: path }.meet v u entry) + 1 = ahead g w := by
  have hmeet : ahead g ({ w with path := (v, later) :: path }.meet v u entry) =
      ahead g { w with path := (v, later) :: path } := by
    unfold meet
    split <;> rfl
  rw [hmeet]
  simp only [ahead, hp, List.map_cons, List.sum_cons, List.length_cons]
  omega

/-- Leaving a node takes it off the path. -/
private theorem ahead_leave {v : Fin n} {path : List (Fin n × List (Fin n))} (hp : w.path = (v, []) :: path) :
    ahead g (w.leave v path) + 1 = ahead g w := by
  have hleave : ahead g (w.leave v path) = ahead g { w with path := path } := by
    unfold leave
    simp only
    split <;> split <;> rfl
  rw [hleave]
  simp only [ahead, hp, List.map_cons, List.sum_cons, List.length_nil]
  omega

/-- The walk from one root ends, with a round less to come after each round. -/
theorem exists_explores (g : Graph n) (w : Walk n) :
    ∃ k, Explores g k w (explore g w) ∧ k + ahead g (explore g w) = ahead g w := by
  fun_induction explore g w with
  | case1 w hp => exact ⟨0, .done hp, Nat.zero_add _⟩
  | case2 w v u later path hp w' hu ih =>
    obtain ⟨k, hk, hahead⟩ := ih
    refine ⟨k + 1, .enter hp hu hk, ?_⟩
    have henter : ahead g (w'.enter g u) = ahead g w' := ahead_enter hu
    have hnext : ahead g w' + 1 = ahead g w := by
      simp only [w', ahead, hp, List.map_cons, List.sum_cons, List.length_cons]
      omega
    omega
  | case3 w v u later path hp w' entry hu ih =>
    obtain ⟨k, hk, hahead⟩ := ih
    refine ⟨k + 1, .meet hp hu hk, ?_⟩
    have hmeet : ahead g (w'.meet v u entry) + 1 = ahead g w := ahead_meet hp entry
    omega
  | case4 w v path hp ih =>
    obtain ⟨k, hk, hahead⟩ := ih
    refine ⟨k + 1, .leave hp hk, ?_⟩
    have hleave : ahead g (w.leave v path) + 1 = ahead g w := ahead_leave hp
    omega

private theorem exists_visits (roots : List (Fin n)) (w : Walk n) :
    ∃ k, Visits g k roots w (roots.foldl (exploreFrom g) w) ∧
      k + ahead g (roots.foldl (exploreFrom g) w) = ahead g w := by
  induction roots generalizing w with
  | nil => exact ⟨0, .nil w, Nat.zero_add _⟩
  | cons root roots ih =>
    obtain ⟨k, hk, hahead⟩ := ih (exploreFrom g w root)
    rw [List.foldl_cons]
    cases hr : w.entered.get root with
    | some entry =>
      have hskip : exploreFrom g w root = w := by
        unfold exploreFrom
        split
        · rfl
        · rename_i hno
          cases hr.symm.trans hno
      rw [hskip] at hk hahead ⊢
      exact ⟨k, .skip hr hk, hahead⟩
    | none =>
      have hroot : exploreFrom g w root = explore g (w.enter g root) := by
        unfold exploreFrom
        split
        · rename_i entry hsome
          cases hr.symm.trans hsome
        · rfl
      obtain ⟨j, hj, hexplore⟩ := exists_explores g (w.enter g root)
      have henter : ahead g (w.enter g root) = ahead g w := ahead_enter hr
      rw [hroot] at hk hahead ⊢
      refine ⟨j + k, .explore hr hj hk, ?_⟩
      omega

/-- The walk through the whole graph ends after one round for each node and one for each edge. -/
theorem visits_whole (g : Graph n) : Visits g (n + ∑ v, (g.next v).length) (List.finRange n) {} (whole g) := by
  obtain ⟨-, hpath, hentered⟩ := inv_whole g
  obtain ⟨k, hk, hahead⟩ := exists_visits (g := g) (List.finRange n) {}
  have hend : ahead g (whole g) = 0 := by
    have hnone (v : Fin n) : ((whole g).entered.get v).isNone = false := by
      rw [← Option.not_isSome, hentered v]
      rfl
    simp [ahead, hpath, hnone]
  have hstart : ahead g {} = n + ∑ v, (g.next v).length := by
    simp [ahead, Vector.get, Finset.sum_add_distrib, Nat.add_comm]
  have hrounds : k = n + ∑ v, (g.next v).length := by
    change k + ahead g (whole g) = ahead g {} at hahead
    omega
  rw [← hrounds]
  exact hk

end Walk

/-! ### Components -/

namespace Graph

variable {n : Nat}

/-- The components are the classes of the nodes that reach each other, each completed after those that it reaches. -/
structure Decomposition (g : Graph n) (c : Components n) : Prop where
  ne_nil : ∀ members ∈ c.members, members ≠ []
  /-- Every node is in one place of one component. -/
  perm : c.members.toList.flatten.Perm (List.finRange n)
  exists_index : ∀ v, ∃ k, c.componentOf.get v = some k ∧
    ∀ j, (∃ members, c.members[j]? = some members ∧ v ∈ members) ↔ j = k
  same_iff : ∀ u v, c.componentOf.get u = c.componentOf.get v ↔ g.Reach u v ∧ g.Reach v u
  le_of_edge : ∀ u v j k, g.Edge u v → c.componentOf.get u = some k → c.componentOf.get v = some j → j ≤ k
  lt_of_reach : ∀ u v j k, g.Reach u v → c.componentOf.get u = some k → c.componentOf.get v = some j → j ≠ k → j < k

variable {g : Graph n} {componentOf : Vector (Option Nat) n} {components : Array (List (Fin n))}

/-- No path leads to a component completed later. -/
private theorem le_of_reach (h : Walk.Ordered g componentOf components) {u v : Fin n} {k : Nat} (huv : g.Reach u v)
    (hu : componentOf.get u = some k) : ∃ j ≤ k, componentOf.get v = some j := by
  induction huv with
  | refl => exact ⟨k, Nat.le_refl k, hu⟩
  | tail _ hedge ih =>
    obtain ⟨i, hik, hi⟩ := ih
    obtain ⟨j, hji, hj⟩ := h.le_of_edge _ _ i hedge hi
    exact ⟨j, Nat.le_trans hji hik, hj⟩

/-- Nodes that reach each other are in one component, since neither can come later. -/
private theorem eq_of_reach (h : Walk.Ordered g componentOf components) {u v : Fin n} {k : Nat} (huv : g.Reach u v)
    (hvu : g.Reach v u) (hu : componentOf.get u = some k) : componentOf.get v = some k := by
  obtain ⟨j, hjk, hj⟩ := le_of_reach h huv hu
  obtain ⟨i, hij, hi⟩ := le_of_reach h hvu hj
  obtain rfl : k = i := Option.some.inj (hu.symm.trans hi)
  have hkj : j = k := by omega
  rw [hj, hkj]

/-- Different components have no node in common. -/
private theorem nodup_flatten (h : Walk.Ordered g componentOf components) : components.toList.flatten.Nodup := by
  rw [List.nodup_flatten]
  constructor
  · intro members hm
    exact h.nodup members (Array.mem_toList_iff.1 hm)
  · rw [List.pairwise_iff_getElem]
    intro i j hi hj hij v hvi hvj
    have hget (k : Nat) (hk : k < components.toList.length) (hv : v ∈ components.toList[k]) :
        componentOf.get v = some k := by
      rw [← h.mem_iff]
      refine ⟨components.toList[k], ?_, hv⟩
      rw [← Array.getElem?_toList, List.getElem?_eq_getElem hk]
    have : i = j := Option.some.inj ((hget i hi hvi).symm.trans (hget j hj hvj))
    omega

private theorem perm_flatten (h : Walk.Ordered g componentOf components)
    (hall : ∀ v : Fin n, (componentOf.get v).isSome) : components.toList.flatten.Perm (List.finRange n) := by
  apply (List.perm_ext_iff_of_nodup (nodup_flatten h) (List.nodup_finRange n)).2
  intro v
  refine iff_of_true ?_ (List.mem_finRange v)
  obtain ⟨k, hk⟩ := Option.isSome_iff_exists.1 (hall v)
  obtain ⟨members, hm, hv⟩ := (h.mem_iff k v).2 hk
  rw [← Array.getElem?_toList] at hm
  exact List.mem_flatten.2 ⟨members, List.mem_of_getElem? hm, hv⟩

/-- For every graph the walk ends, after one round for each node and one for each edge.  What it has found are the
classes of the nodes that reach each other, as non-empty lists in which every node has its place, and each comes after
all others that it reaches. -/
theorem decomposition_components (g : Graph n) :
    Walk.Visits g (n + ∑ v, (g.next v).length) (List.finRange n) {} (Walk.whole g) ∧
      g.Decomposition g.components := by
  obtain ⟨h, hall⟩ := g.ordered_components
  refine ⟨Walk.visits_whole g,
    { ne_nil := h.ne_nil, perm := perm_flatten h hall, exists_index := fun v => ?_, same_iff := fun u v => ?_,
      le_of_edge := fun u v j k hedge hu hv => ?_, lt_of_reach := fun u v j k huv hu hv hne => ?_ }⟩
  · obtain ⟨k, hk⟩ := Option.isSome_iff_exists.1 (hall v)
    refine ⟨k, hk, fun j => ?_⟩
    rw [h.mem_iff, hk, Option.some.injEq]
    exact eq_comm
  · obtain ⟨k, hk⟩ := Option.isSome_iff_exists.1 (hall u)
    constructor
    · intro heq
      have hv := heq.symm.trans hk
      exact ⟨h.reach u v k hk hv, h.reach v u k hv hk⟩
    · rintro ⟨huv, hvu⟩
      rw [hk, eq_of_reach h huv hvu hk]
  · obtain ⟨i, hik, hi⟩ := h.le_of_edge u v k hedge hu
    obtain rfl : j = i := Option.some.inj (hv.symm.trans hi)
    exact hik
  · obtain ⟨i, hik, hi⟩ := le_of_reach h huv hu
    obtain rfl : j = i := Option.some.inj (hv.symm.trans hi)
    omega

/-- The path 0 → 1 ⇄ 2 → 3 has the component of 1 and 2 after that of 3 and before that of 0. -/
example : (⟨#v[[1], [2], [1, 3], []]⟩ : Graph 4).components.members = #[[3], [2, 1], [0]] := by decide +kernel

end Graph

end SetConstraints
