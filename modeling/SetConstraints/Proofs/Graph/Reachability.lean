import SetConstraints.Graph.Reachability
import SetConstraints.Proofs.Graph.Components
import Mathlib.Data.List.Cycle

/-!
# Reachability is the transitive closure

Since components come after those that they reach, the row of a component can always be built from rows that are
there, and it holds exactly the nodes reached from the component through at least one edge
(`Graph.exists_reachability`).  The nodes that reach themselves are then those on the cycles
(`Graph.reachability_exact`).
-/

namespace SetConstraints

namespace Reachability

variable {n : Nat} {g : Graph n} {c : Components n} {rows : Array (Vector Bool n)} {k : Nat}

/-- A path with at least one edge. -/
private abbrev Leads (g : Graph n) : Fin n → Fin n → Prop := Relation.TransGen g.Edge

/-- The row of a component holds the nodes that the component reaches. -/
private def Correct (g : Graph n) (c : Components n) (k : Nat) (row : Vector Bool n) : Prop :=
  ∀ w : Fin n, row.get w = true ↔ ∃ u : Fin n, c.componentOf.get u = some k ∧ Leads g u w

private theorem get_or (xs ys : Vector Bool n) (w : Fin n) :
    (Vector.zipWith (· || ·) xs ys).get w = (xs.get w || ys.get w) := by
  show (Vector.zipWith (· || ·) xs ys)[(w : Nat)] = (xs[(w : Nat)] || ys[(w : Nat)])
  exact Vector.getElem_zipWith _

/-- What a successor adds to a row. -/
private theorem addSuccessor?_spec {v : Fin n} {j : Nat} (hv : c.componentOf.get v = some j)
    (hj : j ≠ k → j < rows.size) (row : Vector Bool n) :
    ∃ row', addSuccessor? c rows k row v = some row' ∧ ∀ w : Fin n, row'.get w = true ↔
      row.get w = true ∨ w = v ∨ (j ≠ k ∧ ∃ r, rows[j]? = some r ∧ r.get w = true) := by
  have hset : ∀ w : Fin n, (row.set v true v.isLt).get w = true ↔ row.get w = true ∨ w = v := by
    intro w
    rw [Walk.get_set]
    grind
  by_cases hjk : j = k
  · exact ⟨row.set v true, by simp [addSuccessor?, hv, hjk], fun w => by rw [hset]; simp [hjk]⟩
  · have hr : rows[j]? = some rows[j] := Array.getElem?_eq_getElem (hj hjk)
    refine ⟨Vector.zipWith (· || ·) (row.set v true) rows[j], by simp [addSuccessor?, hv, hjk, hr], fun w => ?_⟩
    have := hset w
    rw [get_or, Bool.or_eq_true, this]
    simp [hjk, hr, or_assoc]

private theorem foldlM_addSuccessor? (l : List (Fin n))
    (hl : ∀ v ∈ l, ∃ j, c.componentOf.get v = some j ∧ (j ≠ k → j < rows.size)) (row : Vector Bool n) :
    ∃ row', l.foldlM (addSuccessor? c rows k) row = some row' ∧ ∀ w : Fin n, row'.get w = true ↔
      row.get w = true ∨ ∃ v ∈ l, w = v ∨
        ∃ j, c.componentOf.get v = some j ∧ j ≠ k ∧ ∃ r, rows[j]? = some r ∧ r.get w = true := by
  induction l generalizing row with
  | nil => exact ⟨row, rfl, by simp⟩
  | cons v l ih =>
    obtain ⟨j, hv, hj⟩ := hl v (by simp)
    obtain ⟨row', h1, h2⟩ := addSuccessor?_spec hv hj row
    obtain ⟨row'', h3, h4⟩ := ih (fun x hx => hl x (by simp [hx])) row'
    refine ⟨row'', by simp [List.foldlM_cons, h1, h3], fun w => ?_⟩
    rw [h4, h2]
    constructor
    · rintro ((h | rfl | ⟨hjk, h⟩) | ⟨x, hx, h⟩)
      · exact .inl h
      · exact .inr ⟨w, by simp, .inl rfl⟩
      · exact .inr ⟨v, by simp, .inr ⟨j, hv, hjk, h⟩⟩
      · exact .inr ⟨x, by simp [hx], h⟩
    · rintro (h | ⟨x, hx, h⟩)
      · exact .inl (.inl h)
      · rcases List.mem_cons.1 hx with rfl | hx
        · rcases h with rfl | ⟨i, hi, hik, h⟩
          · exact .inl (.inr (.inl rfl))
          · obtain rfl : j = i := Option.some.inj (hv.symm.trans hi)
            exact .inl (.inr (.inr ⟨hik, h⟩))
        · exact .inr ⟨x, hx, h⟩

/-- A path out of a component starts with edges inside it, then one that ends the path or leads to a component
whose row is known. -/
private theorem leads_iff (h : Walk.Ordered g c.componentOf c.members)
    (hall : ∀ v : Fin n, (c.componentOf.get v).isSome)
    {k : Nat} {w : Fin n} :
    (∃ u : Fin n, c.componentOf.get u = some k ∧ Leads g u w) ↔
      ∃ u v : Fin n, c.componentOf.get u = some k ∧ g.Edge u v ∧
        (w = v ∨
          ∃ j, c.componentOf.get v = some j ∧ j ≠ k ∧ ∃ x : Fin n, c.componentOf.get x = some j ∧ Leads g x w) := by
  constructor
  · rintro ⟨u, hu, hlead⟩
    induction hlead using Relation.TransGen.head_induction_on with
    | single huv => exact ⟨_, w, hu, huv, .inl rfl⟩
    | head huv hlead ih =>
      rename_i a b
      obtain ⟨j, hj⟩ := Option.isSome_iff_exists.1 (hall b)
      by_cases hjk : j = k
      · exact ih (hjk ▸ hj)
      · exact ⟨a, b, hu, huv, .inr ⟨j, hj, hjk, b, hj, hlead⟩⟩
  · rintro ⟨u, v, hu, huv, rfl | ⟨j, hj, -, x, hx, hlead⟩⟩
    · exact ⟨u, hu, .single huv⟩
    · exact ⟨u, hu, .head huv (Relation.TransGen.trans_right (h.reach v x j hj hx) hlead)⟩

/-- The rows of the components before determine the next one. -/
private theorem row?_spec (h : Walk.Ordered g c.componentOf c.members)
    (hall : ∀ v : Fin n, (c.componentOf.get v).isSome)
    {members : List (Fin n)} (hm : c.members[rows.size]? = some members)
    (hrows : ∀ j r, rows[j]? = some r → Correct g c j r) :
    ∃ row, row? g c rows rows.size members = some row ∧ Correct g c rows.size row := by
  have hmem : ∀ u : Fin n, u ∈ members ↔ c.componentOf.get u = some rows.size := by
    intro u
    rw [← h.mem_iff]
    simp [hm]
  have hsucc : ∀ v ∈ members.flatMap g.next,
      ∃ j, c.componentOf.get v = some j ∧ (j ≠ rows.size → j < rows.size) := by
    intro v hv
    obtain ⟨u, hu, huv⟩ := List.mem_flatMap.1 hv
    obtain ⟨j, hle, hj⟩ := h.le_of_edge u v _ huv ((hmem u).1 hu)
    exact ⟨j, hj, fun hne => by omega⟩
  obtain ⟨row, hrow, hspec⟩ := foldlM_addSuccessor? (members.flatMap g.next) hsucc (Vector.replicate n false)
  refine ⟨row, hrow, fun w => ?_⟩
  rw [hspec, leads_iff h hall]
  constructor
  · rintro (hf | ⟨v, hv, hw⟩)
    · simp [Vector.get] at hf
    · obtain ⟨u, hu, huv⟩ := List.mem_flatMap.1 hv
      refine ⟨u, v, (hmem u).1 hu, huv, hw.imp_right ?_⟩
      rintro ⟨j, hj, hjk, r, hr, hrw⟩
      exact ⟨j, hj, hjk, (hrows j r hr w).1 hrw⟩
  · rintro ⟨u, v, hu, huv, hw⟩
    refine .inr ⟨v, List.mem_flatMap.2 ⟨u, (hmem u).2 hu, huv⟩, hw.imp_right ?_⟩
    rintro ⟨j, hj, hjk, hlead⟩
    obtain ⟨i, hi, hij⟩ := hsucc v (List.mem_flatMap.2 ⟨u, (hmem u).2 hu, huv⟩)
    obtain rfl : j = i := Option.some.inj (hj.symm.trans hi)
    have hr : rows[j]? = some rows[j] := Array.getElem?_eq_getElem (hij hjk)
    exact ⟨j, hj, hjk, rows[j], hr, (hrows j _ hr w).2 hlead⟩

private theorem foldlM_addRow? (h : Walk.Ordered g c.componentOf c.members)
    (hall : ∀ v : Fin n, (c.componentOf.get v).isSome) (rows : Array (Vector Bool n)) (done l : List (List (Fin n)))
    (hl : c.members.toList = done ++ l)
    (hsize : rows.size = done.length) (hrows : ∀ j r, rows[j]? = some r → Correct g c j r) :
    ∃ rows', l.foldlM (addRow? g c) rows = some rows' ∧ rows'.size = c.members.size ∧
      ∀ j r, rows'[j]? = some r → Correct g c j r := by
  induction l generalizing done rows with
  | nil => exact ⟨rows, rfl, by rw [hsize, ← Array.length_toList, hl, List.append_nil], hrows⟩
  | cons members l ih =>
    have hm : c.members[rows.size]? = some members := by
      rw [← Array.getElem?_toList, hl, hsize]
      simp
    obtain ⟨row, hrow, hcorrect⟩ := row?_spec h hall hm hrows
    obtain ⟨rows', h1, h2, h3⟩ := ih (rows.push row) (done ++ [members]) (by simp [hl]) (by simp [hsize])
      fun j r hr => by
        rw [Array.getElem?_push] at hr
        split at hr
        · rename_i hj
          exact hj ▸ Option.some.inj hr ▸ hcorrect
        · exact hrows j r hr
    exact ⟨rows', by simp [List.foldlM_cons, addRow?, hrow, h1], h2, h3⟩

end Reachability

namespace Graph

variable {n : Nat} (g : Graph n)

/-- The rows of a graph are found, one for each component. -/
private theorem exists_rows :
    ∃ rows, Reachability.ofGraph? g = some ⟨g.components, rows⟩ ∧
      (∀ u : Fin n, ∃ j, g.components.componentOf.get u = some j ∧ j < rows.size) ∧
      ∀ j r, rows[j]? = some r → Reachability.Correct g g.components j r := by
  obtain ⟨h, hall⟩ := g.ordered_components
  obtain ⟨rows, hrows, hsize, hcorrect⟩ :=
    Reachability.foldlM_addRow? h hall #[] [] g.components.members.toList rfl rfl (by simp)
  refine ⟨rows, by simp [Reachability.ofGraph?, hrows], fun u => ?_, hcorrect⟩
  obtain ⟨j, hj⟩ := Option.isSome_iff_exists.1 (hall u)
  obtain ⟨members, hm, -⟩ := (h.mem_iff j u).2 hj
  exact ⟨j, hj, hsize ▸ (Array.getElem?_eq_some_iff.1 hm).1⟩

/-- The reachability of a graph is found, and it is the transitive closure of the edges. -/
theorem exists_reachability :
    ∃ r, Reachability.ofGraph? g = some r ∧ ∀ (u : Fin n) (v : Nat),
      r.reaches u v = true ↔ ∃ h : v < n, Relation.TransGen g.Edge u ⟨v, h⟩ := by
  obtain ⟨h, -⟩ := g.ordered_components
  obtain ⟨rows, hrows, hindex, hcorrect⟩ := g.exists_rows
  refine ⟨⟨g.components, rows⟩, hrows, fun u v => ?_⟩
  obtain ⟨j, hj, hlt⟩ := hindex u
  have hr : rows[j]? = some rows[j] := Array.getElem?_eq_getElem hlt
  have hu : g.components.componentOf[(u : Nat)] = some j := hj
  have hreaches : Reachability.reaches ⟨g.components, rows⟩ u v = (rows[j][v]?).getD false := by
    simp [Reachability.reaches, hu, hr]
  rw [hreaches]
  by_cases hv : v < n
  · rw [Vector.getElem?_eq_getElem hv, Option.getD_some]
    refine (hcorrect j _ hr ⟨v, hv⟩).trans ⟨?_, fun ⟨_, hlead⟩ => ⟨u, hj, hlead⟩⟩
    rintro ⟨x, hx, hlead⟩
    exact ⟨hv, Relation.TransGen.trans_right (h.reach u x j hj hx) hlead⟩
  · simp [hv]

/-- A path need not come back to a node. -/
private theorem exists_path {α : Type} {r : α → α → Prop} {a b : α} (h : Relation.ReflTransGen r a b) :
    ∃ l : List α, (a :: l).IsChain r ∧ (a :: l).Nodup ∧ (a :: l).getLast? = some b := by
  induction h using Relation.ReflTransGen.head_induction_on with
  | refl => exact ⟨[], by simp, by simp, rfl⟩
  | @head a c hac _ ih =>
    obtain ⟨l, hchain, hnodup, hlast⟩ := ih
    by_cases ha : a ∈ c :: l
    · -- the path is already there: its part from `a` on will do
      obtain ⟨s, t, hst⟩ := List.append_of_mem ha
      rw [hst] at hchain hnodup hlast
      exact ⟨t, hchain.right_of_append, hnodup.of_append_right, by simpa using hlast⟩
    · exact ⟨c :: l, hchain.cons_cons hac, List.nodup_cons.2 ⟨ha, hnodup⟩, by simpa using hlast⟩

/-- What leads to itself lies on a cycle, even on one without repetitions. -/
private theorem transGen_self_iff {α : Type} {r : α → α → Prop} {a : α} :
    Relation.TransGen r a a ↔ ∃ c : Cycle α, c.Nodup ∧ a ∈ c ∧ c.Chain r := by
  constructor
  · intro h
    obtain ⟨b, hab, hba⟩ := Relation.TransGen.head'_iff.1 h
    obtain ⟨l, hchain, hnodup, hlast⟩ := exists_path hba
    obtain ⟨m, hm⟩ := List.getLast?_eq_some_iff.1 hlast
    rw [hm] at hnodup
    refine ⟨(a :: m : List α), ?_, by simp, ?_⟩
    · rw [Cycle.nodup_coe_iff]
      exact (List.perm_append_singleton a m).nodup_iff.1 hnodup
    · rw [Cycle.chain_coe_cons, ← hm]
      exact hchain.cons_cons hab
  · rintro ⟨c, -, ha, hchain⟩
    have hclosed : c.Chain (Relation.TransGen r) := hchain.imp fun _ _ => .single
    exact Cycle.chain_iff_pairwise.1 hclosed a ha a ha

/-- For every graph, building the rows never asks for one that is not there yet, nor does looking up what a node
reaches; a node reaches exactly the nodes at the ends of its paths with at least one edge, so itself if and only if
it lies on a cycle. -/
theorem reachability_exact :
    ∃ r, Reachability.ofGraph? g = some r ∧
      (∀ u : Fin n, ∃ j, r.components.componentOf.get u = some j ∧ j < r.rows.size) ∧
      (∀ (u : Fin n) (v : Nat), r.reaches u v = true ↔ ∃ h : v < n, Relation.TransGen g.Edge u ⟨v, h⟩) ∧
      ∀ u : Fin n, r.reaches u u = true ↔ ∃ c : Cycle (Fin n), c.Nodup ∧ u ∈ c ∧ c.Chain g.Edge := by
  obtain ⟨rows, hrows, hindex, -⟩ := g.exists_rows
  obtain ⟨r, hr, hreaches⟩ := g.exists_reachability
  obtain rfl : ⟨g.components, rows⟩ = r := Option.some.inj (hrows.symm.trans hr)
  refine ⟨_, hrows, hindex, hreaches, fun u => ?_⟩
  rw [hreaches, ← transGen_self_iff]
  exact ⟨fun ⟨_, h⟩ => h, fun h => ⟨u.isLt, h⟩⟩

end Graph

end SetConstraints
