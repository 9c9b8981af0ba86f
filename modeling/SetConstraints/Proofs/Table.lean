import SetConstraints.Table

/-!
# What tables hold

Each operation on a table is described by what `get?` finds afterwards, and tables in which `get?` finds the same
are equal (`Table.ext_get?`).
-/

namespace SetConstraints

theorem Key.index_inj {κ : Type} [Key κ] {k k' : κ} : Key.index k = Key.index k' ↔ k = k' :=
  ⟨fun h => by rw [← Key.ofIndex_index k, ← Key.ofIndex_index k', h], fun h => h ▸ rfl⟩

namespace Table

@[simp] theorem size_map {κ α β : Type} (t : Table κ α) (f : α → β) : (t.map f).size = t.size := by
  simp [size, map]

variable {κ α β : Type} [Key κ] {t u : Table κ α} {k k' : κ} {a b : α}

theorem get?_set_self (h : t.get? k = some b) (a : α) : (t.set k a).get? k = some a := by
  simp [get?_set, h]

theorem get?_set_ne (t : Table κ α) (h : k' ≠ k) (a : α) : (t.set k a).get? k' = t.get? k' := by
  rw [get?_set, if_neg]
  exact fun he => h (Key.index_inj.1 he).symm

theorem ext_get? (h : ∀ k, t.get? k = u.get? k) : t = u := by
  obtain ⟨es⟩ := t
  obtain ⟨fs⟩ := u
  congr 1
  apply Array.ext_getElem?
  intro i
  have := h (Key.ofIndex i)
  rwa [get?, get?, Key.index_ofIndex] at this

theorem set_set_self (h : t.get? k = some b) (a : α) : (t.set k a).set k b = t := by
  refine ext_get? fun k' => ?_
  by_cases hk : k' = k
  · rw [hk, get?_set_self (get?_set_self h a), h]
  · rw [get?_set_ne _ hk, get?_set_ne _ hk]

theorem set_get? (h : t.get? k = some a) : t.set k a = t := by
  refine ext_get? fun k' => ?_
  by_cases hk : k' = k
  · rw [hk, get?_set_self h, h]
  · rw [get?_set_ne _ hk]

@[simp] theorem set_set (t : Table κ α) (k : κ) (a b : α) : (t.set k a).set k b = t.set k b := by
  simp [set]

@[simp] theorem get?_map (t : Table κ α) (f : α → β) (k : κ) : (t.map f).get? k = (t.get? k).map f := by
  simp [get?, map]

theorem get?_modify [DecidableEq κ] (t : Table κ α) (k k' : κ) (f : α → α) :
    (t.modify k f).get? k' = if k' = k then (t.get? k').map f else t.get? k' := by
  by_cases hk : k' = k
  · subst hk
    cases h : t.get? k' with
    | none => simp [modify, h]
    | some a => simp [modify, h, get?_set_self h]
  · cases h : t.get? k with
    | none => simp [modify, h, hk]
    | some a => simp [modify, h, hk, get?_set_ne t hk]

@[simp] theorem size_modify (t : Table κ α) (k : κ) (f : α → α) : (t.modify k f).size = t.size := by
  unfold modify
  split <;> simp

theorem isSome_get?_iff : (t.get? k).isSome ↔ Key.index k < t.size := by
  simp [get?, size]

/-- Tables of the same size have entries under the same keys. -/
theorem exists_get? {v : Table κ β} {c : β} (h : t.size = v.size) (hc : v.get? k = some c) :
    ∃ a, t.get? k = some a := by
  have hlt := isSome_get?_iff.1 (Option.isSome_iff_exists.2 ⟨c, hc⟩)
  exact Option.isSome_iff_exists.1 (isSome_get?_iff.2 (h ▸ hlt))

theorem get?_nextKey (t : Table κ α) : t.get? t.nextKey = none := by
  simp [get?_eq_none_iff, nextKey, Key.index_ofIndex]

theorem get?_push_eq [DecidableEq κ] (t : Table κ α) (a : α) (k : κ) :
    (t.push a).get? k = if k = t.nextKey then some a else t.get? k := by
  have : Key.index k = t.size ↔ k = t.nextKey := by
    rw [← Key.index_inj (k := k), nextKey, Key.index_ofIndex]
  rw [get?_push]
  simp only [this]

private theorem ne_nextKey (h : (t.get? k).isSome) : k ≠ t.nextKey := by
  rintro rfl
  simp [get?_nextKey] at h

theorem get?_push_of_isSome (h : (t.get? k).isSome) (a : α) : (t.push a).get? k = t.get? k := by
  have : Key.index k ≠ t.size := Nat.ne_of_lt (isSome_get?_iff.1 h)
  rw [get?_push, if_neg this]

theorem modify_push [DecidableEq κ] (h : (t.get? k).isSome) (a : α) (f : α → α) :
    (t.push a).modify k f = (t.modify k f).push a := by
  refine ext_get? fun j => ?_
  have hnext : (t.modify k f).nextKey = t.nextKey := by rw [nextKey, nextKey, size_modify]
  rw [get?_modify, get?_push_eq, get?_push_eq, hnext, get?_modify]
  have := ne_nextKey h
  grind

theorem set_push [DecidableEq κ] (h : (t.get? k).isSome) (a b : α) : (t.push a).set k b = (t.set k b).push a := by
  obtain ⟨c, hc⟩ := Option.isSome_iff_exists.1 h
  refine ext_get? fun j => ?_
  have hnext : (t.set k b).nextKey = t.nextKey := by rw [nextKey, nextKey, size_set]
  by_cases hj : j = k
  · subst hj
    rw [get?_set_self ((get?_push_of_isSome h a).trans hc), get?_push_of_isSome (by simp [get?_set_self hc]),
      get?_set_self hc]
  · rw [get?_set_ne _ hj, get?_push_eq, get?_push_eq, hnext, get?_set_ne _ hj]

theorem mem_keys_iff : k ∈ t.keys ↔ (t.get? k).isSome := by
  rw [isSome_get?_iff]
  simp only [keys, List.mem_map, List.mem_range]
  constructor
  · rintro ⟨i, hi, rfl⟩
    rwa [Key.index_ofIndex]
  · exact fun h => ⟨_, h, Key.ofIndex_index k⟩

private theorem keys_split {l₁ l₂ : List κ} (h : t.keys = l₁ ++ k :: l₂) (hj : Key.index k' < Key.index k) :
    k' ∈ l₁ := by
  have hk : k ∈ t.keys := by simp [h]
  have hmem : k' ∈ t.keys := by
    rw [mem_keys_iff, isSome_get?_iff] at hk ⊢
    exact Nat.lt_trans hj hk
  have hlt : t.keys.Pairwise fun a b => Key.index a < Key.index b := by
    refine List.pairwise_map.2 ((List.pairwise_lt_range (n := t.size)).imp fun {a b} hab => ?_)
    rwa [Key.index_ofIndex, Key.index_ofIndex]
  rw [h, List.pairwise_append] at hlt
  rw [h, List.mem_append, List.mem_cons] at hmem
  rcases hmem with hmem | rfl | hmem
  · exact hmem
  · exact absurd hj (Nat.lt_irrefl _)
  · exact absurd ((List.pairwise_cons.1 hlt.2.1).1 k' hmem) (Nat.lt_asymm hj)

/-- The first key in use for which there is something. -/
theorem findSome?_keys_eq_some {f : κ → Option β} {b : β} (h : t.keys.findSome? f = some b) :
    ∃ k, (t.get? k).isSome ∧ f k = some b ∧ ∀ k', Key.index k' < Key.index k → f k' = none := by
  obtain ⟨l₁, k, l₂, hkeys, hf, hno⟩ := List.findSome?_eq_some_iff.1 h
  exact ⟨k, mem_keys_iff.1 (by simp [hkeys]), hf, fun k' hk' => hno k' (keys_split hkeys hk')⟩

theorem findSome?_keys_eq_none {f : κ → Option β} (h : t.keys.findSome? f = none) (hk : (t.get? k).isSome) :
    f k = none :=
  List.findSome?_eq_none_iff.1 h k (mem_keys_iff.2 hk)

theorem getElem?_toList (t : Table κ α) (i : Nat) : t.toList[i]? = t.get? (Key.ofIndex i) := by
  rw [toList, get?, Key.index_ofIndex, Array.getElem?_toList]

theorem mem_toList_iff : a ∈ t.toList ↔ ∃ k, t.get? k = some a := by
  rw [toList, Array.mem_toList_iff, Array.mem_iff_getElem?]
  constructor
  · rintro ⟨i, hi⟩
    exact ⟨Key.ofIndex i, by rw [get?, Key.index_ofIndex, hi]⟩
  · rintro ⟨k, hk⟩
    exact ⟨_, hk⟩

end Table

end SetConstraints
