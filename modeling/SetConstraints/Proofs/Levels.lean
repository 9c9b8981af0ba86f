import SetConstraints.Proofs.Store

/-!
# Levels of a store

At every open level a store can bring back domains that are well formed and at least as wide as the current ones
(`Store.Valid`).  Narrowing, opening a level, going back and creating variables keep it so; a new variable is there
at all levels, with the domain it was created with (`Store.rewind_extend`).
-/

namespace SetConstraints

/-! ### New variables -/

def Domain.WellFormed : Domain → Prop
  | .set e => e.WellFormed
  | .int _ => True

namespace Domains

/-- The domains with those of a new variable. -/
def extend (d : Domains) : Domain → Domains
  | .set e => { d with sets := d.sets.push e }
  | .int e => { d with ints := d.ints.push e }

variable {d : Domains} {e : Domain} {w : Var}

private theorem get?_extend_set {s : SetVar} (h : d.Has (.set s)) : (d.extend e).sets.get? s = d.sets.get? s := by
  cases e with
  | set e =>
    exact Table.get?_push_of_isSome h e
  | int e => rfl

private theorem get?_extend_int {x : IntVar} (h : d.Has (.int x)) : (d.extend e).ints.get? x = d.ints.get? x := by
  cases e with
  | set e => rfl
  | int e =>
    exact Table.get?_push_of_isSome h e

theorem has_extend (h : d.Has w) : (d.extend e).Has w := by
  cases w with
  | set s => rwa [Has, get?_extend_set h]
  | int x => rwa [Has, get?_extend_int h]

theorem wellFormed_extend (hd : d.WellFormed) (he : e.WellFormed) : (d.extend e).WellFormed := by
  intro s f hf
  cases e with
  | set e =>
    rw [extend, Table.get?_push_eq] at hf
    split at hf
    · exact Option.some.inj hf ▸ he
    · exact hd s f hf
  | int e => exact hd s f hf

theorem agree_extend (h : d.Has w) : d.view.Agree (d.extend e).view w := by
  cases w with
  | set s => simp [View.Agree, view, get?_extend_set h]
  | int x => simp [View.Agree, view, get?_extend_int h]

/-- Nothing was known about a variable before it was there. -/
theorem view_extend_le (d : Domains) (e : Domain) : (d.extend e).view ≤ d.view where
  element s v := by
    by_cases h : d.Has (.set s)
    · exact .inr (agree_extend h v).symm
    · rw [Has, Option.not_isSome_iff_eq_none] at h
      exact .inl (by simp [view, h])
  low x := by
    by_cases h : d.Has (.int x)
    · exact Int32.le_of_eq (agree_extend h).1
    · rw [Has, Option.not_isSome_iff_eq_none] at h
      simp [view, h]
  high x := by
    by_cases h : d.Has (.int x)
    · exact Int32.le_of_eq (agree_extend h).2.symm
    · rw [Has, Option.not_isSome_iff_eq_none] at h
      simp [view, h]

theorem takeBack_extend {u : Undo} (h : d.Has u.var) : (d.extend e).takeBack u = (d.takeBack u).extend e := by
  cases u with
  | release s v =>
    cases e with
    | set e => simp only [extend, takeBack, Table.modify_push h]
    | int e => rfl
  | bounds x b =>
    cases e with
    | set e => rfl
    | int e => simp only [extend, takeBack, Table.set_push h]

theorem size_takeBack (d : Domains) (u : Undo) :
    (d.takeBack u).sets.size = d.sets.size ∧ (d.takeBack u).ints.size = d.ints.size := by
  cases u <;> simp [takeBack]

end Domains

namespace Store

variable {s t : Store} {level : Nat}

/-- The store with the domain of a new variable. -/
def extend (s : Store) (e : Domain) : Store := { s with domains := s.domains.extend e }

/-- Going back brings well formed domains that are at least as wide, and concerns existing variables only. -/
structure Valid (s : Store) : Prop where
  wellFormed_rewind : ∀ level ≤ s.depth, (s.rewind level).domains.WellFormed
  le_rewind : ∀ l ≤ s.depth, ∀ k ≤ l, (s.rewind l).domains.view ≤ (s.rewind k).domains.view
  has_undo : ∀ u ∈ s.trail.entries, s.domains.Has u.var

private theorem size_foldl (us : List Undo) (d : Domains) :
    (us.foldl Domains.takeBack d).sets.size = d.sets.size ∧
      (us.foldl Domains.takeBack d).ints.size = d.ints.size := by
  induction us generalizing d with
  | nil => exact ⟨rfl, rfl⟩
  | cons u us ih =>
    obtain ⟨hs, hi⟩ := d.size_takeBack u
    exact ⟨(ih _).1.trans hs, (ih _).2.trans hi⟩

@[simp] theorem size_sets_rewind (s : Store) (level : Nat) :
    (s.rewind level).domains.sets.size = s.domains.sets.size :=
  (size_foldl _ _).1

@[simp] theorem size_ints_rewind (s : Store) (level : Nat) :
    (s.rewind level).domains.ints.size = s.domains.ints.size :=
  (size_foldl _ _).2

theorem has_rewind_iff (s : Store) (level : Nat) (w : Var) : (s.rewind level).domains.Has w ↔ s.domains.Has w :=
  Domains.has_congr (size_sets_rewind s level) (size_ints_rewind s level) w

private theorem mem_entries_rewind {u : Undo} (h : u ∈ (s.rewind level).trail.entries) : u ∈ s.trail.entries := by
  rw [← Trail.entries_rewind s.trail level]
  exact List.mem_append_right _ h

theorem Valid.wellFormed (h : s.Valid) : s.domains.WellFormed := by
  have := h.wellFormed_rewind s.depth le_rfl
  rwa [rewind_depth] at this

theorem valid_empty : ({} : Store).Valid where
  wellFormed_rewind level _ s e h := by simp [rewind, Trail.rewind, Trail.depth, Trail.undo, Table.get?] at h
  le_rewind l hl k hk := by
    obtain rfl : l = 0 := Nat.le_zero.1 hl
    obtain rfl : k = 0 := Nat.le_zero.1 hk
    exact le_rfl
  has_undo u h := by simp [Trail.entries] at h

theorem Valid.le (h : s.Valid) {k : Nat} (hk : k ≤ s.depth) : s.domains.view ≤ (s.rewind k).domains.view := by
  have := h.le_rewind s.depth le_rfl k hk
  rwa [rewind_depth] at this

theorem Valid.narrower {P : Narrowing → Prop} (h : s.Valid) (hn : Narrower P s t) : t.Valid where
  wellFormed_rewind level hl := by
    rw [hn.depth_eq] at hl
    rcases Nat.lt_or_eq_of_le hl with hlt | rfl
    · rw [hn.rewind_eq level hlt]
      exact h.wellFormed_rewind level hl
    · rw [← hn.depth_eq, rewind_depth]
      exact hn.wellFormed
  le_rewind l hl k hk := by
    rw [hn.depth_eq] at hl
    rcases Nat.lt_or_eq_of_le hl with hlt | rfl
    · rw [hn.rewind_eq l hlt, hn.rewind_eq k (Nat.lt_of_le_of_lt hk hlt)]
      exact h.le_rewind l hl k hk
    · rcases Nat.lt_or_eq_of_le hk with hlt | rfl
      · rw [← hn.depth_eq, rewind_depth, hn.rewind_eq k hlt]
        exact le_trans hn.le (h.le hk)
      · exact le_rfl
  has_undo := hn.has_undo h.has_undo

theorem Valid.mark (h : s.Valid) : s.mark.Valid where
  wellFormed_rewind level hl := by
    rcases Nat.lt_or_eq_of_le hl with hlt | rfl
    · rw [rewind_mark (Nat.lt_succ_iff.1 hlt)]
      exact h.wellFormed_rewind level (Nat.lt_succ_iff.1 hlt)
    · rw [rewind_depth]
      exact h.wellFormed
  le_rewind l hl k hk := by
    rcases Nat.lt_or_eq_of_le hl with hlt | rfl
    · have hl := Nat.lt_succ_iff.1 hlt
      rw [rewind_mark hl, rewind_mark (le_trans hk hl)]
      exact h.le_rewind l hl k hk
    · rcases Nat.lt_or_eq_of_le hk with hlt | rfl
      · rw [rewind_depth, rewind_mark (Nat.lt_succ_iff.1 hlt)]
        exact h.le (Nat.lt_succ_iff.1 hlt)
      · exact le_rfl
  has_undo u hu := h.has_undo u (by simpa [Store.mark] using hu)

theorem Valid.rewind (h : s.Valid) (hl : level ≤ s.depth) : (s.rewind level).Valid where
  wellFormed_rewind k hk := by
    rw [depth_rewind s hl] at hk
    rw [rewind_rewind hk hl]
    exact h.wellFormed_rewind k (le_trans hk hl)
  le_rewind l hl' k hk := by
    rw [depth_rewind s hl] at hl'
    rw [rewind_rewind hl' hl, rewind_rewind (le_trans hk hl') hl]
    exact h.le_rewind l (le_trans hl' hl) k hk
  has_undo u hu := (s.has_rewind_iff level _).2 (h.has_undo u (mem_entries_rewind hu))

/-- Pending changes do not matter. -/
theorem Valid.of_changes (h : s.Valid) (cs : Array Change) : ({ s with changes := cs } : Store).Valid :=
  ⟨h.wellFormed_rewind, h.le_rewind, h.has_undo⟩

private theorem foldl_extend (us : List Undo) (d : Domains) (e : Domain) (h : ∀ u ∈ us, d.Has u.var) :
    us.foldl Domains.takeBack (d.extend e) = (us.foldl Domains.takeBack d).extend e := by
  induction us generalizing d with
  | nil => rfl
  | cons u us ih =>
    rw [List.foldl_cons, List.foldl_cons, Domains.takeBack_extend (h u (by simp))]
    obtain ⟨hs, hi⟩ := d.size_takeBack u
    exact ih _ fun x hx => (Domains.has_congr hs hi _).2 (h x (by simp [hx]))

/-- A new variable stays when the store goes back. -/
theorem rewind_extend (h : s.Valid) (e : Domain) (level : Nat) :
    (s.extend e).rewind level = (s.rewind level).extend e := by
  have hu : ∀ u ∈ (s.trail.rewind level).1, s.domains.Has u.var := fun u hu => h.has_undo u (by
    rw [← Trail.entries_rewind s.trail level]
    exact List.mem_append_left _ hu)
  simp only [rewind, extend, foldl_extend _ _ _ hu]

private theorem extend_le_extend {d d' : Domains} (e : Domain) (hs : d.sets.size = d'.sets.size)
    (hi : d.ints.size = d'.ints.size) (hle : d.view ≤ d'.view) : (d.extend e).view ≤ (d'.extend e).view := by
  cases e with
  | set e =>
    have hnext : d.sets.nextKey = d'.sets.nextKey := by rw [Table.nextKey, Table.nextKey, hs]
    refine ⟨fun s v => ?_, hle.low, hle.high⟩
    simp only [Domains.view, Domains.extend, Table.get?_push_eq, hnext]
    split
    · exact .inr rfl
    · exact hle.element s v
  | int e =>
    have hnext : d.ints.nextKey = d'.ints.nextKey := by rw [Table.nextKey, Table.nextKey, hi]
    refine ⟨hle.element, fun x => ?_, fun x => ?_⟩
    · simp only [Domains.view, Domains.extend, Table.get?_push_eq, hnext]
      split
      · exact Int32.le_refl _
      · exact hle.low x
    · simp only [Domains.view, Domains.extend, Table.get?_push_eq, hnext]
      split
      · exact Int32.le_refl _
      · exact hle.high x

theorem Valid.extend {e : Domain} (h : s.Valid) (he : e.WellFormed) : (s.extend e).Valid where
  wellFormed_rewind level hl := by
    rw [rewind_extend h]
    exact Domains.wellFormed_extend (h.wellFormed_rewind level hl) he
  le_rewind l hl k hk := by
    rw [rewind_extend h, rewind_extend h]
    exact extend_le_extend e (by rw [size_sets_rewind, size_sets_rewind]) (by rw [size_ints_rewind, size_ints_rewind])
      (h.le_rewind l hl k hk)
  has_undo u hu := Domains.has_extend (h.has_undo u hu)

end Store

end SetConstraints
