import SetConstraints.Event

/-!
# Inboxes

What a propagator has yet to be told: for each of its slots, in increasing order, the delta that is pending.
`delta_push` says what a new event does to them.
-/

namespace SetConstraints

structure Inbox where
  pending : List (Slot × Delta) := []
  deriving DecidableEq, Repr

namespace Inbox

/-- The delta pending under `l` in a list of deltas. -/
def deltaIn (l : Slot) : List (Slot × Delta) → Delta
  | [] => {}
  | (k, d) :: r => if k = l then d else deltaIn l r

def pushIn (l : Slot) (e : Event) (v : Int32) : List (Slot × Delta) → List (Slot × Delta)
  | [] => [(l, Delta.push {} e v)]
  | (k, d) :: r =>
    if k = l then (k, d.push e v) :: r
    else if l.number < k.number then (l, Delta.push {} e v) :: (k, d) :: r
    else (k, d) :: pushIn l e v r

/-- What is pending under `l`; nothing is the empty delta. -/
def delta (b : Inbox) (l : Slot) : Delta := deltaIn l b.pending

/-- Adds an event under `l`. -/
def push (b : Inbox) (l : Slot) (e : Event) (v : Int32) : Inbox := ⟨pushIn l e v b.pending⟩

theorem deltaIn_eq_empty {l : Slot} {r : List (Slot × Delta)} (h : ∀ x ∈ r, l.number < x.1.number) :
    deltaIn l r = {} := by
  induction r with
  | nil => rfl
  | cons x r ih =>
    have hx : x.1 ≠ l := fun e => by have := h x (by simp); rw [e] at this; omega
    simp only [deltaIn, hx, if_false]
    exact ih fun y hy => h y (by simp [hy])

/-- Slots in increasing order. -/
def Sorted (b : Inbox) : Prop := b.pending.Pairwise (·.1.number < ·.1.number)

theorem delta_push {b : Inbox} (hb : b.Sorted) (l k : Slot) (e : Event) (v : Int32) :
    (b.push l e v).delta k = if k = l then (b.delta l).push e v else b.delta k := by
  obtain ⟨r⟩ := b
  simp only [push, delta, Sorted] at hb ⊢
  induction r with
  | nil => simp only [pushIn, deltaIn]; split <;> simp_all [eq_comm]
  | cons x r ih =>
    obtain ⟨m, d⟩ := x
    rw [List.pairwise_cons] at hb
    have ih := ih hb.2
    have hnil : l.number < m.number → deltaIn l r = {} := fun hlt =>
      deltaIn_eq_empty fun y hy => Nat.lt_trans hlt (hb.1 y hy)
    grind [pushIn, deltaIn]

end Inbox

end SetConstraints
