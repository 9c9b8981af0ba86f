import SetConstraints.Store

/-!
# Actions

An action is what a propagator does in a call: it looks at the domains, narrows them, asks to rest, or stops.  It
has no other way to change a store, so a fact that holds of the four narrowings holds of every action by
induction; `potential_run` is the first such fact.
-/

namespace SetConstraints

inductive Action (α : Type)
  | done (a : α)
  | look (next : Domains → Action α)
  | narrow (n : Narrowing) (next : Action α)
  /-- Asks that the propagator be left alone until the solver goes back. -/
  | rest (next : Action α)
  | stop (why : Stop Contradiction)

/-- What a call comes to: the store it leaves, whether rest was asked for, and how it ended. -/
structure Reply (α : Type) where
  store : Store
  resting : Bool
  result : Except (Stop Contradiction) α

namespace Action

variable {α β : Type}

def bind : Action α → (α → Action β) → Action β
  | done a, f => f a
  | look next, f => look fun d => (next d).bind f
  | narrow n next, f => narrow n (next.bind f)
  | rest next, f => rest (next.bind f)
  | stop why, _ => stop why

instance : Monad Action where
  pure := done
  bind := bind

/-- Performs an action.  A narrowing that fails ends it, and what was done before stays. -/
def run : Action α → Store → Bool → Reply α
  | done a, s, resting => ⟨s, resting, .ok a⟩
  | look next, s, resting => (next s.domains).run s resting
  | narrow n next, s, resting =>
    match s.narrow n with
    | .error why => ⟨s, resting, .error why⟩
    | .ok t => next.run t resting
  | rest next, s, _ => next.run s true
  | stop why, s, resting => ⟨s, resting, .error why⟩

/-! ### Steps of an action -/

def require (s : SetVar) (v : Int32) : Action Unit := narrow (.require s v) (done ())

def exclude (s : SetVar) (v : Int32) : Action Unit := narrow (.exclude s v) (done ())

def atLeast (x : IntVar) (v : Int32) : Action Unit := narrow (.atLeast x v) (done ())

def atMost (x : IntVar) (v : Int32) : Action Unit := narrow (.atMost x v) (done ())

def askRest : Action Unit := rest (done ())

/-- Ends the call, finding no solution left. -/
def fail (propagator : String) : Action Unit := stop (.error (.inconsistent propagator))

/-- The current domains. -/
def domains : Action Domains := look done

/-- Goes on with a result, or stops at a fault. -/
def lift : Except Fault α → Action α
  | .ok a => done a
  | .error f => stop (.fault f)

/-- The current domain of `s`. -/
def set (s : SetVar) : Action SetDomain := look fun d => lift (d.set? s)

/-- The current domain of `x`. -/
def int (x : IntVar) : Action IntDomain := look fun d => lift (d.int? x)

/-! ### What every action keeps -/

theorem run_bind (a : Action α) (f : α → Action β) (s : Store) (resting : Bool) :
    (a.bind f).run s resting =
      match a.run s resting with
      | ⟨t, r, .ok x⟩ => (f x).run t r
      | ⟨t, r, .error why⟩ => ⟨t, r, .error why⟩ := by
  induction a generalizing s resting with
  | done x => rfl
  | look next ih => exact ih s.domains s resting
  | narrow n next ih =>
    simp only [bind, run]
    cases s.narrow n with
    | error why => rfl
    | ok t => exact ih t resting
  | rest next ih => exact ih s true
  | stop why => rfl

/-- An action turns possible changes into pending ones and loses none of the account. -/
theorem potential_run (a : Action α) (s : Store) (resting : Bool) :
    (a.run s resting).store.potential ≤ s.potential := by
  induction a generalizing s resting with
  | done x => exact Nat.le_refl _
  | look next ih => exact ih s.domains s resting
  | narrow n next ih =>
    simp only [run]
    split
    · exact Nat.le_refl _
    · rename_i t h
      exact Nat.le_trans (ih t resting) (Store.potential_of_narrow h)
  | rest next ih => exact ih s true
  | stop why => exact Nat.le_refl _

end Action

end SetConstraints
