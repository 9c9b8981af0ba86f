import SetConstraints.Propagator

/-!
# Watch lists

For every variable, the propagators to be told about its events, in the order in which they registered.  A
propagator that registers a variable twice under one slot hears the events of both registrations once.
-/

namespace SetConstraints

structure Watcher where
  propagator : PropagatorId
  slot : Slot
  events : EventSet
  deriving DecidableEq, Repr

structure WatchList where
  sets : Table SetVar (List Watcher) := {}
  ints : Table IntVar (List Watcher) := {}
  deriving DecidableEq, Repr

namespace WatchList

/-- Adds a watcher, or widens the one there is for the same propagator and slot. -/
def join (w : Watcher) : List Watcher → List Watcher
  | [] => [w]
  | v :: l =>
    if v.propagator = w.propagator ∧ v.slot = w.slot then { v with events := v.events.union w.events } :: l
    else v :: join w l

/-- Makes room for a new set variable. -/
def addSet (l : WatchList) : WatchList := { l with sets := l.sets.push [] }

/-- Makes room for a new integer variable. -/
def addInt (l : WatchList) : WatchList := { l with ints := l.ints.push [] }

def watchers (l : WatchList) : Var → List Watcher
  | .set s => (l.sets.get? s).getD []
  | .int x => (l.ints.get? x).getD []

/-- The number of watchers of all variables. -/
def total (l : WatchList) : Nat := l.sets.sum List.length + l.ints.sum List.length

/-- The number of watchers to be told about a change. -/
def audience (l : WatchList) (c : Change) : Nat := (l.watchers c.var).countP fun w => w.events.contains c.event

/-- The number of pairs of a change and a watcher to be told about it. -/
def pairs (l : WatchList) : List Change → Nat
  | [] => 0
  | c :: cs => l.audience c + l.pairs cs

/-- Registers one wish of a propagator; nothing for a variable that does not exist. -/
def register? (l : WatchList) (p : PropagatorId) (r : Registration) : Option WatchList :=
  let w : Watcher := ⟨p, r.slot, r.events⟩
  match r.var with
  | .set s => (l.sets.get? s).map fun ws => { l with sets := l.sets.set s (join w ws) }
  | .int x => (l.ints.get? x).map fun ws => { l with ints := l.ints.set x (join w ws) }

/-- Registers the wishes of a propagator in order. -/
def registerAll? (l : WatchList) (p : PropagatorId) (rs : List Registration) : Option WatchList :=
  rs.foldlM (fun l r => l.register? p r) l

theorem length_watchers_le (l : WatchList) (v : Var) : (l.watchers v).length ≤ l.total := by
  cases v with
  | set s =>
    cases h : l.sets.get? s with
    | none => simp [watchers, h]
    | some ws => have := Table.le_sum h List.length; simp only [watchers, h, total, Option.getD]; omega
  | int x =>
    cases h : l.ints.get? x with
    | none => simp [watchers, h]
    | some ws => have := Table.le_sum h List.length; simp only [watchers, h, total, Option.getD]; omega

theorem pairs_append (l : WatchList) (cs ds : List Change) : l.pairs (cs ++ ds) = l.pairs cs + l.pairs ds := by
  induction cs with
  | nil => simp [pairs]
  | cons c cs ih => simp only [List.cons_append, pairs, ih, Nat.add_assoc]

theorem pairs_le (l : WatchList) (cs : List Change) : l.pairs cs ≤ l.total * cs.length := by
  induction cs with
  | nil => simp [pairs]
  | cons c cs ih =>
    have haudience : l.audience c ≤ l.total := Nat.le_trans List.countP_le_length (l.length_watchers_le c.var)
    simp only [pairs, List.length_cons, Nat.mul_add, Nat.mul_one]
    omega

end WatchList

end SetConstraints
