import Inliner.Fault
import Inliner.Listing

/-!
# Logic variables

An arena issues variables that may be given a value once and may be unified with each other. Unified
variables form a class with one *representative*; the others are linked to it, directly or through a
chain of links. Looking for the representative shortens the chain that was followed.

Every operation answers together with the arena that it leaves, also when it is at fault: naming a
variable that was never issued is out of range.
-/

namespace Inliner

/-- The state of one variable. -/
inductive Binding (α : Type) where
  /-- A representative without a value. -/
  | unbound
  /-- A representative with a value. -/
  | bound (value : α)
  /-- A variable that stands for another one. -/
  | link (target : Nat)

/-- The variables issued so far, by number. -/
structure Arena (α : Type) where
  cells : List (Binding α)

/-- What became of two values when their classes were merged. -/
structure Reconciled (α : Type) where
  /-- The surviving value, as it was left. -/
  value : α
  /-- The flag of the caller, as it was left. -/
  changed : Bool
  /-- The reason for refusing the merger, if there is one. -/
  fault : Option Fault

/-- The outcome of a unification. -/
structure Unified where
  /-- The reason why the classes could not be merged, if they were not. -/
  fault : Option Fault
  /-- The flag of the caller afterwards. -/
  changed : Bool
  /-- Two values had to be reconciled. -/
  reconciled : Bool

namespace Arena

variable {α : Type}

/-- The arena that has issued no variable. -/
def empty : Arena α :=
  ⟨[]⟩

/-- The number of variables issued. -/
def size (a : Arena α) : Nat :=
  a.cells.length

/-- Follows at most `n` links from `v`. -/
def chase (cells : List (Binding α)) : Nat → Nat → Nat
  | 0, v => v
  | n + 1, v =>
    match cells[v]? with
    | some (.link next) => chase cells n next
    | _ => v

/-- The representative of `v`. A chain without repetitions has fewer links than there are variables. -/
def root (a : Arena α) (v : Nat) : Nat :=
  chase a.cells a.size v

/-- Links every variable on the chain from `v` to `root` directly, for at most `n` links. -/
def compress (root : Nat) : Nat → Nat → List (Binding α) → List (Binding α)
  | 0, _, cells => cells
  | n + 1, v, cells =>
    match cells[v]? with
    | some (.link next) =>
      if next = root then cells else compress root n next (cells.set v (.link root))
    | _ => cells

/-- An operation on an arena. -/
abbrev Op (α : Type) : Type → Type :=
  EStateM Fault (Arena α)

/-- Issues a variable in the given state. -/
def issue (b : Binding α) : Op α Nat := fun a =>
  .ok a.size ⟨a.cells ++ [b]⟩

/-- Issues a variable without a value. -/
def fresh : Op α Nat :=
  issue .unbound

/-- Issues a variable with a value. -/
def freshBound (value : α) : Op α Nat :=
  issue (.bound value)

/-- The representative of `v`. The chain from `v` to it is compressed. -/
def follow (v : Nat) : Op α Nat := fun a =>
  if v < a.size then .ok (a.root v) ⟨compress (a.root v) a.size v a.cells⟩
  else .error .outOfRange a

/-- The value at a representative. -/
def valueAt (a : Arena α) (r : Nat) : Option α :=
  match a.cells[r]? with
  | some (.bound value) => some value
  | _ => none

/-- The arena with the state of one variable replaced. -/
def setCell (a : Arena α) (v : Nat) (b : Binding α) : Arena α :=
  ⟨a.cells.set v b⟩

/-- The value of the class of `v`, if it has one. -/
def value (v : Nat) : Op α (Option α) := do
  let r ← follow v
  return (← get).valueAt r

/-- The class of `v` has a value. -/
def isBound (v : Nat) : Op α Bool := do
  return (← value v).isSome

/-- Replaces the value of the class of `v`, if it has one, and returns the new value. -/
def update (v : Nat) (f : α → α) : Op α (Option α) := do
  let r ← follow v
  match (← get).valueAt r with
  | some x =>
    modify fun a => a.setCell r (.bound (f x))
    return some (f x)
  | none => return none

/-- Gives a value to the class of `v`, which must have none. -/
def bind (v : Nat) (x : α) : Op α Unit := do
  let r ← follow v
  match (← get).valueAt r with
  | some _ => throw .alreadyBound
  | none => modify fun a => a.setCell r (.bound x)

/-- Merges the classes of `v` and `w`. If both have values, `reconcile` is given the value of `v`, that
of `w` and the flag; the class of `w` is then linked to that of `v`. If only one has a value, the other
class is linked to it. Every merger of two classes raises the flag. When `reconcile` refuses, the
classes stay apart, and the value of `v` is as `reconcile` left it. -/
def unify (v w : Nat) (reconcile : α → α → Bool → Reconciled α) (changed : Bool) :
    Op α Unified := do
  let rv ← follow v
  let rw ← follow w
  if rv = rw then return ⟨none, changed, false⟩
  match (← get).valueAt rv, (← get).valueAt rw with
  | some x, some y =>
    let outcome := reconcile x y changed
    modify fun a => a.setCell rv (.bound outcome.value)
    match outcome.fault with
    | some fault => return ⟨some fault, outcome.changed, true⟩
    | none =>
      modify fun a => a.setCell rw (.link rv)
      return ⟨none, true, true⟩
  | none, some _ =>
    modify fun a => a.setCell rv (.link rw)
    return ⟨none, true, false⟩
  | _, none =>
    modify fun a => a.setCell rw (.link rv)
    return ⟨none, true, false⟩

/-! ### Printed form -/

/-- The number of a variable after a question mark. -/
def renderVar (v : Nat) : String :=
  "?" ++ toString v

/-- The listing of the state of a variable. -/
def bindingListing (item : α → Listing) : Binding α → Listing
  | .unbound => .atom "Unbound"
  | .bound x => .node "Bound" [item x]
  | .link v => .node "Link" [.atom (renderVar v)]

/-- The listing of all variables. -/
def listing (item : α → Listing) (a : Arena α) : Listing :=
  .labelledNode "LogicArena" [("cells", .items (a.cells.map (bindingListing item)))]

end Arena

end Inliner
