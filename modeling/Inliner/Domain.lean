/-!
# Abstract domains

The analyses describe what a term may do by elements of finite ordered domains. Elements come in
*shapes* (the number of slots they talk about); two elements of one shape have a least upper bound,
and two elements of different shapes have none, so `join` is partial.

* `Domain`: the order, the join and the test for independence of two elements.
* `Accumulator`: a value together with a flag that remembers whether any join has enlarged it.
* `FiniteHeight`: a domain in which every element has finitely many strict enlargements.
-/

namespace Inliner

/-- An ordered domain of abstract elements, all of whose tests are decided. -/
class Domain (α : Type) where
  /-- `le x y`: whatever `x` describes is described by `y`. Elements of different shapes are
  unrelated. -/
  le : α → α → Bool
  /-- The least upper bound, which exists exactly for two elements of one shape. -/
  join : α → α → Option α
  /-- The element is the least one of its shape. -/
  isBottom : α → Bool
  /-- The element is the greatest one of its shape. -/
  isTop : α → Bool
  /-- What the two elements describe does not interfere. -/
  commutes : α → α → Bool

/-- A domain without infinite ascents: `room x` bounds the number of proper enlargements that are
still possible above `x`. -/
class FiniteHeight (α : Type) [Domain α] where
  /-- How far `x` can still grow. -/
  room : α → Nat
  /-- No join gains room. -/
  room_le {x y z : α} : Domain.join x y = some z → room z ≤ room x
  /-- Joining in something new uses up room. -/
  room_lt {x y z : α} : Domain.join x y = some z → Domain.le y x = false → room z < room x

/-- A value that is enlarged by successive joins, with a flag that is raised by the first join that
enlarges it and stays raised until somebody lowers it. -/
structure Accumulator (α : Type) where
  value : α
  changed : Bool
  deriving DecidableEq

namespace Accumulator

variable {α : Type} [Domain α]

/-- Joins `y` in. The accumulator is returned as it was when `y` adds nothing; there is no result when
`y` has another shape. -/
def join? (acc : Accumulator α) (y : α) : Option (Accumulator α) :=
  if Domain.le y acc.value then some acc
  else (Domain.join acc.value y).map fun z => ⟨z, true⟩

/-- The accumulator after `y`, unchanged if `y` cannot be joined. -/
def joinOrKeep (acc : Accumulator α) (y : α) : Accumulator α :=
  (acc.join? y).getD acc

/-- The accumulator with its flag lowered. -/
def lower (acc : Accumulator α) : Accumulator α :=
  { acc with changed := false }

end Accumulator

/-! ### Truth values

A flag such as "may raise an exception": lowered is below raised, and two raised flags interfere. -/

instance : Domain Bool where
  le a b := !a || b
  join a b := some (a || b)
  isBottom a := !a
  isTop a := a
  commutes a b := !(a && b)

instance : FiniteHeight Bool where
  room a := if a then 0 else 1
  room_le {x y z} hz := by
    cases x <;> cases y <;> simp_all [Domain.join]
  room_lt {x y z} hz hy := by
    cases x <;> cases y <;> simp_all [Domain.join, Domain.le]

end Inliner
