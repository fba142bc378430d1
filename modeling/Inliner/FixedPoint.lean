import Inliner.Domain

/-!
# Least fixed points by ascent

Starting from some element, a step function is applied over and over, and each answer is joined into
the current element, until the step adds nothing. Because every round enlarges the current element,
the ascent ends in any domain of finite height, for every step function.
-/

namespace Inliner

/-- The course of an ascent: the elements at which the step was evaluated, in order, and the element
reached. There is no limit when the step left the shape of the current element. -/
structure Ascent (α : Type) where
  visited : List α
  limit : Option α

/-- Ascends from `x` along `step`. -/
def ascend {α : Type} [Domain α] [FiniteHeight α] (step : α → α) (x : α) : Ascent α :=
  if _hle : Domain.le (step x) x = true then ⟨[x], some x⟩
  else
    match _hz : Domain.join x (step x) with
    | none => ⟨[x], none⟩
    | some z =>
      let rest := ascend step z
      ⟨x :: rest.visited, rest.limit⟩
termination_by FiniteHeight.room x
decreasing_by exact FiniteHeight.room_lt _hz (by simpa using _hle)

/-- The element at which the ascent from `start` stops. -/
def lfp {α : Type} [Domain α] [FiniteHeight α] (start : α) (step : α → α) : Option α :=
  (ascend step start).limit

/-- A guarded inclusion: whatever lies above `guard` is to lie above `bound` too. -/
structure Inclusion (α : Type) where
  guard : α
  bound : α

namespace Inclusion

variable {α : Type} [Domain α]

/-- Joins into `next` the bounds of those inclusions whose guards lie below `x`, in order. A bound of
another shape than what was gathered so far becomes the answer at once. -/
def gather (x : α) : List (Inclusion α) → α → α
  | [], next => next
  | r :: rest, next =>
    if Domain.le r.guard x then
      match Domain.join next r.bound with
      | some z => gather x rest z
      | none => r.bound
    else gather x rest next

/-- One round of a system of inclusions. -/
def step (system : List (Inclusion α)) (x : α) : α :=
  gather x system x

end Inclusion

end Inliner
