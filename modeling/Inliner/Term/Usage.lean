import Inliner.Usage

/-!
# The usage of terms

The references that a term makes, added to a record. The arms of a branch or conditional are
alternatives of each other, and the right operand of a short-circuit operator is an alternative to
nothing at all. Storing into a variable is no reference to it.
-/

namespace Inliner

variable {ν : Type} [Count ν]

mutual

/-- Adds the references made by reading a cell. -/
def Cell.addUsage : Cell → Bool → Usage ν → Usage ν
  | .var id, always, u => u.addVariable id 1 always
  | .field object member, always, u => (object.addUsage always u).addField member 1 always
  | .static member, always, u => u.addField member 1 always
  | .element array index, always, u => index.addUsage always (array.addUsage always u)
  | .deref pointer, always, u => pointer.addUsage always u

/-- Adds the references made by an expression; `always` tells whether it is evaluated on every
path. -/
def Expr.addUsage : Expr → Bool → Usage ν → Usage ν
  | .const _, _, u => u
  | .read cell, always, u => cell.addUsage always u
  | .addressOf (.var id), always, u => u.addPointer id 1 always
  | .addressOf cell, always, u => cell.addUsage always u
  | .unary _ operand, always, u => operand.addUsage always u
  | .binary _ left right, always, u => right.addUsage always (left.addUsage always u)
  | .logical _ left right, always, u =>
    (left.addUsage always u).merge (Usage.either [right.addUsage true .empty, .empty]) always
  | .conditional cond onTrue onFalse, always, u =>
    (cond.addUsage always u).merge
      (Usage.either [onTrue.addUsage true .empty, onFalse.addUsage true .empty]) always
  | .call method args, always, u => Expr.addUsages args always (u.addMethod method 1 always)
  | .callOn method receiver args, always, u =>
    Expr.addUsages args always (receiver.addUsage always (u.addMethod method 1 always))
  | .construct method args, always, u => Expr.addUsages args always (u.addMethod method 1 always)
  | .marshalOut value, always, u => value.addUsage always u
  | .marshalIn value, always, u => value.addUsage always u

/-- Adds the references made by several expressions. -/
def Expr.addUsages : List Expr → Bool → Usage ν → Usage ν
  | [], _, u => u
  | e :: rest, always, u => Expr.addUsages rest always (e.addUsage always u)

end

/-- The references made by an expression that is evaluated. -/
def Expr.usage (e : Expr) : Usage ν :=
  e.addUsage true .empty

/-- Adds the references made by storing into a cell, or taking a pointer to it, without the access to
a variable itself. -/
def Cell.addTargetUsage : Cell → Bool → Usage ν → Usage ν
  | .var _, _, u => u
  | cell, always, u => cell.addUsage always u

mutual

/-- Adds the references made by a statement; `always` tells whether it is run on every path. -/
def Stmt.addUsage : Stmt → Bool → Usage ν → Usage ν
  | .eval value, always, u => value.addUsage always u
  | .assign target value, always, u => value.addUsage always (target.addTargetUsage always u)
  | .ret none, _, u => u
  | .ret (some value), always, u => value.addUsage always u
  | .raise exception, always, u => exception.addUsage always u
  | .branch cond onTrue onFalse, always, u =>
    (cond.addUsage always u).merge
      (Usage.either
        [Stmt.addBlockUsage onTrue true .empty, Stmt.addBlockUsage onFalse true .empty]) always

/-- Adds the references made by the statements of a block. -/
def Stmt.addBlockUsage : List Stmt → Bool → Usage ν → Usage ν
  | [], _, u => u
  | s :: rest, always, u => Stmt.addBlockUsage rest always (s.addUsage always u)

end

/-- The references made by a block that is run. -/
def Stmt.blockUsage (block : List Stmt) : Usage ν :=
  Stmt.addBlockUsage block true .empty

end Inliner
