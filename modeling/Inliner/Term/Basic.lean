import Inliner.Reference

/-!
# Terms

Method bodies are lists of statements over expressions. An expression reads *cells*, the addressable
places of storage: variables, fields, array elements and the targets of pointers. Operands are
evaluated from left to right; only the right operand of a short-circuit operator and the arms of a
conditional are evaluated conditionally.
-/

namespace Inliner

open Std

/-- A variable, named by its position in the table of the method that declares it. Positions are
numbers below `2 ^ 32`, since tables do not get longer than that. -/
structure VarId where
  index : Nat
  deriving DecidableEq

namespace VarId

/-- The letter `v` and the position. -/
def render (id : VarId) : String :=
  "v" ++ toString id.index

instance : Ord VarId where
  compare a b := compare a.index b.index

instance : TransOrd VarId :=
  Lexicographic.transCmp_on VarId.index

instance : LawfulEqOrd VarId where
  compare_self := ReflCmp.compare_self
  eq_of_compare {a b} h := by
    have hindex : compare a.index b.index = .eq := h
    exact congrArg mk (LawfulEqCmp.eq_of_compare hindex)

end VarId

/-- A literal. -/
inductive Constant where
  | null
  | bool (value : Bool)
  | int (value : Int)
  | str (value : String)
  deriving DecidableEq

/-- A strict operator of one operand. -/
inductive UnaryOp where
  | neg
  | not
  | bitNot
  deriving DecidableEq

/-- A strict operator of two operands. -/
inductive BinaryOp where
  | add
  | sub
  | mul
  | div
  | rem
  | bitAnd
  | bitOr
  | bitXor
  | shl
  | shr
  | eq
  | ne
  | lt
  | le
  | gt
  | ge
  deriving DecidableEq

/-- The operator raises an exception on a zero divisor. -/
def BinaryOp.mayThrow : BinaryOp → Bool
  | .div => true
  | .rem => true
  | _ => false

/-- A short-circuit operator. -/
inductive LogicalOp where
  | and
  | or
  deriving DecidableEq

mutual

/-- An addressable place. -/
inductive Cell where
  /-- An argument or local. -/
  | var (id : VarId)
  /-- A field of an object. -/
  | field (object : Expr) (member : FieldRef)
  /-- A field of a type. -/
  | static (member : FieldRef)
  /-- An element of an array. -/
  | element (array : Expr) (index : Expr)
  /-- What a pointer points at. -/
  | deref (pointer : Expr)

/-- An expression. -/
inductive Expr where
  | const (value : Constant)
  /-- The contents of a cell. -/
  | read (cell : Cell)
  /-- A pointer to a cell. -/
  | addressOf (cell : Cell)
  | unary (op : UnaryOp) (operand : Expr)
  | binary (op : BinaryOp) (left : Expr) (right : Expr)
  /-- A short-circuit operation: the right operand is evaluated only if the left one does not decide. -/
  | logical (op : LogicalOp) (left : Expr) (right : Expr)
  /-- One of two expressions, chosen by a condition. -/
  | conditional (cond : Expr) (onTrue : Expr) (onFalse : Expr)
  /-- A call without a receiver. -/
  | call (method : MethodRef) (args : List Expr)
  /-- A call on a receiver, which is evaluated before the arguments. -/
  | callOn (method : MethodRef) (receiver : Expr) (args : List Expr)
  /-- The creation of an object by one of its constructors. -/
  | construct (method : MethodRef) (args : List Expr)
  /-- A value made ready for an imported, foreign callee. -/
  | marshalOut (value : Expr)
  /-- A value taken back from an imported, foreign callee. -/
  | marshalIn (value : Expr)

end

/-- A statement. -/
inductive Stmt where
  /-- Evaluates an expression for its effects. -/
  | eval (value : Expr)
  /-- Stores a value into a cell. -/
  | assign (target : Cell) (value : Expr)
  /-- Leaves the method. -/
  | ret (value : Option Expr)
  /-- Raises an exception. -/
  | raise (exception : Expr)
  /-- Runs one of two blocks, chosen by a condition. -/
  | branch (cond : Expr) (onTrue : List Stmt) (onFalse : List Stmt)

/-- The expression that reads a variable. -/
abbrev Expr.readVar (id : VarId) : Expr :=
  .read (.var id)

/-- The variable that the expression reads, if it does nothing else. -/
def Expr.variableRead? : Expr → Option VarId
  | .read (.var id) => some id
  | _ => none

namespace Stmt

mutual

/-- The number of statements, counting the nested ones. -/
def size : Stmt → Nat
  | .branch _ onTrue onFalse => 1 + (blockSize onTrue + blockSize onFalse)
  | _ => 1

/-- The number of statements of a block, counting the nested ones. -/
def blockSize : List Stmt → Nat
  | [] => 0
  | s :: rest => s.size + blockSize rest

end

mutual

/-- The statement may leave the method: it is a `ret`, or has one nested in it. -/
def containsReturn : Stmt → Bool
  | .ret _ => true
  | .branch _ onTrue onFalse => blockContainsReturn onTrue || blockContainsReturn onFalse
  | _ => false

/-- Some statement of the block may leave the method. -/
def blockContainsReturn : List Stmt → Bool
  | [] => false
  | s :: rest => s.containsReturn || blockContainsReturn rest

end

mutual

/-- The statement stores directly into the variable, at any depth. -/
def assigns (id : VarId) : Stmt → Bool
  | .assign (.var target) _ => target == id
  | .branch _ onTrue onFalse => blockAssigns id onTrue || blockAssigns id onFalse
  | _ => false

/-- Some statement of the block stores directly into the variable. -/
def blockAssigns (id : VarId) : List Stmt → Bool
  | [] => false
  | s :: rest => s.assigns id || blockAssigns id rest

end

end Stmt

end Inliner
